import Hyperplane.Lib.Shards
import Hyperplane.Index.MemcmpAccelerator

/-! The memcmp accelerator of all programs. The offsets of a program are fixed by the
first call that configures it or inserts one of its accounts. -/
namespace Hyperplane
open Maps Transition

namespace OffsetIndexes

variable {S : Type}

/-- Only the places of tracked offsets of a known size are indexed. -/
def Placed (offsets : List CommonOffset) (indexes : OffsetIndexes S) : Prop :=
  ∀ place : Nat, indexes[place]?.isSome → ∃ o ∈ offsets, o.offset = place ∧ 0 < o.expectedSize

variable {offsets : List CommonOffset} {indexes : OffsetIndexes S}

theorem placed_empty : Placed offsets (∅ : OffsetIndexes S) := by
  intro place there
  simp at there

variable [IdSet S] (accountId : Nat) (data : List UInt8)

theorem Placed.insertAt (h : Placed offsets indexes) {o : CommonOffset} (among : o ∈ offsets) :
    Placed offsets (insertAt accountId data indexes o) := by
  intro place there
  unfold OffsetIndexes.insertAt at there
  cases stands : o.bytesOf data with
  | none =>
    rw [stands] at there
    exact h place there
  | some bytes =>
    rw [stands] at there
    by_cases same : place = o.offset
    · exact ⟨o, among, same.symm, ((o.bytesOf_eq_some_iff data bytes).mp stands).1⟩
    · rw [getElem?_entry_ne _ same] at there
      exact h place there

theorem Placed.removeAt (h : Placed offsets indexes) {o : CommonOffset} (among : o ∈ offsets) :
    Placed offsets (removeAt accountId data indexes o) := by
  intro place there
  unfold OffsetIndexes.removeAt at there
  split at there
  · rename_i bytes index stands _
    by_cases same : place = o.offset
    · exact ⟨o, among, same.symm, ((o.bytesOf_eq_some_iff data bytes).mp stands).1⟩
    · rw [getElem?_insert_ne _ same] at there
      exact h place there
  · exact h place there

end OffsetIndexes

/-- The offsets that an accelerator tracks are all that it indexes. -/
def ProgramMemcmpAccelerator.Placed {S : Type} (self : ProgramMemcmpAccelerator S) : Prop :=
  OffsetIndexes.Placed self.trackedOffsets self.offsetIndexes

structure MemcmpAccelerator (S : Type) where
  programAccelerators : Std.TreeMap Pubkey (ProgramMemcmpAccelerator S)
  programOffsetConfigs : Std.TreeMap Pubkey (List CommonOffset)

namespace MemcmpAccelerator

variable {S : Type} [IdSet S]

def new : MemcmpAccelerator S := ⟨∅, ∅⟩

/-- A program that has an accelerator keeps the offsets of the accelerator. -/
def configureProgram (self : MemcmpAccelerator S) (programId : Pubkey) (offsets : List CommonOffset) :
    MemcmpAccelerator S where
  programOffsetConfigs := self.programOffsetConfigs.insert programId offsets
  programAccelerators := entry self.programAccelerators programId (.new programId offsets) id

def insertAccount (self : MemcmpAccelerator S) (programId : Pubkey) (accountId : Nat) (data : List UInt8) :
    MemcmpAccelerator S where
  programOffsetConfigs := self.programOffsetConfigs
  programAccelerators :=
    let offsets := self.programOffsetConfigs[programId]?.getD [.discriminator, .owner]
    entry self.programAccelerators programId (.new programId offsets) fun accelerator =>
      accelerator.insertAccount accountId data

def removeAccount (self : MemcmpAccelerator S) (programId : Pubkey) (accountId : Nat) (data : List UInt8) :
    MemcmpAccelerator S :=
  match self.programAccelerators[programId]? with
  | some accelerator => {
      programOffsetConfigs := self.programOffsetConfigs
      programAccelerators :=
        self.programAccelerators.insert programId (accelerator.removeAccount accountId data) }
  | none => self

def query (self : MemcmpAccelerator S) (programId : Pubkey) (offset : Nat) (bytes : List UInt8) :
    Option (PubkeyBitmap S) :=
  self.programAccelerators[programId]?.bind fun accelerator => accelerator.query offset bytes

end MemcmpAccelerator

inductive ProgramsCall where
  | configureProgram (programId : Pubkey) (offsets : List CommonOffset)
  | insertAccount (programId : Pubkey) (accountId : Nat) (data : List UInt8)
  | removeAccount (programId : Pubkey) (accountId : Nat) (data : List UInt8)

def ProgramsCall.program : ProgramsCall → Pubkey
  | .configureProgram programId _ => programId
  | .insertAccount programId _ _ => programId
  | .removeAccount programId _ _ => programId

/-- The offsets that the calls of a program fix. -/
def fixedOffsets : List ProgramsCall → List CommonOffset
  | [] => []
  | .configureProgram _ offsets :: _ => offsets
  | .insertAccount _ _ _ :: _ => [.discriminator, .owner]
  | .removeAccount _ _ _ :: rest => fixedOffsets rest

/-- The accelerator, and the data of every account that is stored under a program. -/
structure ProgramsRun (S : Type) where
  accelerator : MemcmpAccelerator S
  stored : Pubkey → Nat → Option (List UInt8)

/-- The part of one program. -/
structure ProgramShard (S : Type) where
  accelerator : Option (ProgramMemcmpAccelerator S)
  config : Option (List CommonOffset)
  stored : Nat → Option (List UInt8)

namespace ProgramsRun

variable {S : Type} [IdSet S]

def start : ProgramsRun S := ⟨.new, fun _ _ => none⟩

/-- Under each program only an id that is not stored is inserted, and a stored one is
removed only with the data it was inserted with. -/
def step (s : ProgramsRun S) : ProgramsCall → Option (ProgramsRun S)
  | .configureProgram programId offsets => some ⟨s.accelerator.configureProgram programId offsets, s.stored⟩
  | .insertAccount programId accountId data =>
    if s.stored programId accountId = none then
      some ⟨s.accelerator.insertAccount programId accountId data, Function.update s.stored programId
        (Function.update (s.stored programId) accountId (some data))⟩
    else none
  | .removeAccount programId accountId data =>
    if s.stored programId accountId = none ∨ s.stored programId accountId = some data then
      some ⟨s.accelerator.removeAccount programId accountId data, Function.update s.stored programId
        (Function.update (s.stored programId) accountId none)⟩
    else none

def view (s : ProgramsRun S) (programId : Pubkey) : ProgramShard S where
  accelerator := s.accelerator.programAccelerators[programId]?
  config := s.accelerator.programOffsetConfigs[programId]?
  stored := s.stored programId

end ProgramsRun

namespace ProgramShard

variable {S : Type} [IdSet S]

/-- The part as a run of its accelerator, which has no accounts before it is made. -/
def run (v : ProgramShard S) (programId : Pubkey) : AcceleratorRun S where
  accelerator := v.accelerator.getD (.new programId (v.config.getD [.discriminator, .owner]))
  stored := v.stored

def step (v : ProgramShard S) : ProgramsCall → Option (ProgramShard S)
  | .configureProgram programId offsets =>
    some ⟨some (v.accelerator.getD (.new programId offsets)), some offsets, v.stored⟩
  | .insertAccount programId accountId data =>
    ((v.run programId).step (.insertAccount accountId data)).map fun u => ⟨some u.accelerator, v.config, u.stored⟩
  | .removeAccount programId accountId data =>
    ((v.run programId).step (.removeAccount accountId data)).map fun u =>
      ⟨v.accelerator.map fun _ => u.accelerator, v.config, u.stored⟩

/-- The offsets that count: those of the accelerator, or those that the calls to come fix. -/
def offsets (v : ProgramShard S) (calls : List ProgramsCall) : List CommonOffset :=
  (v.accelerator.map (·.trackedOffsets)).getD (fixedOffsets calls)

/-- A program without an accelerator has no offsets and no accounts; an accelerator
lists exactly the accounts of its program. -/
structure Exact (v : ProgramShard S) : Prop where
  unmade : v.accelerator = none → v.config = none ∧ v.stored = fun _ => none
  made : ∀ a, v.accelerator = some a → AcceleratorRun.Exact a.trackedOffsets ⟨a, v.stored⟩
  placed : ∀ a, v.accelerator = some a → a.Placed

variable {v w : ProgramShard S} {call : ProgramsCall}

theorem Exact.run (h : v.Exact) (programId : Pubkey) :
    (v.run programId).Exact (v.run programId).accelerator.trackedOffsets := by
  unfold ProgramShard.run
  cases made : v.accelerator with
  | none =>
    rw [(h.unmade made).2]
    exact AcceleratorRun.start_exact programId _
  | some a => exact h.made a made

theorem Exact.placed_run (h : v.Exact) (programId : Pubkey) : (v.run programId).accelerator.Placed := by
  unfold ProgramShard.run
  cases made : v.accelerator with
  | none => exact OffsetIndexes.placed_empty
  | some a => exact h.placed a made

theorem placed_step {s t : AcceleratorRun S} {call : AcceleratorCall} (placed : s.accelerator.Placed)
    (taken : s.step call = some t) : t.accelerator.Placed := by
  cases call with
  | insertAccount accountId data =>
    simp only [AcceleratorRun.step] at taken
    split at taken <;> cases taken
    exact List.foldlRecOn (motive := OffsetIndexes.Placed s.accelerator.trackedOffsets)
      s.accelerator.trackedOffsets _ placed fun _ kept _ among => kept.insertAt accountId data among
  | removeAccount accountId data =>
    simp only [AcceleratorRun.step] at taken
    split at taken <;> cases taken
    exact List.foldlRecOn (motive := OffsetIndexes.Placed s.accelerator.trackedOffsets)
      s.accelerator.trackedOffsets _ placed fun _ kept _ among => kept.removeAt accountId data among

theorem Exact.step (h : v.Exact) (taken : v.step call = some w) : w.Exact := by
  cases call with
  | configureProgram programId offsets =>
    cases taken
    cases made : v.accelerator with
    | none =>
      refine ⟨fun none => (by cases none), fun a same => ?_, fun a same => ?_⟩ <;> cases same
      · dsimp only
        rw [(h.unmade made).2]
        exact AcceleratorRun.start_exact programId offsets
      · exact OffsetIndexes.placed_empty
    | some a =>
      refine ⟨fun none => (by cases none), fun b same => ?_, fun b same => ?_⟩ <;> cases same
      · exact h.made a made
      · exact h.placed a made
  | insertAccount programId accountId data =>
    obtain ⟨u, inner, rfl⟩ := Option.map_eq_some_iff.mp taken
    have exact := (h.run programId).step _ inner
    refine ⟨fun none => (by cases none), fun a same => ?_, fun a same => ?_⟩ <;> cases same
    · exact exact.tracked ▸ exact
    · exact placed_step (h.placed_run programId) inner
  | removeAccount programId accountId data =>
    obtain ⟨u, inner, rfl⟩ := Option.map_eq_some_iff.mp taken
    have exact := (h.run programId).step _ inner
    cases made : v.accelerator with
    | none =>
      refine ⟨fun _ => ⟨(h.unmade made).1, ?_⟩, fun _ some => (by cases some), fun _ some => (by cases some)⟩
      simp only [AcceleratorRun.step] at inner
      split at inner
      · cases inner
        simp [ProgramShard.run, (h.unmade made).2]
      · cases inner
    | some a =>
      refine ⟨fun none => (by cases none), fun b same => ?_, fun b same => ?_⟩ <;> cases same
      · exact exact.tracked ▸ exact
      · exact placed_step (h.placed_run programId) inner

end ProgramShard

namespace ProgramsRun

variable {S : Type} [IdSet S]

theorem shards : Shards (ofPartial step) (fun call => some call.program)
    (view : ProgramsRun S → Pubkey → ProgramShard S) (ofPartial ProgramShard.step) where
  own s call t programId taken same := by
    cases same
    cases call with
    | configureProgram programId offsets =>
      cases taken
      simp [ofPartial, ProgramShard.step, view, MemcmpAccelerator.configureProgram, getElem?_entry_self,
        ProgramsCall.program]
    | insertAccount programId accountId data =>
      simp only [ofPartial, step] at taken
      split at taken
      · rename_i absent
        cases taken
        simp [ofPartial, ProgramShard.step, ProgramShard.run, AcceleratorRun.step, view, absent,
          MemcmpAccelerator.insertAccount, getElem?_entry_self, ProgramsCall.program]
      · cases taken
    | removeAccount programId accountId data =>
      simp only [ofPartial, step] at taken
      split at taken
      · rename_i known
        cases taken
        cases made : s.accelerator.programAccelerators[programId]? with
        | none =>
          simp [ofPartial, ProgramShard.step, ProgramShard.run, AcceleratorRun.step, view, known, made,
            MemcmpAccelerator.removeAccount, ProgramsCall.program]
        | some accelerator =>
          simp [ofPartial, ProgramShard.step, ProgramShard.run, AcceleratorRun.step, view, known, made,
            MemcmpAccelerator.removeAccount, ProgramsCall.program]
      · cases taken
  other s call t programId taken differ := by
    cases call with
    | configureProgram own offsets =>
      have other : programId ≠ own := fun same => differ (congrArg some same.symm)
      cases taken
      simp [view, MemcmpAccelerator.configureProgram, getElem?_entry_ne _ other, getElem?_insert_ne _ other]
    | insertAccount own accountId data =>
      have other : programId ≠ own := fun same => differ (congrArg some same.symm)
      simp only [ofPartial, step] at taken
      split at taken
      · cases taken
        simp [view, MemcmpAccelerator.insertAccount, getElem?_entry_ne _ other, other]
      · cases taken
    | removeAccount own accountId data =>
      have other : programId ≠ own := fun same => differ (congrArg some same.symm)
      simp only [ofPartial, step] at taken
      split at taken
      · cases taken
        cases made : s.accelerator.programAccelerators[own]? with
        | none => simp [view, MemcmpAccelerator.removeAccount, made, other]
        | some accelerator =>
          simp [view, MemcmpAccelerator.removeAccount, made, getElem?_insert_ne _ other, other]
      · cases taken

end ProgramsRun

end Hyperplane
