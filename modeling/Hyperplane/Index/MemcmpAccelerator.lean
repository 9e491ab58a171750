import Hyperplane.Lib.Maps
import Hyperplane.Lib.Transition
import Hyperplane.Types.Account
import Hyperplane.Types.Bitmap

/-! The memcmp accelerator of a program: for each tracked offset an index from
the bytes that stand there to the accounts that have them. -/
namespace Hyperplane
open Maps Transition

inductive CommonOffset where
  | discriminator
  | owner
  | mint
  | collection
  | custom (offset : Nat)
  deriving DecidableEq

namespace CommonOffset

def offset : CommonOffset → Nat
  | .discriminator => 0
  | .owner => 32
  | .mint => 64
  | .collection => 1
  | .custom offset => offset

def expectedSize : CommonOffset → Nat
  | .discriminator => 8
  | .owner => 32
  | .mint => 32
  | .collection => 32
  | .custom _ => 0

/-- The bytes to index, unless the data is too short. Custom offsets are skipped. -/
def bytesOf (self : CommonOffset) (data : List UInt8) : Option (List UInt8) :=
  if data.length < self.offset + self.expectedSize then none
  else if 0 < self.expectedSize then some ((data.drop self.offset).take self.expectedSize)
  else none

theorem bytesOf_eq_some_iff (self : CommonOffset) (data bytes : List UInt8) :
    self.bytesOf data = some bytes ↔ 0 < self.expectedSize ∧
      self.offset + self.expectedSize ≤ data.length ∧
        (data.drop self.offset).take self.expectedSize = bytes := by
  unfold bytesOf
  by_cases short : data.length < self.offset + self.expectedSize
  · simp [short]
  · by_cases sized : 0 < self.expectedSize
    · simp [short, sized, Nat.not_lt.mp short]
    · simp [short, sized]

theorem sized_iff (self : CommonOffset) : 0 < self.expectedSize ↔ ∀ n, self ≠ .custom n := by
  cases self <;> simp [expectedSize]

/-- No two of the common offsets are at one place. -/
theorem eq_of_offset {a b : CommonOffset} (first : 0 < a.expectedSize) (second : 0 < b.expectedSize)
    (same : a.offset = b.offset) : a = b := by
  cases a <;> cases b <;> simp_all [offset, expectedSize]

end CommonOffset

structure OffsetIndex (S : Type) where
  index : Std.TreeMap (List UInt8) (PubkeyBitmap S)
  entryCount : UInt64

namespace OffsetIndex

variable {S : Type} [IdSet S]

def new : OffsetIndex S := ⟨∅, 0⟩

/-- An id that is there already is counted again. -/
def insert (self : OffsetIndex S) (bytes : List UInt8) (accountId : Nat) : OffsetIndex S where
  index := entry self.index bytes .new fun bitmap => (bitmap.insert accountId).2
  entryCount := self.entryCount + 1

def remove (self : OffsetIndex S) (bytes : List UInt8) (accountId : Nat) : OffsetIndex S :=
  match self.index[bytes]? with
  | some bitmap => {
      index := self.index.insert bytes (bitmap.remove accountId).2
      entryCount := if self.entryCount = 0 then 0 else self.entryCount - 1 }
  | none => self

def get (self : OffsetIndex S) (bytes : List UInt8) : Option (PubkeyBitmap S) := self.index[bytes]?

def Holds (self : OffsetIndex S) (bytes : List UInt8) (accountId : Nat) : Prop :=
  ((self.get bytes).getD .new).contains accountId = true

theorem not_holds_new (bytes : List UInt8) (accountId : Nat) : ¬ (new : OffsetIndex S).Holds bytes accountId := by
  simp [Holds, get, new]

theorem holds_insert (self : OffsetIndex S) (bytes other : List UInt8) (accountId id : Nat) :
    (self.insert bytes accountId).Holds other id ↔
      (other = bytes ∧ id = accountId) ∨ self.Holds other id := by
  unfold Holds get insert
  by_cases same : other = bytes
  · subst same
    simp [getElem?_entry_self]
  · simp [getElem?_entry_ne self.index same, same]

theorem holds_remove (self : OffsetIndex S) (bytes other : List UInt8) (accountId id : Nat) :
    (self.remove bytes accountId).Holds other id ↔
      self.Holds other id ∧ ¬ (other = bytes ∧ id = accountId) := by
  unfold Holds get remove
  by_cases same : other = bytes
  · subst same
    cases found : self.index[other]? with
    | none => simp [found]
    | some bitmap => simp [and_comm]
  · cases self.index[bytes]? with
    | none => simp [same]
    | some bitmap => simp [getElem?_insert_ne self.index same, same]

end OffsetIndex

abbrev OffsetIndexes (S : Type) := Std.TreeMap Nat (OffsetIndex S)

namespace OffsetIndexes

variable {S : Type} [IdSet S] (accountId : Nat) (data : List UInt8)

def insertAt (indexes : OffsetIndexes S) (offsetDef : CommonOffset) : OffsetIndexes S :=
  match offsetDef.bytesOf data with
  | some bytes => entry indexes offsetDef.offset .new fun index => index.insert bytes accountId
  | none => indexes

def removeAt (indexes : OffsetIndexes S) (offsetDef : CommonOffset) : OffsetIndexes S :=
  match offsetDef.bytesOf data, indexes[offsetDef.offset]? with
  | some bytes, some index =>
    Std.TreeMap.insert indexes offsetDef.offset (index.remove bytes accountId)
  | _, _ => indexes

def Lists (indexes : OffsetIndexes S) (offset : Nat) (bytes : List UInt8) (id : Nat) : Prop :=
  (indexes[offset]?.getD .new).Holds bytes id

/-- The data has the bytes at one of the offsets. -/
def Indexed (offsets : List CommonOffset) (data : List UInt8) (offset : Nat) (bytes : List UInt8) : Prop :=
  ∃ offsetDef ∈ offsets, offsetDef.offset = offset ∧ offsetDef.bytesOf data = some bytes

variable (indexes : OffsetIndexes S) (offset : Nat) (bytes : List UInt8) (id : Nat)

theorem lists_insertAt (offsetDef : CommonOffset) :
    Lists (insertAt accountId data indexes offsetDef) offset bytes id ↔
      (id = accountId ∧ offsetDef.offset = offset ∧ offsetDef.bytesOf data = some bytes) ∨
        Lists indexes offset bytes id := by
  unfold insertAt Lists
  cases there : offsetDef.bytesOf data with
  | none => simp
  | some found =>
    by_cases same : offset = offsetDef.offset
    · subst same
      simp [getElem?_entry_self, OffsetIndex.holds_insert, and_comm, eq_comm]
    · simp [getElem?_entry_ne indexes same, Ne.symm same]

theorem lists_removeAt (offsetDef : CommonOffset) :
    Lists (removeAt accountId data indexes offsetDef) offset bytes id ↔
      Lists indexes offset bytes id ∧
        ¬ (id = accountId ∧ offsetDef.offset = offset ∧ offsetDef.bytesOf data = some bytes) := by
  unfold removeAt Lists
  cases there : offsetDef.bytesOf data with
  | none => simp
  | some found =>
    by_cases same : offset = offsetDef.offset
    · subst same
      cases kept : indexes[offsetDef.offset]? with
      | none => simp [kept, OffsetIndex.not_holds_new]
      | some index => simp [OffsetIndex.holds_remove, and_comm, eq_comm]
    · cases indexes[offsetDef.offset]? with
      | none => simp [Ne.symm same]
      | some index => simp [getElem?_insert_ne indexes same, Ne.symm same]

/-- An offset tracked twice is indexed twice, which leaves the same sets. -/
theorem lists_insertAll (offsets : List CommonOffset) :
    Lists (offsets.foldl (insertAt accountId data) indexes) offset bytes id ↔
      (id = accountId ∧ Indexed offsets data offset bytes) ∨ Lists indexes offset bytes id := by
  induction offsets generalizing indexes with
  | nil => simp [Indexed]
  | cons offsetDef rest ih =>
    rw [List.foldl_cons, ih, lists_insertAt, Indexed, Indexed, List.exists_mem_cons_iff, and_or_left, or_assoc,
      or_left_comm]

theorem lists_removeAll (offsets : List CommonOffset) :
    Lists (offsets.foldl (removeAt accountId data) indexes) offset bytes id ↔
      Lists indexes offset bytes id ∧ ¬ (id = accountId ∧ Indexed offsets data offset bytes) := by
  induction offsets generalizing indexes with
  | nil => simp [Indexed]
  | cons offsetDef rest ih =>
    rw [List.foldl_cons, ih, lists_removeAt, Indexed, Indexed, List.exists_mem_cons_iff, and_or_left, not_or,
      and_assoc]

end OffsetIndexes

structure ProgramMemcmpAccelerator (S : Type) where
  programId : Pubkey
  offsetIndexes : OffsetIndexes S
  trackedOffsets : List CommonOffset

namespace ProgramMemcmpAccelerator

variable {S : Type} [IdSet S]

def new (programId : Pubkey) (trackedOffsets : List CommonOffset) : ProgramMemcmpAccelerator S :=
  ⟨programId, ∅, trackedOffsets⟩

def insertAccount (self : ProgramMemcmpAccelerator S) (accountId : Nat) (data : List UInt8) :
    ProgramMemcmpAccelerator S :=
  { self with offsetIndexes :=
      self.trackedOffsets.foldl (OffsetIndexes.insertAt accountId data) self.offsetIndexes }

def removeAccount (self : ProgramMemcmpAccelerator S) (accountId : Nat) (data : List UInt8) :
    ProgramMemcmpAccelerator S :=
  { self with offsetIndexes :=
      self.trackedOffsets.foldl (OffsetIndexes.removeAt accountId data) self.offsetIndexes }

def query (self : ProgramMemcmpAccelerator S) (offset : Nat) (bytes : List UInt8) : Option (PubkeyBitmap S) :=
  self.offsetIndexes[offset]?.bind fun index => index.get bytes

theorem contains_query (self : ProgramMemcmpAccelerator S) (offset : Nat) (bytes : List UInt8) (id : Nat) :
    ((self.query offset bytes).getD .new).contains id = true ↔
      OffsetIndexes.Lists self.offsetIndexes offset bytes id := by
  unfold query OffsetIndexes.Lists OffsetIndex.Holds
  cases self.offsetIndexes[offset]? with
  | none => simp [OffsetIndex.get, OffsetIndex.new]
  | some index => rfl

end ProgramMemcmpAccelerator

inductive AcceleratorCall where
  | insertAccount (accountId : Nat) (data : List UInt8)
  | removeAccount (accountId : Nat) (data : List UInt8)

/-- The accelerator, and the data of every account that is stored. -/
structure AcceleratorRun (S : Type) where
  accelerator : ProgramMemcmpAccelerator S
  stored : Nat → Option (List UInt8)

namespace AcceleratorRun

variable {S : Type} [IdSet S]

def start (programId : Pubkey) (trackedOffsets : List CommonOffset) : AcceleratorRun S :=
  ⟨.new programId trackedOffsets, fun _ => none⟩

/-- Only an id that is not stored is inserted, and a stored one is removed only with
the data it was inserted with. -/
def step (s : AcceleratorRun S) : AcceleratorCall → Option (AcceleratorRun S)
  | .insertAccount accountId data =>
    if s.stored accountId = none then
      some ⟨s.accelerator.insertAccount accountId data, Function.update s.stored accountId (some data)⟩
    else none
  | .removeAccount accountId data =>
    if s.stored accountId = none ∨ s.stored accountId = some data then
      some ⟨s.accelerator.removeAccount accountId data, Function.update s.stored accountId none⟩
    else none

/-- The indexes list exactly the stored accounts, each under all its bytes. -/
structure Exact (offsets : List CommonOffset) (s : AcceleratorRun S) : Prop where
  tracked : s.accelerator.trackedOffsets = offsets
  lists : ∀ offset bytes id, OffsetIndexes.Lists s.accelerator.offsetIndexes offset bytes id ↔
    ∃ data, s.stored id = some data ∧ OffsetIndexes.Indexed offsets data offset bytes

variable {offsets : List CommonOffset} {s : AcceleratorRun S}

theorem start_exact (programId : Pubkey) (offsets : List CommonOffset) :
    (start programId offsets : AcceleratorRun S).Exact offsets := by
  refine ⟨rfl, fun offset bytes id => ?_⟩
  simp [start, ProgramMemcmpAccelerator.new, OffsetIndexes.Lists, OffsetIndex.not_holds_new]

theorem Exact.insertAccount (h : s.Exact offsets) {accountId : Nat} (data : List UInt8)
    (absent : s.stored accountId = none) :
    Exact offsets ⟨s.accelerator.insertAccount accountId data,
      Function.update s.stored accountId (some data)⟩ := by
  refine ⟨h.tracked, fun offset bytes id => ?_⟩
  rw [ProgramMemcmpAccelerator.insertAccount, h.tracked, OffsetIndexes.lists_insertAll, h.lists]
  by_cases same : id = accountId
  · subst same
    simp [absent]
  · simp [same]

theorem Exact.removeAccount (h : s.Exact offsets) {accountId : Nat} {data : List UInt8}
    (known : s.stored accountId = none ∨ s.stored accountId = some data) :
    Exact offsets ⟨s.accelerator.removeAccount accountId data,
      Function.update s.stored accountId none⟩ := by
  refine ⟨h.tracked, fun offset bytes id => ?_⟩
  rw [ProgramMemcmpAccelerator.removeAccount, h.tracked, OffsetIndexes.lists_removeAll, h.lists]
  by_cases same : id = accountId
  · subst same
    rcases known with absent | present
    · simp [absent]
    · simp [present]
  · simp [same]

theorem Exact.step (h : s.Exact offsets) (call : AcceleratorCall) {t : AcceleratorRun S}
    (taken : s.step call = some t) : t.Exact offsets := by
  cases call with
  | insertAccount accountId data =>
    simp only [AcceleratorRun.step] at taken
    split at taken
    · rename_i absent
      cases taken
      exact h.insertAccount data absent
    · cases taken
  | removeAccount accountId data =>
    simp only [AcceleratorRun.step] at taken
    split at taken
    · rename_i known
      cases taken
      exact h.removeAccount known
    · cases taken

/-- At the offset of a tracked common offset only its own bytes are indexed. -/
theorem indexed_iff {offset : CommonOffset} (tracked : offset ∈ offsets) (sized : 0 < offset.expectedSize)
    (data bytes : List UInt8) : OffsetIndexes.Indexed offsets data offset.offset bytes ↔
      offset.offset + offset.expectedSize ≤ data.length ∧
        (data.drop offset.offset).take offset.expectedSize = bytes := by
  constructor
  · rintro ⟨other, _, same, there⟩
    obtain ⟨positive, inside⟩ := (other.bytesOf_eq_some_iff data bytes).mp there
    cases CommonOffset.eq_of_offset positive sized same
    exact inside
  · intro inside
    exact ⟨offset, tracked, rfl, (offset.bytesOf_eq_some_iff data bytes).mpr ⟨sized, inside⟩⟩

/-- A query of a tracked offset answers like a scan of the stored accounts, for bytes of any
length. -/
theorem query_scans (programId : Pubkey) (offsets : List CommonOffset) {calls : List AcceleratorCall}
    {t : AcceleratorRun S} (ran : Run (ofPartial step) (start programId offsets) calls t)
    {offset : CommonOffset} (tracked : offset ∈ offsets) (common : ∀ n, offset ≠ .custom n)
    (bytes : List UInt8) (id : Nat) :
    ((t.accelerator.query offset.offset bytes).getD .new).contains id = true ↔
      ∃ data, t.stored id = some data ∧ offset.offset + offset.expectedSize ≤ data.length ∧
        (data.drop offset.offset).take offset.expectedSize = bytes := by
  have exact : t.Exact offsets := run_invariant (Exact offsets) (fun _ call _ h taken => h.step call taken)
    (start_exact programId offsets) ran
  rw [ProgramMemcmpAccelerator.contains_query, exact.lists]
  simp only [indexed_iff tracked (offset.sized_iff.mpr common)]

/-- The discriminator is tracked twice, and one of two accounts removed. -/
theorem query_scans_repeated :
    let offsets : List CommonOffset := [.discriminator, .discriminator, .custom 4]
    let data (byte : UInt8) := List.replicate 10 byte
    ∃ t : AcceleratorRun SortedIds, Run (ofPartial step) (start (Vector.replicate 32 0) offsets)
      [.insertAccount 1 (data 7), .insertAccount 2 (data 7), .removeAccount 1 (data 7)] t ∧
      ∀ id, ((t.accelerator.query 0 (List.replicate 8 7)).getD .new).contains id = true ↔
        ∃ data, t.stored id = some data ∧ 0 + 8 ≤ data.length ∧
          (data.drop 0).take 8 = List.replicate 8 7 := by
  intro offsets data
  have ran := (run_ofPartial step [.insertAccount 1 (data 7), .insertAccount 2 (data 7),
    .removeAccount 1 (data 7)] (start (S := SortedIds) (Vector.replicate 32 0) offsets) _).mpr rfl
  have common : ∀ n, CommonOffset.discriminator ≠ .custom n := by
    intro n same
    cases same
  have tracked : CommonOffset.discriminator ∈ offsets := List.mem_cons_self ..
  exact ⟨_, ran, query_scans _ offsets ran tracked common (List.replicate 8 7)⟩

end AcceleratorRun

end Hyperplane
