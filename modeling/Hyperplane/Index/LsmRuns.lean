import Hyperplane.Index.LsmBitmap

/-! One caller works on the bitmap, one call after the other. A background
compaction that an insert started runs between two calls. -/
namespace Hyperplane
open Transition

inductive LsmCall where
  | insert (id : UInt32)
  | remove (id : UInt32)
  | compact
  | background

/-- The last field records the calls made. -/
structure LsmRun (S : Type) where
  bitmap : LsmBitmap S
  spawned : Nat
  calls : List LsmCall

/-- The last insert or remove of the id was an insert. -/
def Present (calls : List LsmCall) (id : UInt32) : Prop :=
  ∃ before after, calls = before ++ .insert id :: after ∧ LsmCall.remove id ∉ after

theorem present_nil (id : UInt32) : ¬ Present [] id := by
  rintro ⟨before, after, split, _⟩
  simp at split

/-- The last call decides if it inserts or removes the id. -/
theorem present_snoc (calls : List LsmCall) (call : LsmCall) (id : UInt32) :
    Present (calls ++ [call]) id ↔
      call = .insert id ∨ (call ≠ .remove id ∧ Present calls id) := by
  constructor
  · rintro ⟨before, after, split, none⟩
    rcases List.eq_nil_or_concat after with rfl | ⟨init, last, rfl⟩
    · exact .inl (by simpa using congrArg List.getLast? split)
    · rw [List.concat_eq_append] at split none
      have ends : calls ++ [call] = (before ++ .insert id :: init) ++ [last] := by simpa using split
      obtain ⟨rfl, same⟩ := List.append_inj' ends rfl
      cases same
      refine .inr ⟨?_, before, init, rfl, fun member => none (List.mem_append_left _ member)⟩
      rintro rfl
      exact none (List.mem_append_right _ (List.mem_singleton.mpr rfl))
  · rintro (rfl | ⟨other, before, after, rfl, none⟩)
    · exact ⟨calls, [], rfl, by simp⟩
    · refine ⟨before, after ++ [call], by simp, ?_⟩
      simp [none, Ne.symm other]

namespace LsmRun

variable {S : Type} [IdUnion S]

def start (maxDeltas maxDeltaSize : Nat) : LsmRun S := ⟨.withConfig maxDeltas maxDeltaSize, 0, []⟩

/-- A background compaction is a compaction that clears the flag in the end. -/
def run (self : LsmRun S) : LsmCall → LsmBitmap S × Nat
  | .insert id =>
    let (started, bitmap) := self.bitmap.insert id
    (bitmap, if started then self.spawned + 1 else self.spawned)
  | .remove id => (self.bitmap.remove id, self.spawned)
  | .compact => (self.bitmap.compact, self.spawned)
  | .background =>
    if 0 < self.spawned then (self.bitmap.compact.setInProgress false, self.spawned - 1)
    else (self.bitmap, self.spawned)

def step (self : LsmRun S) (call : LsmCall) : LsmRun S where
  bitmap := (self.run call).1
  spawned := (self.run call).2
  calls := self.calls ++ [call]

/-- The bitmap answers as the set of the ids inserted last. -/
structure IsSet (s : LsmRun S) : Prop where
  query : ∀ id : UInt32, IdSet.contains s.bitmap.query id.toNat = true ↔ Present s.calls id
  contains : ∀ id : UInt32, s.bitmap.contains id = IdSet.contains s.bitmap.query id.toNat

/-- A remove finds the id in no delta. -/
def Compacted (self : LsmRun S) : LsmCall → Prop
  | .remove id => self.bitmap.inDeltas id = false
  | _ => True

theorem contains_eq_query (self : LsmBitmap S) (id : UInt32) :
    self.contains id = IdSet.contains self.query id.toNat := by
  rw [Bool.eq_iff_iff, self.contains_iff, self.contains_query]

theorem isSet_iff (self : LsmRun S) : self.IsSet ↔ ∀ id : UInt32,
    self.bitmap.inBase id = true ∨ self.bitmap.inDeltas id = true ↔ Present self.calls id := by
  constructor
  · intro h id
    exact (self.bitmap.contains_query id).symm.trans (h.query id)
  · intro h
    exact ⟨fun id => (self.bitmap.contains_query id).trans (h id), contains_eq_query self.bitmap⟩

/-- A call that moves ids about but neither adds nor removes any. -/
theorem IsSet.moved {self : LsmRun S} (h : self.IsSet) {call : LsmCall}
    (keeps : ∀ id : UInt32, (self.step call).bitmap.inBase id = true ∨
      (self.step call).bitmap.inDeltas id = true ↔
        self.bitmap.inBase id = true ∨ self.bitmap.inDeltas id = true)
    (neither : ∀ id, call ≠ .insert id ∧ call ≠ .remove id) : (self.step call).IsSet := by
  refine (isSet_iff _).mpr fun id => ?_
  refine (keeps id).trans (((isSet_iff self).mp h id).trans ?_)
  simp [step, present_snoc, neither id]

theorem IsSet.insert {self : LsmRun S} (h : self.IsSet) (id : UInt32) :
    (self.step (.insert id)).IsSet := by
  refine (isSet_iff _).mpr fun other => ?_
  have before := (isSet_iff self).mp h other
  change (self.bitmap.insert id).2.inBase other = true ∨ (self.bitmap.insert id).2.inDeltas other = true ↔
    Present (self.calls ++ [.insert id]) other
  rw [LsmBitmap.inBase_insert, LsmBitmap.inDeltas_insert, present_snoc, ← before, or_left_comm]
  simp only [LsmCall.insert.injEq, ne_eq, reduceCtorEq, not_false_eq_true, true_and]
  rw [eq_comm (a := id)]

/-- The deltas keep an id that a remove takes out of the base. -/
theorem isSet_remove_iff {self : LsmRun S} (h : self.IsSet) (id : UInt32) :
    (self.step (.remove id)).IsSet ↔ self.bitmap.inDeltas id = false := by
  have held (other : UInt32) : (self.step (.remove id)).bitmap.inBase other = true ∨
      (self.step (.remove id)).bitmap.inDeltas other = true ↔
        (other ≠ id ∧ self.bitmap.inBase other = true) ∨ self.bitmap.inDeltas other = true := by
    rw [← LsmBitmap.inBase_remove]
    rfl
  have after (other : UInt32) : Present (self.step (.remove id)).calls other ↔
      other ≠ id ∧ Present self.calls other := by
    simp [step, present_snoc, eq_comm]
  constructor
  · intro set
    rw [Bool.eq_false_iff]
    intro stays
    have present := ((isSet_iff _).mp set id).mp ((held id).mpr (.inr stays))
    exact ((after id).mp present).1 rfl
  · intro gone
    refine (isSet_iff _).mpr fun other => ?_
    rw [held, after, ← (isSet_iff self).mp h other]
    by_cases same : other = id
    · simp [same, gone]
    · simp [same]

theorem step_isSet_iff {self : LsmRun S} (h : self.IsSet) (call : LsmCall) :
    (self.step call).IsSet ↔ self.Compacted call := by
  cases call with
  | insert id => exact iff_of_true (h.insert id) trivial
  | remove id => exact isSet_remove_iff h id
  | compact =>
    refine iff_of_true (h.moved (fun id => ?_) (by simp)) trivial
    simp [step, run, LsmBitmap.inBase_compact]
  | background =>
    refine iff_of_true (h.moved (fun id => ?_) (by simp)) trivial
    by_cases pending : 0 < self.spawned
    · simp [step, run, if_pos pending, LsmBitmap.inBase_compact]
    · simp [step, run, if_neg pending]

theorem start_isSet (maxDeltas maxDeltaSize : Nat) :
    (start maxDeltas maxDeltaSize : LsmRun S).IsSet := by
  refine (isSet_iff _).mpr fun id => ?_
  simp [start, LsmBitmap.withConfig, LsmBitmap.inBase, LsmBitmap.inDeltas, IdSet.contains_empty, present_nil]

/-- In every run the bitmap is the set of the ids inserted last exactly as long
as no remove finds its id in a delta. -/
theorem is_set_iff (maxDeltas maxDeltaSize : Nat) (calls : List LsmCall) :
    Along (ofFun step) (fun _ _ after => after.IsSet)
      (start maxDeltas maxDeltaSize : LsmRun S) calls ↔
    Along (ofFun step) (fun self call _ => self.Compacted call)
      (start maxDeltas maxDeltaSize : LsmRun S) calls := by
  refine along_ofFun_iff IsSet ?_ ?_ (start_isSet maxDeltas maxDeltaSize) calls
  · intro self call h
    exact step_isSet_iff h call
  · intro self call h compacted
    exact (step_isSet_iff h call).mpr compacted

/-- An id that was just inserted cannot be removed. -/
theorem removed_id_stays :
    ¬ Along (ofFun step) (fun _ _ after => after.IsSet)
      (start 4 100000 : LsmRun SortedIds) [.insert 1, .remove 1] := by
  intro h
  obtain ⟨_, later⟩ := h _ rfl
  obtain ⟨set, _⟩ := later _ rfl
  have present := (set.query 1).mp (by decide)
  rcases (present_snoc [.insert 1] (.remove 1) 1).mp present with impossible | ⟨kept, _⟩
  · cases impossible
  · exact kept rfl

end LsmRun

end Hyperplane
