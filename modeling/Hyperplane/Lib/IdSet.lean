import Mathlib.Algebra.Ring.Nat
import Mathlib.Data.List.Sort

/-! Sets of numbers behind an interface: the compressed bitmaps a development
builds on, given by the documented behaviour of their operations. -/

class IdSet (S : Type) where
  empty : S
  contains : S → Nat → Bool
  insert : S → Nat → Bool × S
  remove : S → Nat → Bool × S
  len : S → Nat
  iter : S → List Nat
  contains_empty (i : Nat) : contains empty i = false
  insert_flag (s : S) (i : Nat) : (insert s i).1 = !contains s i
  contains_insert (s : S) (i j : Nat) : contains (insert s i).2 j = (j == i || contains s j)
  remove_flag (s : S) (i : Nat) : (remove s i).1 = contains s i
  contains_remove (s : S) (i j : Nat) : contains (remove s i).2 j = (j != i && contains s j)
  mem_iter (s : S) (i : Nat) : i ∈ iter s ↔ contains s i = true
  iter_ascending (s : S) : (iter s).Pairwise (· < ·)
  len_eq (s : S) : len s = (iter s).length

namespace IdSet

variable {S : Type} [IdSet S]

theorem iter_congr {s t : S} (same : ∀ i, contains s i = true ↔ contains t i = true) :
    iter s = iter t := by
  apply (iter_ascending s).eq_of_mem_iff (iter_ascending t)
  intro i
  rw [mem_iter, mem_iter, same]

theorem len_congr {s t : S} (same : ∀ i, contains s i = true ↔ contains t i = true) :
    len s = len t := by
  rw [len_eq, len_eq, iter_congr same]

theorem iter_nodup (s : S) : (iter s).Nodup := (iter_ascending s).imp Nat.ne_of_lt

/-- A set has at most as many elements as a list that has them all. -/
theorem len_le_length {s : S} {ids : List Nat} (within : ∀ i, contains s i = true → i ∈ ids) :
    len s ≤ ids.length := by
  rw [len_eq]
  exact (iter_nodup s).length_le_of_subset fun i member => within i ((mem_iter s i).mp member)

theorem iter_empty : iter (empty : S) = [] := by
  apply List.eq_nil_iff_forall_not_mem.mpr
  intro i member
  rw [mem_iter, contains_empty] at member
  cases member

theorem len_empty : len (empty : S) = 0 := by
  rw [len_eq, iter_empty, List.length_nil]

/-- A set with one element more counts one more. -/
theorem len_of_fresh {s t : S} {i : Nat} (absent : contains s i = false)
    (more : ∀ j, contains t j = true ↔ j = i ∨ contains s j = true) : len t = len s + 1 := by
  have distinct : (i :: iter s).Nodup := by
    refine List.nodup_cons.mpr ⟨fun member => ?_, iter_nodup s⟩
    rw [mem_iter, absent] at member
    cases member
  have same : (iter t).Perm (i :: iter s) := by
    refine (List.perm_ext_iff_of_nodup (iter_nodup t) distinct).mpr fun j => ?_
    rw [List.mem_cons, mem_iter, mem_iter, more]
  rw [len_eq, len_eq, same.length_eq, List.length_cons]

theorem len_insert (s : S) (i : Nat) :
    len (insert s i).2 = len s + if contains s i then 0 else 1 := by
  split
  · rename_i present
    refine len_congr fun j => ?_
    rw [contains_insert, Bool.or_eq_true, beq_iff_eq]
    exact or_iff_right_of_imp fun same => same ▸ present
  · rename_i absent
    refine len_of_fresh (Bool.eq_false_iff.mpr absent) fun j => ?_
    rw [contains_insert, Bool.or_eq_true, beq_iff_eq]

theorem len_remove (s : S) (i : Nat) :
    len (remove s i).2 + (if contains s i then 1 else 0) = len s := by
  split
  · rename_i present
    refine (len_of_fresh (by rw [contains_remove, bne_self_eq_false, Bool.false_and]) fun j => ?_).symm
    rw [contains_remove, Bool.and_eq_true, bne_iff_ne]
    by_cases same : j = i
    · simp [same, present]
    · simp [same]
  · rename_i absent
    refine len_congr fun j => ?_
    rw [contains_remove, Bool.and_eq_true, bne_iff_ne]
    exact and_iff_right_of_imp fun held same => absent (same ▸ held)

end IdSet

/-- Sets that can be united as well. -/
class IdUnion (S : Type) extends IdSet S where
  union : S → S → S
  contains_union (s t : S) (i : Nat) : contains (union s t) i = (contains s i || contains t i)

theorem IdUnion.contains_foldl {S : Type} [IdUnion S] (sets : List S) (s : S) (i : Nat) :
    IdSet.contains (sets.foldl IdUnion.union s) i = true ↔
      IdSet.contains s i = true ∨ ∃ t ∈ sets, IdSet.contains t i = true := by
  induction sets generalizing s with
  | nil => simp
  | cons t rest ih =>
    rw [List.foldl_cons, ih, IdUnion.contains_union, Bool.or_eq_true, or_assoc, List.exists_mem_cons_iff]

/-- Sets that can be cut with each other and subtracted as well. -/
class IdAlgebra (S : Type) extends IdUnion S where
  inter : S → S → S
  diff : S → S → S
  contains_inter (s t : S) (i : Nat) : contains (inter s t) i = (contains s i && contains t i)
  contains_diff (s t : S) (i : Nat) : contains (diff s t) i = (contains s i && !contains t i)

/-- A union counts no more elements than its parts do together. -/
theorem IdUnion.len_foldl_le {S : Type} [IdUnion S] (sets : List S) (s : S) :
    IdSet.len (sets.foldl IdUnion.union s) ≤ IdSet.len s + (sets.map IdSet.len).sum := by
  have within : ∀ i, IdSet.contains (sets.foldl IdUnion.union s) i = true →
      i ∈ IdSet.iter s ++ sets.flatMap IdSet.iter := by
    intro i found
    rw [List.mem_append, List.mem_flatMap]
    rcases (IdUnion.contains_foldl sets s i).mp found with first | ⟨t, member, other⟩
    · exact .inl ((IdSet.mem_iter s i).mpr first)
    · exact .inr ⟨t, member, (IdSet.mem_iter t i).mpr other⟩
  have counted := IdSet.len_le_length within
  rw [List.length_append, List.length_flatMap, ← IdSet.len_eq] at counted
  simpa only [← IdSet.len_eq] using counted

structure SortedIds where
  ids : List Nat
  ascending : ids.Pairwise (· < ·)

namespace SortedIds

theorem ascending_insert (i : Nat) {ids : List Nat} (ascending : ids.Pairwise (· < ·))
    (absent : i ∉ ids) : (ids.orderedInsert (· ≤ ·) i).Pairwise (· < ·) := by
  have weakly : ids.Pairwise (· ≤ ·) := ascending.imp Nat.le_of_lt
  have distinct : (ids.orderedInsert (· ≤ ·) i).Nodup :=
    (ids.perm_orderedInsert _ i).nodup_iff.mpr (List.nodup_cons.mpr ⟨absent, ascending.imp Nat.ne_of_lt⟩)
  exact ((weakly.orderedInsert i ids).sortedLE.sortedLT_of_nodup distinct).pairwise

def insert (s : SortedIds) (i : Nat) : Bool × SortedIds :=
  if present : i ∈ s.ids then (false, s)
  else (true, ⟨s.ids.orderedInsert (· ≤ ·) i, ascending_insert i s.ascending present⟩)

def remove (s : SortedIds) (i : Nat) : Bool × SortedIds :=
  (s.ids.contains i, ⟨s.ids.filter (· != i), s.ascending.filter _⟩)

theorem mem_insert (s : SortedIds) (i j : Nat) : j ∈ (s.insert i).2.ids ↔ j = i ∨ j ∈ s.ids := by
  unfold insert
  split
  · rename_i present
    constructor
    · exact Or.inr
    · rintro (rfl | old)
      · exact present
      · exact old
  · exact List.mem_orderedInsert _

instance : IdSet SortedIds where
  empty := ⟨[], List.Pairwise.nil⟩
  contains s i := s.ids.contains i
  insert := insert
  remove := remove
  len s := s.ids.length
  iter s := s.ids
  contains_empty _ := rfl
  insert_flag s i := by
    unfold insert
    split <;> simp_all
  contains_insert s i j := by
    rw [Bool.eq_iff_iff]
    simp [mem_insert]
  remove_flag _ _ := rfl
  contains_remove s i j := by
    rw [Bool.eq_iff_iff]
    simp [remove, and_comm]
  mem_iter s i := by simp
  iter_ascending s := s.ascending
  len_eq _ := rfl

theorem mem_insertAll (ids : List Nat) (s : SortedIds) (j : Nat) :
    j ∈ (ids.foldl (fun s i => (s.insert i).2) s).ids ↔ j ∈ s.ids ∨ j ∈ ids := by
  induction ids generalizing s with
  | nil => simp
  | cons i rest ih =>
    rw [List.foldl_cons, ih, mem_insert, List.mem_cons, or_comm (a := j = i), or_assoc]

instance : IdUnion SortedIds where
  union s t := t.ids.foldl (fun s i => (s.insert i).2) s
  contains_union s t i := by
    rw [Bool.eq_iff_iff]
    simp only [IdSet.contains, List.contains_iff_mem, Bool.or_eq_true]
    exact mem_insertAll t.ids s i

instance : IdAlgebra SortedIds where
  inter s t := ⟨s.ids.filter (· ∈ t.ids), s.ascending.filter _⟩
  diff s t := ⟨s.ids.filter (· ∉ t.ids), s.ascending.filter _⟩
  contains_inter s t i := by
    rw [Bool.eq_iff_iff]
    simp [IdSet.contains]
  contains_diff s t i := by
    rw [Bool.eq_iff_iff]
    simp [IdSet.contains]

end SortedIds
