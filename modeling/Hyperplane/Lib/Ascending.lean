import Mathlib.Data.List.Sort

/-! Ascending lists as sets: the union of two, in one pass over both. -/
namespace Ascending

variable {A : Type} [LT A] [DecidableLT A]

def union : List A → List A → List A
  | [], bs => bs
  | a :: as, [] => a :: as
  | a :: as, b :: bs =>
    if a < b then a :: union as (b :: bs)
    else if b < a then b :: union (a :: as) bs
    else a :: union as bs

theorem union_nil (as : List A) : union as [] = as := by
  cases as with
  | nil => rw [union]
  | cons a as => rw [union]

variable [LE A] [Std.IsLinearOrder A] [Std.LawfulOrderLT A]

theorem mem_union (as bs : List A) (x : A) : x ∈ union as bs ↔ x ∈ as ∨ x ∈ bs := by
  induction as, bs using union.induct with
  | case1 bs => rw [union, or_iff_right List.not_mem_nil]
  | case2 a as => rw [union, or_iff_left List.not_mem_nil]
  | case3 a as b bs before ih =>
    rw [union, if_pos before, List.mem_cons, ih, List.mem_cons (l := as), or_assoc]
  | case4 a as b bs before after ih =>
    rw [union, if_neg before, if_pos after, List.mem_cons, ih, List.mem_cons (l := bs), or_left_comm]
  | case5 a as b bs before after ih =>
    have same : a = b := Std.le_antisymm (Std.not_lt.mp after) (Std.not_lt.mp before)
    rw [union, if_neg before, if_neg after, List.mem_cons, ih, List.mem_cons, List.mem_cons, ← same]
    exact or_or_distrib_left

/-- The head of each list is below the rest of it, so the least head is below all. -/
theorem union_ascending {as bs : List A} (left : as.Pairwise (· < ·)) (right : bs.Pairwise (· < ·)) :
    (union as bs).Pairwise (· < ·) := by
  induction as, bs using union.induct with
  | case1 bs => rwa [union]
  | case2 a as => rwa [union]
  | case3 a as b bs before ih =>
    obtain ⟨least, rest⟩ := List.pairwise_cons.mp left
    rw [union, if_pos before]
    refine List.pairwise_cons.mpr ⟨fun x member => ?_, ih rest right⟩
    rcases (mem_union as (b :: bs) x).mp member with among | among
    · exact least x among
    · rcases List.mem_cons.mp among with rfl | later
      · exact before
      · exact Std.lt_trans before ((List.pairwise_cons.mp right).1 x later)
  | case4 a as b bs before after ih =>
    obtain ⟨least, rest⟩ := List.pairwise_cons.mp right
    rw [union, if_neg before, if_pos after]
    refine List.pairwise_cons.mpr ⟨fun x member => ?_, ih left rest⟩
    rcases (mem_union (a :: as) bs x).mp member with among | among
    · rcases List.mem_cons.mp among with rfl | later
      · exact after
      · exact Std.lt_trans after ((List.pairwise_cons.mp left).1 x later)
    · exact least x among
  | case5 a as b bs before after ih =>
    have same : a = b := Std.le_antisymm (Std.not_lt.mp after) (Std.not_lt.mp before)
    obtain ⟨least, rest⟩ := List.pairwise_cons.mp left
    obtain ⟨other, others⟩ := List.pairwise_cons.mp right
    rw [union, if_neg before, if_neg after]
    refine List.pairwise_cons.mpr ⟨fun x member => ?_, ih rest others⟩
    rcases (mem_union as bs x).mp member with among | among
    · exact least x among
    · exact same ▸ other x among

/-- Ascending lists with the same members are the same, so the order of the arguments does
not matter. -/
theorem union_comm {as bs : List A} (left : as.Pairwise (· < ·)) (right : bs.Pairwise (· < ·)) :
    union as bs = union bs as := by
  refine (union_ascending left right).eq_of_mem_iff (union_ascending right left) fun x => ?_
  rw [mem_union, mem_union, or_comm]

end Ascending
