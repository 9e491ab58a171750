import Hyperplane.Lib.Words

/-! The bitmap engine over slices of 64-bit words. Every loop over two slices ends with
the shorter one, and one that writes leaves the rest of the result as it was. -/
namespace Hyperplane
open Words

namespace SimdBitmapEngine

/-- The loop of the operations that write a result. -/
def combineWith (op : BitVec 64 → BitVec 64 → BitVec 64) (a b result : List (BitVec 64)) : List (BitVec 64) :=
  (List.range (min a.length (min b.length result.length))).foldl
    (fun result i => result.set i (op (wordAt a i) (wordAt b i))) result

def bitmapAnd (a b result : List (BitVec 64)) : List (BitVec 64) := combineWith (· &&& ·) a b result

def bitmapOr (a b result : List (BitVec 64)) : List (BitVec 64) := combineWith (· ||| ·) a b result

def bitmapXor (a b result : List (BitVec 64)) : List (BitVec 64) := combineWith (· ^^^ ·) a b result

def popcount (bitmap : List (BitVec 64)) : Nat := (bitmap.map countOnes).sum

/-- The loop of the sizes. -/
def countWith (op : BitVec 64 → BitVec 64 → BitVec 64) (a b : List (BitVec 64)) : Nat :=
  (List.range (min a.length b.length)).foldl
    (fun count i => count + countOnes (op (wordAt a i) (wordAt b i))) 0

def intersectionSize (a b : List (BitVec 64)) : Nat := countWith (· &&& ·) a b

def unionSize (a b : List (BitVec 64)) : Nat := countWith (· ||| ·) a b

/-- Sizes and results are those of the sets the slices stand for. -/
structure SetAlgebra (a b result : List (BitVec 64)) : Prop where
  intersectionSize : intersectionSize a b = (positions a ∩ positions b).card
  unionSize : unionSize a b = (positions a ∪ positions b).card
  sizes : SimdBitmapEngine.unionSize a b + SimdBitmapEngine.intersectionSize a b = popcount a + popcount b
  and : positions (bitmapAnd a b result) = positions a ∩ positions b
  or : positions (bitmapOr a b result) = positions a ∪ positions b
  xor : positions (bitmapXor a b result) = symmDiff (positions a) (positions b)

section loops

variable (op : BitVec 64 → BitVec 64 → BitVec 64) (a b result : List (BitVec 64))

theorem wordAt_loop {n : Nat} (inside : n ≤ result.length) (i : Nat) :
    wordAt ((List.range n).foldl (fun result i => result.set i (op (wordAt a i) (wordAt b i))) result) i =
      if i < n then op (wordAt a i) (wordAt b i) else wordAt result i := by
  have length (n : Nat) : ((List.range n).foldl
      (fun result i => result.set i (op (wordAt a i) (wordAt b i))) result).length = result.length := by
    induction n with
    | zero => rfl
    | succ n ih => rw [List.range_succ, List.foldl_append, List.foldl_cons, List.foldl_nil, List.length_set, ih]
  induction n with
  | zero => rw [if_neg (Nat.not_lt_zero i)]; rfl
  | succ n ih =>
    rw [List.range_succ, List.foldl_append, List.foldl_cons, List.foldl_nil,
      wordAt_set _ _ (by rw [length]; omega), ih (by omega)]
    by_cases last : i = n
    · rw [if_pos last, if_pos (by omega), last]
    · rw [if_neg last]
      by_cases before : i < n
      · rw [if_pos before, if_pos (by omega)]
      · rw [if_neg before, if_neg (by omega)]

theorem wordAt_combineWith (long : min a.length b.length ≤ result.length) (i : Nat) :
    wordAt (combineWith op a b result) i =
      if i < min a.length b.length then op (wordAt a i) (wordAt b i) else wordAt result i := by
  have len : min a.length (min b.length result.length) = min a.length b.length := by omega
  rw [combineWith, len]
  exact wordAt_loop op a b result long i

theorem countWith_eq : countWith op a b =
    (positions ((List.range (min a.length b.length)).map fun i => op (wordAt a i) (wordAt b i))).card := by
  rw [card_positions, countWith]
  exact foldl_countOnes _ _

end loops

section sets

variable {a b result : List (BitVec 64)}

/-- A position past the shorter slice is in one of the sets at most. -/
theorem not_both_past {p : Nat} (past : min a.length b.length ≤ p / 64) :
    (holds a p && holds b p) = false := by
  by_cases first : a.length ≤ p / 64
  · rw [(wordAt_eq_zero_iff a _).mp (wordAt_of_le first) p rfl, Bool.false_and]
  · have second : b.length ≤ p / 64 := by omega
    rw [(wordAt_eq_zero_iff b _).mp (wordAt_of_le second) p rfl, Bool.and_false]

theorem intersectionSize_eq (a b : List (BitVec 64)) :
    intersectionSize a b = (positions a ∩ positions b).card := by
  rw [intersectionSize, countWith_eq]
  refine congrArg _ (Finset.ext fun p => ?_)
  rw [Finset.mem_inter, mem_positions, mem_positions, mem_positions, ← Bool.and_eq_true]
  rw [holds, wordAt_map_range]
  split
  · rw [BitVec.getLsbD_and]
    rfl
  · rename_i past
    rw [not_both_past (Nat.le_of_not_lt past), BitVec.getLsbD_zero]

/-- What the shorter slice still reaches. -/
theorem unionSize_eq (a b : List (BitVec 64)) : unionSize a b =
    ((positions a ∪ positions b).filter fun p => p / 64 < min a.length b.length).card := by
  rw [unionSize, countWith_eq]
  refine congrArg _ (Finset.ext fun p => ?_)
  rw [Finset.mem_filter, Finset.mem_union, mem_positions, mem_positions, mem_positions, ← Bool.or_eq_true]
  rw [holds, wordAt_map_range]
  split
  · rename_i inside
    rw [BitVec.getLsbD_or, and_iff_left inside]
    rfl
  · rename_i past
    rw [BitVec.getLsbD_zero]
    exact iff_of_false Bool.false_ne_true fun found => past found.2

/-- No word of the slices or of the result lies past the shorter slice and is not zero. -/
structure NothingPast (a b result : List (BitVec 64)) : Prop where
  left : ∀ word ∈ a.drop (min a.length b.length), word = 0#64
  right : ∀ word ∈ b.drop (min a.length b.length), word = 0#64
  result : ∀ word ∈ result.drop (min a.length b.length), word = 0#64

/-- An operation that works bit by bit gives the set operation, where nothing lies past the
shorter slice. -/
theorem NothingPast.mem_combineWith (h : NothingPast a b result) (long : min a.length b.length ≤ result.length)
    {op : BitVec 64 → BitVec 64 → BitVec 64} {f : Bool → Bool → Bool}
    (bitwise : ∀ x y i, (op x y).getLsbD i = f (x.getLsbD i) (y.getLsbD i)) (zero : f false false = false)
    (p : Nat) : p ∈ positions (combineWith op a b result) ↔ f (holds a p) (holds b p) = true := by
  rw [mem_positions, holds, wordAt_combineWith op a b result long]
  split
  · rw [bitwise]
    rfl
  · rename_i past
    have past := Nat.le_of_not_lt past
    have none : holds result p = false := (drop_zero_iff result _).mp h.result p past
    rw [(drop_zero_iff a _).mp h.left p past, (drop_zero_iff b _).mp h.right p past, zero]
    exact iff_of_eq (congrArg (· = true) none)

theorem NothingPast.setAlgebra (h : NothingPast a b result) (long : min a.length b.length ≤ result.length) :
    SetAlgebra a b result := by
  have union : unionSize a b = (positions a ∪ positions b).card := by
    rw [unionSize_eq, Finset.filter_true_of_mem]
    intro p member
    by_contra past
    have past := Nat.le_of_not_lt past
    rw [Finset.mem_union, mem_positions, mem_positions, (drop_zero_iff a _).mp h.left p past,
      (drop_zero_iff b _).mp h.right p past, or_self] at member
    cases member
  refine ⟨intersectionSize_eq a b, union, ?_, ?_, ?_, ?_⟩
  · rw [union, intersectionSize_eq, Finset.card_union_add_card_inter, card_positions, card_positions]
    rfl
  · ext p
    rw [bitmapAnd, h.mem_combineWith long (fun x y i => BitVec.getLsbD_and) rfl, Finset.mem_inter,
      mem_positions, mem_positions, Bool.and_eq_true]
  · ext p
    rw [bitmapOr, h.mem_combineWith long (fun x y i => BitVec.getLsbD_or) rfl, Finset.mem_union,
      mem_positions, mem_positions, Bool.or_eq_true]
  · ext p
    rw [bitmapXor, h.mem_combineWith long (fun x y i => BitVec.getLsbD_xor) rfl, Finset.mem_symmDiff,
      mem_positions, mem_positions]
    cases holds a p <;> cases holds b p <;> simp

/-- Nothing is counted past the shorter slice, so a union of the right size has nothing there. -/
theorem nothing_past_of_unionSize (size : unionSize a b = (positions a ∪ positions b).card) {p : Nat}
    (past : min a.length b.length ≤ p / 64) : holds a p = false ∧ holds b p = false := by
  rw [unionSize_eq] at size
  have all := Finset.filter_card_eq size
  have out : p ∉ positions a ∪ positions b := fun member => Nat.not_lt.mpr past (all p member)
  rw [Finset.mem_union, mem_positions, mem_positions, not_or] at out
  exact ⟨Bool.not_eq_true _ ▸ out.1, Bool.not_eq_true _ ▸ out.2⟩

theorem SetAlgebra.nothingPast (h : SetAlgebra a b result) (long : min a.length b.length ≤ result.length) :
    NothingPast a b result where
  left := (drop_zero_iff a _).mpr fun _ past => (nothing_past_of_unionSize h.unionSize past).1
  right := (drop_zero_iff b _).mpr fun _ past => (nothing_past_of_unionSize h.unionSize past).2
  result := by
    refine (drop_zero_iff result _).mpr fun p past => Bool.eq_false_iff.mpr fun found => ?_
    have stale : p ∈ positions (bitmapAnd a b result) := by
      rw [mem_positions, holds, bitmapAnd, wordAt_combineWith _ a b result long, if_neg (Nat.not_lt.mpr past)]
      exact found
    rw [h.and, Finset.mem_inter, mem_positions, (nothing_past_of_unionSize h.unionSize past).1] at stale
    cases stale.1

/-- The engine works on the sets exactly if all words past the shorter slice are zero, in the
slices and in the result before the call. -/
theorem set_algebra_iff (a b result : List (BitVec 64)) (long : result.length = max a.length b.length) :
    SetAlgebra a b result ↔ NothingPast a b result :=
  have room : min a.length b.length ≤ result.length := by omega
  ⟨fun h => h.nothingPast room, fun h => h.setAlgebra room⟩

theorem set_algebra_two_words : [7#64, 9#64].length = max [12#64, 10#64].length [10#64, 12#64].length ∧
    (SetAlgebra [12#64, 10#64] [10#64, 12#64] [7#64, 9#64] ↔
      NothingPast [12#64, 10#64] [10#64, 12#64] [7#64, 9#64]) :=
  ⟨rfl, set_algebra_iff [12#64, 10#64] [10#64, 12#64] [7#64, 9#64] rfl⟩

/-- The second word of the longer slice is not counted. -/
theorem longer_slice_lost : ¬ SetAlgebra [1#64, 1#64] [1#64] [0#64, 0#64] := by
  intro h
  have past := (h.nothingPast (by decide)).left
  exact absurd (past 1#64 (List.mem_singleton_self _)) (by decide)

end sets

end SimdBitmapEngine

end Hyperplane
