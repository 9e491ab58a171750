import Hyperplane.Lib.Ascending
import Hyperplane.Index.SimdBitmap

/-! The operations of the bitmap engine that give lists: the positions of the set bits of
a slice, and the merge of two ascending slices. A position is a usize, which counts the bits
of any slice an address space has room for. -/
namespace Hyperplane
open Words Ascending

namespace SimdBitmapEngine

def findFirstSet (bitmap : List (BitVec 64)) : Option Nat :=
  bitmap.zipIdx.findSome? fun (word, i) =>
    if word ≠ 0#64 then some (i * 64 + word.ctz.toNat) else none

/-- The inner loop, which ends because every round clears a bit. -/
def findInWord (i : Nat) (word : BitVec 64) (result : List Nat) : List Nat :=
  if _ : word ≠ 0#64 then
    let bit := word.ctz.toNat
    findInWord i (word &&& ~~~(1#64 <<< bit)) (result ++ [i * 64 + bit])
  else result
termination_by (ones word).length
decreasing_by exact length_ones_clear ‹_›

def findAllSet (bitmap : List (BitVec 64)) : List Nat :=
  bitmap.zipIdx.foldl
    (fun result (word, i) => if word ≠ 0#64 then findInWord i word result else result) []

theorem findInWord_eq (i : Nat) (word : BitVec 64) (result : List Nat) :
    findInWord i word result = result ++ (ones word).map (i * 64 + ·) := by
  induction word, result using findInWord.induct i with
  | case1 word result some_set bit ih =>
    rw [findInWord, dif_pos some_set, ones_eq_cons some_set, List.map_cons]
    exact ih.trans (List.append_assoc ..)
  | case2 word result none_set =>
    rw [findInWord, dif_neg none_set, of_not_not none_set, ones_zero, List.map_nil, List.append_nil]

theorem findAllSet_append (bitmap : List (BitVec 64)) (word : BitVec 64) :
    findAllSet (bitmap ++ [word]) = findAllSet bitmap ++ (ones word).map (bitmap.length * 64 + ·) := by
  rw [findAllSet, List.zipIdx_append, List.foldl_append, ← findAllSet, Nat.zero_add,
    List.zipIdx_singleton, List.foldl_cons, List.foldl_nil]
  dsimp only
  by_cases some_set : word ≠ 0#64
  · rw [if_pos some_set, findInWord_eq]
  · rw [if_neg some_set, of_not_not some_set, ones_zero, List.map_nil, List.append_nil]

theorem findAllSet_eq (bitmap : List (BitVec 64)) : findAllSet bitmap = listed bitmap := by
  induction bitmap using List.reverseRecOn with
  | nil => rfl
  | append_singleton bitmap word ih => rw [findAllSet_append, listed_append, ih]

theorem findFirstSet_append (bitmap : List (BitVec 64)) (word : BitVec 64) :
    findFirstSet (bitmap ++ [word]) =
      (findFirstSet bitmap).or ((ones word).map (bitmap.length * 64 + ·)).head? := by
  rw [findFirstSet, List.zipIdx_append, List.findSome?_append, ← findFirstSet, Nat.zero_add,
    List.zipIdx_singleton, List.findSome?_singleton]
  dsimp only
  by_cases some_set : word ≠ 0#64
  · rw [if_pos some_set, ones_eq_cons some_set, List.map_cons, List.head?_cons]
  · rw [if_neg some_set, of_not_not some_set, ones_zero, List.map_nil, List.head?_nil]

theorem findFirstSet_eq (bitmap : List (BitVec 64)) : findFirstSet bitmap = (listed bitmap).head? := by
  induction bitmap using List.reverseRecOn with
  | nil => rfl
  | append_singleton bitmap word ih => rw [findFirstSet_append, listed_append, List.head?_append, ih]

/-- The set bits of a slice are found each once and in order, and the first of them and their
number are those the other operations give. -/
theorem all_set_bits_found (bitmap : List (BitVec 64)) :
    (∀ p, p ∈ findAllSet bitmap ↔
      ∃ i b word, p = i * 64 + b ∧ b < 64 ∧ bitmap[i]? = some word ∧ word.getLsbD b = true) ∧
      (findAllSet bitmap).Pairwise (· < ·) ∧
      (findAllSet bitmap).length = popcount bitmap ∧
      (findAllSet bitmap).head? = findFirstSet bitmap ∧
      (findFirstSet bitmap = none ↔ findAllSet bitmap = []) := by
  rw [findAllSet_eq, findFirstSet_eq]
  refine ⟨fun p => ?_, listed_ascending bitmap, length_listed bitmap, rfl, List.head?_eq_none_iff⟩
  rw [mem_listed, holds_iff]

example : findAllSet [5#64, 0#64, 8#64] = [0, 2, 131] := by decide +kernel

/-- The loop over both slices, from the two cursors, and the tails behind it. -/
def mergeFrom (a b : List UInt64) (i j : Nat) (result : List UInt64) : List UInt64 :=
  if _ : i < a.length ∧ j < b.length then
    if a[i] < b[j] then mergeFrom a b (i + 1) j (result ++ [a[i]])
    else if a[i] > b[j] then mergeFrom a b i (j + 1) (result ++ [b[j]])
    else mergeFrom a b (i + 1) (j + 1) (result ++ [a[i]])
  else result ++ a.drop i ++ b.drop j
termination_by a.length - i + (b.length - j)

def mergeSorted (a b : List UInt64) : List UInt64 := mergeFrom a b 0 0 []

/-- What the loop adds is the union of what is left behind the cursors. -/
theorem mergeFrom_eq (a b : List UInt64) (i j : Nat) (result : List UInt64) :
    mergeFrom a b i j result = result ++ union (a.drop i) (b.drop j) := by
  induction i, j, result using mergeFrom.induct a b with
  | case1 i j result inside before ih =>
    rw [mergeFrom, dif_pos inside, if_pos before, ih, List.drop_eq_getElem_cons inside.1,
      List.drop_eq_getElem_cons inside.2, union, if_pos before, List.append_assoc]
    rfl
  | case2 i j result inside before after ih =>
    rw [mergeFrom, dif_pos inside, if_neg before, if_pos after, ih, List.drop_eq_getElem_cons inside.1,
      List.drop_eq_getElem_cons inside.2, union, if_neg before, if_pos after, List.append_assoc]
    rfl
  | case3 i j result inside before after ih =>
    rw [mergeFrom, dif_pos inside, if_neg before, if_neg after, ih, List.drop_eq_getElem_cons inside.1,
      List.drop_eq_getElem_cons inside.2, union, if_neg before, if_neg after, List.append_assoc]
    rfl
  | case4 i j result outside =>
    rw [mergeFrom, dif_neg outside, List.append_assoc]
    -- one of the slices is used up, so one of the two tails is empty
    by_cases first : i < a.length
    · have past : b.length ≤ j := Nat.le_of_not_lt fun second => outside ⟨first, second⟩
      rw [List.drop_eq_nil_of_le past, union_nil, List.append_nil]
    · rw [List.drop_eq_nil_of_le (Nat.le_of_not_lt first), union, List.nil_append]

theorem mergeSorted_eq (a b : List UInt64) : mergeSorted a b = union a b := mergeFrom_eq a b 0 0 []

/-- The merge of two ascending slices is ascending, has the values of both and no others, and
does not depend on which of them comes first. -/
theorem sorted_merge_union {a b : List UInt64} (left : a.Pairwise (· < ·))
    (right : b.Pairwise (· < ·)) :
    (mergeSorted a b).Pairwise (· < ·) ∧ (∀ x, x ∈ mergeSorted a b ↔ x ∈ a ∨ x ∈ b) ∧
      mergeSorted a b = mergeSorted b a := by
  rw [mergeSorted_eq, mergeSorted_eq]
  exact ⟨union_ascending left right, mem_union a b, union_comm left right⟩

theorem sorted_merge_union_overlapping :
    (mergeSorted [1, 3, 5] [3, 4]).Pairwise (· < ·) ∧
      (∀ x, x ∈ mergeSorted [1, 3, 5] [3, 4] ↔ x ∈ [1, 3, 5] ∨ x ∈ [3, 4]) ∧
      mergeSorted [1, 3, 5] [3, 4] = mergeSorted [3, 4] [1, 3, 5] :=
  sorted_merge_union (by decide) (by decide)

end SimdBitmapEngine

end Hyperplane
