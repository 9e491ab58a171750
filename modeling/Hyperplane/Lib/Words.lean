import Mathlib.Algebra.Ring.Nat
import Mathlib.Data.Finset.Card
import Mathlib.Data.Finset.SymmDiff
import Mathlib.Data.List.Sort

/-! Sets of numbers as lists of words. A list stands for the positions of its set bits,
counted from the lowest bit of the first word; words past its end are zero. -/
namespace Words

variable {w : Nat}

def wordAt (words : List (BitVec w)) (i : Nat) : BitVec w := words[i]?.getD 0#w

def holds (words : List (BitVec w)) (p : Nat) : Bool := (wordAt words (p / w)).getLsbD (p % w)

def bits (x : BitVec w) : Finset Nat := (Finset.range w).filter fun p => x.getLsbD p = true

def positions (words : List (BitVec w)) : Finset Nat :=
  (Finset.range (w * words.length)).filter fun p => holds words p = true

def countOnes (x : BitVec w) : Nat := x.cpop.toNat

def count (words : List (BitVec w)) : Nat := (words.map countOnes).sum

theorem card_filter_getLsbD (x : BitVec w) (n : Nat) :
    ((Finset.range n).filter fun p => x.getLsbD p = true).card = x.cpopNatRec n 0 := by
  induction n with
  | zero => rfl
  | succ n ih =>
    rw [Finset.range_add_one, Finset.filter_insert, BitVec.cpopNatRec_succ, BitVec.cpopNatRec_add, ← ih]
    cases x.getLsbD n with
    | false => simp
    | true => simp

theorem card_bits (x : BitVec w) : (bits x).card = countOnes x := by
  rw [countOnes, BitVec.toNat_cpop, bits, card_filter_getLsbD]

theorem wordAt_of_le {words : List (BitVec w)} {i : Nat} (past : words.length ≤ i) : wordAt words i = 0#w := by
  rw [wordAt, List.getElem?_eq_none past, Option.getD_none]

theorem wordAt_set (words : List (BitVec w)) {i : Nat} (x : BitVec w) (inside : i < words.length) (j : Nat) :
    wordAt (words.set i x) j = if j = i then x else wordAt words j := by
  by_cases same : j = i
  · subst same
    rw [if_pos rfl, wordAt, List.getElem?_set_self inside, Option.getD_some]
  · rw [if_neg same, wordAt, List.getElem?_set_ne (Ne.symm same), wordAt]

theorem wordAt_map_range (f : Nat → BitVec w) (n i : Nat) :
    wordAt ((List.range n).map f) i = if i < n then f i else 0#w := by
  by_cases inside : i < n
  · rw [if_pos inside, wordAt, List.getElem?_map, List.getElem?_range inside, Option.map_some,
      Option.getD_some]
  · rw [if_neg inside]
    exact wordAt_of_le (by simpa using inside)

/-- A loop that adds up the set bits of words counts the list of the words. -/
theorem foldl_countOnes (f : Nat → BitVec w) (n : Nat) :
    (List.range n).foldl (fun total i => total + countOnes (f i)) 0 = count ((List.range n).map f) := by
  rw [count, List.map_map, List.sum_eq_foldl, List.foldl_map]
  rfl

/-- The set bits of a word in ascending order. -/
def ones (x : BitVec w) : List Nat := (List.range w).filter x.getLsbD

def clear (x : BitVec w) (b : Nat) : BitVec w := x &&& ~~~(1#w <<< b)

theorem mem_ones (x : BitVec w) (b : Nat) : b ∈ ones x ↔ x.getLsbD b = true := by
  rw [ones, List.mem_filter, List.mem_range, and_iff_right_iff_imp]
  exact BitVec.lt_of_getLsbD

theorem ones_ascending (x : BitVec w) : (ones x).Pairwise (· < ·) := List.pairwise_lt_range.filter _

theorem ones_zero : ones (0#w) = [] := by
  refine List.eq_nil_iff_forall_not_mem.mpr fun b member => ?_
  rw [mem_ones, BitVec.getLsbD_zero] at member
  cases member

theorem getLsbD_clear (x : BitVec w) (b p : Nat) :
    (clear x b).getLsbD p = true ↔ p ≠ b ∧ x.getLsbD p = true := by
  rw [clear, BitVec.getLsbD_and, BitVec.getLsbD_not, BitVec.getLsbD_shiftLeft, Bool.and_eq_true,
    and_comm]
  refine and_congr_left fun set => ?_
  have inside := BitVec.lt_of_getLsbD set
  simp [inside]
  omega

/-- The lowest set bit comes first, and the word without it lists the others. -/
theorem ones_eq_cons {x : BitVec w} (some_set : x ≠ 0#w) :
    ones x = x.ctz.toNat :: ones (clear x x.ctz.toNat) := by
  have set := BitVec.getLsbD_true_ctz_of_ne_zero some_set
  refine (ones_ascending x).eq_of_mem_iff (List.pairwise_cons.mpr ⟨?_, ones_ascending _⟩) fun b => ?_
  · intro b member
    rw [mem_ones, getLsbD_clear] at member
    by_contra low
    have below : b < x.ctz.toNat := by omega
    rw [BitVec.getLsbD_false_of_lt_ctz below] at member
    cases member.2
  · rw [List.mem_cons, mem_ones, mem_ones, getLsbD_clear]
    by_cases lowest : b = x.ctz.toNat
    · exact iff_of_true (lowest ▸ set) (.inl lowest)
    · rw [or_iff_right lowest, and_iff_right lowest]

/-- Clearing the lowest set bits one after the other ends. -/
theorem length_ones_clear {x : BitVec w} (some_set : x ≠ 0#w) :
    (ones (clear x x.ctz.toNat)).length < (ones x).length := by
  rw [ones_eq_cons some_set, List.length_cons]
  exact Nat.lt_succ_self _

/-- The positions in ascending order. -/
def listed (words : List (BitVec w)) : List Nat :=
  (List.range (w * words.length)).filter (holds words)

theorem listed_ascending (words : List (BitVec w)) : (listed words).Pairwise (· < ·) :=
  List.pairwise_lt_range.filter _

variable [NeZero w]

theorem mem_positions (words : List (BitVec w)) (p : Nat) : p ∈ positions words ↔ holds words p = true := by
  rw [positions, Finset.mem_filter, Finset.mem_range, and_iff_right_iff_imp]
  intro found
  by_contra past
  have beyond : words.length ≤ p / w :=
    (Nat.le_div_iff_mul_le (Nat.pos_of_neZero w)).mpr (by rw [Nat.mul_comm]; omega)
  rw [holds, wordAt_of_le beyond] at found
  simp at found

/-- The position of a bit of a word. -/
theorem holds_at (words : List (BitVec w)) (i : Nat) {b : Nat} (inside : b < w) :
    holds words (i * w + b) = (wordAt words i).getLsbD b := by
  have pos := Nat.pos_of_neZero w
  rw [holds, Nat.mul_comm i w, Nat.mul_add_div pos, Nat.div_eq_of_lt inside, Nat.add_zero, Nat.mul_add_mod,
    Nat.mod_eq_of_lt inside]

theorem holds_iff (words : List (BitVec w)) (p : Nat) : holds words p = true ↔
    ∃ i b x, p = i * w + b ∧ b < w ∧ words[i]? = some x ∧ x.getLsbD b = true := by
  constructor
  · intro found
    have here : p = p / w * w + p % w := by rw [Nat.mul_comm, Nat.div_add_mod]
    refine ⟨p / w, p % w, ?_⟩
    cases word : words[p / w]? with
    | none =>
      rw [holds, wordAt, word, Option.getD_none, BitVec.getLsbD_zero] at found
      cases found
    | some x =>
      rw [holds, wordAt, word, Option.getD_some] at found
      exact ⟨x, here, Nat.mod_lt p (Nat.pos_of_neZero w), rfl, found⟩
  · rintro ⟨i, b, x, rfl, inside, word, found⟩
    rw [holds_at words i inside, wordAt, word, Option.getD_some, found]

/-- A word before the others moves their positions up. -/
def shift (w : Nat) : Nat ↪ Nat := ⟨(· + w), fun _ _ => Nat.add_right_cancel⟩

theorem positions_cons (x : BitVec w) (rest : List (BitVec w)) :
    positions (x :: rest) = bits x ∪ (positions rest).map (shift w) := by
  ext p
  have pos := Nat.pos_of_neZero w
  rw [mem_positions, Finset.mem_union, Finset.mem_map, bits, Finset.mem_filter, Finset.mem_range]
  by_cases first : p < w
  · rw [holds, Nat.div_eq_of_lt first, Nat.mod_eq_of_lt first]
    constructor
    · exact fun found => .inl ⟨first, found⟩
    · rintro (⟨_, found⟩ | ⟨q, _, rfl⟩)
      · exact found
      · exact absurd first (Nat.not_lt.mpr (Nat.le_add_left w q))
  · obtain ⟨q, rfl⟩ := Nat.exists_eq_add_of_le' (Nat.le_of_not_lt first)
    have shifted : holds (x :: rest) (q + w) = holds rest q := by
      rw [holds, Nat.add_div_right q pos, Nat.add_mod_right]
      rfl
    rw [shifted, ← mem_positions]
    constructor
    · exact fun found => .inr ⟨q, found, rfl⟩
    · rintro (⟨inside, _⟩ | ⟨r, found, same⟩)
      · exact absurd inside first
      · rwa [← Nat.add_right_cancel (same : r + w = q + w)]

/-- Counting the set bits of the words counts the positions. -/
theorem card_positions (words : List (BitVec w)) : (positions words).card = count words := by
  induction words with
  | nil => rfl
  | cons x rest ih =>
    have apart : Disjoint (bits x) ((positions rest).map (shift w)) := by
      rw [Finset.disjoint_left]
      intro p low high
      obtain ⟨q, _, rfl⟩ := Finset.mem_map.mp high
      rw [bits, Finset.mem_filter, Finset.mem_range] at low
      exact absurd low.1 (Nat.not_lt.mpr (Nat.le_add_left w q))
    rw [positions_cons, Finset.card_union_of_disjoint apart, Finset.card_map, card_bits, ih]
    rfl

theorem mem_listed (words : List (BitVec w)) (p : Nat) : p ∈ listed words ↔ holds words p = true := by
  rw [← mem_positions, positions, Finset.mem_filter, Finset.mem_range, listed, List.mem_filter,
    List.mem_range]

theorem length_listed (words : List (BitVec w)) : (listed words).length = count words := by
  have same : (listed words).toFinset = positions words := by
    ext p
    rw [List.mem_toFinset, mem_listed, mem_positions]
  rw [← card_positions, ← same, List.toFinset_card_of_nodup ((listed_ascending words).imp Nat.ne_of_lt)]

/-- A last word is listed behind the words before it. -/
theorem listed_append (words : List (BitVec w)) (x : BitVec w) :
    listed (words ++ [x]) = listed words ++ (ones x).map (words.length * w + ·) := by
  have before (p : Nat) (inside : p < w * words.length) : holds (words ++ [x]) p = holds words p := by
    have word : p / w < words.length := Nat.div_lt_of_lt_mul inside
    rw [holds, wordAt, List.getElem?_append_left word]
    rfl
  have last (b : Nat) (inside : b < w) : holds (words ++ [x]) (w * words.length + b) = x.getLsbD b := by
    rw [Nat.mul_comm, holds_at _ _ inside, wordAt, List.getElem?_append_right (Nat.le_refl _),
      Nat.sub_self]
    rfl
  rw [listed, List.length_append, List.length_singleton, Nat.mul_add_one, List.range_add,
    List.filter_append, List.filter_map, ones, Nat.mul_comm words.length w]
  congr 1
  · exact List.filter_congr fun p member => before p (List.mem_range.mp member)
  · refine congrArg _ (List.filter_congr fun b member => ?_)
    exact last b (List.mem_range.mp member)

theorem wordAt_eq_zero_iff (words : List (BitVec w)) (i : Nat) :
    wordAt words i = 0#w ↔ ∀ p, p / w = i → holds words p = false := by
  constructor
  · rintro zero p rfl
    rw [holds, zero]
    exact BitVec.getLsbD_zero
  · intro none
    refine BitVec.eq_of_getLsbD_eq fun b inside => ?_
    rw [← holds_at words i inside, none]
    · exact BitVec.getLsbD_zero.symm
    · rw [Nat.mul_comm, Nat.mul_add_div (Nat.pos_of_neZero w), Nat.div_eq_of_lt inside, Nat.add_zero]

/-- The words from a given one on are zero exactly if none of their positions is held. -/
theorem drop_zero_iff (words : List (BitVec w)) (n : Nat) :
    (∀ x ∈ words.drop n, x = 0#w) ↔ ∀ p, n ≤ p / w → holds words p = false := by
  constructor
  · intro zero p past
    refine (wordAt_eq_zero_iff words (p / w)).mp ?_ p rfl
    cases found : words[p / w]? with
    | none => rw [wordAt, found, Option.getD_none]
    | some x =>
      rw [wordAt, found, Option.getD_some]
      refine zero x (List.mem_iff_getElem?.mpr ⟨p / w - n, ?_⟩)
      rw [List.getElem?_drop, Nat.add_sub_cancel' past, found]
  · intro none x member
    obtain ⟨j, found⟩ := List.mem_iff_getElem?.mp member
    rw [List.getElem?_drop] at found
    have zero : wordAt words (n + j) = 0#w :=
      (wordAt_eq_zero_iff words (n + j)).mpr fun p here => none p (here ▸ Nat.le_add_right n j)
    rwa [wordAt, found, Option.getD_some] at zero

end Words
