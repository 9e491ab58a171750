import Mathlib.Data.Finset.Lattice.Fold
import Mathlib.Data.Finset.Sort
import Hyperplane.Types.Bitmap

/-! The intersection engine and the operations of a bitmap, over finite sets of ids. -/
namespace Hyperplane

namespace PubkeyBitmap

variable {S : Type}

def len (b : PubkeyBitmap S) : Nat := b.cardinality

def isEmpty (b : PubkeyBitmap S) : Bool := b.cardinality == 0

variable [IdAlgebra S]

def clear (_ : PubkeyBitmap S) : PubkeyBitmap S := ⟨IdSet.empty, 0⟩

def intersection (b other : PubkeyBitmap S) : PubkeyBitmap S :=
  let result := IdAlgebra.inter b.bitmap other.bitmap
  ⟨result, IdSet.len result⟩

def union (b other : PubkeyBitmap S) : PubkeyBitmap S :=
  let result := IdUnion.union b.bitmap other.bitmap
  ⟨result, IdSet.len result⟩

def difference (b other : PubkeyBitmap S) : PubkeyBitmap S :=
  let result := IdAlgebra.diff b.bitmap other.bitmap
  ⟨result, IdSet.len result⟩

def firstN (b : PubkeyBitmap S) (n : Nat) : List Nat := b.iter.take n

end PubkeyBitmap

structure IntersectionResult (S : Type) where
  bitmap : PubkeyBitmap S
  numBitmaps : Nat
  estimatedTimeUs : UInt64

namespace BitmapIntersectionEngine

variable {S : Type} [IdAlgebra S]

/-- Of no bitmaps the intersection is empty. -/
def intersect : List (PubkeyBitmap S) → IntersectionResult S
  | [] => ⟨.new, 0, 0⟩
  | first :: rest =>
    let result := rest.foldl PubkeyBitmap.intersection first
    ⟨result, rest.length + 1, UInt64.ofNat result.len * UInt64.ofNat (rest.length + 1) / 1000⟩

def intersectTwo (a b : PubkeyBitmap S) : PubkeyBitmap S := a.intersection b

def union : List (PubkeyBitmap S) → PubkeyBitmap S
  | [] => .new
  | first :: rest => rest.foldl PubkeyBitmap.union first

def difference (a b : PubkeyBitmap S) : PubkeyBitmap S := a.difference b

end BitmapIntersectionEngine

/-- What is done to bitmaps, each known by a number. -/
inductive PubkeyBitmapCall where
  | insert (target id : Nat)
  | remove (target id : Nat)
  | clear (target : Nat)
  | intersect (target : Nat) (sources : List Nat)
  | intersectTwo (target a b : Nat)
  | union (target : Nat) (sources : List Nat)
  | difference (target a b : Nat)

def PubkeyBitmapCall.apply {S : Type} [IdAlgebra S] (bitmaps : Nat → PubkeyBitmap S) :
    PubkeyBitmapCall → Nat → PubkeyBitmap S
  | .insert target id => Function.update bitmaps target ((bitmaps target).insert id).2
  | .remove target id => Function.update bitmaps target ((bitmaps target).remove id).2
  | .clear target => Function.update bitmaps target (bitmaps target).clear
  | .intersect target sources =>
    Function.update bitmaps target (BitmapIntersectionEngine.intersect (sources.map bitmaps)).bitmap
  | .intersectTwo target a b =>
    Function.update bitmaps target (BitmapIntersectionEngine.intersectTwo (bitmaps a) (bitmaps b))
  | .union target sources =>
    Function.update bitmaps target (BitmapIntersectionEngine.union (sources.map bitmaps))
  | .difference target a b =>
    Function.update bitmaps target (BitmapIntersectionEngine.difference (bitmaps a) (bitmaps b))

/-- The same call on sets. -/
def PubkeyBitmapCall.denote (sets : Nat → Finset Nat) : PubkeyBitmapCall → Nat → Finset Nat
  | .insert target id => Function.update sets target ({id} ∪ sets target)
  | .remove target id => Function.update sets target ((sets target).erase id)
  | .clear target => Function.update sets target ∅
  | .intersect target [] => Function.update sets target ∅
  | .intersect target (first :: rest) =>
    Function.update sets target ((sets first).filter fun id => ∀ i ∈ rest, id ∈ sets i)
  | .intersectTwo target a b => Function.update sets target (sets a ∩ sets b)
  | .union target sources => Function.update sets target (sources.toFinset.sup sets)
  | .difference target a b => Function.update sets target (sets a \ sets b)

namespace PubkeyBitmap

variable {S : Type} [IdAlgebra S]

/-- The bitmap holds exactly the set, and its counter is right. -/
structure Represents (b : PubkeyBitmap S) (set : Finset Nat) : Prop where
  contains : ∀ i, b.contains i = true ↔ i ∈ set
  counted : b.cardinality = set.card

theorem iter_eq_sort {s : S} {set : Finset Nat} (contains : ∀ i, IdSet.contains s i = true ↔ i ∈ set) :
    IdSet.iter s = set.sort := by
  apply (IdSet.iter_ascending s).eq_of_mem_iff set.sortedLT_sort.pairwise
  intro i
  rw [IdSet.mem_iter, contains, Finset.mem_sort]

theorem len_eq_card {s : S} {set : Finset Nat} (contains : ∀ i, IdSet.contains s i = true ↔ i ∈ set) :
    IdSet.len s = set.card := by
  rw [IdSet.len_eq, iter_eq_sort contains, Finset.length_sort]

/-- An operation that counts its result anew. -/
theorem represents_of_contains {s : S} {set : Finset Nat}
    (contains : ∀ i, IdSet.contains s i = true ↔ i ∈ set) : Represents ⟨s, IdSet.len s⟩ set :=
  ⟨contains, len_eq_card contains⟩

theorem represents_new : Represents (new : PubkeyBitmap S) ∅ where
  contains i := by simp
  counted := rfl

variable {a b : PubkeyBitmap S} {x y : Finset Nat}

theorem Represents.insert (h : Represents a x) (id : Nat) :
    Represents (a.insert id).2 ({id} ∪ x) ∧ (a.insert id).1 = decide (id ∉ x) := by
  have contains (i : Nat) : (a.insert id).2.contains i = true ↔ i ∈ {id} ∪ x := by
    simp [h.contains]
  have flag := IdSet.insert_flag a.bitmap id
  have held := h.contains id
  rw [PubkeyBitmap.contains] at held
  unfold PubkeyBitmap.insert at contains ⊢
  cases ran : IdSet.insert a.bitmap id with
  | mk fresh bitmap =>
    rw [ran] at contains flag
    cases fresh with
    | true =>
      have absent : id ∉ x := fun member => by simp [held.mpr member] at flag
      exact ⟨represents_of_contains contains, (decide_eq_true absent).symm⟩
    | false =>
      have member : id ∈ x := held.mp (by simpa using flag)
      refine ⟨⟨contains, ?_⟩, (decide_eq_false (not_not.mpr member)).symm⟩
      rw [Finset.singleton_union, Finset.insert_eq_self.mpr member]
      exact h.counted

theorem Represents.remove (h : Represents a x) (id : Nat) :
    Represents (a.remove id).2 (x.erase id) ∧ (a.remove id).1 = decide (id ∈ x) := by
  have contains (i : Nat) : (a.remove id).2.contains i = true ↔ i ∈ x.erase id := by
    simp [h.contains]
  have flag := IdSet.remove_flag a.bitmap id
  have held := h.contains id
  rw [PubkeyBitmap.contains] at held
  unfold PubkeyBitmap.remove at contains ⊢
  cases ran : IdSet.remove a.bitmap id with
  | mk found bitmap =>
    rw [ran] at contains flag
    cases found with
    | true => exact ⟨represents_of_contains contains, (decide_eq_true (held.mp flag.symm)).symm⟩
    | false =>
      have absent : id ∉ x := fun member => by simp [held.mpr member] at flag
      refine ⟨⟨contains, ?_⟩, (decide_eq_false absent).symm⟩
      rw [Finset.erase_eq_of_notMem absent]
      exact h.counted

theorem Represents.intersection (h : Represents a x) (h' : Represents b y) :
    Represents (a.intersection b) (x ∩ y) := by
  refine represents_of_contains fun i => ?_
  rw [IdAlgebra.contains_inter, Bool.and_eq_true, Finset.mem_inter]
  exact and_congr (h.contains i) (h'.contains i)

theorem Represents.union (h : Represents a x) (h' : Represents b y) : Represents (a.union b) (x ∪ y) := by
  refine represents_of_contains fun i => ?_
  rw [IdUnion.contains_union, Bool.or_eq_true, Finset.mem_union]
  exact or_congr (h.contains i) (h'.contains i)

theorem Represents.difference (h : Represents a x) (h' : Represents b y) :
    Represents (a.difference b) (x \ y) := by
  refine represents_of_contains fun i => ?_
  rw [IdAlgebra.contains_diff, Bool.and_eq_true, Bool.not_eq_true', Finset.mem_sdiff, ← Bool.not_eq_true]
  exact and_congr (h.contains i) (not_congr (h'.contains i))

/-- The loop over the remaining bitmaps. -/
theorem Represents.intersections {bitmaps : Nat → PubkeyBitmap S} {sets : Nat → Finset Nat}
    (each : ∀ r, Represents (bitmaps r) (sets r)) (h : Represents a x) (rest : List Nat) :
    Represents ((rest.map bitmaps).foldl PubkeyBitmap.intersection a)
      (x.filter fun id => ∀ i ∈ rest, id ∈ sets i) := by
  induction rest generalizing a x with
  | nil => simpa using h
  | cons r rest ih =>
    have same : (x.filter fun id => ∀ i ∈ r :: rest, id ∈ sets i) =
        (x ∩ sets r).filter fun id => ∀ i ∈ rest, id ∈ sets i := by
      ext id
      simp only [Finset.mem_filter, Finset.mem_inter, List.forall_mem_cons, and_assoc]
    rw [same]
    exact ih (h.intersection (each r))

theorem Represents.unions {bitmaps : Nat → PubkeyBitmap S} {sets : Nat → Finset Nat}
    (each : ∀ r, Represents (bitmaps r) (sets r)) (h : Represents a x) (rest : List Nat) :
    Represents ((rest.map bitmaps).foldl PubkeyBitmap.union a) (x ∪ rest.toFinset.sup sets) := by
  induction rest generalizing a x with
  | nil => simpa using h
  | cons r rest ih =>
    rw [List.toFinset_cons, Finset.sup_insert, Finset.sup_eq_union, ← Finset.union_assoc]
    exact ih (h.union (each r))

theorem represents_update {bitmaps : Nat → PubkeyBitmap S} {sets : Nat → Finset Nat}
    (each : ∀ r, Represents (bitmaps r) (sets r)) (target : Nat) (h : Represents a x) (r : Nat) :
    Represents (Function.update bitmaps target a r) (Function.update sets target x r) := by
  by_cases same : r = target
  · subst same
    rw [Function.update_self, Function.update_self]
    exact h
  · rw [Function.update_of_ne same, Function.update_of_ne same]
    exact each r

/-- Every call does to the bitmaps what it does to the sets. -/
theorem represents_apply {bitmaps : Nat → PubkeyBitmap S} {sets : Nat → Finset Nat}
    (each : ∀ r, Represents (bitmaps r) (sets r)) (call : PubkeyBitmapCall) (r : Nat) :
    Represents (call.apply bitmaps r) (call.denote sets r) := by
  cases call with
  | insert target id => exact represents_update each target ((each target).insert id).1 r
  | remove target id => exact represents_update each target ((each target).remove id).1 r
  | clear target => exact represents_update each target represents_new r
  | intersect target sources =>
    cases sources with
    | nil => exact represents_update each target represents_new r
    | cons first rest => exact represents_update each target (.intersections each (each first) rest) r
  | intersectTwo target x y => exact represents_update each target ((each x).intersection (each y)) r
  | union target sources =>
    refine represents_update each target ?_ r
    cases sources with
    | nil => exact represents_new
    | cons first rest =>
      rw [List.toFinset_cons, Finset.sup_insert, Finset.sup_eq_union]
      exact .unions each (each first) rest
  | difference target x y => exact represents_update each target ((each x).difference (each y)) r

theorem represents_run (calls : List PubkeyBitmapCall) {bitmaps : Nat → PubkeyBitmap S}
    {sets : Nat → Finset Nat} (each : ∀ r, Represents (bitmaps r) (sets r)) (r : Nat) :
    Represents (calls.foldl PubkeyBitmapCall.apply bitmaps r)
      (calls.foldl PubkeyBitmapCall.denote sets r) := by
  induction calls generalizing bitmaps sets with
  | nil => exact each r
  | cons call rest ih => exact ih (represents_apply each call)

theorem Represents.reads (h : Represents a x) : (∀ id, a.contains id = decide (id ∈ x)) ∧ a.len = x.card ∧
    a.isEmpty = decide (x = ∅) ∧ a.iter = x.sort ∧ ∀ n, a.firstN n = x.sort.take n := by
  have sorted : a.iter = x.sort := iter_eq_sort h.contains
  refine ⟨fun id => ?_, h.counted, ?_, sorted, fun n => congrArg (·.take n) sorted⟩
  · rw [Bool.eq_iff_iff, h.contains, decide_eq_true_iff]
  · rw [isEmpty, h.counted, Bool.eq_iff_iff, beq_iff_eq, Finset.card_eq_zero, decide_eq_true_iff]

/-- After any calls each bitmap is its set: in membership, count and order, and in what the
next insertion or removal reports. The engine intersects any number of them: the result is
empty for none, and otherwise the common ids, whatever the order and the repetitions. -/
theorem bitmaps_are_sets (calls : List PubkeyBitmapCall) :
    let bitmaps := calls.foldl PubkeyBitmapCall.apply (fun _ => (new : PubkeyBitmap S))
    let sets := calls.foldl PubkeyBitmapCall.denote fun _ => ∅
    (∀ r, (∀ id, (bitmaps r).contains id = decide (id ∈ sets r)) ∧ (bitmaps r).len = (sets r).card ∧
      (bitmaps r).isEmpty = decide (sets r = ∅) ∧ (bitmaps r).iter = (sets r).sort ∧
      (∀ n, (bitmaps r).firstN n = (sets r).sort.take n) ∧
      ∀ id, ((bitmaps r).insert id).1 = decide (id ∉ sets r) ∧
        ((bitmaps r).remove id).1 = decide (id ∈ sets r)) ∧
    ∀ sources, let result := BitmapIntersectionEngine.intersect (sources.map bitmaps)
      result.numBitmaps = sources.length ∧
        ∀ id, result.bitmap.contains id = true ↔ sources ≠ [] ∧ ∀ r ∈ sources, id ∈ sets r := by
  intro bitmaps sets
  have each (r : Nat) : Represents (bitmaps r) (sets r) := represents_run calls (fun _ => represents_new) r
  refine ⟨fun r => ?_, fun sources => ?_⟩
  · obtain ⟨contains, len, isEmpty, iter, firstN⟩ := (each r).reads
    exact ⟨contains, len, isEmpty, iter, firstN, fun id => ⟨((each r).insert id).2, ((each r).remove id).2⟩⟩
  · cases sources with
    | nil => exact ⟨rfl, fun id => by simp [BitmapIntersectionEngine.intersect]⟩
    | cons first rest =>
      have common := Represents.intersections each (each first) rest
      refine ⟨by simp [BitmapIntersectionEngine.intersect], fun id => ?_⟩
      refine (common.contains id).trans ?_
      rw [Finset.mem_filter, List.forall_mem_cons]
      simp

end PubkeyBitmap

end Hyperplane
