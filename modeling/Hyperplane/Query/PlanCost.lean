import Mathlib.Algebra.Ring.Nat
import Hyperplane.Query.CostModel

/-! What the plan of the cost model costs, against every other order of its filters.
Sorted by cardinality, every step of a plan works on as few accounts as there can be. -/
namespace Hyperplane

namespace QueryCostModel

/-- The accounts that the intersections of a plan go over, and what is left at the end,
in numbers that do not overflow. -/
def charged (running : UInt64) : List (FilterType × UInt64) → Nat
  | [] => 0
  | filter :: rest => running.toNat + charged (min running filter.2) rest

def lowest (running : UInt64) : List (FilterType × UInt64) → UInt64
  | [] => running
  | filter :: rest => lowest (min running filter.2) rest

def exactCost (weights : CostWeights) (filters : List (FilterType × UInt64)) : Nat :=
  let lookups := filters.length * weights.bitmapLookupCost.toNat
  match filters with
  | first :: second :: rest =>
    lookups + charged first.2 (second :: rest) * weights.intersectionCostPerAccount.toNat +
      (lowest first.2 (second :: rest)).toNat * weights.memoryAccessCostPerAccount.toNat
  | _ => lookups

theorem min_eq_or (a b : UInt64) : min a b = if a ≤ b then a else b := rfl

theorem le_min {a b c : UInt64} (first : a ≤ b) (second : a ≤ c) : a ≤ min b c := by
  rw [min_eq_or]
  split
  · exact first
  · exact second

theorem min_of_le {a b : UInt64} (le : a ≤ b) : min a b = a := if_pos le

theorem min_of_ge {a b : UInt64} (ge : b ≤ a) : min a b = b := by
  rw [min_eq_or]
  split
  · rename_i le
    exact UInt64.le_antisymm le ge
  · rfl

theorem foldl_charged (weight total running : UInt64) (filters : List (FilterType × UInt64)) :
    (filters.foldl (fun (total, running) filter => (total + running * weight, min running filter.2))
      (total, running)).1.toNat = (total.toNat + charged running filters * weight.toNat) % 2 ^ 64 ∧
    (filters.foldl (fun (total, running) filter => (total + running * weight, min running filter.2))
      (total, running)).2 = lowest running filters := by
  induction filters generalizing total running with
  | nil =>
    simp [charged, lowest, Nat.mod_eq_of_lt total.toNat_lt]
  | cons filter rest ih =>
    obtain ⟨cost, left⟩ := ih (total + running * weight) (min running filter.2)
    refine ⟨cost.trans ?_, left⟩
    rw [UInt64.toNat_add, UInt64.toNat_mul, charged, Nat.add_mul, ← Nat.add_assoc]
    generalize running.toNat * weight.toNat = here
    generalize charged (min running filter.2) rest * weight.toNat = later
    omega

/-- As long as the cost fits into 64 bits nothing overflows on the way to it. -/
theorem calculateCost_exact (model : QueryCostModel) {filters : List (FilterType × UInt64)}
    (fits : exactCost model.costWeights filters < 2 ^ 64) :
    (model.calculateCost filters).toNat = exactCost model.costWeights filters := by
  have lookups : (UInt64.ofNat filters.length * model.costWeights.bitmapLookupCost).toNat =
      filters.length * model.costWeights.bitmapLookupCost.toNat % 2 ^ 64 := by
    rw [UInt64.toNat_mul, UInt64.toNat_ofNat', Nat.mod_mul_mod]
  match filters with
  | [] | [_] =>
    rw [calculateCost.eq_def, exactCost.eq_def]
    dsimp only
    rw [lookups]
    exact Nat.mod_eq_of_lt fits
  | first :: second :: rest =>
    obtain ⟨total, running⟩ := foldl_charged model.costWeights.intersectionCostPerAccount
      (UInt64.ofNat (first :: second :: rest).length * model.costWeights.bitmapLookupCost) first.2
      (second :: rest)
    rw [lookups] at total
    rw [calculateCost.eq_def]
    dsimp only
    rw [UInt64.toNat_add, UInt64.toNat_mul, total, running]
    refine Eq.trans ?_ (Nat.mod_eq_of_lt fits)
    unfold exactCost
    dsimp only
    generalize (first :: second :: rest).length * model.costWeights.bitmapLookupCost.toNat = a
    generalize charged first.2 (second :: rest) * model.costWeights.intersectionCostPerAccount.toNat = b
    generalize (lowest first.2 (second :: rest)).toNat * model.costWeights.memoryAccessCostPerAccount.toNat = c
    omega

section least

variable {least running : UInt64} {filters : List (FilterType × UInt64)}

theorem charged_ge (start : least ≤ running) (all : ∀ f ∈ filters, least ≤ f.2) :
    filters.length * least.toNat ≤ charged running filters := by
  induction filters generalizing running with
  | nil => simp [charged]
  | cons f rest ih =>
    have later := ih (le_min start (all f List.mem_cons_self)) fun g member => all g (List.mem_cons_of_mem f member)
    have first := UInt64.le_iff_toNat_le.mp start
    rw [charged, List.length_cons, Nat.succ_mul]
    omega

theorem lowest_ge (start : least ≤ running) (all : ∀ f ∈ filters, least ≤ f.2) :
    least ≤ lowest running filters := by
  induction filters generalizing running with
  | nil => exact start
  | cons f rest ih =>
    exact ih (le_min start (all f List.mem_cons_self)) fun g member => all g (List.mem_cons_of_mem f member)

theorem charged_least (all : ∀ f ∈ filters, least ≤ f.2) :
    charged least filters = filters.length * least.toNat := by
  induction filters with
  | nil => simp [charged]
  | cons f rest ih =>
    rw [charged, min_of_le (all f List.mem_cons_self), ih fun g member => all g (List.mem_cons_of_mem f member),
      List.length_cons, Nat.succ_mul, Nat.add_comm]

theorem lowest_least (all : ∀ f ∈ filters, least ≤ f.2) : lowest least filters = least := by
  induction filters with
  | nil => rfl
  | cons f rest ih =>
    rw [lowest, min_of_le (all f List.mem_cons_self)]
    exact ih fun g member => all g (List.mem_cons_of_mem f member)

theorem runningMinima_least {cardinalities : List UInt64} (all : ∀ c ∈ cardinalities, least ≤ c) :
    runningMinima least cardinalities = cardinalities.map fun _ => least := by
  induction cardinalities with
  | nil => rfl
  | cons c rest ih =>
    rw [runningMinima, min_of_le (all c List.mem_cons_self),
      ih fun d member => all d (List.mem_cons_of_mem c member)]
    rfl

theorem exactCost_ge (weights : CostWeights) (long : 1 < filters.length) (all : ∀ f ∈ filters, least ≤ f.2) :
    filters.length * weights.bitmapLookupCost.toNat +
      (filters.length - 1) * least.toNat * weights.intersectionCostPerAccount.toNat +
      least.toNat * weights.memoryAccessCostPerAccount.toNat ≤ exactCost weights filters := by
  match filters with
  | first :: second :: rest =>
    have start := all first List.mem_cons_self
    have later : ∀ f ∈ second :: rest, least ≤ f.2 := fun f member => all f (List.mem_cons_of_mem first member)
    have last := UInt64.le_iff_toNat_le.mp (lowest_ge start later)
    exact Nat.add_le_add (Nat.add_le_add_left (Nat.mul_le_mul_right _ (charged_ge start later)) _)
      (Nat.mul_le_mul_right _ last)

theorem exactCost_least (weights : CostWeights) {first : FilterType × UInt64} {rest : List (FilterType × UInt64)}
    (long : 1 < (first :: rest).length) (all : ∀ f ∈ rest, first.2 ≤ f.2) :
    exactCost weights (first :: rest) = (first :: rest).length * weights.bitmapLookupCost.toNat +
      ((first :: rest).length - 1) * first.2.toNat * weights.intersectionCostPerAccount.toNat +
      first.2.toNat * weights.memoryAccessCostPerAccount.toNat := by
  match rest with
  | second :: rest =>
    unfold exactCost
    dsimp only
    rw [charged_least all, lowest_least all]
    rfl

/-- No order of a list is cheaper than one that starts with a least element. -/
theorem exactCost_le (weights : CostWeights) {first : FilterType × UInt64} {rest other : List (FilterType × UInt64)}
    (all : ∀ f ∈ rest, first.2 ≤ f.2) (perm : other.Perm (first :: rest)) :
    exactCost weights (first :: rest) ≤ exactCost weights other := by
  have length := perm.length_eq
  have bound : ∀ f ∈ other, first.2 ≤ f.2 := by
    intro f member
    rcases List.mem_cons.mp (perm.mem_iff.mp member) with rfl | later
    · exact UInt64.le_refl _
    · exact all f later
  by_cases long : 1 < (first :: rest).length
  · rw [exactCost_least weights long all, ← length]
    exact exactCost_ge weights (length ▸ long) bound
  · match rest, other with
    | [], [_] => exact Nat.le_refl _
    | [], [] => cases length
    | [], _ :: _ :: _ => simp at length
    | _ :: _, _ => simp at long

end least

theorem pairwise_sorted (estimates : List (FilterType × UInt64)) :
    (estimates.mergeSort fun a b => decide (a.2 ≤ b.2)).Pairwise fun a b => a.2 ≤ b.2 := by
  refine (List.pairwise_mergeSort (fun a b c first second => ?_) (fun a b => ?_) _).imp of_decide_eq_true
  · exact decide_eq_true (UInt64.le_trans (of_decide_eq_true first) (of_decide_eq_true second))
  · rcases UInt64.le_total a.2 b.2 with le | ge
    · simp [le]
    · simp [ge]

/-- A plan runs its filters from the fewest accounts to the most, works on the fewest
from the first step on, and costs no more than any other order of the same estimates. -/
theorem createOptimizedPlan_optimal (model : QueryCostModel) (programId : Pubkey) (filters : List GpaFilter) :
    ∃ sorted : List (FilterType × UInt64), sorted.Perm (model.estimates programId filters) ∧
      sorted.Pairwise (fun a b => a.2 ≤ b.2) ∧
      (model.createOptimizedPlan programId filters).executionOrder = sorted.map Prod.fst ∧
      (model.createOptimizedPlan programId filters).intermediateCardinalities.length = sorted.length ∧
      (∀ c ∈ (model.createOptimizedPlan programId filters).intermediateCardinalities,
        c ∈ (model.estimates programId filters).map Prod.snd ∧
          ∀ e ∈ model.estimates programId filters, c ≤ e.2) ∧
      ∀ other : List (FilterType × UInt64), other.Perm (model.estimates programId filters) →
        exactCost model.costWeights other < 2 ^ 64 →
        (model.createOptimizedPlan programId filters).estimatedTotalCost ≤ model.calculateCost other := by
  have perm := (model.estimates programId filters).mergeSort_perm fun a b => decide (a.2 ≤ b.2)
  have ascending := pairwise_sorted (model.estimates programId filters)
  rw [createOptimizedPlan_eq, plan]
  dsimp only
  generalize ((model.estimates programId filters).mergeSort fun a b => decide (a.2 ≤ b.2)) = sorted
    at perm ascending ⊢
  match sorted with
  | [] => exact absurd perm.length_eq (by simp [estimates])
  | first :: rest =>
    obtain ⟨least, _⟩ := List.pairwise_cons.mp ascending
    have lowest : ∀ e ∈ model.estimates programId filters, first.2 ≤ e.2 := by
      intro e member
      rcases List.mem_cons.mp (perm.mem_iff.mpr member) with rfl | later
      · exact UInt64.le_refl _
      · exact least e later
    have minima : runningMinima (model.programCardinality programId) ((first :: rest).map Prod.snd) =
        ((first :: rest).map Prod.snd).map fun _ => first.2 := by
      rw [List.map_cons, runningMinima, min_of_ge (lowest _ List.mem_cons_self),
        runningMinima_least (List.forall_mem_map.mpr least)]
      rfl
    rw [minima]
    refine ⟨first :: rest, perm, ascending, rfl, by simp, fun c among => ?_, fun other reordered fits => ?_⟩
    · obtain ⟨_, _, rfl⟩ := List.mem_map.mp among
      exact ⟨List.mem_map_of_mem (perm.mem_iff.mp List.mem_cons_self), lowest⟩
    · have le := exactCost_le model.costWeights least (reordered.trans perm.symm)
      rw [UInt64.le_iff_toNat_le, calculateCost_exact model fits, calculateCost_exact model (by omega)]
      exact le

end QueryCostModel

end Hyperplane
