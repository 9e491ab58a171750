import Hyperplane.Lib.Transition

/-! Systems in shards. A step concerns at most one shard, does there what the shard
alone would do, and leaves the others as they are. Seen at one shard, a run of the
system is a run of that shard over its own labels, whatever happens at the others. -/
namespace Transition

variable {S A K V : Type}

/-- The parts of a system that a key tells apart, and the steps of one part. -/
structure Shards (step : S → A → S → Prop) (key : A → Option K) (view : S → K → V)
    (shard : V → A → V → Prop) : Prop where
  own : ∀ s a t k, step s a t → key a = some k → shard (view s k) a (view t k)
  other : ∀ s a t k, step s a t → key a ≠ some k → view t k = view s k

/-- When a step of a shard is always a step of the system, so is a run. -/
theorem run_of_shard {step : S → A → S → Prop} {key : A → Option K} {view : S → K → V}
    {shard : V → A → V → Prop}
    (lift : ∀ s a k w, key a = some k → shard (view s k) a w → ∃ t, step s a t ∧ view t k = w)
    {s : S} {k : K} {as : List A} (own : ∀ a ∈ as, key a = some k) {w : V}
    (ran : Run shard (view s k) as w) : ∃ t, Run step s as t ∧ view t k = w := by
  induction as generalizing s with
  | nil => exact ⟨s, rfl, ran⟩
  | cons a rest ih =>
    obtain ⟨m, first, tail⟩ := ran
    obtain ⟨u, taken, rfl⟩ := lift s a k m (own a List.mem_cons_self) first
    obtain ⟨t, later, same⟩ := ih (fun b member => own b (List.mem_cons_of_mem a member)) tail
    exact ⟨t, ⟨u, taken, later⟩, same⟩

variable [DecidableEq K]

/-- The labels that concern a shard. -/
def labelsAt (key : A → Option K) (k : K) (as : List A) : List A := as.filter fun a => key a = some k

theorem labelsAt_cons_own {key : A → Option K} {k : K} {a : A} (own : key a = some k) (as : List A) :
    labelsAt key k (a :: as) = a :: labelsAt key k as :=
  List.filter_cons_of_pos (decide_eq_true own)

theorem labelsAt_cons_other {key : A → Option K} {k : K} {a : A} (other : key a ≠ some k) (as : List A) :
    labelsAt key k (a :: as) = labelsAt key k as :=
  List.filter_cons_of_neg (by simpa using other)

theorem mem_labelsAt {key : A → Option K} {k : K} {a : A} {as : List A} :
    a ∈ labelsAt key k as ↔ a ∈ as ∧ key a = some k := by
  rw [labelsAt, List.mem_filter, decide_eq_true_eq]

/-- Seen at one shard, a run is a run of the shard. -/
theorem Shards.run {step : S → A → S → Prop} {key : A → Option K} {view : S → K → V}
    {shard : V → A → V → Prop} (shards : Shards step key view shard) {s t : S} {as : List A}
    (ran : Run step s as t) (k : K) : Run shard (view s k) (labelsAt key k as) (view t k) := by
  induction as generalizing s with
  | nil => exact congrArg (view · k) ran
  | cons a rest ih =>
    obtain ⟨m, first, tail⟩ := ran
    by_cases own : key a = some k
    · rw [labelsAt_cons_own own]
      exact ⟨_, shards.own s a m k first own, ih tail⟩
    · rw [labelsAt_cons_other own, ← shards.other s a m k first own]
      exact ih tail

/-- What happens at a shard happens as well without the labels of the others. -/
theorem Shards.alone {step : S → A → S → Prop} {key : A → Option K} {view : S → K → V}
    {shard : V → A → V → Prop} (shards : Shards step key view shard)
    (lift : ∀ s a k w, key a = some k → shard (view s k) a w → ∃ t, step s a t ∧ view t k = w)
    {s t : S} {as : List A} (ran : Run step s as t) (k : K) :
    ∃ u, Run step s (labelsAt key k as) u ∧ view u k = view t k :=
  run_of_shard lift (fun _ member => (mem_labelsAt.mp member).2) (shards.run ran k)

end Transition
