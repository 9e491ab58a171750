import Hyperplane.Query.Planner

/-! What the two execution paths answer, against the conjunction of the
filters and against each other. A lookup without a bitmap is skipped. -/
namespace Hyperplane

namespace QueryPlanner

variable {S : Type} [IdSet S]

/-- In the answer of every filter, where a key without a bitmap matches nothing. -/
def Matches (planner : QueryPlanner S) (plan : QueryPlan) (pubkey : Pubkey) : Prop :=
  (∃ accounts, planner.lookup (.program plan.programId) = some accounts ∧ pubkey ∈ accounts) ∧
    ∀ f ∈ plan.filters, ∃ accounts, planner.lookup f.filterType = some accounts ∧ pubkey ∈ accounts

def ExactAnswer (order : HashOrder Pubkey) (planner : QueryPlanner S) (plan : QueryPlan) : Prop :=
  ∀ pubkey, pubkey ∈ (executeQuery order planner plan).1 ↔ planner.Matches plan pubkey

def SameAnswer (order : HashOrder Pubkey) (planner : QueryPlanner S) (plan : QueryPlan) : Prop :=
  ∀ pubkey, pubkey ∈ (executeQueryOptimized order planner plan).1 ↔
    pubkey ∈ (executeQuery order planner plan).1

theorem Matches.inPresent {planner : QueryPlanner S} {plan : QueryPlan} {pubkey : Pubkey}
    (h : planner.Matches plan pubkey) : planner.InPresent plan.filters pubkey := by
  intro f member accounts found
  obtain ⟨others, again, inside⟩ := h.2 f member
  rw [found] at again
  cases again
  exact inside

theorem matches_of_present {planner : QueryPlanner S} {plan : QueryPlan} {pubkey : Pubkey}
    (tracked : ∀ f ∈ plan.filters, (planner.lookup f.filterType).isSome)
    (program : ∃ accounts, planner.lookup (.program plan.programId) = some accounts ∧ pubkey ∈ accounts)
    (present : planner.InPresent plan.filters pubkey) : planner.Matches plan pubkey := by
  refine ⟨program, ?_⟩
  intro f member
  obtain ⟨accounts, found⟩ := Option.isSome_iff_exists.mp (tracked f member)
  exact ⟨accounts, found, present f member accounts found⟩

theorem exact_answer_iff (order : HashOrder Pubkey) (planner : QueryPlanner S) (plan : QueryPlan) :
    ExactAnswer order planner plan ↔
      (∀ f ∈ plan.filters, (planner.lookup f.filterType).isSome) ∨
        ¬ ∃ pubkey accounts, planner.lookup (.program plan.programId) = some accounts ∧
          pubkey ∈ accounts ∧ planner.InPresent plan.filters pubkey := by
  unfold ExactAnswer
  simp only [mem_executeQuery]
  constructor
  · intro exact
    by_cases some : ∃ pubkey accounts, planner.lookup (.program plan.programId) = some accounts ∧
        pubkey ∈ accounts ∧ planner.InPresent plan.filters pubkey
    · left
      obtain ⟨pubkey, accounts, found, inside, present⟩ := some
      have all := ((exact pubkey).mp ⟨⟨accounts, found, inside⟩, present⟩).2
      intro f member
      obtain ⟨others, again, _⟩ := all f member
      rw [again]
      rfl
    · exact .inr some
  · intro condition pubkey
    constructor
    · rintro ⟨program, present⟩
      rcases condition with tracked | none
      · exact matches_of_present tracked program present
      · obtain ⟨accounts, found, inside⟩ := program
        exact absurd ⟨pubkey, accounts, found, inside, present⟩ none
    · intro h
      exact ⟨h.1, h.inPresent⟩

theorem missing_size_is_ignored :
    let program : Pubkey := Vector.replicate 32 1
    let account : Pubkey := Vector.replicate 32 2
    let planner : QueryPlanner SortedIds :=
      { programIndex := ProgramIndex.addAccount {} account program 0, dataSizeIndex := {},
        memcmpIndex := {}, discriminatorIndex := {} }
    ¬ ExactAnswer (.some Pubkey) planner ⟨program, [.dataSize 5]⟩ := by
  intro program account planner exact
  have found : planner.lookup (.program program) = some [account] := by decide +kernel
  have skipped : planner.lookup (.dataSize 5) = none := by decide +kernel
  have present : planner.InPresent [.dataSize 5] account := by
    simp [InPresent, GpaFilter.filterType, skipped]
  have returned := (mem_executeQuery (.some Pubkey) planner ⟨program, [.dataSize 5]⟩ account).mpr
    ⟨⟨[account], found, by simp⟩, present⟩
  obtain ⟨accounts, again, _⟩ := ((exact account).mp returned).2 (.dataSize 5) (by simp)
  simp [GpaFilter.filterType, skipped] at again

/-- The paths differ only when the program has no bitmap: the plain one then
returns nothing, the optimized one what the other filters agree on. -/
theorem same_answer_iff (order : HashOrder Pubkey) (planner : QueryPlanner S) (plan : QueryPlan) :
    SameAnswer order planner plan ↔ (planner.lookup (.program plan.programId)).isSome ∨
      ¬ ∃ pubkey, planner.InPresent plan.filters pubkey ∧
        ∃ f ∈ plan.filters, (planner.lookup f.filterType).isSome := by
  unfold SameAnswer
  simp only [mem_executeQuery, mem_executeQueryOptimized]
  cases program : planner.lookup (.program plan.programId) with
  | some accounts => simp
  | none =>
    constructor
    · intro same
      right
      rintro ⟨pubkey, present, tracked⟩
      obtain ⟨⟨accounts, impossible, _⟩, _⟩ := (same pubkey).mp ⟨by simp, present, .inr tracked⟩
      cases impossible
    · intro condition pubkey
      rcases condition with impossible | none
      · cases impossible
      · constructor
        · rintro ⟨_, present, impossible | tracked⟩
          · cases impossible
          · exact absurd ⟨pubkey, present, tracked⟩ none
        · rintro ⟨⟨accounts, impossible, _⟩, _⟩
          cases impossible

theorem missing_program_is_ignored :
    let program : Pubkey := Vector.replicate 32 1
    let account : Pubkey := Vector.replicate 32 2
    let planner : QueryPlanner SortedIds :=
      { programIndex := {}, dataSizeIndex := DataSizeIndex.addAccount {} account 5 0,
        memcmpIndex := {}, discriminatorIndex := {} }
    ¬ SameAnswer (.some Pubkey) planner ⟨program, [.dataSize 5]⟩ := by
  intro program account planner same
  have missing : planner.lookup (.program program) = none := by decide +kernel
  have found : planner.lookup (.dataSize 5) = some [account] := by decide +kernel
  have present : planner.InPresent [.dataSize 5] account := by
    simp [InPresent, GpaFilter.filterType, found]
  have returned := (mem_executeQueryOptimized (.some Pubkey) planner ⟨program, [.dataSize 5]⟩ account).mpr
    ⟨by simp [missing], present, .inr ⟨.dataSize 5, by simp, by simp [GpaFilter.filterType, found]⟩⟩
  obtain ⟨⟨accounts, impossible, _⟩, _⟩ :=
    (mem_executeQuery (.some Pubkey) planner ⟨program, [.dataSize 5]⟩ account).mp
      ((same account).mp returned)
  rw [missing] at impossible
  cases impossible

theorem lookup_withModel (planner : QueryPlanner S) (costModel : QueryCostModel) (state : QueryPlannerState)
    (filter : FilterType) : lookup { planner with costModel, state } filter = planner.lookup filter := by
  cases filter <;> rfl

/-- Statistics, weights and counters of the planner, the order of the filters and
their repetitions, and the hash order change at most the order of the answer. -/
theorem answer_perm (order other : HashOrder Pubkey) (planner : QueryPlanner S)
    (model model' : QueryCostModel) (state state' : QueryPlannerState) {plan plan' : QueryPlan}
    (program : plan.programId = plan'.programId) (filters : ∀ f, f ∈ plan.filters ↔ f ∈ plan'.filters) :
    (executeQueryOptimized order { planner with costModel := model, state } plan).1.Perm
      (executeQueryOptimized other { planner with costModel := model', state := state' } plan').1 := by
  refine (List.perm_ext_iff_of_nodup (order.nodup_list _) (other.nodup_list _)).mpr fun pubkey => ?_
  have left := mem_executeQueryOptimized order { planner with costModel := model, state } plan pubkey
  have right := mem_executeQueryOptimized other
    { planner with costModel := model', state := state' } plan' pubkey
  simp only [InPresent, lookup_withModel, program, filters] at left
  simp only [InPresent, lookup_withModel] at right
  exact left.trans right.symm

theorem answer_perm_repeated :
    let planner : QueryPlanner SortedIds :=
      { programIndex := ProgramIndex.addAccount {} (Vector.replicate 32 2) (Vector.replicate 32 1) 0
        dataSizeIndex := DataSizeIndex.addAccount {} (Vector.replicate 32 2) 5 0
        memcmpIndex := {}
        discriminatorIndex := {} }
    let updated : QueryCostModel := { stats := { datasizeCardinality := (∅ : Std.TreeMap Nat UInt64).insert 5 9 } }
    (executeQueryOptimized (.some Pubkey) planner ⟨Vector.replicate 32 1, [.dataSize 5, .dataSize 6]⟩).1.Perm
      (executeQueryOptimized (.some Pubkey) { planner with costModel := updated }
        ⟨Vector.replicate 32 1, [.dataSize 6, .dataSize 5, .dataSize 5]⟩).1 := by
  intro planner updated
  exact answer_perm (.some Pubkey) (.some Pubkey) planner {} updated {} {} rfl (by simp [or_comm])

end QueryPlanner

end Hyperplane
