import Mathlib.Data.Finset.Card
import Hyperplane.Query.CostModel
import Hyperplane.Types.HashOrder

/-! The planner runs a getProgramAccounts query over the four indexes, in the
order of the plan or in an optimized order. -/
namespace Hyperplane

structure QueryPlan where
  programId : Pubkey
  filters : List GpaFilter

structure QueryPlannerState where
  queriesPlanned : UInt64 := 0
  totalExecutionTimeUs : UInt64 := 0

structure QueryPlanner (S : Type) where
  programIndex : ProgramIndex S
  dataSizeIndex : DataSizeIndex S
  memcmpIndex : MemcmpIndex S
  discriminatorIndex : DiscriminatorIndex S
  costModel : QueryCostModel := {}
  state : QueryPlannerState := {}

namespace QueryPlanner

variable {S : Type} [IdSet S]

def lookup (planner : QueryPlanner S) : FilterType → Option (List Pubkey)
  | .program programId => ProgramIndex.getProgramAccounts planner.programIndex programId
  | .dataSize size => DataSizeIndex.getAccountsBySize planner.dataSizeIndex size
  | .memcmp offset bytes => planner.memcmpIndex.getAccountsByMemcmp offset bytes
  | .discriminator disc =>
    DiscriminatorIndex.getAccountsByDiscriminator planner.discriminatorIndex disc

def record (planner : QueryPlanner S) (timeUs : UInt64) : QueryPlanner S :=
  { planner with state := {
      queriesPlanned := planner.state.queriesPlanned + 1
      totalExecutionTimeUs := planner.state.totalExecutionTimeUs + timeUs } }

/-- A lookup without an answer leaves the result of the earlier ones. -/
def intersectNext (planner : QueryPlanner S) (result : Option (Finset Pubkey)) (filter : FilterType) :
    Option (Finset Pubkey) :=
  match planner.lookup filter with
  | none => result
  | some accounts => match result with
    | some current => some (current ∩ accounts.toFinset)
    | none => some accounts.toFinset

def executeQueryOptimized (order : HashOrder Pubkey) (planner : QueryPlanner S) (plan : QueryPlan) :
    List Pubkey × QueryPlanner S :=
  let optimized := planner.costModel.createOptimizedPlan plan.programId plan.filters
  let result := optimized.executionOrder.foldl planner.intersectNext none
  (order.list (result.getD ∅), planner.record optimized.estimatedTimeUs)

/-- The account sets of the filters of one kind, in the plan's order; a filter
without an answer gives none. -/
def dataSizeSets (planner : QueryPlanner S) (filters : List GpaFilter) : List (List Pubkey) :=
  filters.filterMap fun
    | .dataSize size => DataSizeIndex.getAccountsBySize planner.dataSizeIndex size
    | _ => none

def memcmpSets (planner : QueryPlanner S) (filters : List GpaFilter) : List (List Pubkey) :=
  filters.filterMap fun
    | .memcmp offset bytes => planner.memcmpIndex.getAccountsByMemcmp offset bytes
    | _ => none

def discriminatorSets (planner : QueryPlanner S) (filters : List GpaFilter) : List (List Pubkey) :=
  filters.filterMap fun
    | .discriminator disc =>
      DiscriminatorIndex.getAccountsByDiscriminator planner.discriminatorIndex disc
    | _ => none

def executeQuery (order : HashOrder Pubkey) (planner : QueryPlanner S) (plan : QueryPlan) :
    List Pubkey × QueryPlanner S :=
  match ProgramIndex.getProgramAccounts planner.programIndex plan.programId with
  | none => ([], planner)
  | some programAccounts =>
    let others := planner.dataSizeSets plan.filters ++
      (planner.memcmpSets plan.filters ++ planner.discriminatorSets plan.filters)
    -- Taken too when every filter was skipped; the statistics stay as they are.
    if others = [] then (programAccounts, planner)
    else
      let result := others.foldl (fun current accounts => current ∩ accounts.toFinset)
        programAccounts.toFinset
      (order.list result, planner.record (UInt64.ofNat result.card * 10))

/-- Every filter of the list that has an answer has the account in it. -/
def InPresent (planner : QueryPlanner S) (filters : List GpaFilter) (pubkey : Pubkey) : Prop :=
  ∀ f ∈ filters, ∀ accounts, planner.lookup f.filterType = some accounts → pubkey ∈ accounts

theorem mem_foldl_inter (sets : List (List Pubkey)) (start : Finset Pubkey) (pubkey : Pubkey) :
    pubkey ∈ sets.foldl (fun current accounts => current ∩ accounts.toFinset) start ↔
      pubkey ∈ start ∧ ∀ accounts ∈ sets, pubkey ∈ accounts := by
  induction sets generalizing start with
  | nil => simp
  | cons accounts rest ih =>
    rw [List.foldl_cons, ih]
    simp [and_assoc]

theorem mem_filterSets (planner : QueryPlanner S) (filters : List GpaFilter) (accounts : List Pubkey) :
    accounts ∈ planner.dataSizeSets filters ++
        (planner.memcmpSets filters ++ planner.discriminatorSets filters) ↔
      ∃ f ∈ filters, planner.lookup f.filterType = some accounts := by
  simp only [List.mem_append, dataSizeSets, memcmpSets, discriminatorSets, List.mem_filterMap]
  constructor
  · rintro (⟨f, member, found⟩ | ⟨f, member, found⟩ | ⟨f, member, found⟩)
    all_goals
      cases f with
      | dataSize size => first | exact ⟨_, member, found⟩ | cases found
      | memcmp offset bytes => first | exact ⟨_, member, found⟩ | cases found
      | discriminator disc => first | exact ⟨_, member, found⟩ | cases found
  · rintro ⟨f, member, found⟩
    cases f with
    | dataSize size => exact .inl ⟨_, member, found⟩
    | memcmp offset bytes => exact .inr (.inl ⟨_, member, found⟩)
    | discriminator disc => exact .inr (.inr ⟨_, member, found⟩)

/-- The plain path: in the program's answer and in every answer there is. -/
theorem mem_executeQuery (order : HashOrder Pubkey) (planner : QueryPlanner S) (plan : QueryPlan)
    (pubkey : Pubkey) : pubkey ∈ (executeQuery order planner plan).1 ↔
      (∃ accounts, planner.lookup (.program plan.programId) = some accounts ∧ pubkey ∈ accounts) ∧
        planner.InPresent plan.filters pubkey := by
  have present : planner.InPresent plan.filters pubkey ↔
      ∀ accounts ∈ planner.dataSizeSets plan.filters ++
        (planner.memcmpSets plan.filters ++ planner.discriminatorSets plan.filters), pubkey ∈ accounts := by
    simp only [mem_filterSets]
    constructor
    · rintro all accounts ⟨f, member, found⟩
      exact all f member accounts found
    · intro all f member accounts found
      exact all accounts ⟨f, member, found⟩
  rw [present]
  cases program : ProgramIndex.getProgramAccounts planner.programIndex plan.programId with
  | none => simp [executeQuery, lookup, program]
  | some programAccounts =>
    simp only [executeQuery, lookup, program, Option.some.injEq, exists_eq_left']
    split
    · rename_i none
      simp [none]
    · simp only [order.mem_list, mem_foldl_inter, List.mem_toFinset]

theorem mem_foldl_intersectNext (planner : QueryPlanner S) (filters : List FilterType)
    (start : Option (Finset Pubkey)) (pubkey : Pubkey) :
    pubkey ∈ (filters.foldl planner.intersectNext start).getD ∅ ↔
      (∀ current, start = some current → pubkey ∈ current) ∧
      (∀ f ∈ filters, ∀ accounts, planner.lookup f = some accounts → pubkey ∈ accounts) ∧
      (start.isSome ∨ ∃ f ∈ filters, (planner.lookup f).isSome) := by
  induction filters generalizing start with
  | nil => cases start <;> simp
  | cons f rest ih =>
    rw [List.foldl_cons, ih]
    cases found : planner.lookup f with
    | none => simp [intersectNext, found]
    | some accounts =>
      cases start with
      | none => simp [intersectNext, found]
      | some current => simp [intersectNext, found, and_assoc]

/-- The optimized path: in every answer there is, and there is one. The order
does not matter. -/
theorem mem_executeQueryOptimized (order : HashOrder Pubkey) (planner : QueryPlanner S)
    (plan : QueryPlan) (pubkey : Pubkey) : pubkey ∈ (executeQueryOptimized order planner plan).1 ↔
      (∀ accounts, planner.lookup (.program plan.programId) = some accounts → pubkey ∈ accounts) ∧
      planner.InPresent plan.filters pubkey ∧
      ((planner.lookup (.program plan.programId)).isSome ∨
        ∃ f ∈ plan.filters, (planner.lookup f.filterType).isSome) := by
  have perm := planner.costModel.executionOrder_perm plan.programId plan.filters
  simp only [executeQueryOptimized, order.mem_list, mem_foldl_intersectNext, perm.mem_iff]
  simp [InPresent, and_assoc]

end QueryPlanner

end Hyperplane
