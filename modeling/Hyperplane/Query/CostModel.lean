import Mathlib.Data.List.Basic
import Hyperplane.Index.Indexes

/-! The cost model orders the filters of a query by estimated cardinality. -/
namespace Hyperplane

inductive GpaFilter where
  | dataSize (size : Nat)
  | memcmp (offset : Nat) (bytes : List UInt8)
  | discriminator (disc : Discriminator)
  deriving DecidableEq

inductive FilterType where
  | discriminator (disc : Discriminator)
  | memcmp (offset : Nat) (bytes : List UInt8)
  | dataSize (size : Nat)
  | program (programId : Pubkey)
  deriving DecidableEq

def GpaFilter.filterType : GpaFilter → FilterType
  | .dataSize size => .dataSize size
  | .memcmp offset bytes => .memcmp offset bytes
  | .discriminator disc => .discriminator disc

structure IndexStatistics where
  programCardinality : Std.TreeMap Pubkey UInt64 := ∅
  datasizeCardinality : Std.TreeMap Nat UInt64 := ∅
  memcmpCardinality : Std.TreeMap MemcmpFilter UInt64 := ∅
  discriminatorCardinality : Std.TreeMap Discriminator UInt64 := ∅

structure CostWeights where
  bitmapLookupCost : UInt64 := 10
  intersectionCostPerAccount : UInt64 := 1
  memoryAccessCostPerAccount : UInt64 := 2

structure QueryCostModel where
  stats : IndexStatistics := {}
  costWeights : CostWeights := {}

structure OptimizedExecutionPlan where
  executionOrder : List FilterType
  intermediateCardinalities : List UInt64
  estimatedTotalCost : UInt64
  estimatedTimeUs : UInt64

namespace QueryCostModel

def estimateCardinality (model : QueryCostModel) (filter : GpaFilter) : FilterType × UInt64 :=
  (filter.filterType, match filter with
    | .dataSize size => model.stats.datasizeCardinality[size]?.getD 0
    | .memcmp offset bytes => model.stats.memcmpCardinality[(⟨offset, bytes⟩ : MemcmpFilter)]?.getD 0
    | .discriminator disc => model.stats.discriminatorCardinality[disc]?.getD 0)

/-- Arithmetic on costs is modulo 2^64, as in a release build. -/
def calculateCost (model : QueryCostModel) (filters : List (FilterType × UInt64)) : UInt64 :=
  let lookups := UInt64.ofNat filters.length * model.costWeights.bitmapLookupCost
  match filters with
  | first :: second :: rest =>
    let (total, running) := (second :: rest).foldl (fun (total, running) filter =>
      (total + running * model.costWeights.intersectionCostPerAccount, min running filter.2))
      (lookups, first.2)
    total + running * model.costWeights.memoryAccessCostPerAccount
  | _ => lookups

def runningMinima (current : UInt64) : List UInt64 → List UInt64
  | [] => []
  | cardinality :: rest => min current cardinality :: runningMinima (min current cardinality) rest

def createOptimizedPlan (model : QueryCostModel) (programId : Pubkey) (filters : List GpaFilter) :
    OptimizedExecutionPlan :=
  let programCardinality := model.stats.programCardinality[programId]?.getD 1000000
  let estimates := (.program programId, programCardinality) :: filters.map model.estimateCardinality
  let sorted := estimates.mergeSort fun a b => decide (a.2 ≤ b.2)
  let cost := model.calculateCost sorted
  { executionOrder := sorted.map Prod.fst
    intermediateCardinalities := runningMinima programCardinality (sorted.map Prod.snd)
    estimatedTotalCost := cost
    estimatedTimeUs := cost }

/-- Whatever the statistics, the plan runs the program filter and every filter
of the query, each as often as the query has it. -/
theorem executionOrder_perm (model : QueryCostModel) (programId : Pubkey) (filters : List GpaFilter) :
    (model.createOptimizedPlan programId filters).executionOrder.Perm
      (.program programId :: filters.map GpaFilter.filterType) := by
  have names : filters.map (Prod.fst ∘ model.estimateCardinality) = filters.map GpaFilter.filterType :=
    List.map_congr_left fun _ _ => rfl
  have sorted := (List.mergeSort_perm ((FilterType.program programId,
    model.stats.programCardinality[programId]?.getD 1000000) ::
      filters.map model.estimateCardinality) fun a b => decide (a.2 ≤ b.2)).map Prod.fst
  rw [List.map_cons, List.map_map, names] at sorted
  exact sorted

def programCardinality (model : QueryCostModel) (programId : Pubkey) : UInt64 :=
  model.stats.programCardinality[programId]?.getD 1000000

/-- What a plan sorts. -/
def estimates (model : QueryCostModel) (programId : Pubkey) (filters : List GpaFilter) :
    List (FilterType × UInt64) :=
  (.program programId, model.programCardinality programId) :: filters.map model.estimateCardinality

/-- The plan made of the estimates collected. -/
def plan (model : QueryCostModel) (programCardinality : UInt64) (estimates : List (FilterType × UInt64)) :
    OptimizedExecutionPlan :=
  let sorted := estimates.mergeSort fun a b => decide (a.2 ≤ b.2)
  let cost := model.calculateCost sorted
  { executionOrder := sorted.map Prod.fst
    intermediateCardinalities := runningMinima programCardinality (sorted.map Prod.snd)
    estimatedTotalCost := cost
    estimatedTimeUs := cost }

theorem createOptimizedPlan_eq (model : QueryCostModel) (programId : Pubkey) (filters : List GpaFilter) :
    model.createOptimizedPlan programId filters = model.plan (model.programCardinality programId)
      (model.estimates programId filters) := rfl

end QueryCostModel

end Hyperplane
