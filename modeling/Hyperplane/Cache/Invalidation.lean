import Hyperplane.Lib.MultiMap
import Hyperplane.Lib.Transition
import Hyperplane.Types.Account
import Hyperplane.Types.Bitmap
import Hyperplane.Types.HashOrder

/-! Which materialized query results a change of accounts invalidates. -/
namespace Hyperplane
open Transition

abbrev QueryHash := Vector UInt8 32

structure MaterializedQueryResult (S : Type) where
  response : List UInt8
  materializedSlot : UInt64
  affectedBitmap : PubkeyBitmap S

/-- The pubkeys of every query, the queries of every pubkey, and the results. -/
structure InvalidationTracker (S : Type) where
  queryPubkeys : Std.TreeMap QueryHash (Finset Pubkey)
  pubkeyQueries : MultiMap Pubkey QueryHash
  materializedCache : Std.TreeMap QueryHash (MaterializedQueryResult S)

namespace InvalidationTracker

variable {S : Type}

def new : InvalidationTracker S := ⟨∅, ∅, ∅⟩

/-- The pubkeys of an earlier registration keep pointing to the query. -/
def registerQuery (tracker : InvalidationTracker S) (queryHash : QueryHash)
    (affectedPubkeys : List Pubkey) : InvalidationTracker S :=
  { tracker with
    queryPubkeys := tracker.queryPubkeys.insert queryHash affectedPubkeys.toFinset
    pubkeyQueries := affectedPubkeys.foldl (fun map pubkey => map.link pubkey queryHash)
      tracker.pubkeyQueries }

def getAffectedQueriesBatch (tracker : InvalidationTracker S) (pubkeys : List Pubkey) :
    Finset QueryHash :=
  pubkeys.foldl (fun affected pubkey => match tracker.pubkeyQueries[pubkey]? with
    | some queries => affected ∪ queries
    | none => affected) ∅

/-- What an invalidation does for one affected query. -/
def dropQuery (order : QueryHash → HashOrder Pubkey) (tracker : InvalidationTracker S)
    (queryHash : QueryHash) : InvalidationTracker S :=
  let uncached := { tracker with materializedCache := tracker.materializedCache.erase queryHash }
  match tracker.queryPubkeys[queryHash]? with
  | none => uncached
  | some pubkeys => { uncached with
      queryPubkeys := tracker.queryPubkeys.erase queryHash
      pubkeyQueries := ((order queryHash).list pubkeys).foldl
        (fun map pubkey => map.unlink pubkey queryHash) tracker.pubkeyQueries }

def invalidateForPubkeys (queries : HashOrder QueryHash) (order : QueryHash → HashOrder Pubkey)
    (tracker : InvalidationTracker S) (pubkeys : List Pubkey) : Nat × InvalidationTracker S :=
  let affected := tracker.getAffectedQueriesBatch pubkeys
  (affected.card, (queries.list affected).foldl (dropQuery order) tracker)

def cacheMaterializedResult (tracker : InvalidationTracker S) (queryHash : QueryHash)
    (result : MaterializedQueryResult S) : InvalidationTracker S :=
  { tracker with materializedCache := tracker.materializedCache.insert queryHash result }

def getMaterializedResult (tracker : InvalidationTracker S) (queryHash : QueryHash) :
    Option (MaterializedQueryResult S) := tracker.materializedCache[queryHash]?

def clear (_tracker : InvalidationTracker S) : InvalidationTracker S := ⟨∅, ∅, ∅⟩

theorem mem_affected (map : MultiMap Pubkey QueryHash) (pubkeys : List Pubkey)
    (start : Finset QueryHash) (query : QueryHash) :
    query ∈ pubkeys.foldl (fun affected pubkey => match map[pubkey]? with
        | some queries => affected ∪ queries
        | none => affected) start ↔
      query ∈ start ∨ ∃ pubkey ∈ pubkeys, query ∈ map.values pubkey := by
  induction pubkeys generalizing start with
  | nil => simp
  | cons pubkey rest ih =>
    rw [List.foldl_cons, ih, List.exists_mem_cons_iff, ← or_assoc]
    cases found : map[pubkey]? with
    | none => simp [MultiMap.values, found]
    | some queries => simp [MultiMap.values, found]

theorem mem_getAffectedQueriesBatch (tracker : InvalidationTracker S) (pubkeys : List Pubkey)
    (query : QueryHash) : query ∈ tracker.getAffectedQueriesBatch pubkeys ↔
      ∃ pubkey ∈ pubkeys, query ∈ tracker.pubkeyQueries.values pubkey := by
  refine (mem_affected tracker.pubkeyQueries pubkeys ∅ query).trans ?_
  simp

/-- Every pubkey of a registered query points back to the query. -/
def PointsBack (tracker : InvalidationTracker S) : Prop :=
  ∀ query pubkeys, tracker.queryPubkeys[query]? = some pubkeys →
    ∀ pubkey ∈ pubkeys, query ∈ tracker.pubkeyQueries.values pubkey

theorem PointsBack.registerQuery {tracker : InvalidationTracker S} (h : tracker.PointsBack)
    (query : QueryHash) (affected : List Pubkey) : (tracker.registerQuery query affected).PointsBack := by
  intro other pubkeys found pubkey member
  refine (MultiMap.mem_values_linkAll affected tracker.pubkeyQueries pubkey query other).mpr ?_
  by_cases same : other = query
  · subst same
    have registered : affected.toFinset = pubkeys := by
      simpa [InvalidationTracker.registerQuery] using found
    exact .inl ⟨List.mem_toFinset.mp (registered ▸ member), rfl⟩
  · have before : tracker.queryPubkeys[other]? = some pubkeys := by
      simpa [InvalidationTracker.registerQuery, Maps.getElem?_insert_ne _ same] using found
    exact .inr (h other pubkeys before pubkey member)

section drop

variable (order : QueryHash → HashOrder Pubkey) (tracker : InvalidationTracker S)

theorem queryPubkeys_dropQuery (query other : QueryHash) :
    (dropQuery order tracker query).queryPubkeys[other]? =
      if other = query then none else tracker.queryPubkeys[other]? := by
  unfold dropQuery
  cases found : tracker.queryPubkeys[query]? with
  | none =>
    by_cases same : other = query
    · simpa [same] using found
    · simp [same]
  | some pubkeys => exact Maps.getElem?_erase_ite tracker.queryPubkeys query other

theorem getMaterializedResult_dropQuery (query other : QueryHash) :
    (dropQuery order tracker query).getMaterializedResult other =
      if other = query then none else tracker.getMaterializedResult other := by
  have erased := Maps.getElem?_erase_ite tracker.materializedCache query other
  unfold dropQuery
  cases tracker.queryPubkeys[query]? <;> exact erased

/-- The other queries keep all their entries. -/
theorem mem_values_dropQuery (query : QueryHash) {other : QueryHash} (different : other ≠ query)
    (pubkey : Pubkey) : other ∈ (dropQuery order tracker query).pubkeyQueries.values pubkey ↔
      other ∈ tracker.pubkeyQueries.values pubkey := by
  unfold dropQuery
  cases tracker.queryPubkeys[query]? with
  | none => exact Iff.rfl
  | some pubkeys =>
    refine (MultiMap.mem_values_unlinkAll _ tracker.pubkeyQueries pubkey query other).trans ?_
    simp [different]

variable {tracker}

theorem PointsBack.dropQuery (h : tracker.PointsBack) (query : QueryHash) :
    (tracker.dropQuery order query).PointsBack := by
  intro other pubkeys found pubkey member
  rw [queryPubkeys_dropQuery] at found
  split at found
  · cases found
  · rename_i different
    exact (mem_values_dropQuery order tracker query different pubkey).mpr
      (h other pubkeys found pubkey member)

theorem PointsBack.dropAll (h : tracker.PointsBack) (queries : List QueryHash) :
    (queries.foldl (InvalidationTracker.dropQuery order) tracker).PointsBack :=
  foldl_invariant PointsBack (fun _ query kept => kept.dropQuery order query) h queries

variable (tracker)

theorem queryPubkeys_dropAll (queries : List QueryHash) (other : QueryHash) :
    (queries.foldl (InvalidationTracker.dropQuery order) tracker).queryPubkeys[other]? =
      if other ∈ queries then none else tracker.queryPubkeys[other]? := by
  induction queries generalizing tracker with
  | nil => simp
  | cons query rest ih =>
    rw [List.foldl_cons, ih, queryPubkeys_dropQuery]
    by_cases later : other ∈ rest
    · simp [later]
    · simp [later]

theorem getMaterializedResult_dropAll (queries : List QueryHash) (other : QueryHash) :
    (queries.foldl (InvalidationTracker.dropQuery order) tracker).getMaterializedResult other =
      if other ∈ queries then none else tracker.getMaterializedResult other := by
  induction queries generalizing tracker with
  | nil => simp
  | cons query rest ih =>
    rw [List.foldl_cons, ih, getMaterializedResult_dropQuery]
    by_cases later : other ∈ rest
    · simp [later]
    · simp [later]

end drop

section invalidate

variable (queries : HashOrder QueryHash) (order : QueryHash → HashOrder Pubkey)
  (tracker : InvalidationTracker S) (pubkeys : List Pubkey) (query : QueryHash)

/-- Exactly the results of the affected queries go, in whatever order. -/
theorem getMaterializedResult_invalidate :
    (tracker.invalidateForPubkeys queries order pubkeys).2.getMaterializedResult query =
      if query ∈ tracker.getAffectedQueriesBatch pubkeys then none
      else tracker.getMaterializedResult query := by
  refine (getMaterializedResult_dropAll order tracker _ query).trans ?_
  simp only [queries.mem_list]

theorem queryPubkeys_invalidate :
    (tracker.invalidateForPubkeys queries order pubkeys).2.queryPubkeys[query]? =
      if query ∈ tracker.getAffectedQueriesBatch pubkeys then none
      else tracker.queryPubkeys[query]? := by
  refine (queryPubkeys_dropAll order tracker _ query).trans ?_
  simp only [queries.mem_list]

end invalidate

end InvalidationTracker

inductive InvalidationCall (S : Type) where
  | registerQuery (queryHash : QueryHash) (affectedPubkeys : List Pubkey)
  | cacheMaterializedResult (queryHash : QueryHash) (result : MaterializedQueryResult S)
  | invalidateForPubkeys (queries : HashOrder QueryHash) (order : QueryHash → HashOrder Pubkey)
      (pubkeys : List Pubkey)
  | clear

/-- The tracker, and the pubkeys that the latest registration of each query named
since the query was last invalidated or everything cleared. -/
structure InvalidationRun (S : Type) where
  tracker : InvalidationTracker S
  latest : QueryHash → Option (List Pubkey)

namespace InvalidationRun

variable {S : Type}

def start : InvalidationRun S := ⟨.new, fun _ => none⟩

def step (s : InvalidationRun S) : InvalidationCall S → InvalidationRun S
  | .registerQuery queryHash affectedPubkeys => {
      tracker := s.tracker.registerQuery queryHash affectedPubkeys
      latest := fun query => if query = queryHash then some affectedPubkeys else s.latest query }
  | .cacheMaterializedResult queryHash result =>
    { s with tracker := s.tracker.cacheMaterializedResult queryHash result }
  | .invalidateForPubkeys queries order pubkeys => {
      tracker := (s.tracker.invalidateForPubkeys queries order pubkeys).2
      latest := fun query =>
        if query ∈ s.tracker.getAffectedQueriesBatch pubkeys then none else s.latest query }
  | .clear => ⟨s.tracker.clear, fun _ => none⟩

/-- Right after an invalidation no query has a result whose latest registration
named one of the pubkeys. -/
def NoneStale (s : InvalidationRun S) (call : InvalidationCall S) (t : InvalidationRun S) : Prop :=
  match call with
  | .invalidateForPubkeys _ _ pubkeys => ∀ query named, s.latest query = some named →
      (∃ pubkey ∈ named, pubkey ∈ pubkeys) → t.tracker.getMaterializedResult query = none
  | _ => True

/-- The tracker knows the latest registrations, in both directions. -/
structure Tracked (s : InvalidationRun S) : Prop where
  registered : ∀ query, s.tracker.queryPubkeys[query]? = (s.latest query).map List.toFinset
  pointsBack : s.tracker.PointsBack

theorem start_tracked : (start : InvalidationRun S).Tracked := by
  refine ⟨fun query => ?_, fun query pubkeys found => ?_⟩
  · simp [start, InvalidationTracker.new]
  · simp [start, InvalidationTracker.new] at found

theorem Tracked.step {s : InvalidationRun S} (h : s.Tracked) (call : InvalidationCall S) :
    (s.step call).Tracked := by
  cases call with
  | registerQuery queryHash affectedPubkeys =>
    refine ⟨fun query => ?_, h.pointsBack.registerQuery queryHash affectedPubkeys⟩
    by_cases same : query = queryHash
    · simp [InvalidationRun.step, InvalidationTracker.registerQuery, same]
    · simp [InvalidationRun.step, InvalidationTracker.registerQuery, Maps.getElem?_insert_ne _ same,
        same, h.registered]
  | cacheMaterializedResult queryHash result => exact ⟨h.registered, h.pointsBack⟩
  | invalidateForPubkeys queries order pubkeys =>
    refine ⟨fun query => ?_, h.pointsBack.dropAll order _⟩
    refine (InvalidationTracker.queryPubkeys_invalidate queries order s.tracker pubkeys query).trans ?_
    rw [h.registered]
    simp only [InvalidationRun.step]
    split <;> rfl
  | clear => exact start_tracked

theorem Tracked.noneStale {s : InvalidationRun S} (h : s.Tracked) (call : InvalidationCall S) :
    s.NoneStale call (s.step call) := by
  cases call with
  | invalidateForPubkeys queries order pubkeys =>
    rintro query named latest ⟨pubkey, isNamed, changed⟩
    have registered : s.tracker.queryPubkeys[query]? = some named.toFinset := by
      rw [h.registered, latest, Option.map_some]
    have pointsBack := h.pointsBack query _ registered pubkey (List.mem_toFinset.mpr isNamed)
    have affected := (s.tracker.mem_getAffectedQueriesBatch pubkeys query).mpr ⟨pubkey, changed, pointsBack⟩
    exact (InvalidationTracker.getMaterializedResult_invalidate queries order s.tracker pubkeys query).trans
      (if_pos affected)
  | _ => trivial

/-- In every run, with any registrations, no stale result survives an invalidation. -/
theorem none_stale (calls : List (InvalidationCall S)) :
    Along (ofFun step) NoneStale start calls := by
  refine (along_ofFun step _ _ calls).mpr fun earlier call _ _ => ?_
  have tracked := foldl_invariant Tracked (fun _ call h => h.step call) start_tracked earlier
  exact tracked.noneStale call

end InvalidationRun

end Hyperplane
