import Hyperplane.Cache.Invalidation

/-! How many queries an invalidation reaches that no longer depend on the pubkeys
it names. -/
namespace Hyperplane
open Transition

namespace InvalidationTracker

variable {S : Type}

/-- Where a query is registered: its pubkeys, and the pubkeys that list it. -/
structure SameRegistration (before after : InvalidationTracker S) (query : QueryHash) : Prop where
  pubkeys : after.queryPubkeys[query]? = before.queryPubkeys[query]?
  listed : ∀ pubkey, query ∈ after.pubkeyQueries.values pubkey ↔ query ∈ before.pubkeyQueries.values pubkey

theorem mem_values_dropAll (order : QueryHash → HashOrder Pubkey) (tracker : InvalidationTracker S)
    {queries : List QueryHash} {other : QueryHash} (spared : other ∉ queries) (pubkey : Pubkey) :
    other ∈ (queries.foldl (dropQuery order) tracker).pubkeyQueries.values pubkey ↔
      other ∈ tracker.pubkeyQueries.values pubkey := by
  induction queries generalizing tracker with
  | nil => exact Iff.rfl
  | cons query rest ih =>
    obtain ⟨different, later⟩ := not_or.mp (List.mem_cons.not.mp spared)
    rw [List.foldl_cons, ih _ later]
    exact mem_values_dropQuery order tracker query different pubkey

section invalidate

variable (queries : HashOrder QueryHash) (order : QueryHash → HashOrder Pubkey)
  (tracker : InvalidationTracker S) (pubkeys : List Pubkey)

/-- A query that no pubkey lists stays as it is. -/
theorem invalidate_spares {query : QueryHash}
    (spared : query ∉ tracker.getAffectedQueriesBatch pubkeys) :
    let after := (tracker.invalidateForPubkeys queries order pubkeys).2
    after.getMaterializedResult query = tracker.getMaterializedResult query ∧
      SameRegistration tracker after query := by
  refine ⟨?_, ⟨?_, fun pubkey => ?_⟩⟩
  · rw [getMaterializedResult_invalidate, if_neg spared]
  · rw [queryPubkeys_invalidate, if_neg spared]
  · refine mem_values_dropAll order tracker (fun member => spared ?_) pubkey
    exact (queries.mem_list _ query).mp member

end invalidate

/-- A query is listed only by the pubkeys it is registered with. -/
def ListsRegistered (tracker : InvalidationTracker S) : Prop :=
  ∀ pubkey, ∀ query ∈ tracker.pubkeyQueries.values pubkey,
    ∃ pubkeys, tracker.queryPubkeys[query]? = some pubkeys ∧ pubkey ∈ pubkeys

variable {tracker : InvalidationTracker S}

theorem listsRegistered_new : (new : InvalidationTracker S).ListsRegistered := by
  intro pubkey query listed
  simp [new, MultiMap.values] at listed

/-- A registration lists no more than it names if it names what the one before did. -/
theorem ListsRegistered.registerQuery (h : tracker.ListsRegistered) {query : QueryHash}
    {affected : List Pubkey} (extending : ∀ pubkeys, tracker.queryPubkeys[query]? = some pubkeys →
      ∀ pubkey ∈ pubkeys, pubkey ∈ affected) : (tracker.registerQuery query affected).ListsRegistered := by
  intro pubkey other listed
  have lookup := Maps.getElem?_insert_ite tracker.queryPubkeys query other affected.toFinset
  simp only [InvalidationTracker.registerQuery, lookup]
  rcases (MultiMap.mem_values_linkAll affected tracker.pubkeyQueries pubkey query other).mp listed with
    ⟨named, rfl⟩ | before
  · exact ⟨_, if_pos rfl, List.mem_toFinset.mpr named⟩
  · obtain ⟨pubkeys, registered, member⟩ := h pubkey other before
    by_cases same : other = query
    · subst same
      exact ⟨_, if_pos rfl, List.mem_toFinset.mpr (extending pubkeys registered pubkey member)⟩
    · exact ⟨pubkeys, (if_neg same).trans registered, member⟩

/-- Dropping a query takes it from all its pubkeys. -/
theorem ListsRegistered.dropQuery (h : tracker.ListsRegistered) (order : QueryHash → HashOrder Pubkey)
    (query : QueryHash) : (tracker.dropQuery order query).ListsRegistered := by
  intro pubkey other listed
  rw [queryPubkeys_dropQuery]
  by_cases same : other = query
  · subst same
    exfalso
    unfold InvalidationTracker.dropQuery at listed
    cases found : tracker.queryPubkeys[other]? with
    | none =>
      simp only [found] at listed
      obtain ⟨pubkeys, registered, _⟩ := h pubkey other listed
      rw [found] at registered
      cases registered
    | some pubkeys =>
      simp only [found] at listed
      obtain ⟨before, kept⟩ := (MultiMap.mem_values_unlinkAll _ tracker.pubkeyQueries pubkey other other).mp listed
      obtain ⟨registered, known, member⟩ := h pubkey other before
      cases found.symm.trans known
      exact kept ⟨((order other).mem_list _ pubkey).mpr member, rfl⟩
  · rw [if_neg same]
    exact h pubkey other ((mem_values_dropQuery order tracker query same pubkey).mp listed)

end InvalidationTracker

namespace InvalidationRun

variable {S : Type}

/-- The latest registration of the query contains one of the pubkeys. -/
def Names (s : InvalidationRun S) (pubkeys : List Pubkey) (query : QueryHash) : Prop :=
  ∃ named, s.latest query = some named ∧ ∃ pubkey ∈ named, pubkey ∈ pubkeys

/-- An invalidation touches and counts the queries that name one of its pubkeys, and
no others. -/
def Precise (s : InvalidationRun S) (call : InvalidationCall S) (t : InvalidationRun S) : Prop :=
  match call with
  | .invalidateForPubkeys queries order pubkeys =>
    (∀ query, ¬ s.Names pubkeys query →
      t.tracker.getMaterializedResult query = s.tracker.getMaterializedResult query ∧
        InvalidationTracker.SameRegistration s.tracker t.tracker query) ∧
    ∃ naming : Finset QueryHash, (∀ query, query ∈ naming ↔ s.Names pubkeys query) ∧
      (s.tracker.invalidateForPubkeys queries order pubkeys).1 = naming.card
  | _ => True

/-- A pubkey of the invalidation lists only queries that name one of them: no earlier
registration of another query is left in the lists. -/
def ListsCurrent (s : InvalidationRun S) (call : InvalidationCall S) (_ : InvalidationRun S) : Prop :=
  match call with
  | .invalidateForPubkeys _ _ pubkeys => ∀ pubkey ∈ pubkeys,
    ∀ query ∈ s.tracker.pubkeyQueries.values pubkey, s.Names pubkeys query
  | _ => True

/-- Every query that names one of the pubkeys is affected. -/
theorem Tracked.affected {s : InvalidationRun S} (h : s.Tracked) {pubkeys : List Pubkey}
    {query : QueryHash} (names : s.Names pubkeys query) :
    query ∈ s.tracker.getAffectedQueriesBatch pubkeys := by
  obtain ⟨named, latest, pubkey, member, changed⟩ := names
  have registered : s.tracker.queryPubkeys[query]? = some named.toFinset := by
    rw [h.registered, latest, Option.map_some]
  have listed := h.pointsBack query _ registered pubkey (List.mem_toFinset.mpr member)
  exact (s.tracker.mem_getAffectedQueriesBatch pubkeys query).mpr ⟨pubkey, changed, listed⟩

theorem Tracked.precise_iff {s : InvalidationRun S} (h : s.Tracked) (call : InvalidationCall S) :
    s.Precise call (s.step call) ↔ s.ListsCurrent call (s.step call) := by
  cases call with
  | invalidateForPubkeys queries order pubkeys =>
    have affected := s.tracker.mem_getAffectedQueriesBatch pubkeys
    constructor
    · rintro ⟨_, naming, members, count⟩ pubkey among query listed
      have within : naming ⊆ s.tracker.getAffectedQueriesBatch pubkeys := fun query member =>
        h.affected ((members query).mp member)
      -- The number returned is the number of affected queries, so that these name a pubkey.
      have all : naming = s.tracker.getAffectedQueriesBatch pubkeys :=
        Finset.eq_of_subset_of_card_le within (Nat.le_of_eq count)
      have member := (affected query).mpr ⟨pubkey, among, listed⟩
      rw [← all] at member
      exact (members query).mp member
    · intro current
      have names (query : QueryHash) :
          query ∈ s.tracker.getAffectedQueriesBatch pubkeys ↔ s.Names pubkeys query := by
        refine ⟨fun member => ?_, h.affected⟩
        obtain ⟨pubkey, among, listed⟩ := (affected query).mp member
        exact current pubkey among query listed
      refine ⟨fun query spared => ?_, _, names, rfl⟩
      exact s.tracker.invalidate_spares queries order pubkeys fun member => spared ((names query).mp member)
  | _ => exact Iff.rfl

/-- Every invalidation of a run is precise exactly when none finds an entry of an
earlier registration. -/
theorem invalidations_precise_iff (calls : List (InvalidationCall S)) :
    Along (ofFun step) Precise start calls ↔ Along (ofFun step) ListsCurrent start calls := by
  refine along_ofFun_iff Tracked ?_ ?_ start_tracked calls
  · intro s call h
    exact h.precise_iff call
  · intro s call h _
    exact h.step call

/-- A query registered again keeps the pubkeys it had. -/
def Extends (s : InvalidationRun S) (call : InvalidationCall S) (_ : InvalidationRun S) : Prop :=
  match call with
  | .registerQuery query affected => ∀ named, s.latest query = some named → named ⊆ affected
  | _ => True

theorem Tracked.listsCurrent {s : InvalidationRun S} (h : s.Tracked)
    (exact : s.tracker.ListsRegistered) (call : InvalidationCall S) (t : InvalidationRun S) :
    s.ListsCurrent call t := by
  cases call with
  | invalidateForPubkeys queries order pubkeys =>
    intro pubkey among query listed
    obtain ⟨registered, found, member⟩ := exact pubkey query listed
    rw [h.registered] at found
    obtain ⟨named, latest, rfl⟩ := Option.map_eq_some_iff.mp found
    exact ⟨named, latest, pubkey, List.mem_toFinset.mp member, among⟩
  | _ => trivial

theorem Tracked.step_listsRegistered {s : InvalidationRun S} (h : s.Tracked)
    (exact : s.tracker.ListsRegistered) (call : InvalidationCall S) (extending : s.Extends call (s.step call)) :
    (s.step call).tracker.ListsRegistered := by
  cases call with
  | registerQuery query affected =>
    refine exact.registerQuery fun pubkeys found pubkey member => ?_
    rw [h.registered] at found
    obtain ⟨named, latest, rfl⟩ := Option.map_eq_some_iff.mp found
    exact extending named latest (List.mem_toFinset.mp member)
  | cacheMaterializedResult query result => exact exact
  | invalidateForPubkeys queries order pubkeys =>
    exact foldl_invariant InvalidationTracker.ListsRegistered (fun _ query kept => kept.dropQuery order query)
      exact _
  | clear => exact InvalidationTracker.listsRegistered_new

/-- Only a registration that drops a pubkey of the one before can make an invalidation
imprecise. -/
theorem precise_of_extending (calls : List (InvalidationCall S))
    (extending : Along (ofFun step) Extends start calls) : Along (ofFun step) Precise start calls := by
  refine along_of_invariant (fun s => s.Tracked ∧ s.tracker.ListsRegistered) Extends _ ?_
    ⟨start_tracked, InvalidationTracker.listsRegistered_new⟩ extending
  rintro s call _ ⟨h, exact⟩ rfl keeps
  refine ⟨⟨h.step call, h.step_listsRegistered exact call keeps⟩, ?_⟩
  exact (h.precise_iff call).mpr (h.listsCurrent exact call _)

/-- The pubkey of the first registration still counts the query. -/
theorem earlier_registration_counted :
    let query : QueryHash := Vector.replicate 32 0
    let a : Pubkey := Vector.replicate 32 1
    let b : Pubkey := Vector.replicate 32 2
    ¬ Along (ofFun step) Precise (start : InvalidationRun SortedIds)
      [.registerQuery query [a], .registerQuery query [b],
        .invalidateForPubkeys (.some QueryHash) (fun _ => .some Pubkey) [a]] := by
  intro query a b along
  obtain ⟨_, second⟩ := along _ rfl
  obtain ⟨_, third⟩ := second _ rfl
  obtain ⟨precise, _⟩ := third _ rfl
  have first := (start_tracked (S := SortedIds)).step (.registerQuery query [a])
  have current := ((first.step (.registerQuery query [b])).precise_iff _).mp precise
  have listed := (MultiMap.mem_values_linkAll [b] _ a query query).mpr
    (.inr ((MultiMap.mem_values_linkAll [a] ∅ a query query).mpr (.inl ⟨List.mem_singleton_self a, rfl⟩)))
  obtain ⟨named, latest, pubkey, member, changed⟩ := current a (List.mem_singleton_self a) query listed
  cases latest
  rw [List.mem_singleton] at member changed
  have same : b = a := member.symm.trans changed
  revert same
  decide

end InvalidationRun

end Hyperplane
