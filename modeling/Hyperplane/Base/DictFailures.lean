import Hyperplane.Base.DictRuns

/-! One session of the persistent dictionary on a storage that fails. A failed
or uncommitted transaction changes nothing on disk, but the counter and the
cache are not part of it. -/
namespace Hyperplane
open Maps Transition

/-- How the write transaction of one call goes. No call inserts a pubkey twice. -/
structure WriteOutcome where
  begins : Bool
  inserts : Pubkey → Bool
  commits : Bool

def WriteOutcome.sound : WriteOutcome := ⟨true, fun _ => true, true⟩

namespace PersistentPubkeyDictionary

/-- The error of an insert is discarded. -/
def tryInsert (self : PersistentPubkeyDictionary) (txn : WriteOutcome) (pubkey : Pubkey)
    (id : UInt64) : PersistentPubkeyDictionary :=
  if txn.inserts pubkey then self.writeTable pubkey id else self

/-- The id drawn and given to the pubkey, in the table unless the insert is
discarded, and in the cache under the cache's own counter. -/
def tryAssign (self : PersistentPubkeyDictionary) (txn : WriteOutcome) (pubkey : Pubkey) :
    PersistentPubkeyDictionary :=
  ((self.draw pubkey).tryInsert txn pubkey self.nextId).cacheInsert pubkey

/-- What was written to the table is not committed. -/
def abort (self before : PersistentPubkeyDictionary) : PersistentPubkeyDictionary :=
  { self with table := before.table }

/-- None stands for an error returned. The id is drawn before the transaction
begins. -/
def tryGetOrCreateId (self : PersistentPubkeyDictionary) (txn : WriteOutcome) (pubkey : Pubkey) :
    Option UInt64 × PersistentPubkeyDictionary :=
  match self.memoryCache.getId pubkey with
  | some id => (some id, self)
  | none => match self.table[pubkey]? with
    | some id => (some id, self)
    | none =>
      let drawn := self.draw pubkey
      if txn.begins = false then (none, drawn) else
      let written := drawn.tryInsert txn pubkey self.nextId
      if txn.commits = false then (none, written.abort self) else
      (some self.nextId, written.cacheInsert pubkey)

def tryInsertOne (txn : WriteOutcome) (self : PersistentPubkeyDictionary) (pubkey : Pubkey) :
    PersistentPubkeyDictionary :=
  if (self.memoryCache.getId pubkey).isNone then self.tryAssign txn pubkey else self

/-- The cache is filled before the commit. -/
def tryInsertBatch (self : PersistentPubkeyDictionary) (txn : WriteOutcome) (pubkeys : List Pubkey) :
    Option (List UInt64) × PersistentPubkeyDictionary :=
  if txn.begins = false then (none, self) else
  let after := pubkeys.foldl (tryInsertOne txn) self
  if txn.commits = false then (none, after.abort self) else
  (some (pubkeys.filterMap after.memoryCache.getId), after)

def tryAnswer (self : PersistentPubkeyDictionary) :
    IdRequest × WriteOutcome → Option (List UInt64) × PersistentPubkeyDictionary
  | (.getOrCreateId pubkey, txn) =>
    let (id, after) := self.tryGetOrCreateId txn pubkey
    (id.map ([·]), after)
  | (.insertBatch pubkeys, txn) => self.tryInsertBatch txn pubkeys

/-- The state a call leaves, failed or not. -/
def afterCall (self : PersistentPubkeyDictionary) (call : IdRequest × WriteOutcome) :
    PersistentPubkeyDictionary :=
  (self.tryAnswer call).2

/-- On a storage that does not fail the calls are those of the dictionary. -/
theorem tryAnswer_sound (self : PersistentPubkeyDictionary) (request : IdRequest) :
    self.tryAnswer (request, .sound) = (some (self.answer request).1, (self.answer request).2) := by
  cases request with
  | getOrCreateId pubkey =>
    simp only [tryAnswer, tryGetOrCreateId, answer, getOrCreateId]
    cases self.memoryCache.getId pubkey with
    | some id => rfl
    | none =>
      cases self.table[pubkey]? with
      | some id => rfl
      | none => rfl
  | insertBatch pubkeys => rfl

/-- Every id reported is committed, and a call that succeeds returns for each
pubkey the id that is in the table and that get_id reports. -/
structure Committed (before : PersistentPubkeyDictionary) (call : IdRequest × WriteOutcome)
    (after : PersistentPubkeyDictionary) : Prop where
  reported : ∀ pubkey id, after.getId pubkey = some id → after.table[pubkey]? = some id
  returned : ∀ ids, (before.tryAnswer call).1 = some ids →
    ids.map some = call.1.pubkeys.map (fun pubkey : Pubkey => after.table[pubkey]?) ∧
      ids.map some = call.1.pubkeys.map after.getId

/-- A call whose transaction draws an id finds the counters equal; none of its
inserts is discarded, and a batch is committed. -/
def Durable (self : PersistentPubkeyDictionary) : IdRequest × WriteOutcome → Prop
  | (.getOrCreateId pubkey, txn) =>
    self.memoryCache.getId pubkey = none → txn.begins = true → txn.commits = true →
      self.memoryCache.nextId = self.nextId ∧ txn.inserts pubkey = true
  | (.insertBatch pubkeys, txn) =>
    ∀ pubkey ∈ pubkeys, self.memoryCache.getId pubkey = none → txn.begins = true →
      self.memoryCache.nextId = self.nextId ∧ txn.inserts pubkey = true ∧ txn.commits = true

/-- The cache is the whole table. -/
def Mirrored (self : PersistentPubkeyDictionary) : Prop :=
  ∀ pubkey : Pubkey, self.table[pubkey]? = self.memoryCache.getId pubkey

theorem getId_of_cached {self : PersistentPubkeyDictionary} {pubkey : Pubkey} {id : UInt64}
    (cached : self.memoryCache.getId pubkey = some id) : self.getId pubkey = some id := by
  simp only [getId, cached]

theorem Mirrored.getId {self : PersistentPubkeyDictionary} (h : Mirrored self) (pubkey : Pubkey) :
    self.getId pubkey = self.table[pubkey]? := by
  unfold PersistentPubkeyDictionary.getId
  split
  · rename_i id cached
    rw [h, cached]
  · rfl

/-- A call leaves nothing to object to when it leaves the cache a mirror and
returns what is cached. -/
theorem Mirrored.committed {self : PersistentPubkeyDictionary} {call : IdRequest × WriteOutcome}
    (after : Mirrored (self.afterCall call))
    (returned : ∀ ids, (self.tryAnswer call).1 = some ids →
      ids.map some = call.1.pubkeys.map (self.afterCall call).memoryCache.getId) :
    Committed self call (self.afterCall call) := by
  refine ⟨fun pubkey id known => ?_, fun ids succeeded => ?_⟩
  · rw [← known]
    exact (after.getId pubkey).symm
  · have cached := returned ids succeeded
    have same : (self.afterCall call).getId = (self.afterCall call).memoryCache.getId := by
      funext pubkey
      rw [after.getId, after pubkey]
    refine ⟨?_, same ▸ cached⟩
    rw [cached]
    exact List.map_congr_left fun pubkey _ => (after pubkey).symm

theorem tryInsert_cache (self : PersistentPubkeyDictionary) (txn : WriteOutcome) (pubkey : Pubkey)
    (id : UInt64) : (self.tryInsert txn pubkey id).memoryCache = self.memoryCache := by
  unfold tryInsert
  split
  · rfl
  · rfl

theorem tryInsert_table (self : PersistentPubkeyDictionary) (txn : WriteOutcome) (pubkey : Pubkey)
    (id : UInt64) (other : Pubkey) : (self.tryInsert txn pubkey id).table[other]? =
      if other = pubkey ∧ txn.inserts pubkey = true then some id else self.table[other]? := by
  unfold tryInsert
  split
  · rename_i inserted
    simp only [writeTable_table, inserted, and_true]
  · rename_i discarded
    simp only [discarded, and_false, if_false, Bool.false_eq_true]

theorem tryAssign_cached {self : PersistentPubkeyDictionary} {txn : WriteOutcome} {pubkey : Pubkey}
    (absent : self.memoryCache.getId pubkey = none) (other : Pubkey) :
    (self.tryAssign txn pubkey).memoryCache.getId other =
      if other = pubkey then some self.memoryCache.nextId else self.memoryCache.getId other := by
  have same := tryInsert_cache (self.draw pubkey) txn pubkey self.nextId
  rw [tryAssign, cacheInsert_cached (same ▸ absent), same]
  rfl

theorem tryAssign_table (self : PersistentPubkeyDictionary) (txn : WriteOutcome) (pubkey other : Pubkey) :
    (self.tryAssign txn pubkey).table[other]? =
      if other = pubkey ∧ txn.inserts pubkey = true then some self.nextId else self.table[other]? :=
  tryInsert_table (self.draw pubkey) txn pubkey self.nextId other

/-- Mirrored again exactly if the insert went through under one number. -/
theorem Mirrored.tryAssign {self : PersistentPubkeyDictionary} {txn : WriteOutcome} {pubkey : Pubkey}
    (h : Mirrored self) (absent : self.memoryCache.getId pubkey = none)
    (counter : self.memoryCache.nextId = self.nextId) (inserted : txn.inserts pubkey = true) :
    Mirrored (self.tryAssign txn pubkey) := by
  intro other
  rw [tryAssign_table, tryAssign_cached absent, h, counter]
  simp only [inserted, and_true]

theorem durable_of_assigned {self : PersistentPubkeyDictionary} {txn : WriteOutcome} {pubkey : Pubkey}
    (h : Mirrored self) (absent : self.memoryCache.getId pubkey = none)
    (written : (self.tryAssign txn pubkey).table[pubkey]? = some self.memoryCache.nextId) :
    self.memoryCache.nextId = self.nextId ∧ txn.inserts pubkey = true := by
  rw [tryAssign_table] at written
  split at written
  · rename_i inserted
    exact ⟨(Option.some.inj written).symm, inserted.2⟩
  · rw [h, absent] at written
    cases written

theorem tryAssign_counter {self : PersistentPubkeyDictionary} {txn : WriteOutcome} {pubkey : Pubkey}
    (absent : self.memoryCache.getId pubkey = none)
    (counter : self.memoryCache.nextId = self.nextId) :
    (self.tryAssign txn pubkey).memoryCache.nextId = (self.tryAssign txn pubkey).nextId := by
  have cache := tryInsert_cache (self.draw pubkey) txn pubkey self.nextId
  have drawn : ((self.draw pubkey).tryInsert txn pubkey self.nextId).nextId = self.nextId + 1 := by
    unfold tryInsert
    split
    · rfl
    · rfl
  simp only [tryAssign, cacheInsert, drawn, cache]
  change (self.memoryCache.insert pubkey).2.nextId = _
  rw [PubkeyDictionary.insert_unknown absent, ← counter]

/-! A batch. -/

theorem tryInsertOne_known {self : PersistentPubkeyDictionary} {txn : WriteOutcome} {pubkey : Pubkey}
    {id : UInt64} (cached : self.memoryCache.getId pubkey = some id) :
    self.tryInsertOne txn pubkey = self := by
  simp [tryInsertOne, cached]

theorem tryInsertOne_new {self : PersistentPubkeyDictionary} {txn : WriteOutcome} {pubkey : Pubkey}
    (absent : self.memoryCache.getId pubkey = none) :
    self.tryInsertOne txn pubkey = self.tryAssign txn pubkey := by
  simp [tryInsertOne, absent]

theorem tryInsertOne_cache (self : PersistentPubkeyDictionary) (txn : WriteOutcome) (pubkey : Pubkey) :
    (self.tryInsertOne txn pubkey).memoryCache = (self.memoryCache.insert pubkey).2 := by
  cases cached : self.memoryCache.getId pubkey with
  | some id => rw [tryInsertOne_known cached, PubkeyDictionary.insert_known cached]
  | none =>
    rw [tryInsertOne_new cached, tryAssign, cacheInsert, tryInsert_cache]
    rfl

/-- The cache is filled as by its own batch. -/
theorem tryInsertAll_cache (self : PersistentPubkeyDictionary) (txn : WriteOutcome)
    (pubkeys : List Pubkey) : (pubkeys.foldl (tryInsertOne txn) self).memoryCache =
      (self.memoryCache.batchInsert pubkeys).2 := by
  induction pubkeys generalizing self with
  | nil => rfl
  | cons pubkey rest ih =>
    rw [List.foldl_cons, ih, tryInsertOne_cache]
    rfl

theorem tryInsertAll_cached (self : PersistentPubkeyDictionary) (txn : WriteOutcome)
    (pubkeys : List Pubkey) : ∀ pubkey ∈ pubkeys,
      ∃ id, (pubkeys.foldl (tryInsertOne txn) self).memoryCache.getId pubkey = some id := by
  intro pubkey member
  have reported := self.memoryCache.batchInsert_reports pubkeys
  have among := List.mem_map_of_mem (f := (self.memoryCache.batchInsert pubkeys).2.getId) member
  rw [← reported] at among
  obtain ⟨id, _, same⟩ := List.mem_map.mp among
  exact ⟨id, by rw [tryInsertAll_cache, same]⟩

/-- The rest of a batch leaves a pubkey that is cached as it is. -/
theorem tryInsertAll_keeps (self : PersistentPubkeyDictionary) (txn : WriteOutcome)
    (pubkeys : List Pubkey) {other : Pubkey} {id : UInt64}
    (cached : self.memoryCache.getId other = some id) :
    (pubkeys.foldl (tryInsertOne txn) self).memoryCache.getId other = some id ∧
      (pubkeys.foldl (tryInsertOne txn) self).table[other]? = self.table[other]? := by
  induction pubkeys generalizing self with
  | nil => exact ⟨cached, rfl⟩
  | cons pubkey rest ih =>
    have later : (self.tryInsertOne txn pubkey).memoryCache.getId other = some id := by
      rw [tryInsertOne_cache]
      exact self.memoryCache.insert_keeps cached
    have table : (self.tryInsertOne txn pubkey).table[other]? = self.table[other]? := by
      cases known : self.memoryCache.getId pubkey with
      | some old => rw [tryInsertOne_known known]
      | none =>
        rw [tryInsertOne_new known, tryAssign_table, if_neg]
        rintro ⟨rfl, _⟩
        rw [known] at cached
        cases cached
    obtain ⟨kept, same⟩ := ih _ later
    exact ⟨kept, same.trans table⟩

/-- Every pubkey that is not cached yet finds the counters equal and its insert
going through. -/
def AllInserted (self : PersistentPubkeyDictionary) (txn : WriteOutcome) (pubkeys : List Pubkey) : Prop :=
  ∀ pubkey ∈ pubkeys, self.memoryCache.getId pubkey = none →
    self.memoryCache.nextId = self.nextId ∧ txn.inserts pubkey = true

theorem AllInserted.tail {self : PersistentPubkeyDictionary} {txn : WriteOutcome} {pubkey : Pubkey}
    {rest : List Pubkey} (h : AllInserted self txn (pubkey :: rest)) :
    AllInserted (self.tryInsertOne txn pubkey) txn rest := by
  intro other member absent
  cases cached : self.memoryCache.getId pubkey with
  | some id =>
    rw [tryInsertOne_known cached] at absent ⊢
    exact h other (List.mem_cons_of_mem pubkey member) absent
  | none =>
    rw [tryInsertOne_new cached] at absent ⊢
    rw [tryAssign_cached cached] at absent
    split at absent
    · cases absent
    · obtain ⟨counter, inserted⟩ := h other (List.mem_cons_of_mem pubkey member) absent
      exact ⟨tryAssign_counter cached counter, inserted⟩

theorem Mirrored.tryInsertAll {self : PersistentPubkeyDictionary} {txn : WriteOutcome}
    {pubkeys : List Pubkey} (h : Mirrored self) (all : AllInserted self txn pubkeys) :
    Mirrored (pubkeys.foldl (tryInsertOne txn) self) := by
  induction pubkeys generalizing self with
  | nil => exact h
  | cons pubkey rest ih =>
    have first : Mirrored (self.tryInsertOne txn pubkey) := by
      cases cached : self.memoryCache.getId pubkey with
      | some id =>
        rw [tryInsertOne_known cached]
        exact h
      | none =>
        rw [tryInsertOne_new cached]
        obtain ⟨counter, inserted⟩ := all pubkey (by simp) cached
        exact h.tryAssign cached counter inserted
    exact ih first all.tail

/-- The first pubkey of a batch for which something is wrong stays cached under
an id that the table does not have for it. -/
theorem Mirrored.allInserted {self : PersistentPubkeyDictionary} {txn : WriteOutcome}
    {pubkeys : List Pubkey} (h : Mirrored self)
    (written : ∀ pubkey id, (pubkeys.foldl (tryInsertOne txn) self).memoryCache.getId pubkey = some id →
      (pubkeys.foldl (tryInsertOne txn) self).table[pubkey]? = some id) :
    AllInserted self txn pubkeys := by
  induction pubkeys generalizing self with
  | nil =>
    intro pubkey member
    cases member
  | cons pubkey rest ih =>
    rw [List.foldl_cons] at written
    cases cached : self.memoryCache.getId pubkey with
    | some id =>
      rw [tryInsertOne_known cached] at written
      intro other member absent
      rcases List.mem_cons.mp member with rfl | among
      · rw [cached] at absent
        cases absent
      · exact ih h written other among absent
    | none =>
      rw [tryInsertOne_new cached] at written
      have own : (self.tryAssign txn pubkey).memoryCache.getId pubkey = some self.memoryCache.nextId := by
        rw [tryAssign_cached cached, if_pos rfl]
      obtain ⟨kept, same⟩ := tryInsertAll_keeps _ txn rest own
      obtain ⟨counter, inserted⟩ := durable_of_assigned h cached (same ▸ written pubkey _ kept)
      intro other member absent
      refine ⟨counter, ?_⟩
      by_cases first : other = pubkey
      · rw [first]
        exact inserted
      · have among := (List.mem_cons.mp member).resolve_left first
        refine (ih (h.tryAssign cached counter inserted) written other among ?_).2
        rw [tryAssign_cached cached, if_neg first]
        exact absent

/-! A call. -/

theorem Mirrored.tryGetOrCreateId {self : PersistentPubkeyDictionary} {pubkey : Pubkey}
    (h : Mirrored self) (absent : self.memoryCache.getId pubkey = none) (txn : WriteOutcome) :
    self.tryGetOrCreateId txn pubkey =
      if txn.begins = true ∧ txn.commits = true then (some self.nextId, self.tryAssign txn pubkey)
      else (none, self.draw pubkey) := by
  have dropped : ((self.draw pubkey).tryInsert txn pubkey self.nextId).abort self = self.draw pubkey := by
    unfold tryInsert
    split
    · rfl
    · rfl
  have free : self.table[pubkey]? = none := (h pubkey).trans absent
  simp only [PersistentPubkeyDictionary.tryGetOrCreateId, absent, free, dropped]
  cases txn.begins with
  | false => rfl
  | true =>
    cases txn.commits with
    | false => rfl
    | true => rfl

theorem tryAnswer_known {self : PersistentPubkeyDictionary} {pubkey : Pubkey} {id : UInt64}
    (cached : self.memoryCache.getId pubkey = some id) (txn : WriteOutcome) :
    self.tryAnswer (.getOrCreateId pubkey, txn) = (some [id], self) := by
  simp [tryAnswer, PersistentPubkeyDictionary.tryGetOrCreateId, cached]

/-- A batch of known pubkeys changes nothing. -/
theorem tryInsertAll_known {self : PersistentPubkeyDictionary} (txn : WriteOutcome)
    {pubkeys : List Pubkey} (known : ∀ pubkey ∈ pubkeys, self.memoryCache.getId pubkey ≠ none) :
    pubkeys.foldl (tryInsertOne txn) self = self := by
  induction pubkeys with
  | nil => rfl
  | cons pubkey rest ih =>
    obtain ⟨id, cached⟩ := Option.ne_none_iff_exists'.mp (known pubkey (by simp))
    rw [List.foldl_cons, tryInsertOne_known cached]
    exact ih fun other member => known other (List.mem_cons_of_mem pubkey member)

theorem Mirrored.afterCall {self : PersistentPubkeyDictionary} {call : IdRequest × WriteOutcome}
    (h : Mirrored self) (durable : Durable self call) : Mirrored (self.afterCall call) := by
  obtain ⟨request, txn⟩ := call
  unfold PersistentPubkeyDictionary.afterCall
  cases request with
  | getOrCreateId pubkey =>
    cases cached : self.memoryCache.getId pubkey with
    | some id =>
      rw [tryAnswer_known cached]
      exact h
    | none =>
      simp only [tryAnswer, h.tryGetOrCreateId cached]
      split
      · rename_i succeeds
        obtain ⟨counter, inserted⟩ := durable cached succeeds.1 succeeds.2
        exact h.tryAssign cached counter inserted
      · exact h
  | insertBatch pubkeys =>
    simp only [tryAnswer, tryInsertBatch]
    by_cases begins : txn.begins = false
    · rw [if_pos begins]
      exact h
    · rw [if_neg begins]
      have began := Bool.eq_true_of_not_eq_false begins
      by_cases commits : txn.commits = false
      · have known : ∀ pubkey ∈ pubkeys, self.memoryCache.getId pubkey ≠ none := by
          intro pubkey member absent
          have committed := (durable pubkey member absent began).2.2
          rw [commits] at committed
          cases committed
        rw [if_pos commits, tryInsertAll_known txn known]
        exact h
      · rw [if_neg commits]
        apply h.tryInsertAll
        intro pubkey member absent
        obtain ⟨counter, inserted, _⟩ := durable pubkey member absent began
        exact ⟨counter, inserted⟩

theorem Mirrored.returned {self : PersistentPubkeyDictionary} {call : IdRequest × WriteOutcome}
    (h : Mirrored self) (durable : Durable self call) {ids : List UInt64}
    (succeeded : (self.tryAnswer call).1 = some ids) :
    ids.map some = call.1.pubkeys.map (self.afterCall call).memoryCache.getId := by
  obtain ⟨request, txn⟩ := call
  unfold PersistentPubkeyDictionary.afterCall
  cases request with
  | getOrCreateId pubkey =>
    cases cached : self.memoryCache.getId pubkey with
    | some id =>
      rw [tryAnswer_known cached] at succeeded ⊢
      cases succeeded
      simp [IdRequest.pubkeys, cached]
    | none =>
      simp only [tryAnswer, h.tryGetOrCreateId cached] at succeeded ⊢
      split at succeeded
      · rename_i succeeds
        cases succeeded
        have counter := (durable cached succeeds.1 succeeds.2).1
        simp [IdRequest.pubkeys, succeeds, tryAssign_cached cached, counter]
      · cases succeeded
  | insertBatch pubkeys =>
    simp only [tryAnswer, tryInsertBatch] at succeeded ⊢
    split at succeeded
    · cases succeeded
    · rename_i begins
      split at succeeded
      · cases succeeded
      · rename_i commits
        cases succeeded
        rw [if_neg begins, if_neg commits]
        exact filterMap_some (tryInsertAll_cached self txn pubkeys)

/-- An id that get_id reports without a draw that is durable is not committed. -/
theorem Mirrored.durable {self : PersistentPubkeyDictionary} {call : IdRequest × WriteOutcome}
    (h : Mirrored self)
    (reported : ∀ pubkey id, (self.afterCall call).getId pubkey = some id →
      (self.afterCall call).table[pubkey]? = some id) : Durable self call := by
  obtain ⟨request, txn⟩ := call
  have written := fun pubkey id cached => reported pubkey id (getId_of_cached cached)
  unfold PersistentPubkeyDictionary.afterCall at written
  cases request with
  | getOrCreateId pubkey =>
    intro absent begins commits
    simp only [tryAnswer, h.tryGetOrCreateId absent, begins, commits, and_self, if_true] at written
    apply durable_of_assigned h absent
    apply written
    rw [tryAssign_cached absent, if_pos rfl]
  | insertBatch pubkeys =>
    intro pubkey member absent begins
    simp only [tryAnswer, tryInsertBatch, begins, Bool.true_eq_false, if_false] at written
    by_cases commits : txn.commits = false
    · rw [if_pos commits] at written
      obtain ⟨id, cached⟩ := tryInsertAll_cached self txn pubkeys pubkey member
      have stored : self.table[pubkey]? = some id := written pubkey id cached
      rw [h, absent] at stored
      cases stored
    · rw [if_neg commits] at written
      obtain ⟨counter, inserted⟩ := h.allInserted written pubkey member absent
      exact ⟨counter, inserted, Bool.eq_true_of_not_eq_false commits⟩

/-- On a storage that fails at will, ids reported and returned are the committed
ones exactly as long as every id drawn is. -/
theorem committed_iff (calls : List (IdRequest × WriteOutcome)) :
    Along (ofFun afterCall) Committed created calls ↔
      Along (ofFun afterCall) (fun self call _ => Durable self call) created calls := by
  have fresh : Mirrored created := lockstep_created.table
  refine along_ofFun_iff Mirrored ?_ ?_ fresh calls
  · intro self call h
    constructor
    · intro committed
      exact h.durable committed.reported
    · intro durable
      exact (h.afterCall durable).committed fun ids succeeded => h.returned durable succeeded
  · intro self call h durable
    exact h.afterCall durable

/-- A commit that fails costs an id of one counter only. -/
theorem failed_commit_shifts :
    let a : Pubkey := Vector.replicate 32 1
    ¬ Along (ofFun afterCall) Committed created
      [(.getOrCreateId a, ⟨true, fun _ => true, false⟩), (.getOrCreateId a, .sound)] := by
  intro a committed
  have last := (along_ofFun afterCall Committed created _).mp committed
    [(.getOrCreateId a, ⟨true, fun _ => true, false⟩)] (.getOrCreateId a, .sound) [] rfl
  have reported := last.reported a 0 (by decide +kernel)
  exact absurd reported (by decide +kernel)

end PersistentPubkeyDictionary

end Hyperplane
