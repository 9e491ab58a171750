import Hyperplane.Base.PubkeyDict

/-! One session of the persistent dictionary: single calls and batches draw ids
from two counters, its own and the one in the cache. -/
namespace Hyperplane
open Maps Transition

/-- The calls that may give a pubkey an id. -/
inductive IdRequest where
  | getOrCreateId (pubkey : Pubkey)
  | insertBatch (pubkeys : List Pubkey)

def IdRequest.pubkeys : IdRequest → List Pubkey
  | .getOrCreateId pubkey => [pubkey]
  | .insertBatch pubkeys => pubkeys

namespace PersistentPubkeyDictionary

def len (self : PersistentPubkeyDictionary) : Nat := self.memoryCache.len

def answer (self : PersistentPubkeyDictionary) :
    IdRequest → List UInt64 × PersistentPubkeyDictionary
  | .getOrCreateId pubkey => ([(self.getOrCreateId pubkey).1], (self.getOrCreateId pubkey).2)
  | .insertBatch pubkeys => self.insertBatch pubkeys

/-- The length of the cache is a usize; growing past that panics. -/
def serve (self : PersistentPubkeyDictionary) (request : IdRequest) :
    Option PersistentPubkeyDictionary :=
  if (self.answer request).2.len < 2 ^ 64 then some (self.answer request).2 else none

/-- Table, cache and returned ids are one bijection between the pubkeys known
and the numbers below the length. -/
structure SameBijection (before : PersistentPubkeyDictionary) (request : IdRequest)
    (after : PersistentPubkeyDictionary) : Prop where
  returned : (before.answer request).1.map some =
    request.pubkeys.map fun pubkey : Pubkey => after.table[pubkey]?
  reported : ∀ pubkey : Pubkey, after.getId pubkey = after.table[pubkey]?
  inverse : ∀ (pubkey : Pubkey) (id : UInt64),
    after.getPubkey id = some pubkey ↔ after.table[pubkey]? = some id
  counter : after.nextId.toNat = after.len
  range : ∀ id : UInt64, (∃ pubkey : Pubkey, after.table[pubkey]? = some id) ↔ id.toNat < after.len

/-- The cache is the whole table, and the two counters move in step. -/
structure Lockstep (dict : PersistentPubkeyDictionary) : Prop where
  dense : dict.memoryCache.Dense
  counter : dict.memoryCache.nextId = dict.nextId
  table : ∀ pubkey : Pubkey, dict.table[pubkey]? = dict.memoryCache.getId pubkey

theorem lockstep_created : Lockstep created where
  dense := PubkeyDictionary.dense_empty
  counter := rfl
  table := by simp [created, PubkeyDictionary.getId]

theorem Lockstep.assign {self : PersistentPubkeyDictionary} {pubkey : Pubkey} (h : Lockstep self)
    (absent : self.memoryCache.getId pubkey = none) (fits : (self.assign pubkey).len < 2 ^ 64) :
    Lockstep (self.assign pubkey) where
  dense := h.dense.insert pubkey fits
  counter := by
    simp only [PersistentPubkeyDictionary.assign, PubkeyDictionary.insert_unknown absent, h.counter]
  table other := by rw [assign_table, assign_cached h.counter absent, h.table]

theorem len_le_insertOne (self : PersistentPubkeyDictionary) (pubkey : Pubkey) :
    self.len ≤ (self.insertOne pubkey).len := by
  unfold insertOne
  split
  · exact self.memoryCache.len_le_insert pubkey
  · exact Nat.le_refl _

theorem len_le_insertAll (self : PersistentPubkeyDictionary) (pubkeys : List Pubkey) :
    self.len ≤ (pubkeys.foldl insertOne self).len := by
  induction pubkeys generalizing self with
  | nil => exact Nat.le_refl _
  | cons pubkey rest ih => exact Nat.le_trans (self.len_le_insertOne pubkey) (ih _)

theorem Lockstep.insertOne {self : PersistentPubkeyDictionary} {pubkey : Pubkey} (h : Lockstep self)
    (fits : (self.insertOne pubkey).len < 2 ^ 64) : Lockstep (self.insertOne pubkey) := by
  unfold PersistentPubkeyDictionary.insertOne at fits ⊢
  split
  · rename_i absent
    rw [if_pos absent] at fits
    exact h.assign (Option.isNone_iff_eq_none.mp absent) fits
  · exact h

theorem Lockstep.insertAll {self : PersistentPubkeyDictionary} {pubkeys : List Pubkey}
    (h : Lockstep self) (fits : (pubkeys.foldl PersistentPubkeyDictionary.insertOne self).len < 2 ^ 64) :
    Lockstep (pubkeys.foldl PersistentPubkeyDictionary.insertOne self) := by
  induction pubkeys generalizing self with
  | nil => exact h
  | cons pubkey rest ih =>
    have first := len_le_insertAll (self.insertOne pubkey) rest
    exact ih (h.insertOne (Nat.lt_of_le_of_lt first fits)) fits

/-- A pubkey is known to the cache or to neither. -/
theorem Lockstep.getOrCreateId {self : PersistentPubkeyDictionary} (h : Lockstep self)
    (pubkey : Pubkey) : self.getOrCreateId pubkey = match self.memoryCache.getId pubkey with
      | some id => (id, self)
      | none => (self.nextId, self.assign pubkey) := by
  unfold PersistentPubkeyDictionary.getOrCreateId
  cases cached : self.memoryCache.getId pubkey with
  | some id => rfl
  | none => simp only [h.table, cached]

theorem Lockstep.answer {self : PersistentPubkeyDictionary} {request : IdRequest} (h : Lockstep self)
    (fits : (self.answer request).2.len < 2 ^ 64) : Lockstep (self.answer request).2 := by
  cases request with
  | getOrCreateId pubkey =>
    simp only [PersistentPubkeyDictionary.answer, h.getOrCreateId pubkey] at fits ⊢
    cases cached : self.memoryCache.getId pubkey with
    | some id => exact h
    | none =>
      simp only [cached] at fits
      exact h.assign cached fits
  | insertBatch pubkeys => exact h.insertAll fits

/-- The ids returned are the cached ones, one for each pubkey asked for. -/
theorem Lockstep.returned {self : PersistentPubkeyDictionary} (h : Lockstep self)
    (request : IdRequest) : (self.answer request).1.map some =
      request.pubkeys.map (self.answer request).2.memoryCache.getId := by
  cases request with
  | getOrCreateId pubkey =>
    simp only [PersistentPubkeyDictionary.answer, IdRequest.pubkeys, h.getOrCreateId pubkey]
    cases cached : self.memoryCache.getId pubkey with
    | some id => simp [cached]
    | none => simp [assign_cached h.counter cached]
  | insertBatch pubkeys => exact filterMap_some (extends_insertAll pubkeys h.counter).2

theorem Lockstep.sameBijection {self : PersistentPubkeyDictionary} {request : IdRequest}
    (h : Lockstep self) (fits : (self.answer request).2.len < 2 ^ 64) :
    SameBijection self request (self.answer request).2 := by
  have after := h.answer fits
  have table := after.table
  refine ⟨?_, fun pubkey => ?_, fun pubkey id => ?_, ?_, fun id => ?_⟩
  · simp only [table]
    exact h.returned request
  · unfold getId
    split
    · rename_i id cached
      rw [table, cached]
    · rfl
  · rw [table]
    exact (after.dense.inverse pubkey id).symm
  · rw [← after.counter]
    exact after.dense.counter
  · simp only [table]
    exact after.dense.range id

/-- After every call of a session, whichever calls it mixes. -/
theorem session_sameBijection (requests : List IdRequest) :
    Along (ofPartial serve) SameBijection created requests := by
  refine along_of_invariant Lockstep (fun _ _ _ => True) SameBijection ?_ lockstep_created
    (along_labels (Q := fun _ => True) _ (fun _ _ => trivial) created)
  intro self request after h served _
  rw [ofPartial, serve] at served
  split at served
  · rename_i fits
    cases served
    exact ⟨h.answer fits, h.sameBijection fits⟩
  · cases served

end PersistentPubkeyDictionary

end Hyperplane
