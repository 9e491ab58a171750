import Hyperplane.Lib.KeyedLists
import Hyperplane.Lib.Threads
import Hyperplane.Index.AdaptiveQueries

/-! Inserts, queries and migrations of one adaptive index, called from any number of
threads. A call reads the type first and goes to the container of that type later, when
the index may be of another type. -/
namespace Hyperplane
open Maps Transition Threads

inductive AdaptiveStore where
  | bitmap
  | btree
  | hash
  deriving DecidableEq

def AdaptiveIndexType.store : AdaptiveIndexType → AdaptiveStore
  | .bitmap => .bitmap
  | .bTree => .btree
  | .hash => .hash
  | .range => .btree

namespace AdaptiveIndex

variable {S : Type} [IdSet S]

/-- What insert does to the container once it has read the type. -/
def fill (index : AdaptiveIndex S) (type : AdaptiveIndexType) (key : UInt64) (accountId : UInt32) :
    AdaptiveIndex S :=
  match type with
  | .bitmap => { index with bitmapIndex := setBit index.bitmapIndex key accountId }
  | .bTree => { index with btreeIndex := push index.btreeIndex key accountId }
  | .hash => { index with hashIndex := push index.hashIndex key accountId }
  | .range => { index with btreeIndex := push index.btreeIndex key accountId }

/-- What query reads once it has read the type. -/
def look (index : AdaptiveIndex S) (type : AdaptiveIndexType) (key : UInt64) : List UInt32 :=
  match type with
  | .bitmap => (index.bitmapIndex[key.toUInt32]?.map idsOf).getD []
  | .bTree => index.btreeIndex[key]?.getD []
  | .hash => index.hashIndex[key]?.getD []
  | .range => index.btreeIndex[key]?.getD []

def inRange (startKey endKey key : UInt64) : Bool := decide (startKey ≤ key ∧ key ≤ endKey)

/-- What query_range reads once it has read the type. -/
def lookRange (index : AdaptiveIndex S) (type : AdaptiveIndexType) (startKey endKey : UInt64) : List UInt32 :=
  if type ≠ .bTree ∧ type ≠ .range then []
  else (index.btreeIndex.toList.filter fun entry => inRange startKey endKey entry.1).flatMap Prod.snd

def clearStore (index : AdaptiveIndex S) : AdaptiveStore → AdaptiveIndex S
  | .bitmap => { index with bitmapIndex := ∅ }
  | .btree => { index with btreeIndex := ∅ }
  | .hash => { index with hashIndex := ∅ }

theorem insert_fill (index : AdaptiveIndex S) (key : UInt64) (accountId : UInt32) :
    index.insert key accountId =
      { index.fill index.indexType key accountId with stats := countEntry index.stats } := by
  unfold insert fill
  cases index.indexType with
  | bitmap => rfl
  | bTree => rfl
  | hash => rfl
  | range => rfl

theorem stats_fill (index : AdaptiveIndex S) (type : AdaptiveIndexType) (key : UInt64) (accountId : UInt32) :
    (index.fill type key accountId).stats = index.stats := by
  cases type with
  | bitmap => rfl
  | bTree => rfl
  | hash => rfl
  | range => rfl

omit [IdSet S] in
theorem migrateTo_clearStore (index : AdaptiveIndex S) {newType : AdaptiveIndexType}
    (other : newType ≠ index.indexType) :
    index.migrateTo newType = { index.clearStore newType.store with indexType := newType } := by
  unfold migrateTo
  rw [if_neg other]
  cases newType with
  | bitmap => rfl
  | bTree => rfl
  | hash => rfl
  | range => rfl

end AdaptiveIndex

inductive AdaptiveQuestion where
  | query (key : UInt64)
  | queryRange (startKey endKey : UInt64)

/-- What happened to the containers, in order. -/
inductive AdaptiveEvent where
  | wrote (store : AdaptiveStore) (key : UInt64) (accountId : UInt32)
  | cleared (store : AdaptiveStore)
  | answered (type : AdaptiveIndexType) (question : AdaptiveQuestion) (ids : List UInt32)

/-- The pairs written to the container since it was last cleared. -/
def sinceCleared (store : AdaptiveStore) (history : List AdaptiveEvent) : List (UInt64 × UInt32) :=
  history.foldl (fun pairs event => match event with
    | .wrote other key accountId => if other = store then pairs ++ [(key, accountId)] else pairs
    | .cleared other => if other = store then [] else pairs
    | .answered _ _ _ => pairs) []

/-- In a bitmap each id stands once, in ascending order, under all keys with the same low
half. A list keeps the order of the inserts, and in a range of keys comes key by key. -/
def AdaptiveQuestion.expected (type : AdaptiveIndexType) (pairs : List (UInt64 × UInt32)) :
    AdaptiveQuestion → List UInt32
  | .query key =>
    if type = .bitmap then
      (((pairs.filter (·.1.toUInt32 = key.toUInt32)).map Prod.snd).dedup).mergeSort fun a b => a ≤ b
    else (pairs.filter (·.1 = key)).map Prod.snd
  | .queryRange startKey endKey =>
    if type.store = .btree then
      let inside := pairs.filter fun pair => startKey ≤ pair.1 ∧ pair.1 ≤ endKey
      (inside.mergeSort fun a b => a.1 ≤ b.1).map Prod.snd
    else []

def AdaptiveEvent.writes (key : UInt64) (accountId : UInt32) : AdaptiveEvent → Bool
  | .wrote _ k id => k == key && id == accountId
  | .cleared _ => false
  | .answered _ _ _ => false

structure AdaptiveCalls (S : Type) where
  index : AdaptiveIndex S
  migrationLock : Bool
  history : List AdaptiveEvent

/-- A range that ends before it starts is no call. -/
inductive AdaptiveRequest where
  | insert (key : UInt64) (accountId : UInt32)
  | query (key elapsed : UInt64)
  | queryRange (startKey endKey : UInt64) (ordered : startKey ≤ endKey)
  | migrateTo (newType : AdaptiveIndexType)

namespace AdaptiveRequest

def inserts (key : UInt64) (accountId : UInt32) : AdaptiveRequest → Bool
  | .insert k id => k == key && id == accountId
  | _ => false

def isInsert : AdaptiveRequest → Bool
  | .insert _ _ => true
  | _ => false

def isQuery : AdaptiveRequest → Bool
  | .query _ _ => true
  | _ => false

end AdaptiveRequest

inductive AdaptivePhase where
  | idle
  | inserting (type : AdaptiveIndexType) (key : UInt64) (accountId : UInt32)
  | countingEntry
  | querying (type : AdaptiveIndexType) (key elapsed : UInt64)
  | countingQuery (elapsed : UInt64)
  | ranging (type : AdaptiveIndexType) (startKey endKey : UInt64)
  | migrating (newType : AdaptiveIndexType)
  | checking (newType : AdaptiveIndexType)
  | clearing (newType : AdaptiveIndexType)
  | switching (newType : AdaptiveIndexType)

namespace AdaptivePhase

def resting : AdaptivePhase → Bool
  | .idle => true
  | _ => false

def owesWrite (key : UInt64) (accountId : UInt32) : AdaptivePhase → Bool
  | .inserting _ k id => k == key && id == accountId
  | _ => false

def owesEntry : AdaptivePhase → Bool
  | .inserting _ _ _ => true
  | .countingEntry => true
  | _ => false

def owesQuery : AdaptivePhase → Bool
  | .querying _ _ _ => true
  | .countingQuery _ => true
  | _ => false

def migrates : AdaptivePhase → Bool
  | .migrating _ => true
  | .checking _ => true
  | .clearing _ => true
  | .switching _ => true
  | _ => false

end AdaptivePhase

namespace AdaptiveCalls

variable {S : Type} [IdSet S]

def enter (request : AdaptiveRequest) (s : AdaptiveCalls S) : AdaptivePhase :=
  match request with
  | .insert key accountId => .inserting s.index.indexType key accountId
  | .query key elapsed => .querying s.index.indexType key elapsed
  | .queryRange startKey endKey _ => .ranging s.index.indexType startKey endKey
  | .migrateTo newType => .migrating newType

/-- The next access of a thread to what is behind a lock, and what becomes of it. -/
def next (s : AdaptiveCalls S) : AdaptivePhase → Option (AdaptivePhase × AdaptiveCalls S)
  | .idle => none
  | .inserting type key accountId => some (.countingEntry,
      { s with
        index := s.index.fill type key accountId
        history := s.history ++ [.wrote type.store key accountId] })
  | .countingEntry => some (.idle,
      { s with index := { s.index with stats := AdaptiveIndex.countEntry s.index.stats } })
  | .querying type key elapsed => some (.countingQuery elapsed,
      { s with history := s.history ++ [.answered type (.query key) (s.index.look type key)] })
  | .countingQuery elapsed => some (.idle,
      { s with index := { s.index with stats := AdaptiveIndex.countQuery s.index.stats elapsed } })
  | .ranging type startKey endKey => some (.idle,
      { s with history := s.history ++
        [.answered type (.queryRange startKey endKey) (s.index.lookRange type startKey endKey)] })
  | .migrating newType =>
    if s.migrationLock then none else some (.checking newType, { s with migrationLock := true })
  | .checking newType =>
    if newType = s.index.indexType then some (.idle, { s with migrationLock := false })
    else some (.clearing newType, s)
  | .clearing newType => some (.switching newType,
      { s with index := s.index.clearStore newType.store, history := s.history ++ [.cleared newType.store] })
  | .switching newType => some (.idle,
      { s with index := { s.index with indexType := newType }, migrationLock := false })

def program : Program (AdaptiveCalls S) AdaptivePhase AdaptiveRequest where
  enter := enter
  resting := AdaptivePhase.resting
  advance p s := (s.next p).map fun (q, after) => (q, after, [])

variable (S) in
def start (indexPath : String) (threads : Nat) : Pool (AdaptiveCalls S) AdaptivePhase where
  shared := ⟨.new indexPath, false, []⟩
  phases := List.replicate threads .idle

theorem advance_next {p q : AdaptivePhase} {s after : AdaptiveCalls S} {started : List AdaptivePhase}
    (advanced : program.advance p s = some (q, after, started)) :
    started = [] ∧ s.next p = some (q, after) := by
  obtain ⟨_, moved, same⟩ := Option.map_eq_some_iff.mp advanced
  cases same
  exact ⟨rfl, moved⟩

end AdaptiveCalls

section history

variable {store : AdaptiveStore} {history : List AdaptiveEvent}

@[simp] theorem sinceCleared_wrote (other : AdaptiveStore) (key : UInt64) (accountId : UInt32) :
    sinceCleared store (history ++ [.wrote other key accountId]) =
      if other = store then sinceCleared store history ++ [(key, accountId)] else sinceCleared store history := by
  rw [sinceCleared, List.foldl_append]
  rfl

@[simp] theorem sinceCleared_cleared (other : AdaptiveStore) :
    sinceCleared store (history ++ [.cleared other]) = if other = store then [] else sinceCleared store history := by
  rw [sinceCleared, List.foldl_append]
  rfl

@[simp] theorem sinceCleared_answered (type : AdaptiveIndexType) (question : AdaptiveQuestion)
    (ids : List UInt32) :
    sinceCleared store (history ++ [.answered type question ids]) = sinceCleared store history := by
  rw [sinceCleared, List.foldl_append]
  rfl

/-- Every answer is what was written to the container since it was last cleared. -/
def Explained (history : List AdaptiveEvent) : Prop :=
  ∀ before type question ids after, history = before ++ .answered type question ids :: after →
    ids = question.expected type (sinceCleared type.store before)

theorem explained_nil : Explained [] := by
  intro before type question ids after split
  simp at split

theorem Explained.snoc (explained : Explained history) {event : AdaptiveEvent}
    (own : ∀ type question ids, event = .answered type question ids →
      ids = question.expected type (sinceCleared type.store history)) : Explained (history ++ [event]) := by
  intro before type question ids after split
  induction after using List.reverseRecOn with
  | nil =>
    obtain ⟨rfl, same⟩ := List.append_inj' split rfl
    exact own type question ids (List.cons.inj same).1
  | append_singleton rest last _ =>
    rw [← List.cons_append, ← List.append_assoc] at split
    exact explained before type question ids rest (List.append_inj' split rfl).1

end history

namespace AdaptiveIndex

variable {S : Type} [IdSet S]

theorem push_holds {lists : Std.TreeMap UInt64 (List UInt32)} {pairs : List (UInt64 × UInt32)}
    (held : KeyedLists.Holds lists pairs) (key : UInt64) (accountId : UInt32) :
    KeyedLists.Holds (push lists key accountId) (pairs ++ [(key, accountId)]) :=
  KeyedLists.holds_push held key accountId

theorem idsOf_ascending {bitmap : S} (narrow : ∀ i, IdSet.contains bitmap i = true → i < 2 ^ 32) :
    (idsOf bitmap).Pairwise (· < ·) := by
  refine List.pairwise_map.mpr ((IdSet.iter_ascending bitmap).imp_of_mem fun {i j} first second below => ?_)
  have one := narrow i ((IdSet.mem_iter bitmap i).mp first)
  have two := narrow j ((IdSet.mem_iter bitmap j).mp second)
  rw [UInt32.lt_iff_toNat_lt, UInt32.toNat_ofNat', UInt32.toNat_ofNat', Nat.mod_eq_of_lt one,
    Nat.mod_eq_of_lt two]
  exact below

theorem eq_sorted_dedup {ids others : List UInt32} (ascending : ids.Pairwise (· < ·))
    (same : ∀ id, id ∈ ids ↔ id ∈ others) : ids = others.dedup.mergeSort fun a b => a ≤ b := by
  have sorted : (others.dedup.mergeSort fun a b => a ≤ b).Pairwise fun a b => decide (a ≤ b) = true := by
    refine List.pairwise_mergeSort (fun a b c first second => ?_) (fun a b => ?_) _
    · exact decide_eq_true (UInt32.le_trans (of_decide_eq_true first) (of_decide_eq_true second))
    · simpa using UInt32.le_total a b
  have distinct : (others.dedup.mergeSort fun a b => a ≤ b).Nodup :=
    ((List.mergeSort_perm _ _).nodup_iff).mpr (List.nodup_dedup others)
  have strict := sorted.and distinct
  refine ascending.eq_of_mem_iff (strict.imp fun {a b} both => ?_) fun id => ?_
  · exact UInt32.lt_of_le_of_ne (of_decide_eq_true both.1) both.2
  · rw [List.mem_mergeSort, List.mem_dedup, same]

end AdaptiveIndex

namespace AdaptiveCalls

variable {S : Type} [IdSet S]

structure Follows (s : AdaptiveCalls S) : Prop where
  narrow : AdaptiveIndex.Narrow s.index
  bitmap : ∀ (key : UInt64) (id : UInt32),
    id ∈ (s.index.bitmapIndex[key.toUInt32]?.map AdaptiveIndex.idsOf).getD [] ↔
      ∃ pair ∈ sinceCleared .bitmap s.history, pair.1.toUInt32 = key.toUInt32 ∧ pair.2 = id
  btree : KeyedLists.Holds s.index.btreeIndex (sinceCleared .btree s.history)
  hash : KeyedLists.Holds s.index.hashIndex (sinceCleared .hash s.history)
  explained : Explained s.history

theorem start_follows (indexPath : String) (threads : Nat) : Follows (start S indexPath threads).shared where
  narrow := (AdaptiveIndex.Entered.new indexPath).narrow rfl
  bitmap _ _ := by simp [start, AdaptiveIndex.new, sinceCleared]
  btree := KeyedLists.holds_empty
  hash := KeyedLists.holds_empty
  explained := explained_nil

/-- The statistics, the type and the lock are not read by queries. -/
theorem Follows.same {s t : AdaptiveCalls S} (h : Follows s) (bitmap : t.index.bitmapIndex = s.index.bitmapIndex)
    (btree : t.index.btreeIndex = s.index.btreeIndex) (hash : t.index.hashIndex = s.index.hashIndex)
    (history : t.history = s.history) : Follows t where
  narrow := by
    intro key
    rw [bitmap]
    exact h.narrow key
  bitmap := by
    rw [bitmap, history]
    exact h.bitmap
  btree := by
    rw [btree, history]
    exact h.btree
  hash := by
    rw [hash, history]
    exact h.hash
  explained := history ▸ h.explained

theorem Follows.look {s : AdaptiveCalls S} (h : Follows s) (type : AdaptiveIndexType) (key : UInt64) :
    s.index.look type key = AdaptiveQuestion.expected type (sinceCleared type.store s.history) (.query key) := by
  cases type with
  | bitmap =>
    refine AdaptiveIndex.eq_sorted_dedup ?_ fun id => ?_
    · unfold AdaptiveIndex.look
      cases found : s.index.bitmapIndex[key.toUInt32]? with
      | none => exact List.Pairwise.nil
      | some bitmap => exact AdaptiveIndex.idsOf_ascending (h.narrow key.toUInt32 bitmap found)
    · refine (h.bitmap key id).trans ?_
      simp [AdaptiveIndexType.store, and_assoc]
  | bTree => exact h.btree key
  | hash => exact h.hash key
  | range => exact h.btree key

theorem Follows.lookRange {s : AdaptiveCalls S} (h : Follows s) (type : AdaptiveIndexType)
    (startKey endKey : UInt64) :
    s.index.lookRange type startKey endKey =
      AdaptiveQuestion.expected type (sinceCleared type.store s.history) (.queryRange startKey endKey) := by
  have tree := KeyedLists.range_eq h.btree (AdaptiveIndex.inRange startKey endKey)
  have order (a b : UInt64 × UInt32) : (compare a.1 b.1).isLE = decide (a.1 ≤ b.1) := by
    rw [Bool.eq_iff_iff, decide_eq_true_iff]
    exact Std.isLE_compare
  simp only [order, AdaptiveIndex.inRange] at tree
  cases type with
  | bitmap => rfl
  | bTree => exact tree
  | hash => rfl
  | range => exact tree

/-- A write goes to one container. -/
theorem Follows.wrote {s : AdaptiveCalls S} (h : Follows s) (type : AdaptiveIndexType) (key : UInt64)
    (accountId : UInt32) : Follows { s with
      index := s.index.fill type key accountId
      history := s.history ++ [.wrote type.store key accountId] } := by
  have explained : Explained (s.history ++ [.wrote type.store key accountId]) :=
    h.explained.snoc fun _ _ _ other => nomatch other
  have bits := h.bitmap
  have tree := h.btree
  have table := h.hash
  cases type with
  | bitmap =>
    have narrow := @AdaptiveIndex.Narrow.insert S _ { s.index with indexType := .bitmap } h.narrow key accountId
    refine ⟨narrow, fun other id => ?_, ?_, ?_, explained⟩
    · refine (AdaptiveIndex.mem_setBit s.index.bitmapIndex key other accountId id).trans ?_
      rw [bits other id]
      simp [AdaptiveIndexType.store, or_and_right, exists_or, or_comm, eq_comm]
    · simpa [AdaptiveIndex.fill, AdaptiveIndexType.store] using tree
    · simpa [AdaptiveIndex.fill, AdaptiveIndexType.store] using table
  | bTree =>
    refine ⟨h.narrow, ?_, ?_, ?_, explained⟩
    · simpa [AdaptiveIndex.fill, AdaptiveIndexType.store] using bits
    · simpa [AdaptiveIndex.fill, AdaptiveIndexType.store] using AdaptiveIndex.push_holds tree key accountId
    · simpa [AdaptiveIndex.fill, AdaptiveIndexType.store] using table
  | hash =>
    refine ⟨h.narrow, ?_, ?_, ?_, explained⟩
    · simpa [AdaptiveIndex.fill, AdaptiveIndexType.store] using bits
    · simpa [AdaptiveIndex.fill, AdaptiveIndexType.store] using tree
    · simpa [AdaptiveIndex.fill, AdaptiveIndexType.store] using AdaptiveIndex.push_holds table key accountId
  | range =>
    refine ⟨h.narrow, ?_, ?_, ?_, explained⟩
    · simpa [AdaptiveIndex.fill, AdaptiveIndexType.store] using bits
    · simpa [AdaptiveIndex.fill, AdaptiveIndexType.store] using AdaptiveIndex.push_holds tree key accountId
    · simpa [AdaptiveIndex.fill, AdaptiveIndexType.store] using table

theorem Follows.cleared {s : AdaptiveCalls S} (h : Follows s) (store : AdaptiveStore) :
    Follows { s with index := s.index.clearStore store, history := s.history ++ [.cleared store] } := by
  have explained : Explained (s.history ++ [.cleared store]) :=
    h.explained.snoc fun _ _ _ other => nomatch other
  have bits := h.bitmap
  have tree := h.btree
  have table := h.hash
  cases store with
  | bitmap =>
    refine ⟨fun key bitmap held => ?_, ?_, ?_, ?_, explained⟩
    · simp [AdaptiveIndex.clearStore] at held
    · simp [AdaptiveIndex.clearStore]
    · simpa [AdaptiveIndex.clearStore] using tree
    · simpa [AdaptiveIndex.clearStore] using table
  | btree =>
    refine ⟨h.narrow, ?_, ?_, ?_, explained⟩
    · simpa [AdaptiveIndex.clearStore] using bits
    · simpa [AdaptiveIndex.clearStore] using KeyedLists.holds_empty
    · simpa [AdaptiveIndex.clearStore] using table
  | hash =>
    refine ⟨h.narrow, ?_, ?_, ?_, explained⟩
    · simpa [AdaptiveIndex.clearStore] using bits
    · simpa [AdaptiveIndex.clearStore] using tree
    · simpa [AdaptiveIndex.clearStore] using KeyedLists.holds_empty

theorem Follows.answered {s : AdaptiveCalls S} (h : Follows s) {type : AdaptiveIndexType}
    {question : AdaptiveQuestion} {ids : List UInt32}
    (exact : ids = question.expected type (sinceCleared type.store s.history)) :
    Follows { s with history := s.history ++ [.answered type question ids] } where
  narrow := h.narrow
  bitmap := by simpa using h.bitmap
  btree := by simpa using h.btree
  hash := by simpa using h.hash
  explained := h.explained.snoc fun _ _ _ same => by
    cases same
    exact exact

theorem Follows.next {s t : AdaptiveCalls S} (h : Follows s) {p q : AdaptivePhase}
    (moved : s.next p = some (q, t)) : Follows t := by
  cases p with
  | idle => cases moved
  | inserting type key accountId =>
    cases moved
    exact h.wrote type key accountId
  | countingEntry =>
    cases moved
    exact h.same rfl rfl rfl rfl
  | querying type key elapsed =>
    cases moved
    exact h.answered (h.look type key)
  | countingQuery elapsed =>
    cases moved
    exact h.same rfl rfl rfl rfl
  | ranging type startKey endKey =>
    cases moved
    exact h.answered (h.lookRange type startKey endKey)
  | migrating newType =>
    simp only [AdaptiveCalls.next] at moved
    split at moved
    · cases moved
    · cases moved
      exact h.same rfl rfl rfl rfl
  | checking newType =>
    simp only [AdaptiveCalls.next] at moved
    split at moved
    · cases moved
      exact h.same rfl rfl rfl rfl
    · cases moved
      exact h
  | clearing newType =>
    cases moved
    exact h.cleared newType.store
  | switching newType =>
    cases moved
    exact h.same rfl rfl rfl rfl

theorem reached_follows {indexPath : String} {threads : Nat} {moves : List (Move AdaptiveRequest)}
    {t : Pool (AdaptiveCalls S) AdaptivePhase}
    (ran : Run (ofPartial program.step) (start S indexPath threads) moves t) : Follows t.shared := by
  refine run_invariant (fun t => Follows t.shared) ?_ (start_follows indexPath threads) ran
  intro s a u h moved
  cases a with
  | call i request =>
    obtain ⟨_, _, _, rfl⟩ := Program.step_call.mp moved
    exact h
  | advance i =>
    obtain ⟨_, _, _, _, _, advanced, rfl⟩ := Program.step_advance.mp moved
    exact h.next (advance_next advanced).2

theorem start_settled (indexPath : String) (threads : Nat) : (start S indexPath threads).Settled program := by
  intro p member
  rw [List.eq_of_mem_replicate member]
  rfl

/-- Once every thread rests, every insert has written its pair once, and the statistics
count the inserts and the queries. -/
structure Counted (s : AdaptiveCalls S) (moves : List (Move AdaptiveRequest)) : Prop where
  written : ∀ key accountId, s.history.countP (AdaptiveEvent.writes key accountId) =
    moves.countP (Move.counts (AdaptiveRequest.inserts key accountId))
  entries : s.index.stats.entryCount = .ofNat (moves.countP (Move.counts AdaptiveRequest.isInsert))
  queries : s.index.stats.queryCount = .ofNat (moves.countP (Move.counts AdaptiveRequest.isQuery))

/-- A migration writes nothing and counts nothing. -/
theorem next_migrates {s t : AdaptiveCalls S} {p q : AdaptivePhase} (migrates : p.migrates = true)
    (moved : s.next p = some (q, t)) : (q.migrates = true ∨ q = .idle) ∧ t.index.stats = s.index.stats ∧
      ∀ key accountId, t.history.countP (AdaptiveEvent.writes key accountId) =
        s.history.countP (AdaptiveEvent.writes key accountId) := by
  cases p with
  | migrating newType =>
    simp only [next] at moved
    split at moved
    · cases moved
    · cases moved
      exact ⟨.inl rfl, rfl, fun _ _ => rfl⟩
  | checking newType =>
    simp only [next] at moved
    split at moved
    · cases moved
      exact ⟨.inr rfl, rfl, fun _ _ => rfl⟩
    · cases moved
      exact ⟨.inl rfl, rfl, fun _ _ => rfl⟩
  | clearing newType =>
    cases moved
    refine ⟨.inl rfl, ?_, fun key accountId => ?_⟩
    · cases newType <;> rfl
    · simp [AdaptiveEvent.writes]
  | switching newType =>
    cases moved
    exact ⟨.inr rfl, rfl, fun _ _ => rfl⟩
  | idle => cases migrates
  | inserting _ _ _ => cases migrates
  | countingEntry => cases migrates
  | querying _ _ _ => cases migrates
  | countingQuery _ => cases migrates
  | ranging _ _ _ => cases migrates

theorem owes_none {owes : AdaptivePhase → Bool} (idle : owes .idle = false)
    (migrating : ∀ p : AdaptivePhase, p.migrates = true → owes p = false) {p : AdaptivePhase}
    (here : p.migrates = true ∨ p = .idle) : owes p = false := by
  obtain migrates | rfl := here
  · exact migrating p migrates
  · exact idle

/-- Only the steps of inserts and queries need be looked at when calls are counted. -/
theorem calls_paid (owes : AdaptivePhase → Bool) {opens : AdaptiveRequest → Bool}
    (paid : AdaptiveCalls S → Nat → Prop)
    (idle : owes .idle = false) (migrating : ∀ p : AdaptivePhase, p.migrates = true → owes p = false)
    (enter : ∀ request (s : AdaptiveCalls S), owes (enter request s) = opens request)
    (same : ∀ {s t : AdaptiveCalls S} {n}, t.index.stats = s.index.stats →
      (∀ key accountId, t.history.countP (AdaptiveEvent.writes key accountId) =
        s.history.countP (AdaptiveEvent.writes key accountId)) → paid s n → paid t n)
    (write : ∀ {s t : AdaptiveCalls S} {type key accountId n},
      s.next (.inserting type key accountId) = some (.countingEntry, t) → paid s n →
        ∃ m, paid t m ∧ (owes .countingEntry).toNat + m = (owes (.inserting type key accountId)).toNat + n)
    (entry : ∀ {s t : AdaptiveCalls S} {n}, s.next .countingEntry = some (.idle, t) → paid s n →
      ∃ m, paid t m ∧ m = (owes .countingEntry).toNat + n)
    (answered : ∀ type key elapsed, owes (.countingQuery elapsed) = owes (.querying type key elapsed))
    (query : ∀ {s t : AdaptiveCalls S} {elapsed n}, s.next (.countingQuery elapsed) = some (.idle, t) → paid s n →
      ∃ m, paid t m ∧ m = (owes (.countingQuery elapsed)).toNat + n)
    (ranged : ∀ type startKey endKey, owes (.ranging type startKey endKey) = false)
    {indexPath : String} {threads : Nat} {moves : List (Move AdaptiveRequest)}
    {t : Pool (AdaptiveCalls S) AdaptivePhase}
    (ran : Run (ofPartial program.step) (start S indexPath threads) moves t) (settled : t.Settled program)
    (initial : paid (start S indexPath threads).shared 0) : paid t.shared (moves.countP (Move.counts opens)) := by
  refine Program.settled_calls_paid owes paid ?_ enter ?_ ran (start_settled indexPath threads) settled initial
  · intro p rests
    cases p with
    | idle => exact idle
    | _ => cases rests
  · intro p q s after started n advanced before
    obtain ⟨rfl, moved⟩ := advance_next advanced
    simp only [total, List.map_nil, List.sum_nil, Nat.add_zero]
    cases p with
    | idle => cases moved
    | inserting type key accountId =>
      have shape := moved
      cases shape
      exact write moved before
    | countingEntry =>
      have shape := moved
      cases shape
      simpa [idle] using entry moved before
    | querying type key elapsed =>
      cases moved
      exact ⟨n, same (s := s) rfl (fun _ _ => by simp [AdaptiveEvent.writes]) before,
        by rw [answered type key elapsed]⟩
    | countingQuery elapsed =>
      have shape := moved
      cases shape
      simpa [idle] using query moved before
    | ranging type startKey endKey =>
      cases moved
      exact ⟨n, same (s := s) rfl (fun _ _ => by simp [AdaptiveEvent.writes]) before, by rw [idle, ranged]⟩
    | _ =>
      obtain ⟨there, stats, writes⟩ := next_migrates rfl moved
      exact ⟨n, same stats writes before, by rw [owes_none idle migrating there, migrating _ rfl]⟩

section settled

variable {indexPath : String} {threads : Nat} {moves : List (Move AdaptiveRequest)}
  {t : Pool (AdaptiveCalls S) AdaptivePhase}

theorem written_once (ran : Run (ofPartial program.step) (start S indexPath threads) moves t)
    (settled : t.Settled program) (key : UInt64) (accountId : UInt32) :
    t.shared.history.countP (AdaptiveEvent.writes key accountId) =
      moves.countP (Move.counts (AdaptiveRequest.inserts key accountId)) := by
  refine calls_paid (AdaptivePhase.owesWrite key accountId)
    (fun s n => s.history.countP (AdaptiveEvent.writes key accountId) = n) rfl ?_ ?_ ?_ ?_ ?_ (fun _ _ _ => rfl) ?_
    (fun _ _ _ => rfl) ran settled rfl
  · intro p migrates
    cases p <;> first | rfl | cases migrates
  · intro request s
    cases request <;> rfl
  · intro s t n _ writes before
    exact (writes key accountId).trans before
  · rintro s t type k id _ moved rfl
    cases moved
    refine ⟨_, rfl, ?_⟩
    cases wrote : k == key && id == accountId <;>
      simp [AdaptivePhase.owesWrite, AdaptiveEvent.writes, wrote, Nat.add_comm]
  · rintro s t _ moved rfl
    cases moved
    exact ⟨_, rfl, (Nat.zero_add _).symm⟩
  · rintro s t elapsed _ moved rfl
    cases moved
    exact ⟨_, rfl, (Nat.zero_add _).symm⟩

theorem entries_counted (ran : Run (ofPartial program.step) (start S indexPath threads) moves t)
    (settled : t.Settled program) :
    t.shared.index.stats.entryCount = .ofNat (moves.countP (Move.counts AdaptiveRequest.isInsert)) := by
  refine calls_paid AdaptivePhase.owesEntry (fun s n => s.index.stats.entryCount = .ofNat n)
    rfl ?_ ?_ ?_ ?_ ?_ (fun _ _ _ => rfl) ?_ (fun _ _ _ => rfl) ran settled rfl
  · intro p migrates
    cases p <;> first | rfl | cases migrates
  · intro request s
    cases request <;> rfl
  · intro s t n stats _ before
    exact stats ▸ before
  · intro s t type k id n moved before
    cases moved
    exact ⟨n, (AdaptiveIndex.stats_fill s.index type k id).symm ▸ before, rfl⟩
  · intro s t n moved before
    cases moved
    refine ⟨n + 1, ?_, Nat.add_comm n 1⟩
    rw [UInt64.ofNat_add, ← before]
    rfl
  · intro s t elapsed n moved before
    cases moved
    exact ⟨n, before, (Nat.zero_add n).symm⟩

theorem queries_counted (ran : Run (ofPartial program.step) (start S indexPath threads) moves t)
    (settled : t.Settled program) :
    t.shared.index.stats.queryCount = .ofNat (moves.countP (Move.counts AdaptiveRequest.isQuery)) := by
  refine calls_paid AdaptivePhase.owesQuery (fun s n => s.index.stats.queryCount = .ofNat n)
    rfl ?_ ?_ ?_ ?_ ?_ (fun _ _ _ => rfl) ?_ (fun _ _ _ => rfl) ran settled rfl
  · intro p migrates
    cases p <;> first | rfl | cases migrates
  · intro request s
    cases request <;> rfl
  · intro s t n stats _ before
    exact stats ▸ before
  · intro s t type k id n moved before
    cases moved
    exact ⟨n, (AdaptiveIndex.stats_fill s.index type k id).symm ▸ before, rfl⟩
  · intro s t n moved before
    cases moved
    exact ⟨n, before, (Nat.zero_add n).symm⟩
  · intro s t elapsed n moved before
    cases moved
    refine ⟨n + 1, ?_, Nat.add_comm n 1⟩
    rw [UInt64.ofNat_add, ← before]
    rfl

/-- Whatever calls come between, a query answers with what was written, since it was last
cleared, to the container of the type it read. Every insert writes its pair once,
wherever that goes, and the statistics count every insert and every query for a key. -/
theorem answers_follow_writes (ran : Run (ofPartial program.step) (start S indexPath threads) moves t) :
    Explained t.shared.history ∧ (t.Settled program → Counted t.shared moves) :=
  ⟨(reached_follows ran).explained, fun settled =>
    ⟨written_once ran settled, entries_counted ran settled, queries_counted ran settled⟩⟩

end settled

/-- The insert reads the type before a migration to the B-tree, writes after it, and a
migration back clears the bitmaps. -/
theorem insert_between_migrations :
    let moves : List (Move AdaptiveRequest) := [.call 0 (.insert 1 7), .call 1 (.migrateTo .bTree)] ++
      List.replicate 4 (.advance 1) ++ [.advance 0, .call 1 (.migrateTo .bitmap)] ++
      List.replicate 4 (.advance 1) ++ [.advance 0, .call 1 (.query 1 0), .advance 1, .advance 1]
    ∃ t : Pool (AdaptiveCalls SortedIds) AdaptivePhase,
      Run (ofPartial program.step) (start SortedIds "x.idx" 2) moves t ∧ t.Settled program ∧
        t.shared.index.found 1 = [] ∧ Explained t.shared.history ∧ Counted t.shared moves := by
  intro moves
  have outcome : (moves.foldlM program.step (start SortedIds "x.idx" 2)).map (fun t =>
      (t.phases.all AdaptivePhase.resting, t.shared.index.found 1)) = some (true, []) := by decide +kernel
  obtain ⟨t, folded, final⟩ := Option.map_eq_some_iff.mp outcome
  obtain ⟨resting, lost⟩ := Prod.mk.inj final
  have ran := (run_ofPartial _ _ _ _).mpr folded
  have settled : t.Settled program := List.all_eq_true.mp resting
  obtain ⟨explained, counted⟩ := answers_follow_writes ran
  exact ⟨t, ran, settled, lost, explained, counted settled⟩

section alone

variable (s : AdaptiveCalls S)

/-- Calls that no other thread interrupts are the methods. -/
theorem alone_insert (key : UInt64) (accountId : UInt32) :
    Run (ofPartial program.step) ⟨s, [.idle]⟩ [.call 0 (.insert key accountId), .advance 0, .advance 0]
      ⟨{ s with
          index := s.index.insert key accountId
          history := s.history ++ [.wrote s.index.indexType.store key accountId] }, [.idle]⟩ := by
  rw [AdaptiveIndex.insert_fill, ← AdaptiveIndex.stats_fill s.index s.index.indexType key accountId]
  exact (run_ofPartial _ _ _ _).mpr rfl

theorem alone_query (key elapsed : UInt64) :
    Run (ofPartial program.step) ⟨s, [.idle]⟩ [.call 0 (.query key elapsed), .advance 0, .advance 0]
      ⟨{ s with
          index := (s.index.query key elapsed).2
          history := s.history ++
            [.answered s.index.indexType (.query key) (s.index.query key elapsed).1] }, [.idle]⟩ :=
  (run_ofPartial _ _ _ _).mpr rfl

theorem alone_migrateTo (free : s.migrationLock = false) (newType : AdaptiveIndexType) : ∃ steps history,
    Run (ofPartial program.step) ⟨s, [.idle]⟩
      (.call 0 (.migrateTo newType) :: List.replicate steps (.advance 0))
      ⟨{ s with index := s.index.migrateTo newType, history := history }, [.idle]⟩ := by
  by_cases same : newType = s.index.indexType
  · refine ⟨2, s.history, (run_ofPartial _ _ _ _).mpr ?_⟩
    simp [program, Program.step, AdaptivePhase.resting, enter, next, free, same, AdaptiveIndex.migrateTo]
  · refine ⟨4, s.history ++ [.cleared newType.store], (run_ofPartial _ _ _ _).mpr ?_⟩
    rw [AdaptiveIndex.migrateTo_clearStore s.index same]
    simp [program, Program.step, AdaptivePhase.resting, enter, next, free, same]

end alone

end AdaptiveCalls

end Hyperplane
