import Hyperplane.Lib.LockOrder

/-! What the calls of the components that have more than one lock do to their locks:
which guards are held while which others are taken. Branches of a call are told by its
arguments; instances are told apart by numbers. -/
namespace Hyperplane
open Threads Transition

/-- The locks of one LSM bitmap, outermost first. -/
inductive LsmLock where
  | base
  | deltas
  | compactionCounter
  | compactionInProgress
  deriving DecidableEq

def LsmLock.level : LsmLock → Nat
  | .base => 0
  | .deltas => 1
  | .compactionCounter => 2
  | .compactionInProgress => 3

namespace LsmLock

variable {L : Type} (own : LsmLock → L)

def shouldCompact : Script L :=
  locked (own .deltas) .read
    (locked (own .compactionCounter) .read [] ++ locked (own .compactionInProgress) .read [])

/-- The counter is raised under the guard of the deltas. -/
def insert (compacts : Bool) : Script L :=
  locked (own .deltas) .write (locked (own .compactionCounter) .write []) ++ shouldCompact own ++
    if compacts then locked (own .compactionInProgress) .write [] else []

def remove : Script L := locked (own .base) .write [] ++ locked (own .deltas) .read []

def query : Script L := locked (own .base) .read (locked (own .deltas) .read [])

def contains (inDelta : Bool) : Script L :=
  locked (own .deltas) .read [] ++ if inDelta then [] else locked (own .base) .read []

/-- The last guard is a temporary of the expression that is returned, and so outlives
the others. -/
def stats : Script L :=
  [.acquire (own .base) .read, .acquire (own .deltas) .read, .acquire (own .compactionInProgress) .read,
    .release (own .deltas) .read, .release (own .base) .read, .release (own .compactionInProgress) .read]

def compact : Script L :=
  locked (own .base) .read [] ++ locked (own .deltas) .write [] ++ locked (own .base) .write [] ++
    locked (own .compactionCounter) .write []

/-- What the thread does that trigger_compaction_async starts. -/
def compaction : Script L := compact own ++ locked (own .compactionInProgress) .write []

inductive Call where
  | insert (compacts : Bool)
  | remove
  | query
  | contains (inDelta : Bool)
  | stats
  | compact
  | compaction

def script : Call → Script L
  | .insert compacts => insert own compacts
  | .remove => remove own
  | .query => query own
  | .contains inDelta => contains own inDelta
  | .stats => stats own
  | .compact => compact own
  | .compaction => compaction own

section nested

variable [DecidableEq L] {own} {rank : L → Nat} {base : Nat} (placed : ∀ lock, rank (own lock) = base + level lock)

include placed

theorem shouldCompact_nested : Nested rank (base + 0) (shouldCompact own) :=
  nested_own placed ((nested_own placed nested_nil).append (nested_own placed nested_nil))

theorem insert_nested (compacts : Bool) : Nested rank (base + 0) (insert own compacts) := by
  refine ((nested_own placed (nested_own placed nested_nil)).append (shouldCompact_nested placed)).append ?_
  split
  · exact nested_own placed nested_nil
  · exact nested_nil

theorem query_nested : Nested rank (base + 0) (query own) :=
  nested_own placed (nested_own placed nested_nil)

theorem stats_nested : Nested rank (base + 0) (stats own) := by
  intro held rest below follows
  have first : rank (own .base) = base := placed .base
  have second : rank (own .deltas) = base + 1 := placed .deltas
  have third : rank (own .compactionInProgress) = base + 3 := placed .compactionInProgress
  have apart (lock other : LsmLock) (ranks : rank (own lock) ≠ rank (own other)) :
      (own lock, LockMode.read) ≠ (own other, .read) := fun same => ranks (congrArg (rank ∘ Prod.fst) same)
  have deltas := apart .compactionInProgress .deltas (by omega)
  have outer := apart .compactionInProgress .base (by omega)
  have higher (n : Nat) : ∀ guard ∈ held, rank guard.1 < base + n :=
    fun guard member => Nat.lt_add_right n (below guard member)
  refine ⟨?_, ?_, ?_, by simp, ?_⟩
  · exact first ▸ below
  · exact second ▸ List.forall_mem_cons.mpr ⟨by simp [first], higher 1⟩
  · exact third ▸ List.forall_mem_cons.mpr ⟨by simp [second], List.forall_mem_cons.mpr ⟨by simp [first], higher 3⟩⟩
  rw [List.erase_cons_tail (by simpa using deltas), List.erase_cons_head]
  refine ⟨by simp, ?_⟩
  rw [List.erase_cons_tail (by simpa using outer), List.erase_cons_head]
  refine ⟨List.mem_cons_self, ?_⟩
  rwa [List.erase_cons_head]

theorem compact_nested : Nested rank (base + 0) (compact own) :=
  (((nested_own placed nested_nil).append (nested_own placed nested_nil)).append
    (nested_own placed nested_nil)).append (nested_own placed nested_nil)

theorem script_nested (call : Call) : Nested rank (base + 0) (script own call) := by
  cases call with
  | insert compacts => exact insert_nested placed compacts
  | remove => exact (nested_own placed nested_nil).append (nested_own placed nested_nil)
  | query => exact query_nested placed
  | contains inDelta =>
    refine (nested_own placed nested_nil).append ?_
    split
    · exact nested_nil
    · exact nested_own placed nested_nil
  | stats => exact stats_nested placed
  | compact => exact compact_nested placed
  | compaction => exact (compact_nested placed).append (nested_own placed nested_nil)

end nested

end LsmLock

/-- The locks of one tiered index; its tiers are numbered hot, warm, cold. -/
inductive TieredLock where
  | currentSlot
  | metadata
  | tier (i : Fin 3) (lock : LsmLock)
  deriving DecidableEq

def TieredLock.level : TieredLock → Nat
  | .currentSlot | .metadata => 0
  | .tier _ lock => lock.level

namespace TieredLock

variable {L : Type} (own : TieredLock → L)

def setCurrentSlot : Script L := locked (own .currentSlot) .write []

/-- New accounts go to the hot tier. -/
def insertAccount (compacts : Bool) : Script L :=
  locked (own .currentSlot) .read [] ++ LsmLock.insert (fun lock => own (.tier 0 lock)) compacts ++
    locked (own .metadata) .write []

def accessAccount : Script L := locked (own .currentSlot) .read [] ++ locked (own .metadata) .write []

def queryTier (i : Fin 3) : Script L := LsmLock.query fun lock => own (.tier i lock)

def queryAll : Script L := queryTier own 0 ++ queryTier own 1 ++ queryTier own 2

def statsTier (i : Fin 3) : Script L := LsmLock.stats fun lock => own (.tier i lock)

def stats : Script L :=
  statsTier own 0 ++ statsTier own 1 ++ statsTier own 2 ++ locked (own .metadata) .read []

def promoteToHot (compacts : Bool) : Script L := LsmLock.insert (fun lock => own (.tier 0 lock)) compacts

inductive Call where
  | setCurrentSlot
  | insertAccount (compacts : Bool)
  | accessAccount
  | queryTier (i : Fin 3)
  | queryAll
  | stats
  | promoteToHot (compacts : Bool)
  | compaction (i : Fin 3)

def script : Call → Script L
  | .setCurrentSlot => setCurrentSlot own
  | .insertAccount compacts => insertAccount own compacts
  | .accessAccount => accessAccount own
  | .queryTier i => queryTier own i
  | .queryAll => queryAll own
  | .stats => stats own
  | .promoteToHot compacts => promoteToHot own compacts
  | .compaction i => LsmLock.compaction fun lock => own (.tier i lock)

section nested

variable [DecidableEq L] {own} {rank : L → Nat} {base : Nat} (placed : ∀ lock, rank (own lock) = base + level lock)

include placed

theorem setCurrentSlot_nested : Nested rank (base + 0) (setCurrentSlot own) := nested_own placed nested_nil

theorem queryTier_nested (i : Fin 3) : Nested rank (base + 0) (queryTier own i) :=
  LsmLock.query_nested fun lock => placed (.tier i lock)

theorem statsTier_nested (i : Fin 3) : Nested rank (base + 0) (statsTier own i) :=
  LsmLock.stats_nested fun lock => placed (.tier i lock)

theorem stats_nested : Nested rank (base + 0) (stats own) :=
  (((statsTier_nested placed 0).append (statsTier_nested placed 1)).append (statsTier_nested placed 2)).append
    (nested_own placed nested_nil)

theorem script_nested (call : Call) : Nested rank (base + 0) (script own call) := by
  have tier (i : Fin 3) (lock : LsmLock) := placed (.tier i lock)
  cases call with
  | setCurrentSlot => exact setCurrentSlot_nested placed
  | insertAccount compacts =>
    exact ((nested_own placed nested_nil).append (LsmLock.insert_nested (tier 0) compacts)).append
      (nested_own placed nested_nil)
  | accessAccount => exact (nested_own placed nested_nil).append (nested_own placed nested_nil)
  | queryTier i => exact queryTier_nested placed i
  | queryAll =>
    exact ((queryTier_nested placed 0).append (queryTier_nested placed 1)).append (queryTier_nested placed 2)
  | stats => exact stats_nested placed
  | promoteToHot compacts => exact LsmLock.insert_nested (tier 0) compacts
  | compaction i => exact LsmLock.script_nested (tier i) .compaction

end nested

end TieredLock

inductive HotColdLock where
  | currentSlot
  | programIndexes
  | index (i : Nat) (lock : TieredLock)
  deriving DecidableEq

def HotColdLock.level : HotColdLock → Nat
  | .currentSlot => 0
  | .programIndexes => 1
  | .index _ lock => 2 + lock.level

namespace HotColdLock

variable {L : Type} (own : HotColdLock → L)

/-- The slots of all indexes in the map are set under its guard. -/
def updateSlot (indexes : List Nat) : Script L :=
  locked (own .currentSlot) .write [] ++ locked (own .programIndexes) .read
    (indexes.flatMap fun i => TieredLock.setCurrentSlot fun lock => own (.index i lock))

/-- The guard of the slot lives to the end of the statement that sets the slot of the
new index. -/
def getOrCreateIndex (found : Bool) (new : Nat) : Script L :=
  locked (own .programIndexes) .read [] ++ if found then [] else
    locked (own .currentSlot) .read (TieredLock.setCurrentSlot fun lock => own (.index new lock)) ++
      locked (own .programIndexes) .write []

def globalStats (indexes : List Nat) : Script L :=
  locked (own .programIndexes) .read
    (indexes.flatMap fun i => TieredLock.stats fun lock => own (.index i lock))

inductive Call where
  | updateSlot (indexes : List Nat)
  | getOrCreateIndex (found : Bool) (new : Nat)
  | globalStats (indexes : List Nat)
  | onIndex (i : Nat) (call : TieredLock.Call)

def script : Call → Script L
  | .updateSlot indexes => updateSlot own indexes
  | .getOrCreateIndex found new => getOrCreateIndex own found new
  | .globalStats indexes => globalStats own indexes
  | .onIndex i call => TieredLock.script (fun lock => own (.index i lock)) call

theorem script_nested [DecidableEq L] {own : HotColdLock → L} {rank : L → Nat} {base : Nat}
    (placed : ∀ lock, rank (own lock) = base + level lock) (call : Call) :
    Nested rank (base + 0) (script own call) := by
  have index (i : Nat) (lock : TieredLock) : rank (own (.index i lock)) = base + 2 + lock.level := by
    rw [placed, level, Nat.add_assoc]
  cases call with
  | updateSlot indexes =>
    refine (nested_own placed nested_nil).append (nested_own placed (nested_flatMap fun i _ => ?_))
    exact TieredLock.setCurrentSlot_nested (index i)
  | getOrCreateIndex found new =>
    refine (nested_own placed nested_nil).append ?_
    split
    · exact nested_nil
    · refine (nested_own placed ?_).append (nested_own placed nested_nil)
      exact (TieredLock.setCurrentSlot_nested (index new)).mono (Nat.add_le_add_left (by decide) base)
  | globalStats indexes =>
    exact nested_own placed (nested_flatMap fun i _ => TieredLock.stats_nested (index i))
  | onIndex i call =>
    exact (TieredLock.script_nested (index i) call).mono (Nat.add_le_add_left (Nat.zero_le _) base)

end HotColdLock

/-- The locks of one adaptive index. A store is one of the three maps. -/
inductive AdaptiveLock where
  | migrationLock
  | stats
  | indexType
  | store (i : Fin 3)
  deriving DecidableEq

def AdaptiveLock.level : AdaptiveLock → Nat
  | .migrationLock => 0
  | .stats => 1
  | .indexType => 2
  | .store _ => 3

namespace AdaptiveLock

variable {L : Type} (own : AdaptiveLock → L)

def insert (map : Fin 3) : Script L :=
  locked (own .indexType) .read [] ++ locked (own (.store map)) .write [] ++ locked (own .stats) .write []

def query (map : Fin 3) : Script L :=
  locked (own .indexType) .read [] ++ locked (own (.store map)) .read [] ++ locked (own .stats) .write []

/-- The second map is the B-tree. -/
def queryRange (ordered : Bool) : Script L :=
  locked (own .indexType) .read [] ++ if ordered then locked (own (.store 1)) .read [] else []

def countUniqueKeys (map : Fin 3) : Script L :=
  locked (own .indexType) .read [] ++ locked (own (.store map)) .read []

/-- The type is read again for each of the conditions that holds, all of it under the
guard of the statistics. -/
def evaluateMigration (few : Bool) (map : Fin 3) (conditions : Nat) : Script L :=
  locked (own .stats) .read (if few then [] else
    countUniqueKeys own map ++ (List.range conditions).flatMap fun _ => locked (own .indexType) .read [])

/-- A mutex is a lock that is only written. -/
def migrateTo (same : Bool) (map : Fin 3) : Script L :=
  locked (own .migrationLock) .write (locked (own .indexType) .read [] ++ if same then [] else
    locked (own (.store map)) .write [] ++ locked (own .indexType) .write [])

inductive Call where
  | insert (map : Fin 3)
  | query (map : Fin 3)
  | queryRange (ordered : Bool)
  | evaluateMigration (few : Bool) (map : Fin 3) (conditions : Nat)
  | migrateTo (same : Bool) (map : Fin 3)
  | readStats
  | readType

def script : Call → Script L
  | .insert map => insert own map
  | .query map => query own map
  | .queryRange ordered => queryRange own ordered
  | .evaluateMigration few map conditions => evaluateMigration own few map conditions
  | .migrateTo same map => migrateTo own same map
  | .readStats => locked (own .stats) .read []
  | .readType => locked (own .indexType) .read []

section nested

variable [DecidableEq L] {own} {rank : L → Nat} {base : Nat} (placed : ∀ lock, rank (own lock) = base + level lock)

include placed

theorem store_nested (map : Fin 3) (mode : LockMode) {n : Nat} (below : n ≤ 3 := by decide) :
    Nested rank (base + n) (locked (own (.store map)) mode []) :=
  nested_own placed nested_nil below

theorem evaluateMigration_nested (few : Bool) (map : Fin 3) (conditions : Nat) :
    Nested rank (base + 0) (evaluateMigration own few map conditions) := by
  refine nested_own placed ?_
  split
  · exact nested_nil
  · exact ((nested_own placed nested_nil).append (store_nested placed map .read)).append
      (nested_flatMap fun _ _ => nested_own placed nested_nil)

theorem migrateTo_nested (same : Bool) (map : Fin 3) :
    Nested rank (base + 0) (migrateTo own same map) := by
  refine nested_own placed ((nested_own placed nested_nil).append ?_)
  split
  · exact nested_nil
  · exact (store_nested placed map .write).append (nested_own placed nested_nil)

theorem script_nested (call : Call) : Nested rank (base + 0) (script own call) := by
  cases call with
  | insert map | query map =>
    exact ((nested_own placed nested_nil).append (store_nested placed map _)).append
      (nested_own placed nested_nil)
  | queryRange ordered =>
    refine (nested_own placed nested_nil).append ?_
    split
    · exact store_nested placed 1 .read
    · exact nested_nil
  | evaluateMigration few map conditions => exact evaluateMigration_nested placed few map conditions
  | migrateTo same map => exact migrateTo_nested placed same map
  | readStats | readType => exact nested_own placed nested_nil

end nested

end AdaptiveLock

inductive AdaptiveManagerLock where
  | indexes
  | index (i : Nat) (lock : AdaptiveLock)
  deriving DecidableEq

def AdaptiveManagerLock.level : AdaptiveManagerLock → Nat
  | .indexes => 0
  | .index _ lock => 1 + lock.level

/-- What an evaluation finds and what the migration after it finds, if there is one. -/
structure Adaptation where
  index : Nat
  few : Bool
  store : Fin 3
  conditions : Nat
  migrates : Option (Bool × Fin 3)

namespace AdaptiveManagerLock

variable {L : Type} (own : AdaptiveManagerLock → L)

def getOrCreateIndex (found : Bool) : Script L :=
  locked (own .indexes) .read [] ++ if found then [] else locked (own .indexes) .write []

/-- One round of the adaptation loop, under the guard of the map. -/
def adaptationRound (adaptations : List Adaptation) : Script L :=
  locked (own .indexes) .read (adaptations.flatMap fun a =>
    AdaptiveLock.evaluateMigration (fun lock => own (.index a.index lock)) a.few a.store a.conditions ++
      match a.migrates with
      | some (same, store) => AdaptiveLock.migrateTo (fun lock => own (.index a.index lock)) same store
      | none => [])

inductive Call where
  | getOrCreateIndex (found : Bool)
  | adaptationRound (adaptations : List Adaptation)
  | onIndex (i : Nat) (call : AdaptiveLock.Call)

def script : Call → Script L
  | .getOrCreateIndex found => getOrCreateIndex own found
  | .adaptationRound adaptations => adaptationRound own adaptations
  | .onIndex i call => AdaptiveLock.script (fun lock => own (.index i lock)) call

theorem script_nested [DecidableEq L] {own : AdaptiveManagerLock → L} {rank : L → Nat} {base : Nat}
    (placed : ∀ lock, rank (own lock) = base + level lock) (call : Call) :
    Nested rank (base + 0) (script own call) := by
  have index (i : Nat) (lock : AdaptiveLock) : rank (own (.index i lock)) = base + 1 + lock.level := by
    rw [placed, level, Nat.add_assoc]
  cases call with
  | getOrCreateIndex found =>
    refine (nested_own placed nested_nil).append ?_
    split
    · exact nested_nil
    · exact nested_own placed nested_nil
  | adaptationRound adaptations =>
    refine nested_own placed (nested_flatMap fun a _ => ?_)
    refine (AdaptiveLock.evaluateMigration_nested (index a.index) a.few a.store a.conditions).append ?_
    split
    · exact AdaptiveLock.migrateTo_nested (index a.index) _ _
    · exact nested_nil
  | onIndex i call =>
    exact (AdaptiveLock.script_nested (index i) call).mono (Nat.add_le_add_left (Nat.zero_le _) base)

end AdaptiveManagerLock

/-- The locks of the query cache; its first two levels each have two. -/
inductive QueryCacheLock where
  | entries (level : Fin 2)
  | currentSize (level : Fin 2)
  | metadata
  | currentSlot
  | hits
  | misses
  deriving DecidableEq

def QueryCacheLock.level : QueryCacheLock → Nat
  | .entries _ | .metadata | .currentSlot | .hits => 0
  | .currentSize _ | .misses => 1

namespace QueryCacheLock

variable {L : Type} (own : QueryCacheLock → L)

def insertLevel (level : Fin 2) : Script L :=
  locked (own (.entries level)) .write (locked (own (.currentSize level)) .write [])

/-- An entry that has expired is removed, and the size is set. -/
def getLevel (level : Fin 2) (expired : Bool) : Script L :=
  locked (own (.entries level)) .write (if expired then locked (own (.currentSize level)) .write [] else [])

/-- The right side of the assignment is evaluated first, and its guard lives to the end
of the statement. -/
def removeL1 : Script L :=
  locked (own (.entries 0)) .write [] ++
    locked (own (.entries 0)) .read (locked (own (.currentSize 0)) .write [])

def len (level : Fin 2) : Script L := locked (own (.currentSize level)) .read []

/-- A file that cannot be written leaves the metadata alone. -/
def insertL3 (written : Bool) : Script L := if written then locked (own .metadata) .write [] else []

def getL3 : Script L := locked (own .metadata) .write []

/-- Whether the first two levels found an expired entry, and which level answers. -/
def get (expired : Fin 2 → Bool) (answers : Option (Fin 3)) : Script L :=
  let hit := locked (own .hits) .write []
  match answers with
  | some 0 => getLevel own 0 (expired 0) ++ hit
  | some 1 => getLevel own 0 (expired 0) ++ getLevel own 1 (expired 1) ++ hit ++ insertLevel own 0
  | some 2 => getLevel own 0 (expired 0) ++ getLevel own 1 (expired 1) ++ getL3 own ++ hit ++ insertLevel own 1
  | none => getLevel own 0 (expired 0) ++ getLevel own 1 (expired 1) ++ getL3 own ++
      locked (own .misses) .write []

def insert (written : Bool) : Script L := insertLevel own 0 ++ insertLevel own 1 ++ insertL3 own written

def updateSlot : Script L := locked (own .currentSlot) .write []

def hitRate : Script L := locked (own .hits) .read [] ++ locked (own .misses) .read []

/-- The guards in the last two fields of the statistics live to the end of the expression. -/
def stats : Script L :=
  len own 0 ++ len own 1 ++ locked (own .metadata) .read [] ++ hitRate own ++
    locked (own .hits) .read (locked (own .misses) .read [])

inductive Call where
  | get (expired : Fin 2 → Bool) (answers : Option (Fin 3))
  | insert (written : Bool)
  | removeL1
  | updateSlot
  | hitRate
  | stats

def script : Call → Script L
  | .get expired answers => get own expired answers
  | .insert written => insert own written
  | .removeL1 => removeL1 own
  | .updateSlot => updateSlot own
  | .hitRate => hitRate own
  | .stats => stats own

section nested

variable [DecidableEq L] {own} {rank : L → Nat} {base : Nat} (placed : ∀ lock, rank (own lock) = base + level lock)

include placed

theorem entries_nested {i : Fin 2} {mode : LockMode} {body : Script L} (inner : Nested rank (base + 1) body) :
    Nested rank (base + 0) (locked (own (.entries i)) mode body) :=
  nested_own placed inner (Nat.zero_le _)

theorem currentSize_nested {i : Fin 2} {mode : LockMode} :
    Nested rank (base + 1) (locked (own (.currentSize i)) mode []) :=
  nested_own placed nested_nil (Nat.le_refl _)

theorem insertLevel_nested (i : Fin 2) : Nested rank (base + 0) (insertLevel own i) :=
  entries_nested placed (currentSize_nested placed)

theorem getLevel_nested (i : Fin 2) (expired : Bool) : Nested rank (base + 0) (getLevel own i expired) := by
  refine entries_nested placed ?_
  split
  · exact currentSize_nested placed
  · exact nested_nil

theorem get_nested (expired : Fin 2 → Bool) (answers : Option (Fin 3)) :
    Nested rank (base + 0) (get own expired answers) := by
  have levels := (getLevel_nested placed 0 (expired 0)).append (getLevel_nested placed 1 (expired 1))
  have third : Nested rank (base + 0) (getL3 own) := nested_own placed nested_nil
  have hit : Nested rank (base + 0) (locked (own .hits) .write []) := nested_own placed nested_nil
  unfold get
  split
  · exact (getLevel_nested placed 0 _).append hit
  · exact (levels.append hit).append (insertLevel_nested placed 0)
  · exact ((levels.append third).append hit).append (insertLevel_nested placed 1)
  · exact (levels.append third).append (nested_own placed nested_nil)

theorem script_nested (call : Call) : Nested rank (base + 0) (script own call) := by
  have size (i : Fin 2) : Nested rank (base + 0) (len own i) :=
    (currentSize_nested placed).mono (Nat.le_add_right _ _)
  have rate : Nested rank (base + 0) (hitRate own) :=
    (nested_own placed nested_nil).append (nested_own placed nested_nil)
  cases call with
  | get expired answers => exact get_nested placed expired answers
  | insert written =>
    refine ((insertLevel_nested placed 0).append (insertLevel_nested placed 1)).append ?_
    unfold insertL3
    split
    · exact nested_own placed nested_nil
    · exact nested_nil
  | removeL1 =>
    exact (entries_nested placed nested_nil).append (entries_nested placed (currentSize_nested placed))
  | updateSlot => exact nested_own placed nested_nil
  | hitRate => exact rate
  | stats =>
    exact ((((size 0).append (size 1)).append (nested_own placed nested_nil)).append rate).append
      (nested_own placed (nested_own placed nested_nil))

end nested

end QueryCacheLock

inductive InvalidationLock where
  | queryPubkeys
  | pubkeyQueries
  | materializedCache
  deriving DecidableEq

/-- An invalidation takes the cache first and the pubkeys last. -/
def InvalidationLock.level : InvalidationLock → Nat
  | .materializedCache => 0
  | .queryPubkeys => 1
  | .pubkeyQueries => 2

namespace InvalidationLock

variable {L : Type} (own : InvalidationLock → L)

def registerQuery : Script L := locked (own .queryPubkeys) .write [] ++ locked (own .pubkeyQueries) .write []

def getAffectedQueriesBatch : Script L := locked (own .pubkeyQueries) .read []

def invalidateForPubkeys : Script L :=
  getAffectedQueriesBatch own ++ locked (own .materializedCache) .write
    (locked (own .queryPubkeys) .write (locked (own .pubkeyQueries) .write []))

def cacheMaterializedResult : Script L := locked (own .materializedCache) .write []

def getMaterializedResult : Script L := locked (own .materializedCache) .read []

def queryCount : Script L := locked (own .queryPubkeys) .read []

def clear : Script L :=
  locked (own .queryPubkeys) .write [] ++ locked (own .pubkeyQueries) .write [] ++
    locked (own .materializedCache) .write []

inductive Call where
  | registerQuery
  | getAffectedQueriesBatch
  | invalidateForPubkeys
  | cacheMaterializedResult
  | getMaterializedResult
  | queryCount
  | clear

def script : Call → Script L
  | .registerQuery => registerQuery own
  | .getAffectedQueriesBatch => getAffectedQueriesBatch own
  | .invalidateForPubkeys => invalidateForPubkeys own
  | .cacheMaterializedResult => cacheMaterializedResult own
  | .getMaterializedResult => getMaterializedResult own
  | .queryCount => queryCount own
  | .clear => clear own

theorem script_nested [DecidableEq L] {own : InvalidationLock → L} {rank : L → Nat} {base : Nat}
    (placed : ∀ lock, rank (own lock) = base + level lock) (call : Call) :
    Nested rank (base + 0) (script own call) := by
  cases call with
  | registerQuery => exact (nested_own placed nested_nil).append (nested_own placed nested_nil)
  | invalidateForPubkeys =>
    refine (nested_own placed nested_nil).append (nested_own placed ?_)
    exact nested_own placed (nested_own placed nested_nil)
  | clear =>
    exact ((nested_own placed nested_nil).append (nested_own placed nested_nil)).append
      (nested_own placed nested_nil)
  | _ => exact nested_own placed nested_nil

end InvalidationLock

/-- The states of the delta plane: of the compactor, the consumer, the locator and the
reducer. -/
inductive DeltaLock where
  | compactor
  | consumer
  | locator
  | reducer
  deriving DecidableEq

def DeltaLock.level : DeltaLock → Nat
  | .compactor | .consumer => 0
  | .locator | .reducer => 1

namespace DeltaLock

variable {L : Type} (own : DeltaLock → L)

/-- The start and the stop hold one guard for all they do. -/
def startOrStop : Script L := locked (own .consumer) .write []

def processEntry : Script L := locked (own .reducer) .write [] ++ locked (own .consumer) .write []

/-- The segment is registered under the guard of the consumer. -/
def maybeFlushSegment (flushes : Bool) : Script L :=
  locked (own .consumer) .write (if flushes then locked (own .locator) .write [] else [])

/-- How many entries are read, and whether one of them ends the poll. -/
def processUpdates (entries : Nat) (failed flushes : Bool) : Script L :=
  ((List.range entries).flatMap fun _ => processEntry own) ++ if failed then [] else
    locked (own .consumer) .write [] ++ maybeFlushSegment own flushes

/-- One round of the loop: whether it is running, a poll, and the count of an error. -/
def runRound (entries : Nat) (failed flushes counted : Bool) : Script L :=
  locked (own .consumer) .read [] ++ processUpdates own entries failed flushes ++
    if counted then locked (own .consumer) .write [] else []

def consumerStats : Script L := locked (own .consumer) .read (locked (own .reducer) .read [])

def locatorCall (mode : LockMode) : Script L := locked (own .locator) mode []

def reducerCall (mode : LockMode) : Script L := locked (own .reducer) mode []

def shouldCompact : Script L := locked (own .locator) .read []

def compact (empty : Bool) : Script L :=
  locked (own .compactor) .write (locked (own .locator) .read [] ++
    if empty then [] else locked (own .locator) .write [])

def compactorStats : Script L := locked (own .compactor) .read []

inductive Call where
  | startOrStop
  | runRound (entries : Nat) (failed flushes counted : Bool)
  | processUpdates (entries : Nat) (failed flushes : Bool)
  | consumerStats
  | locatorCall (mode : LockMode)
  | reducerCall (mode : LockMode)
  | shouldCompact
  | compact (empty : Bool)
  | compactorStats

def script : Call → Script L
  | .startOrStop => startOrStop own
  | .runRound entries failed flushes counted => runRound own entries failed flushes counted
  | .processUpdates entries failed flushes => processUpdates own entries failed flushes
  | .consumerStats => consumerStats own
  | .locatorCall mode => locatorCall own mode
  | .reducerCall mode => reducerCall own mode
  | .shouldCompact => shouldCompact own
  | .compact empty => compact own empty
  | .compactorStats => compactorStats own

section nested

variable [DecidableEq L] {own} {rank : L → Nat} {base : Nat} (placed : ∀ lock, rank (own lock) = base + level lock)

include placed

theorem maybeFlushSegment_nested (flushes : Bool) : Nested rank (base + 0) (maybeFlushSegment own flushes) := by
  refine nested_own placed ?_
  split
  · exact nested_own placed nested_nil
  · exact nested_nil

theorem processUpdates_nested (entries : Nat) (failed flushes : Bool) :
    Nested rank (base + 0) (processUpdates own entries failed flushes) := by
  have entry : Nested rank (base + 0) (processEntry own) :=
    (nested_own placed nested_nil).append (nested_own placed nested_nil)
  refine (nested_flatMap fun _ _ => entry).append ?_
  split
  · exact nested_nil
  · exact (nested_own placed nested_nil).append (maybeFlushSegment_nested placed flushes)

theorem script_nested (call : Call) : Nested rank (base + 0) (script own call) := by
  cases call with
  | runRound entries failed flushes counted =>
    refine ((nested_own placed nested_nil).append (processUpdates_nested placed entries failed flushes)).append ?_
    split
    · exact nested_own placed nested_nil
    · exact nested_nil
  | processUpdates entries failed flushes => exact processUpdates_nested placed entries failed flushes
  | consumerStats => exact nested_own placed (nested_own placed nested_nil)
  | compact empty =>
    refine nested_own placed ((nested_own placed nested_nil).append ?_)
    split
    · exact nested_nil
    · exact nested_own placed nested_nil
  | _ => exact nested_own placed nested_nil

end nested

end DeltaLock

/-- The one write transaction that redb lets run, and the cache in memory. -/
inductive DictionaryLock where
  | writeTransaction
  | memoryCache
  deriving DecidableEq

def DictionaryLock.level : DictionaryLock → Nat
  | .writeTransaction => 0
  | .memoryCache => 1

namespace DictionaryLock

variable {L : Type} (own : DictionaryLock → L)

/-- A pubkey that is not known is written and committed before it is cached. -/
def getOrCreateId (known committed : Bool) : Script L :=
  locked (own .memoryCache) .read [] ++ if known then [] else
    locked (own .writeTransaction) .write [] ++ if committed then locked (own .memoryCache) .write [] else []

/-- The cache is filled before the commit, and read again for each of the pubkeys. -/
def insertBatch (opened : Bool) (pubkeys : Nat) : Script L :=
  locked (own .writeTransaction) .write (if opened then locked (own .memoryCache) .write [] else []) ++
    (List.range pubkeys).flatMap fun _ => locked (own .memoryCache) .read []

def lookup : Script L := locked (own .memoryCache) .read []

inductive Call where
  | getOrCreateId (known committed : Bool)
  | insertBatch (opened : Bool) (pubkeys : Nat)
  | lookup

def script : Call → Script L
  | .getOrCreateId known committed => getOrCreateId own known committed
  | .insertBatch opened pubkeys => insertBatch own opened pubkeys
  | .lookup => lookup own

theorem script_nested [DecidableEq L] {own : DictionaryLock → L} {rank : L → Nat} {base : Nat}
    (placed : ∀ lock, rank (own lock) = base + level lock) (call : Call) :
    Nested rank (base + 0) (script own call) := by
  cases call with
  | getOrCreateId known committed =>
    refine (nested_own placed nested_nil).append ?_
    split
    · exact nested_nil
    · refine (nested_own placed nested_nil).append ?_
      split
      · exact nested_own placed nested_nil
      · exact nested_nil
  | insertBatch opened pubkeys =>
    refine (nested_own placed ?_).append (nested_flatMap fun _ _ => nested_own placed nested_nil)
    split
    · exact nested_own placed nested_nil
    · exact nested_nil
  | lookup => exact nested_own placed nested_nil

end DictionaryLock

/-- The locks of all these components. Any number of each kind may live in the process. -/
inductive SystemLock where
  | lsm (i : Nat) (lock : LsmLock)
  | hotCold (i : Nat) (lock : HotColdLock)
  | adaptive (i : Nat) (lock : AdaptiveManagerLock)
  | queryCache (i : Nat) (lock : QueryCacheLock)
  | invalidation (i : Nat) (lock : InvalidationLock)
  | delta (i : Nat) (lock : DeltaLock)
  | dictionary (i : Nat) (lock : DictionaryLock)
  deriving DecidableEq

def SystemLock.level : SystemLock → Nat
  | .lsm _ lock => lock.level
  | .hotCold _ lock => lock.level
  | .adaptive _ lock => lock.level
  | .queryCache _ lock => lock.level
  | .invalidation _ lock => lock.level
  | .delta _ lock => lock.level
  | .dictionary _ lock => lock.level

inductive SystemCall where
  | lsm (i : Nat) (call : LsmLock.Call)
  | hotCold (i : Nat) (call : HotColdLock.Call)
  | adaptive (i : Nat) (call : AdaptiveManagerLock.Call)
  | queryCache (i : Nat) (call : QueryCacheLock.Call)
  | invalidation (i : Nat) (call : InvalidationLock.Call)
  | delta (i : Nat) (call : DeltaLock.Call)
  | dictionary (i : Nat) (call : DictionaryLock.Call)

def SystemCall.script : SystemCall → Script SystemLock
  | .lsm i call => LsmLock.script (.lsm i) call
  | .hotCold i call => HotColdLock.script (.hotCold i) call
  | .adaptive i call => AdaptiveManagerLock.script (.adaptive i) call
  | .queryCache i call => QueryCacheLock.script (.queryCache i) call
  | .invalidation i call => InvalidationLock.script (.invalidation i) call
  | .delta i call => DeltaLock.script (.delta i) call
  | .dictionary i call => DictionaryLock.script (.dictionary i) call

theorem SystemLock.placed {K : Type} (own : K → SystemLock) {level : K → Nat}
    (same : ∀ lock, (own lock).level = level lock) (lock : K) : SystemLock.level (own lock) = 0 + level lock := by
  rw [same, Nat.zero_add]

theorem SystemCall.follows (call : SystemCall) : Follows SystemLock.level [] call.script := by
  cases call with
  | lsm i call => exact (LsmLock.script_nested (SystemLock.placed (.lsm i) fun _ => rfl) call).follows
  | hotCold i call => exact (HotColdLock.script_nested (SystemLock.placed (.hotCold i) fun _ => rfl) call).follows
  | adaptive i call =>
    exact (AdaptiveManagerLock.script_nested (SystemLock.placed (.adaptive i) fun _ => rfl) call).follows
  | queryCache i call =>
    exact (QueryCacheLock.script_nested (SystemLock.placed (.queryCache i) fun _ => rfl) call).follows
  | invalidation i call =>
    exact (InvalidationLock.script_nested (SystemLock.placed (.invalidation i) fun _ => rfl) call).follows
  | delta i call => exact (DeltaLock.script_nested (SystemLock.placed (.delta i) fun _ => rfl) call).follows
  | dictionary i call =>
    exact (DictionaryLock.script_nested (SystemLock.placed (.dictionary i) fun _ => rfl) call).follows

/-- However many threads call these components, in whatever order and with whatever
interleaving of their locks, they never deadlock, and every call can return. -/
theorem system_completes {threads : Nat} {moves : List (Move SystemCall)}
    {t : Pool (SystemLock → RwLock) (Holder SystemLock)}
    (ran : Run (ofPartial (scripted SystemCall.script).step) (unlocked SystemLock threads) moves t) :
    ¬ t.Stuck (scripted SystemCall.script) ∧ ∃ rest u, (∀ m ∈ rest, ∃ i, m = .advance i) ∧
      Run (ofPartial (scripted SystemCall.script).step) t rest u ∧ u.Settled (scripted SystemCall.script) :=
  (orderly_run SystemCall.follows ran).completes SystemCall.script

/-- A query that has the base waits for an insertion that has the deltas. -/
theorem query_waits_for_insert : ∃ t : Pool (SystemLock → RwLock) (Holder SystemLock),
    (scripted SystemCall.script).step t (.advance 0) = none ∧ ¬ t.Stuck (scripted SystemCall.script) ∧
      ∃ rest u, (∀ m ∈ rest, ∃ i, m = .advance i) ∧
        Run (ofPartial (scripted SystemCall.script).step) t rest u ∧ u.Settled (scripted SystemCall.script) := by
  have ran : Run (ofPartial (scripted SystemCall.script).step) (unlocked SystemLock 2)
      [.call 0 (.lsm 0 .query), .call 1 (.lsm 0 (.insert false)), .advance 0, .advance 1, .advance 1] _ :=
    ⟨_, rfl, _, rfl, _, rfl, _, rfl, _, rfl, rfl⟩
  exact ⟨_, rfl, system_completes ran⟩

end Hyperplane
