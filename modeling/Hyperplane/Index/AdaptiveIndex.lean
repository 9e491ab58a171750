import Hyperplane.Lib.IdSet
import Hyperplane.Lib.Maps
import Hyperplane.Lib.Transition

/-! The secondary index that changes its representation: bitmaps, a B-tree or a
hash table. Each representation has a container of its own, except that the
range index shares the B-tree. -/
namespace Hyperplane
open Maps Transition

inductive AdaptiveIndexType where
  | bitmap
  | bTree
  | hash
  | range
  deriving DecidableEq

structure IndexStats where
  entryCount : UInt64 := 0
  queryCount : UInt64 := 0
  avgQueryTimeUs : UInt64 := 0

structure AdaptiveIndex (S : Type) where
  indexType : AdaptiveIndexType
  bitmapIndex : Std.TreeMap UInt32 S
  btreeIndex : Std.TreeMap UInt64 (List UInt32)
  hashIndex : Std.TreeMap UInt64 (List UInt32)
  stats : IndexStats
  indexPath : String

namespace AdaptiveIndex

variable {S : Type} [IdSet S]

def new (indexPath : String) : AdaptiveIndex S := ⟨.bitmap, ∅, ∅, ∅, {}, indexPath⟩

def idsOf (bitmap : S) : List UInt32 := (IdSet.iter bitmap).map UInt32.ofNat

def setBit (bitmaps : Std.TreeMap UInt32 S) (key : UInt64) (id : UInt32) : Std.TreeMap UInt32 S :=
  entry bitmaps key.toUInt32 IdSet.empty fun bitmap => (IdSet.insert bitmap id.toNat).2

def push (lists : Std.TreeMap UInt64 (List UInt32)) (key : UInt64) (id : UInt32) :
    Std.TreeMap UInt64 (List UInt32) :=
  entry lists key [] fun ids => ids ++ [id]

def countEntry (stats : IndexStats) : IndexStats := { stats with entryCount := stats.entryCount + 1 }

/-- A bitmap is found by the low half of the key. -/
def insert (index : AdaptiveIndex S) (key : UInt64) (accountId : UInt32) : AdaptiveIndex S :=
  let filled := match index.indexType with
    | .bitmap => { index with bitmapIndex := setBit index.bitmapIndex key accountId }
    | .bTree => { index with btreeIndex := push index.btreeIndex key accountId }
    | .hash => { index with hashIndex := push index.hashIndex key accountId }
    | .range => { index with btreeIndex := push index.btreeIndex key accountId }
  { filled with stats := countEntry index.stats }

def found (index : AdaptiveIndex S) (key : UInt64) : List UInt32 :=
  match index.indexType with
  | .bitmap => (index.bitmapIndex[key.toUInt32]?.map idsOf).getD []
  | .bTree => index.btreeIndex[key]?.getD []
  | .hash => index.hashIndex[key]?.getD []
  | .range => index.btreeIndex[key]?.getD []

def countQuery (stats : IndexStats) (elapsed : UInt64) : IndexStats :=
  { stats with
    queryCount := stats.queryCount + 1
    avgQueryTimeUs := (stats.avgQueryTimeUs + elapsed) / 2 }

/-- The time that passes in the call goes into the statistics. -/
def query (index : AdaptiveIndex S) (key elapsed : UInt64) : List UInt32 × AdaptiveIndex S :=
  (index.found key, { index with stats := countQuery index.stats elapsed })

def countUniqueKeys (index : AdaptiveIndex S) : UInt64 :=
  match index.indexType with
  | .bitmap => .ofNat index.bitmapIndex.size
  | .bTree => .ofNat index.btreeIndex.size
  | .range => .ofNat index.btreeIndex.size
  | .hash => .ofNat index.hashIndex.size

def evaluateMigration (index : AdaptiveIndex S) : Option AdaptiveIndexType :=
  if index.stats.entryCount < 100 then none
  else
    let uniqueKeys := index.countUniqueKeys
    if index.stats.entryCount.toFloat * 0.8 < uniqueKeys.toFloat ∧ index.indexType ≠ .bTree then
      some .bTree
    else if uniqueKeys < 1000 ∧ 10000 < index.stats.entryCount ∧ index.indexType ≠ .bitmap then
      some .bitmap
    else if 100 < index.stats.avgQueryTimeUs ∧ 10000 < uniqueKeys ∧ index.indexType ≠ .hash then
      some .hash
    else none

/-- The container of the new type is cleared, and nothing is copied into it. -/
def migrateTo (index : AdaptiveIndex S) (newType : AdaptiveIndexType) : AdaptiveIndex S :=
  if newType = index.indexType then index
  else
    let cleared := match newType with
      | .bitmap => { index with bitmapIndex := ∅ }
      | .bTree => { index with btreeIndex := ∅ }
      | .range => { index with btreeIndex := ∅ }
      | .hash => { index with hashIndex := ∅ }
    { cleared with indexType := newType }

/-- The query for the key answers with the id among others. -/
def Shows (index : AdaptiveIndex S) (key : UInt64) (id : UInt32) : Prop :=
  ∀ elapsed, id ∈ (index.query key elapsed).1

/-- The container in use has something under the key. -/
def holds (index : AdaptiveIndex S) (key : UInt64) : Bool :=
  match index.indexType with
  | .bitmap => index.bitmapIndex.contains key.toUInt32
  | .bTree => index.btreeIndex.contains key
  | .hash => index.hashIndex.contains key
  | .range => index.btreeIndex.contains key

theorem shows_iff (index : AdaptiveIndex S) (key : UInt64) (id : UInt32) :
    index.Shows key id ↔ id ∈ index.found key :=
  ⟨fun h => h 0, fun h _ => h⟩

/-- Two keys that the container in use does not tell apart. -/
def SameKey (index : AdaptiveIndex S) (key other : UInt64) : Prop :=
  match index.indexType with
  | .bitmap => key.toUInt32 = other.toUInt32
  | _ => key = other

theorem idsOf_empty : idsOf (IdSet.empty : S) = [] := by
  rw [idsOf, IdSet.iter_empty, List.map_nil]

theorem mem_idsOf_insert (bitmap : S) (id shown : UInt32) :
    shown ∈ idsOf (IdSet.insert bitmap id.toNat).2 ↔ shown = id ∨ shown ∈ idsOf bitmap := by
  simp only [idsOf, List.mem_map, IdSet.mem_iter, IdSet.contains_insert, Bool.or_eq_true, beq_iff_eq]
  constructor
  · rintro ⟨i, rfl | old, rfl⟩
    · exact .inl UInt32.ofNat_toNat
    · exact .inr ⟨i, old, rfl⟩
  · rintro (rfl | ⟨i, old, rfl⟩)
    · exact ⟨shown.toNat, .inl rfl, UInt32.ofNat_toNat⟩
    · exact ⟨i, .inr old, rfl⟩

theorem mem_setBit (bitmaps : Std.TreeMap UInt32 S) (key other : UInt64) (id shown : UInt32) :
    shown ∈ ((setBit bitmaps key id)[other.toUInt32]?.map idsOf).getD [] ↔
      (key.toUInt32 = other.toUInt32 ∧ shown = id) ∨
        shown ∈ (bitmaps[other.toUInt32]?.map idsOf).getD [] := by
  by_cases same : key.toUInt32 = other.toUInt32
  · rw [setBit, ← same, getElem?_entry_self, Option.map_some, Option.getD_some, mem_idsOf_insert]
    cases bitmaps[key.toUInt32]? with
    | none => simp [idsOf_empty]
    | some bitmap => simp
  · rw [setBit, getElem?_entry_ne _ (Ne.symm same)]
    simp [same]

theorem mem_push (lists : Std.TreeMap UInt64 (List UInt32)) (key other : UInt64) (id shown : UInt32) :
    shown ∈ (push lists key id)[other]?.getD [] ↔
      (key = other ∧ shown = id) ∨ shown ∈ lists[other]?.getD [] := by
  by_cases same : key = other
  · rw [push, ← same, getElem?_entry_self]
    simp [or_comm]
  · rw [push, getElem?_entry_ne _ (Ne.symm same)]
    simp [same]

theorem mem_found_insert (index : AdaptiveIndex S) (key other : UInt64) (id shown : UInt32) :
    shown ∈ (index.insert key id).found other ↔
      (index.SameKey key other ∧ shown = id) ∨ shown ∈ index.found other := by
  cases type : index.indexType with
  | bitmap =>
    simp only [insert, found, SameKey, type]
    exact mem_setBit index.bitmapIndex key other id shown
  | bTree =>
    simp only [insert, found, SameKey, type]
    exact mem_push index.btreeIndex key other id shown
  | hash =>
    simp only [insert, found, SameKey, type]
    exact mem_push index.hashIndex key other id shown
  | range =>
    simp only [insert, found, SameKey, type]
    exact mem_push index.btreeIndex key other id shown

/-- A migration to another type leaves nothing to be found. -/
theorem found_migrateTo (index : AdaptiveIndex S) (newType : AdaptiveIndexType) (key : UInt64) :
    (index.migrateTo newType).found key = if newType = index.indexType then index.found key else [] := by
  unfold migrateTo
  split
  · rfl
  · cases newType <;> simp [found]

/-- No container has an empty bitmap or an empty list. -/
structure Occupied (index : AdaptiveIndex S) : Prop where
  bitmap : ∀ (key : UInt32) (bitmap : S), index.bitmapIndex[key]? = some bitmap → idsOf bitmap ≠ []
  btree : ∀ (key : UInt64) (ids : List UInt32), index.btreeIndex[key]? = some ids → ids ≠ []
  hash : ∀ (key : UInt64) (ids : List UInt32), index.hashIndex[key]? = some ids → ids ≠ []

theorem new_occupied (indexPath : String) : (new indexPath : AdaptiveIndex S).Occupied := by
  constructor <;> simp [new]

theorem idsOf_insert_ne_nil (bitmap : S) (id : UInt32) : idsOf (IdSet.insert bitmap id.toNat).2 ≠ [] :=
  List.ne_nil_of_mem ((mem_idsOf_insert bitmap id id).mpr (.inl rfl))

theorem Occupied.insert {index : AdaptiveIndex S} (h : index.Occupied) (key : UInt64) (id : UInt32) :
    (index.insert key id).Occupied := by
  have bitmaps := @entry_all _ _ _ _ _ _ _ h.bitmap key.toUInt32 IdSet.empty _ fun b => idsOf_insert_ne_nil b id
  have btrees := entry_all h.btree key [] fun ids => List.append_ne_nil_of_right_ne_nil ids (List.cons_ne_nil id [])
  have hashes := entry_all h.hash key [] fun ids => List.append_ne_nil_of_right_ne_nil ids (List.cons_ne_nil id [])
  unfold AdaptiveIndex.insert
  cases index.indexType with
  | bitmap => exact ⟨bitmaps, h.btree, h.hash⟩
  | bTree => exact ⟨h.bitmap, btrees, h.hash⟩
  | hash => exact ⟨h.bitmap, h.btree, hashes⟩
  | range => exact ⟨h.bitmap, btrees, h.hash⟩

theorem Occupied.migrateTo {index : AdaptiveIndex S} (h : index.Occupied) (newType : AdaptiveIndexType) :
    (index.migrateTo newType).Occupied := by
  unfold AdaptiveIndex.migrateTo
  split
  · exact h
  · cases newType with
    | bitmap => exact ⟨by simp, h.btree, h.hash⟩
    | bTree => exact ⟨h.bitmap, by simp, h.hash⟩
    | range => exact ⟨h.bitmap, by simp, h.hash⟩
    | hash => exact ⟨h.bitmap, h.btree, by simp⟩

theorem getD_eq_nil_iff {K V : Type} [Ord K] [Std.TransOrd K] {t : Std.TreeMap K V} {list : V → List UInt32}
    (occupied : ∀ (k : K) (v : V), t[k]? = some v → list v ≠ []) (k : K) :
    (t[k]?.map list).getD [] = [] ↔ t.contains k = false := by
  rw [Std.TreeMap.contains_eq_isSome_getElem?]
  cases under : t[k]? with
  | none => simp
  | some v => simp [occupied k v under]

theorem found_eq_nil_iff {index : AdaptiveIndex S} (h : index.Occupied) (key : UInt64) :
    index.found key = [] ↔ index.holds key = false := by
  have lists {t : Std.TreeMap UInt64 (List UInt32)} 
      (occupied : ∀ (k : UInt64) (ids : List UInt32), t[k]? = some ids → ids ≠ []) :
      t[key]?.getD [] = [] ↔ t.contains key = false := by
    simpa using @getD_eq_nil_iff _ _ _ _ t id occupied key
  unfold found holds
  cases index.indexType with
  | bitmap => exact getD_eq_nil_iff h.bitmap key.toUInt32
  | bTree => exact lists h.btree
  | hash => exact lists h.hash
  | range => exact lists h.btree

theorem migrated_iff {index : AdaptiveIndex S} (h : index.Occupied) (target : AdaptiveIndexType)
    (key : UInt64) : (∀ id, (index.migrateTo target).Shows key id ↔ index.Shows key id) ↔
      target = index.indexType ∨ index.holds key = false := by
  simp only [shows_iff, found_migrateTo, ← found_eq_nil_iff h]
  split
  · rename_i same
    simp [same]
  · rename_i other
    simp [other, List.eq_nil_iff_forall_not_mem]

end AdaptiveIndex

inductive AdaptiveCall where
  | insert (key : UInt64) (accountId : UInt32)
  | query (key elapsed : UInt64)
  | migrateTo (newType : AdaptiveIndexType)

namespace AdaptiveIndex

variable {S : Type} [IdSet S]

def step (index : AdaptiveIndex S) : AdaptiveCall → AdaptiveIndex S
  | .insert key accountId => index.insert key accountId
  | .query key elapsed => (index.query key elapsed).2
  | .migrateTo newType => index.migrateTo newType

/-- The index after the calls. -/
def reached (indexPath : String) (calls : List AdaptiveCall) : AdaptiveIndex S :=
  calls.foldl step (new indexPath)

theorem Occupied.step {index : AdaptiveIndex S} (h : index.Occupied) (call : AdaptiveCall) :
    (index.step call).Occupied := by
  cases call with
  | insert key id => exact h.insert key id
  | query key elapsed => exact ⟨h.bitmap, h.btree, h.hash⟩
  | migrateTo newType => exact h.migrateTo newType

theorem reached_occupied (indexPath : String) (calls : List AdaptiveCall) :
    (reached indexPath calls : AdaptiveIndex S).Occupied :=
  foldl_invariant Occupied (fun _ call h => h.step call) (new_occupied indexPath) calls

/-- Wherever inserts, queries and migrations lead, the next migration preserves
the answer to a key exactly if it goes to the type in use, or if the container
in use has nothing under the key. -/
theorem migration_preserves_iff (indexPath : String) (calls : List AdaptiveCall)
    (target : AdaptiveIndexType) (key : UInt64) :
    (∀ id, ((reached indexPath calls : AdaptiveIndex S).migrateTo target).Shows key id ↔
        (reached indexPath calls : AdaptiveIndex S).Shows key id) ↔
      target = (reached indexPath calls : AdaptiveIndex S).indexType ∨
        (reached indexPath calls : AdaptiveIndex S).holds key = false :=
  migrated_iff (reached_occupied indexPath calls) target key

/-- Away to the B-tree and back: both migrations lose the entry. -/
theorem migrated_entry_lost :
    (reached "x.idx" [.insert 1 100] : AdaptiveIndex SortedIds).Shows 1 100 ∧
      ¬ (reached "x.idx" [.insert 1 100, .migrateTo .bTree] : AdaptiveIndex SortedIds).Shows 1 100 ∧
      ¬ (reached "x.idx" [.insert 1 100, .migrateTo .bTree, .migrateTo .bitmap] :
        AdaptiveIndex SortedIds).Shows 1 100 := by
  simp only [shows_iff]
  decide +kernel

end AdaptiveIndex

end Hyperplane
