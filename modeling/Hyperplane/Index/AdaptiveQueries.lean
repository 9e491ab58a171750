import Hyperplane.Index.AdaptiveIndex

/-! What a query finds of the inserts made since the index took its type. -/
namespace Hyperplane
open Maps Transition

namespace AdaptiveIndex

variable {S : Type} [IdSet S]

/-- An index at the moment it takes a type: made as a bitmap index, or migrated
from another type. -/
inductive Entered : AdaptiveIndex S → Prop
  | new (indexPath : String) : Entered (new indexPath)
  | migrated (index : AdaptiveIndex S) {newType : AdaptiveIndexType} (other : newType ≠ index.indexType) :
      Entered (index.migrateTo newType)

def insertEach (index : AdaptiveIndex S) (inserts : List (UInt64 × UInt32)) : AdaptiveIndex S :=
  inserts.foldl (fun index item => index.insert item.1 item.2) index

/-- The query finds every id inserted under the key, once, and no other. -/
structure FindsExactly (index : AdaptiveIndex S) (inserts : List (UInt64 × UInt32)) (key : UInt64) : Prop where
  mem_iff : ∀ id elapsed, id ∈ (index.query key elapsed).1 ↔ (key, id) ∈ inserts
  once : ∀ elapsed, (index.query key elapsed).1.Nodup

/-- In bitmaps every id inserted under a key with the same low half is inserted
under this key too; in lists no id is inserted under the key twice. -/
def Distinct (type : AdaptiveIndexType) (inserts : List (UInt64 × UInt32)) (key : UInt64) : Prop :=
  match type with
  | .bitmap => ∀ item ∈ inserts, item.1.toUInt32 = key.toUInt32 → (key, item.2) ∈ inserts
  | _ => ∀ id, inserts.count (key, id) ≤ 1

theorem Entered.found {index : AdaptiveIndex S} (entered : Entered index) (key : UInt64) :
    index.found key = [] := by
  cases entered with
  | new indexPath => simp [AdaptiveIndex.found, AdaptiveIndex.new]
  | migrated index other => rw [found_migrateTo, if_neg other]

@[simp] theorem indexType_insert (index : AdaptiveIndex S) (key : UInt64) (id : UInt32) :
    (index.insert key id).indexType = index.indexType := by
  unfold insert
  cases index.indexType with
  | bitmap => rfl
  | bTree => rfl
  | hash => rfl
  | range => rfl

@[simp] theorem indexType_insertEach (index : AdaptiveIndex S) (inserts : List (UInt64 × UInt32)) :
    (index.insertEach inserts).indexType = index.indexType := by
  induction inserts generalizing index with
  | nil => rfl
  | cons item rest ih => exact (ih (index.insert item.1 item.2)).trans (indexType_insert index _ _)

theorem sameKey_insert (index : AdaptiveIndex S) (key : UInt64) (id : UInt32) :
    (index.insert key id).SameKey = index.SameKey := by
  funext one other
  simp only [SameKey, indexType_insert]

theorem mem_found_insertEach (index : AdaptiveIndex S) (inserts : List (UInt64 × UInt32)) (key : UInt64)
    (shown : UInt32) : shown ∈ (index.insertEach inserts).found key ↔
      (∃ item ∈ inserts, index.SameKey item.1 key ∧ shown = item.2) ∨ shown ∈ index.found key := by
  induction inserts generalizing index with
  | nil => simp [insertEach]
  | cons item rest ih =>
    change shown ∈ ((index.insert item.1 item.2).insertEach rest).found key ↔ _
    rw [ih, mem_found_insert, sameKey_insert, List.exists_mem_cons_iff, or_left_comm, or_assoc]

/-- A list under a key grows by the ids inserted under it, in order. -/
theorem found_push (lists : Std.TreeMap UInt64 (List UInt32)) (key other : UInt64) (id : UInt32) :
    (push lists key id)[other]?.getD [] =
      lists[other]?.getD [] ++ if key = other then [id] else [] := by
  by_cases same : key = other
  · rw [push, ← same, getElem?_entry_self, if_pos rfl, Option.getD_some]
  · rw [push, getElem?_entry_ne _ (Ne.symm same), if_neg same, List.append_nil]

theorem found_insert_listed {index : AdaptiveIndex S} (listed : index.indexType ≠ .bitmap)
    (key other : UInt64) (id : UInt32) : (index.insert key id).found other =
      index.found other ++ if key = other then [id] else [] := by
  cases type : index.indexType with
  | bitmap => exact absurd type listed
  | bTree =>
    simp only [insert, found, type]
    exact found_push index.btreeIndex key other id
  | hash =>
    simp only [insert, found, type]
    exact found_push index.hashIndex key other id
  | range =>
    simp only [insert, found, type]
    exact found_push index.btreeIndex key other id

theorem found_insertEach_listed {index : AdaptiveIndex S} (listed : index.indexType ≠ .bitmap)
    (inserts : List (UInt64 × UInt32)) (key : UInt64) : (index.insertEach inserts).found key =
      index.found key ++ (inserts.filter (·.1 = key)).map Prod.snd := by
  induction inserts generalizing index with
  | nil => simp [insertEach]
  | cons item rest ih =>
    change ((index.insert item.1 item.2).insertEach rest).found key = _
    rw [ih (by rwa [indexType_insert]), found_insert_listed listed, List.append_assoc, List.filter_cons]
    by_cases same : item.1 = key
    · simp [same]
    · simp [same]

theorem count_under_key (inserts : List (UInt64 × UInt32)) (key : UInt64) (id : UInt32) :
    ((inserts.filter (·.1 = key)).map Prod.snd).count id = inserts.count (key, id) := by
  induction inserts with
  | nil => rfl
  | cons item rest ih =>
    obtain ⟨other, shown⟩ := item
    rw [List.filter_cons, List.count_cons, ← ih]
    by_cases same : other = key
    · simp [same, List.count_cons]
    · simp [same]

/-- No bitmap has an id beyond 32 bits. -/
def Narrow (index : AdaptiveIndex S) : Prop :=
  ∀ (key : UInt32) (bitmap : S), index.bitmapIndex[key]? = some bitmap →
    ∀ i, IdSet.contains bitmap i = true → i < 2 ^ 32

theorem idsOf_nodup {bitmap : S} (narrow : ∀ i, IdSet.contains bitmap i = true → i < 2 ^ 32) :
    (idsOf bitmap).Nodup := by
  refine List.Nodup.map_on ?_ (IdSet.iter_nodup bitmap)
  intro i first j second same
  have one := narrow i ((IdSet.mem_iter bitmap i).mp first)
  have two := narrow j ((IdSet.mem_iter bitmap j).mp second)
  have equal := congrArg UInt32.toNat same
  rwa [UInt32.toNat_ofNat', UInt32.toNat_ofNat', Nat.mod_eq_of_lt one, Nat.mod_eq_of_lt two] at equal

theorem Narrow.insert {index : AdaptiveIndex S} (narrow : Narrow index) (key : UInt64) (id : UInt32) :
    Narrow (index.insert key id) := by
  unfold AdaptiveIndex.insert
  cases index.indexType with
  | bTree => exact narrow
  | hash => exact narrow
  | range => exact narrow
  | bitmap =>
    intro slot bitmap held i present
    have low := id.toNat_lt
    by_cases here : slot = key.toUInt32
    · subst here
      rw [setBit, getElem?_entry_self, Option.some.injEq] at held
      rw [← held, IdSet.contains_insert, Bool.or_eq_true, beq_iff_eq] at present
      rcases present with rfl | old
      · exact low
      · cases under : index.bitmapIndex[key.toUInt32]? with
        | none =>
          rw [under, Option.getD_none, IdSet.contains_empty] at old
          cases old
        | some known =>
          rw [under, Option.getD_some] at old
          exact narrow key.toUInt32 known under i old
    · rw [setBit, getElem?_entry_ne _ here] at held
      exact narrow slot bitmap held i present

theorem Narrow.insertEach {index : AdaptiveIndex S} (narrow : Narrow index)
    (inserts : List (UInt64 × UInt32)) : Narrow (index.insertEach inserts) :=
  foldl_invariant Narrow (fun _ item h => h.insert item.1 item.2) narrow inserts

theorem Narrow.nodup {index : AdaptiveIndex S} (narrow : Narrow index)
    (bits : index.indexType = .bitmap) (key : UInt64) : (index.found key).Nodup := by
  simp only [found, bits]
  cases under : index.bitmapIndex[key.toUInt32]? with
  | none => exact List.nodup_nil
  | some bitmap => exact idsOf_nodup (narrow key.toUInt32 bitmap under)

theorem Entered.narrow {index : AdaptiveIndex S} (entered : Entered index)
    (bits : index.indexType = .bitmap) : Narrow index := by
  have empty : index.bitmapIndex = ∅ := by
    cases entered with
    | new indexPath => rfl
    | migrated index other =>
      unfold migrateTo at bits ⊢
      rw [if_neg other] at bits ⊢
      cases bits
      rfl
  intro key bitmap held
  simp [empty] at held

theorem findsExactly_iff_found (index : AdaptiveIndex S) (inserts : List (UInt64 × UInt32)) (key : UInt64) :
    FindsExactly index inserts key ↔
      (∀ id, id ∈ index.found key ↔ (key, id) ∈ inserts) ∧ (index.found key).Nodup := by
  constructor
  · intro h
    exact ⟨fun id => h.mem_iff id 0, h.once 0⟩
  · rintro ⟨mem_iff, once⟩
    exact ⟨fun id _ => mem_iff id, fun _ => once⟩

/-- Bitmaps hold an id once. -/
theorem findsExactly_bitmap {index : AdaptiveIndex S} (entered : Entered index)
    (bits : index.indexType = .bitmap) (inserts : List (UInt64 × UInt32)) (key : UInt64) :
    FindsExactly (index.insertEach inserts) inserts key ↔
      ∀ item ∈ inserts, item.1.toUInt32 = key.toUInt32 → (key, item.2) ∈ inserts := by
  have once : ((index.insertEach inserts).found key).Nodup :=
    ((entered.narrow bits).insertEach inserts).nodup ((indexType_insertEach index inserts).trans bits) key
  have shows : ∀ id, id ∈ (index.insertEach inserts).found key ↔
      ∃ item ∈ inserts, item.1.toUInt32 = key.toUInt32 ∧ id = item.2 := by
    intro id
    rw [mem_found_insertEach, entered.found key]
    simp [SameKey, bits]
  rw [findsExactly_iff_found]
  constructor
  · rintro ⟨exactly, _⟩ item member same
    exact (exactly item.2).mp ((shows item.2).mpr ⟨item, member, same, rfl⟩)
  · intro distinct
    refine ⟨fun id => ?_, once⟩
    rw [shows]
    constructor
    · rintro ⟨item, member, same, rfl⟩
      exact distinct item member same
    · intro member
      exact ⟨(key, id), member, rfl, rfl⟩

/-- Lists hold every id in the order of the inserts. -/
theorem findsExactly_listed {index : AdaptiveIndex S} (entered : Entered index)
    (listed : index.indexType ≠ .bitmap) (inserts : List (UInt64 × UInt32)) (key : UInt64) :
    FindsExactly (index.insertEach inserts) inserts key ↔ ∀ id, inserts.count (key, id) ≤ 1 := by
  rw [findsExactly_iff_found, found_insertEach_listed listed, entered.found key, List.nil_append,
    List.nodup_iff_count_le_one]
  simp only [count_under_key]
  constructor
  · intro h
    exact h.2
  · intro distinct
    refine ⟨fun id => ?_, distinct⟩
    simp only [List.mem_map, List.mem_filter, decide_eq_true_eq]
    constructor
    · rintro ⟨⟨other, shown⟩, ⟨member, rfl⟩, rfl⟩
      exact member
    · intro member
      exact ⟨(key, id), ⟨member, rfl⟩, rfl⟩

/-- Whatever the type, a query is exact on the inserts that the container in use
tells apart. -/
theorem findsExactly_iff {index : AdaptiveIndex S} (entered : Entered index)
    (inserts : List (UInt64 × UInt32)) (key : UInt64) :
    FindsExactly (index.insertEach inserts) inserts key ↔ Distinct index.indexType inserts key := by
  cases type : index.indexType with
  | bitmap => exact findsExactly_bitmap entered type inserts key
  | bTree =>
    have listed : index.indexType ≠ .bitmap := by simp [type]
    exact findsExactly_listed entered listed inserts key
  | hash =>
    have listed : index.indexType ≠ .bitmap := by simp [type]
    exact findsExactly_listed entered listed inserts key
  | range =>
    have listed : index.indexType ≠ .bitmap := by simp [type]
    exact findsExactly_listed entered listed inserts key

theorem findsExactly_two : FindsExactly ((new "x.idx" : AdaptiveIndex SortedIds).insertEach [(1, 7), (1, 8)])
    [(1, 7), (1, 8)] 1 := by
  apply (findsExactly_iff (.new "x.idx") _ _).mpr
  intro item member _
  rcases List.mem_pair.mp member with rfl | rfl
  · exact List.mem_cons_self
  · exact List.mem_cons_of_mem _ List.mem_cons_self

/-- Two keys with one low half, and a pair inserted twice into a B-tree. -/
theorem narrowed_and_repeated :
    ¬ FindsExactly ((new "x.idx" : AdaptiveIndex SortedIds).insertEach [(1, 7)]) [(1, 7)] 4294967297 ∧
      ¬ FindsExactly (((new "x.idx" : AdaptiveIndex SortedIds).migrateTo .bTree).insertEach
        [(1, 7), (1, 7)]) [(1, 7), (1, 7)] 1 := by
  constructor
  · intro exactly
    exact absurd ((exactly.mem_iff 7 0).mp (by decide +kernel)) (by decide)
  · intro exactly
    exact absurd (exactly.once 0) (by decide +kernel)

end AdaptiveIndex

end Hyperplane
