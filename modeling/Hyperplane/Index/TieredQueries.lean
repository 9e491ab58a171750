import Hyperplane.Lib.Maps
import Hyperplane.Index.LsmStats
import Hyperplane.Index.TieredIndexRuns

/-! What the three tiers together, their statistics and the metadata of the accounts say
after any calls. -/
namespace Hyperplane
open Transition Maps

structure TieredIndexStats where
  hotCardinality : Nat
  warmCardinality : Nat
  coldCardinality : Nat
  totalAccounts : UInt64

namespace TieredIndex

variable {S : Type} [IdUnion S]

def queryAll (index : TieredIndex S) : S :=
  IdUnion.union (IdUnion.union index.queryHot index.queryWarm) index.queryCold

/-- The id is inserted, and removed from nowhere. -/
def promoteToHot (index : TieredIndex S) (accountId : UInt32) : TieredIndex S :=
  { index with hotIndex := index.hotIndex.insert accountId }

def stats (index : TieredIndex S) : TieredIndexStats where
  hotCardinality := index.hotIndex.bitmap.stats.estimatedTotal
  warmCardinality := index.warmIndex.bitmap.stats.estimatedTotal
  coldCardinality := index.coldIndex.bitmap.stats.estimatedTotal
  totalAccounts := .ofNat index.metadata.size

end TieredIndex

theorem AccountMetadata.access_snd (metadata : AccountMetadata) (currentSlot : UInt64) :
    (metadata.access currentSlot).2 = ⟨currentSlot, metadata.accessCount + 1, .hot⟩ :=
  congrArg (AccountMetadata.mk currentSlot (metadata.accessCount + 1)) (metadata.access_hot currentSlot)

namespace LsmStore

variable {S : Type} [IdUnion S]

theorem has_insert_iff (store : LsmStore S) (id other : UInt32) :
    (store.insert id).Has other ↔ other = id ∨ store.Has other := by
  refine ⟨fun has => ?_, store.has_insert id⟩
  rcases has with base | delta | ⟨c, member, carries⟩
  · exact .inr (.inl ((store.bitmap.inBase_insert id other).symm.trans base))
  · exact ((store.bitmap.inDeltas_insert id other).mp delta).imp_right fun before => .inr (.inl before)
  · simp only [insert] at member
    split at member
    · obtain before | rfl := List.mem_append.mp member |>.imp_right List.mem_singleton.mp
      · exact .inr (.inr (.inr ⟨c, before, carries⟩))
      · cases carries
    · exact .inr (.inr (.inr ⟨c, member, carries⟩))

/-- A section of a compaction adds no id. -/
theorem has_of_advance {store next : LsmStore S} {i : Nat} (single : ∃ c, store.compactions = [c])
    (taken : store.advance i = some next) {id : UInt32} (has : next.Has id) : store.Has id := by
  obtain ⟨c, single⟩ := single
  obtain ⟨bitmap, compactions⟩ := store
  obtain rfl : compactions = [c] := single
  cases i with
  | succ i => simp [LsmStore.advance] at taken
  | zero =>
    cases c with
    | copying background =>
      cases taken
      obtain base | delta | carried := (has_single _ _ id).mp has
      · exact .inl base
      · exact .inr (.inl delta)
      · exact .inl carried
    | draining background newBase =>
      cases taken
      obtain base | delta | carried := (has_single _ _ id).mp has
      · exact .inl base
      · cases (bitmap.inDeltas_clearDeltas id).symm.trans delta
      · obtain copied | delta := (bitmap.contains_mergeDeltas newBase id).mp carried
        · exact (has_single _ _ id).mpr (.inr (.inr copied))
        · exact .inr (.inl delta)
    | writing background newBase =>
      cases taken
      obtain base | delta | carried := (has_single _ _ id).mp has
      · exact (has_single _ _ id).mpr (.inr (.inr base))
      · exact .inr (.inl delta)
      · cases carried
    | resetting background =>
      cases background with
      | true =>
        cases taken
        exact has_of_settled (settled_of_has (c := .unflagging) rfl has)
      | false =>
        cases taken
        obtain base | delta | ⟨_, none, _⟩ := has
        · exact .inl base
        · exact .inr (.inl delta)
        · cases none
    | unflagging =>
      cases taken
      obtain base | delta | ⟨_, none, _⟩ := has
      · exact .inl base
      · exact .inr (.inl delta)
      · cases none
    | finished => cases taken

end LsmStore

inductive TieredCall where
  | setCurrentSlot (slot : UInt64)
  | insertAccount (accountId : UInt32) (pubkey : Pubkey)
  | accessAccount (accountId : UInt32) (pubkey : Pubkey)
  | promoteToHot (accountId : UInt32)
  | background (tier : StorageTier) (i : Nat)

structure AccountUse where
  slot : UInt64
  inserted : Bool

/-- The index, the ids inserted and promoted, and the uses of the accounts, the last one first. -/
structure TieredCalls (S : Type) where
  index : TieredIndex S
  ids : List UInt32
  uses : List (Pubkey × AccountUse)

namespace TieredCalls

variable {S : Type} [IdUnion S]

def start : TieredCalls S := ⟨.new, [], []⟩

def step (s : TieredCalls S) : TieredCall → Option (TieredCalls S)
  | .setCurrentSlot slot => some { s with index := s.index.setCurrentSlot slot }
  | .insertAccount accountId pubkey => some {
      index := s.index.insertAccount accountId pubkey
      ids := accountId :: s.ids
      uses := (pubkey, ⟨s.index.currentSlot, true⟩) :: s.uses }
  | .accessAccount accountId pubkey => some { s with
      index := (s.index.accessAccount accountId pubkey).2
      uses := (pubkey, ⟨s.index.currentSlot, false⟩) :: s.uses }
  | .promoteToHot accountId => some { s with
      index := s.index.promoteToHot accountId
      ids := accountId :: s.ids }
  | .background tier i => (s.index.background i tier).map fun index => { s with index := index }

def usesOf (uses : List (Pubkey × AccountUse)) (pubkey : Pubkey) : List AccountUse :=
  (uses.filter (·.1 = pubkey)).map Prod.snd

/-- An insert begins to count anew. -/
def counted (uses : List AccountUse) : Nat :=
  (uses.takeWhile (!·.inserted)).length + if uses.any (·.inserted) then 1 else 0

/-- The metadata that the uses of an account come to. -/
def metadataOf (uses : List AccountUse) : Option AccountMetadata :=
  uses.head?.map fun last => ⟨last.slot, .ofNat (counted uses), .hot⟩

/-- The ids are in the hot index or in the copy of its compaction. -/
structure Filled (s : TieredCalls S) : Prop where
  sound : s.index.hotIndex.Sound
  has : ∀ id, s.index.hotIndex.Has id ↔ id ∈ s.ids
  warm : s.index.warmIndex = .new
  cold : s.index.coldIndex = .new

theorem start_filled : (start : TieredCalls S).Filled := by
  refine ⟨LsmStore.new_sound, fun id => ?_, rfl, rfl⟩
  simp [start, TieredIndex.new, LsmStore.new, LsmStore.Has, LsmStore.Carries, LsmBitmap.new,
    LsmBitmap.withConfig, LsmBitmap.inBase, LsmBitmap.inDeltas, IdSet.contains_empty]

theorem Filled.inserted {s : TieredCalls S} (h : s.Filled) (accountId : UInt32)
    (metadata : Std.TreeMap Pubkey AccountMetadata) (uses : List (Pubkey × AccountUse)) : Filled { s with
      index := { s.index with hotIndex := s.index.hotIndex.insert accountId, metadata := metadata }
      ids := accountId :: s.ids, uses := uses } where
  sound := h.sound.insert accountId
  has id := by rw [LsmStore.has_insert_iff, h.has, List.mem_cons]
  warm := h.warm
  cold := h.cold

theorem Filled.step {s t : TieredCalls S} (h : s.Filled) {call : TieredCall} (taken : s.step call = some t) :
    t.Filled := by
  cases call with
  | setCurrentSlot slot =>
    cases taken
    exact ⟨h.sound, h.has, h.warm, h.cold⟩
  | insertAccount accountId pubkey =>
    cases taken
    exact h.inserted accountId _ _
  | promoteToHot accountId =>
    cases taken
    exact h.inserted accountId s.index.metadata s.uses
  | accessAccount accountId pubkey =>
    cases taken
    obtain ⟨metadata, accessed⟩ := s.index.accessAccount_snd accountId pubkey
    refine ⟨?_, ?_, ?_, ?_⟩ <;> rw [accessed]
    · exact h.sound
    · exact h.has
    · exact h.warm
    · exact h.cold
  | background tier i =>
    obtain ⟨index, advanced, rfl⟩ := Option.map_eq_some_iff.mp taken
    cases tier with
    | hot =>
      obtain ⟨store, moved, rfl⟩ := Option.map_eq_some_iff.mp advanced
      obtain ⟨sound, kept⟩ := h.sound.advance moved
      have single : ∃ c, s.index.hotIndex.compactions = [c] := by
        obtain none | ⟨c, single, _⟩ := h.sound
        · simp [LsmStore.advance, none] at moved
        · exact ⟨c, single⟩
      exact ⟨sound, fun id => ⟨fun has => (h.has id).mp (LsmStore.has_of_advance single moved has),
        fun member => kept id ((h.has id).mpr member)⟩, h.warm, h.cold⟩
    | warm =>
      rw [TieredIndex.background, h.warm] at advanced
      cases advanced
    | cold =>
      rw [TieredIndex.background, h.cold] at advanced
      cases advanced

theorem counted_insert (slot : UInt64) (uses : List AccountUse) : counted (⟨slot, true⟩ :: uses) = 1 := by
  simp [counted]

theorem counted_access (slot : UInt64) (uses : List AccountUse) :
    counted (⟨slot, false⟩ :: uses) = counted uses + 1 := by
  simp [counted]
  omega

theorem usesOf_cons (pubkey : Pubkey) (use : AccountUse) (uses : List (Pubkey × AccountUse)) (other : Pubkey) :
    usesOf ((pubkey, use) :: uses) other =
      if other = pubkey then use :: usesOf uses other else usesOf uses other := by
  unfold usesOf
  by_cases same : other = pubkey
  · rw [List.filter_cons_of_pos (by simp [same]), if_pos same, List.map_cons]
  · rw [List.filter_cons_of_neg (by simpa using Ne.symm same), if_neg same]

/-- The metadata are those that the uses come to. -/
def Described (s : TieredCalls S) : Prop :=
  ∀ pubkey : Pubkey, s.index.metadata[pubkey]? = metadataOf (usesOf s.uses pubkey)

omit [IdUnion S] in
theorem metadata_access (index : TieredIndex S) (accountId : UInt32) (pubkey : Pubkey) {uses : List AccountUse}
    (known : index.metadata[pubkey]? = metadataOf uses) (other : Pubkey) :
    (index.accessAccount accountId pubkey).2.metadata[other]? =
      if other = pubkey then metadataOf (⟨index.currentSlot, false⟩ :: uses) else index.metadata[other]? := by
  have inserted (metadata : AccountMetadata) := getElem?_insert_ite index.metadata pubkey other metadata
  unfold TieredIndex.accessAccount
  cases found : index.metadata[pubkey]? with
  | none =>
    refine (inserted _).trans ?_
    cases uses with
    | nil => rfl
    | cons last earlier => cases found.symm.trans known
  | some metadata =>
    refine (inserted (metadata.access index.currentSlot).2).trans ?_
    cases uses with
    | nil => cases found.symm.trans known
    | cons last earlier =>
      cases found.symm.trans known
      rw [AccountMetadata.access_snd, metadataOf, counted_access, UInt64.ofNat_add]
      rfl

theorem Described.step {s t : TieredCalls S} (h : s.Described) {call : TieredCall}
    (taken : s.step call = some t) : t.Described := by
  intro other
  cases call with
  | setCurrentSlot slot =>
    cases taken
    exact h other
  | promoteToHot accountId =>
    cases taken
    exact h other
  | insertAccount accountId pubkey =>
    cases taken
    rw [usesOf_cons]
    refine (getElem?_insert_ite s.index.metadata pubkey other _).trans ?_
    split
    · rw [metadataOf, counted_insert]
      rfl
    · exact h other
  | accessAccount accountId pubkey =>
    cases taken
    rw [usesOf_cons]
    refine (metadata_access s.index accountId pubkey (h pubkey) other).trans ?_
    split
    · rename_i same
      rw [same]
    · exact h other
  | background tier i =>
    obtain ⟨index, advanced, rfl⟩ := Option.map_eq_some_iff.mp taken
    have kept : index.metadata = s.index.metadata := by
      cases tier <;>
      · obtain ⟨_, _, rfl⟩ := Option.map_eq_some_iff.mp advanced
        rfl
    exact kept ▸ h other

theorem Filled.contains_queryAll {s : TieredCalls S} (h : s.Filled) (id : UInt32) :
    IdSet.contains s.index.queryAll id.toNat = true ↔ IdSet.contains s.index.queryHot id.toNat = true := by
  rw [TieredIndex.queryAll, IdUnion.contains_union, IdUnion.contains_union, TieredIndex.queryWarm,
    TieredIndex.queryCold, h.warm, h.cold, TieredIndexRun.contains_new, Bool.or_false, Bool.or_false]

omit [IdUnion S] in
/-- The accounts that are counted are those that were used. -/
theorem Described.size {s : TieredCalls S} (h : s.Described) :
    s.index.metadata.size = (s.uses.map Prod.fst).dedup.length := by
  refine size_eq_dedup fun pubkey => ?_
  have used : usesOf s.uses pubkey ≠ [] ↔ pubkey ∈ s.uses.map Prod.fst := by
    simp [usesOf, List.filter_eq_nil_iff]
  rw [h pubkey, ← used, metadataOf]
  cases usesOf s.uses pubkey <;> simp

/-- After any calls, with compactions running between them: the tiers together have the
ids inserted and promoted and no others, except that an id may be on its way in the copy
of a compaction; the statistics count the accounts used, nothing in the lower tiers, and
in the hot tier no less than it has; and the metadata of an account are those of its
uses, under its last slot, and hot. -/
theorem tiers_follow_calls {calls : List TieredCall} {s : TieredCalls S}
    (ran : Run (ofPartial step) start calls s) :
    (∀ id, IdSet.contains s.index.queryAll id.toNat = true → id ∈ s.ids) ∧
    (∀ id ∈ s.ids, IdSet.contains s.index.queryAll id.toNat = true ∨ s.index.hotIndex.Carries id) ∧
    IdSet.len s.index.queryHot ≤ s.index.stats.hotCardinality ∧ s.index.stats.warmCardinality = 0 ∧
    s.index.stats.coldCardinality = 0 ∧
    s.index.stats.totalAccounts = .ofNat (s.uses.map Prod.fst).dedup.length ∧
    ∀ pubkey : Pubkey, s.index.metadata[pubkey]? = metadataOf (usesOf s.uses pubkey) := by
  have filled : s.Filled := run_invariant Filled (fun _ _ _ h taken => h.step taken) start_filled ran
  have described : s.Described :=
    run_invariant Described (fun _ _ _ h taken => h.step taken) (fun _ => rfl) ran
  have empty : (LsmStore.new : LsmStore S).bitmap.stats.estimatedTotal = 0 := by
    change IdSet.len (IdSet.empty : S) + (IdSet.len (IdSet.empty : S) + 0) = 0
    rw [IdSet.len_empty]
  refine ⟨fun id found => ?_, fun id member => ?_, IdUnion.len_foldl_le _ _, ?_, ?_, ?_, described⟩
  · have hot := (LsmBitmap.contains_query _ id).mp ((filled.contains_queryAll id).mp found)
    exact (filled.has id).mp (LsmStore.has_of_settled hot)
  · rw [filled.contains_queryAll, TieredIndex.queryHot, LsmBitmap.contains_query, or_assoc]
    exact (filled.has id).mpr member
  · rw [TieredIndex.stats, filled.warm]
    exact empty
  · rw [TieredIndex.stats, filled.cold]
    exact empty
  · rw [TieredIndex.stats, described.size]

/-- The access under another id counts for the account, and the promoted id has no metadata. -/
theorem promoted_and_accessed :
    let pubkey : Pubkey := Vector.replicate 32 1
    ∃ s : TieredCalls SortedIds, Run (ofPartial step) start
        [.setCurrentSlot 5, .insertAccount 7 pubkey, .promoteToHot 9, .setCurrentSlot 6,
          .accessAccount 8 pubkey] s ∧
      IdSet.iter s.index.queryAll = [7, 9] ∧ s.index.stats.hotCardinality = 2 ∧
      s.index.stats.totalAccounts = 1 ∧ s.index.metadata[pubkey]? = metadataOf [⟨6, false⟩, ⟨5, true⟩] := by
  intro pubkey
  have ran := (run_ofPartial (step (S := SortedIds)) [.setCurrentSlot 5, .insertAccount 7 pubkey, .promoteToHot 9,
    .setCurrentSlot 6, .accessAccount 8 pubkey] start _).mpr rfl
  obtain ⟨_, _, _, _, _, _, described⟩ := tiers_follow_calls ran
  exact ⟨_, ran, by decide +kernel, by decide +kernel, by decide +kernel, described pubkey⟩

end TieredCalls

end Hyperplane
