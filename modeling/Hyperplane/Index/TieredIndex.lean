import Hyperplane.Index.LsmInterleaving
import Hyperplane.Types.Account

/-! The index in three tiers, by the slots since an account was last used. Each
tier is a bitmap whose inserts may start a compaction in the background. -/
namespace Hyperplane
open Transition

def HOT_THRESHOLD_SLOTS : UInt64 := 100

def WARM_THRESHOLD_SLOTS : UInt64 := 10000

inductive StorageTier where
  | hot
  | warm
  | cold
  deriving DecidableEq

structure AccountMetadata where
  lastAccessSlot : UInt64
  accessCount : UInt64
  tier : StorageTier

namespace AccountMetadata

def new (currentSlot : UInt64) : AccountMetadata := ⟨currentSlot, 1, .hot⟩

def slotsSinceAccess (metadata : AccountMetadata) (currentSlot : UInt64) : UInt64 :=
  if currentSlot < metadata.lastAccessSlot then 0 else currentSlot - metadata.lastAccessSlot

def calculateTier (metadata : AccountMetadata) (currentSlot : UInt64) : StorageTier :=
  if metadata.slotsSinceAccess currentSlot < HOT_THRESHOLD_SLOTS then .hot
  else if metadata.slotsSinceAccess currentSlot < WARM_THRESHOLD_SLOTS then .warm
  else .cold

def access (metadata : AccountMetadata) (currentSlot : UInt64) : StorageTier × AccountMetadata :=
  let accessed := { metadata with
    lastAccessSlot := currentSlot
    accessCount := metadata.accessCount + 1 }
  let tier := accessed.calculateTier currentSlot
  (tier, { accessed with tier := tier })

end AccountMetadata

/-- The tier of an account so many slots after its last use. -/
def StorageTier.due (elapsed : Nat) : StorageTier :=
  if elapsed < 100 then .hot else if elapsed < 10000 then .warm else .cold

theorem StorageTier.due_eq_hot_iff (elapsed : Nat) : StorageTier.due elapsed = .hot ↔ elapsed < 100 := by
  unfold due
  split
  · simp [*]
  · split <;> simp [*]

namespace AccountMetadata

theorem toNat_slotsSinceAccess (metadata : AccountMetadata) (currentSlot : UInt64) :
    (metadata.slotsSinceAccess currentSlot).toNat =
      currentSlot.toNat - metadata.lastAccessSlot.toNat := by
  unfold slotsSinceAccess
  split
  · rename_i earlier
    have := UInt64.lt_iff_toNat_lt.mp earlier
    simp only [UInt64.toNat_zero]
    omega
  · rename_i later
    exact UInt64.toNat_sub_of_le _ _ (UInt64.not_lt.mp later)

/-- The thresholds compare as they should. -/
theorem calculateTier_eq_due (metadata : AccountMetadata) (currentSlot : UInt64) :
    metadata.calculateTier currentSlot =
      .due (currentSlot.toNat - metadata.lastAccessSlot.toNat) := by
  simp only [calculateTier, StorageTier.due, UInt64.lt_iff_toNat_lt, toNat_slotsSinceAccess]
  rfl

/-- An account is hot at every access, however old it was. -/
theorem access_hot (metadata : AccountMetadata) (currentSlot : UInt64) :
    (metadata.access currentSlot).1 = .hot := by
  refine (calculateTier_eq_due _ currentSlot).trans ?_
  rw [Nat.sub_self]
  rfl

end AccountMetadata

/-- A bitmap, and the compactions that its inserts started and that still run. -/
structure LsmStore (S : Type) where
  bitmap : LsmBitmap S
  compactions : List (Compaction S)

namespace LsmStore

variable {S : Type} [IdUnion S]

def new : LsmStore S := ⟨.new, []⟩

def insert (store : LsmStore S) (id : UInt32) : LsmStore S :=
  let (started, bitmap) := store.bitmap.insert id
  ⟨bitmap, if started then store.compactions ++ [.copying true] else store.compactions⟩

/-- The next section of a compaction. -/
def advance (store : LsmStore S) (i : Nat) : Option (LsmStore S) :=
  match store.compactions[i]? with
  | none => none
  | some c => match c.advance store.bitmap with
    | none => none
    | some (.finished, bitmap) => some ⟨bitmap, store.compactions.eraseIdx i⟩
    | some (next, bitmap) => some ⟨bitmap, store.compactions.set i next⟩

end LsmStore

structure TieredIndex (S : Type) where
  hotIndex : LsmStore S
  warmIndex : LsmStore S
  coldIndex : LsmStore S
  metadata : Std.TreeMap Pubkey AccountMetadata
  currentSlot : UInt64

namespace TieredIndex

variable {S : Type}

def setCurrentSlot (index : TieredIndex S) (slot : UInt64) : TieredIndex S :=
  { index with currentSlot := slot }

/-- The account id is not used: only the metadata changes. -/
def accessAccount (index : TieredIndex S) (_accountId : UInt32) (pubkey : Pubkey) :
    StorageTier × TieredIndex S :=
  match index.metadata[pubkey]? with
  | some metadata =>
    let (tier, accessed) := metadata.access index.currentSlot
    (tier, { index with metadata := index.metadata.insert pubkey accessed })
  | none =>
    let metadata := AccountMetadata.new index.currentSlot
    (metadata.tier, { index with metadata := index.metadata.insert pubkey metadata })

/-- The tier that an access reports is never another one. -/
theorem accessAccount_hot (index : TieredIndex S) (accountId : UInt32) (pubkey : Pubkey) :
    (index.accessAccount accountId pubkey).1 = .hot := by
  unfold accessAccount
  cases index.metadata[pubkey]? with
  | some metadata => exact metadata.access_hot index.currentSlot
  | none => rfl

theorem accessAccount_snd (index : TieredIndex S) (accountId : UInt32) (pubkey : Pubkey) :
    ∃ metadata, (index.accessAccount accountId pubkey).2 = { index with metadata := metadata } := by
  unfold accessAccount
  cases index.metadata[pubkey]? <;> exact ⟨_, rfl⟩

variable [IdUnion S]

def new : TieredIndex S := ⟨.new, .new, .new, ∅, 0⟩

def insertAccount (index : TieredIndex S) (accountId : UInt32) (pubkey : Pubkey) : TieredIndex S :=
  let metadata := { AccountMetadata.new index.currentSlot with tier := .hot }
  let filled := match metadata.tier with
    | .hot => { index with hotIndex := index.hotIndex.insert accountId }
    | .warm => { index with warmIndex := index.warmIndex.insert accountId }
    | .cold => { index with coldIndex := index.coldIndex.insert accountId }
  { filled with metadata := index.metadata.insert pubkey metadata }

def queryHot (index : TieredIndex S) : S := index.hotIndex.bitmap.query

def queryWarm (index : TieredIndex S) : S := index.warmIndex.bitmap.query

def queryCold (index : TieredIndex S) : S := index.coldIndex.bitmap.query

def query (index : TieredIndex S) : StorageTier → S
  | .hot => index.queryHot
  | .warm => index.queryWarm
  | .cold => index.queryCold

/-- A compaction of one of the bitmaps takes its next section. -/
def background (index : TieredIndex S) (i : Nat) : StorageTier → Option (TieredIndex S)
  | .hot => (index.hotIndex.advance i).map fun store => { index with hotIndex := store }
  | .warm => (index.warmIndex.advance i).map fun store => { index with warmIndex := store }
  | .cold => (index.coldIndex.advance i).map fun store => { index with coldIndex := store }

end TieredIndex

namespace LsmStore

variable {S : Type} [IdUnion S]

/-- The copy of a running compaction has the id. -/
def Carries (store : LsmStore S) (id : UInt32) : Prop :=
  ∃ c ∈ store.compactions, (LsmPhase.compacting c).carries id = true

/-- The id is in the bitmap, or on its way from the deltas to the base. -/
def Has (store : LsmStore S) (id : UInt32) : Prop :=
  store.bitmap.inBase id = true ∨ store.bitmap.inDeltas id = true ∨ store.Carries id

/-- At most one compaction runs, under the flag, and its copy has kept up with the base. -/
def Sound (store : LsmStore S) : Prop :=
  store.compactions = [] ∨ ∃ c, store.compactions = [c] ∧
    store.bitmap.compactionInProgress = true ∧
    ∀ newBase, (LsmPhase.compacting c).copy = some newBase →
      ∀ id, store.bitmap.inBase id = true → IdSet.contains newBase id.toNat = true

theorem new_sound : (new : LsmStore S).Sound := .inl rfl

theorem Sound.insert {store : LsmStore S} (h : store.Sound) (id : UInt32) : (store.insert id).Sound := by
  rcases store.bitmap.insert_cases id with ⟨decided, taken⟩ | ⟨_, taken⟩
  · -- A compaction is started only when the flag says that none runs.
    have idle : store.bitmap.compactionInProgress = false := by
      have flag : (store.bitmap.addDelta id).compactionInProgress = false := by
        simpa using (Bool.and_eq_true_iff.mp decided).1
      exact flag
    have none : store.compactions = [] := by
      refine h.resolve_right ?_
      rintro ⟨_, _, running, _⟩
      cases idle.symm.trans running
    refine .inr ⟨.copying true, ?_, ?_, ?_⟩
    · simp [LsmStore.insert, taken, none]
    · simp [LsmStore.insert, taken, LsmBitmap.setInProgress]
    · intro newBase impossible
      cases impossible
  · refine h.imp (fun none => ?_) ?_
    · simpa [LsmStore.insert, taken] using none
    · rintro ⟨c, single, running, copied⟩
      refine ⟨c, ?_, ?_, ?_⟩
      · simpa [LsmStore.insert, taken] using single
      · simpa [LsmStore.insert, taken, LsmBitmap.addDelta] using running
      · simpa [LsmStore.insert, taken] using copied

theorem has_insert (store : LsmStore S) (id : UInt32) {other : UInt32} (h : other = id ∨ store.Has other) :
    (store.insert id).Has other := by
  have base := store.bitmap.inBase_insert id other
  have deltas := store.bitmap.inDeltas_insert id other
  rcases h with new | inBase | inDeltas | ⟨c, member, carries⟩
  · exact .inr (.inl (deltas.mpr (.inl new)))
  · exact .inl (base.trans inBase)
  · exact .inr (.inl (deltas.mpr (.inr inDeltas)))
  · refine .inr (.inr ⟨c, ?_, carries⟩)
    simp only [LsmStore.insert]
    split
    · exact List.mem_append_left _ member
    · exact member

theorem has_single (bitmap : LsmBitmap S) (c : Compaction S) (id : UInt32) :
    (⟨bitmap, [c]⟩ : LsmStore S).Has id ↔ bitmap.inBase id = true ∨ bitmap.inDeltas id = true ∨
      (LsmPhase.compacting c).carries id = true := by
  simp [Has, Carries]

theorem has_of_settled {store : LsmStore S} {id : UInt32}
    (h : store.bitmap.inBase id = true ∨ store.bitmap.inDeltas id = true) : store.Has id :=
  h.imp_right .inl

/-- A compaction without a copy holds no id back. -/
theorem settled_of_has {bitmap : LsmBitmap S} {c : Compaction S} {id : UInt32}
    (none : (LsmPhase.compacting c).copy = none) (h : (⟨bitmap, [c]⟩ : LsmStore S).Has id) :
    bitmap.inBase id = true ∨ bitmap.inDeltas id = true := by
  rcases (has_single bitmap c id).mp h with base | delta | carried
  · exact .inl base
  · exact .inr delta
  · cases (LsmPhase.not_carries none id).symm.trans carried

/-- No section of the one compaction loses an id. -/
theorem Sound.advance {store next : LsmStore S} (h : store.Sound) {i : Nat}
    (taken : store.advance i = some next) : next.Sound ∧ ∀ id, store.Has id → next.Has id := by
  rcases h with none | ⟨c, single, running, copied⟩
  · simp [LsmStore.advance, none] at taken
  · obtain ⟨bitmap, compactions⟩ := store
    obtain rfl : compactions = [c] := single
    cases i with
    | succ i => simp [LsmStore.advance] at taken
    | zero =>
      cases c with
      | copying background =>
        cases taken
        refine ⟨.inr ⟨_, rfl, running, ?_⟩, fun id has => has_of_settled (settled_of_has rfl has)⟩
        rintro newBase ⟨⟩ id base
        exact base
      | draining background newBase =>
        cases taken
        have merged (id : UInt32) := (bitmap.contains_mergeDeltas newBase id).mpr
        refine ⟨.inr ⟨_, rfl, running, ?_⟩, fun id has => (has_single _ _ id).mpr ?_⟩
        · rintro _ ⟨⟩ id base
          exact merged id (.inl (copied newBase rfl id base))
        · rcases (has_single _ _ id).mp has with base | delta | carried
          · exact .inl base
          · exact .inr (.inr (merged id (.inr delta)))
          · exact .inr (.inr (merged id (.inl carried)))
      | writing background newBase =>
        cases taken
        refine ⟨.inr ⟨_, rfl, running, ?_⟩, fun id has => has_of_settled ?_⟩
        · rintro _ ⟨⟩
        · rcases (has_single _ _ id).mp has with base | delta | carried
          · exact .inl (copied newBase rfl id base)
          · exact .inr delta
          · exact .inl carried
      | resetting background =>
        cases background with
        | true =>
          cases taken
          refine ⟨.inr ⟨_, rfl, running, ?_⟩, fun id has => has_of_settled (settled_of_has rfl has)⟩
          rintro _ ⟨⟩
        | false =>
          cases taken
          exact ⟨.inl rfl, fun id has => has_of_settled (settled_of_has rfl has)⟩
      | unflagging =>
        cases taken
        exact ⟨.inl rfl, fun id has => has_of_settled (settled_of_has rfl has)⟩
      | finished => cases taken

end LsmStore

end Hyperplane
