import Hyperplane.Manager.IndexManager

/-! The keys of an account, and what an update and a removal do to the lookups
of the manager's indexes. -/
namespace Hyperplane

inductive IndexKey where
  | program (programId : Pubkey)
  | tokenOwner (owner : Pubkey)
  | tokenMint (mint : Pubkey)
  | dataSize (size : Nat)
  | memcmp (offset : Nat) (bytes : List UInt8)
  | discriminator (disc : Discriminator)
  deriving DecidableEq

namespace AccountView

def HasKey (account : AccountView) : IndexKey → Prop
  | .program programId => programId = account.owner
  | .tokenOwner owner => account.isTokenAccount ∧ owner.toList = (account.data.take 64).drop 32
  | .tokenMint mint => account.isTokenAccount ∧ mint.toList = account.data.take 32
  | .dataSize size => size = account.data.length
  | .memcmp offset bytes => offset = 0 ∧ ((8 ≤ account.data.length ∧ bytes = account.data.take 8) ∨
      (32 ≤ account.data.length ∧ bytes = account.data.take 32))
  | .discriminator disc => 8 ≤ account.data.length ∧ disc.toList = account.data.take 8

theorem pubkeyOf_eq_iff {bytes : List UInt8} (long : bytes.length = 32) (pubkey : Pubkey) :
    pubkey = pubkeyOf bytes ↔ pubkey.toList = bytes := by
  obtain ⟨found, some⟩ : ∃ found, Pubkey.tryFrom bytes = some found :=
    ⟨_, by rw [Pubkey.tryFrom, dif_pos long]⟩
  have same := (Pubkey.tryFrom_eq_some bytes found).mp some
  rw [pubkeyOf, some, Option.getD_some, same]
  constructor
  · rintro rfl
    rfl
  · intro lists
    exact Vector.toArray_inj.mp (Array.toList_inj.mp lists)

theorem discriminatorOf_eq_iff {data : List UInt8} (long : 8 ≤ data.length) (disc : Discriminator) :
    disc = discriminatorOf data ↔ disc.toList = data.take 8 := by
  have bytes : (discriminatorOf data).toList = data.take 8 := by
    apply List.ext_getElem
    · simp [long]
    · intro i below _
      have inside : i < data.length := by simp at below; omega
      simp [discriminatorOf, inside]
  rw [← bytes]
  constructor
  · rintro rfl
    rfl
  · intro lists
    exact Vector.toArray_inj.mp (Array.toList_inj.mp lists)

theorem hasKey_mint (account : AccountView) (mint : Pubkey) :
    account.HasKey (.tokenMint mint) ↔ account.isTokenAccount ∧ mint = account.mint := by
  apply and_congr_right
  intro token
  have long := token.2
  exact (pubkeyOf_eq_iff (by simp; omega) mint).symm

theorem hasKey_tokenOwner (account : AccountView) (owner : Pubkey) :
    account.HasKey (.tokenOwner owner) ↔ account.isTokenAccount ∧ owner = account.tokenOwner := by
  apply and_congr_right
  intro token
  have long := token.2
  exact (pubkeyOf_eq_iff (by simp; omega) owner).symm

/-- The fields that decide the keys of the old version are the same in the new one. -/
structure SameKeys (old new : AccountView) : Prop where
  owner : old.owner = new.owner
  length : old.data.length = new.data.length
  eight : 8 ≤ old.data.length → old.data.take 8 = new.data.take 8
  thirtyTwo : 32 ≤ old.data.length → old.data.take 32 = new.data.take 32
  token : old.isTokenAccount → old.data.take 64 = new.data.take 64

theorem hasKey_subset_iff (old new : AccountView) :
    (∀ key, old.HasKey key → new.HasKey key) ↔ SameKeys old new := by
  constructor
  · intro kept
    have owner : old.owner = new.owner := kept (.program old.owner) rfl
    have length : old.data.length = new.data.length := kept (.dataSize old.data.length) rfl
    -- The two memcmp keys of a version differ in length, so neither passes for the other.
    have thirtyTwo (long : 32 ≤ old.data.length) : old.data.take 32 = new.data.take 32 := by
      obtain ⟨_, ⟨_, wrong⟩ | ⟨_, same⟩⟩ := kept (.memcmp 0 (old.data.take 32)) ⟨rfl, .inr ⟨long, rfl⟩⟩
      · have lengths := congrArg List.length wrong
        simp only [List.length_take] at lengths
        omega
      · exact same
    refine ⟨owner, length, ?_, thirtyTwo, ?_⟩
    · intro long
      obtain ⟨_, ⟨_, same⟩ | ⟨_, wrong⟩⟩ := kept (.memcmp 0 (old.data.take 8)) ⟨rfl, .inl ⟨long, rfl⟩⟩
      · exact same
      · have lengths := congrArg List.length wrong
        simp only [List.length_take] at lengths
        omega
    · intro token
      have long := token.2
      have first := thirtyTwo (by omega)
      have second := (kept (.tokenOwner old.tokenOwner)
        ((hasKey_tokenOwner old old.tokenOwner).mpr ⟨token, rfl⟩)).2
      rw [tokenOwner, (pubkeyOf_eq_iff (by simp; omega) _).mp rfl] at second
      have split (data : List UInt8) : data.take 64 = data.take 32 ++ (data.take 64).drop 32 := by
        have joined := List.take_append_drop 32 (data.take 64)
        rw [List.take_take] at joined
        exact joined.symm
      rw [split old.data, split new.data, first, second]
  · intro same key had
    have token (isToken : old.isTokenAccount) : new.isTokenAccount :=
      ⟨same.owner ▸ isToken.1, same.length ▸ isToken.2⟩
    cases key with
    | program programId => exact had.trans same.owner
    | tokenOwner owner =>
      obtain ⟨isToken, bytes⟩ := had
      exact ⟨token isToken, bytes.trans (congrArg (List.drop 32) (same.token isToken))⟩
    | tokenMint mint =>
      obtain ⟨isToken, bytes⟩ := had
      have long := isToken.2
      exact ⟨token isToken, bytes.trans (same.thirtyTwo (by omega))⟩
    | dataSize size => exact had.trans same.length
    | memcmp offset bytes =>
      obtain ⟨start, ⟨long, rfl⟩ | ⟨long, rfl⟩⟩ := had
      · exact ⟨start, .inl ⟨same.length ▸ long, same.eight long⟩⟩
      · exact ⟨start, .inr ⟨same.length ▸ long, same.thirtyTwo long⟩⟩
    | discriminator disc =>
      obtain ⟨long, bytes⟩ := had
      exact ⟨same.length ▸ long, bytes.trans (same.eight long)⟩

end AccountView

namespace KeyedIndex

variable {S K : Type} [IdSet S] [Ord K]

def Kept (index : Option (KeyedIndex S K)) : Prop := ∃ i, index = some i ∧ i.ids.WellFormed

def postingsOf (index : Option (KeyedIndex S K)) : Postings K Pubkey :=
  (index.map postings).getD .none

variable [Std.TransOrd K] [Std.LawfulEqOrd K]

theorem kept_add {index : Option (KeyedIndex S K)} (kept : Kept index) (account : Pubkey) (key : K) :
    Kept (index.map (add · account key)) ∧
      postingsOf (index.map (add · account key)) = (postingsOf index).publish account key := by
  obtain ⟨i, rfl, wf⟩ := kept
  obtain ⟨after, published⟩ := add_spec wf account key
  exact ⟨⟨_, rfl, after⟩, published⟩

theorem listed_add {index : Option (KeyedIndex S K)} (kept : Kept index) (account : Pubkey)
    (key l : K) (a : Pubkey) : (postingsOf (index.map (add · account key))).Listed l a ↔
      (postingsOf index).Listed l a ∨ (a = account ∧ l = key) := by
  rw [(kept_add kept account key).2, Postings.listed_publish]
  exact or_congr_right and_comm

theorem kept_addIf {index : Option (KeyedIndex S K)} (kept : Kept index) (c : Prop) [Decidable c]
    (account : Pubkey) (key : K) : Kept (if c then index.map (add · account key) else index) ∧
      ∀ l a, (postingsOf (if c then index.map (add · account key) else index)).Listed l a ↔
        (postingsOf index).Listed l a ∨ (a = account ∧ c ∧ l = key) := by
  split
  · rename_i checked
    refine ⟨(kept_add kept account key).1, fun l a => ?_⟩
    rw [listed_add kept]
    simp only [checked, true_and]
  · rename_i failed
    refine ⟨kept, fun l a => ?_⟩
    simp [failed]

theorem kept_remove {index : Option (KeyedIndex S K)} (kept : Kept index) (account : Pubkey) :
    Kept (index.map (remove · account)) ∧
      postingsOf (index.map (remove · account)) = (postingsOf index).withdraw account := by
  obtain ⟨i, rfl, wf⟩ := kept
  obtain ⟨after, withdrawn⟩ := remove_spec wf account
  exact ⟨⟨_, rfl, after⟩, withdrawn⟩

end KeyedIndex

namespace IndexManager
open KeyedIndex

variable {S : Type} [IdSet S]

def lookup (manager : IndexManager S) : IndexKey → Option (List Pubkey)
  | .program programId => manager.programIndex.bind fun index =>
    ProgramIndex.getProgramAccounts index programId
  | .tokenOwner owner => manager.tokenOwnerIndex.bind fun index =>
    TokenOwnerIndex.getTokenAccountsByOwner index owner
  | .tokenMint mint => manager.tokenMintIndex.bind fun index =>
    TokenMintIndex.getTokenAccountsByMint index mint
  | .dataSize size => manager.dataSizeIndex.bind fun index =>
    DataSizeIndex.getAccountsBySize index size
  | .memcmp offset bytes => manager.memcmpIndex.bind fun index =>
    index.getAccountsByMemcmp offset bytes
  | .discriminator disc => manager.discriminatorIndex.bind fun index =>
    DiscriminatorIndex.getAccountsByDiscriminator index disc

def Listed (manager : IndexManager S) (key : IndexKey) (pubkey : Pubkey) : Prop :=
  ∃ accounts, manager.lookup key = some accounts ∧ pubkey ∈ accounts

structure Sound (manager : IndexManager S) : Prop where
  program : Kept manager.programIndex
  tokenOwner : Kept manager.tokenOwnerIndex
  tokenMint : Kept manager.tokenMintIndex
  dataSize : Kept manager.dataSizeIndex
  memcmp : ∃ index, manager.memcmpIndex = some index ∧ index.ids.WellFormed
  discriminator : Kept manager.discriminatorIndex

theorem listed_postings {K : Type} [Ord K] (index : Option (KeyedIndex S K)) (key : K)
    (pubkey : Pubkey) : (∃ accounts, index.bind (KeyedIndex.get · key) = some accounts ∧
      pubkey ∈ accounts) ↔ (postingsOf index).Listed key pubkey := by
  cases index with
  | none => simp [postingsOf, Postings.none]
  | some i => exact (postings_listed i key pubkey).symm

theorem listed_program (manager : IndexManager S) (programId pubkey : Pubkey) :
    manager.Listed (.program programId) pubkey ↔
      (postingsOf manager.programIndex).Listed programId pubkey := listed_postings _ _ _

theorem listed_tokenOwner (manager : IndexManager S) (owner pubkey : Pubkey) :
    manager.Listed (.tokenOwner owner) pubkey ↔
      (postingsOf manager.tokenOwnerIndex).Listed owner pubkey := listed_postings _ _ _

theorem listed_tokenMint (manager : IndexManager S) (mint pubkey : Pubkey) :
    manager.Listed (.tokenMint mint) pubkey ↔
      (postingsOf manager.tokenMintIndex).Listed mint pubkey := listed_postings _ _ _

theorem listed_dataSize (manager : IndexManager S) (size : Nat) (pubkey : Pubkey) :
    manager.Listed (.dataSize size) pubkey ↔
      (postingsOf manager.dataSizeIndex).Listed size pubkey := listed_postings _ _ _

theorem listed_discriminator (manager : IndexManager S) (disc : Discriminator) (pubkey : Pubkey) :
    manager.Listed (.discriminator disc) pubkey ↔
      (postingsOf manager.discriminatorIndex).Listed disc pubkey := listed_postings _ _ _

theorem memcmp_listed {manager : IndexManager S} {index : MemcmpIndex S}
    (enabled : manager.memcmpIndex = some index) (offset : Nat) (bytes : List UInt8) (pubkey : Pubkey) :
    manager.Listed (.memcmp offset bytes) pubkey ↔ index.ids.Listed ⟨offset, bytes⟩ pubkey := by
  unfold Listed lookup
  rw [enabled]
  exact Iff.rfl

theorem addMemcmps_spec {index : MemcmpIndex S} (wf : index.ids.WellFormed) (account : AccountView)
    (slot : UInt64) : (addMemcmps account slot index).ids.WellFormed ∧
      (∀ f a, (addMemcmps account slot index).ids.HasBit f a ↔ index.ids.HasBit f a ∨
        (a = account.pubkey ∧ account.HasKey (.memcmp f.offset f.bytes))) ∧
      ∀ f, ((addMemcmps account slot index).ids.accounts f).isSome ↔ (index.ids.accounts f).isSome ∨
        account.HasKey (.memcmp f.offset f.bytes) := by
  have same (f : MemcmpFilter) (bytes : List UInt8) :
      f = ⟨0, bytes⟩ ↔ f.offset = 0 ∧ f.bytes = bytes := by
    cases f
    simp
  obtain ⟨wf8, bits8⟩ := IdBitmaps.mark_spec wf account.pubkey ⟨0, account.data.take 8⟩
  by_cases eight : 8 ≤ account.data.length
  · by_cases more : 32 ≤ account.data.length
    · obtain ⟨wf32, bits32⟩ := IdBitmaps.mark_spec wf8 account.pubkey ⟨0, account.data.take 32⟩
      simp only [addMemcmps, if_pos eight, if_pos more, MemcmpIndex.addAccountMemcmp]
      refine ⟨wf32, fun f a => ?_, fun f => ?_⟩
      · rw [bits32, bits8, same, same]
        simp only [AccountView.HasKey, eight, more, true_and]
        tauto
      · rw [IdBitmaps.accounts_isSome_mark, IdBitmaps.accounts_isSome_mark, same, same]
        simp only [AccountView.HasKey, eight, more, true_and]
        tauto
    · simp only [addMemcmps, if_pos eight, if_neg more, MemcmpIndex.addAccountMemcmp]
      refine ⟨wf8, fun f a => ?_, fun f => ?_⟩
      · rw [bits8, same]
        simp only [AccountView.HasKey, eight, more, true_and, false_and, or_false]
        tauto
      · rw [IdBitmaps.accounts_isSome_mark, same]
        simp only [AccountView.HasKey, eight, more, true_and, false_and, or_false]
  · have more : ¬ 32 ≤ account.data.length := by omega
    simp only [addMemcmps, if_neg eight, if_neg more]
    refine ⟨wf, fun f a => ?_, fun f => ?_⟩
    · simp [AccountView.HasKey, eight, more]
    · simp [AccountView.HasKey, eight, more]

theorem sound_new : (new {} : IndexManager S).Sound where
  program := ⟨_, rfl, empty_wellFormed⟩
  tokenOwner := ⟨_, rfl, empty_wellFormed⟩
  tokenMint := ⟨_, rfl, empty_wellFormed⟩
  dataSize := ⟨_, rfl, empty_wellFormed⟩
  memcmp := ⟨{}, rfl, (empty_wellFormed : ({} : KeyedIndex S MemcmpFilter).ids.WellFormed)⟩
  discriminator := ⟨_, rfl, empty_wellFormed⟩

theorem sound_update {manager : IndexManager S} (sound : manager.Sound) (account : AccountView)
    (slot : UInt64) : (manager.updateAccount account slot).Sound where
  program := (kept_add sound.program _ _).1
  tokenOwner := (kept_addIf sound.tokenOwner _ _ _).1
  tokenMint := (kept_addIf sound.tokenMint _ _ _).1
  dataSize := (kept_add sound.dataSize _ _).1
  memcmp := by
    obtain ⟨index, enabled, wf⟩ := sound.memcmp
    exact ⟨addMemcmps account slot index, by simp [updateAccount, enabled],
      (addMemcmps_spec wf account slot).1⟩
  discriminator := (kept_addIf sound.discriminator _ _ _).1

theorem sound_remove {manager : IndexManager S} (sound : manager.Sound) (pubkey : Pubkey) :
    (manager.removeAccount pubkey).Sound where
  program := (kept_remove sound.program _).1
  tokenOwner := (kept_remove sound.tokenOwner _).1
  tokenMint := (kept_remove sound.tokenMint _).1
  dataSize := (kept_remove sound.dataSize _).1
  memcmp := sound.memcmp
  discriminator := sound.discriminator

/-- An update adds the account under its keys and takes nothing away. -/
theorem listed_update {manager : IndexManager S} (sound : manager.Sound) (account : AccountView)
    (slot : UInt64) (key : IndexKey) (pubkey : Pubkey) :
    (manager.updateAccount account slot).Listed key pubkey ↔
      manager.Listed key pubkey ∨ (pubkey = account.pubkey ∧ account.HasKey key) := by
  cases key with
  | program programId =>
    rw [listed_program manager]
    exact (listed_program _ _ _).trans (listed_add sound.program _ _ programId pubkey)
  | tokenOwner owner =>
    rw [listed_tokenOwner manager, AccountView.hasKey_tokenOwner]
    exact (listed_tokenOwner _ _ _).trans ((kept_addIf sound.tokenOwner _ _ _).2 owner pubkey)
  | tokenMint mint =>
    rw [listed_tokenMint manager, AccountView.hasKey_mint]
    exact (listed_tokenMint _ _ _).trans ((kept_addIf sound.tokenMint _ _ _).2 mint pubkey)
  | dataSize size =>
    rw [listed_dataSize manager]
    exact (listed_dataSize _ _ _).trans (listed_add sound.dataSize _ _ size pubkey)
  | memcmp offset bytes =>
    obtain ⟨index, enabled, wf⟩ := sound.memcmp
    obtain ⟨after, bits, _⟩ := addMemcmps_spec wf account slot
    have updated : (manager.updateAccount account slot).memcmpIndex =
        some (addMemcmps account slot index) := by
      simp [updateAccount, enabled]
    rw [memcmp_listed updated, memcmp_listed enabled, after.listed_iff, wf.listed_iff]
    exact bits ⟨offset, bytes⟩ pubkey
  | discriminator disc =>
    have key : account.HasKey (.discriminator disc) ↔
        8 ≤ account.data.length ∧ disc = discriminatorOf account.data :=
      and_congr_right fun long => (AccountView.discriminatorOf_eq_iff long disc).symm
    rw [listed_discriminator manager, key]
    exact (listed_discriminator _ _ _).trans ((kept_addIf sound.discriminator _ _ _).2 disc pubkey)

/-- The key its index remembers for an account, in the indexes that a removal
goes to; a removal forgets no other. -/
def Remembers (manager : IndexManager S) (pubkey : Pubkey) : IndexKey → Prop
  | .program programId => (postingsOf manager.programIndex).current pubkey = some programId
  | .tokenOwner owner => (postingsOf manager.tokenOwnerIndex).current pubkey = some owner
  | .tokenMint mint => (postingsOf manager.tokenMintIndex).current pubkey = some mint
  | .dataSize size => (postingsOf manager.dataSizeIndex).current pubkey = some size
  | .memcmp _ _ => False
  | .discriminator _ => False

theorem remembers_update {manager : IndexManager S} (sound : manager.Sound) (account : AccountView)
    (slot : UInt64) (pubkey : Pubkey) :
    (∀ programId, (manager.updateAccount account slot).Remembers pubkey (.program programId) ↔
      (pubkey = account.pubkey ∧ programId = account.owner) ∨
        (pubkey ≠ account.pubkey ∧ manager.Remembers pubkey (.program programId))) ∧
    ∀ size, (manager.updateAccount account slot).Remembers pubkey (.dataSize size) ↔
      (pubkey = account.pubkey ∧ size = account.data.length) ∨
        (pubkey ≠ account.pubkey ∧ manager.Remembers pubkey (.dataSize size)) := by
  have programs := (kept_add sound.program account.pubkey account.owner).2
  have sizes := (kept_add sound.dataSize account.pubkey account.data.length).2
  constructor
  · intro programId
    change (postingsOf (manager.programIndex.map (add · account.pubkey account.owner))).current
      pubkey = some programId ↔ _
    rw [programs]
    exact Postings.current_publish _ _ _ _ _
  · intro size
    change (postingsOf (manager.dataSizeIndex.map (add · account.pubkey account.data.length))).current
      pubkey = some size ↔ _
    rw [sizes]
    exact Postings.current_publish _ _ _ _ _

theorem remembers_remove {manager : IndexManager S} (sound : manager.Sound) {removed pubkey : Pubkey}
    (other : pubkey ≠ removed) (key : IndexKey) :
    (manager.removeAccount removed).Remembers pubkey key ↔ manager.Remembers pubkey key := by
  have kept {K : Type} [Ord K] [Std.TransOrd K] [Std.LawfulEqOrd K] {index : Option (KeyedIndex S K)}
      (ordered : Kept index) : (postingsOf (index.map (remove · removed))).current pubkey =
        (postingsOf index).current pubkey := by
    rw [(kept_remove ordered removed).2, Postings.current_withdraw _ other]
  cases key with
  | program programId => exact Iff.of_eq (congrArg (· = some programId) (kept sound.program))
  | tokenOwner owner => exact Iff.of_eq (congrArg (· = some owner) (kept sound.tokenOwner))
  | tokenMint mint => exact Iff.of_eq (congrArg (· = some mint) (kept sound.tokenMint))
  | dataSize size => exact Iff.of_eq (congrArg (· = some size) (kept sound.dataSize))
  | memcmp offset bytes => exact Iff.rfl
  | discriminator disc => exact Iff.rfl

theorem listed_remove {manager : IndexManager S} (sound : manager.Sound) (removed : Pubkey)
    (key : IndexKey) (pubkey : Pubkey) : (manager.removeAccount removed).Listed key pubkey ↔
      manager.Listed key pubkey ∧ ¬ (pubkey = removed ∧ manager.Remembers removed key) := by
  have withdrawn {K : Type} [Ord K] [Std.TransOrd K] [Std.LawfulEqOrd K]
      {index : Option (KeyedIndex S K)} (kept : Kept index) (l : K) :
      (postingsOf (index.map (KeyedIndex.remove · removed))).Listed l pubkey ↔
        (postingsOf index).Listed l pubkey ∧
          ¬ (pubkey = removed ∧ (postingsOf index).current removed = some l) := by
    rw [(kept_remove kept removed).2, Postings.listed_withdraw]
  cases key with
  | program programId =>
    rw [listed_program manager]
    exact (listed_program _ _ _).trans (withdrawn sound.program programId)
  | tokenOwner owner =>
    rw [listed_tokenOwner manager]
    exact (listed_tokenOwner _ _ _).trans (withdrawn sound.tokenOwner owner)
  | tokenMint mint =>
    rw [listed_tokenMint manager]
    exact (listed_tokenMint _ _ _).trans (withdrawn sound.tokenMint mint)
  | dataSize size =>
    rw [listed_dataSize manager]
    exact (listed_dataSize _ _ _).trans (withdrawn sound.dataSize size)
  | memcmp offset bytes => simp [Remembers, Listed, lookup, removeAccount]
  | discriminator disc => simp [Remembers, Listed, lookup, removeAccount]

end IndexManager

end Hyperplane
