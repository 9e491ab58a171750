import Mathlib.Data.Finset.Basic
import Hyperplane.Lib.Maps
import Hyperplane.Lib.Postings
import Hyperplane.Types.Account
import Hyperplane.Types.Bitmap

/-! What the bitmap indexes have in common: a bitmap of account ids for each
key, over a dictionary of ids the index assigns itself. -/
namespace Hyperplane
open Maps

structure IdBitmaps (S K : Type) [Ord K] where
  bitmaps : Std.TreeMap K (PubkeyBitmap S) := ∅
  pubkeyDict : Std.TreeMap Pubkey Nat := ∅
  nextPubkeyId : Nat := 0

namespace IdBitmaps

variable {S K : Type} [IdSet S] [Ord K]

def accountId (ids : IdBitmaps S K) (account : Pubkey) : Nat × IdBitmaps S K :=
  match ids.pubkeyDict[account]? with
  | some id => (id, ids)
  | none => (ids.nextPubkeyId, { ids with
      pubkeyDict := ids.pubkeyDict.insert account ids.nextPubkeyId
      nextPubkeyId := ids.nextPubkeyId + 1 })

def setBit (ids : IdBitmaps S K) (key : K) (id : Nat) : IdBitmaps S K :=
  match ids.bitmaps[key]? with
  | some bitmap => { ids with bitmaps := ids.bitmaps.insert key (bitmap.insert id).2 }
  | none => { ids with bitmaps := ids.bitmaps.insert key (PubkeyBitmap.new.insert id).2 }

def mark (ids : IdBitmaps S K) (account : Pubkey) (key : K) : IdBitmaps S K :=
  (ids.accountId account).2.setBit key (ids.accountId account).1

def unmark (ids : IdBitmaps S K) (account : Pubkey) (key : K) : IdBitmaps S K :=
  match ids.bitmaps[key]?, ids.pubkeyDict[account]? with
  | some bitmap, some id => { ids with bitmaps := ids.bitmaps.insert key (bitmap.remove id).2 }
  | _, _ => ids

def idToPubkey (ids : IdBitmaps S K) : Std.TreeMap Nat Pubkey :=
  .ofList (ids.pubkeyDict.toList.map fun pair => (pair.2, pair.1))

def accounts (ids : IdBitmaps S K) (key : K) : Option (List Pubkey) :=
  ids.bitmaps[key]?.map fun bitmap => bitmap.iter.filterMap fun id => ids.idToPubkey[id]?

def Listed (ids : IdBitmaps S K) (key : K) (account : Pubkey) : Prop :=
  ∃ found, ids.accounts key = some found ∧ account ∈ found

/-- Every id is used once, and only ids already assigned are in a bitmap. -/
structure WellFormed (ids : IdBitmaps S K) : Prop where
  injective : ∀ (a b : Pubkey) (i : Nat), ids.pubkeyDict[a]? = some i →
    ids.pubkeyDict[b]? = some i → a = b
  assigned : ∀ (a : Pubkey) (i : Nat), ids.pubkeyDict[a]? = some i → i < ids.nextPubkeyId
  used : ∀ (k : K) (bitmap : PubkeyBitmap S) (i : Nat), ids.bitmaps[k]? = some bitmap →
    bitmap.contains i = true → i < ids.nextPubkeyId

def HasBit (ids : IdBitmaps S K) (key : K) (account : Pubkey) : Prop :=
  ∃ bitmap id, ids.bitmaps[key]? = some bitmap ∧ ids.pubkeyDict[account]? = some id ∧
    bitmap.contains id = true

theorem WellFormed.idToPubkey_iff {ids : IdBitmaps S K} (wf : ids.WellFormed) (id : Nat)
    (account : Pubkey) : ids.idToPubkey[id]? = some account ↔ ids.pubkeyDict[account]? = some id := by
  have distinct : (ids.pubkeyDict.toList.map fun pair => (pair.2, pair.1)).Pairwise
      (fun a b => ¬ compare a.1 b.1 = .eq) := by
    rw [List.pairwise_map]
    refine (List.Pairwise.and_mem.mp ids.pubkeyDict.distinct_keys_toList).imp ?_
    rintro ⟨a, i⟩ ⟨b, j⟩ ⟨here, there, different⟩ same
    have same : i = j := Std.LawfulEqOrd.eq_of_compare same
    subst same
    have equal := wf.injective a b i (Std.TreeMap.mem_toList_iff_getElem?_eq_some.mp here)
      (Std.TreeMap.mem_toList_iff_getElem?_eq_some.mp there)
    subst equal
    exact different Std.ReflCmp.compare_self
  have assigned_found (a : Pubkey) (assigned : ids.pubkeyDict[a]? = some id) :
      ids.idToPubkey[id]? = some a :=
    Std.TreeMap.getElem?_ofList_of_mem Std.ReflCmp.compare_self distinct
      (List.mem_map.mpr ⟨(a, id), Std.TreeMap.mem_toList_iff_getElem?_eq_some.mpr assigned, rfl⟩)
  constructor
  · intro found
    cases known : ((ids.pubkeyDict.toList.map fun pair => (pair.2, pair.1)).map Prod.fst).contains id with
    | false =>
      have none : ids.idToPubkey[id]? = none := Std.TreeMap.getElem?_ofList_of_contains_eq_false known
      rw [none] at found
      cases found
    | true =>
      simp only [List.map_map, List.contains_iff_mem, List.mem_map, Function.comp_apply] at known
      obtain ⟨⟨a, i⟩, member, rfl⟩ := known
      have assigned := Std.TreeMap.mem_toList_iff_getElem?_eq_some.mp member
      rw [assigned_found a assigned] at found
      cases found
      exact assigned
  · exact assigned_found account

theorem WellFormed.listed_iff {ids : IdBitmaps S K} (wf : ids.WellFormed) (key : K)
    (account : Pubkey) : ids.Listed key account ↔ ids.HasBit key account := by
  unfold Listed HasBit accounts
  constructor
  · rintro ⟨found, lookup, member⟩
    obtain ⟨bitmap, present, rfl⟩ := Option.map_eq_some_iff.mp lookup
    obtain ⟨id, bit, named⟩ := List.mem_filterMap.mp member
    exact ⟨bitmap, id, present, (wf.idToPubkey_iff id account).mp named, (bitmap.mem_iter id).mp bit⟩
  · rintro ⟨bitmap, id, present, assigned, bit⟩
    refine ⟨_, Option.map_eq_some_iff.mpr ⟨bitmap, present, rfl⟩, List.mem_filterMap.mpr ⟨id, ?_, ?_⟩⟩
    · exact (bitmap.mem_iter id).mpr bit
    · exact (wf.idToPubkey_iff id account).mpr assigned

theorem accountId_spec {ids : IdBitmaps S K} (wf : ids.WellFormed) (account : Pubkey) :
    (ids.accountId account).2.WellFormed ∧
      (ids.accountId account).2.pubkeyDict[account]? = some (ids.accountId account).1 ∧
        (ids.accountId account).2.bitmaps = ids.bitmaps ∧
          ∀ key a, (ids.accountId account).2.HasBit key a ↔ ids.HasBit key a := by
  unfold accountId
  split
  · rename_i id known
    exact ⟨wf, known, rfl, fun _ _ => Iff.rfl⟩
  · rename_i unknown
    have dict (a : Pubkey) (i : Nat) :
        (ids.pubkeyDict.insert account ids.nextPubkeyId)[a]? = some i ↔
          (a = account ∧ i = ids.nextPubkeyId) ∨ ids.pubkeyDict[a]? = some i := by
      by_cases same : a = account
      · subst same
        simp [unknown, eq_comm]
      · rw [getElem?_insert_ne _ same]
        simp [same]
    refine ⟨⟨?_, ?_, ?_⟩, by simp, rfl, ?_⟩
    · intro a b i first second
      rcases (dict a i).mp first with ⟨new, fresh⟩ | old
      · rcases (dict b i).mp second with ⟨again, _⟩ | older
        · rw [new, again]
        · have below := wf.assigned b i older
          omega
      · rcases (dict b i).mp second with ⟨_, fresh⟩ | older
        · have below := wf.assigned a i old
          omega
        · exact wf.injective a b i old older
    · intro a i assigned
      rcases (dict a i).mp assigned with ⟨_, rfl⟩ | old
      · exact Nat.lt_succ_self _
      · exact Nat.lt_succ_of_lt (wf.assigned a i old)
    · intro k bitmap i present bit
      exact Nat.lt_succ_of_lt (wf.used k bitmap i present bit)
    · intro key a
      constructor
      · -- The new id is above every id in a bitmap, so no old bit becomes the account's.
        rintro ⟨bitmap, i, present, assigned, bit⟩
        rcases (dict a i).mp assigned with ⟨_, rfl⟩ | old
        · exact absurd (wf.used key bitmap _ present bit) (Nat.lt_irrefl _)
        · exact ⟨bitmap, i, present, old, bit⟩
      · rintro ⟨bitmap, i, present, old, bit⟩
        exact ⟨bitmap, i, present, (dict a i).mpr (.inr old), bit⟩

theorem setBit_rest (ids : IdBitmaps S K) (key : K) (id : Nat) :
    (ids.setBit key id).pubkeyDict = ids.pubkeyDict ∧
      (ids.setBit key id).nextPubkeyId = ids.nextPubkeyId := by
  unfold setBit
  split <;> exact ⟨rfl, rfl⟩

variable [Std.TransOrd K] [Std.LawfulEqOrd K]

theorem setBit_self (ids : IdBitmaps S K) (key : K) (id : Nat) :
    (ids.setBit key id).bitmaps[key]? = some ((ids.bitmaps[key]?.getD .new).insert id).2 := by
  unfold setBit
  split <;> simp_all

theorem setBit_ne (ids : IdBitmaps S K) {key k : K} (other : k ≠ key) (id : Nat) :
    (ids.setBit key id).bitmaps[k]? = ids.bitmaps[k]? := by
  unfold setBit
  split <;> exact getElem?_insert_ne _ other _

theorem hasBit_setBit {ids : IdBitmaps S K} (wf : ids.WellFormed) {account : Pubkey} {id : Nat}
    (assigned : ids.pubkeyDict[account]? = some id) (key k : K) (a : Pubkey) :
    (ids.setBit key id).HasBit k a ↔ ids.HasBit k a ∨ (k = key ∧ a = account) := by
  unfold HasBit
  rw [(ids.setBit_rest key id).1]
  by_cases same : k = key
  · subst same
    rw [setBit_self]
    constructor
    · rintro ⟨bitmap, i, present, named, bit⟩
      cases present
      simp only [PubkeyBitmap.contains_insert, Bool.or_eq_true, beq_iff_eq] at bit
      rcases bit with rfl | old
      · exact .inr ⟨rfl, wf.injective a account i named assigned⟩
      · obtain ⟨bitmap, present, bit⟩ := (PubkeyBitmap.contains_getD _ i).mp old
        exact .inl ⟨bitmap, i, present, named, bit⟩
    · rintro (⟨bitmap, i, present, named, bit⟩ | ⟨_, rfl⟩)
      · exact ⟨_, i, rfl, named, by simp [present, bit]⟩
      · exact ⟨_, id, rfl, assigned, by simp⟩
  · rw [setBit_ne _ same]
    simp [same]

theorem mark_spec {ids : IdBitmaps S K} (wf : ids.WellFormed) (account : Pubkey) (key : K) :
    (ids.mark account key).WellFormed ∧
      ∀ k a, (ids.mark account key).HasBit k a ↔ ids.HasBit k a ∨ (k = key ∧ a = account) := by
  obtain ⟨known, assigned, same, listed⟩ := accountId_spec wf account
  obtain ⟨dict, next⟩ := (ids.accountId account).2.setBit_rest key (ids.accountId account).1
  constructor
  · constructor
    · rw [mark, dict]
      exact known.injective
    · rw [mark, dict, next]
      exact known.assigned
    · intro k bitmap i present bit
      rw [mark, next]
      rw [mark] at present
      by_cases here : k = key
      · subst here
        rw [setBit_self] at present
        cases present
        simp only [PubkeyBitmap.contains_insert, Bool.or_eq_true, beq_iff_eq] at bit
        rcases bit with rfl | old
        · exact known.assigned account _ assigned
        · obtain ⟨bitmap, before, bit⟩ := (PubkeyBitmap.contains_getD _ i).mp old
          exact known.used k bitmap i before bit
      · rw [setBit_ne _ here] at present
        exact known.used k bitmap i present bit
  · intro k a
    rw [mark, hasBit_setBit known assigned, listed]

theorem unmark_spec {ids : IdBitmaps S K} (wf : ids.WellFormed) (account : Pubkey) (key : K) :
    (ids.unmark account key).WellFormed ∧
      ∀ k a, (ids.unmark account key).HasBit k a ↔ ids.HasBit k a ∧ ¬ (k = key ∧ a = account) := by
  unfold unmark
  split
  · rename_i bitmap id present assigned
    constructor
    · refine ⟨wf.injective, wf.assigned, ?_⟩
      intro k other i found bit
      by_cases same : k = key
      · subst same
        rw [Std.TreeMap.getElem?_insert_self] at found
        cases found
        simp only [PubkeyBitmap.contains_remove, Bool.and_eq_true] at bit
        exact wf.used k bitmap i present bit.2
      · rw [getElem?_insert_ne _ same] at found
        exact wf.used k other i found bit
    · intro k a
      unfold HasBit
      by_cases same : k = key
      · subst same
        simp only [Std.TreeMap.getElem?_insert_self, present]
        constructor
        · rintro ⟨_, i, ⟨⟩, named, bit⟩
          simp only [PubkeyBitmap.contains_remove, Bool.and_eq_true, bne_iff_ne] at bit
          refine ⟨⟨bitmap, i, rfl, named, bit.2⟩, ?_⟩
          rintro ⟨_, rfl⟩
          rw [assigned] at named
          exact bit.1 (Option.some.inj named).symm
        · rintro ⟨⟨_, i, ⟨⟩, named, bit⟩, other⟩
          refine ⟨_, i, rfl, named, ?_⟩
          simp only [PubkeyBitmap.contains_remove, Bool.and_eq_true, bne_iff_ne]
          refine ⟨?_, bit⟩
          rintro rfl
          exact other ⟨trivial, wf.injective a account i named assigned⟩
      · simp only [getElem?_insert_ne _ same, same, false_and, not_false_eq_true, and_true]
  · rename_i absent
    refine ⟨wf, fun k a => ?_⟩
    constructor
    · rintro ⟨bitmap, i, present, named, bit⟩
      refine ⟨⟨bitmap, i, present, named, bit⟩, ?_⟩
      rintro ⟨rfl, rfl⟩
      exact absent bitmap i present named
    · exact And.left

/-- The keys with a bitmap, whether or not a bit of it is set. -/
theorem accounts_isSome_mark (ids : IdBitmaps S K) (account : Pubkey) (key k : K) :
    ((ids.mark account key).accounts k).isSome ↔ (ids.accounts k).isSome ∨ k = key := by
  have same : (ids.accountId account).2.bitmaps = ids.bitmaps := by
    unfold accountId
    split <;> rfl
  unfold accounts mark
  by_cases here : k = key
  · subst here
    simp [setBit_self]
  · rw [setBit_ne _ here, same]
    simp [here]

end IdBitmaps

/-- An index with one key for each account, remembered in a reverse map. -/
structure KeyedIndex (S K : Type) [Ord K] where
  ids : IdBitmaps S K := {}
  accountToKey : Std.TreeMap Pubkey K := ∅
  totalAccounts : Nat := 0

namespace KeyedIndex

variable {S K : Type} [IdSet S] [Ord K]

/-- The reverse map takes the new key; the bit under an older one stays. -/
def add (index : KeyedIndex S K) (account : Pubkey) (key : K) : KeyedIndex S K where
  ids := index.ids.mark account key
  accountToKey := index.accountToKey.insert account key
  totalAccounts := index.totalAccounts + 1

def remove (index : KeyedIndex S K) (account : Pubkey) : KeyedIndex S K :=
  match index.accountToKey[account]? with
  | some key => {
      ids := index.ids.unmark account key
      accountToKey := index.accountToKey.erase account
      totalAccounts := index.totalAccounts - 1 }
  | none => index

def get (index : KeyedIndex S K) (key : K) : Option (List Pubkey) := index.ids.accounts key

def postings (index : KeyedIndex S K) : Postings K Pubkey where
  Listed := index.ids.Listed
  current account := index.accountToKey[account]?

theorem postings_listed (index : KeyedIndex S K) (key : K) (account : Pubkey) :
    index.postings.Listed key account ↔
      ∃ found, index.get key = some found ∧ account ∈ found := Iff.rfl

variable [Std.TransOrd K]

theorem empty_wellFormed : (({} : KeyedIndex S K).ids).WellFormed where
  injective a b i assigned _ := by simp at assigned
  assigned a i assigned := by simp at assigned
  used k bitmap i present _ := by simp at present

theorem empty_postings : ({} : KeyedIndex S K).postings = Postings.none := by
  apply Postings.ext
  · funext key account
    simp [postings, Postings.none, IdBitmaps.Listed, IdBitmaps.accounts]
  · funext account
    simp [postings, Postings.none]

variable [Std.LawfulEqOrd K]

theorem add_spec {index : KeyedIndex S K} (wf : index.ids.WellFormed) (account : Pubkey) (key : K) :
    (index.add account key).ids.WellFormed ∧
      (index.add account key).postings = index.postings.publish account key := by
  obtain ⟨after, bits⟩ := IdBitmaps.mark_spec wf account key
  refine ⟨after, ?_⟩
  apply Postings.ext
  · funext k a
    change (index.ids.mark account key).Listed k a = (index.ids.Listed k a ∨ (k = key ∧ a = account))
    rw [after.listed_iff, wf.listed_iff, bits]
  · funext a
    by_cases same : a = account
    · subst same
      simp [postings, Postings.publish, add]
    · simp only [postings, Postings.publish, add, if_neg same]
      exact getElem?_insert_ne _ same key

theorem remove_spec {index : KeyedIndex S K} (wf : index.ids.WellFormed) (account : Pubkey) :
    (index.remove account).ids.WellFormed ∧
      (index.remove account).postings = index.postings.withdraw account := by
  cases current : index.accountToKey[account]? with
  | none =>
    have kept : index.remove account = index := by simp [remove, current]
    rw [kept]
    refine ⟨wf, ?_⟩
    apply Postings.ext
    · funext k a
      simp [postings, Postings.withdraw, current]
    · funext a
      by_cases same : a = account
      · subst same
        simp [postings, Postings.withdraw, current]
      · simp [postings, Postings.withdraw, same]
  | some key =>
    obtain ⟨after, bits⟩ := IdBitmaps.unmark_spec wf account key
    have removed : index.remove account = ⟨index.ids.unmark account key,
        index.accountToKey.erase account, index.totalAccounts - 1⟩ := by
      simp [remove, current]
    rw [removed]
    refine ⟨after, ?_⟩
    apply Postings.ext
    · funext k a
      simp only [postings, Postings.withdraw, current, Option.some.injEq]
      rw [after.listed_iff, wf.listed_iff, bits, and_comm (a := k = key), eq_comm (a := k)]
    · funext a
      by_cases same : a = account
      · subst same
        simp [postings, Postings.withdraw]
      · simp only [postings, Postings.withdraw, if_neg same]
        exact getElem?_erase_ne _ same

/-- Accounts added under one key are listed there, beside what was listed before. -/
theorem listed_addAll {index : KeyedIndex S K} (wf : index.ids.WellFormed) (accounts : List Pubkey)
    (key : K) : (accounts.foldl (fun index account => index.add account key) index).ids.WellFormed ∧
      ∀ k a, (accounts.foldl (fun index account => index.add account key) index).ids.Listed k a ↔
        index.ids.Listed k a ∨ (k = key ∧ a ∈ accounts) := by
  induction accounts generalizing index with
  | nil => exact ⟨wf, by simp⟩
  | cons account rest ih =>
    obtain ⟨after, published⟩ := add_spec wf account key
    obtain ⟨final, listed⟩ := ih after
    refine ⟨final, fun k a => ?_⟩
    have first : (index.add account key).ids.Listed k a ↔
        index.ids.Listed k a ∨ (k = key ∧ a = account) := by
      have same := congrFun (congrFun (congrArg Postings.Listed published) k) a
      exact iff_of_eq same
    rw [List.foldl_cons, listed, first, List.mem_cons, or_assoc, ← and_or_left]

end KeyedIndex

end Hyperplane
