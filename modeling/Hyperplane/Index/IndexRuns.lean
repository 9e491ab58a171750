import Hyperplane.Index.Indexes
import Hyperplane.Index.MemcmpAccelerator

/-! Runs of adds and removes on the account indexes: no lookup loses an account of its
bitmap, and when the counters beside the maps agree with them. -/
namespace Hyperplane
open Maps Transition

namespace IdBitmaps

variable {S K : Type} [Ord K]

/-- Every id that was assigned is somebody's. -/
def Dense (ids : IdBitmaps S K) : Prop :=
  ∀ id, id < ids.nextPubkeyId → ∃ account : Pubkey, ids.pubkeyDict[account]? = some id

theorem empty_dense : ({} : IdBitmaps S K).Dense := fun id below => absurd below (Nat.not_lt_zero id)

theorem Dense.accountId {ids : IdBitmaps S K} (h : ids.Dense) (account : Pubkey) :
    (ids.accountId account).2.Dense := by
  unfold IdBitmaps.accountId
  split
  · exact h
  · rename_i unknown
    intro id below
    by_cases last : id = ids.nextPubkeyId
    · subst last
      exact ⟨account, Std.TreeMap.getElem?_insert_self⟩
    · obtain ⟨other, assigned⟩ := h id (by simp only at below; omega)
      refine ⟨other, ?_⟩
      rw [getElem?_insert_ne _ _ _, assigned]
      rintro rfl
      rw [unknown] at assigned
      cases assigned

theorem Dense.congr {ids other : IdBitmaps S K} (h : ids.Dense) (dict : other.pubkeyDict = ids.pubkeyDict)
    (next : other.nextPubkeyId = ids.nextPubkeyId) : other.Dense := by
  intro id below
  rw [dict]
  exact h id (next ▸ below)

end IdBitmaps

variable {S : Type} [IdSet S]

inductive IndexCall (K : Type) where
  | add (account : Pubkey) (key : K) (slot : UInt64)
  | remove (account : Pubkey)

/-- A call, over the add and the remove of the index. -/
def IndexCall.on {I K : Type} (add : I → Pubkey → K → UInt64 → I) (remove : I → Pubkey → I)
    (index : I) : IndexCall K → I
  | .add account key slot => add index account key slot
  | .remove account => remove index account

def ProgramIndex.apply : ProgramIndex S → IndexCall Pubkey → ProgramIndex S :=
  IndexCall.on ProgramIndex.addAccount ProgramIndex.removeAccount

def DataSizeIndex.apply : DataSizeIndex S → IndexCall Nat → DataSizeIndex S :=
  IndexCall.on DataSizeIndex.addAccount DataSizeIndex.removeAccount

def DiscriminatorIndex.apply : DiscriminatorIndex S → IndexCall Discriminator → DiscriminatorIndex S :=
  IndexCall.on DiscriminatorIndex.addAccount DiscriminatorIndex.removeAccount

def TokenMintIndex.apply : TokenMintIndex S → IndexCall Pubkey → TokenMintIndex S :=
  IndexCall.on TokenMintIndex.addTokenAccount TokenMintIndex.removeTokenAccount

structure MemcmpAdd where
  account : Pubkey
  offset : Nat
  bytes : List UInt8
  slot : UInt64

def MemcmpIndex.apply (index : MemcmpIndex S) (call : MemcmpAdd) : MemcmpIndex S :=
  index.addAccountMemcmp call.account call.offset call.bytes call.slot

namespace IdBitmaps

variable {K : Type} [Ord K]

theorem Dense.mark {ids : IdBitmaps S K} (h : ids.Dense) (account : Pubkey) (key : K) :
    (ids.mark account key).Dense :=
  have rest := setBit_rest (ids.accountId account).2 key (ids.accountId account).1
  (h.accountId account).congr rest.1 rest.2

theorem Dense.unmark {ids : IdBitmaps S K} (h : ids.Dense) (account : Pubkey) (key : K) :
    (ids.unmark account key).Dense := by
  unfold IdBitmaps.unmark
  split
  · exact h.congr rfl rfl
  · exact h

/-- The dictionary is injective with its ids below the counter, every id of a bitmap is
somebody's, and a lookup lists as many different accounts as the bitmap has ids. -/
structure Lossless (ids : IdBitmaps S K) (lookup : K → Option (List Pubkey)) : Prop where
  injective : ∀ (a b : Pubkey) (id : Nat), ids.pubkeyDict[a]? = some id →
    ids.pubkeyDict[b]? = some id → a = b
  below : ∀ (a : Pubkey) (id : Nat), ids.pubkeyDict[a]? = some id → id < ids.nextPubkeyId
  resolved : ∀ (key : K) (bitmap : PubkeyBitmap S), ids.bitmaps[key]? = some bitmap → ∀ id ∈ bitmap.iter,
    ∃ account : Pubkey, ids.pubkeyDict[account]? = some id
  listed : ∀ key accounts, lookup key = some accounts → accounts.Nodup ∧
    ∃ bitmap : PubkeyBitmap S, ids.bitmaps[key]? = some bitmap ∧ accounts.length = IdSet.len bitmap.bitmap

theorem WellFormed.lossless {ids : IdBitmaps S K} (wf : ids.WellFormed) (dense : ids.Dense) :
    ids.Lossless ids.accounts := by
  have resolved (key : K) (bitmap : PubkeyBitmap S) (present : ids.bitmaps[key]? = some bitmap) :
      ∀ id ∈ bitmap.iter, ∃ account : Pubkey, ids.pubkeyDict[account]? = some id :=
    fun id member => dense id (wf.used key bitmap id present ((bitmap.mem_iter id).mp member))
  refine ⟨wf.injective, wf.assigned, resolved, fun key accounts lookup => ?_⟩
  obtain ⟨bitmap, present, rfl⟩ := Option.map_eq_some_iff.mp lookup
  refine ⟨?_, bitmap, present, ?_⟩
  · refine List.Nodup.filterMap (fun i j account first second => ?_) (IdSet.iter_nodup bitmap.bitmap)
    have here := (wf.idToPubkey_iff i account).mp first
    have there := (wf.idToPubkey_iff j account).mp second
    exact Option.some.inj (here.symm.trans there)
  · rw [IdSet.len_eq]
    refine List.filterMap_length_eq_length.mpr fun id member => ?_
    obtain ⟨account, assigned⟩ := resolved key bitmap present id member
    rw [(wf.idToPubkey_iff id account).mpr assigned]
    rfl

end IdBitmaps

section dictionaries

variable {K : Type} [Ord K] [Std.TransOrd K] [Std.LawfulEqOrd K]

theorem KeyedIndex.run_lossless (calls : List (IndexCall K)) :
    let index : KeyedIndex S K := calls.foldl
      (IndexCall.on (fun index account key _ => index.add account key) KeyedIndex.remove) {}
    index.ids.Lossless index.get := by
  intro index
  have kept : index.ids.WellFormed ∧ index.ids.Dense := by
    refine foldl_invariant (fun index : KeyedIndex S K => index.ids.WellFormed ∧ index.ids.Dense) ?_
      ⟨KeyedIndex.empty_wellFormed, IdBitmaps.empty_dense⟩ calls
    rintro index (⟨account, key, slot⟩ | account) ⟨wf, dense⟩
    · exact ⟨(KeyedIndex.add_spec wf account key).1, dense.mark account key⟩
    · refine ⟨(KeyedIndex.remove_spec wf account).1, ?_⟩
      change (KeyedIndex.remove index account).ids.Dense
      unfold KeyedIndex.remove
      split
      · exact dense.unmark account _
      · exact dense
  exact kept.1.lossless kept.2

theorem MemcmpIndex.run_lossless (calls : List MemcmpAdd) :
    let index : MemcmpIndex S := calls.foldl MemcmpIndex.apply {}
    index.ids.Lossless fun filter => index.getAccountsByMemcmp filter.offset filter.bytes := by
  intro index
  have kept : index.ids.WellFormed ∧ index.ids.Dense := by
    refine foldl_invariant (fun index : MemcmpIndex S => index.ids.WellFormed ∧ index.ids.Dense) ?_
      ⟨KeyedIndex.empty_wellFormed, IdBitmaps.empty_dense⟩ calls
    rintro index call ⟨wf, dense⟩
    exact ⟨(IdBitmaps.mark_spec wf call.account _).1, dense.mark call.account _⟩
  exact kept.1.lossless kept.2

end dictionaries

/-- After any calls on the indexes no lookup drops an id it cannot resolve. -/
theorem lookups_lose_nothing (programs mints : List (IndexCall Pubkey)) (sizes : List (IndexCall Nat))
    (discriminators : List (IndexCall Discriminator)) (memcmps : List MemcmpAdd) :
    let programIndex : ProgramIndex S := programs.foldl ProgramIndex.apply {}
    let dataSizeIndex : DataSizeIndex S := sizes.foldl DataSizeIndex.apply {}
    let discriminatorIndex : DiscriminatorIndex S := discriminators.foldl DiscriminatorIndex.apply {}
    let tokenMintIndex : TokenMintIndex S := mints.foldl TokenMintIndex.apply {}
    let memcmpIndex : MemcmpIndex S := memcmps.foldl MemcmpIndex.apply {}
    programIndex.ids.Lossless programIndex.getProgramAccounts ∧
      dataSizeIndex.ids.Lossless dataSizeIndex.getAccountsBySize ∧
      discriminatorIndex.ids.Lossless discriminatorIndex.getAccountsByDiscriminator ∧
      tokenMintIndex.ids.Lossless tokenMintIndex.getTokenAccountsByMint ∧
      memcmpIndex.ids.Lossless fun filter => memcmpIndex.getAccountsByMemcmp filter.offset filter.bytes :=
  ⟨KeyedIndex.run_lossless programs, KeyedIndex.run_lossless sizes, KeyedIndex.run_lossless discriminators,
    KeyedIndex.run_lossless mints, MemcmpIndex.run_lossless memcmps⟩

namespace KeyedIndex

variable {K : Type} [Ord K]

/-- The counter is the number of accounts that have a key. -/
def CountTrue (_ : KeyedIndex S K) (_ : IndexCall K) (after : KeyedIndex S K) : Prop :=
  after.totalAccounts = after.accountToKey.size

/-- An add is of an account that has no key. -/
def AddsNew (index : KeyedIndex S K) (call : IndexCall K) (_ : KeyedIndex S K) : Prop :=
  match call with
  | .add account _ _ => index.accountToKey[account]? = none
  | .remove _ => True

theorem countTrue_iff {index : KeyedIndex S K} (h : index.totalAccounts = index.accountToKey.size)
    (call : IndexCall K) :
    CountTrue index call (call.on (fun index account key _ => index.add account key) remove index) ↔
      AddsNew index call (call.on (fun index account key _ => index.add account key) remove index) := by
  cases call with
  | add account key slot =>
    have size : (index.accountToKey.insert account key).size = _ := Std.TreeMap.size_insert
    rw [Std.TreeMap.contains_eq_isSome_getElem?] at size
    cases known : index.accountToKey[account]? with
    | none =>
      rw [known] at size
      exact iff_of_true ((congrArg (· + 1) h).trans size.symm) known
    | some old =>
      rw [known] at size
      refine iff_of_false (fun same => ?_) fun new => ?_
      · have counted : index.totalAccounts + 1 = index.accountToKey.size := same.trans size
        omega
      · cases known.symm.trans new
  | remove account =>
    refine iff_of_true ?_ trivial
    change (remove index account).totalAccounts = (remove index account).accountToKey.size
    cases known : index.accountToKey[account]? with
    | none => simpa [remove, known] using h
    | some key => simp [remove, known, Std.TreeMap.size_erase, Std.TreeMap.contains_eq_isSome_getElem?, h]

theorem run_countTrue_iff (calls : List (IndexCall K)) :
    let step : KeyedIndex S K → IndexCall K → KeyedIndex S K :=
      IndexCall.on (fun index account key _ => index.add account key) remove
    Along (ofFun step) CountTrue {} calls ↔ Along (ofFun step) AddsNew {} calls := by
  intro step
  refine along_ofFun_iff (fun index => index.totalAccounts = index.accountToKey.size)
    (fun index call h => countTrue_iff h call) (fun index call h new => ?_) rfl calls
  exact (countTrue_iff h call).mpr new

end KeyedIndex

inductive OffsetCall where
  | insert (bytes : List UInt8) (accountId : Nat)
  | remove (bytes : List UInt8) (accountId : Nat)

namespace OffsetIndex

def apply (index : OffsetIndex S) : OffsetCall → OffsetIndex S
  | .insert bytes accountId => index.insert bytes accountId
  | .remove bytes accountId => index.remove bytes accountId

/-- The sizes of all bitmaps together. -/
def entries (index : OffsetIndex S) : Nat := sumOver (fun bitmap => IdSet.len bitmap.bitmap) index.index

def CountTrue (_ : OffsetIndex S) (_ : OffsetCall) (after : OffsetIndex S) : Prop :=
  after.entryCount.toNat = after.entries

/-- An insert sets a bit and the counter has room for it, and a remove clears one, or finds
no bitmap or nothing counted. -/
def ChangesBit (index : OffsetIndex S) (call : OffsetCall) (_ : OffsetIndex S) : Prop :=
  match call with
  | .insert bytes accountId => ¬ index.Holds bytes accountId ∧ index.entryCount.toNat + 1 < 2 ^ 64
  | .remove bytes accountId => index.get bytes = none ∨ index.Holds bytes accountId ∨ index.entryCount = 0

theorem entries_insert (index : OffsetIndex S) (bytes : List UInt8) (accountId : Nat) :
    (index.insert bytes accountId).entries =
      index.entries + if ((index.get bytes).getD .new).contains accountId then 0 else 1 := by
  have sum := sumOver_insert (fun bitmap => IdSet.len bitmap.bitmap) index.index bytes
    (((index.get bytes).getD .new).insert accountId).2
  have before : (index.index[bytes]?.map fun bitmap => IdSet.len bitmap.bitmap).getD 0 =
      IdSet.len ((index.get bytes).getD .new).bitmap := by
    rw [get]
    cases index.index[bytes]? with
    | none => exact IdSet.len_empty.symm
    | some bitmap => rfl
  rw [before, PubkeyBitmap.insert_bitmap, IdSet.len_insert] at sum
  exact Nat.add_right_cancel (sum.trans (by rw [entries, PubkeyBitmap.contains]; omega))

theorem entries_remove (index : OffsetIndex S) (bytes : List UInt8) (accountId : Nat) :
    (index.remove bytes accountId).entries +
      (if ((index.get bytes).getD .new).contains accountId then 1 else 0) = index.entries := by
  cases found : index.index[bytes]? with
  | none => simp [remove, get, found]
  | some bitmap =>
    have sum := sumOver_insert (fun bitmap => IdSet.len bitmap.bitmap) index.index bytes
      (bitmap.remove accountId).2
    have removed : (index.remove bytes accountId).index =
        index.index.insert bytes (bitmap.remove accountId).2 := by simp [remove, found]
    have size := IdSet.len_remove bitmap.bitmap accountId
    rw [found, PubkeyBitmap.remove_bitmap, Option.map_some, Option.getD_some] at sum
    rw [entries, entries, removed, get, found, Option.getD_some, PubkeyBitmap.contains]
    omega

section steps

variable {index : OffsetIndex S} (h : index.entryCount.toNat = index.entries) (bytes : List UInt8)
  (accountId : Nat)

include h

theorem countTrue_insert_iff :
    (index.insert bytes accountId).entryCount.toNat = (index.insert bytes accountId).entries ↔
      ¬ index.Holds bytes accountId ∧ index.entryCount.toNat + 1 < 2 ^ 64 := by
  have small := index.entryCount.toNat_lt
  have count : (index.insert bytes accountId).entryCount.toNat = (index.entryCount.toNat + 1) % 2 ^ 64 :=
    UInt64.toNat_add ..
  rw [entries_insert, count, Holds]
  split
  · rename_i held
    refine iff_of_false (fun same => ?_) fun fresh => fresh.1 held
    omega
  · rename_i fresh
    rw [and_iff_right fresh]
    omega

theorem countTrue_remove_iff :
    (index.remove bytes accountId).entryCount.toNat = (index.remove bytes accountId).entries ↔
      index.get bytes = none ∨ index.Holds bytes accountId ∨ index.entryCount = 0 := by
  have entries := entries_remove index bytes accountId
  cases found : index.index[bytes]? with
  | none =>
    have kept : index.remove bytes accountId = index := by simp [remove, found]
    rw [kept]
    exact iff_of_true h (.inl found)
  | some bitmap =>
    have count : (index.remove bytes accountId).entryCount =
        if index.entryCount = 0 then 0 else index.entryCount - 1 := by simp [remove, found]
    rw [get, found, Option.getD_some] at entries
    rw [count, Holds, get, found, Option.getD_some]
    by_cases zero : index.entryCount = 0
    · refine iff_of_true ?_ (.inr (.inr zero))
      rw [zero, UInt64.toNat_zero] at h
      rw [if_pos zero, UInt64.toNat_zero]
      omega
    · have positive : index.entryCount.toNat ≠ 0 := fun none => zero (UInt64.toNat_inj.mp none)
      have one : (1 : UInt64) ≤ index.entryCount := UInt64.le_iff_toNat_le.mpr (Nat.pos_of_ne_zero positive)
      rw [if_neg zero, UInt64.toNat_sub_of_le _ _ one, UInt64.toNat_one]
      by_cases held : bitmap.contains accountId = true
      · rw [if_pos held] at entries
        exact iff_of_true (by omega) (.inr (.inl held))
      · rw [if_neg held] at entries
        refine iff_of_false (by omega) ?_
        rintro (none | cleared | nothing)
        · cases none
        · exact held cleared
        · exact zero nothing

end steps

theorem countTrue_iff {index : OffsetIndex S} (h : index.entryCount.toNat = index.entries) (call : OffsetCall) :
    CountTrue index call (index.apply call) ↔ ChangesBit index call (index.apply call) := by
  cases call with
  | insert bytes accountId => exact countTrue_insert_iff h bytes accountId
  | remove bytes accountId => exact countTrue_remove_iff h bytes accountId

theorem run_countTrue_iff (calls : List OffsetCall) :
    Along (ofFun apply) CountTrue (new : OffsetIndex S) calls ↔
      Along (ofFun apply) ChangesBit (new : OffsetIndex S) calls := by
  refine along_ofFun_iff (fun index => index.entryCount.toNat = index.entries)
    (fun index call h => countTrue_iff h call) (fun index call h changes => ?_) ?_ calls
  · exact (countTrue_iff h call).mpr changes
  · exact (sumOver_empty fun bitmap : PubkeyBitmap S => IdSet.len bitmap.bitmap).symm

end OffsetIndex

/-- The counters agree with the maps throughout exactly if no account with a key is added
again and every call on the offset index changes a bit, except for a remove that finds no
bitmap or nothing counted. -/
theorem counters_true_iff (programs : List (IndexCall Pubkey)) (sizes : List (IndexCall Nat))
    (discriminators : List (IndexCall Discriminator)) (offsets : List OffsetCall) :
    (Along (ofFun ProgramIndex.apply) KeyedIndex.CountTrue ({} : ProgramIndex S) programs ↔
        Along (ofFun ProgramIndex.apply) KeyedIndex.AddsNew ({} : ProgramIndex S) programs) ∧
      (Along (ofFun DataSizeIndex.apply) KeyedIndex.CountTrue ({} : DataSizeIndex S) sizes ↔
        Along (ofFun DataSizeIndex.apply) KeyedIndex.AddsNew ({} : DataSizeIndex S) sizes) ∧
      (Along (ofFun DiscriminatorIndex.apply) KeyedIndex.CountTrue ({} : DiscriminatorIndex S) discriminators ↔
        Along (ofFun DiscriminatorIndex.apply) KeyedIndex.AddsNew ({} : DiscriminatorIndex S) discriminators) ∧
      (Along (ofFun OffsetIndex.apply) OffsetIndex.CountTrue (.new : OffsetIndex S) offsets ↔
        Along (ofFun OffsetIndex.apply) OffsetIndex.ChangesBit (.new : OffsetIndex S) offsets) :=
  ⟨KeyedIndex.run_countTrue_iff programs, KeyedIndex.run_countTrue_iff sizes,
    KeyedIndex.run_countTrue_iff discriminators, OffsetIndex.run_countTrue_iff offsets⟩

/-- An account that comes back with another owner is counted twice. -/
theorem account_counted_twice :
    let account : Pubkey := Vector.replicate 32 1
    ¬ Along (ofFun ProgramIndex.apply) KeyedIndex.CountTrue ({} : ProgramIndex SortedIds)
      [.add account (Vector.replicate 32 2) 1, .add account (Vector.replicate 32 3) 2] := by
  intro account counted
  have new := (KeyedIndex.run_countTrue_iff _).mp counted
  have second := ((new _ rfl).2 _ rfl).1
  let first := ProgramIndex.addAccount ({} : ProgramIndex SortedIds) account (Vector.replicate 32 2) 1
  have known : first.accountToKey[account]? = some (Vector.replicate 32 2) := Std.TreeMap.getElem?_insert_self
  cases known.symm.trans second

end Hyperplane
