import Hyperplane.Index.IndexRuns

/-! What the lookups of the account indexes answer after any calls, read off the calls. -/
namespace Hyperplane

section lookups

variable {S K : Type} [IdSet S] [Ord K]

namespace KeyedIndex

def keyOf (index : KeyedIndex S K) (account : Pubkey) : Option K := index.accountToKey[account]?

/-- A key stays when the last account under it is removed. -/
def keys (index : KeyedIndex S K) : List K := index.ids.bitmaps.keys

def stats (index : KeyedIndex S K) : UInt64 × UInt64 :=
  (UInt64.ofNat index.ids.bitmaps.size, UInt64.ofNat index.totalAccounts)

end KeyedIndex

namespace ProgramIndex

def getAllPrograms (index : ProgramIndex S) : List Pubkey := KeyedIndex.keys index

def getProgramForAccount (index : ProgramIndex S) (account : Pubkey) : Option Pubkey :=
  KeyedIndex.keyOf index account

def stats (index : ProgramIndex S) : UInt64 × UInt64 := KeyedIndex.stats index

end ProgramIndex

namespace DataSizeIndex

def getAllSizes (index : DataSizeIndex S) : List Nat := KeyedIndex.keys index

def getSizeForAccount (index : DataSizeIndex S) (account : Pubkey) : Option Nat :=
  KeyedIndex.keyOf index account

def stats (index : DataSizeIndex S) : UInt64 × UInt64 := KeyedIndex.stats index

end DataSizeIndex

namespace DiscriminatorIndex

def getAllDiscriminators (index : DiscriminatorIndex S) : List Discriminator := KeyedIndex.keys index

def getDiscriminatorForAccount (index : DiscriminatorIndex S) (account : Pubkey) : Option Discriminator :=
  KeyedIndex.keyOf index account

def stats (index : DiscriminatorIndex S) : UInt64 × UInt64 := KeyedIndex.stats index

end DiscriminatorIndex

namespace TokenOwnerIndex

def apply : TokenOwnerIndex S → IndexCall Pubkey → TokenOwnerIndex S :=
  IndexCall.on TokenOwnerIndex.addTokenAccount TokenOwnerIndex.removeTokenAccount

def getOwnerForTokenAccount (index : TokenOwnerIndex S) (tokenAccount : Pubkey) : Option Pubkey :=
  KeyedIndex.keyOf index tokenAccount

def stats (index : TokenOwnerIndex S) : UInt64 × UInt64 := KeyedIndex.stats index

end TokenOwnerIndex

namespace TokenMintIndex

def getMintForTokenAccount (index : TokenMintIndex S) (tokenAccount : Pubkey) : Option Pubkey :=
  KeyedIndex.keyOf index tokenAccount

def stats (index : TokenMintIndex S) : UInt64 × UInt64 := KeyedIndex.stats index

end TokenMintIndex

namespace MemcmpIndex

def getAllMemcmpKeys (index : MemcmpIndex S) : List (Nat × List UInt8) :=
  index.ids.bitmaps.keys.map fun filter => (filter.offset, filter.bytes)

end MemcmpIndex

def IndexCall.event : IndexCall K → Pubkey × Option K
  | .add account key _ => (account, some key)
  | .remove account => (account, none)

/-- The keys that a run of calls added one account under, with its removals. -/
def ownCalls (calls : List (IndexCall K)) (account : Pubkey) : List (Option K) :=
  Postings.own (calls.map IndexCall.event) account

/-- The keys that calls added something under, in order. -/
def Keys (calls : List (IndexCall K)) (keys : List K) : Prop :=
  keys.Pairwise (fun a b => compare a b = .lt) ∧ ∀ key, key ∈ keys ↔ ∃ account slot, .add account key slot ∈ calls

/-- Lookups that say of each account what its own calls came to. -/
structure Follows (calls : List (IndexCall K)) (accounts : K → Option (List Pubkey)) (keyOf : Pubkey → Option K)
    (stats : UInt64 × UInt64) : Prop where
  listed : ∀ key account, (∃ found, accounts key = some found ∧ account ∈ found) ↔
    Postings.Standing key (ownCalls calls account)
  once : ∀ key found, accounts key = some found → found.Nodup
  keyOf : ∀ account, keyOf account = (ownCalls calls account).getLast?.join
  known : ∀ key, (accounts key).isSome ↔ ∃ account slot, .add account key slot ∈ calls
  counted : ∃ keys, Keys calls keys ∧ stats.1 = UInt64.ofNat keys.length

namespace KeyedIndex

variable [Std.TransOrd K] [Std.LawfulEqOrd K]

def call : KeyedIndex S K → IndexCall K → KeyedIndex S K :=
  IndexCall.on (fun index account key _ => index.add account key) KeyedIndex.remove

theorem call_spec {index : KeyedIndex S K} (wf : index.ids.WellFormed) (c : IndexCall K) :
    (index.call c).ids.WellFormed ∧ (index.call c).postings = index.postings.play c.event := by
  cases c with
  | add account key slot => exact add_spec wf account key
  | remove account => exact remove_spec wf account

theorem run_spec (calls : List (IndexCall K)) :
    (calls.foldl call ({} : KeyedIndex S K)).ids.WellFormed ∧
      (calls.foldl call ({} : KeyedIndex S K)).postings =
        (calls.map IndexCall.event).foldl Postings.play Postings.none := by
  induction calls using List.reverseRecOn with
  | nil => exact ⟨empty_wellFormed, empty_postings⟩
  | append_singleton calls c ih =>
    obtain ⟨wf, same⟩ := ih
    rw [List.foldl_concat, List.map_append, List.foldl_append, ← same]
    exact call_spec wf c

/-- A bit is unset in a bitmap that stays. -/
theorem known_remove (index : KeyedIndex S K) (account : Pubkey) (key : K) :
    ((index.remove account).get key).isSome ↔ (index.get key).isSome := by
  have unmarked (old : K) : ((index.ids.unmark account old).accounts key).isSome ↔
      (index.ids.accounts key).isSome := by
    unfold IdBitmaps.unmark
    split
    · rename_i bitmap id present _
      by_cases same : key = old
      · subst same
        simp [IdBitmaps.accounts, present]
      · simp only [IdBitmaps.accounts, Maps.getElem?_insert_ne _ same, Option.isSome_map]
    · rfl
  unfold remove
  split
  · exact unmarked _
  · rfl

theorem run_known (calls : List (IndexCall K)) (key : K) :
    ((calls.foldl call ({} : KeyedIndex S K)).get key).isSome ↔
      ∃ account slot, .add account key slot ∈ calls := by
  induction calls using List.reverseRecOn with
  | nil => simp [get, IdBitmaps.accounts]
  | append_singleton calls c ih =>
    rw [List.foldl_concat]
    cases c with
    | add account k slot =>
      have added := IdBitmaps.accounts_isSome_mark (calls.foldl call ({} : KeyedIndex S K)).ids account k key
      refine added.trans ?_
      rw [show ((calls.foldl call ({} : KeyedIndex S K)).ids.accounts key).isSome ↔ _ from ih]
      constructor
      · rintro (⟨a, s, earlier⟩ | rfl)
        · exact ⟨a, s, List.mem_append_left _ earlier⟩
        · exact ⟨account, slot, by simp⟩
      · rintro ⟨a, s, somewhere⟩
        rw [List.mem_append, List.mem_singleton] at somewhere
        obtain earlier | last := somewhere
        · exact .inl ⟨a, s, earlier⟩
        · cases last
          exact .inr rfl
    | remove account =>
      refine (known_remove _ account key).trans (ih.trans ?_)
      simp

theorem run_keys (calls : List (IndexCall K)) : Keys calls (calls.foldl call ({} : KeyedIndex S K)).keys := by
  refine ⟨Std.TreeMap.ordered_keys, fun key => Iff.trans ?_ (run_known (S := S) calls key)⟩
  rw [keys, Std.TreeMap.mem_keys, Std.TreeMap.mem_iff_isSome_getElem?, get, IdBitmaps.accounts, Option.isSome_map]

theorem run_follows (calls : List (IndexCall K)) :
    let index := calls.foldl call ({} : KeyedIndex S K)
    Follows calls index.get index.keyOf index.stats := by
  have ⟨wf, same⟩ := run_spec (S := S) calls
  generalize reached : calls.foldl call ({} : KeyedIndex S K) = index at wf same
  have played (account : Pubkey) := Postings.play_all (calls.map IndexCall.event) account
  rw [← same] at played
  have lossless : index.ids.Lossless index.get := reached ▸ run_lossless calls
  refine ⟨fun key account => (played account).2 key, fun key found lookup => (lossless.listed key found lookup).1,
    fun account => (played account).1, fun key => reached ▸ run_known calls key, index.keys, ?_, ?_⟩
  · exact reached ▸ run_keys calls
  · rw [stats, keys, Std.TreeMap.length_keys]

end KeyedIndex

/-- The call that records an account under a filter. -/
def MemcmpAdd.filter (call : MemcmpAdd) : MemcmpFilter := ⟨call.offset, call.bytes⟩

namespace MemcmpIndex

/-- Nothing is removed, so every account stays under all it was added with. -/
theorem run_bits (calls : List MemcmpAdd) :
    (calls.foldl apply ({} : MemcmpIndex S)).ids.WellFormed ∧ ∀ filter account,
      (calls.foldl apply ({} : MemcmpIndex S)).ids.HasBit filter account ↔
        ∃ call ∈ calls, call.filter = filter ∧ call.account = account := by
  induction calls using List.reverseRecOn with
  | nil => exact ⟨KeyedIndex.empty_wellFormed, fun filter account => by simp [IdBitmaps.HasBit]⟩
  | append_singleton calls c ih =>
    obtain ⟨wf, before⟩ := ih
    rw [List.foldl_concat]
    obtain ⟨after, bits⟩ := IdBitmaps.mark_spec wf c.account c.filter
    refine ⟨after, fun filter account => (bits filter account).trans ?_⟩
    simp only [before, List.mem_append, List.mem_singleton, or_and_right, exists_or, exists_eq_left]
    rw [eq_comm (a := c.filter), eq_comm (a := c.account)]

theorem run_known (calls : List MemcmpAdd) (filter : MemcmpFilter) :
    ((calls.foldl apply ({} : MemcmpIndex S)).ids.accounts filter).isSome ↔
      ∃ call ∈ calls, call.filter = filter := by
  induction calls using List.reverseRecOn with
  | nil => simp [IdBitmaps.accounts]
  | append_singleton calls c ih =>
    rw [List.foldl_concat]
    refine (IdBitmaps.accounts_isSome_mark (calls.foldl apply ({} : MemcmpIndex S)).ids c.account c.filter
      filter).trans ?_
    simp only [ih, List.mem_append, List.mem_singleton, or_and_right, exists_or, exists_eq_left]
    rw [eq_comm (a := c.filter)]

end MemcmpIndex

/-- After any calls, every index answers what the calls say: an account is under each key
it was added under since the key was last removed from it, which only a remove straight
after an add under that key does; the reverse map has the key of its last call; and the
keys are those ever added, in order. -/
theorem lookups_follow_calls (programs owners mints : List (IndexCall Pubkey)) (sizes : List (IndexCall Nat))
    (discriminators : List (IndexCall Discriminator)) (memcmps : List MemcmpAdd) :
    let programIndex := programs.foldl ProgramIndex.apply ({} : ProgramIndex S)
    let dataSizeIndex := sizes.foldl DataSizeIndex.apply ({} : DataSizeIndex S)
    let discriminatorIndex := discriminators.foldl DiscriminatorIndex.apply ({} : DiscriminatorIndex S)
    let ownerIndex := owners.foldl TokenOwnerIndex.apply ({} : TokenOwnerIndex S)
    let mintIndex := mints.foldl TokenMintIndex.apply ({} : TokenMintIndex S)
    let memcmpIndex := memcmps.foldl MemcmpIndex.apply ({} : MemcmpIndex S)
    Follows programs programIndex.getProgramAccounts programIndex.getProgramForAccount
        (ProgramIndex.stats programIndex) ∧
      Keys programs programIndex.getAllPrograms ∧
      Follows sizes dataSizeIndex.getAccountsBySize dataSizeIndex.getSizeForAccount
        (DataSizeIndex.stats dataSizeIndex) ∧
      Keys sizes dataSizeIndex.getAllSizes ∧
      Follows discriminators discriminatorIndex.getAccountsByDiscriminator
        discriminatorIndex.getDiscriminatorForAccount (DiscriminatorIndex.stats discriminatorIndex) ∧
      Keys discriminators discriminatorIndex.getAllDiscriminators ∧
      Follows owners ownerIndex.getTokenAccountsByOwner ownerIndex.getOwnerForTokenAccount
        (TokenOwnerIndex.stats ownerIndex) ∧
      Follows mints mintIndex.getTokenAccountsByMint mintIndex.getMintForTokenAccount
        (TokenMintIndex.stats mintIndex) ∧
      ∀ offset bytes,
        (∀ account, (∃ found, memcmpIndex.getAccountsByMemcmp offset bytes = some found ∧ account ∈ found) ↔
          ∃ call ∈ memcmps, call.filter = ⟨offset, bytes⟩ ∧ call.account = account) ∧
        ((offset, bytes) ∈ memcmpIndex.getAllMemcmpKeys ↔ ∃ call ∈ memcmps, call.filter = ⟨offset, bytes⟩) := by
  refine ⟨KeyedIndex.run_follows programs, KeyedIndex.run_keys programs, KeyedIndex.run_follows sizes,
    KeyedIndex.run_keys sizes, KeyedIndex.run_follows discriminators, KeyedIndex.run_keys discriminators,
    KeyedIndex.run_follows owners, KeyedIndex.run_follows mints, fun offset bytes => ⟨fun account => ?_, ?_⟩⟩
  · obtain ⟨wf, bits⟩ := MemcmpIndex.run_bits (S := S) memcmps
    exact (wf.listed_iff _ account).trans (bits _ account)
  · refine Iff.trans ?_ (MemcmpIndex.run_known (S := S) memcmps ⟨offset, bytes⟩)
    rw [IdBitmaps.accounts, Option.isSome_map, ← Std.TreeMap.mem_iff_isSome_getElem?, ← Std.TreeMap.mem_keys,
      MemcmpIndex.getAllMemcmpKeys, List.mem_map]
    constructor
    · rintro ⟨filter, inside, same⟩
      cases same
      exact inside
    · exact fun inside => ⟨_, inside, rfl⟩

end lookups

end Hyperplane
