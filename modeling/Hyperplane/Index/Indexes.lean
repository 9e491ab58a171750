import Hyperplane.Index.BitmapIndex

/-! The account indexes: five with one key for each account, and the memcmp
index, which records several and removes none. -/
namespace Hyperplane

variable {S : Type} [IdSet S]

abbrev ProgramIndex (S : Type) := KeyedIndex S Pubkey

namespace ProgramIndex

def addAccount (index : ProgramIndex S) (account programId : Pubkey) (_slot : UInt64) : ProgramIndex S :=
  KeyedIndex.add index account programId

def removeAccount (index : ProgramIndex S) (account : Pubkey) : ProgramIndex S :=
  KeyedIndex.remove index account

def getProgramAccounts (index : ProgramIndex S) (programId : Pubkey) : Option (List Pubkey) :=
  KeyedIndex.get index programId

end ProgramIndex

/-- Sizes are lengths of byte vectors, which stay below 2^63. -/
abbrev DataSizeIndex (S : Type) := KeyedIndex S Nat

namespace DataSizeIndex

def addAccount (index : DataSizeIndex S) (account : Pubkey) (dataSize : Nat) (_slot : UInt64) :
    DataSizeIndex S :=
  KeyedIndex.add index account dataSize

def removeAccount (index : DataSizeIndex S) (account : Pubkey) : DataSizeIndex S :=
  KeyedIndex.remove index account

def getAccountsBySize (index : DataSizeIndex S) (dataSize : Nat) : Option (List Pubkey) :=
  KeyedIndex.get index dataSize

end DataSizeIndex

abbrev Discriminator := Vector UInt8 8

abbrev DiscriminatorIndex (S : Type) := KeyedIndex S Discriminator

namespace DiscriminatorIndex

def addAccount (index : DiscriminatorIndex S) (account : Pubkey) (discriminator : Discriminator)
    (_slot : UInt64) : DiscriminatorIndex S :=
  KeyedIndex.add index account discriminator

def removeAccount (index : DiscriminatorIndex S) (account : Pubkey) : DiscriminatorIndex S :=
  KeyedIndex.remove index account

def getAccountsByDiscriminator (index : DiscriminatorIndex S) (discriminator : Discriminator) :
    Option (List Pubkey) :=
  KeyedIndex.get index discriminator

end DiscriminatorIndex

abbrev TokenOwnerIndex (S : Type) := KeyedIndex S Pubkey

namespace TokenOwnerIndex

def addTokenAccount (index : TokenOwnerIndex S) (tokenAccount owner : Pubkey) (_slot : UInt64) :
    TokenOwnerIndex S :=
  KeyedIndex.add index tokenAccount owner

def removeTokenAccount (index : TokenOwnerIndex S) (tokenAccount : Pubkey) : TokenOwnerIndex S :=
  KeyedIndex.remove index tokenAccount

def getTokenAccountsByOwner (index : TokenOwnerIndex S) (owner : Pubkey) : Option (List Pubkey) :=
  KeyedIndex.get index owner

end TokenOwnerIndex

abbrev TokenMintIndex (S : Type) := KeyedIndex S Pubkey

namespace TokenMintIndex

def addTokenAccount (index : TokenMintIndex S) (tokenAccount mint : Pubkey) (_slot : UInt64) :
    TokenMintIndex S :=
  KeyedIndex.add index tokenAccount mint

def removeTokenAccount (index : TokenMintIndex S) (tokenAccount : Pubkey) : TokenMintIndex S :=
  KeyedIndex.remove index tokenAccount

def getTokenAccountsByMint (index : TokenMintIndex S) (mint : Pubkey) : Option (List Pubkey) :=
  KeyedIndex.get index mint

end TokenMintIndex

structure MemcmpFilter where
  offset : Nat
  bytes : List UInt8
  deriving DecidableEq

def MemcmpFilter.order : MemcmpFilter → MemcmpFilter → Ordering :=
  compareLex (compareOn MemcmpFilter.offset) (compareOn MemcmpFilter.bytes)

instance : Ord MemcmpFilter := ⟨MemcmpFilter.order⟩

instance : Std.TransOrd MemcmpFilter :=
  inferInstanceAs (Std.TransCmp
    (compareLex (compareOn MemcmpFilter.offset) (compareOn MemcmpFilter.bytes)))

instance : Std.LawfulEqOrd MemcmpFilter where
  eq_of_compare {a b} same := by
    obtain ⟨offset, bytes⟩ := compareLex_eq_eq.mp same
    cases a with
    | mk o bs =>
      cases b with
      | mk p cs =>
        cases (Std.LawfulEqOrd.eq_of_compare offset : o = p)
        cases (Std.LawfulEqOrd.eq_of_compare bytes : bs = cs)
        rfl

structure MemcmpIndex (S : Type) where
  ids : IdBitmaps S MemcmpFilter := {}
  accountMemcmps : Std.TreeMap Pubkey (List MemcmpFilter) := ∅
  totalAccounts : Nat := 0

namespace MemcmpIndex

def addAccountMemcmp (index : MemcmpIndex S) (account : Pubkey) (offset : Nat) (bytes : List UInt8)
    (_slot : UInt64) : MemcmpIndex S where
  ids := index.ids.mark account ⟨offset, bytes⟩
  accountMemcmps := index.accountMemcmps.insert account
    (index.accountMemcmps[account]?.getD [] ++ [⟨offset, bytes⟩])
  totalAccounts := index.totalAccounts + 1

def getAccountsByMemcmp (index : MemcmpIndex S) (offset : Nat) (bytes : List UInt8) :
    Option (List Pubkey) :=
  index.ids.accounts ⟨offset, bytes⟩

end MemcmpIndex

end Hyperplane
