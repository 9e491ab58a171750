import Hyperplane.Index.Indexes

/-! The index manager keeps the six indexes up to date with account updates. -/
namespace Hyperplane

structure IndexManagerConfig where
  enableProgramIndex : Bool := true
  enableTokenOwner : Bool := true
  enableTokenMint : Bool := true
  enableDataSize : Bool := true
  enableMemcmp : Bool := true
  enableDiscriminator : Bool := true

structure IndexManagerState where
  totalIndexed : Nat := 0
  totalUpdates : Nat := 0

structure IndexManager (S : Type) where
  programIndex : Option (ProgramIndex S)
  tokenOwnerIndex : Option (TokenOwnerIndex S)
  tokenMintIndex : Option (TokenMintIndex S)
  dataSizeIndex : Option (DataSizeIndex S)
  memcmpIndex : Option (MemcmpIndex S)
  discriminatorIndex : Option (DiscriminatorIndex S)
  state : IndexManagerState := {}

def TOKEN_PROGRAM_ID : Pubkey :=
  #v[6, 167, 213, 23, 166, 155, 76, 121, 104, 160, 73, 198, 153, 124, 57, 121,
    87, 101, 152, 199, 246, 121, 126, 178, 126, 126, 39, 39, 34, 118, 153, 81]

/-- The first eight bytes of data that has as many. -/
def discriminatorOf (data : List UInt8) : Discriminator := Vector.ofFn fun i => data.getD i 0

def pubkeyOf (bytes : List UInt8) : Pubkey := (Pubkey.tryFrom bytes).getD (Vector.replicate 32 0)

namespace AccountView

def isTokenAccount (account : AccountView) : Prop :=
  account.owner = TOKEN_PROGRAM_ID ∧ 72 ≤ account.data.length

instance (account : AccountView) : Decidable account.isTokenAccount :=
  inferInstanceAs (Decidable (_ ∧ _))

def mint (account : AccountView) : Pubkey := pubkeyOf (account.data.take 32)

def tokenOwner (account : AccountView) : Pubkey := pubkeyOf ((account.data.take 64).drop 32)

end AccountView

namespace IndexManager

variable {S : Type} [IdSet S]

def new (config : IndexManagerConfig) : IndexManager S where
  programIndex := if config.enableProgramIndex then some {} else none
  tokenOwnerIndex := if config.enableTokenOwner then some {} else none
  tokenMintIndex := if config.enableTokenMint then some {} else none
  dataSizeIndex := if config.enableDataSize then some {} else none
  memcmpIndex := if config.enableMemcmp then some {} else none
  discriminatorIndex := if config.enableDiscriminator then some {} else none

/-- The first 8 and the first 32 bytes, of data that has as many. -/
def addMemcmps (account : AccountView) (slot : UInt64) (index : MemcmpIndex S) : MemcmpIndex S :=
  let index := if 8 ≤ account.data.length then
    index.addAccountMemcmp account.pubkey 0 (account.data.take 8) slot else index
  if 32 ≤ account.data.length then
    index.addAccountMemcmp account.pubkey 0 (account.data.take 32) slot else index

def updateAccount (manager : IndexManager S) (account : AccountView) (slot : UInt64) : IndexManager S where
  programIndex := manager.programIndex.map fun index =>
    ProgramIndex.addAccount index account.pubkey account.owner slot
  tokenOwnerIndex := if account.isTokenAccount then manager.tokenOwnerIndex.map fun index =>
    TokenOwnerIndex.addTokenAccount index account.pubkey account.tokenOwner slot
    else manager.tokenOwnerIndex
  tokenMintIndex := if account.isTokenAccount then manager.tokenMintIndex.map fun index =>
    TokenMintIndex.addTokenAccount index account.pubkey account.mint slot
    else manager.tokenMintIndex
  dataSizeIndex := manager.dataSizeIndex.map fun index =>
    DataSizeIndex.addAccount index account.pubkey account.data.length slot
  memcmpIndex := manager.memcmpIndex.map (addMemcmps account slot)
  discriminatorIndex := if 8 ≤ account.data.length then manager.discriminatorIndex.map fun index =>
    DiscriminatorIndex.addAccount index account.pubkey (discriminatorOf account.data) slot
    else manager.discriminatorIndex
  state := {
    totalIndexed := manager.state.totalIndexed + 1
    totalUpdates := manager.state.totalUpdates + 1 }

/-- The memcmp and the discriminator index keep the account. -/
def removeAccount (manager : IndexManager S) (pubkey : Pubkey) : IndexManager S :=
  { manager with
    programIndex := manager.programIndex.map fun index => ProgramIndex.removeAccount index pubkey
    tokenOwnerIndex := manager.tokenOwnerIndex.map fun index =>
      TokenOwnerIndex.removeTokenAccount index pubkey
    tokenMintIndex := manager.tokenMintIndex.map fun index =>
      TokenMintIndex.removeTokenAccount index pubkey
    dataSizeIndex := manager.dataSizeIndex.map fun index => DataSizeIndex.removeAccount index pubkey }

end IndexManager

end Hyperplane
