import Hyperplane.Lib.Bytes
import Hyperplane.Lib.HashTree
import Hyperplane.Base.BatchChecksum
import Hyperplane.Base.MerkleSoundness

/-! What a checksum commits to. Data of an account is hashed behind its pubkey, a record
of a receipt as it is, and a node of the tree as its two hashes, with nothing that marks
which of the three was hashed. -/
namespace Hyperplane
open MerkleTree Bytes

section blake3

variable (blake3 : List UInt8 → Hash)

def hashAccountDataWithPubkey (pubkey : Pubkey) (data : List UInt8) : Hash :=
  blake3 (pubkey.toList ++ data)

def verifyAccountIntegrity (pubkey : Pubkey) (data : List UInt8) (expectedHash : Hash) : Bool :=
  hashAccountDataWithPubkey blake3 pubkey data == expectedHash

/-- Of the accounts that do not collide with it, the one that was hashed is the only one
that passes. -/
theorem verifyAccountIntegrity_iff {account other : Account}
    (free : blake3 account.bytes = blake3 other.bytes → account.bytes = other.bytes) :
    verifyAccountIntegrity blake3 account.1 account.2 (hashAccountDataWithPubkey blake3 other.1 other.2) = true ↔
      account = other := by
  rw [verifyAccountIntegrity, beq_iff_eq]
  constructor
  · intro same
    exact Account.bytes_injective (free same)
  · rintro rfl
    rfl

/-- The stream of a location's metadata, in which every field has its width. -/
def locationMetadata (pubkey : Pubkey) (slot writeVersion : UInt64) (dataLen : UInt32) : List UInt8 :=
  pubkey.toList ++ (toLE 8 slot.toNat ++ (toLE 8 writeVersion.toNat ++ toLE 4 dataLen.toNat))

def hashLocationMetadata (pubkey : Pubkey) (slot writeVersion : UInt64) (dataLen : UInt32) : Hash :=
  blake3 (locationMetadata pubkey slot writeVersion dataLen)

theorem locationMetadata_inj {p q : Pubkey} {slot slot' version version' : UInt64} {len len' : UInt32}
    (same : locationMetadata p slot version len = locationMetadata q slot' version' len') :
    p = q ∧ slot = slot' ∧ version = version' ∧ len = len' := by
  obtain ⟨pubkey, same⟩ := List.append_inj same (by simp)
  obtain ⟨slots, same⟩ := List.append_inj same (by simp)
  obtain ⟨versions, lens⟩ := List.append_inj same (by simp)
  refine ⟨Vector.toList_inj.mp pubkey, ?_, ?_, ?_⟩
  · rw [← u64_round slot, slots, u64_round]
  · rw [← u64_round version, versions, u64_round]
  · rw [← u32_round len, lens, u32_round]

end blake3

namespace Merkle

variable (sha256 : List UInt8 → Hash)

def leafHash (data : List UInt8) : Hash := sha256 data

def joined (left right : Hash) : List UInt8 := left.toList ++ right.toList

def nodeHash (left right : Hash) : Hash := sha256 (joined left right)

/-- The root of the records of receipts. -/
def receiptsRoot (records : List (List UInt8)) : Hash :=
  computeRoot (nodeHash sha256) (records.map (leafHash sha256))

/-- All that is hashed for it. -/
def hashedInputs (records : List (List UInt8)) : List (List UInt8) :=
  (HashTree.ofLeaves records).flatMap (HashTree.inputs sha256 joined)

theorem joined_injective (a b c d : Hash) (same : joined a b = joined c d) : a = c ∧ b = d := by
  obtain ⟨here, there⟩ := List.append_inj same (by simp)
  exact ⟨Vector.toList_inj.mp here, Vector.toList_inj.mp there⟩

theorem receiptsRoot_tree {records : List (List UInt8)} (occupied : records ≠ []) :
    ∃ tree, HashTree.ofLeaves records = [tree] ∧ tree.data = records ∧
      receiptsRoot sha256 records = tree.hash sha256 joined := by
  obtain ⟨tree, whole⟩ : ∃ tree, HashTree.ofLeaves records = [tree] :=
    top_singleton (by simpa using occupied)
  have data := HashTree.data_ofLeaves records
  have hashed := HashTree.hash_ofLeaves sha256 joined records
  rw [whole] at data hashed
  refine ⟨tree, whole, by simpa using data, ?_⟩
  obtain ⟨first, rest, rfl⟩ := List.exists_cons_of_ne_nil occupied
  have root := head?_top (nodeHash sha256) (leafHash sha256 first) (rest.map (leafHash sha256))
  have same : top (nodeHash sha256) (leafHash sha256 first :: rest.map (leafHash sha256)) =
    [tree.hash sha256 joined] := hashed.symm
  rw [same] at root
  exact (Option.some.inj root).symm

/-- A root commits to its records as far as nothing collides: to any number of them if
none is as long as two hashes, and to those of any length if their number is known. -/
theorem root_commits {first second : List (List UInt8)} (occupied : first ≠ []) (others : second ≠ [])
    (told : first.length = second.length ∨ ∀ data ∈ first ++ second, data.length ≠ 64)
    (free : ∀ x ∈ hashedInputs sha256 first, ∀ y ∈ hashedInputs sha256 second, sha256 x = sha256 y → x = y)
    (same : receiptsRoot sha256 first = receiptsRoot sha256 second) : first = second := by
  obtain ⟨t, whole, data, hash⟩ := receiptsRoot_tree sha256 occupied
  obtain ⟨u, whole', data', hash'⟩ := receiptsRoot_tree sha256 others
  have shape := HashTree.shape_ofLeaves first
  have shape' := HashTree.shape_ofLeaves second
  rw [hashedInputs, hashedInputs, whole, whole'] at free
  rw [whole] at shape
  rw [whole'] at shape'
  have apart : HashTree.Told joined t u := by
    obtain number | lengths := told
    · refine HashTree.told_of_shape joined (List.singleton_inj.mp ?_)
      rw [number, ← shape'] at shape
      exact shape
    · have short (d : List UInt8) (member : d ∈ first ++ second) (a b : Hash) : joined a b ≠ d := by
        rintro rfl
        exact lengths _ member (by simp [joined])
      refine HashTree.told_of_data joined (fun d inside => short d ?_) (fun d inside => short d ?_)
      · exact List.mem_append_left _ (data ▸ inside)
      · exact List.mem_append_right _ (data' ▸ inside)
  rw [← data, ← data', HashTree.eq_of_hash sha256 joined joined_injective (by simpa using free) apart
    (hash.symm.trans (same.trans hash'))]

theorem three_records :
    let digest : List UInt8 → Hash := fun bytes => Vector.replicate 32 (bytes.headD 0 + UInt8.ofNat bytes.length)
    ∃ first second : List (List UInt8), receiptsRoot digest first = receiptsRoot digest second ∧
      first = second ∧ first = [[1], [2], [3]] := by
  intro digest
  have tree : HashTree.ofLeaves [[1], [2], [3]] =
      [.fork (.fork (.leaf [1]) (.leaf [2])) (.leaf ([3] : List UInt8))] := by
    rw [HashTree.ofLeaves, top_of_long _ (by simp), top_of_long _ (by simp [pairUp]),
      top_of_short _ (by simp [pairUp])]
    rfl
  have inputs : hashedInputs digest [[1], [2], [3]] = HashTree.inputs digest joined
      (.fork (.fork (.leaf [1]) (.leaf [2])) (.leaf [3])) := by
    rw [hashedInputs, tree]
    exact List.flatMap_singleton _ _
  refine ⟨[[1], [2], [3]], _, rfl, root_commits digest (by simp) (by simp) (.inr (by decide)) ?_ rfl, rfl⟩
  rw [inputs]
  decide +kernel

/-- The two hashes below the root, as one record, have the root of many. -/
theorem root_of_one {records : List (List UInt8)} (many : 1 < records.length) :
    ∃ data, data.length = 64 ∧ receiptsRoot sha256 [data] = receiptsRoot sha256 records := by
  obtain ⟨tree, whole, data, hash⟩ := receiptsRoot_tree sha256 (List.length_pos_iff.mp (Nat.zero_lt_of_lt many))
  cases tree with
  | leaf d =>
    rw [← data] at many
    exact absurd many (Nat.lt_irrefl 1)
  | fork left right =>
    exact ⟨joined (left.hash sha256 joined) (right.hash sha256 joined), by simp [joined], hash.symm⟩

end Merkle

end Hyperplane
