import Mathlib.Data.List.Basic
import Hyperplane.Lib.Newest

/-! Pubkeys, account locations and account views; the commitment levels and
encodings of a request. -/
namespace Hyperplane
open Newer

abbrev Pubkey := Vector UInt8 32

/-- A slice of bytes as a pubkey; only 32 bytes are one. -/
def Pubkey.tryFrom (bytes : List UInt8) : Option Pubkey :=
  if h : bytes.length = 32 then some ⟨bytes.toArray, by simpa using h⟩ else none

theorem Pubkey.tryFrom_eq_some (bytes : List UInt8) (pk : Pubkey) :
    Pubkey.tryFrom bytes = some pk ↔ bytes = pk.toList := by
  unfold Pubkey.tryFrom
  constructor
  · intro h
    split at h
    · cases Option.some.inj h
      simp [Vector.toList]
    · contradiction
  · rintro rfl
    simp [Vector.toList]

theorem Pubkey.exists_toList {bytes : List UInt8} (width : bytes.length = 32) :
    ∃ pk : Pubkey, bytes = pk.toList :=
  ⟨⟨bytes.toArray, by simpa using width⟩, by simp [Vector.toList]⟩

inductive CommitmentLevel where
  | processed
  | confirmed
  | finalized
  deriving DecidableEq, Repr

inductive AccountEncoding where
  | base58
  | base64
  | base64Zstd
  | binary
  | jsonParsed
  deriving DecidableEq, Repr

inductive StorageType where
  | base
  | delta
  | compacted
  deriving DecidableEq, Repr

structure AccountLocation where
  fileId : UInt64
  offset : UInt64
  storedSize : UInt32
  dataOffset : UInt32
  dataLen : UInt32
  slot : UInt64
  writeVersion : UInt64
  storageType : StorageType
  deriving DecidableEq, Repr

namespace AccountLocation

/-- Slot first, then write version. -/
def isNewerThan (self other : AccountLocation) : Bool :=
  if self.slot ≠ other.slot then decide (other.slot < self.slot)
  else decide (other.writeVersion < self.writeVersion)

/-- Start and end of the stored bytes. -/
def readRange (self : AccountLocation) : UInt64 × UInt64 :=
  (self.offset, self.offset + self.storedSize.toUInt64)

/-- Start and end of the data alone. -/
def dataRange (self : AccountLocation) : UInt64 × UInt64 :=
  (self.offset + self.dataOffset.toUInt64,
    self.offset + self.dataOffset.toUInt64 + self.dataLen.toUInt64)

/-- The comparison of two locations as a relation. -/
def Newer (a b : AccountLocation) : Prop := a.isNewerThan b

instance : DecidableRel Newer := fun a b => inferInstanceAs (Decidable (a.isNewerThan b = true))

theorem newer_iff (a b : AccountLocation) : a.Newer b ↔ b.slot.toNat < a.slot.toNat ∨
    (a.slot.toNat = b.slot.toNat ∧ b.writeVersion.toNat < a.writeVersion.toNat) := by
  unfold Newer isNewerThan
  by_cases same : a.slot = b.slot
  · simp [same, UInt64.lt_iff_toNat_lt]
  · have differ : a.slot.toNat ≠ b.slot.toNat := fun equal => same (UInt64.toNat_inj.mp equal)
    simp [same, differ, UInt64.lt_iff_toNat_lt]

theorem newer_weakOrder : WeakOrder Newer where
  asymm {a b} first second := by
    rw [newer_iff] at first second
    omega
  negTrans {a b c} first second both := by
    rw [newer_iff] at first second both
    omega

end AccountLocation

structure AccountView where
  pubkey : Pubkey
  lamports : UInt64
  data : List UInt8
  owner : Pubkey
  executable : Bool
  slot : UInt64
  writeVersion : UInt64
  rentEpoch : UInt64
  storageType : StorageType
  location : AccountLocation
  deriving DecidableEq

end Hyperplane
