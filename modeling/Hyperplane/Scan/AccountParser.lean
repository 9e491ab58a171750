import Hyperplane.Lib.Checked
import Hyperplane.Types.Account

/-! Account records as they are stored in account files. -/
namespace Hyperplane
open Bytes Outcome

inductive ParseError where
  | invalidStoredSize (size : UInt64)
  | metadataOverflow
  | invalidPubkey
  deriving DecidableEq, Repr

structure ParsedAccount where
  pubkey : Pubkey
  owner : Pubkey
  lamports : UInt64
  executable : Bool
  rentEpoch : UInt64
  slot : UInt64
  writeVersion : UInt64
  data : List UInt8
  location : AccountLocation
  deriving DecidableEq

def parsePubkey (bytes : List UInt8) : Outcome ParseError Pubkey :=
  match Pubkey.tryFrom bytes with
  | some pubkey => .ok pubkey
  | none => .error .invalidPubkey

/-- The whole record is handed over, so the data is all that follows the 97
bytes of metadata. -/
def parseAccountRecord (fileId offset : UInt64) (bytes : List UInt8) :
    Outcome ParseError ParsedAccount :=
  if bytes.length < 8 then .error .metadataOverflow
  else do
    let sizeBytes ← slice bytes 0 8
    let storedSize := UInt64.ofNat (ofLE sizeBytes)
    if bytes.length < storedSize.toNat then .error (.invalidStoredSize storedSize)
    else if bytes.length < 97 then .error .metadataOverflow
    else do
      let pubkey ← slice bytes 8 40 >>= parsePubkey
      let owner ← slice bytes 40 72 >>= parsePubkey
      let executable ← index bytes 72
      let rentEpoch ← slice bytes 73 81
      let lamports ← slice bytes 81 89
      let slot ← slice bytes 89 97
      let data ← slice bytes 97 bytes.length
      return {
        pubkey := pubkey
        owner := owner
        lamports := UInt64.ofNat (ofLE lamports)
        executable := executable != 0
        rentEpoch := UInt64.ofNat (ofLE rentEpoch)
        slot := UInt64.ofNat (ofLE slot)
        writeVersion := 0
        data := data
        location := {
          fileId := fileId
          offset := offset
          storedSize := UInt32.ofNat storedSize.toNat
          dataOffset := 97
          dataLen := UInt32.ofNat data.length
          slot := UInt64.ofNat (ofLE slot)
          writeVersion := 0
          storageType := .base } }

/-- The source masks with the complement of seven. -/
def alignTo8 {ε : Type} (offset : Nat) : Outcome ε Nat := do
  let raised ← add64 offset 7
  return raised &&& (2 ^ 64 - 1 - 7)

def paddingNeeded (size alignment : Nat) : Nat :=
  if size % alignment = 0 then 0 else alignment - size % alignment

theorem alignTo8_ok {ε : Type} {offset : Nat} (fits : offset + 7 < 2 ^ 64) :
    (alignTo8 offset : Outcome ε Nat) = .ok (offset + paddingNeeded offset 8) := by
  have masked : (offset + 7) &&& (2 ^ 64 - 1 - 7) = ((offset + 7) >>> 3) <<< 3 := by
    have mask : 2 ^ 64 - 1 - 7 = (2 ^ 61 - 1) <<< 3 := by decide
    apply Nat.eq_of_testBit_eq
    intro i
    rw [mask]
    simp only [Nat.testBit_and, Nat.testBit_shiftLeft, Nat.testBit_shiftRight,
      Nat.testBit_two_pow_sub_one]
    by_cases low : 3 ≤ i
    · by_cases high : i - 3 < 61
      · simp [low, high]
      · have beyond : (offset + 7).testBit i = false :=
          Nat.testBit_lt_two_pow (Nat.lt_of_lt_of_le fits (Nat.pow_le_pow_right (by decide) (by omega)))
        simp [low, beyond]
    · simp [low]
  simp only [alignTo8, add64_ok fits, ok_bind, pure_eq_ok, masked]
  rw [Nat.shiftLeft_eq, Nat.shiftRight_eq_div_pow]
  unfold paddingNeeded
  split <;> congr 1 <;> omega

@[simp] theorem parsePubkey_toList (pk : Pubkey) : parsePubkey pk.toList = .ok pk := by
  have valid := (Pubkey.tryFrom_eq_some pk.toList pk).mpr rfl
  simp only [parsePubkey, valid]

/-- The parts of a record, one after the other. -/
def recordLayout (size : List UInt8) (pubkey owner : Pubkey) (executable : UInt8)
    (rentEpoch lamports slot data : List UInt8) : List UInt8 :=
  size ++ (pubkey.toList ++ (owner.toList ++ (executable :: (rentEpoch ++ (lamports ++ (slot ++ data))))))

theorem take_recordLayout {size : List UInt8} (size_width : size.length = 8) (pubkey owner : Pubkey)
    (executable : UInt8) (rentEpoch lamports slot data : List UInt8) :
    (recordLayout size pubkey owner executable rentEpoch lamports slot data).take 8 = size :=
  List.take_left' size_width

section layout

variable {size rentEpoch lamports slot : List UInt8}
  (size_width : size.length = 8) (rentEpoch_width : rentEpoch.length = 8)
  (lamports_width : lamports.length = 8) (slot_width : slot.length = 8)
  (pubkey owner : Pubkey) (executable : UInt8) (data : List UInt8)

include size_width rentEpoch_width lamports_width slot_width

theorem length_recordLayout :
    (recordLayout size pubkey owner executable rentEpoch lamports slot data).length =
      97 + data.length := by
  simp only [recordLayout, List.length_append, List.length_cons, Vector.length_toList, size_width,
    rentEpoch_width, lamports_width, slot_width]
  omega

theorem drop_recordLayout :
    (recordLayout size pubkey owner executable rentEpoch lamports slot data).drop 97 = data := by
  simp [recordLayout, List.drop_append, List.drop_of_length_le, size_width, rentEpoch_width,
    lamports_width, slot_width]

theorem parse_recordLayout {fileId offset : UInt64} (fits : ofLE size ≤ 97 + data.length) :
    parseAccountRecord fileId offset
        (recordLayout size pubkey owner executable rentEpoch lamports slot data) = .ok
      ⟨pubkey, owner, UInt64.ofNat (ofLE lamports), executable != 0, UInt64.ofNat (ofLE rentEpoch),
        UInt64.ofNat (ofLE slot), 0, data, ⟨fileId, offset, UInt32.ofNat (ofLE size), 97,
          UInt32.ofNat data.length, UInt64.ofNat (ofLE slot), 0, .base⟩⟩ := by
  have length := length_recordLayout size_width rentEpoch_width lamports_width slot_width
    pubkey owner executable data
  have exact_size := toNat_u64 size_width
  have first : slice (recordLayout size pubkey owner executable rentEpoch lamports slot data) 0 8 =
      (.ok size : Outcome ParseError (List UInt8)) := slice_front size_width
  have last : slice (recordLayout size pubkey owner executable rentEpoch lamports slot data) 97
      (97 + data.length) = (.ok data : Outcome ParseError (List UInt8)) := by
    rw [slice_ok (by omega) (by omega), drop_recordLayout size_width rentEpoch_width lamports_width
      slot_width, Nat.add_sub_cancel_left, List.take_length]
  rw [parseAccountRecord, if_neg (by omega), first]
  simp only [ok_bind, exact_size, length]
  rw [if_neg (by omega), if_neg (by omega), last]
  simp [recordLayout, slice_append, slice_cons, slice_front, index_append, index_front, size_width,
    rentEpoch_width, lamports_width, slot_width]

end layout

/-- Any 97 bytes are the metadata of some record. -/
theorem exists_recordLayout {bytes : List UInt8} (long : 97 ≤ bytes.length) :
    ∃ size pubkey owner executable rentEpoch lamports slot data,
      size.length = 8 ∧ rentEpoch.length = 8 ∧ lamports.length = 8 ∧ slot.length = 8 ∧
        bytes = recordLayout size pubkey owner executable rentEpoch lamports slot data := by
  obtain ⟨size, rest, rfl, w₁⟩ := exists_front (by omega : 8 ≤ bytes.length)
  simp only [List.length_append, w₁] at long
  obtain ⟨pubkey, rest, rfl, w₂⟩ := exists_front (by omega : 32 ≤ rest.length)
  simp only [List.length_append, w₂] at long
  obtain ⟨owner, rest, rfl, w₃⟩ := exists_front (by omega : 32 ≤ rest.length)
  simp only [List.length_append, w₃] at long
  cases rest with
  | nil => simp at long
  | cons executable rest =>
    simp only [List.length_cons] at long
    obtain ⟨rentEpoch, rest, rfl, w₄⟩ := exists_front (by omega : 8 ≤ rest.length)
    simp only [List.length_append, w₄] at long
    obtain ⟨lamports, rest, rfl, w₅⟩ := exists_front (by omega : 8 ≤ rest.length)
    simp only [List.length_append, w₅] at long
    obtain ⟨slot, data, rfl, w₆⟩ := exists_front (by omega : 8 ≤ rest.length)
    obtain ⟨pubkey, rfl⟩ := Pubkey.exists_toList w₂
    obtain ⟨owner, rfl⟩ := Pubkey.exists_toList w₃
    exact ⟨size, pubkey, owner, executable, rentEpoch, lamports, slot, data, w₁, w₄, w₅, w₆, rfl⟩

/-- A record that is as long as its own size says parses if it has all its
metadata, and is an error otherwise. -/
theorem parse_spec (fileId offset : UInt64) {bytes : List UInt8}
    (fits : 8 ≤ bytes.length → ofLE (bytes.take 8) ≤ bytes.length) :
    (bytes.length < 97 ∧ ∃ e, parseAccountRecord fileId offset bytes = .error e) ∨
      (97 ≤ bytes.length ∧ ∃ account, parseAccountRecord fileId offset bytes = .ok account ∧
        account.data = bytes.drop 97 ∧
          account.location = ⟨fileId, offset, UInt32.ofNat (ofLE (bytes.take 8)), 97,
            UInt32.ofNat (bytes.length - 97), account.slot, 0, .base⟩) := by
  rcases Nat.lt_or_ge bytes.length 97 with short | long
  · refine .inl ⟨short, ?_⟩
    by_cases tiny : bytes.length < 8
    · exact ⟨_, if_pos tiny⟩
    · rw [parseAccountRecord, if_neg tiny, slice_ok (by omega) (by omega)]
      simp only [ok_bind, if_pos short]
      split <;> exact ⟨_, rfl⟩
  · refine .inr ⟨long, ?_⟩
    obtain ⟨size, pubkey, owner, executable, rentEpoch, lamports, slot, data, w₁, w₂, w₃, w₄, rfl⟩ :=
      exists_recordLayout long
    have length := length_recordLayout w₁ w₂ w₃ w₄ pubkey owner executable data
    have front := take_recordLayout w₁ pubkey owner executable rentEpoch lamports slot data
    have whole := fits (by omega)
    rw [front, length] at whole
    refine ⟨_, parse_recordLayout w₁ w₂ w₃ w₄ pubkey owner executable data whole, ?_, ?_⟩
    · exact (drop_recordLayout w₁ w₂ w₃ w₄ pubkey owner executable data).symm
    · simp only [front, length, Nat.add_sub_cancel_left]

end Hyperplane
