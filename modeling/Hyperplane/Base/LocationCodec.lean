import Hyperplane.Lib.Checked
import Hyperplane.Types.Account

/-! The persisted form of an account location: 45 bytes, little-endian. -/
namespace Hyperplane
open Bytes Outcome

inductive LocatorError where
  | tableError
  | storageError
  | transactionError
  | commitError
  | serializationError (message : String)
  deriving DecidableEq, Repr

def StorageType.byte : StorageType → UInt8
  | .base => 0
  | .delta => 1
  | .compacted => 2

def StorageType.ofByte (b : UInt8) : Outcome LocatorError StorageType :=
  match b with
  | 0 => .ok .base
  | 1 => .ok .delta
  | 2 => .ok .compacted
  | _ => .error (.serializationError ("Invalid storage type: " ++ toString b))

def serializeLocation (location : AccountLocation) : Outcome LocatorError (List UInt8) :=
  .ok (toLE 8 location.fileId.toNat ++ (toLE 8 location.offset.toNat ++
    (toLE 4 location.storedSize.toNat ++ (toLE 4 location.dataOffset.toNat ++
      (toLE 4 location.dataLen.toNat ++ (toLE 8 location.slot.toNat ++
        (toLE 8 location.writeVersion.toNat ++ [location.storageType.byte])))))))

def deserializeLocation (bytes : List UInt8) : Outcome LocatorError AccountLocation :=
  if bytes.length < 45 then
    .error (.serializationError ("Invalid location bytes: expected >= 45, got " ++ toString bytes.length))
  else do
    let fileId ← slice bytes 0 8
    let offset ← slice bytes 8 16
    let storedSize ← slice bytes 16 20
    let dataOffset ← slice bytes 20 24
    let dataLen ← slice bytes 24 28
    let slot ← slice bytes 28 36
    let writeVersion ← slice bytes 36 44
    let storageTypeByte ← index bytes 44
    let storageType ← StorageType.ofByte storageTypeByte
    return {
      fileId := UInt64.ofNat (ofLE fileId)
      offset := UInt64.ofNat (ofLE offset)
      storedSize := UInt32.ofNat (ofLE storedSize)
      dataOffset := UInt32.ofNat (ofLE dataOffset)
      dataLen := UInt32.ofNat (ofLE dataLen)
      slot := UInt64.ofNat (ofLE slot)
      writeVersion := UInt64.ofNat (ofLE writeVersion)
      storageType := storageType }

theorem StorageType.ofByte_byte (t : StorageType) : StorageType.ofByte t.byte = .ok t := by
  cases t <;> rfl

theorem StorageType.ofByte_eq_ok {b : UInt8} {t : StorageType} :
    StorageType.ofByte b = .ok t ↔ t.byte = b := by
  constructor
  · intro decoded
    unfold StorageType.ofByte at decoded
    split at decoded <;> cases decoded <;> rfl
  · rintro rfl
    exact StorageType.ofByte_byte t

theorem StorageType.ofByte_error_iff (b : UInt8) :
    (∃ e, StorageType.ofByte b = .error e) ↔ 2 < b := by
  unfold StorageType.ofByte
  split
  case h_4 zero one two =>
    have above : 2 < b.toNat := by
      have not_zero : b.toNat ≠ 0 := fun h => zero (UInt8.toNat_inj.mp h)
      have not_one : b.toNat ≠ 1 := fun h => one (UInt8.toNat_inj.mp h)
      have not_two : b.toNat ≠ 2 := fun h => two (UInt8.toNat_inj.mp h)
      omega
    exact ⟨fun _ => above, fun _ => ⟨_, rfl⟩⟩
  all_goals exact ⟨nofun, fun above => absurd above (by decide)⟩

theorem StorageType.ofByte_ne_fault (b : UInt8) : StorageType.ofByte b ≠ .fault := by
  unfold StorageType.ofByte
  split <;> simp

/-- The location that a sequence of fields of the right widths stands for. -/
theorem deserialize_fields {fileId offset storedSize dataOffset dataLen slot writeVersion : List UInt8}
    (fileId_width : fileId.length = 8) (offset_width : offset.length = 8)
    (storedSize_width : storedSize.length = 4) (dataOffset_width : dataOffset.length = 4)
    (dataLen_width : dataLen.length = 4) (slot_width : slot.length = 8)
    (writeVersion_width : writeVersion.length = 8) (b : UInt8) (rest : List UInt8) :
    deserializeLocation (fileId ++ (offset ++ (storedSize ++ (dataOffset ++ (dataLen ++
      (slot ++ (writeVersion ++ b :: rest))))))) = StorageType.ofByte b >>= fun storageType => .ok
        ⟨UInt64.ofNat (ofLE fileId), UInt64.ofNat (ofLE offset), UInt32.ofNat (ofLE storedSize),
          UInt32.ofNat (ofLE dataOffset), UInt32.ofNat (ofLE dataLen), UInt64.ofNat (ofLE slot),
          UInt64.ofNat (ofLE writeVersion), storageType⟩ := by
  have long : ¬ (fileId ++ (offset ++ (storedSize ++ (dataOffset ++ (dataLen ++
      (slot ++ (writeVersion ++ b :: rest))))))).length < 45 := by
    simp only [List.length_append, List.length_cons, fileId_width, offset_width, storedSize_width,
      dataOffset_width, dataLen_width, slot_width, writeVersion_width]
    omega
  rw [deserializeLocation, if_neg long]
  simp [slice_append, slice_front, index_append, index_front, fileId_width, offset_width,
    storedSize_width, dataOffset_width, dataLen_width, slot_width, writeVersion_width]

theorem deserialize_serialize (location : AccountLocation) (rest : List UInt8) : ∃ bytes,
    serializeLocation location = .ok bytes ∧ bytes.length = 45 ∧
      deserializeLocation (bytes ++ rest) = .ok location := by
  refine ⟨_, rfl, by simp, ?_⟩
  simp only [List.append_assoc, List.singleton_append]
  rw [deserialize_fields (length_toLE _ _) (length_toLE _ _) (length_toLE _ _) (length_toLE _ _)
    (length_toLE _ _) (length_toLE _ _) (length_toLE _ _), StorageType.ofByte_byte]
  simp [u64_round, u32_round]

/-- Long enough bytes are a sequence of fields; what is read depends on the
last one only, and writes the same fields. -/
theorem deserialize_long {bytes : List UInt8} (long : 45 ≤ bytes.length) : ∃ b,
    bytes[44]? = some b ∧ ∃ located : StorageType → AccountLocation,
      deserializeLocation bytes = StorageType.ofByte b >>= (fun t => .ok (located t)) ∧
        ∀ t, t.byte = b → serializeLocation (located t) = .ok (bytes.take 45) := by
  obtain ⟨fileId, rest, rfl, w₁⟩ := exists_front (n := 8) (by omega : 8 ≤ bytes.length)
  simp only [List.length_append, w₁] at long
  obtain ⟨offset, rest, rfl, w₂⟩ := exists_front (by omega : 8 ≤ rest.length)
  simp only [List.length_append, w₂] at long
  obtain ⟨storedSize, rest, rfl, w₃⟩ := exists_front (by omega : 4 ≤ rest.length)
  simp only [List.length_append, w₃] at long
  obtain ⟨dataOffset, rest, rfl, w₄⟩ := exists_front (by omega : 4 ≤ rest.length)
  simp only [List.length_append, w₄] at long
  obtain ⟨dataLen, rest, rfl, w₅⟩ := exists_front (by omega : 4 ≤ rest.length)
  simp only [List.length_append, w₅] at long
  obtain ⟨slot, rest, rfl, w₆⟩ := exists_front (by omega : 8 ≤ rest.length)
  simp only [List.length_append, w₆] at long
  obtain ⟨writeVersion, rest, rfl, w₇⟩ := exists_front (by omega : 8 ≤ rest.length)
  simp only [List.length_append, w₇] at long
  cases rest with
  | nil => simp at long
  | cons b rest =>
    refine ⟨b, ?_, _, deserialize_fields w₁ w₂ w₃ w₄ w₅ w₆ w₇ b rest, ?_⟩
    · simp [List.getElem?_append, w₁, w₂, w₃, w₄, w₅, w₆, w₇]
    · rintro t rfl
      simp only [serializeLocation, toLE_u64 w₁, toLE_u64 w₂, toLE_u32 w₃, toLE_u32 w₄, toLE_u32 w₅,
        toLE_u64 w₆, toLE_u64 w₇]
      simp [List.take_append, List.take_of_length_le, w₁, w₂, w₃, w₄, w₅, w₆, w₇]

theorem deserialize_ok_iff (bytes : List UInt8) (location : AccountLocation) :
    deserializeLocation bytes = .ok location ↔
      serializeLocation location = .ok (bytes.take 45) := by
  constructor
  · intro decoded
    by_cases short : bytes.length < 45
    · simp [deserializeLocation, short] at decoded
    · obtain ⟨b, _, located, reads, writes⟩ := deserialize_long (Nat.le_of_not_lt short)
      rw [reads] at decoded
      cases known : StorageType.ofByte b with
      | ok t =>
        rw [known] at decoded
        cases decoded
        exact writes t (StorageType.ofByte_eq_ok.mp known)
      | error e =>
        rw [known] at decoded
        cases decoded
      | fault => exact absurd known (StorageType.ofByte_ne_fault b)
  · intro encoded
    obtain ⟨front, written, _, reads⟩ := deserialize_serialize location (bytes.drop 45)
    cases encoded.symm.trans written
    rwa [List.take_append_drop] at reads

theorem deserialize_error_iff (bytes : List UInt8) :
    (∃ e, deserializeLocation bytes = .error e) ↔
      bytes.length < 45 ∨ ∃ b, bytes[44]? = some b ∧ 2 < b := by
  by_cases short : bytes.length < 45
  · simp [deserializeLocation, short]
  · obtain ⟨b, last, located, reads, _⟩ := deserialize_long (Nat.le_of_not_lt short)
    rw [reads, last]
    simp only [short, false_or, Option.some.injEq, exists_eq_left', ← StorageType.ofByte_error_iff]
    cases StorageType.ofByte b <;> simp [Bind.bind, Outcome.bind]

theorem deserialize_ne_fault (bytes : List UInt8) : deserializeLocation bytes ≠ .fault := by
  by_cases short : bytes.length < 45
  · simp [deserializeLocation, short]
  · obtain ⟨b, _, located, reads, _⟩ := deserialize_long (Nat.le_of_not_lt short)
    rw [reads]
    have known := StorageType.ofByte_ne_fault b
    cases decoded : StorageType.ofByte b with
    | ok t => simp
    | error e => nofun
    | fault => exact absurd decoded known

/-- The format round-trips both ways, and exactly the short strings and those
with an unknown storage type are refused. -/
theorem location_round_trip :
    (∀ location, ∃ bytes, serializeLocation location = .ok bytes ∧ bytes.length = 45 ∧
      deserializeLocation bytes = .ok location) ∧
    ∀ bytes, ((∃ e, deserializeLocation bytes = .error e) ↔
        bytes.length < 45 ∨ ∃ b, bytes[44]? = some b ∧ 2 < b) ∧
      deserializeLocation bytes ≠ .fault ∧
      ∀ location, deserializeLocation bytes = .ok location ↔
        serializeLocation location = .ok (bytes.take 45) := by
  constructor
  · intro location
    obtain ⟨bytes, written, width, reads⟩ := deserialize_serialize location []
    exact ⟨bytes, written, width, by rwa [List.append_nil] at reads⟩
  · intro bytes
    exact ⟨deserialize_error_iff bytes, deserialize_ne_fault bytes, deserialize_ok_iff bytes⟩

end Hyperplane
