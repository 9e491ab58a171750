import Hyperplane.Scan.AccountParser

/-! The readers of a record beside the full parser: each repeats the checks of
the lengths on its own. -/
namespace Hyperplane
open Bytes Outcome

/-- The 97 bytes of metadata are taken off the stored size; a smaller one
underflows. -/
def getAccountDataSize (bytes : List UInt8) : Outcome ParseError Nat :=
  if bytes.length < 97 then .error .metadataOverflow
  else do
    let sizeBytes ← slice bytes 0 8
    let storedSize := UInt64.ofNat (ofLE sizeBytes)
    if bytes.length < storedSize.toNat then .error (.invalidStoredSize storedSize)
    else if storedSize.toNat < 97 then .fault
    else return storedSize.toNat - 97

def getAccountPubkey (bytes : List UInt8) : Outcome ParseError Pubkey :=
  if bytes.length < 40 then .error .metadataOverflow
  else slice bytes 8 40 >>= parsePubkey

def validateAccountRecord (bytes : List UInt8) : Outcome ParseError Unit :=
  if bytes.length < 8 then .error .metadataOverflow
  else do
    let sizeBytes ← slice bytes 0 8
    let storedSize := UInt64.ofNat (ofLE sizeBytes)
    if bytes.length < storedSize.toNat then .error (.invalidStoredSize storedSize)
    else return ()

/-- The size that a record gives for itself. -/
def storedSize (bytes : List UInt8) : Nat := ofLE (bytes.take 8)

theorem read_storedSize {bytes : List UInt8} (long : 8 ≤ bytes.length) :
    slice bytes 0 8 = (.ok (bytes.take 8) : Outcome ParseError (List UInt8)) ∧
      (UInt64.ofNat (ofLE (bytes.take 8))).toNat = storedSize bytes := by
  constructor
  · exact slice_ok (by omega) long
  · exact toNat_u64 (List.length_take_of_le long)

theorem validate_long {bytes : List UInt8} (long : 8 ≤ bytes.length) : validateAccountRecord bytes =
    if bytes.length < storedSize bytes then
      .error (.invalidStoredSize (UInt64.ofNat (ofLE (bytes.take 8))))
    else .ok () := by
  obtain ⟨read, size⟩ := read_storedSize long
  rw [validateAccountRecord, if_neg (by omega), read]
  simp only [ok_bind, size, pure_eq_ok]

theorem dataSize_long {bytes : List UInt8} (long : 97 ≤ bytes.length) : getAccountDataSize bytes =
    if bytes.length < storedSize bytes then
      .error (.invalidStoredSize (UInt64.ofNat (ofLE (bytes.take 8))))
    else if storedSize bytes < 97 then .fault
    else .ok (storedSize bytes - 97) := by
  obtain ⟨read, size⟩ := @read_storedSize bytes (by omega)
  rw [getAccountDataSize, if_neg (by omega), read]
  simp only [ok_bind, size, pure_eq_ok]

/-- A record that claims more bytes than there are is refused. -/
theorem parse_oversized (fileId offset : UInt64) {bytes : List UInt8} (long : 8 ≤ bytes.length)
    (oversized : bytes.length < storedSize bytes) : parseAccountRecord fileId offset bytes =
      .error (.invalidStoredSize (UInt64.ofNat (ofLE (bytes.take 8)))) := by
  obtain ⟨read, size⟩ := read_storedSize long
  rw [parseAccountRecord, if_neg (by omega), read]
  simp only [ok_bind, size]
  exact if_pos oversized

theorem parse_refused (fileId offset : UInt64) {bytes : List UInt8}
    (refused : bytes.length < 97 ∨ bytes.length < storedSize bytes) :
    ∃ e, parseAccountRecord fileId offset bytes = .error e := by
  by_cases tiny : bytes.length < 8
  · exact ⟨.metadataOverflow, if_pos tiny⟩
  · by_cases oversized : bytes.length < storedSize bytes
    · exact ⟨_, parse_oversized fileId offset (Nat.le_of_not_lt tiny) oversized⟩
    · rcases parse_spec fileId offset (fun _ => Nat.le_of_not_lt oversized) with ⟨_, error⟩ | ⟨long, _⟩
      · exact error
      · omega

theorem parse_accepted (fileId offset : UInt64) {bytes : List UInt8} (long : 97 ≤ bytes.length)
    (fits : storedSize bytes ≤ bytes.length) :
    ∃ account, parseAccountRecord fileId offset bytes = .ok account ∧
      account.data.length = bytes.length - 97 := by
  rcases parse_spec fileId offset (fun _ => fits) with ⟨short, _⟩ | ⟨_, account, parsed, data, _⟩
  · omega
  · exact ⟨account, parsed, by rw [data, List.length_drop]⟩

theorem parse_ok_iff (fileId offset : UInt64) (bytes : List UInt8) :
    (∃ account, parseAccountRecord fileId offset bytes = .ok account) ↔
      97 ≤ bytes.length ∧ storedSize bytes ≤ bytes.length := by
  constructor
  · rintro ⟨account, parsed⟩
    by_contra refused
    obtain ⟨e, error⟩ := @parse_refused fileId offset bytes (by omega)
    rw [error] at parsed
    cases parsed
  · rintro ⟨long, fits⟩
    obtain ⟨account, parsed, _⟩ := parse_accepted fileId offset long fits
    exact ⟨account, parsed⟩

theorem parse_ne_fault (fileId offset : UInt64) (bytes : List UInt8) :
    parseAccountRecord fileId offset bytes ≠ .fault := by
  intro faults
  by_cases accepted : 97 ≤ bytes.length ∧ storedSize bytes ≤ bytes.length
  · obtain ⟨account, parsed⟩ := (parse_ok_iff fileId offset bytes).mpr accepted
    rw [faults] at parsed
    cases parsed
  · obtain ⟨e, error⟩ := @parse_refused fileId offset bytes (by omega)
    rw [faults] at error
    cases error

/-- A parsed account is placed where it was asked for, under the pubkey that
the short reader finds. -/
theorem parse_names {fileId offset : UInt64} {bytes : List UInt8} {account : ParsedAccount}
    (parsed : parseAccountRecord fileId offset bytes = .ok account) :
    account.location.offset = offset ∧ getAccountPubkey bytes = .ok account.pubkey := by
  obtain ⟨long, fits⟩ := (parse_ok_iff fileId offset bytes).mp ⟨account, parsed⟩
  obtain ⟨size, pubkey, owner, executable, rentEpoch, lamports, slot, data, w₁, w₂, w₃, w₄, rfl⟩ :=
    exists_recordLayout long
  have length := length_recordLayout w₁ w₂ w₃ w₄ pubkey owner executable data
  have front := take_recordLayout w₁ pubkey owner executable rentEpoch lamports slot data
  rw [storedSize, front, length] at fits
  rw [parse_recordLayout w₁ w₂ w₃ w₄ pubkey owner executable data fits] at parsed
  cases parsed
  refine ⟨rfl, ?_⟩
  rw [getAccountPubkey, if_neg (by omega)]
  simp [recordLayout, slice_append, slice_front, w₁]

/-- The three readers accept the same bytes, without a panic, and find the same
length of the data. -/
structure ReadersAgree (fileId offset : UInt64) (bytes : List UInt8) : Prop where
  validate_iff : (∃ account, parseAccountRecord fileId offset bytes = .ok account) ↔
    validateAccountRecord bytes = .ok ()
  dataSize_iff : (∃ account, parseAccountRecord fileId offset bytes = .ok account) ↔
    ∃ size, getAccountDataSize bytes = .ok size
  total : parseAccountRecord fileId offset bytes ≠ .fault ∧ validateAccountRecord bytes ≠ .fault ∧
    getAccountDataSize bytes ≠ .fault
  size : ∀ account size, parseAccountRecord fileId offset bytes = .ok account →
    getAccountDataSize bytes = .ok size → size = account.data.length

theorem validate_ok_iff (bytes : List UInt8) :
    validateAccountRecord bytes = .ok () ↔ 8 ≤ bytes.length ∧ storedSize bytes ≤ bytes.length := by
  by_cases tiny : bytes.length < 8
  · simp only [validateAccountRecord, if_pos tiny, reduceCtorEq, false_iff]
    omega
  · rw [validate_long (by omega)]
    split
    · simp only [reduceCtorEq, false_iff]
      omega
    · simp only [true_iff]
      omega

theorem validate_ne_fault (bytes : List UInt8) : validateAccountRecord bytes ≠ .fault := by
  by_cases tiny : bytes.length < 8
  · simp [validateAccountRecord, tiny]
  · rw [validate_long (by omega)]
    split
    · simp
    · simp

theorem dataSize_ok_iff (bytes : List UInt8) (size : Nat) : getAccountDataSize bytes = .ok size ↔
    97 ≤ bytes.length ∧ storedSize bytes ≤ bytes.length ∧ storedSize bytes = size + 97 := by
  by_cases short : bytes.length < 97
  · simp only [getAccountDataSize, if_pos short, reduceCtorEq, false_iff]
    omega
  · rw [dataSize_long (by omega)]
    split
    · simp only [reduceCtorEq, false_iff]
      omega
    · split
      · simp only [reduceCtorEq, false_iff]
        omega
      · rw [Outcome.ok.injEq]
        omega

theorem dataSize_fault_iff (bytes : List UInt8) : getAccountDataSize bytes = .fault ↔
    97 ≤ bytes.length ∧ storedSize bytes < 97 := by
  by_cases short : bytes.length < 97
  · simp only [getAccountDataSize, if_pos short, reduceCtorEq, false_iff]
    omega
  · rw [dataSize_long (by omega)]
    split
    · simp only [reduceCtorEq, false_iff]
      omega
    · split
      · simp only [true_iff]
        omega
      · simp only [reduceCtorEq, false_iff]
        omega

/-- The readers agree on what all of them refuse, and on records with all their
metadata that are as long as they say. -/
theorem readersAgree_iff (fileId offset : UInt64) (bytes : List UInt8) :
    ReadersAgree fileId offset bytes ↔ bytes.length < 8 ∨ bytes.length < storedSize bytes ∨
      (97 ≤ bytes.length ∧ storedSize bytes = bytes.length) := by
  constructor
  · intro agree
    by_contra differs
    have accepted := (validate_ok_iff bytes).mpr (by omega)
    have parsed := agree.validate_iff.mpr accepted
    obtain ⟨long, fits⟩ := (parse_ok_iff fileId offset bytes).mp parsed
    obtain ⟨size, measured⟩ := agree.dataSize_iff.mp parsed
    obtain ⟨account, whole, length⟩ := parse_accepted fileId offset long fits
    have same := agree.size account size whole measured
    have stored := ((dataSize_ok_iff bytes size).mp measured).2.2
    omega
  · intro condition
    constructor
    · rw [parse_ok_iff, validate_ok_iff]
      omega
    · rw [parse_ok_iff]
      constructor
      · rintro ⟨long, fits⟩
        exact ⟨storedSize bytes - 97, (dataSize_ok_iff bytes _).mpr (by omega)⟩
      · rintro ⟨size, measured⟩
        obtain ⟨long, fits, _⟩ := (dataSize_ok_iff bytes size).mp measured
        exact ⟨long, fits⟩
    · refine ⟨parse_ne_fault fileId offset bytes, validate_ne_fault bytes, fun faults => ?_⟩
      have underflow := (dataSize_fault_iff bytes).mp faults
      omega
    · intro account size parsed measured
      obtain ⟨long, fits, stored⟩ := (dataSize_ok_iff bytes size).mp measured
      obtain ⟨other, whole, length⟩ := parse_accepted fileId offset long fits
      cases parsed.symm.trans whole
      omega

/-- A valid record according to one reader, not according to another. -/
theorem readers_differ : ¬ ReadersAgree 0 0 (8 :: List.replicate 7 0) := by
  intro agree
  obtain ⟨account, parsed⟩ := agree.validate_iff.mpr (by decide)
  have refused : parseAccountRecord 0 0 (8 :: List.replicate 7 0) = .error .metadataOverflow := by
    decide
  rw [refused] at parsed
  cases parsed

end Hyperplane
