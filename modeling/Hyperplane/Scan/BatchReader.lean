import Hyperplane.Scan.MmapReader
import Hyperplane.Scan.RandomAccess
import Hyperplane.Scan.RoundTrip

/-! The two ends of a scan: finding out from the first bytes of a file how to scan it,
and reading in one batch what the scans of several files recorded. -/
namespace Hyperplane
open Bytes Outcome

def APPENDVEC_MAGIC : UInt32 := 0xC0000000

def APPENDVEC_VERSION : UInt32 := 0

namespace AppendVecScanner

def detectHeader (bytes : List UInt8) : Bool :=
  if bytes.length < APPENDVEC_HEADER_SIZE then false
  else UInt32.ofNat (ofLE (bytes.take 4)) == APPENDVEC_MAGIC &&
    UInt32.ofNat (ofLE ((bytes.drop 4).take 4)) == APPENDVEC_VERSION

end AppendVecScanner

/-- The header that detect_header looks for. -/
def appendVecHeader : List UInt8 := toLE 4 APPENDVEC_MAGIC.toNat ++ toLE 4 APPENDVEC_VERSION.toNat

/-- The data length for which the stored size of a record is the header. -/
def headerLike : Nat := APPENDVEC_MAGIC.toNat - 97

theorem detectHeader_words {low high : List UInt8} (four : low.length = 4) (next : high.length = 4)
    (rest : List UInt8) : AppendVecScanner.detectHeader (low ++ (high ++ rest)) =
      (UInt32.ofNat (ofLE low) == APPENDVEC_MAGIC && UInt32.ofNat (ofLE high) == APPENDVEC_VERSION) := by
  unfold AppendVecScanner.detectHeader
  rw [List.take_left' four, List.drop_left' four, List.take_left' next, if_neg]
  simp only [List.length_append, APPENDVEC_HEADER_SIZE]
  omega

theorem detectHeader_header (rest : List UInt8) :
    AppendVecScanner.detectHeader (appendVecHeader ++ rest) = true := by
  rw [appendVecHeader, List.append_assoc, detectHeader_words (length_toLE _ _) (length_toLE _ _), u32_round,
    u32_round]
  rfl

theorem detectHeader_record {a : StoredAccount} (small : a.storedSize < 2 ^ 32) (rest : List UInt8) :
    AppendVecScanner.detectHeader (a.record ++ rest) = true ↔ a.data.length = headerLike := by
  have words : toLE 8 a.storedSize = toLE 4 a.storedSize ++ toLE 4 (a.storedSize / 256 / 256 / 256 / 256) := rfl
  have high : a.storedSize / 256 / 256 / 256 / 256 = 0 := by omega
  rw [StoredAccount.record, recordLayout, words, List.append_assoc, List.append_assoc,
    detectHeader_words (length_toLE _ _) (length_toLE _ _), high, ofLE_toLE_of_lt (by omega)]
  have zero : (UInt32.ofNat (ofLE (toLE 4 0)) == APPENDVEC_VERSION) = true := by decide
  have magic : APPENDVEC_MAGIC.toNat = 0xC0000000 := rfl
  rw [zero, Bool.and_true, beq_iff_eq, ← UInt32.toNat_inj, UInt32.toNat_ofNat_of_lt' small, headerLike, magic,
    StoredAccount.storedSize]
  omega

/-- A file tells how it was written, but for one whose first record is exactly as long
as the magic number. -/
theorem detectHeader_accountFile (headed lastPadded : Bool) {written : List StoredAccount}
    (small : ∀ a ∈ written, 97 + a.data.length < 2 ^ 32) :
    AppendVecScanner.detectHeader ((if headed then appendVecHeader else []) ++ accountFile lastPadded written) =
      headed ↔ headed = true ∨ ∀ first, written.head? = some first → first.data.length ≠ headerLike := by
  cases headed with
  | true => simp [detectHeader_header]
  | false =>
    cases written with
    | nil => simp [accountFile, AppendVecScanner.detectHeader, APPENDVEC_HEADER_SIZE]
    | cons first others =>
      have told := detectHeader_record (small first List.mem_cons_self)
        ((if others.isEmpty && !lastPadded then [] else first.padding) ++ accountFile lastPadded others)
      rw [if_neg Bool.false_ne_true, List.nil_append, accountFile, ← Bool.not_eq_true, told]
      simp

theorem scan_written (fileId : UInt64) (headed lastPadded : Bool) {written : List StoredAccount} {file : Slice}
    (small : ∀ a ∈ written, 97 + a.data.length < 2 ^ 32)
    (contents : file.bytes = (if headed then appendVecHeader else []) ++ accountFile lastPadded written) :
    (if headed then AppendVecScanner.new.withHeader else .new).scanFile fileId file =
      .ok ((parsedFrom fileId (if headed then 8 else 0) written).map .ok) := by
  have front : (if headed then appendVecHeader else []).length = if headed then 8 else 0 := by
    cases headed <;> rfl
  have start : (if headed then AppendVecScanner.new.withHeader else .new).start =
      (if headed then appendVecHeader else []).length := by
    cases headed <;> rfl
  have short := file.short
  rw [contents] at short
  have enough : (accountFile lastPadded written).length <
      ((if headed then appendVecHeader else []) ++ accountFile lastPadded written).length + 1 := by
    simp only [List.length_append]
    omega
  rw [AppendVecScanner.scanFile, contents, start, scanLoop_accountFile small short enough, front, List.nil_append]

/-- Scanning as detected undoes writing with and without a header, unless the first record
passes for a header. -/
theorem scan_detected (fileId : UInt64) (headed lastPadded : Bool) {written : List StoredAccount} {file : Slice}
    (small : ∀ a ∈ written, 97 + a.data.length < 2 ^ 32)
    (contents : file.bytes = (if headed then appendVecHeader else []) ++ accountFile lastPadded written)
    (told : headed = true ∨ ∀ first, written.head? = some first → first.data.length ≠ headerLike) :
    (if AppendVecScanner.detectHeader file.bytes then AppendVecScanner.new.withHeader else .new).scanFile
      fileId file = .ok ((parsedFrom fileId (if headed then 8 else 0) written).map .ok) := by
  have detected := (detectHeader_accountFile headed lastPadded small).mpr told
  rw [contents, detected]
  exact scan_written fileId headed lastPadded small contents

theorem headerless_detected :
    let a : StoredAccount := ⟨Vector.replicate 32 1, Vector.replicate 32 2, true, 3, 4, 5, [6, 7, 8]⟩
    let file : Slice := ⟨accountFile false [a, a], by
      simp [a, accountFile, StoredAccount.length_record, StoredAccount.storedSize, StoredAccount.padding,
        paddingNeeded]⟩
    (if AppendVecScanner.detectHeader file.bytes then AppendVecScanner.new.withHeader else .new).scanFile
      9 file = .ok ((parsedFrom 9 0 [a, a]).map .ok) := by
  intro a file
  exact scan_detected 9 false false (by simp [a]) rfl (.inr (by simp [a, headerLike, APPENDVEC_MAGIC]))

inductive BatchError where
  | mmap (error : MmapError)
  | ioError (message : String)

structure MmapBatchReader where
  files : List MmapAccountFile

namespace MmapBatchReader

/-- In parallel, with the results in the order of the locations. -/
def readBatch (self : MmapBatchReader) (locations : List (UInt64 × AccountLocation)) :
    List (Outcome BatchError (List UInt8)) :=
  locations.map fun (fileId, location) =>
    match self.files.find? fun file => file.fileId == fileId with
    | some file => match file.readBytes location with
      | .ok bytes => .ok bytes
      | .error e => .error (.mmap e)
      | .fault => .fault
    | none => .error (.ioError s!"File {fileId} not found")

end MmapBatchReader

/-- The record of an account that a scan found is what its location reads. -/
theorem ScannedAt.reads {file : MmapAccountFile} {start place : Nat} {account : ParsedAccount}
    (found : ScannedAt file.fileId file.mmap.bytes start account place)
    (size : file.fileSize = file.mmap.bytes.length) (small : 97 + account.data.length < 2 ^ 32) :
    file.readBytes account.location = .ok (recordAt file.mmap.bytes place) := by
  have offset := found.place.2
  obtain ⟨_, has, parsed⟩ := found
  obtain ⟨_, e, refused⟩ | ⟨full, other, here, data, location⟩ :=
    parse_recordAt file.fileId (UInt64.ofNat place) has.inside
  · rw [refused] at parsed
    cases parsed
  · cases here.symm.trans parsed
    have length : account.data.length = sizeAt file.mmap.bytes place - 97 := by
      rw [data, List.length_drop, length_recordAt has.inside]
    have stored : account.location.storedSize.toNat = sizeAt file.mmap.bytes place := by
      rw [location]
      exact UInt32.toNat_ofNat_of_lt' (by rw [UInt32.size]; omega)
    refine (MmapAccountFile.readRange_ok_iff size _ _ _).mpr ⟨?_, ?_⟩
    · rw [offset, stored, size]
      exact has.inside
    · rw [offset, stored]
      rfl

/-- An account that some scan of the file found. -/
def Recorded (file : MmapAccountFile) (account : ParsedAccount) : Prop :=
  ∃ (scanner : AppendVecScanner) (found : List (Except ParseError ParsedAccount)),
    scanner.scanFile file.fileId file.mmap = .ok found ∧ .ok account ∈ found

theorem Recorded.scannedAt {file : MmapAccountFile} {account : ParsedAccount} (h : Recorded file account) :
    ∃ start place, ScannedAt file.fileId file.mmap.bytes start account place := by
  obtain ⟨scanner, found, scanned, member⟩ := h
  obtain ⟨accounts, listed, exactly⟩ := scanner.scanFile_exact file.fileId file.mmap
  cases scanned.symm.trans listed
  obtain ⟨other, among, same⟩ := List.mem_map.mp member
  cases same
  obtain ⟨place, at_⟩ := (exactly account).mp among
  exact ⟨scanner.start, place, at_⟩

theorem located_written {file : MmapAccountFile} {written : List StoredAccount} {lastPadded : Bool}
    (small : ∀ a ∈ written, 97 + a.data.length < 2 ^ 32)
    (contents : file.mmap.bytes = accountFile lastPadded written) {account : ParsedAccount}
    (member : account ∈ parsedFrom file.fileId 0 written) : Recorded file account :=
  ⟨.new, _, scan_written file.fileId false lastPadded small contents, List.mem_map_of_mem member⟩

/-- Each location that a scan gave reads a record, which parses to the account it was
given for, whatever files and scanners the accounts came from and however they are asked for. -/
theorem batch_reads_scanned {reader : MmapBatchReader}
    (opened : ∀ file ∈ reader.files, file.fileSize = file.mmap.bytes.length)
    (own : (reader.files.map MmapAccountFile.fileId).Nodup) {asked : List (MmapAccountFile × ParsedAccount)}
    (recorded : ∀ pair ∈ asked, pair.1 ∈ reader.files ∧ Recorded pair.1 pair.2)
    (small : ∀ pair ∈ asked, 97 + pair.2.data.length < 2 ^ 32) :
    List.Forall₂ (fun pair read => ∃ bytes, read = .ok bytes ∧
        parseAccountRecord pair.1.fileId pair.2.location.offset bytes = .ok pair.2)
      asked (reader.readBatch (asked.map fun pair => (pair.1.fileId, pair.2.location))) := by
  rw [MmapBatchReader.readBatch, List.map_map, List.forall₂_map_right_iff, List.forall₂_same]
  rintro ⟨file, account⟩ member
  obtain ⟨there, scanned⟩ := recorded _ member
  obtain ⟨start, place, found⟩ := scanned.scannedAt
  have first : reader.files.find? (fun other => other.fileId == file.fileId) = some file := by
    cases found : reader.files.find? (fun other => other.fileId == file.fileId) with
    | none => exact absurd (beq_self_eq_true file.fileId) (List.find?_eq_none.mp found file there)
    | some other =>
      have same := List.find?_some found
      rw [List.inj_on_of_nodup_map own (List.mem_of_find?_eq_some found) there (beq_iff_eq.mp same)]
  have read := found.reads (opened file there) (small _ member)
  refine ⟨recordAt file.mmap.bytes place, ?_, ?_⟩
  · simp only [Function.comp_apply, first, read]
  · rw [found.place.1]
    exact found.2.2

theorem short_pair :
    let a : StoredAccount := ⟨Vector.replicate 32 1, Vector.replicate 32 2, true, 3, 4, 5, [6, 7, 8]⟩
    let b : StoredAccount := { a with data := [] }
    (accountFile false [a, b]).length < 2 ^ 63 := by
  simp [accountFile, StoredAccount.length_record, StoredAccount.storedSize, StoredAccount.padding, paddingNeeded]

theorem batch_reads_two :
    let a : StoredAccount := ⟨Vector.replicate 32 1, Vector.replicate 32 2, true, 3, 4, 5, [6, 7, 8]⟩
    let b : StoredAccount := { a with data := [] }
    let file : MmapAccountFile :=
      ⟨3, ⟨accountFile false [a, b], short_pair⟩, (accountFile false [a, b]).length, .raw []⟩
    List.Forall₂ (fun pair read => ∃ bytes, read = .ok bytes ∧
        parseAccountRecord pair.1.fileId pair.2.location.offset bytes = .ok pair.2)
      [(file, b.parsed 3 104), (file, a.parsed 3 0)]
      (MmapBatchReader.readBatch ⟨[file]⟩ [(3, (b.parsed 3 104).location), (3, (a.parsed 3 0).location)]) := by
  intro a b file
  have opened : ∀ other ∈ [file], other.fileSize = other.mmap.bytes.length := by
    rintro other (_ | ⟨_, ⟨⟩⟩)
    rfl
  have small : ∀ account ∈ [a, b], 97 + account.data.length < 2 ^ 32 := by
    rintro account (_ | ⟨_, _ | ⟨_, ⟨⟩⟩⟩)
    · decide
    · decide
  have second : b.parsed 3 104 ∈ parsedFrom 3 0 [a, b] := by
    have next : 0 + (a.storedSize + paddingNeeded a.storedSize 8) = 104 := by decide
    rw [parsedFrom, next]
    exact List.mem_cons_of_mem _ List.mem_cons_self
  have recorded : ∀ pair ∈ [(file, b.parsed 3 104), (file, a.parsed 3 0)],
      pair.1 ∈ [file] ∧ Recorded pair.1 pair.2 := by
    rintro pair (_ | ⟨_, _ | ⟨_, ⟨⟩⟩⟩)
    · exact ⟨List.mem_cons_self, located_written small rfl second⟩
    · exact ⟨List.mem_cons_self, located_written small rfl List.mem_cons_self⟩
  have short : ∀ pair ∈ [(file, b.parsed 3 104), (file, a.parsed 3 0)], 97 + pair.2.data.length < 2 ^ 32 := by
    rintro pair (_ | ⟨_, _ | ⟨_, ⟨⟩⟩⟩)
    · decide
    · decide
  exact @batch_reads_scanned ⟨[file]⟩ opened (List.nodup_singleton _) _ recorded short

end Hyperplane
