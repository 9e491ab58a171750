import Hyperplane.Scan.AppendVec

/-! Writing accounts to a file and scanning them back. -/
namespace Hyperplane
open Bytes Outcome

structure StoredAccount where
  pubkey : Pubkey
  owner : Pubkey
  executable : Bool
  rentEpoch : UInt64
  lamports : UInt64
  slot : UInt64
  data : List UInt8
  deriving DecidableEq

namespace StoredAccount

def storedSize (a : StoredAccount) : Nat := 97 + a.data.length

def record (a : StoredAccount) : List UInt8 :=
  recordLayout (toLE 8 a.storedSize) a.pubkey a.owner (if a.executable then 1 else 0)
    (toLE 8 a.rentEpoch.toNat) (toLE 8 a.lamports.toNat) (toLE 8 a.slot.toNat) a.data

def padding (a : StoredAccount) : List UInt8 := List.replicate (paddingNeeded a.storedSize 8) 0

def parsed (fileId : UInt64) (offset : Nat) (a : StoredAccount) : ParsedAccount where
  pubkey := a.pubkey
  owner := a.owner
  lamports := a.lamports
  executable := a.executable
  rentEpoch := a.rentEpoch
  slot := a.slot
  writeVersion := 0
  data := a.data
  location := {
    fileId := fileId
    offset := UInt64.ofNat offset
    storedSize := UInt32.ofNat a.storedSize
    dataOffset := 97
    dataLen := UInt32.ofNat a.data.length
    slot := a.slot
    writeVersion := 0
    storageType := .base }

end StoredAccount

/-- Records padded to a multiple of eight, the last one only if asked. -/
def accountFile (lastPadded : Bool) : List StoredAccount → List UInt8
  | [] => []
  | a :: rest => a.record ++
      ((if rest.isEmpty && !lastPadded then [] else a.padding) ++ accountFile lastPadded rest)

/-- The accounts as they are parsed when the first record starts at the offset. -/
def parsedFrom (fileId : UInt64) : Nat → List StoredAccount → List ParsedAccount
  | _, [] => []
  | offset, a :: rest => a.parsed fileId offset ::
      parsedFrom fileId (offset + (a.storedSize + paddingNeeded a.storedSize 8)) rest

theorem StoredAccount.length_record (a : StoredAccount) : a.record.length = a.storedSize :=
  length_recordLayout (length_toLE _ _) (length_toLE _ _) (length_toLE _ _) (length_toLE _ _) _ _ _ _

/-- The padding fills up to the next multiple of eight. -/
theorem StoredAccount.padded (a : StoredAccount) :
    (a.storedSize + a.padding.length) % 8 = 0 ∧ a.padding.length < 8 := by
  rw [padding, List.length_replicate, paddingNeeded]
  split <;> omega

theorem StoredAccount.parse_record (fileId : UInt64) (offset : Nat) (a : StoredAccount)
    (small : a.storedSize < 2 ^ 32) :
    parseAccountRecord fileId (UInt64.ofNat offset) a.record = .ok (a.parsed fileId offset) := by
  have size : ofLE (toLE 8 a.storedSize) = a.storedSize :=
    ofLE_toLE_of_lt (Nat.lt_trans small (by decide))
  have flag : ((if a.executable then 1 else 0 : UInt8) != 0) = a.executable := by
    cases a.executable <;> rfl
  rw [record, parse_recordLayout (length_toLE _ _) (length_toLE _ _) (length_toLE _ _)
    (length_toLE _ _) _ _ _ _ (Nat.le_of_eq size), size, flag, u64_round, u64_round, u64_round]
  rfl

section at_front

variable {front rest : List UInt8} {a : StoredAccount} (small : a.storedSize < 2 ^ 32)

include small

theorem sizeAt_record : sizeAt (front ++ (a.record ++ rest)) front.length = a.storedSize := by
  rw [sizeAt, List.drop_left, StoredAccount.record, recordLayout, List.append_assoc,
    List.take_left' (length_toLE 8 _), ofLE_toLE_of_lt (Nat.lt_trans small (by decide))]

theorem recordAt_record : recordAt (front ++ (a.record ++ rest)) front.length = a.record := by
  rw [recordAt, sizeAt_record small, List.drop_left, ← a.length_record, List.take_left]

theorem hasRecord_record : HasRecord (front ++ (a.record ++ rest)) front.length := by
  have size : sizeAt (front ++ (a.record ++ rest)) front.length = a.storedSize := sizeAt_record small
  have length := a.length_record
  have enough : 97 ≤ a.storedSize := Nat.le_add_right 97 _
  constructor
  · simp only [List.length_append, length]
    omega
  · omega
  · simp only [List.length_append, length, size]
    omega

/-- One record is scanned, and the scan goes on after its padding. -/
theorem scanLoop_front {fileId : UInt64} {fuel : Nat}
    (short : (front ++ (a.record ++ rest)).length < 2 ^ 63)
    (accounts : List (Except ParseError ParsedAccount)) :
    scanLoop fileId (front ++ (a.record ++ rest)) (fuel + 1) front.length accounts =
      scanLoop fileId (front ++ (a.record ++ rest)) fuel
        (front.length + (a.storedSize + paddingNeeded a.storedSize 8))
        (accounts ++ [.ok (a.parsed fileId front.length)]) := by
  rw [scanLoop_record short (hasRecord_record small), recordAt_record small,
    a.parse_record fileId front.length small, nextRecord, sizeAt_record small]
  rfl

omit small in
/-- Behind the last record the next offset is past the end, whether or not the
padding is there. -/
theorem no_record_behind (few : rest.length ≤ paddingNeeded a.storedSize 8) :
    ¬ HasRecord (front ++ (a.record ++ rest))
      (front.length + (a.storedSize + paddingNeeded a.storedSize 8)) := by
  intro has
  have sized := has.sized
  rw [List.length_append, List.length_append, a.length_record] at sized
  omega

end at_front

/-- A record with others behind it is padded. -/
theorem accountFile_cons_cons (lastPadded : Bool) (a b : StoredAccount) (others : List StoredAccount) :
    accountFile lastPadded (a :: b :: others) =
      a.record ++ (a.padding ++ accountFile lastPadded (b :: others)) := by
  rw [accountFile]
  rfl

theorem StoredAccount.length_padded (a : StoredAccount) :
    (a.record ++ a.padding).length = a.storedSize + paddingNeeded a.storedSize 8 := by
  rw [List.length_append, a.length_record, padding, List.length_replicate]

theorem scanLoop_accountFile {fileId : UInt64} {lastPadded : Bool} {written : List StoredAccount}
    (small : ∀ a ∈ written, a.storedSize < 2 ^ 32) {front : List UInt8} {fuel : Nat}
    (short : (front ++ accountFile lastPadded written).length < 2 ^ 63)
    (enough : (accountFile lastPadded written).length < fuel)
    (accounts : List (Except ParseError ParsedAccount)) :
    scanLoop fileId (front ++ accountFile lastPadded written) fuel front.length accounts =
      .ok (accounts ++ (parsedFrom fileId front.length written).map .ok) := by
  induction written generalizing front fuel accounts with
  | nil =>
    cases fuel with
    | zero => omega
    | succ fuel =>
      rw [scanLoop_end short, parsedFrom, List.map_nil, List.append_nil]
      intro has
      have sized := has.sized
      simp [accountFile] at sized
  | cons a rest ih =>
    cases fuel with
    | zero => omega
    | succ fuel =>
      have first := small a (by simp)
      have length := a.length_record
      cases rest with
      | nil =>
        rw [accountFile] at short enough ⊢
        rw [scanLoop_front first short]
        cases fuel with
        | zero =>
          simp only [List.length_append, length, StoredAccount.storedSize] at enough
          omega
        | succ fuel =>
          rw [scanLoop_end short]
          · rfl
          · apply no_record_behind
            split
            · exact Nat.zero_le _
            · simp [accountFile, StoredAccount.padding]
      | cons b others =>
        rw [accountFile_cons_cons] at short enough ⊢
        have shift : (front ++ (a.record ++ a.padding)).length =
            front.length + (a.storedSize + paddingNeeded a.storedSize 8) := by
          rw [List.length_append, a.length_padded]
        have regroup : front ++ (a.record ++ (a.padding ++ accountFile lastPadded (b :: others))) =
            (front ++ (a.record ++ a.padding)) ++ accountFile lastPadded (b :: others) := by
          simp only [List.append_assoc]
        have left : (accountFile lastPadded (b :: others)).length < fuel := by
          simp only [List.length_append, length, StoredAccount.storedSize] at enough
          omega
        have tail := ih (fun c member => small c (List.mem_cons_of_mem a member))
          (regroup ▸ short) left (accounts ++ [.ok (a.parsed fileId front.length)])
        rw [shift] at tail
        rw [scanLoop_front first short, regroup, tail, List.append_assoc]
        rfl

/-- Scanning undoes writing. -/
theorem scan_accountFile (scanner : AppendVecScanner) (fileId : UInt64) (header : List UInt8)
    (written : List StoredAccount) (lastPadded : Bool) (file : Slice)
    (headed : header.length = scanner.headerSize) (small : ∀ a ∈ written, 97 + a.data.length < 2 ^ 32)
    (contents : file.bytes = header ++ accountFile lastPadded written) :
    scanner.scanFile fileId file = .ok ((parsedFrom fileId scanner.headerSize written).map .ok) := by
  have start : scanner.start = header.length := by
    have sized := scanner.sized
    unfold AppendVecScanner.start
    split at sized <;> simp_all
  have short := file.short
  rw [contents] at short
  have enough : (accountFile lastPadded written).length <
      (header ++ accountFile lastPadded written).length + 1 := by
    simp only [List.length_append]
    omega
  rw [AppendVecScanner.scanFile, contents, start, scanLoop_accountFile small short enough,
    headed, List.nil_append]

theorem scan_accountFile_header :
    let a : StoredAccount := ⟨Vector.replicate 32 1, Vector.replicate 32 2, true, 3, 4, 5, [6, 7, 8]⟩
    let file : Slice := ⟨List.replicate 8 0 ++ accountFile false [a, a], by
      simp [a, accountFile, StoredAccount.length_record, StoredAccount.storedSize,
        StoredAccount.padding, paddingNeeded]⟩
    AppendVecScanner.new.withHeader.scanFile 9 file =
      .ok [.ok (a.parsed 9 8), .ok (a.parsed 9 112)] := by
  intro a file
  have scanned := scan_accountFile AppendVecScanner.new.withHeader 9 (List.replicate 8 0) [a, a] false
    file rfl (by simp [a]) rfl
  have next : 8 + (a.storedSize + paddingNeeded a.storedSize 8) = 112 := by decide
  rw [scanned]
  change Outcome.ok ((parsedFrom 9 8 [a, a]).map Except.ok) = _
  rw [parsedFrom, parsedFrom, next]
  rfl

end Hyperplane
