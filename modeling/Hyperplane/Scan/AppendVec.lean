import Hyperplane.Scan.AccountParser

/-! The scanner of one account file: it goes from record to record by their
stored sizes, each record starting at a multiple of eight after the first. -/
namespace Hyperplane
open Bytes Outcome

def APPENDVEC_HEADER_SIZE : Nat := 8

/-- Only the two constructors below build one. -/
structure AppendVecScanner where
  hasHeader : Bool
  headerSize : Nat
  sized : headerSize = if hasHeader then APPENDVEC_HEADER_SIZE else 0

/-- An account that failed to parse is skipped. -/
def pushParsed (accounts : List (Except ParseError ParsedAccount)) :
    Outcome ParseError ParsedAccount → Outcome Empty (List (Except ParseError ParsedAccount))
  | .ok account => .ok (accounts ++ [.ok account])
  | .error _ => .ok accounts
  | .fault => .fault

def scanLoop (fileId : UInt64) (bytes : List UInt8) : Nat → Nat →
    List (Except ParseError ParsedAccount) → Outcome Empty (List (Except ParseError ParsedAccount))
  | 0, _, _ => .fault
  | fuel + 1, offset, accounts =>
    if offset < bytes.length then do
      let sizeEnd ← add64 offset 8
      if bytes.length < sizeEnd then return accounts
      else do
        let storedSize := ofLE (← slice bytes offset sizeEnd)
        if storedSize = 0 ∨ bytes.length - offset < storedSize then return accounts
        else do
          let stop ← add64 offset storedSize
          let recordBytes ← slice bytes offset stop
          let parsed ← pushParsed accounts (parseAccountRecord fileId (UInt64.ofNat offset) recordBytes)
          let next ← alignTo8 storedSize >>= add64 offset
          scanLoop fileId bytes fuel next parsed
    else return accounts

namespace AppendVecScanner

def new : AppendVecScanner := ⟨false, 0, rfl⟩

def withHeader (_ : AppendVecScanner) : AppendVecScanner := ⟨true, APPENDVEC_HEADER_SIZE, rfl⟩

def start (self : AppendVecScanner) : Nat := if self.hasHeader then self.headerSize else 0

def scanFile (self : AppendVecScanner) (fileId : UInt64) (file : Slice) :
    Outcome Empty (List (Except ParseError ParsedAccount)) :=
  scanLoop fileId file.bytes (file.bytes.length + 1) self.start []

end AppendVecScanner

/-- The stored size found at an offset. -/
def sizeAt (bytes : List UInt8) (offset : Nat) : Nat := ofLE ((bytes.drop offset).take 8)

def recordAt (bytes : List UInt8) (offset : Nat) : List UInt8 :=
  (bytes.drop offset).take (sizeAt bytes offset)

/-- A record with a stored size of at least one byte starts at the offset and
ends inside the file. -/
structure HasRecord (bytes : List UInt8) (offset : Nat) : Prop where
  sized : offset + 8 ≤ bytes.length
  nonempty : 0 < sizeAt bytes offset
  inside : offset + sizeAt bytes offset ≤ bytes.length

def nextRecord (bytes : List UInt8) (offset : Nat) : Nat :=
  offset + (sizeAt bytes offset + paddingNeeded (sizeAt bytes offset) 8)

theorem nextRecord_after {bytes : List UInt8} {offset : Nat} (has : HasRecord bytes offset) :
    offset < nextRecord bytes offset ∧ offset + sizeAt bytes offset ≤ nextRecord bytes offset := by
  have positive := has.nonempty
  unfold nextRecord
  omega

theorem scanLoop_end {fileId : UInt64} {bytes : List UInt8} {offset fuel : Nat}
    (short : bytes.length < 2 ^ 63) (none : ¬ HasRecord bytes offset)
    (accounts : List (Except ParseError ParsedAccount)) :
    scanLoop fileId bytes (fuel + 1) offset accounts = .ok accounts := by
  by_cases inside : offset < bytes.length
  · rw [scanLoop, if_pos inside, add64_ok (by omega)]
    simp only [ok_bind]
    by_cases sized : bytes.length < offset + 8
    · exact if_pos sized
    · rw [if_neg sized, slice_ok (by omega) (by omega), Nat.add_sub_cancel_left]
      simp only [ok_bind]
      apply if_pos
      by_contra rest
      exact none ⟨by omega, by unfold sizeAt; omega, by unfold sizeAt; omega⟩
  · exact if_neg inside

theorem scanLoop_record {fileId : UInt64} {bytes : List UInt8} {offset fuel : Nat}
    (short : bytes.length < 2 ^ 63) (has : HasRecord bytes offset)
    (accounts : List (Except ParseError ParsedAccount)) :
    scanLoop fileId bytes (fuel + 1) offset accounts =
      pushParsed accounts (parseAccountRecord fileId (UInt64.ofNat offset) (recordAt bytes offset)) >>=
        scanLoop fileId bytes fuel (nextRecord bytes offset) := by
  obtain ⟨sized, nonempty, inside⟩ := has
  have size : ofLE ((bytes.drop offset).take 8) = sizeAt bytes offset := rfl
  have padding : paddingNeeded (sizeAt bytes offset) 8 < 8 := by
    unfold paddingNeeded
    split <;> omega
  rw [scanLoop, if_pos (by omega), add64_ok (by omega)]
  simp only [ok_bind]
  rw [if_neg (by omega), slice_ok (by omega) (by omega), Nat.add_sub_cancel_left]
  simp only [ok_bind, size]
  rw [if_neg (by omega), add64_ok (by omega)]
  simp only [ok_bind]
  rw [slice_ok (by omega) inside, Nat.add_sub_cancel_left, alignTo8_ok (by omega)]
  simp only [ok_bind]
  rw [add64_ok (by omega)]
  rfl

/-- The record that an account was parsed from. Its location names that record
up to the width of the fields. -/
structure ParsedAt (fileId : UInt64) (bytes : List UInt8) (offset : Nat) (account : ParsedAccount) :
    Prop where
  has : HasRecord bytes offset
  full : 97 ≤ sizeAt bytes offset
  data : account.data = (recordAt bytes offset).drop 97
  location : account.location = ⟨fileId, UInt64.ofNat offset, UInt32.ofNat (sizeAt bytes offset), 97,
    UInt32.ofNat (sizeAt bytes offset - 97), account.slot, 0, .base⟩

theorem length_recordAt {bytes : List UInt8} {offset : Nat}
    (inside : offset + sizeAt bytes offset ≤ bytes.length) :
    (recordAt bytes offset).length = sizeAt bytes offset := by
  simp only [recordAt, List.length_take, List.length_drop]
  omega

/-- A record that ends inside the file is as long as it says. -/
theorem parse_recordAt (fileId place : UInt64) {bytes : List UInt8} {offset : Nat}
    (inside : offset + sizeAt bytes offset ≤ bytes.length) :
    (sizeAt bytes offset < 97 ∧ ∃ e, parseAccountRecord fileId place (recordAt bytes offset) = .error e) ∨
      (97 ≤ sizeAt bytes offset ∧ ∃ account,
        parseAccountRecord fileId place (recordAt bytes offset) = .ok account ∧
        account.data = (recordAt bytes offset).drop 97 ∧
          account.location = ⟨fileId, place, UInt32.ofNat (sizeAt bytes offset), 97,
            UInt32.ofNat (sizeAt bytes offset - 97), account.slot, 0, .base⟩) := by
  have length := length_recordAt inside
  have size : 8 ≤ sizeAt bytes offset → ofLE ((recordAt bytes offset).take 8) = sizeAt bytes offset := by
    intro eight
    rw [recordAt, List.take_take, Nat.min_eq_left eight]
    rfl
  rcases parse_spec fileId place (fun eight => by rw [length] at eight ⊢; rw [size eight])
    with ⟨short, refused⟩ | ⟨full, account, parsed, data, location⟩
  · exact .inl ⟨length ▸ short, refused⟩
  · rw [length] at full
    rw [length, size (by omega)] at location
    exact .inr ⟨full, account, parsed, data, location⟩

theorem scanLoop_step (fileId : UInt64) {bytes : List UInt8} {offset : Nat} (fuel : Nat)
    (short : bytes.length < 2 ^ 63) (has : HasRecord bytes offset)
    (accounts : List (Except ParseError ParsedAccount)) :
    ∃ found : List ParsedAccount, scanLoop fileId bytes (fuel + 1) offset accounts =
        scanLoop fileId bytes fuel (nextRecord bytes offset) (accounts ++ found.map .ok) ∧
      found.length ≤ 1 ∧ ∀ account ∈ found, ParsedAt fileId bytes offset account := by
  rw [scanLoop_record short has]
  rcases parse_recordAt fileId (UInt64.ofNat offset) has.inside
    with ⟨_, e, refused⟩ | ⟨full, account, parsed, data, location⟩
  · refine ⟨[], ?_, by simp, by simp⟩
    rw [refused, List.map_nil, List.append_nil]
    rfl
  · refine ⟨[account], ?_, by simp, ?_⟩
    · rw [parsed]
      rfl
    · intro other member
      cases List.mem_singleton.mp member
      exact ⟨has, full, data, location⟩

/-- The second account was found in a later record than the first. -/
def Precedes (bytes : List UInt8) (a b : ParsedAccount) : Prop :=
  nextRecord bytes a.location.offset.toNat ≤ b.location.offset.toNat

theorem ParsedAt.offset_eq {fileId : UInt64} {bytes : List UInt8} {offset : Nat}
    {account : ParsedAccount} (short : bytes.length < 2 ^ 63)
    (h : ParsedAt fileId bytes offset account) : account.location.offset.toNat = offset := by
  have sized := h.has.sized
  rw [h.location, UInt64.toNat_ofNat', Nat.mod_eq_of_lt (by omega)]

/-- From any offset the loop runs to its end, and what it adds are accounts of
records from there on, one after the other. -/
theorem scanLoop_sound {fileId : UInt64} {bytes : List UInt8} (short : bytes.length < 2 ^ 63)
    {fuel offset : Nat} (enough : bytes.length - offset < fuel)
    (accounts : List (Except ParseError ParsedAccount)) :
    ∃ found : List ParsedAccount,
      scanLoop fileId bytes fuel offset accounts = .ok (accounts ++ found.map .ok) ∧
      (∀ account ∈ found, offset ≤ account.location.offset.toNat ∧
        ParsedAt fileId bytes account.location.offset.toNat account) ∧
      found.Pairwise (Precedes bytes) := by
  induction fuel generalizing offset accounts with
  | zero => omega
  | succ fuel ih =>
    by_cases has : HasRecord bytes offset
    · obtain ⟨found, step, one, parsed⟩ := scanLoop_step fileId fuel short has accounts
      have after := (nextRecord_after has).1
      have sized := has.sized
      have left : bytes.length - nextRecord bytes offset < fuel := by omega
      obtain ⟨later, rest, sound, ordered⟩ := ih left (accounts ++ found.map .ok)
      have here : ∀ account ∈ found, account.location.offset.toNat = offset :=
        fun account member => (parsed account member).offset_eq short
      refine ⟨found ++ later, ?_, ?_, ?_⟩
      · rw [step, rest, List.map_append, List.append_assoc]
      · intro account member
        rcases List.mem_append.mp member with first | second
        · rw [here account first]
          exact ⟨Nat.le_refl offset, parsed account first⟩
        · obtain ⟨beyond, at_⟩ := sound account second
          exact ⟨by omega, at_⟩
      · refine List.pairwise_append.mpr ⟨?_, ordered, ?_⟩
        · match found, one with
          | [], _ => exact List.Pairwise.nil
          | [account], _ => exact List.pairwise_singleton _ _
        · intro a first b second
          rw [Precedes, here a first]
          exact (sound b second).1
    · exact ⟨[], by rw [scanLoop_end short has, List.map_nil, List.append_nil], by simp, .nil⟩

theorem scanFile_parsed (scanner : AppendVecScanner) (fileId : UInt64) (file : Slice) :
    ∃ accounts : List ParsedAccount, scanner.scanFile fileId file = .ok (accounts.map .ok) ∧
      (∀ account ∈ accounts, ParsedAt fileId file.bytes account.location.offset.toNat account) ∧
      accounts.Pairwise (Precedes file.bytes) := by
  obtain ⟨accounts, scanned, sound, ordered⟩ :=
    @scanLoop_sound fileId file.bytes file.short (file.bytes.length + 1) scanner.start (by omega) []
  exact ⟨accounts, scanned, fun account member => (sound account member).2, ordered⟩

/-- What a location promises about the file it points into. -/
structure LocatedIn (bytes : List UInt8) (account : ParsedAccount) : Prop where
  read_inside : account.location.readRange.2.toNat ≤ bytes.length
  data_start : account.location.readRange.1 ≤ account.location.dataRange.1
  data_ordered : account.location.dataRange.1 ≤ account.location.dataRange.2
  data_stop : account.location.dataRange.2 ≤ account.location.readRange.2
  data : (bytes.drop account.location.dataRange.1.toNat).take
    (account.location.dataRange.2.toNat - account.location.dataRange.1.toNat) = account.data
  size : account.location.storedSize.toNat = 97 + account.location.dataLen.toNat

theorem ParsedAt.located {fileId : UInt64} {bytes : List UInt8} {account : ParsedAccount}
    (short : bytes.length < 2 ^ 63)
    (h : ParsedAt fileId bytes account.location.offset.toNat account)
    (small : sizeAt bytes account.location.offset.toNat < 2 ^ 32) : LocatedIn bytes account := by
  obtain ⟨has, full, data, location⟩ := h
  have inside := has.inside
  generalize start : account.location.offset.toNat = offset at *
  generalize size : sizeAt bytes offset = stored at *
  have stored_eq : account.location.storedSize.toNat = stored := by
    rw [location, UInt32.toNat_ofNat', Nat.mod_eq_of_lt small]
  have data_eq : account.location.dataLen.toNat = stored - 97 := by
    rw [location, UInt32.toNat_ofNat', Nat.mod_eq_of_lt (by omega)]
  have gap : account.location.dataOffset.toNat = 97 := by rw [location]; rfl
  have read_stop : account.location.readRange.2.toNat = offset + stored := by
    simp only [AccountLocation.readRange, UInt64.toNat_add, UInt32.toNat_toUInt64, start, stored_eq]
    omega
  have data_start : account.location.dataRange.1.toNat = offset + 97 := by
    simp only [AccountLocation.dataRange, UInt64.toNat_add, UInt32.toNat_toUInt64, start, gap]
    omega
  have data_stop : account.location.dataRange.2.toNat = offset + stored := by
    simp only [AccountLocation.dataRange, UInt64.toNat_add, UInt32.toNat_toUInt64, start, gap, data_eq]
    omega
  have read_start : account.location.readRange.1.toNat = offset := start
  constructor
  · omega
  · rw [UInt64.le_iff_toNat_le]
    omega
  · rw [UInt64.le_iff_toNat_le]
    omega
  · rw [UInt64.le_iff_toNat_le]
    omega
  · have width : offset + stored - (offset + 97) = stored - 97 := by omega
    rw [data, recordAt, data_start, data_stop, List.drop_take, List.drop_drop, size, width]
  · omega

/-- Whatever the bytes, the scan ends without a panic, and its accounts lie
where their locations say, one after the other. -/
theorem scanFile_sound (scanner : AppendVecScanner) (fileId : UInt64) (file : Slice) :
    ∃ accounts : List ParsedAccount, scanner.scanFile fileId file = .ok (accounts.map .ok) ∧
      (∀ account ∈ accounts, sizeAt file.bytes account.location.offset.toNat < 2 ^ 32 →
        LocatedIn file.bytes account) ∧
      accounts.Pairwise fun a b => a.location.readRange.1 < b.location.readRange.1 ∧
        a.location.readRange.2 ≤ b.location.readRange.1 := by
  obtain ⟨accounts, scanned, sound, ordered⟩ := scanFile_parsed scanner fileId file
  refine ⟨accounts, scanned, ?_, ?_⟩
  · intro account member small
    exact (sound account member).located file.short small
  · refine ordered.imp_of_mem ?_
    intro a b first second before
    obtain ⟨has, full, -, location⟩ := sound a first
    have after := nextRecord_after has
    have inside := has.inside
    have short := file.short
    have stored : a.location.storedSize = UInt32.ofNat (sizeAt file.bytes a.location.offset.toNat) :=
      congrArg (·.storedSize) location
    have truncated : a.location.storedSize.toNat ≤ sizeAt file.bytes a.location.offset.toNat := by
      rw [stored, UInt32.toNat_ofNat']
      exact Nat.mod_le _ _
    have stop : a.location.readRange.2.toNat = a.location.offset.toNat + a.location.storedSize.toNat := by
      simp only [AccountLocation.readRange, UInt64.toNat_add, UInt32.toNat_toUInt64]
      omega
    unfold Precedes at before
    rw [UInt64.lt_iff_toNat_lt, UInt64.le_iff_toNat_le, stop]
    simp only [AccountLocation.readRange]
    omega

end Hyperplane
