import Hyperplane.Scan.Scanner

/-! Reading mapped account files at a location. The fields of a location may be
anything, and the sums wrap. -/
namespace Hyperplane
open Outcome

inductive MmapError where
  | outOfBounds (offset : UInt64) (len fileSize : Nat)
  deriving DecidableEq, Repr

namespace MmapAccountFile

/-- The bytes from start on, behind the check that their end is in the file. -/
def readRange (self : MmapAccountFile) (start : UInt64) (len : UInt32) :
    Outcome MmapError (List UInt8) :=
  let stop := start + len.toUInt64
  if self.fileSize < stop.toNat then .error (.outOfBounds start len.toNat self.fileSize)
  else slice self.mmap.bytes start.toNat stop.toNat

def readBytes (self : MmapAccountFile) (location : AccountLocation) : Outcome MmapError (List UInt8) :=
  self.readRange location.offset location.storedSize

def getSlice (self : MmapAccountFile) (location : AccountLocation) : Outcome MmapError (List UInt8) :=
  self.readRange location.offset location.storedSize

def getAccountData (self : MmapAccountFile) (location : AccountLocation) :
    Outcome MmapError (List UInt8) :=
  self.readRange (location.offset + location.dataOffset.toUInt64) location.dataLen

def isValidLocation (self : MmapAccountFile) (location : AccountLocation) : Bool :=
  decide ((location.offset + location.storedSize.toUInt64).toNat ≤ self.fileSize)

theorem open_size {fileId : UInt64} {entry : DirEntry} {file : MmapAccountFile}
    (opened : MmapAccountFile.open fileId entry = .ok file) : file.fileSize = file.mmap.bytes.length := by
  unfold MmapAccountFile.open at opened
  split at opened
  · cases opened
    rfl
  · cases opened

/-- A location is valid exactly if it can be read, reading it gives the bytes
it names, and nothing panics. -/
structure ReadsSafely (file : MmapAccountFile) (location : AccountLocation) : Prop where
  valid_iff : file.isValidLocation location = true ↔
    (∃ bytes, file.readBytes location = .ok bytes) ∧ ∃ bytes, file.getSlice location = .ok bytes
  exact : file.isValidLocation location = true → ∃ bytes, file.readBytes location = .ok bytes ∧
    bytes = (file.mmap.bytes.drop location.offset.toNat).take location.storedSize.toNat ∧
      bytes.length = location.storedSize.toNat
  total : file.readBytes location ≠ .fault ∧ file.getSlice location ≠ .fault ∧
    file.getAccountData location ≠ .fault

/-- The sum does not wrap, or what is left of it still lies behind the file. -/
def Bounded (fileSize : Nat) (start : UInt64) (len : UInt32) : Prop :=
  start.toNat + len.toNat < 2 ^ 64 ∨ fileSize < start.toNat + len.toNat - 2 ^ 64

theorem end_toNat (start : UInt64) (len : UInt32) :
    (start + len.toUInt64).toNat = if start.toNat + len.toNat < 2 ^ 64 then start.toNat + len.toNat
      else start.toNat + len.toNat - 2 ^ 64 := by
  have low := start.toNat_lt
  have small := len.toNat_lt
  rw [UInt64.toNat_add, UInt32.toNat_toUInt64]
  split
  · rename_i fits
    exact Nat.mod_eq_of_lt fits
  · omega

/-- A range inside the file is read; behind the check, any other panics. -/
theorem readRange_eq {file : MmapAccountFile} (size : file.fileSize = file.mmap.bytes.length)
    (start : UInt64) (len : UInt32) : file.readRange start len =
      if file.fileSize < (start + len.toUInt64).toNat then
        .error (.outOfBounds start len.toNat file.fileSize)
      else if start.toNat + len.toNat ≤ file.fileSize then
        .ok ((file.mmap.bytes.drop start.toNat).take len.toNat)
      else .fault := by
  have wrapping := @slice_wrapping MmapError _ file.mmap.short start len.toUInt64
  rw [UInt32.toNat_toUInt64, ← size] at wrapping
  simp only [readRange, wrapping]

theorem readRange_ne_fault {file : MmapAccountFile} (size : file.fileSize = file.mmap.bytes.length)
    (start : UInt64) (len : UInt32) :
    file.readRange start len ≠ .fault ↔ Bounded file.fileSize start len := by
  have place := end_toNat start len
  have short := file.mmap.short
  rw [readRange_eq size, Bounded]
  split
  · rename_i beyond
    simp only [ne_eq, reduceCtorEq, not_false_eq_true, true_iff]
    split at place
    · rename_i fits
      exact .inl fits
    · rw [place] at beyond
      exact .inr beyond
  · rename_i checked
    split
    · rename_i inside
      simp only [ne_eq, reduceCtorEq, not_false_eq_true, true_iff]
      omega
    · rename_i outside
      simp only [ne_eq, not_true_eq_false, false_iff]
      split at place
      · omega
      · omega

theorem valid_iff_ok {file : MmapAccountFile} (size : file.fileSize = file.mmap.bytes.length)
    {location : AccountLocation} (bounded : Bounded file.fileSize location.offset location.storedSize) :
    file.isValidLocation location = true ↔
      location.offset.toNat + location.storedSize.toNat ≤ file.fileSize := by
  have place := end_toNat location.offset location.storedSize
  have short := file.mmap.short
  unfold Bounded at bounded
  rw [isValidLocation, decide_eq_true_iff, place]
  split
  · exact Iff.rfl
  · omega

theorem readRange_ok_iff {file : MmapAccountFile} (size : file.fileSize = file.mmap.bytes.length)
    (start : UInt64) (len : UInt32) (bytes : List UInt8) : file.readRange start len = .ok bytes ↔
      start.toNat + len.toNat ≤ file.fileSize ∧
        bytes = (file.mmap.bytes.drop start.toNat).take len.toNat := by
  have place := end_toNat start len
  have short := file.mmap.short
  rw [readRange_eq size]
  split
  · rename_i beyond
    simp only [reduceCtorEq, false_iff, not_and]
    intro inside
    split at place
    · omega
    · omega
  · split
    · rename_i inside
      rw [Outcome.ok.injEq]
      exact ⟨fun same => ⟨inside, same.symm⟩, fun found => found.2.symm⟩
    · rename_i outside
      simp only [reduceCtorEq, false_iff, not_and]
      exact fun inside => absurd inside outside

/-- For a file that was opened, reading is safe exactly as long as no sum wraps
back into the file. -/
theorem readsSafely_iff {fileId : UInt64} {entry : DirEntry} {file : MmapAccountFile}
    (opened : MmapAccountFile.open fileId entry = .ok file) (location : AccountLocation) :
    ReadsSafely file location ↔ Bounded file.fileSize location.offset location.storedSize ∧
      Bounded file.fileSize (location.offset + location.dataOffset.toUInt64) location.dataLen := by
  have size := open_size opened
  constructor
  · intro safe
    exact ⟨(readRange_ne_fault size _ _).mp safe.total.1, (readRange_ne_fault size _ _).mp safe.total.2.2⟩
  · rintro ⟨whole, data⟩
    have valid := valid_iff_ok size whole
    have read := readRange_ok_iff size location.offset location.storedSize
    refine ⟨?_, fun accepted => ?_, (readRange_ne_fault size _ _).mpr whole,
      (readRange_ne_fault size _ _).mpr whole, (readRange_ne_fault size _ _).mpr data⟩
    · rw [valid]
      constructor
      · intro inside
        exact ⟨⟨_, (read _).mpr ⟨inside, rfl⟩⟩, ⟨_, (read _).mpr ⟨inside, rfl⟩⟩⟩
      · rintro ⟨⟨bytes, found⟩, _⟩
        exact ((read bytes).mp found).1
    · have inside := valid.mp accepted
      refine ⟨_, (read _).mpr ⟨inside, rfl⟩, rfl, ?_⟩
      rw [List.length_take, List.length_drop, ← size]
      omega

theorem readsSafely_example :
    let contents : Slice := ⟨[1, 2, 3], by decide⟩
    let file : MmapAccountFile := ⟨7, contents, 3, .utf8 ['7', '.', '0']⟩
    ReadsSafely file ⟨7, 1, 2, 0, 2, 5, 0, .base⟩ := by
  intro contents file
  have opened : MmapAccountFile.open 7 ⟨.utf8 ['7', '.', '0'], true, some contents⟩ = .ok file := rfl
  exact (readsSafely_iff opened _).mpr ⟨.inl (by decide), .inl (by decide)⟩

/-- The last byte that an offset can name. -/
theorem wrapped_end_panics :
    let file : MmapAccountFile := ⟨7, ⟨[1, 2, 3], by decide⟩, 3, .utf8 ['7', '.', '0']⟩
    ¬ ReadsSafely file ⟨7, 18446744073709551615, 1, 0, 0, 5, 0, .base⟩ := by
  intro file safe
  exact safe.total.1 (by decide)

end MmapAccountFile

end Hyperplane
