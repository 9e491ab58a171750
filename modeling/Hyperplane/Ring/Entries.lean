import Hyperplane.Lib.Transition
import Hyperplane.Ring.Layout

/-! What an entry owes to the two lengths in it. A reader compares the size with the write
position but not with the length of the data, and a writer puts an entry where the one
before it ends, whatever the length of its data. -/
namespace Hyperplane
open Bytes Transition

namespace RingBufferReader

/-- The entry at the position of the reader. -/
def nextEntry (ring : Ring) (reader : RingBufferReader) : RingEntry := RingEntry.load ring.area reader.readPos

/-- The view of that entry, with so many bytes of data behind the header. -/
def nextView (ring : Ring) (reader : RingBufferReader) (len : Nat) : RingEntryView where
  slot := (nextEntry ring reader).slot
  writeVersion := (nextEntry ring reader).writeVersion
  pubkey := (nextEntry ring reader).pubkey
  data := load ring.area (reader.readPos + RingEntry.headerSize) len

/-- Where the range of the entry ends. -/
def nextPos (ring : Ring) (reader : RingBufferReader) : Nat := reader.readPos + (nextEntry ring reader).size.toNat

/-- The reader stays where it is with nothing or with an error, or is handed an entry
that lies in its own range and below the write position, and moves behind the range. -/
def ReadsInside (ring : Ring) (reader : RingBufferReader) : Prop :=
  readNext ring reader = (.ok none, reader) ∨ readNext ring reader = (.error .corruptedEntry, reader) ∨
    ∃ len, readNext ring reader = (.ok (some (nextView ring reader len)), ⟨nextPos ring reader⟩) ∧
      reader.readPos + RingEntry.headerSize + len ≤ nextPos ring reader ∧
      nextPos ring reader ≤ ring.header.writePos

/-- Nothing is left to read, or the next header is in the file and its size is refused or
covers the header and the data. -/
def NextFits (ring : Ring) (reader : RingBufferReader) : Prop :=
  ring.header.writePos ≤ reader.readPos ∨ ring.Covers reader.readPos RingEntry.headerSize ∧
    ((nextEntry ring reader).size = 0 ∨ ring.header.writePos < nextPos ring reader ∨
      RingEntry.headerSize + (nextEntry ring reader).dataLen.toNat ≤ (nextEntry ring reader).size.toNat)

section readNext

variable {ring : Ring} {reader : RingBufferReader}

theorem readNext_outside (more : ¬ ring.header.writePos ≤ reader.readPos)
    (outside : ¬ ring.Covers reader.readPos RingEntry.headerSize) : readNext ring reader = (.fault, reader) := by
  simp [readNext, more, outside]

variable (more : ¬ ring.header.writePos ≤ reader.readPos)
  (inside : ring.Covers reader.readPos RingEntry.headerSize)

include more inside

theorem readNext_refused
    (refused : (nextEntry ring reader).size = 0 ∨ ring.header.writePos < nextPos ring reader) :
    readNext ring reader = (.error .corruptedEntry, reader) := by
  simp only [readNext, if_neg more, if_neg (not_not.mpr inside)]
  exact if_pos refused

theorem readNext_taken
    (taken : ¬ ((nextEntry ring reader).size = 0 ∨ ring.header.writePos < nextPos ring reader)) :
    readNext ring reader =
      if ¬ ring.Covers reader.readPos (RingEntry.headerSize + (nextEntry ring reader).dataLen.toNat) then
        (.fault, reader)
      else
        (.ok (some (nextView ring reader (nextEntry ring reader).dataLen.toNat)), ⟨nextPos ring reader⟩) := by
  simp only [readNext, if_neg more, if_neg (not_not.mpr inside)]
  exact if_neg taken

/-- A size that does not cover the data is not noticed. -/
theorem not_readsInside
    (taken : ¬ ((nextEntry ring reader).size = 0 ∨ ring.header.writePos < nextPos ring reader))
    (short : (nextEntry ring reader).size.toNat < RingEntry.headerSize + (nextEntry ring reader).dataLen.toNat) :
    ¬ ReadsInside ring reader := by
  have read := readNext_taken more inside taken
  rintro (none | corrupted | ⟨len, some, fits, _⟩)
  · rw [read] at none
    split at none <;> cases none
  · rw [read] at corrupted
    split at corrupted <;> cases corrupted
  · rw [read] at some
    split at some
    · cases some
    · simp only [Prod.mk.injEq, Outcome.ok.injEq, Option.some.injEq] at some
      have same := congrArg (fun view : RingEntryView => view.data.length) some.1
      simp only [nextView, length_load] at same
      rw [nextPos] at fits
      omega

end readNext

/-- For any bytes in the file, a read stays inside its entry exactly if the next entry's
size, where it is accepted, covers the data length beside it. -/
theorem reads_inside_iff (ring : Ring) (reader : RingBufferReader)
    (room : ring.header.writePos + ringHeaderSize ≤ ring.mapped) :
    ReadsInside ring reader ↔ NextFits ring reader := by
  by_cases done : ring.header.writePos ≤ reader.readPos
  · exact iff_of_true (.inl (readNext_end done)) (.inl done)
  by_cases header : ring.Covers reader.readPos RingEntry.headerSize
  · by_cases refused : (nextEntry ring reader).size = 0 ∨ ring.header.writePos < nextPos ring reader
    · exact iff_of_true (.inr (.inl (readNext_refused done header refused)))
        (.inr ⟨header, refused.imp_right .inl⟩)
    by_cases fits : RingEntry.headerSize + (nextEntry ring reader).dataLen.toNat ≤
        (nextEntry ring reader).size.toNat
    · have below : nextPos ring reader ≤ ring.header.writePos := Nat.le_of_not_lt (not_or.mp refused).2
      have within : reader.readPos + RingEntry.headerSize + (nextEntry ring reader).dataLen.toNat ≤
          nextPos ring reader := by
        rw [nextPos]
        omega
      have data : ring.Covers reader.readPos
          (RingEntry.headerSize + (nextEntry ring reader).dataLen.toNat) := by
        unfold Ring.Covers
        omega
      have read := readNext_taken done header refused
      rw [if_neg (not_not.mpr data)] at read
      exact iff_of_true (.inr (.inr ⟨_, read, within, below⟩)) (.inr ⟨header, .inr (.inr fits)⟩)
    · refine iff_of_false (not_readsInside done header refused (Nat.lt_of_not_le fits)) ?_
      rintro (nothing | ⟨_, zero | beyond | covered⟩)
      · exact done nothing
      · exact refused (.inl zero)
      · exact refused (.inr beyond)
      · exact fits covered
  · have read := readNext_outside done header
    refine iff_of_false ?_ ?_
    · rintro (none | corrupted | ⟨len, some, _⟩)
      · rw [read] at none
        cases none
      · rw [read] at corrupted
        cases corrupted
      · rw [read] at some
        cases some
    · rintro (nothing | ⟨inside, _⟩)
      · exact done nothing
      · exact header inside

/-- A file with one published entry and these two lengths in it. -/
def withLengths (size dataLen : UInt32) : Ring where
  header := ⟨64, 0, 1024, 1, RingBufferState.active.code⟩
  area := store (fun _ => 0) 0 (RingEntry.bytes ⟨size, 7, 1, Vector.replicate 32 9, dataLen, 0⟩)
  mapped := 1024

theorem reads_inside_empty_entry :
    (withLengths 64 0).header.writePos + ringHeaderSize ≤ (withLengths 64 0).mapped ∧
      (ReadsInside (withLengths 64 0) fresh ↔ NextFits (withLengths 64 0) fresh) :=
  ⟨by decide, reads_inside_iff (withLengths 64 0) fresh (by decide)⟩

/-- The data length reaches behind the entry, past what has been published. -/
theorem data_past_entry : (withLengths 64 10).header.writePos + ringHeaderSize ≤ (withLengths 64 10).mapped ∧
    fresh.readPos ≤ (withLengths 64 10).header.writePos ∧ ¬ ReadsInside (withLengths 64 10) fresh :=
  ⟨by decide, by decide, not_readsInside (by decide) (by decide) (by decide +kernel) (by decide +kernel)⟩

end RingBufferReader

namespace RingBufferWriter

/-- The call returns the position of its entry. -/
def accepted (w : RingBufferWriter) (ring : Ring) (v : RingEntryView) (t : Ring) : Prop :=
  ∃ pos, w.write v ring = (.ok pos, t)

/-- The entry of the write begins at a multiple of eight from the start of the mapping. -/
def Aligned (ring : Ring) (_ : RingEntryView) (_ : Ring) : Prop :=
  8 ∣ ringHeaderSize + ring.header.writePos

theorem accepted_writePos {w : RingBufferWriter} {ring t : Ring} {v : RingEntryView}
    (wrote : w.accepted ring v t) : t.header.writePos = ring.header.writePos + (entrySize v.data).toNat := by
  obtain ⟨pos, wrote⟩ := wrote
  obtain ⟨_, _, rfl, _, rfl⟩ := write_ok.mp wrote
  rfl

/-- The cut to 32 bits does not change the last three. -/
theorem dvd_entrySize (data : List UInt8) : 8 ∣ (entrySize data).toNat ↔ 8 ∣ data.length := by
  rw [entrySize, UInt32.toNat_ofNat', RingEntry.headerSize]
  omega

theorem aligned_iff (ring : Ring) (v : RingEntryView) (t : Ring) :
    Aligned ring v t ↔ 8 ∣ ring.header.writePos := by
  unfold Aligned ringHeaderSize
  omega

theorem aligned_run_iff {w : RingBufferWriter} {ring t : Ring} {vs : List RingEntryView}
    (ran : Run w.accepted ring vs t) (start : 8 ∣ ring.header.writePos) :
    Along w.accepted Aligned ring vs ↔ ∀ v ∈ vs.dropLast, 8 ∣ v.data.length := by
  induction vs generalizing ring with
  | nil => exact iff_of_true trivial fun v member => absurd member List.not_mem_nil
  | cons v rest ih =>
    obtain ⟨next, first, later⟩ := ran
    have ends := accepted_writePos first
    have only (u : Ring) (wrote : w.accepted ring v u) : u = next := by
      obtain ⟨_, wrote⟩ := wrote
      obtain ⟨_, same⟩ := first
      rw [wrote] at same
      cases same
      rfl
    have kept : 8 ∣ next.header.writePos ↔ 8 ∣ v.data.length := by
      rw [ends, Nat.dvd_add_right start, dvd_entrySize]
    cases rest with
    | nil =>
      refine iff_of_true (fun u _ => ⟨(aligned_iff ring v u).mpr start, trivial⟩) fun v member => ?_
      exact absurd member List.not_mem_nil
    | cons second others =>
      rw [List.dropLast_cons_cons, List.forall_mem_cons]
      constructor
      · intro along
        have tail := (along next first).2
        obtain ⟨after, wrote, _⟩ := later
        have own := kept.mp ((aligned_iff next second after).mp (tail after wrote).1)
        exact ⟨own, (ih ⟨after, wrote, ‹_›⟩ (kept.mpr own)).mp tail⟩
      · rintro ⟨own, rest⟩ u wrote
        cases only u wrote
        exact ⟨(aligned_iff ring v next).mpr start, (ih later (kept.mpr own)).mpr rest⟩

/-- All entries of a run of accepted writes are aligned exactly if every data length but
the last is a multiple of eight. -/
theorem entries_aligned_iff (capacity : Nat) {vs : List RingEntryView} {t : Ring}
    (ran : Run (accepted ⟨capacity⟩) (created capacity) vs t) :
    Along (accepted ⟨capacity⟩) Aligned (created capacity) vs ↔ ∀ v ∈ vs.dropLast, 8 ∣ v.data.length :=
  aligned_run_iff ran (Nat.dvd_zero 8)

def odd : RingEntryView := ⟨7, 1, Vector.replicate 32 9, [5]⟩

def padded : RingEntryView := ⟨7, 1, Vector.replicate 32 9, List.replicate 8 5⟩

theorem entries_aligned_padded : ∃ t, Run (accepted ⟨1024⟩) (created 1024) [padded, padded, odd] t ∧
    Along (accepted ⟨1024⟩) Aligned (created 1024) [padded, padded, odd] := by
  have ran : Run (accepted ⟨1024⟩) (created 1024) [padded, padded, odd] _ :=
    ⟨_, ⟨0, rfl⟩, _, ⟨72, rfl⟩, _, ⟨144, rfl⟩, rfl⟩
  exact ⟨_, ran, (entries_aligned_iff 1024 ran).mpr (by decide)⟩

/-- The second entry begins 65 bytes behind the first. -/
theorem second_entry_unaligned : ∃ t, Run (accepted ⟨1024⟩) (created 1024) [odd, odd] t ∧
    ¬ Along (accepted ⟨1024⟩) Aligned (created 1024) [odd, odd] := by
  have ran : Run (accepted ⟨1024⟩) (created 1024) [odd, odd] _ := ⟨_, ⟨0, rfl⟩, _, ⟨65, rfl⟩, rfl⟩
  refine ⟨_, ran, fun along => ?_⟩
  have short := (aligned_run_iff ran (Nat.dvd_zero 8)).mp along odd (List.mem_singleton_self odd)
  exact absurd short (by decide)

end RingBufferWriter

end Hyperplane
