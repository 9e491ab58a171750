import Hyperplane.Delta.Segment

/-! What the operations of a segment writer do to its file, whether they succeed
or not. The body of a segment is its file without the header. -/
namespace Hyperplane
open Bytes BufWriter

namespace SegmentWriter

variable {crc32 : List UInt8 → UInt32}

def entryBytes (slot writeVersion : UInt64) (pubkey : Pubkey) (data : List UInt8) : List UInt8 :=
  DeltaEntry.bytes {
    size := UInt32.ofNat (DeltaEntry.headerSize + data.length)
    slot := slot
    writeVersion := writeVersion
    pubkey := pubkey
    dataLen := UInt32.ofNat data.length
    reserved := 0 } ++ data

/-- The disk and the writer's file. -/
def handle (s : Disk × SegmentWriter) : Disk × BufWriter := (s.1, s.2.file)

def withFile (s : Disk × SegmentWriter) (t : Disk × BufWriter) : Disk × SegmentWriter :=
  (t.1, { s.2 with file := t.2 })

theorem ends_onFile {α : Type} (x : Method (Disk × BufWriter) IoError α) (s : Disk × SegmentWriter)
    (Q : α → Disk × SegmentWriter → Prop) (J : Disk × SegmentWriter → Prop) :
    Method.Ends (onFile x) s Q J ↔
      Method.Ends x (handle s) (fun a t => Q a (withFile s t)) (fun t => J (withFile s t)) :=
  Method.ends_zoom _ _ _ _ _ _

theorem length_header (h : SegmentHeader) : h.bytes.length = SegmentHeader.size := by
  simp [SegmentHeader.bytes, SegmentHeader.size]

/-- The file is laid out as far as the header reaches, and the pieces stand in its body. -/
def Carries (s : Disk × SegmentWriter) (pieces : List (List UInt8)) : Prop :=
  ∃ contents, AtEnd (handle s) contents ∧
    SegmentHeader.size ≤ contents.length + s.2.file.buffer.length ∧
      InOrder pieces (contents.drop SegmentHeader.size)

/-- The pieces stand in the body of the file at a path. -/
def FileHolds (d : Disk) (path : String) (pieces : List (List UInt8)) : Prop :=
  ∃ contents, d.files path = some contents ∧ InOrder pieces (contents.drop SegmentHeader.size)

/-- The writer keeps its file and its slot, and touches no other file. -/
structure Stays (s t : Disk × SegmentWriter) : Prop where
  frame : Frame (handle s) (handle t)
  startSlot : t.2.header.startSlot = s.2.header.startSlot

/-- The file carries what it carried before. -/
structure Continues (s t : Disk × SegmentWriter) : Prop extends Stays s t where
  carries : ∀ pieces, Carries s pieces → Carries t pieces

theorem continues_of_grows {s t : Disk × SegmentWriter} {added : List UInt8}
    (grows : Grows (handle s) (handle t) added)
    (startSlot : t.2.header.startSlot = s.2.header.startSlot) : Continues s t where
  frame := grows.toFrame
  startSlot := startSlot
  carries := by
    rintro pieces ⟨contents, atEnd, long, inOrder⟩
    obtain ⟨more, after, split⟩ := grows.body contents atEnd
    have total := congrArg List.length split
    simp only [List.length_append, handle] at total
    refine ⟨contents ++ more, after, ?_, ?_⟩
    · rw [List.length_append]
      omega
    · rw [List.drop_append]
      exact inOrder.append _

theorem Continues.trans {s m t : Disk × SegmentWriter} (first : Continues s m)
    (second : Continues m t) : Continues s t where
  frame := first.frame.trans second.frame
  startSlot := second.startSlot.trans first.startSlot
  carries pieces carries := second.carries pieces (first.carries pieces carries)

theorem carries_snoc {s t : Disk × SegmentWriter} {piece : List UInt8} {pieces : List (List UInt8)}
    (grows : Grows (handle s) (handle t) piece) (empty : t.2.file.buffer = [])
    (carries : Carries s pieces) : Carries t (pieces ++ [piece]) := by
  obtain ⟨contents, atEnd, long, inOrder⟩ := carries
  obtain ⟨more, after, split⟩ := grows.body contents atEnd
  have written : more = s.2.file.buffer ++ piece := by
    rw [← List.append_nil more, ← empty]
    exact split
  subst written
  refine ⟨_, after, ?_, ?_⟩
  · simp only [List.length_append]
    omega
  · rw [← List.append_assoc, List.drop_append_of_le_length (by simpa using long), List.drop_append,
      List.append_assoc]
    exact inOrder.snoc _ _

def entrySize (data : List UInt8) : UInt32 := UInt32.ofNat (DeltaEntry.headerSize + data.length)

/-- The entry went to the end of the file and was counted. -/
structure Appended (slot writeVersion : UInt64) (pubkey : Pubkey) (data : List UInt8)
    (s : Disk × SegmentWriter) (offset : UInt64) (t : Disk × SegmentWriter) : Prop where
  offset : offset = s.2.currentPos
  grows : Grows (handle s) (handle t) (entryBytes slot writeVersion pubkey data)
  flushed : t.2.file.buffer = []
  currentPos : t.2.currentPos = s.2.currentPos + (entrySize data).toUInt64
  header : t.2.header = { s.2.header with
    entryCount := s.2.header.entryCount + 1
    dataSize := s.2.header.dataSize + (entrySize data).toUInt64
    endSlot := max s.2.header.endSlot slot }

/-- Some bytes may have gone to the end of the file, and nothing was counted. -/
structure AppendFailed (s t : Disk × SegmentWriter) (added : List UInt8) : Prop where
  grows : Grows (handle s) (handle t) added
  currentPos : t.2.currentPos = s.2.currentPos
  header : t.2.header = s.2.header

theorem append_exact (slot writeVersion : UInt64) (pubkey : Pubkey) (data : List UInt8)
    (s : Disk × SegmentWriter) : Method.Ends (append slot writeVersion pubkey data) s
      (Appended slot writeVersion pubkey data s) (fun t => ∃ added, AppendFailed s t added) := by
  unfold append
  simp only [Method.ends_bind, ends_onFile, Method.ends_get, Method.ends_modify, Method.ends_pure]
  refine (writeAll_grows _ _).mono ?_ ?_
  · intro _ m first
    refine (writeAll_grows _ _).mono ?_ ?_
    · intro _ k second
      refine (flush_grows _).mono ?_ ?_
      · rintro _ t ⟨third, empty⟩
        have grows := (first.trans second).trans third
        rw [List.append_nil] at grows
        exact ⟨rfl, grows, empty, rfl, rfl⟩
      · intro t third
        exact ⟨_, (first.trans second).trans third, rfl, rfl⟩
    · rintro t ⟨added, second⟩
      exact ⟨_, first.trans second, rfl, rfl⟩
  · rintro t ⟨added, first⟩
    exact ⟨added, first, rfl, rfl⟩

theorem append_ends (slot writeVersion : UInt64) (pubkey : Pubkey) (data : List UInt8)
    (s : Disk × SegmentWriter) : Method.Ends (append slot writeVersion pubkey data) s
      (fun _ t => Continues s t ∧ ∀ pieces, Carries s pieces →
        Carries t (pieces ++ [entryBytes slot writeVersion pubkey data]))
      (fun t => Continues s t) := by
  refine (append_exact slot writeVersion pubkey data s).mono ?_ ?_
  · intro _ t appended
    have startSlot : t.2.header.startSlot = s.2.header.startSlot := by rw [appended.header]
    exact ⟨continues_of_grows appended.grows startSlot, fun _ => carries_snoc appended.grows appended.flushed⟩
  · rintro t ⟨added, failed⟩
    exact continues_of_grows failed.grows (by rw [failed.header])

/-- The header waits in the buffer to be written at the start of the file, behind
which everything else has been written. -/
structure HeaderPending (s t : Disk × SegmentWriter) : Prop extends Stays s t where
  pos : t.2.file.pos = 0
  buffer : t.2.file.buffer.length = SegmentHeader.size
  file : ∀ contents, AtEnd (handle s) contents →
    t.1.files s.2.file.path = some (contents ++ s.2.file.buffer)

/-- The header with the checksum that is written with it. -/
def checksummed (crc32 : List UInt8 → UInt32) (h : SegmentHeader) : SegmentHeader :=
  { h with checksum := crc32 (h.bytes.take (SegmentHeader.size - 4)) }

structure HeaderWritten (crc32 : List UInt8 → UInt32) (s t : Disk × SegmentWriter) : Prop
    extends HeaderPending s t where
  header : t.2.header = checksummed crc32 s.2.header
  bytes : t.2.file.buffer = t.2.header.bytes
  currentPos : t.2.currentPos = s.2.currentPos

theorem writeHeader_exact (s : Disk × SegmentWriter) : Method.Ends (writeHeader crc32) s
    (fun _ t => HeaderWritten crc32 s t) (fun t => Continues s t) := by
  unfold writeHeader setHeader
  simp only [Method.ends_bind, ends_onFile, Method.ends_get, Method.ends_modify]
  refine (seekStart_ends 0 _).mono ?_ ?_
  · rintro _ t ⟨m, grows, empty, same, moved⟩
    have path : t.2.path = s.2.file.path := by
      rw [moved]
      exact grows.path
    have buffer : t.2.buffer = [] := by
      rw [moved]
      exact empty
    have pos : t.2.pos = 0 := by rw [moved]
    have fits (h : SegmentHeader) : h.bytes.length < capacity - t.2.buffer.length := by
      rw [buffer, length_header]
      decide
    have pushed (h : SegmentHeader) : t.2.buffer ++ h.bytes = h.bytes := by
      rw [buffer, List.nil_append]
    refine (writeAll_fits (fits _) _ _).mpr
      ⟨⟨⟨⟨path, ?_⟩, rfl⟩, pos, ?_, ?_⟩, rfl, pushed _, rfl⟩
    · intro p other
      exact (congrFun same p).trans (grows.others p other)
    · exact (congrArg List.length (pushed _)).trans (length_header _)
    · intro contents atEnd
      obtain ⟨more, after, split⟩ := grows.body contents atEnd
      have flushed : more = s.2.file.buffer := by simpa [empty, handle] using split
      have file := after.file
      rw [flushed, grows.path] at file
      exact (congrFun same _).trans file
  · intro t grows
    exact continues_of_grows grows rfl

theorem writeHeader_ends (s : Disk × SegmentWriter) : Method.Ends (writeHeader crc32) s
    (fun _ t => HeaderPending s t) (fun t => Continues s t) :=
  (writeHeader_exact s).mono (fun _ _ written => written.toHeaderPending) (fun _ continues => continues)

/-- The body of the file is safe from what the writer has yet to write. -/
structure Finishing (s t : Disk × SegmentWriter) : Prop extends Stays s t where
  body : ∀ pieces, Carries s pieces →
    ∃ tail, Below SegmentHeader.size (handle t) tail ∧ InOrder pieces tail

theorem HeaderPending.finishing {s t : Disk × SegmentWriter} (pending : HeaderPending s t) :
    Finishing s t where
  toStays := pending.toStays
  body := by
    rintro pieces ⟨contents, atEnd, _, inOrder⟩
    have file : t.1.files t.2.file.path = _ :=
      (congrArg t.1.files pending.frame.path).trans (pending.file contents atEnd)
    refine ⟨_, ⟨?_, _, file, ?_, rfl⟩, ?_⟩
    · simp only [handle, pending.pos, pending.buffer, Nat.zero_add, Nat.le_refl]
    · simp only [handle, pending.pos, Nat.zero_le]
    · rw [List.drop_append]
      exact inOrder.append _

theorem Finishing.wrote {s m t : Disk × SegmentWriter} {front : List UInt8} (finishing : Finishing s m)
    (wrote : Wrote (handle m) (handle t) front) (split : front ++ t.2.file.buffer = m.2.file.buffer)
    (startSlot : t.2.header.startSlot = m.2.header.startSlot) : Finishing s t where
  frame := finishing.frame.trans wrote.toFrame
  startSlot := startSlot.trans finishing.startSlot
  body pieces carries := by
    obtain ⟨tail, below, inOrder⟩ := finishing.body pieces carries
    exact ⟨tail, wrote.below split below, inOrder⟩

/-- The file holds what the writer carried. -/
structure Sealed (s t : Disk × SegmentWriter) : Prop extends Stays s t where
  holds : ∀ pieces, Carries s pieces → FileHolds t.1 s.2.file.path pieces

theorem Continues.closed {s t : Disk × SegmentWriter} (continues : Continues s t) : Sealed s t where
  toStays := continues.toStays
  holds pieces carries := by
    obtain ⟨contents, atEnd, _, inOrder⟩ := continues.carries pieces carries
    exact ⟨contents, continues.frame.path ▸ atEnd.file, inOrder⟩

theorem Finishing.closed {s t : Disk × SegmentWriter} (finishing : Finishing s t) : Sealed s t where
  toStays := finishing.toStays
  holds pieces carries := by
    obtain ⟨tail, below, inOrder⟩ := finishing.body pieces carries
    obtain ⟨contents, file, _, rfl⟩ := below.file
    exact ⟨contents, finishing.frame.path ▸ file, inOrder⟩

theorem Continues.dropped {s m : Disk × SegmentWriter} (continues : Continues s m) :
    Sealed s (onFile BufWriter.flush m).2 := by
  have ends : Method.Ends (onFile BufWriter.flush) m (fun _ t => Sealed s t) (Sealed s) := by
    rw [ends_onFile]
    have closes : ∀ t, Grows (handle m) t [] → Sealed s (withFile m t) := by
      intro t grows
      exact (continues.trans (continues_of_grows (t := withFile m t) grows rfl)).closed
    exact (flush_grows _).mono (fun _ t flushed => closes t flushed.1) closes
  exact ends.state fun _ _ closed => closed

theorem Finishing.dropped {s m : Disk × SegmentWriter} (finishing : Finishing s m) :
    Sealed s (onFile BufWriter.flush m).2 := by
  have ends : Method.Ends (onFile BufWriter.flush) m (fun _ t => Sealed s t) (Sealed s) := by
    rw [ends_onFile]
    refine (flush_ends _).mono ?_ ?_
    · rintro _ t ⟨front, wrote, split, _⟩
      exact (finishing.wrote (t := withFile m t) wrote split rfl).closed
    · rintro t ⟨front, wrote, split⟩
      exact (finishing.wrote (t := withFile m t) wrote split rfl).closed
  exact ends.state fun _ _ closed => closed

theorem finalize_ends (s : Disk × SegmentWriter) : Method.Ends (finalize crc32) s
    (fun info t => info.startSlot = s.2.header.startSlot ∧ Sealed s t) (fun t => Sealed s t) := by
  unfold finalize
  simp only [Method.ends_thenDrop, Method.ends_bind, Method.ends_get, Method.ends_pure]
  refine (writeHeader_ends s).mono ?_ (fun _ continues => continues.dropped)
  intro _ m pending
  have finishing := pending.finishing
  rw [ends_onFile]
  refine (flush_ends _).mono ?_ ?_
  · rintro _ t ⟨front, wrote, split, _⟩
    exact ⟨finishing.startSlot, (finishing.wrote (t := withFile m t) wrote split rfl).dropped⟩
  · rintro t ⟨front, wrote, split⟩
    exact (finishing.wrote (t := withFile m t) wrote split rfl).dropped

/-- The writer of a file just opened, before its header. -/
def opened (path : String) (startSlot : UInt64) : SegmentWriter :=
  ⟨⟨path, 0, []⟩, .new startSlot, .ofNat SegmentHeader.size⟩

theorem ends_create (path : String) (startSlot : UInt64) (d : Disk) (Q : SegmentWriter → Disk → Prop)
    (J : Disk → Prop) : Method.Ends (create crc32 path startSlot) d Q J ↔
      Method.Ends (Disk.openTruncated path) d (fun _ m => Method.Ends (writeHeader crc32)
        (m, opened path startSlot) (fun _ t => Q t.2 t.1) (fun t => J t.1)) J := by
  unfold Method.Ends create
  cases Disk.openTruncated path d with
  | mk result m =>
    cases result with
    | error e => exact Iff.rfl
    | fault => exact Iff.rfl
    | ok u =>
      dsimp only [opened]
      cases writeHeader crc32 (m, _) with
      | mk result t => cases result <;> exact Iff.rfl

/-- A segment file is truncated as soon as it can be opened. -/
theorem create_ends (path : String) (startSlot : UInt64) (d : Disk) :
    Method.Ends (create crc32 path startSlot) d
      (fun w t => d.next.1 = none ∧ w.file.path = path ∧ w.header.startSlot = startSlot ∧
        Carries (t, w) [] ∧ ∀ p, p ≠ path → t.files p = d.files p)
      (fun t => (∀ p, p ≠ path → t.files p = d.files p) ∧ (d.next.1 ≠ none → t.files = d.files)) := by
  rw [ends_create]
  refine (openTruncated_ends path d).mono ?_ ?_
  · rintro _ m ⟨ready, empty, same⟩
    have others : ∀ t, Stays (m, opened path startSlot) t → ∀ p, p ≠ path → t.1.files p = d.files p := by
      intro t stays p other
      exact (stays.frame.others p other).trans (same p other)
    refine (writeHeader_ends _).mono ?_ ?_
    · intro _ t written
      have file := written.file [] ⟨empty, rfl⟩
      have samePath : t.2.file.path = path := written.frame.path
      refine ⟨ready, samePath, written.startSlot, ?_, others t written.toStays⟩
      refine ⟨[], ⟨?_, written.pos⟩, ?_, trivial⟩
      · exact (congrArg t.1.files samePath).trans file
      · simp [written.buffer]
    · exact fun t continues => ⟨others t continues.toStays, fun failed => absurd ready failed⟩
  · exact fun t failed => ⟨fun p _ => congrFun failed.2 p, fun _ => failed.2⟩

end SegmentWriter

end Hyperplane
