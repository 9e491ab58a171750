import Mathlib.Data.List.Forall2
import Hyperplane.Delta.SegmentFile
import Hyperplane.Lib.Transition

/-! The layout of a segment file: its header, and the entries at the offsets that the
appends returned. -/
namespace Hyperplane
open Bytes BufWriter Transition

structure SegmentUpdate where
  slot : UInt64
  writeVersion : UInt64
  pubkey : Pubkey
  data : List UInt8

namespace SegmentUpdate

/-- The layout of an entry; the four bytes of padding may be any. -/
def IsEntry (u : SegmentUpdate) (bs : List UInt8) : Prop := ∃ padding : List UInt8, padding.length = 4 ∧
  bs = toLE 4 (64 + u.data.length) ++ (padding ++ (toLE 8 u.slot.toNat ++ (toLE 8 u.writeVersion.toNat ++
    (u.pubkey.toList ++ (toLE 4 u.data.length ++ (toLE 4 0 ++ u.data))))))

def entry (u : SegmentUpdate) : List UInt8 :=
  SegmentWriter.entryBytes u.slot u.writeVersion u.pubkey u.data

theorem length_entry (u : SegmentUpdate) : u.entry.length = 64 + u.data.length := by
  simp [entry, SegmentWriter.entryBytes, DeltaEntry.bytes]
  omega

theorem isEntry_entry (u : SegmentUpdate) : u.IsEntry u.entry := by
  refine ⟨[0, 0, 0, 0], rfl, ?_⟩
  have low (n : Nat) : toLE 4 (UInt32.ofNat n).toNat = toLE 4 n := toLE_mod 4 n
  simp only [entry, SegmentWriter.entryBytes, DeltaEntry.bytes, DeltaEntry.headerSize, low, List.append_assoc]
  rfl

/-- The size field of the entry is not cut off. -/
def Fits (u : SegmentUpdate) : Prop := u.data.length < 2 ^ 32 - 64

theorem Fits.size {u : SegmentUpdate} (fits : u.Fits) :
    (SegmentWriter.entrySize u.data).toUInt64 = UInt64.ofNat u.entry.length := by
  have small : u.data.length < 2 ^ 32 - 64 := fits
  apply UInt64.toNat_inj.mp
  rw [UInt32.toNat_toUInt64, SegmentWriter.entrySize, DeltaEntry.headerSize, u.length_entry,
    UInt32.toNat_ofNat', UInt64.toNat_ofNat']
  omega

end SegmentUpdate

namespace SegmentWriter

variable {crc32 : List UInt8 → UInt32}

def appendUpdate (u : SegmentUpdate) : Method (Disk × SegmentWriter) SegmentError UInt64 :=
  append u.slot u.writeVersion u.pubkey u.data

/-- The results of the appends, and what they leave. -/
def appends : List SegmentUpdate → Disk × SegmentWriter →
    List (Outcome SegmentError UInt64) × (Disk × SegmentWriter)
  | [], s => ([], s)
  | u :: rest, s =>
    let (result, t) := appendUpdate u s
    let (results, last) := appends rest t
    (result :: results, last)

/-- None of the writes fails that an append makes. -/
def Writes (s : Disk × SegmentWriter) (u : SegmentUpdate) : Prop :=
  s.1.Ready (operations (s.2.file.buffer.length + DeltaEntry.headerSize) u.data.length)

def afterAppend (s : Disk × SegmentWriter) (u : SegmentUpdate) : Disk × SegmentWriter := (appendUpdate u s).2

theorem appends_state (updates : List SegmentUpdate) (s : Disk × SegmentWriter) :
    (appends updates s).2 = updates.foldl afterAppend s := by
  induction updates generalizing s with
  | nil => rfl
  | cons u rest ih => exact ih (afterAppend s u)

def AllWrite (s : Disk × SegmentWriter) (updates : List SegmentUpdate) : Prop :=
  Along (ofFun afterAppend) (fun s u _ => Writes s u) s updates

/-- With at most a header in the buffer an append succeeds exactly if its writes do, and
one that fails has left the header of its entry at the end of the file. -/
theorem append_ready (u : SegmentUpdate) {s : Disk × SegmentWriter}
    (small : s.2.file.buffer.length ≤ SegmentHeader.size) : Method.Ends (appendUpdate u) s
      (fun _ _ => Writes s u)
      (fun t => ¬ Writes s u ∧ ∃ added, DeltaEntry.headerSize ≤ added.length ∧ AppendFailed s t added) := by
  unfold appendUpdate append
  simp only [Method.ends_bind, ends_onFile, Method.ends_get, Method.ends_modify, Method.ends_pure]
  generalize ({ size := _, slot := u.slot, writeVersion := _, pubkey := _, dataLen := _, reserved := 0 } :
    DeltaEntry) = entry
  have length : entry.bytes.length = DeltaEntry.headerSize := by
    simp [DeltaEntry.bytes, DeltaEntry.headerSize]
  let m : Disk × BufWriter := (s.1, { s.2.file with buffer := s.2.file.buffer ++ entry.bytes })
  have buffered : m.2.buffer.length = s.2.file.buffer.length + DeltaEntry.headerSize := by
    rw [List.length_append, length]
  have sizes : SegmentHeader.size = 48 ∧ DeltaEntry.headerSize = 64 ∧ capacity = 8192 := ⟨rfl, rfl, rfl⟩
  refine (writeAll_fits (by simp only [handle]; omega) _ _).mpr ?_
  have first : Grows (handle s) m entry.bytes := push_grows entry.bytes (handle s)
  have pending : m.2.buffer ≠ [] := List.ne_nil_of_length_pos (by omega)
  have counted := writeAll_flush_ready (s := m) u.data pending (by omega)
  rw [buffered] at counted
  refine (counted.and (writeAll_grows u.data m)).mono ?_ ?_
  · rintro _ k ⟨flushes, second⟩
    refine (flushes.and (flush_grows k)).mono (fun _ t ready => ready.1) ?_
    rintro t ⟨failed, third⟩
    refine ⟨failed, _, ?_, (first.trans second).trans third, rfl, rfl⟩
    simp only [List.length_append]
    omega
  · rintro t ⟨failed, added, second⟩
    refine ⟨failed, _, ?_, first.trans second, rfl, rfl⟩
    rw [List.length_append]
    omega

def entriesOf (updates : List SegmentUpdate) : List UInt8 := (updates.map SegmentUpdate.entry).flatten

/-- The header of a segment with these updates, without its checksum. -/
def headerOf (startSlot : UInt64) (updates : List SegmentUpdate) : SegmentHeader :=
  { SegmentHeader.new startSlot with
    endSlot := (updates.map SegmentUpdate.slot).foldl max 0
    entryCount := .ofNat updates.length
    dataSize := .ofNat (entriesOf updates).length }

theorem entriesOf_append (before after : List SegmentUpdate) :
    entriesOf (before ++ after) = entriesOf before ++ entriesOf after := by
  simp [entriesOf]

theorem length_entriesOf (updates : List SegmentUpdate) :
    (entriesOf updates).length = (updates.map fun u => 64 + u.data.length).sum := by
  rw [entriesOf, List.length_flatten, List.map_map]
  exact congrArg List.sum (List.map_congr_left fun u _ => u.length_entry)

theorem entriesOf_singleton (u : SegmentUpdate) : entriesOf [u] = u.entry := by
  simp [entriesOf]

/-- The file and what is buffered for it are a header and the entries of the updates, and
the writer has counted them. -/
structure Placed (path : String) (startSlot : UInt64) (updates : List SegmentUpdate)
    (s : Disk × SegmentWriter) : Prop where
  path : s.2.file.path = path
  file : ∃ contents front, AtEnd (handle s) contents ∧ front.length = SegmentHeader.size ∧
    contents ++ s.2.file.buffer = front ++ entriesOf updates
  buffered : s.2.file.buffer.length ≤ SegmentHeader.size
  flushed : updates ≠ [] → s.2.file.buffer = []
  currentPos : s.2.currentPos = .ofNat (SegmentHeader.size + (entriesOf updates).length)
  header : s.2.header = { headerOf startSlot updates with checksum := s.2.header.checksum }

section placed

variable {path : String} {startSlot : UInt64} {updates : List SegmentUpdate}

theorem Placed.append {s t : Disk × SegmentWriter} (h : Placed path startSlot updates s) {u : SegmentUpdate}
    (fits : u.Fits) {offset : UInt64}
    (appended : Appended u.slot u.writeVersion u.pubkey u.data s offset t) :
    offset = .ofNat (SegmentHeader.size + (entriesOf updates).length) ∧
      Placed path startSlot (updates ++ [u]) t := by
  refine ⟨appended.offset.trans h.currentPos, appended.grows.path.trans h.path, ?_, ?_,
    fun _ => appended.flushed, ?_, ?_⟩
  · obtain ⟨contents, front, atEnd, length, split⟩ := h.file
    obtain ⟨more, after, grown⟩ := appended.grows.body contents atEnd
    refine ⟨contents ++ more, front, after, length, ?_⟩
    have grown : more ++ t.2.file.buffer = s.2.file.buffer ++ u.entry := grown
    rw [List.append_assoc, grown, ← List.append_assoc, split, entriesOf_append, entriesOf_singleton,
      List.append_assoc]
  · rw [appended.flushed]
    exact Nat.zero_le _
  · rw [appended.currentPos, h.currentPos, fits.size, ← UInt64.ofNat_add, entriesOf_append,
      entriesOf_singleton, List.length_append, Nat.add_assoc]
  · rw [appended.header, h.header, fits.size]
    simp only [headerOf, entriesOf_append, entriesOf_singleton, List.length_append, List.length_singleton,
      List.map_append, List.map_cons, List.map_nil, List.foldl_append, List.foldl_cons, List.foldl_nil,
      UInt64.ofNat_add]
    rfl

theorem Placed.append_writes {s : Disk × SegmentWriter} (h : Placed path startSlot updates s)
    {u : SegmentUpdate} (fits : u.Fits) (writes : Writes s u) : ∃ t,
      appendUpdate u s = (.ok (.ofNat (SegmentHeader.size + (entriesOf updates).length)), t) ∧
        Placed path startSlot (updates ++ [u]) t := by
  have ends : Method.Ends (appendUpdate u) s (Appended u.slot u.writeVersion u.pubkey u.data s) fun _ => False :=
    ((append_exact u.slot u.writeVersion u.pubkey u.data s).and (append_ready u h.buffered)).mono
      (fun _ _ ok => ok.1) (fun _ failed => failed.2.1 writes)
  obtain ⟨offset, t, ran, appended⟩ := ends.exists_ok
  obtain ⟨rfl, placed⟩ := h.append fits appended
  exact ⟨t, ran, placed⟩

/-- Appends whose writes succeed return the offsets of their entries. -/
theorem Placed.appends {rest : List SegmentUpdate} {s : Disk × SegmentWriter}
    (h : Placed path startSlot updates s) (fits : ∀ u ∈ rest, u.Fits)
    (writes : AllWrite s rest) :
    Placed path startSlot (updates ++ rest) (appends rest s).2 ∧
      (appends rest s).1.length = rest.length ∧
      ∀ i, i < rest.length → (appends rest s).1[i]? =
        some (.ok (.ofNat (SegmentHeader.size + (entriesOf (updates ++ rest.take i)).length))) := by
  induction rest generalizing updates s with
  | nil =>
    rw [List.append_nil]
    exact ⟨h, rfl, nofun⟩
  | cons u rest ih =>
    obtain ⟨written, later⟩ := writes _ rfl
    obtain ⟨t, ran, placed⟩ := h.append_writes (fits u List.mem_cons_self) written
    have next : afterAppend s u = t := congrArg Prod.snd ran
    rw [next] at later
    obtain ⟨last, length, offsets⟩ := ih placed (fun v member => fits v (List.mem_cons_of_mem u member)) later
    have unfolded : SegmentWriter.appends (u :: rest) s =
        (.ok (.ofNat (SegmentHeader.size + (entriesOf updates).length)) :: (SegmentWriter.appends rest t).1,
          (SegmentWriter.appends rest t).2) := by
      simp only [SegmentWriter.appends, ran]
    rw [unfolded]
    refine ⟨?_, congrArg (· + 1) length, fun i below => ?_⟩
    · rw [List.append_cons]
      exact last
    · cases i with
      | zero => simp
      | succ i =>
        have found := offsets i (Nat.lt_of_succ_lt_succ below)
        rw [List.append_assoc, List.singleton_append] at found
        exact found

/-- A writer just created has its header in the buffer. -/
theorem create_exact (path : String) (startSlot : UInt64) (d : Disk) :
    Method.Ends (create crc32 path startSlot) d
      (fun w t => Placed path startSlot [] (t, w) ∧ w.header = checksummed crc32 (.new startSlot))
      (fun _ => True) := by
  rw [ends_create]
  refine (openTruncated_ends path d).mono ?_ (fun _ _ => trivial)
  rintro _ m ⟨_, empty, _⟩
  refine (writeHeader_exact _).mono ?_ (fun _ _ => trivial)
  intro _ t written
  have samePath : t.2.file.path = path := written.frame.path
  have file : t.1.files path = some [] := written.file [] ⟨empty, rfl⟩
  have header : t.2.header = checksummed crc32 (.new startSlot) := written.header
  refine ⟨⟨samePath, ⟨[], t.2.file.buffer, ⟨?_, written.pos⟩, written.buffer, ?_⟩, ?_,
    fun some => absurd rfl some, ?_, ?_⟩, header⟩
  · exact (congrArg t.1.files samePath).trans file
  · simp [entriesOf]
  · exact Nat.le_of_eq written.buffer
  · exact written.currentPos
  · rw [header]
    rfl

/-- Finalizing writes the header over the first bytes and leaves the rest. -/
theorem finalize_exact {s : Disk × SegmentWriter} {contents : List UInt8} (atEnd : AtEnd (handle s) contents) :
    Method.Ends (finalize crc32) s
      (fun info t => info = s.2.header.info ∧ t.1.files s.2.file.path =
        some ((checksummed crc32 s.2.header).bytes ++ (contents ++ s.2.file.buffer).drop SegmentHeader.size))
      (fun _ => True) := by
  unfold finalize
  simp only [Method.ends_thenDrop, Method.ends_bind, Method.ends_get, Method.ends_pure]
  refine (writeHeader_exact s).mono ?_ (fun _ _ => trivial)
  intro _ m written
  rw [ends_onFile]
  refine (flush_ends _).mono ?_ (fun _ _ => trivial)
  rintro _ t ⟨front, wrote, split, empty⟩
  have kept : flush t = (.ok (), t) := if_pos empty
  have dropped : (onFile flush (withFile m t)).2.1 = t.1 := congrArg (·.2.1) kept
  have whole : front = (checksummed crc32 s.2.header).bytes := by
    rw [empty, List.append_nil] at split
    exact split.trans (written.bytes.trans (congrArg SegmentHeader.bytes written.header))
  have length : front.length = SegmentHeader.size := by rw [whole, length_header]
  refine ⟨?_, ?_⟩
  · have header : (withFile m t).2.header = checksummed crc32 s.2.header := written.header
    rw [header]
    rfl
  · have before : m.1.files m.2.file.path = some (contents ++ s.2.file.buffer) :=
      (congrArg m.1.files written.frame.path).trans (written.file contents atEnd)
    have replaced := wrote.body _ before (by rw [handle, written.pos]; exact Nat.zero_le _)
    have path : m.2.file.path = s.2.file.path := written.frame.path
    rw [dropped, ← path]
    refine replaced.trans (congrArg some ?_)
    rw [handle, written.pos, overwrite_start, length, whole]

section sound

variable {s : Disk × SegmentWriter}

theorem writeHeader_sound (h : s.1.Sound) :
    Method.Ends (writeHeader crc32) s (fun _ t => t.1.Sound) (fun _ => False) := by
  unfold writeHeader setHeader
  simp only [Method.ends_bind, ends_onFile, Method.ends_get, Method.ends_modify]
  refine (seekStart_sound h 0).mono (fun _ t sound => ?_) (fun _ none => none)
  exact writeAll_sound sound _

theorem append_sound (h : s.1.Sound) (u : SegmentUpdate) :
    Method.Ends (appendUpdate u) s (fun _ t => t.1.Sound) (fun _ => False) := by
  unfold appendUpdate append
  simp only [Method.ends_bind, ends_onFile, Method.ends_get, Method.ends_modify, Method.ends_pure]
  refine (writeAll_sound h _).mono (fun _ m sound => ?_) (fun _ none => none)
  refine (writeAll_sound sound _).mono (fun _ k sound => ?_) (fun _ none => none)
  exact flush_sound sound

theorem finalize_sound (h : s.1.Sound) :
    Method.Ends (finalize crc32) s (fun _ t => t.1.Sound) (fun _ => False) := by
  unfold finalize
  simp only [Method.ends_thenDrop, Method.ends_bind, Method.ends_get, Method.ends_pure]
  refine (writeHeader_sound h).mono (fun _ m sound => ?_) (fun _ none => none)
  rw [ends_onFile]
  refine (flush_sound sound).mono (fun _ t sound => ?_) (fun _ none => none)
  exact (flush_sound sound).state_of_ok

theorem create_sound {d : Disk} (h : d.Sound) (path : String) (startSlot : UInt64) :
    Method.Ends (create crc32 path startSlot) d (fun _ t => t.Sound) (fun _ => False) := by
  rw [ends_create]
  refine Method.ends_of_run (Method.bind_run h.attempt _) _ ?_
  exact writeHeader_sound h

theorem allWrite_sound (h : s.1.Sound) (updates : List SegmentUpdate) : AllWrite s updates :=
  along_of_invariant (fun s => s.1.Sound) (fun _ _ _ => True) _
    (fun _ u _ sound next _ => ⟨next ▸ (append_sound sound u).state_of_ok, sound.ready _⟩)
    h (along_labels _ (fun _ _ => trivial) s)

end sound

end placed

theorem Placed.drop {path : String} {startSlot : UInt64} {updates : List SegmentUpdate}
    {s : Disk × SegmentWriter} (h : Placed path startSlot updates s) : ∃ contents,
      AtEnd (handle s) contents ∧ contents.drop SegmentHeader.size = entriesOf updates ∧
        (contents ++ s.2.file.buffer).drop SegmentHeader.size = entriesOf updates := by
  obtain ⟨contents, front, atEnd, length, split⟩ := h.file
  have whole : (contents ++ s.2.file.buffer).drop SegmentHeader.size = entriesOf updates := by
    rw [split, ← length, List.drop_left]
  refine ⟨contents, atEnd, ?_, whole⟩
  by_cases none : updates = []
  · subst none
    have short := congrArg List.length split
    rw [List.length_append, List.length_append, length] at short
    exact List.drop_of_length_le (by simpa [entriesOf] using Nat.le.intro short)
  · rwa [h.flushed none, List.append_nil] at whole

end SegmentWriter

theorem SegmentHeader.ofBytes_take (contents : List UInt8) :
    ofBytes (contents.take size) = ofBytes contents := by
  simp [ofBytes, size, List.take_take, List.drop_take]

theorem SegmentReader.openFile_ok {d : Disk} (sound : d.Sound) {path : String} {contents : List UInt8}
    (file : d.files path = some contents) (long : SegmentHeader.size ≤ contents.length)
    (magic : (SegmentHeader.ofBytes contents).magic = SegmentHeader.MAGIC)
    (version : (SegmentHeader.ofBytes contents).version = SegmentHeader.VERSION) :
    openFile path d = (.ok ⟨path, .ofBytes contents⟩, d) := by
  have read := sound.readExact file long
  have checked : openFile path d = (do
      (SegmentHeader.ofBytes contents).validate
      return ⟨path, .ofBytes contents⟩ : Method Disk SegmentError _) d := by
    unfold openFile
    refine (Method.bind_run (a := contents.take SegmentHeader.size) (m := d) ?_ _).trans ?_
    · simp only [Method.zoom, id, read]
      rfl
    · rw [SegmentHeader.ofBytes_take]
  rw [checked, SegmentHeader.validate, if_neg (not_not.mpr magic), if_neg (not_not.mpr version)]
  rfl

/-- The file of a segment written without an error, and what its reader says. -/
structure SegmentLayout (path : String) (startSlot : UInt64) (updates : List SegmentUpdate)
    (entries : List (List UInt8)) (offsets : List UInt64) (before after : Disk) (info : SegmentInfo) :
    Prop where
  laidOut : List.Forall₂ SegmentUpdate.IsEntry updates entries
  file : ∃ header : SegmentHeader, after.files path = some (header.bytes ++ entries.flatten)
  kept : ∃ contents, before.files path = some contents ∧ contents.drop SegmentHeader.size = entries.flatten
  returned : offsets.length = updates.length
  offset : ∀ i, i < updates.length →
    offsets[i]? = some (.ofNat (SegmentHeader.size + (entries.take i).flatten.length))
  counted : info = ⟨startSlot, (updates.map SegmentUpdate.slot).foldl max 0, .ofNat updates.length,
    .ofNat (updates.map fun u => 64 + u.data.length).sum⟩
  reader : ∃ reader, SegmentReader.openFile path after = (.ok reader, after) ∧ reader.info = info

namespace SegmentWriter

/-- On a disk that does not fail a segment is created, filled and finalized with the
layout, the offsets and the header that its reader expects. -/
theorem segment_layout (crc32 : List UInt8 → UInt32) (path : String) (startSlot : UInt64)
    (updates : List SegmentUpdate) {d : Disk} (sound : d.Sound)
    (short : ∀ u ∈ updates, u.data.length < 2 ^ 32 - 64) :
    ∃ w d₁ offsets s info t entries,
      create crc32 path startSlot d = (.ok w, d₁) ∧
      appends updates (d₁, w) = (offsets.map .ok, s) ∧
      finalize crc32 s = (.ok info, t) ∧
      SegmentLayout path startSlot updates entries offsets s.1 t.1 info := by
  obtain ⟨w, d₁, created, soundW, placed, _⟩ := (((create_sound sound path startSlot).and
    (create_exact path startSlot d)).mono (fun _ _ ok => ok) (fun _ none => none.1)).exists_ok
  obtain ⟨last, length, results⟩ := placed.appends short (allWrite_sound soundW updates)
  rw [List.nil_append] at last
  have soundS : (appends updates (d₁, w)).2.1.Sound := by
    rw [appends_state]
    exact foldl_invariant (fun s : Disk × SegmentWriter => s.1.Sound)
      (fun s u h => (append_sound h u).state_of_ok) soundW updates
  obtain ⟨contents, atEnd, before, after⟩ := last.drop
  obtain ⟨info, t, finalized, soundT, counted, file⟩ := (((finalize_sound soundS).and
    (finalize_exact atEnd)).mono (fun _ _ ok => ok) (fun _ none => none.1)).exists_ok
  rw [after, last.path] at file
  let offsets : List UInt64 := (List.range updates.length).map fun i =>
    .ofNat (SegmentHeader.size + (entriesOf (updates.take i)).length)
  refine ⟨w, d₁, offsets, _, info, t, updates.map SegmentUpdate.entry, created, ?_, finalized,
    ?_, ⟨_, file⟩, ⟨contents, last.path ▸ atEnd.file, before⟩, by simp [offsets], ?_, ?_, ?_⟩
  · refine Prod.ext (List.ext_getElem? fun i => ?_) rfl
    by_cases below : i < updates.length
    · rw [results i below]
      simp [offsets, below]
    · rw [List.getElem?_eq_none (by omega), List.getElem?_eq_none (by simp [offsets]; omega)]
  · exact List.forall₂_map_right_iff.mpr (List.forall₂_same.mpr fun u _ => u.isEntry_entry)
  · intro i below
    simp [offsets, below, entriesOf]
  · rw [counted, last.header, ← length_entriesOf]
    rfl
  · have header := (checksummed crc32 (appends updates (d₁, w)).2.2.header).ofBytes_bytes (entriesOf updates)
    have opened := SegmentReader.openFile_ok soundT file (by rw [List.length_append, length_header]; omega)
      (by rw [header, checksummed, last.header]; rfl) (by rw [header, checksummed, last.header]; rfl)
    refine ⟨_, opened, ?_⟩
    rw [counted, SegmentReader.info, header]
    rfl

/-- A segment with updates of slots 101 and 100 reads as one from 100 to 101. -/
theorem segment_layout_two : ∃ t reader, SegmentReader.openFile "a" t = (.ok reader, t) ∧
    reader.info = ⟨100, 101, 2, 131⟩ := by
  obtain ⟨_, _, _, _, _, t, _, _, _, _, layout⟩ := segment_layout (fun _ => 0) "a" 100
    [⟨101, 1, Vector.replicate 32 1, [1]⟩, ⟨100, 2, Vector.replicate 32 2, [2, 3]⟩]
    (d := Disk.empty) rfl (by decide)
  obtain ⟨reader, opened, info⟩ := layout.reader
  exact ⟨t.1, reader, opened, info.trans layout.counted⟩

end SegmentWriter

end Hyperplane
