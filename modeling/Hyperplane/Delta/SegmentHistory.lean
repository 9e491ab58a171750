import Hyperplane.Delta.History
import Hyperplane.Delta.SegmentFailures

/-! The segment files of a consumer whose disk does not fail: the newest closed
segment at a path is in the file there, entry by entry, and was registered as
what its header says; the locator lists the newest registration of each slot. -/
namespace Hyperplane
open Transition RingBufferReader SegmentWriter

def RingEntryView.update (v : RingEntryView) : SegmentUpdate := ⟨v.slot, v.writeVersion, v.pubkey, v.data⟩

namespace SegmentRecord

def updates (r : SegmentRecord) : List SegmentUpdate := r.entries.map RingEntryView.update

/-- No size field of an entry is cut off. -/
def Fits (r : SegmentRecord) : Prop := ∀ u ∈ r.updates, u.Fits

/-- The header that counts the entries, without its checksum. -/
def header (r : SegmentRecord) : SegmentHeader := headerOf r.startSlot r.updates

/-- The file at the path is a header and the entries that it counts. -/
def OnDisk (r : SegmentRecord) (disk : Disk) : Prop := ∃ checksum,
  disk.files r.path = some ({ r.header with checksum := checksum }.bytes ++ entriesOf r.updates)

/-- What a segment with these entries is registered as. -/
def described (r : SegmentRecord) : DeltaSegmentMeta where
  path := r.path
  startSlot := r.startSlot
  endSlot := r.header.endSlot
  entryCount := r.header.entryCount
  dataSize := r.header.dataSize

theorem OnDisk.congr {r : SegmentRecord} {disk after : Disk} (h : r.OnDisk disk)
    (same : after.files r.path = disk.files r.path) : r.OnDisk after := by
  obtain ⟨checksum, file⟩ := h
  exact ⟨checksum, same.trans file⟩

/-- A reader of the file gets the header, and behind it the entries one by one. -/
theorem OnDisk.read {r : SegmentRecord} {disk : Disk} (h : r.OnDisk disk) (fits : r.Fits)
    (sound : disk.Sound) : ∃ reader contents,
      SegmentReader.openFile r.path disk = (.ok reader, disk) ∧ reader.info = r.header.info ∧
        disk.files r.path = some contents ∧
          walk r.entries.length (contents.drop SegmentHeader.size) =
            some (r.entries.map fun v => v.update.entry) := by
  obtain ⟨checksum, file⟩ := h
  have header := SegmentHeader.ofBytes_bytes { r.header with checksum := checksum } (entriesOf r.updates)
  have opened := SegmentReader.openFile_ok sound file (by rw [List.length_append, length_header]; omega)
    (by rw [header]; rfl) (by rw [header]; rfl)
  refine ⟨_, _, opened, ?_, file, ?_⟩
  · rw [SegmentReader.info, header]
    rfl
  · rw [List.drop_left' (length_header _), walk_entriesOf fits (by simp [updates]), updates, List.map_map]
    rfl

end SegmentRecord

namespace SegmentWriter

variable (crc32 : List UInt8 → UInt32)

theorem create_filed {d : Disk} (sound : d.Sound) (path : String) (startSlot : UInt64) :
    ∃ w t, create crc32 path startSlot d = (.ok w, t) ∧ t.Sound ∧ w.file.path = path ∧
      w.header.startSlot = startSlot ∧ (∀ p, p ≠ path → t.files p = d.files p) ∧
        Placed path startSlot [] (t, w) := by
  obtain ⟨w, t, ran, after⟩ := (((create_sound sound path startSlot).and
    (create_ends path startSlot d : Method.Ends (create crc32 path startSlot) d _ _)).mono (fun _ _ ok => ok)
      (fun _ none => none.1)).exists_ok
  obtain ⟨soundT, _, samePath, slot, _, others⟩ := after
  exact ⟨w, t, ran, soundT, samePath, slot, others, ((create_exact path startSlot d).ok ran).1⟩

theorem append_filed {s : Disk × SegmentWriter} (sound : s.1.Sound) (u : SegmentUpdate) :
    ∃ offset t, appendUpdate u s = (.ok offset, t) ∧ t.1.Sound ∧ Stays s t ∧
      ∀ path startSlot updates, Placed path startSlot updates s → u.Fits →
        Placed path startSlot (updates ++ [u]) t := by
  obtain ⟨offset, t, ran, soundT, appended⟩ := (((append_sound sound u).and
    (append_exact u.slot u.writeVersion u.pubkey u.data s)).mono (fun _ _ ok => ok)
      (fun _ none => none.1)).exists_ok
  have stays : Stays s t := ⟨appended.grows.toFrame, by rw [appended.header]⟩
  exact ⟨offset, t, ran, soundT, stays, fun _ _ _ placed fits => (placed.append fits appended).2⟩

theorem finalize_filed (s : Disk × SegmentWriter) (sound : s.1.Sound) :
    ∃ info t, finalize crc32 s = (.ok info, t) ∧ t.1.Sound ∧ info.startSlot = s.2.header.startSlot ∧
      (∀ p, p ≠ s.2.file.path → t.1.files p = s.1.files p) ∧
        ∀ path startSlot updates, Placed path startSlot updates s →
          info = (headerOf startSlot updates).info ∧ ∃ checksum, t.1.files path =
            some ({ headerOf startSlot updates with checksum := checksum }.bytes ++ entriesOf updates) := by
  obtain ⟨info, t, ran, soundT, slot, ended⟩ := (((finalize_sound sound).and
    (finalize_ends s : Method.Ends (finalize crc32) s _ _)).mono (fun _ _ ok => ok)
      (fun _ none => none.1)).exists_ok
  refine ⟨info, t, ran, soundT, slot, ended.frame.others, ?_⟩
  intro path startSlot updates placed
  obtain ⟨contents, atEnd, _, whole⟩ := placed.drop
  obtain ⟨counted, file⟩ := (finalize_exact atEnd).ok ran
  rw [whole, placed.path] at file
  rw [placed.header] at counted file
  exact ⟨counted, _, file⟩

end SegmentWriter

namespace DeltaConsumer

variable (crc32 : List UInt8 → UInt32)

/-- The newest closed segment at a path. -/
def closedAt (c : DeltaConsumer) (path : String) : Option SegmentRecord :=
  c.closed.find? fun r => decide (r.path = path)

/-- What the newest segment registered under a start slot was registered as. -/
def registration (c : DeltaConsumer) (slot : UInt64) : Option DeltaSegmentMeta :=
  c.segments.findSome? fun r => if r.startSlot = slot then r.registered else none

/-- The newest closed segment at a path is on disk unless the open one took its
file, and the open one is placed so far. The locator was `first` in the beginning. -/
structure Filed (first : DeltaLocator) (c : DeltaConsumer) : Prop extends Tracked c where
  sound : c.disk.Sound
  onDisk : ∀ path r, c.closedAt path = some r →
    (∀ w, c.state.currentSegment = some w → w.file.path ≠ path) → r.Fits → r.OnDisk c.disk
  placed : ∀ w r rest, c.state.currentSegment = some w → c.segments = r :: rest → r.Fits →
    Placed r.path r.startSlot r.updates (c.disk, w)
  started : ∀ w r rest, c.state.currentSegment = some w → c.segments = r :: rest →
    c.state.currentSegmentStartSlot = some r.startSlot
  described : ∀ r ∈ c.segments, ∀ m, r.registered = some m → r.Fits → m = r.described
  listed : ∀ slot, c.deltaLocator.segmentsBySlot[slot]? = (c.registration slot).or first.segmentsBySlot[slot]?

theorem closedAt_path {c : DeltaConsumer} {path : String} {r : SegmentRecord}
    (found : c.closedAt path = some r) : r.path = path := by
  simpa using List.find?_some found

theorem registration_extended (v : RingEntryView) (offset : UInt64) (w : SegmentWriter) (disk : Disk)
    (c : DeltaConsumer) (slot : UInt64) :
    (extended v offset w disk c).registration slot = c.registration slot := by
  unfold registration
  cases segments : c.segments with
  | nil => simp [extended, segments]
  | cons r rest =>
    rw [extended_segments v offset w disk segments]
    rfl

/-- A registration is the newest under its slot. -/
theorem registration_registered {c : DeltaConsumer} {r : SegmentRecord} {rest : List SegmentRecord}
    (info : SegmentInfo) (disk : Disk) (segments : c.segments = r :: rest)
    (slot : UInt64) : (registered info disk c).registration slot =
      if r.startSlot = slot then some (segmentMeta info c) else c.registration slot := by
  rw [registration, registration, registered_segments info disk segments, segments]
  by_cases same : r.startSlot = slot <;> simp [same]

theorem start_sound {c : DeltaConsumer} (sound : c.disk.Sound) :
    ∃ running, (start c).2 = { c with state := { c.state with running := running } } := by
  have ends : Method.Ends start c
      (fun _ t => ∃ running, t = { c with state := { c.state with running := running } })
      (fun t => ∃ running, t = { c with state := { c.state with running := running } }) := by
    unfold start
    simp only [Method.ends_bind, Method.ends_get]
    split
    · exact ⟨c.state.running, rfl⟩
    · simp only [Method.ends_bind, Method.ends_modify, Method.ends_zoom]
      exact Method.ends_of_run sound.attempt _ ⟨true, rfl⟩
  exact ends.state fun _ _ left => left

namespace Filed

variable {first : DeltaLocator}

theorem congr {c t : DeltaConsumer} (h : Filed first c) (config : t.config = c.config)
    (segments : t.segments = c.segments) (current : t.state.currentSegment = c.state.currentSegment)
    (slot : t.state.currentSegmentStartSlot = c.state.currentSegmentStartSlot)
    (appended : t.appended = c.appended) (disk : t.disk = c.disk)
    (locator : t.deltaLocator = c.deltaLocator) : Filed first t where
  toTracked := h.toTracked.congr config segments current appended
  sound := disk ▸ h.sound
  onDisk := by
    have same (path : String) : t.closedAt path = c.closedAt path := by
      simp only [closedAt, closed, current, segments]
    simp only [same, current, disk]
    exact h.onDisk
  placed := by
    rw [current, segments, disk]
    exact h.placed
  started := by
    rw [current, segments, slot]
    exact h.started
  described := segments ▸ h.described
  listed := by
    simp only [registration, segments, locator]
    exact h.listed

theorem opened {c : DeltaConsumer} (h : Filed first c) (absent : c.state.currentSegment = none) {slot : UInt64}
    {w : SegmentWriter} {disk : Disk} (sound : disk.Sound) (path : w.file.path = c.config.segmentPath slot)
    (startSlot : w.header.startSlot = slot) (others : OnlyAt (c.config.segmentPath slot) c.disk disk)
    (placed : Placed (c.config.segmentPath slot) slot [] (disk, w)) : Filed first (opened slot w disk c) where
  toTracked := h.toTracked.opened path startSlot
  sound := sound
  onDisk p r found free fits := by
    have before : c.closedAt p = some r := by
      rw [closedAt, closed_none absent]
      exact found
    have apart : p ≠ c.config.segmentPath slot := path ▸ (free w rfl).symm
    have none : ∀ v, c.state.currentSegment = some v → v.file.path ≠ p := by simp [absent]
    refine (h.onDisk p r before none fits).congr ?_
    rw [closedAt_path before]
    exact others p apart
  placed w' r rest present segments _ := by
    cases present
    cases segments
    exact placed
  started w' r rest present segments := by
    cases segments
    rfl
  described r member m known := by
    rcases List.mem_cons.mp member with rfl | old
    · cases known
    · exact h.described r old m known
  listed := by
    intro s
    have same : (DeltaConsumer.opened slot w disk c).registration s = c.registration s := by
      simp [registration, DeltaConsumer.opened]
    rw [same]
    exact h.listed s

theorem extended {c : DeltaConsumer} (h : Filed first c) {w after : SegmentWriter} {disk : Disk}
    (present : c.state.currentSegment = some w) (sound : disk.Sound)
    (stays : Stays (c.disk, w) (disk, after)) (v : RingEntryView) (offset : UInt64)
    (placed : ∀ path startSlot updates, Placed path startSlot updates (c.disk, w) → v.update.Fits →
      Placed path startSlot (updates ++ [v.update]) (disk, after)) :
    Filed first (extended v offset after disk c) := by
  obtain ⟨r, rest, segments, path, _, unregistered⟩ := h.current w present
  have more := extended_segments v offset after disk segments
  have updates : ({ r with entries := r.entries ++ [v] } : SegmentRecord).updates = r.updates ++ [v.update] := by
    simp [SegmentRecord.updates]
  have samePath : after.file.path = w.file.path := stays.frame.path
  have open_ : (DeltaConsumer.extended v offset after disk c).state.currentSegment = some after := rfl
  refine ⟨h.toTracked.extended present stays v offset, sound, ?_, ?_, ?_, ?_, ?_⟩
  · intro p s found free fits
    have before : c.closedAt p = some s := by
      rw [closedAt, closed_some open_ more] at found
      rw [closedAt, closed_some present segments]
      exact found
    have apart : w.file.path ≠ p := samePath ▸ free after rfl
    refine (h.onDisk p s before (fun w' same => Option.some.inj (present.symm.trans same) ▸ apart) fits).congr ?_
    rw [closedAt_path before]
    exact stays.frame.others p apart.symm
  · intro w' s later current same fits
    cases current
    cases more.symm.trans same
    rw [SegmentRecord.Fits, updates, List.forall_mem_append] at fits
    rw [updates]
    exact placed _ _ _ (h.placed w r rest present segments fits.1) (fits.2 _ (List.mem_singleton.mpr rfl))
  · intro w' s later current same
    cases more.symm.trans same
    exact h.started w r rest present segments
  · rw [more]
    have old := h.described
    rw [segments] at old
    refine List.forall_mem_cons.mpr ⟨?_, (List.forall_mem_cons.mp old).2⟩
    intro m known
    cases unregistered.symm.trans known
  · intro slot
    rw [registration_extended]
    exact h.listed slot

/-- Once its writer is finalized a segment is on disk, whether registered or not. -/
theorem finalized {c t : DeltaConsumer} (h : Filed first c) {w : SegmentWriter}
    (present : c.state.currentSegment = some w) {r : SegmentRecord} {rest : List SegmentRecord}
    (segments : c.segments = r :: rest) {known : Option DeltaSegmentMeta} (absent : t.state.currentSegment = none)
    (closing : t.segments = { r with registered := known } :: rest) {disk : Disk} (here : t.disk = disk)
    (others : ∀ p, p ≠ w.file.path → disk.files p = c.disk.files p)
    (file : ∀ path startSlot updates, Placed path startSlot updates (c.disk, w) → ∃ checksum,
      disk.files path = some ({ headerOf startSlot updates with checksum := checksum }.bytes ++ entriesOf updates))
    {path : String} {s : SegmentRecord} (found : t.closedAt path = some s) (fits : s.Fits) : s.OnDisk t.disk := by
  obtain ⟨_, _, same, writes, _⟩ := h.current w present
  cases segments.symm.trans same
  rw [closedAt, closed_none absent, closing, List.find?_cons] at found
  rw [here]
  by_cases own : r.path = path
  · rw [decide_eq_true own] at found
    cases found
    exact file _ _ _ (h.placed w r rest present segments fits)
  · rw [decide_eq_false own] at found
    have before : c.closedAt path = some s := by
      rw [closedAt, closed_some present segments]
      exact found
    have apart : w.file.path ≠ path := writes ▸ own
    refine (h.onDisk path s before (fun w' same => Option.some.inj (present.symm.trans same) ▸ apart) fits).congr ?_
    rw [closedAt_path before]
    exact others path apart.symm

/-- The segment that an entry goes to. -/
def recordedIn (v : RingEntryView) (c : DeltaConsumer) : List SegmentRecord :=
  match c.state.currentSegment with
  | none => ⟨c.config.segmentPath v.slot, v.slot, [v], none⟩ :: c.segments
  | some _ => c.segments.modifyHead fun r => { r with entries := r.entries ++ [v] }

theorem appendEntry {c : DeltaConsumer} (h : Filed first c) {w : SegmentWriter}
    (present : c.state.currentSegment = some w) (v : RingEntryView) :
    ∃ offset after disk, appendEntry v c = (.ok (), DeltaConsumer.extended v offset after disk c) ∧
      Filed first (DeltaConsumer.extended v offset after disk c) := by
  obtain ⟨offset, ⟨disk, after⟩, ran, sound, stays, placed⟩ :=
    append_filed (s := (c.disk, w)) h.sound v.update
  have ran : append v.slot v.writeVersion v.pubkey v.data (c.disk, w) = (.ok offset, disk, after) := ran
  refine ⟨offset, after, disk, ?_, h.extended present sound stays v offset fun path slot updates before fits =>
    placed path slot updates before fits⟩
  simp only [DeltaConsumer.appendEntry, present, ran]
  rfl

theorem processEntry {c : DeltaConsumer} (h : Filed first c) (v : RingEntryView) :
    ∃ t, processEntry crc32 v c = (.ok (), t) ∧ Filed first t ∧ t.state.currentSegment ≠ none ∧
      t.config = c.config ∧ t.segments = recordedIn v c := by
  have valid := (Pubkey.tryFrom_eq_some v.pubkey.toList v.pubkey).mpr rfl
  have reduced : Filed first (reduce v.pubkey v c) := h.congr rfl rfl rfl rfl rfl rfl rfl
  have reducing : DeltaConsumer.processEntry crc32 v c = (do
      openSegment crc32 v.slot
      DeltaConsumer.appendEntry v : Method DeltaConsumer DeltaConsumerError Unit)
        (reduce v.pubkey v c) := by
    simp only [DeltaConsumer.processEntry, valid, writeToSegment]
    exact Method.bind_run rfl _
  rw [reducing]
  cases present : c.state.currentSegment with
  | some w =>
    have current : (reduce v.pubkey v c).state.currentSegment = some w := present
    obtain ⟨offset, after, disk, ran, filed⟩ := reduced.appendEntry current v
    rw [Method.bind_run (openSegment_open v.slot current)]
    exact ⟨_, ran, filed, Option.some_ne_none _, rfl, by rw [recordedIn, present]; rfl⟩
  | none =>
    obtain ⟨w, disk, ran, sound, path, startSlot, others, placed⟩ :=
      create_filed crc32 h.sound (c.config.segmentPath v.slot) v.slot
    have opens : openSegment crc32 v.slot (reduce v.pubkey v c) =
        (.ok (), DeltaConsumer.opened v.slot w disk (reduce v.pubkey v c)) := by
      have ran : create crc32 ((reduce v.pubkey v c).config.segmentPath v.slot) v.slot
          (reduce v.pubkey v c).disk = (.ok w, disk) := ran
      have absent : (reduce v.pubkey v c).state.currentSegment = none := present
      simp only [openSegment, absent, ran]
      rfl
    have filed := reduced.opened present sound path startSlot others placed
    obtain ⟨offset, after, disk', ran, filed⟩ := filed.appendEntry (w := w) rfl v
    rw [Method.bind_run opens]
    refine ⟨_, ran, filed, Option.some_ne_none _, rfl, ?_⟩
    rw [recordedIn, present]
    rfl

theorem recordedIn_open {c : DeltaConsumer} (present : c.state.currentSegment ≠ none) (v : RingEntryView) :
    recordedIn v c = c.segments.modifyHead fun r => { r with entries := r.entries ++ [v] } := by
  obtain ⟨w, some⟩ := Option.ne_none_iff_exists'.mp present
  rw [recordedIn, some]

/-- All entries go to the segment that is open. -/
theorem processAll {c : DeltaConsumer} (h : Filed first c) (present : c.state.currentSegment ≠ none)
    (vs : List RingEntryView) : ∃ t, processAll crc32 vs c = (.ok (), t) ∧ Filed first t ∧
      t.state.currentSegment ≠ none ∧ t.config = c.config ∧
        t.segments = c.segments.modifyHead fun r => { r with entries := r.entries ++ vs } := by
  induction vs generalizing c with
  | nil =>
    refine ⟨c, rfl, h, present, rfl, ?_⟩
    simp only [List.append_nil]
    cases c.segments <;> rfl
  | cons v rest ih =>
    obtain ⟨m, first, filed, more, config, segments⟩ := h.processEntry crc32 v
    obtain ⟨t, others, last, still, same, later⟩ := ih filed more
    refine ⟨t, (Method.bind_run first _).trans others, last, still, same.trans config, ?_⟩
    rw [later, segments, recordedIn_open present, List.modifyHead_modifyHead]
    congr 1
    funext r
    simp

/-- A flush registers a finalized segment as what it holds. -/
theorem registered {c : DeltaConsumer} (h : Filed first c) {w : SegmentWriter}
    (present : c.state.currentSegment = some w) {info : SegmentInfo} {disk : Disk} {after : SegmentWriter}
    (done : finalize crc32 (c.disk, w) = (.ok info, disk, after)) : Filed first (registered info disk c) := by
  obtain ⟨r, rest, segments, path, started, _⟩ := h.current w present
  obtain ⟨_, _, ran, sound, startSlot, others, file⟩ := finalize_filed crc32 (c.disk, w) h.sound
  cases done.symm.trans ran
  have more := registered_segments info disk segments
  have slot := h.started w r rest present segments
  refine ⟨h.toTracked.registered present startSlot disk, sound, ?_, ?_, ?_, ?_, ?_⟩
  · intro p s found _ fits
    exact h.finalized present segments rfl more rfl others
      (fun path startSlot updates placed => (file path startSlot updates placed).2) found fits
  · intro w' s later none
    cases none
  · intro w' s later none
    cases none
  · rw [more]
    have old := h.described
    have named := h.named
    rw [segments] at old named
    refine List.forall_mem_cons.mpr ⟨?_, (List.forall_mem_cons.mp old).2⟩
    rintro m ⟨⟩ fits
    obtain ⟨counted, _⟩ := file _ _ _ (h.placed w r rest present segments fits)
    simp only [segmentMeta, slot, Option.getD_some, counted]
    rw [← (List.forall_mem_cons.mp named).1]
    rfl
  · intro slot
    have under : (segmentMeta info c).startSlot = r.startSlot := startSlot.trans started
    rw [registration_registered info disk segments]
    change (c.deltaLocator.segmentsBySlot.insert (segmentMeta info c).startSlot (segmentMeta info c))[slot]? = _
    rw [under, Maps.getElem?_insert_ite]
    by_cases same : r.startSlot = slot
    · simp [same]
    · rw [if_neg same, if_neg (Ne.symm same)]
      exact h.listed slot

theorem finishUpdates {c : DeltaConsumer} (h : Filed first c) (n : Nat) :
    ∃ t, finishUpdates crc32 n c = (.ok n, t) ∧ Filed first t ∧ t.config = c.config ∧
      ∀ r rest, c.segments = r :: rest → ∃ known, t.segments = { r with registered := known } :: rest := by
  have counts : Filed first (counted n c) := h.congr rfl rfl rfl rfl rfl rfl rfl
  have ends := @finishUpdates_ends crc32 n c
  unfold Method.Ends at ends
  cases ran : DeltaConsumer.finishUpdates crc32 n c with
  | mk result t =>
    rw [ran] at ends
    cases result with
    | fault => exact ends.elim
    | error e =>
      obtain ⟨w, e, disk, after, _, _, failed, _⟩ := ends
      obtain ⟨info, s, done, _⟩ := finalize_filed crc32 (c.disk, w) h.sound
      cases failed.symm.trans done
    | ok m =>
      obtain ⟨rfl, _⟩ := finishUpdates_ok ran
      rcases ends with ⟨rfl, _⟩ | ⟨w, info, disk, after, _, present, done, rfl⟩
      · exact ⟨_, rfl, counts, rfl, fun r rest segments => ⟨r.registered, segments⟩⟩
      · refine ⟨_, rfl, counts.registered crc32 present done, rfl, fun r rest segments => ?_⟩
        exact ⟨_, registered_segments (c := counted m c) info disk segments⟩

/-- A poll returns the number of entries of a ring that can be read, or stops at
the first that cannot. -/
theorem processUpdates {c : DeltaConsumer} (h : Filed first c) (ring : Ring) :
    Filed first (processUpdates crc32 ring c).2 := by
  have entry : ∀ (reader : RingBufferReader) v (after : RingBufferReader) t,
      readNext ring reader = (.ok (some v), after) → Filed first t →
        Method.Ends (DeltaConsumer.processEntry crc32 v) t (fun _ m => Filed first m) (Filed first) := by
    intro _ v _ t _ filed
    obtain ⟨m, ran, done, _⟩ := filed.processEntry crc32 v
    exact Method.ends_of_run ran _ done
  rcases processUpdates_cases (I := fun _ t => Filed first t) (fun _ _ filed => filed) entry h with
    ⟨n, m, _, filed, same⟩ | ⟨_, filed⟩
  · obtain ⟨t, ran, done⟩ := filed.finishUpdates crc32 n
    rw [same, ran]
    exact done.1
  · exact filed

/-- The segment that is open is closed without being registered. -/
theorem stop {c : DeltaConsumer} (h : Filed first c) : Filed first (stop crc32 c) := by
  cases present : c.state.currentSegment with
  | none =>
    rw [stop_idle present]
    exact h.congr rfl rfl rfl rfl rfl rfl rfl
  | some w =>
    obtain ⟨r, rest, segments, _, _, unregistered⟩ := h.current w present
    obtain ⟨_, ⟨disk, _⟩, ran, sound, _, others, file⟩ :=
      finalize_filed crc32 (c.disk, w) h.sound
    rw [stop_open present, ran]
    have still : c.segments = { r with registered := none } :: rest := segments.trans (by rw [← unregistered])
    have closed : Filed first (DeltaConsumer.abandoned disk c) := by
      refine ⟨h.toTracked.abandoned disk, sound, ?_, ?_, ?_, h.described, h.listed⟩
      · intro p s found _ fits
        exact h.finalized (t := DeltaConsumer.abandoned disk c) present segments rfl still rfl others
          (fun path startSlot updates placed => (file path startSlot updates placed).2) found fits
      · intro w' s later none
        cases none
      · intro w' s later none
        cases none
    exact closed.congr rfl rfl rfl rfl rfl rfl rfl

theorem call {c : DeltaConsumer} (h : Filed first c) (a : ConsumerCall) : Filed first (call crc32 c a) := by
  cases a with
  | start =>
    obtain ⟨running, same⟩ := start_sound h.sound
    rw [DeltaConsumer.call, same]
    exact h.congr rfl rfl rfl rfl rfl rfl rfl
  | processUpdates ring => exact h.processUpdates crc32 ring
  | stop => exact h.stop crc32

theorem new (config : DeltaConsumerConfig) (locator : DeltaLocator) {disk : Disk} (sound : disk.Sound) :
    Filed locator (new config locator disk) where
  recorded := rfl
  named := by simp [DeltaConsumer.new]
  slots := by simp [DeltaConsumer.new]
  current := by simp [DeltaConsumer.new]
  sound := sound
  onDisk := by simp [DeltaConsumer.new, closedAt, closed]
  placed := by simp [DeltaConsumer.new]
  started := by simp [DeltaConsumer.new]
  described := by simp [DeltaConsumer.new]
  listed := by simp [DeltaConsumer.new, registration]

end Filed

/-- A closed segment with the newest record at its path can be read back, a
registration tells what is read, and the locator, at first `first`, lists the
newest registration of each slot. -/
structure SegmentsRead (first : DeltaLocator) (c : DeltaConsumer) : Prop where
  recorded : c.recorded = c.appendedEntries
  read : ∀ path r, c.closedAt path = some r →
    (∀ w, c.state.currentSegment = some w → w.file.path ≠ path) → r.Fits →
      ∃ reader contents, SegmentReader.openFile path c.disk = (.ok reader, c.disk) ∧
        reader.info = r.header.info ∧ c.disk.files path = some contents ∧
          walk r.entries.length (contents.drop SegmentHeader.size) =
            some (r.entries.map fun v => v.update.entry)
  registered : ∀ r ∈ c.segments, ∀ m, r.registered = some m → r.Fits → m = r.described
  listed : ∀ slot, c.deltaLocator.segmentsBySlot[slot]? = (c.registration slot).or first.segmentsBySlot[slot]?

theorem Filed.segmentsRead {first : DeltaLocator} {c : DeltaConsumer} (h : Filed first c) :
    SegmentsRead first c where
  recorded := h.recorded
  read path r found free fits := by
    have same := closedAt_path found
    subst same
    exact (h.onDisk _ r found free fits).read fits h.sound
  registered := h.described
  listed := h.listed

/-- Whatever is polled, and whenever the consumer is started and stopped. -/
theorem segments_read (crc32 : List UInt8 → UInt32) (config : DeltaConsumerConfig) (locator : DeltaLocator)
    {disk : Disk} (sound : disk.Sound) (calls : List ConsumerCall) :
    Along (ofFun (call crc32)) (fun _ _ after => SegmentsRead locator after) (new config locator disk) calls :=
  along_of_invariant (Filed locator) (fun _ _ _ => True) _
    (fun c a t filed taken _ => by
      cases taken
      exact ⟨filed.call crc32 a, (filed.call crc32 a).segmentsRead⟩)
    (Filed.new config locator sound) (along_labels _ (fun _ _ => trivial) _)

/-- Two segments for slot 7: the second is the one that is read. -/
theorem same_slot_read :
    Along (ofFun (call fun _ => 0)) (fun _ _ after => SegmentsRead {} after) (new ⟨"delta", 1⟩ {} .empty)
      [.processUpdates (ringOf ⟨7, 1, Vector.replicate 32 9, [5, 6]⟩),
        .processUpdates (ringOf ⟨7, 1, Vector.replicate 32 8, [5, 6]⟩)] :=
  segments_read _ _ _ (show Disk.empty.Sound from rfl) _

end DeltaConsumer

namespace RingBufferWriter

/-- The entries taken so far, and the ring. A write that faults ends the run. -/
def offer (w : RingBufferWriter) (s : List RingEntryView × Ring) (v : RingEntryView) :
    Option (List RingEntryView × Ring) :=
  match w.write v s.2 with
  | (.ok _, ring) => some (s.1 ++ [v], ring)
  | (.error _, ring) => some (s.1, ring)
  | (.fault, _) => none

/-- The ring holds the entries it took, however many others were refused between them. -/
theorem holds_offered {w : RingBufferWriter} {capacity : Nat} {vs taken : List RingEntryView} {ring : Ring}
    (small : ∀ v ∈ vs, v.Small) (ran : Run (ofPartial w.offer) ([], created capacity) vs (taken, ring)) :
    ring.Holds taken := by
  refine run_invariant_along (fun s : List RingEntryView × Ring => s.2.Holds s.1) (fun _ v _ => v.Small)
    ?_ (holds_created capacity) (along_labels _ small _) ran
  intro s v t held offered fits
  rw [ofPartial, offer] at offered
  split at offered
  · rename_i pos ring wrote
    cases offered
    exact holds_write held fits wrote
  · rename_i e ring refused
    cases offered
    rw [write_error refused]
    exact held
  · cases offered

end RingBufferWriter

namespace DeltaConsumer

variable (crc32 : List UInt8 → UInt32)

theorem stop_closes (c : DeltaConsumer) : (DeltaConsumer.stop crc32 c).state.currentSegment = none ∧
    (DeltaConsumer.stop crc32 c).closed = c.segments := by
  have absent : (DeltaConsumer.stop crc32 c).state.currentSegment = none := by
    unfold DeltaConsumer.stop
    split
    · assumption
    · rfl
  refine ⟨absent, ?_⟩
  rw [closed_none absent, DeltaConsumer.stop]
  split <;> rfl

/-- A poll by a consumer without an open segment, and the stop after it. -/
theorem Filed.poll_stop {first : DeltaLocator} {c : DeltaConsumer} (h : Filed first c)
    (idle : c.state.currentSegment = none) {ring : Ring} {v : RingEntryView} {rest : List RingEntryView} (held : ring.Holds (v :: rest)) :
    ∃ t known, DeltaConsumer.processUpdates crc32 ring c = (.ok (rest.length + 1), t) ∧ Filed first t ∧
      (DeltaConsumer.stop crc32 t).closed =
        ⟨c.config.segmentPath v.slot, v.slot, v :: rest, known⟩ :: c.segments := by
  obtain ⟨m, first, filed, present, _, segments⟩ := h.processEntry crc32 v
  obtain ⟨k, others, filed, _, _, more⟩ := filed.processAll crc32 present rest
  obtain ⟨t, finished, filed, _, closing⟩ := filed.finishUpdates crc32 (rest.length + 1)
  have opened : openFile ring = .ok fresh := by
    have covers : ringHeaderSize + 0 + (span (v :: rest)).length ≤ ring.mapped := held.inside (by simp)
    exact if_neg (by omega)
  have ran : DeltaConsumer.processUpdates crc32 ring c = (.ok (rest.length + 1), t) :=
    processUpdates_ok_iff.mpr
      ⟨opened, v :: rest, k, (), reads_all held, (Method.bind_run first _).trans others, finished⟩
  rw [segments, recordedIn, idle] at more
  obtain ⟨known, after⟩ := closing _ _ more
  exact ⟨t, known, ran, filed, (stop_closes crc32 t).2.trans after⟩

/-- What the ring took from its writers is in the segment file of the first entry's
slot once the consumer has polled and stopped, whatever it did before. -/
theorem ring_to_segment (crc32 : List UInt8 → UInt32) (config : DeltaConsumerConfig) (locator : DeltaLocator)
    {disk : Disk} (sound : disk.Sound) (calls : List ConsumerCall) {capacity : Nat}
    {vs rest : List RingEntryView} {v : RingEntryView} {ring : Ring} (small : ∀ u ∈ vs, u.Small)
    (ran : Run (ofPartial (RingBufferWriter.offer ⟨capacity⟩)) ([], RingBufferWriter.created capacity) vs
      (v :: rest, ring))
    (idle : (calls.foldl (call crc32) (new config locator disk)).state.currentSegment = none) :
    let c := calls.foldl (call crc32) (new config locator disk)
    let path := c.config.segmentPath v.slot
    ∃ t, processUpdates crc32 ring c = (.ok (rest.length + 1), t) ∧ ∃ reader contents,
      SegmentReader.openFile path (stop crc32 t).disk = (.ok reader, (stop crc32 t).disk) ∧
        reader.info = (headerOf v.slot ((v :: rest).map RingEntryView.update)).info ∧
          (stop crc32 t).disk.files path = some contents ∧
            walk (rest.length + 1) (contents.drop SegmentHeader.size) =
              some ((v :: rest).map fun u => u.update.entry) := by
  intro c path
  have filed : Filed locator c :=
    foldl_invariant (Filed locator) (fun c a h => h.call crc32 a) (Filed.new config locator sound) calls
  have held := RingBufferWriter.holds_offered small ran
  obtain ⟨t, known, polled, after, closed⟩ := filed.poll_stop crc32 idle held
  let r : SegmentRecord := ⟨path, v.slot, v :: rest, known⟩
  have found : (stop crc32 t).closedAt path = some r := by
    rw [closedAt, closed, List.find?_cons, decide_eq_true rfl]
  have free : ∀ w, (stop crc32 t).state.currentSegment = some w → w.file.path ≠ path := by
    simp [(stop_closes crc32 t).1]
  have fits : r.Fits := by
    intro u member
    obtain ⟨entry, among, rfl⟩ := List.mem_map.mp member
    have narrow := held.small entry among
    unfold RingEntryView.Small RingEntry.headerSize at narrow
    change entry.data.length < 2 ^ 32 - 64
    omega
  exact ⟨t, polled, (after.stop crc32).segmentsRead.read path r found free fits⟩

/-- The second write is refused, and only the first is found in the file. -/
theorem refused_write_to_segment :
    let v : RingEntryView := ⟨7, 1, Vector.replicate 32 9, [5, 6]⟩
    ∃ ring t contents, processUpdates (fun _ => 0) ring (new ⟨"delta", 10⟩ {} .empty) = (.ok 1, t) ∧
      (stop (fun _ => 0) t).disk.files (DeltaConsumerConfig.segmentPath ⟨"delta", 10⟩ 7) = some contents ∧
        walk 1 (contents.drop SegmentHeader.size) = some [v.update.entry] := by
  intro v
  let large : RingEntryView := ⟨8, 1, Vector.replicate 32 9, List.replicate 71 0⟩
  have ran : Run (ofPartial (RingBufferWriter.offer ⟨200⟩)) ([], RingBufferWriter.created 200) [v, large]
      ([v], _) := ⟨_, rfl, _, rfl, rfl⟩
  obtain ⟨t, polled, _, contents, _, _, file, walked⟩ := ring_to_segment (fun _ => 0) ⟨"delta", 10⟩ {}
    (show Disk.empty.Sound from rfl) [] (by simp [v, large, RingEntryView.Small, RingEntry.headerSize]) ran rfl
  exact ⟨_, t, contents, polled, file, walked⟩

end DeltaConsumer

end Hyperplane
