import Hyperplane.Delta.Polling
import Hyperplane.Delta.SegmentFile

/-! Runs of start, process_updates and stop. A call of process_updates takes in
entries one by one and then looks whether to flush; what each of these does to
the segments is said once here, for every outcome. -/
namespace Hyperplane
open Transition RingBufferReader SegmentWriter

inductive ConsumerCall where
  | start
  | processUpdates (ring : Ring)
  | stop

/-- A ring of 1024 bytes with one entry. -/
def ringOf (v : RingEntryView) : Ring :=
  ((RingBufferWriter.mk 1024).write v (RingBufferWriter.created 1024)).2

def segmentBytes (v : RingEntryView) : List UInt8 :=
  entryBytes v.slot v.writeVersion v.pubkey v.data

def SegmentRecord.pieces (r : SegmentRecord) : List (List UInt8) := r.entries.map segmentBytes

namespace DeltaConsumer

variable (crc32 : List UInt8 → UInt32)

/-- The consumer after a call, whatever the call returns. -/
def call (c : DeltaConsumer) : ConsumerCall → DeltaConsumer
  | .start => (start c).2
  | .processUpdates ring => (processUpdates crc32 ring c).2
  | .stop => stop crc32 c

/-- The segments that no writer is open for any more. -/
def closed (c : DeltaConsumer) : List SegmentRecord :=
  match c.state.currentSegment with
  | none => c.segments
  | some _ => c.segments.tail

def opened (slot : UInt64) (writer : SegmentWriter) (disk : Disk) (c : DeltaConsumer) : DeltaConsumer :=
  { c with
    disk := disk
    state := { c.state with
      currentSegment := some writer
      currentSegmentStartSlot := some slot
      currentSegmentEntries := 0 }
    segments := ⟨c.config.segmentPath slot, slot, [], none⟩ :: c.segments }

/-- The writer after an append that failed. -/
def moved (writer : SegmentWriter) (disk : Disk) (c : DeltaConsumer) : DeltaConsumer :=
  { c with disk := disk, state := { c.state with currentSegment := some writer } }

def extended (v : RingEntryView) (offset : UInt64) (writer : SegmentWriter) (disk : Disk)
    (c : DeltaConsumer) : DeltaConsumer :=
  { c with
    disk := disk
    state := { c.state with
      currentSegment := some writer
      currentSegmentEntries := c.state.currentSegmentEntries + 1 }
    appended := c.appended ++ [⟨writer.file.path, offset, v⟩]
    segments := c.segments.modifyHead fun r => { r with entries := r.entries ++ [v] } }

/-- What a segment is registered as. -/
def segmentMeta (info : SegmentInfo) (c : DeltaConsumer) : DeltaSegmentMeta where
  path := c.config.segmentPath (c.state.currentSegmentStartSlot.getD 0)
  startSlot := info.startSlot
  endSlot := info.endSlot
  entryCount := info.entryCount
  dataSize := info.dataSize

def registered (info : SegmentInfo) (disk : Disk) (c : DeltaConsumer) : DeltaConsumer :=
  { c with
    disk := disk
    deltaLocator := c.deltaLocator.registerSegment (segmentMeta info c)
    state := { c.state with
      currentSegment := none
      currentSegmentStartSlot := none
      currentSegmentEntries := 0 }
    segments := c.segments.modifyHead fun r => { r with registered := some (segmentMeta info c) } }

def counted (n : Nat) (c : DeltaConsumer) : DeltaConsumer :=
  setState (fun state => { state with totalProcessed := state.totalProcessed + n }) c

/-- The writer is gone and its segment was not registered. -/
def abandoned (disk : Disk) (c : DeltaConsumer) : DeltaConsumer :=
  { c with disk := disk, state := { c.state with currentSegment := none } }

/-- No file but the one at the path was touched. -/
def OnlyAt (path : String) (before after : Disk) : Prop :=
  ∀ p, p ≠ path → after.files p = before.files p

/-- The state in which a call of process_updates comes to its flush, if it does. -/
def ReachesFlush (ring : Ring) (c m : DeltaConsumer) : Prop :=
  openFile ring = .ok fresh ∧ ∃ vs, Reads ring fresh vs ∧ processAll crc32 vs c = (.ok (), m)

variable {crc32}

theorem reachesFlush_unique {ring : Ring} {c m k : DeltaConsumer} (first : ReachesFlush crc32 ring c m)
    (second : ReachesFlush crc32 ring c k) : m = k := by
  obtain ⟨_, vs, reads, all⟩ := first
  obtain ⟨_, us, again, others⟩ := second
  rw [reads_unique again reads, all] at others
  cases others
  rfl

theorem reads_next {ring : Ring} {reader after : RingBufferReader} {v : RingEntryView}
    {vs : List RingEntryView} (read : readNext ring reader = (.ok (some v), after))
    (reads : Reads ring reader vs) : ∃ rest, vs = v :: rest ∧ Reads ring after rest := by
  cases reads with
  | done none =>
    rw [read] at none
    cases none
  | next some tail =>
    rw [read] at some
    cases some
    exact ⟨_, rfl, tail⟩

/-- Where the ring cannot be read the loop stops at once. -/
theorem processLoop_unread {ring : Ring} {reader : RingBufferReader} {fuel processed : Nat}
    (unread : ∀ found, (readNext ring reader).1 ≠ .ok found) (c : DeltaConsumer) :
    (∀ vs, ¬ Reads ring reader vs) ∧ (processLoop crc32 ring (fuel + 1) reader processed c).2 = c := by
  constructor
  · intro vs reads
    cases reads with
    | done none => exact unread _ (congrArg Prod.fst none)
    | next some _ => exact unread _ (congrArg Prod.fst some)
  · cases read : readNext ring reader with
    | mk result after =>
      rw [read] at unread
      cases result with
      | ok found => exact absurd rfl (unread found)
      | error e =>
        simp only [processLoop, read]
        rfl
      | fault => simp only [processLoop, read]

/-- The loop comes to the flush, or it stops before with what an entry leaves
behind. The invariant speaks of the reader too, so that it can tell the first
entry of a call from the others. -/
theorem processLoop_cases {ring : Ring} {I : RingBufferReader → DeltaConsumer → Prop}
    {K : DeltaConsumer → Prop} (weak : ∀ reader t, I reader t → K t)
    (entry : ∀ reader v after t, readNext ring reader = (.ok (some v), after) → I reader t →
      Method.Ends (processEntry crc32 v) t (fun _ m => I after m) K)
    {fuel processed : Nat} {reader : RingBufferReader} {c : DeltaConsumer}
    (enough : ring.header.writePos - reader.readPos < fuel) (initial : I reader c) :
    (∃ n last vs m, Reads ring reader vs ∧ processAll crc32 vs c = (.ok (), m) ∧ I last m ∧
      (processLoop crc32 ring fuel reader processed c).2 = (finishUpdates crc32 n m).2) ∨
    (∀ vs m, Reads ring reader vs → processAll crc32 vs c ≠ (.ok (), m)) ∧
      K (processLoop crc32 ring fuel reader processed c).2 := by
  induction fuel generalizing reader processed c with
  | zero => omega
  | succ fuel ih =>
    have stops (unread : ∀ found, (readNext ring reader).1 ≠ .ok found) :
        (∀ vs m, Reads ring reader vs → processAll crc32 vs c ≠ (.ok (), m)) ∧
          K (processLoop crc32 ring (fuel + 1) reader processed c).2 := by
      obtain ⟨never, same⟩ := @processLoop_unread crc32 ring reader fuel processed unread c
      rw [same]
      exact ⟨fun vs _ reads => absurd reads (never vs), weak reader c initial⟩
    cases read : readNext ring reader with
    | mk result after =>
      cases result with
      | error e => exact .inr (stops (by rw [read]; nofun))
      | fault => exact .inr (stops (by rw [read]; nofun))
      | ok found =>
        cases found with
        | none =>
          obtain ⟨_, rfl⟩ := readNext_none_iff.mp read
          exact .inl ⟨processed, reader, [], c, .done read, rfl, initial, by simp only [processLoop, read]⟩
        | some v =>
          have moves := readNext_moves read
          have ends := entry reader v after c read initial
          unfold Method.Ends at ends
          cases ran : processEntry crc32 v c with
          | mk result k =>
            simp only [ran] at ends
            cases result with
            | fault => exact ends.elim
            | error e =>
              refine .inr ⟨?_, ?_⟩
              · intro vs m reads all
                obtain ⟨rest, rfl, _⟩ := reads_next read reads
                rw [processAll, Method.bind_run_error ran] at all
                cases all
              · simpa only [processLoop, read, Method.bind_run_error ran] using ends
            | ok u =>
              simp only [processLoop, read, Method.bind_run ran]
              rcases @ih (processed + 1) after k (by omega) ends with
                ⟨n, last, rest, m, reads, all, here, same⟩ | ⟨never, stopped⟩
              · refine .inl ⟨n, last, v :: rest, m, .next read reads, ?_, here, same⟩
                rw [processAll, Method.bind_run ran, all]
              · refine .inr ⟨?_, stopped⟩
                intro vs m reads all
                obtain ⟨rest, rfl, tail⟩ := reads_next read reads
                rw [processAll, Method.bind_run ran] at all
                exact never rest m tail all

theorem processUpdates_cases {ring : Ring} {I : RingBufferReader → DeltaConsumer → Prop}
    {K : DeltaConsumer → Prop} (weak : ∀ reader t, I reader t → K t)
    (entry : ∀ reader v after t, readNext ring reader = (.ok (some v), after) → I reader t →
      Method.Ends (processEntry crc32 v) t (fun _ m => I after m) K)
    {c : DeltaConsumer} (initial : I fresh c) :
    (∃ n m, ReachesFlush crc32 ring c m ∧ K m ∧
      (processUpdates crc32 ring c).2 = (finishUpdates crc32 n m).2) ∨
    (∀ m, ¬ ReachesFlush crc32 ring c m) ∧ K (processUpdates crc32 ring c).2 := by
  unfold processUpdates
  by_cases short : ring.mapped < ringHeaderSize
  · have failed : openFile ring = .error .invalidSize := by simp [openFile, short]
    simp only [failed]
    refine .inr ⟨?_, weak fresh c initial⟩
    rintro m ⟨opened, _⟩
    rw [failed] at opened
    cases opened
  · have opened : openFile ring = .ok fresh := by simp [openFile, short, fresh]
    simp only [opened]
    have enough : ring.header.writePos - fresh.readPos < ring.header.writePos + 1 := by
      simp [fresh]
    rcases processLoop_cases weak entry enough initial with
      ⟨n, last, vs, m, reads, all, here, same⟩ | ⟨never, stopped⟩
    · exact .inl ⟨n, m, ⟨opened, vs, reads, all⟩, weak last m here, same⟩
    · refine .inr ⟨?_, stopped⟩
      rintro m ⟨_, vs, reads, all⟩
      exact never vs m reads all

theorem openSegment_open (slot : UInt64) {c : DeltaConsumer} {w : SegmentWriter}
    (present : c.state.currentSegment = some w) : openSegment crc32 slot c = (.ok (), c) := by
  simp only [openSegment, present]

theorem openSegment_ends (slot : UInt64) {c : DeltaConsumer} (absent : c.state.currentSegment = none) :
    Method.Ends (openSegment crc32 slot) c
      (fun _ t => ∃ w disk, t = opened slot w disk c ∧ c.disk.next.1 = none ∧
        w.file.path = c.config.segmentPath slot ∧ w.header.startSlot = slot ∧ Carries (disk, w) [] ∧
          OnlyAt (c.config.segmentPath slot) c.disk disk)
      (fun t => ∃ disk, t = { c with disk := disk } ∧ OnlyAt (c.config.segmentPath slot) c.disk disk ∧
        (c.disk.next.1 ≠ none → disk.files = c.disk.files)) := by
  have created := @create_ends crc32 (c.config.segmentPath slot) slot c.disk
  unfold Method.Ends at created
  unfold Method.Ends openSegment
  rw [absent]
  cases ran : create crc32 (c.config.segmentPath slot) slot c.disk with
  | mk result disk =>
    simp only [ran] at created ⊢
    cases result with
    | ok w => exact ⟨w, disk, rfl, created⟩
    | error e => exact ⟨disk, rfl, created⟩
    | fault => exact created

theorem appendEntry_ends (v : RingEntryView) {c : DeltaConsumer} {w : SegmentWriter}
    (present : c.state.currentSegment = some w) : Method.Ends (appendEntry v) c
      (fun _ t => ∃ offset after disk, t = extended v offset after disk c ∧
        Continues (c.disk, w) (disk, after) ∧ ∀ pieces, Carries (c.disk, w) pieces →
          Carries (disk, after) (pieces ++ [segmentBytes v]))
      (fun t => ∃ after disk, t = moved after disk c ∧ Continues (c.disk, w) (disk, after)) := by
  have ends := append_ends v.slot v.writeVersion v.pubkey v.data (c.disk, w)
  unfold Method.Ends at ends
  unfold Method.Ends appendEntry
  rw [present]
  cases ran : append v.slot v.writeVersion v.pubkey v.data (c.disk, w) with
  | mk result t =>
    simp only [ran] at ends ⊢
    cases result with
    | ok offset => exact ⟨offset, t.2, t.1, rfl, ends⟩
    | error e => exact ⟨t.2, t.1, rfl, ends⟩
    | fault => exact ends

/-- An entry goes to the open segment, or opens one first. -/
theorem processEntry_rule {v : RingEntryView} {c : DeltaConsumer} {I J K : DeltaConsumer → Prop}
    (ready : c.state.currentSegment ≠ none → J (reduce v.pubkey v c))
    (opens : c.state.currentSegment = none → ∀ w disk, c.disk.next.1 = none →
      w.file.path = c.config.segmentPath v.slot → w.header.startSlot = v.slot → Carries (disk, w) [] →
        OnlyAt (c.config.segmentPath v.slot) c.disk disk →
          J (opened v.slot w disk (reduce v.pubkey v c)))
    (fails : c.state.currentSegment = none → ∀ disk, OnlyAt (c.config.segmentPath v.slot) c.disk disk →
      (c.disk.next.1 ≠ none → disk.files = c.disk.files) → K { reduce v.pubkey v c with disk := disk })
    (appends : ∀ m w, m.state.currentSegment = some w → J m →
      Method.Ends (appendEntry v) m (fun _ t => I t) K) :
    Method.Ends (processEntry crc32 v) c (fun _ t => I t) K := by
  have valid := (Pubkey.tryFrom_eq_some v.pubkey.toList v.pubkey).mpr rfl
  simp only [processEntry, valid, writeToSegment, Method.ends_bind, Method.ends_modify]
  cases present : c.state.currentSegment with
  | some w =>
    have same : (reduce v.pubkey v c).state.currentSegment = some w := present
    have here := ready (by rw [present]; exact Option.some_ne_none w)
    exact Method.ends_of_run (openSegment_open v.slot same) _ (appends _ w same here)
  | none =>
    have absent : (reduce v.pubkey v c).state.currentSegment = none := present
    apply (openSegment_ends v.slot absent).mono
    · intro _ m found
      obtain ⟨w, disk, rfl, free, path, startSlot, empty, only⟩ := found
      exact appends _ w rfl (opens present w disk free path startSlot empty only)
    · intro t found
      obtain ⟨disk, rfl, only, failed⟩ := found
      exact fails present disk only failed

/-- The start sets a flag and creates a directory. -/
theorem start_leaves (c : DeltaConsumer) : ∃ running disk, disk.files = c.disk.files ∧
    (start c).2 = { c with disk := disk, state := { c.state with running := running } } := by
  have ends : Method.Ends start c
      (fun _ t => ∃ running disk, disk.files = c.disk.files ∧
        t = { c with disk := disk, state := { c.state with running := running } })
      (fun t => ∃ running disk, disk.files = c.disk.files ∧
        t = { c with disk := disk, state := { c.state with running := running } }) := by
    unfold start
    simp only [Method.ends_bind, Method.ends_get]
    split
    · exact ⟨c.state.running, c.disk, rfl, rfl⟩
    · simp only [Method.ends_bind, Method.ends_modify, Method.ends_zoom]
      exact (BufWriter.attempt_ends c.disk).mono (fun _ disk same => ⟨true, disk, same.2, rfl⟩)
        (fun disk same => ⟨true, disk, same.2, rfl⟩)
  exact ends.state fun _ _ left => left

def halted (c : DeltaConsumer) : DeltaConsumer :=
  setState (fun state => { state with running := false }) c

theorem stop_idle {c : DeltaConsumer} (absent : c.state.currentSegment = none) :
    stop crc32 c = halted c := by
  simp only [stop, absent, halted, setState]

theorem stop_open {c : DeltaConsumer} {w : SegmentWriter} (present : c.state.currentSegment = some w) :
    stop crc32 c = halted (abandoned (finalize crc32 (c.disk, w)).2.1 c) := by
  simp only [stop, present, halted, setState, abandoned]

/-- At the flush the writer is kept, or its segment is registered, or it is lost. -/
theorem finishUpdates_ends (n : Nat) (c : DeltaConsumer) : Method.Ends (finishUpdates crc32 n) c
    (fun _ t => (t = counted n c ∧
        (c.config.flushBatchSize ≤ c.state.currentSegmentEntries → c.state.currentSegment = none)) ∨
      ∃ w info disk after, c.config.flushBatchSize ≤ c.state.currentSegmentEntries ∧
        c.state.currentSegment = some w ∧ finalize crc32 (c.disk, w) = (.ok info, disk, after) ∧
          t = registered info disk (counted n c))
    (fun t => ∃ w e disk after, c.config.flushBatchSize ≤ c.state.currentSegmentEntries ∧
      c.state.currentSegment = some w ∧ finalize crc32 (c.disk, w) = (.error e, disk, after) ∧
        t = abandoned disk (counted n c)) := by
  unfold finishUpdates
  simp only [Method.ends_bind, Method.ends_modify, Method.ends_pure]
  have kept (idle : c.config.flushBatchSize ≤ c.state.currentSegmentEntries →
      c.state.currentSegment = none) : maybeFlushSegment crc32 (counted n c) = (.ok (), counted n c) := by
    by_cases due : c.config.flushBatchSize ≤ c.state.currentSegmentEntries
    · simp [maybeFlushSegment, counted, setState, idle due]
    · simp [maybeFlushSegment, counted, setState, due]
  by_cases due : c.config.flushBatchSize ≤ c.state.currentSegmentEntries
  · cases present : c.state.currentSegment with
    | none => exact Method.ends_of_run (kept fun _ => present) _ (.inl ⟨rfl, fun _ => rfl⟩)
    | some w =>
      have ends := @finalize_ends crc32 (c.disk, w)
      unfold Method.Ends at ends
      cases ran : finalize crc32 (c.disk, w) with
      | mk result t =>
        rw [ran] at ends
        cases result with
        | fault => exact ends.elim
        | ok info =>
          have flushed : maybeFlushSegment crc32 (counted n c) =
              (.ok (), registered info t.1 (counted n c)) := by
            simp [maybeFlushSegment, counted, setState, due, present, ran, registered, segmentMeta]
          exact Method.ends_of_run flushed _ (.inr ⟨w, info, t.1, t.2, due, rfl, ran, rfl⟩)
        | error e =>
          have failed : maybeFlushSegment crc32 (counted n c) =
              (.error (.segmentWriter e), abandoned t.1 (counted n c)) := by
            simp [maybeFlushSegment, counted, setState, due, present, ran, abandoned]
          exact Method.ends_of_error failed _ ⟨w, e, t.1, t.2, due, rfl, ran, rfl⟩
  · have idle (reached : c.config.flushBatchSize ≤ c.state.currentSegmentEntries) :
        c.state.currentSegment = none := absurd reached due
    exact Method.ends_of_run (kept idle) _ (.inl ⟨rfl, idle⟩)

/-- The entries of all segments, in the order they were appended. -/
def recorded (c : DeltaConsumer) : List RingEntryView := c.segments.reverse.flatMap (·.entries)

/-- The writer, if there is one, writes the newest segment; registrations and
files are named after the slot a segment was opened for. -/
structure Tracked (c : DeltaConsumer) : Prop where
  recorded : c.recorded = c.appendedEntries
  named : ∀ r ∈ c.segments, r.path = c.config.segmentPath r.startSlot
  slots : ∀ r ∈ c.segments, ∀ m, r.registered = some m → m.startSlot = r.startSlot
  current : ∀ w, c.state.currentSegment = some w → ∃ r rest, c.segments = r :: rest ∧
    w.file.path = r.path ∧ w.header.startSlot = r.startSlot ∧ r.registered = none

theorem closed_none {c : DeltaConsumer} (absent : c.state.currentSegment = none) :
    c.closed = c.segments := by
  rw [closed, absent]

theorem closed_some {c : DeltaConsumer} {w : SegmentWriter} {r : SegmentRecord}
    {rest : List SegmentRecord} (present : c.state.currentSegment = some w)
    (segments : c.segments = r :: rest) : c.closed = rest := by
  rw [closed, present, segments, List.tail_cons]

theorem extended_segments {c : DeltaConsumer} {r : SegmentRecord} {rest : List SegmentRecord}
    (v : RingEntryView) (offset : UInt64) (w : SegmentWriter) (disk : Disk)
    (segments : c.segments = r :: rest) : (extended v offset w disk c).segments =
      { r with entries := r.entries ++ [v] } :: rest := by
  simp only [extended, segments, List.modifyHead_cons]

theorem registered_segments {c : DeltaConsumer} {r : SegmentRecord} {rest : List SegmentRecord}
    (info : SegmentInfo) (disk : Disk) (segments : c.segments = r :: rest) :
    (registered info disk c).segments =
      { r with registered := some (segmentMeta info c) } :: rest := by
  simp only [registered, segments, List.modifyHead_cons]

namespace Tracked

theorem congr {c t : DeltaConsumer} (h : Tracked c) (config : t.config = c.config)
    (segments : t.segments = c.segments) (current : t.state.currentSegment = c.state.currentSegment)
    (appended : t.appended = c.appended) : Tracked t := by
  constructor
  · rw [DeltaConsumer.recorded, appendedEntries, segments, appended]
    exact h.recorded
  · rw [segments, config]
    exact h.named
  · rw [segments]
    exact h.slots
  · rw [segments, current]
    exact h.current

theorem opened {slot : UInt64} {w : SegmentWriter} {disk : Disk} {c : DeltaConsumer} (h : Tracked c)
    (path : w.file.path = c.config.segmentPath slot) (startSlot : w.header.startSlot = slot) :
    Tracked (opened slot w disk c) where
  recorded := by
    refine Eq.trans ?_ h.recorded
    simp [DeltaConsumer.recorded, DeltaConsumer.opened]
  named r member := by
    rcases List.mem_cons.mp member with rfl | old
    · rfl
    · exact h.named r old
  slots r member m known := by
    rcases List.mem_cons.mp member with rfl | old
    · cases known
    · exact h.slots r old m known
  current w' same := by
    cases same
    exact ⟨_, c.segments, rfl, path, startSlot, rfl⟩

theorem moved {c : DeltaConsumer} {w after : SegmentWriter} {disk : Disk} (h : Tracked c)
    (present : c.state.currentSegment = some w) (stays : Stays (c.disk, w) (disk, after)) :
    Tracked (moved after disk c) where
  recorded := h.recorded
  named := h.named
  slots := h.slots
  current w' same := by
    cases same
    obtain ⟨r, rest, segments, path, startSlot, unregistered⟩ := h.current w present
    exact ⟨r, rest, segments, stays.frame.path.trans path, stays.startSlot.trans startSlot, unregistered⟩

theorem extended {c : DeltaConsumer} {w after : SegmentWriter} {disk : Disk} (h : Tracked c)
    (present : c.state.currentSegment = some w) (stays : Stays (c.disk, w) (disk, after))
    (v : RingEntryView) (offset : UInt64) : Tracked (extended v offset after disk c) := by
  obtain ⟨r, rest, segments, path, startSlot, unregistered⟩ := h.current w present
  have named := h.named
  have slots := h.slots
  rw [segments] at named slots
  have more := extended_segments v offset after disk segments
  have recorded := h.recorded
  rw [DeltaConsumer.recorded, segments] at recorded
  constructor
  · rw [DeltaConsumer.recorded, more]
    simp only [List.reverse_cons, List.flatMap_append, List.flatMap_singleton] at recorded ⊢
    rw [← List.append_assoc, recorded]
    simp [appendedEntries, DeltaConsumer.extended]
  · rw [more]
    exact List.forall_mem_cons.mpr (List.forall_mem_cons.mp named)
  · rw [more]
    exact List.forall_mem_cons.mpr (List.forall_mem_cons.mp slots)
  · rintro w' ⟨⟩
    exact ⟨_, rest, more, stays.frame.path.trans path, stays.startSlot.trans startSlot, unregistered⟩

theorem abandoned {c : DeltaConsumer} (h : Tracked c) (disk : Disk) : Tracked (abandoned disk c) where
  recorded := h.recorded
  named := h.named
  slots := h.slots
  current _ none := nomatch none

theorem registered {c : DeltaConsumer} {w : SegmentWriter} {info : SegmentInfo} (h : Tracked c)
    (present : c.state.currentSegment = some w) (startSlot : info.startSlot = w.header.startSlot)
    (disk : Disk) : Tracked (registered info disk c) := by
  obtain ⟨r, rest, segments, _, slot, _⟩ := h.current w present
  have named := h.named
  have slots := h.slots
  rw [segments] at named slots
  simp only [List.forall_mem_cons] at named slots
  have more := registered_segments info disk segments
  constructor
  · refine Eq.trans ?_ h.recorded
    rw [DeltaConsumer.recorded, DeltaConsumer.recorded, more, segments]
    simp only [List.reverse_cons, List.flatMap_append, List.flatMap_singleton]
  · rw [more]
    exact List.forall_mem_cons.mpr named
  · rw [more]
    refine List.forall_mem_cons.mpr ⟨?_, slots.2⟩
    rintro m ⟨⟩
    exact startSlot.trans slot
  · intro w' none
    cases none

end Tracked

end DeltaConsumer

end Hyperplane
