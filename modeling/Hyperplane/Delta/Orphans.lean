import Hyperplane.Delta.History

/-! Whether every appended entry can be found: in the open segment or in a
registered one. A segment is closed by a flush or by stop. -/
namespace Hyperplane
open Transition RingBufferReader SegmentWriter Maps

namespace DeltaConsumer

variable {crc32 : List UInt8 → UInt32}

/-- Every entry appended is in a segment. Every closed segment with entries is
registered, and no later segment has its registration. -/
structure NoneOrphaned (c : DeltaConsumer) : Prop where
  recorded : c.recorded = c.appendedEntries
  listed : ∀ r ∈ c.closed, r.entries ≠ [] →
    ∃ m, r.registered = some m ∧ m ∈ c.deltaLocator.getAllSegments
  apart : c.segments.Pairwise fun newer older => older.entries ≠ [] → newer.registered ≠ older.registered

/-- Nothing was appended to the newest segment. -/
def NewestEmpty (c : DeltaConsumer) : Prop := ∀ r ∈ c.segments.head?, r.entries = []

/-- A flush that is due can finalize its segment, and no closed segment with
entries was opened for the same slot. One that fails has no entries to lose. -/
def FlushRegisters (crc32 : List UInt8 → UInt32) (c : DeltaConsumer) : Prop :=
  c.config.flushBatchSize ≤ c.state.currentSegmentEntries → ∀ w, c.state.currentSegment = some w →
    match (finalize crc32 (c.disk, w)).1 with
    | .ok _ => ∀ r ∈ c.closed, r.entries ≠ [] → r.startSlot ≠ w.header.startSlot
    | _ => NewestEmpty c

def Registers (crc32 : List UInt8 → UInt32) (c : DeltaConsumer) : ConsumerCall → Prop
  | .start => True
  | .processUpdates ring => ∀ m, ReachesFlush crc32 ring c m → FlushRegisters crc32 m
  | .stop => c.state.currentSegment ≠ none → NewestEmpty c

structure Settled (c : DeltaConsumer) : Prop extends Tracked c where
  kept : NoneOrphaned c
  keyed : c.deltaLocator.Keyed

namespace Settled

theorem congr {c t : DeltaConsumer} (h : Settled c) (config : t.config = c.config)
    (segments : t.segments = c.segments) (current : t.state.currentSegment = c.state.currentSegment)
    (locator : t.deltaLocator = c.deltaLocator) (appended : t.appended = c.appended) : Settled t := by
  have closed : t.closed = c.closed := by
    rw [DeltaConsumer.closed, DeltaConsumer.closed, current, segments]
  have tracked := h.toTracked.congr config segments current appended
  constructor
  · exact tracked
  · constructor
    · exact tracked.recorded
    · rw [closed, locator]
      exact h.kept.listed
    · rw [segments]
      exact h.kept.apart
  · rw [locator]
    exact h.keyed

theorem opened {c : DeltaConsumer} (h : Settled c) {slot : UInt64} {w : SegmentWriter} {disk : Disk}
    (absent : c.state.currentSegment = none) (path : w.file.path = c.config.segmentPath slot)
    (startSlot : w.header.startSlot = slot) : Settled (opened slot w disk c) := by
  have listed := h.kept.listed
  rw [closed_none absent] at listed
  have tracked : Tracked (DeltaConsumer.opened slot w disk c) := h.toTracked.opened path startSlot
  refine ⟨tracked, ⟨tracked.recorded, ?_, ?_⟩, h.keyed⟩
  · rw [closed_some rfl rfl]
    exact listed
  · refine List.pairwise_cons.mpr ⟨?_, h.kept.apart⟩
    intro r member some same
    obtain ⟨m, known, _⟩ := listed r member some
    rw [known] at same
    cases same

theorem moved {c : DeltaConsumer} (h : Settled c) {w after : SegmentWriter} {disk : Disk}
    (present : c.state.currentSegment = some w) (stays : Stays (c.disk, w) (disk, after)) :
    Settled (moved after disk c) := by
  obtain ⟨r, rest, segments, _, _, _⟩ := h.current w present
  have listed := h.kept.listed
  rw [closed_some present segments] at listed
  have closed : (DeltaConsumer.moved after disk c).closed = rest := closed_some rfl segments
  refine ⟨h.toTracked.moved present stays, ⟨h.recorded, ?_, h.kept.apart⟩, h.keyed⟩
  rw [closed]
  exact listed

theorem extended {c : DeltaConsumer} (h : Settled c) {w after : SegmentWriter} {disk : Disk}
    (present : c.state.currentSegment = some w) (stays : Stays (c.disk, w) (disk, after))
    (v : RingEntryView) (offset : UInt64) : Settled (extended v offset after disk c) := by
  obtain ⟨r, rest, segments, _, _, _⟩ := h.current w present
  have listed := h.kept.listed
  have apart := h.kept.apart
  rw [closed_some present segments] at listed
  rw [segments] at apart
  have more := extended_segments v offset after disk segments
  have closed : (DeltaConsumer.extended v offset after disk c).closed = rest := closed_some rfl more
  have tracked := h.toTracked.extended present stays v offset
  refine ⟨tracked, ⟨tracked.recorded, ?_, ?_⟩, h.keyed⟩
  · rw [closed]
    exact listed
  · rw [more]
    exact List.pairwise_cons.mpr (List.pairwise_cons.mp apart)

/-- A segment that is closed without being registered must have no entries. -/
theorem abandoned {c : DeltaConsumer} (h : Settled c) {w : SegmentWriter}
    (present : c.state.currentSegment = some w) (disk : Disk) :
    Tracked (abandoned disk c) ∧ (abandoned disk c).deltaLocator.Keyed ∧
      (NoneOrphaned (abandoned disk c) ↔ NewestEmpty c) := by
  obtain ⟨r, rest, segments, _, _, unregistered⟩ := h.current w present
  have listed := h.kept.listed
  rw [closed_some present segments] at listed
  have closed : (DeltaConsumer.abandoned disk c).closed = r :: rest := (closed_none rfl).trans segments
  have newest : NewestEmpty c ↔ r.entries = [] := by simp [NewestEmpty, segments]
  refine ⟨h.toTracked.abandoned disk, h.keyed, ?_⟩
  rw [newest]
  constructor
  · intro settled
    by_contra some
    obtain ⟨m, known, _⟩ := settled.listed r (closed ▸ List.mem_cons_self) some
    rw [unregistered] at known
    cases known
  · intro empty
    refine ⟨h.recorded, ?_, h.kept.apart⟩
    rw [closed]
    exact List.forall_mem_cons.mpr ⟨fun some => absurd empty some, listed⟩

section registered

variable {c : DeltaConsumer} (h : Settled c) {w : SegmentWriter} {info : SegmentInfo}
  (present : c.state.currentSegment = some w) (startSlot : info.startSlot = w.header.startSlot)
  (disk : Disk)

include h in
theorem registered_keyed : (registered info disk c).deltaLocator.Keyed :=
  h.keyed.registerSegment (segmentMeta info c)

include h present startSlot

/-- The new registration takes the place of one under the same slot. -/
theorem unused_of_registered (kept : NoneOrphaned (registered info disk c)) :
    ∀ r ∈ c.closed, r.entries ≠ [] → r.startSlot ≠ w.header.startSlot := by
  obtain ⟨r, rest, segments, _, _, _⟩ := h.current w present
  have slots := h.slots
  have listed := kept.listed
  have apart := kept.apart
  have more := registered_segments info disk segments
  have closed : (DeltaConsumer.registered info disk c).closed = _ :: rest := (closed_none rfl).trans more
  rw [segments] at slots
  rw [closed] at listed
  rw [more] at apart
  rw [closed_some present segments]
  intro s member some same
  obtain ⟨m, known, still⟩ := listed s (List.mem_cons_of_mem _ member) some
  have there := (DeltaLocator.mem_getAllSegments (h.registered_keyed disk) m).mp still
  rw [slots s (List.mem_cons_of_mem r member) m known, same, ← startSlot] at there
  -- What is found there is the new registration, so the two segments share it.
  have found : Option.some (segmentMeta info c) = Option.some m :=
    Std.TreeMap.getElem?_insert_self.symm.trans there
  exact List.rel_of_pairwise_cons apart member some (found.trans known.symm)

theorem registered_of_unused
    (unused : ∀ r ∈ c.closed, r.entries ≠ [] → r.startSlot ≠ w.header.startSlot) :
    NoneOrphaned (registered info disk c) := by
  obtain ⟨r, rest, segments, _, _, _⟩ := h.current w present
  have listed := h.kept.listed
  have apart := h.kept.apart
  have slots := h.slots
  rw [closed_some present segments] at listed unused
  rw [segments] at apart slots
  have keyed : (DeltaConsumer.registered info disk c).deltaLocator.Keyed := h.registered_keyed disk
  have more := registered_segments info disk segments
  have closed : (DeltaConsumer.registered info disk c).closed = _ :: rest := (closed_none rfl).trans more
  have other (s : SegmentRecord) (member : s ∈ rest) (some : s.entries ≠ []) (m : DeltaSegmentMeta)
      (known : s.registered = Option.some m) : m.startSlot ≠ info.startSlot := by
    rw [slots s (List.mem_cons_of_mem r member) m known, startSlot]
    exact unused s member some
  constructor
  · exact (h.toTracked.registered present startSlot disk).recorded
  · rw [closed]
    refine List.forall_mem_cons.mpr ⟨?_, ?_⟩
    · intro _
      refine ⟨segmentMeta info c, rfl, (DeltaLocator.mem_getAllSegments keyed _).mpr ?_⟩
      exact Std.TreeMap.getElem?_insert_self
    · intro s member some
      obtain ⟨m, known, still⟩ := listed s member some
      have before := (DeltaLocator.mem_getAllSegments h.keyed m).mp still
      refine ⟨m, known, (DeltaLocator.mem_getAllSegments keyed m).mpr ?_⟩
      exact (getElem?_insert_ne _ (other s member some m known) _).trans before
  · rw [more]
    refine List.pairwise_cons.mpr ⟨?_, (List.pairwise_cons.mp apart).2⟩
    intro s member some same
    exact other s member some _ same.symm rfl

theorem registered :
    Tracked (registered info disk c) ∧ (registered info disk c).deltaLocator.Keyed ∧
      (NoneOrphaned (registered info disk c) ↔
        ∀ r ∈ c.closed, r.entries ≠ [] → r.startSlot ≠ w.header.startSlot) :=
  ⟨h.toTracked.registered present startSlot disk, h.registered_keyed disk,
    h.unused_of_registered present startSlot disk, h.registered_of_unused present startSlot disk⟩

end registered

theorem processEntry {c : DeltaConsumer} (h : Settled c) (v : RingEntryView) :
    Method.Ends (processEntry crc32 v) c (fun _ t => Settled t) Settled := by
  have reduced : Settled (reduce v.pubkey v c) := h.congr rfl rfl rfl rfl rfl
  apply processEntry_rule (J := Settled)
  · exact fun _ => reduced
  · intro absent w disk _ path startSlot _ _
    exact reduced.opened absent path startSlot
  · intro absent disk _ _
    exact h.congr rfl rfl rfl rfl rfl
  · intro m w present settled
    apply (appendEntry_ends v present).mono
    · intro _ t done
      obtain ⟨offset, after, disk, rfl, continues, _⟩ := done
      exact settled.extended present continues.toStays v offset
    · intro t done
      obtain ⟨after, disk, rfl, continues⟩ := done
      exact settled.moved present continues.toStays

theorem finishUpdates {c : DeltaConsumer} (h : Settled c) (n : Nat) :
    Tracked (finishUpdates crc32 n c).2 ∧ (finishUpdates crc32 n c).2.deltaLocator.Keyed ∧
      (NoneOrphaned (finishUpdates crc32 n c).2 ↔ FlushRegisters crc32 c) := by
  have counted : Settled (counted n c) := h.congr rfl rfl rfl rfl rfl
  have ends := (@finishUpdates_ends crc32 n c).mono
    (R := fun _ t => Tracked t ∧ t.deltaLocator.Keyed ∧ (NoneOrphaned t ↔ FlushRegisters crc32 c))
    (K := fun t => Tracked t ∧ t.deltaLocator.Keyed ∧ (NoneOrphaned t ↔ FlushRegisters crc32 c)) ?_ ?_
  · exact ends.state fun _ _ kept => kept
  · rintro _ t (⟨rfl, idle⟩ | ⟨w, info, disk, after, due, present, ran, rfl⟩)
    · refine ⟨counted.toTracked, counted.keyed, iff_of_true counted.kept ?_⟩
      intro due w present
      rw [idle due] at present
      cases present
    · have startSlot := ((@finalize_ends crc32 (c.disk, w)).ok ran).1
      obtain ⟨tracked, keyed, settled⟩ := counted.registered (w := w) present startSlot disk
      refine ⟨tracked, keyed, settled.trans ?_⟩
      have here : FlushRegisters crc32 c ↔
          ∀ r ∈ c.closed, r.entries ≠ [] → r.startSlot ≠ w.header.startSlot := by
        simp [FlushRegisters, due, present, ran]
      exact here.symm
  · rintro t ⟨w, e, disk, after, due, present, ran, rfl⟩
    obtain ⟨tracked, keyed, settled⟩ := counted.abandoned (w := w) present disk
    refine ⟨tracked, keyed, settled.trans ?_⟩
    have here : FlushRegisters crc32 c ↔ NewestEmpty c := by
      simp [FlushRegisters, due, present, ran]
    exact here.symm

theorem processUpdates {c : DeltaConsumer} (h : Settled c) (ring : Ring) :
    Tracked (processUpdates crc32 ring c).2 ∧ (processUpdates crc32 ring c).2.deltaLocator.Keyed ∧
      (NoneOrphaned (processUpdates crc32 ring c).2 ↔ Registers crc32 c (.processUpdates ring)) := by
  have entry : ∀ reader v after t, readNext ring reader = (.ok (some v), after) → Settled t →
      Method.Ends (DeltaConsumer.processEntry crc32 v) t (fun _ m => Settled m) Settled :=
    fun _ v _ _ _ settled => settled.processEntry v
  rcases processUpdates_cases (I := fun _ t => Settled t) (fun _ _ settled => settled) entry h with
    ⟨n, m, reaches, settled, same⟩ | ⟨never, settled⟩
  · have only : FlushRegisters crc32 m ↔ Registers crc32 c (.processUpdates ring) := by
      constructor
      · intro registers k again
        exact reachesFlush_unique reaches again ▸ registers
      · intro registers
        exact registers m reaches
    rw [same, ← only]
    exact settled.finishUpdates n
  · exact ⟨settled.toTracked, settled.keyed,
      iff_of_true settled.kept fun m reaches => absurd reaches (never m)⟩

theorem stop {c : DeltaConsumer} (h : Settled c) :
    Tracked (stop crc32 c) ∧ (stop crc32 c).deltaLocator.Keyed ∧
      (NoneOrphaned (stop crc32 c) ↔ Registers crc32 c .stop) := by
  cases present : c.state.currentSegment with
  | none =>
    have stopped : Settled (halted c) := h.congr rfl rfl rfl rfl rfl
    rw [stop_idle present]
    exact ⟨stopped.toTracked, stopped.keyed, iff_of_true stopped.kept fun some => absurd present some⟩
  | some w =>
    let t := DeltaConsumer.abandoned (finalize crc32 (c.disk, w)).2.1 c
    obtain ⟨tracked, keyed, settled⟩ := h.abandoned present (finalize crc32 (c.disk, w)).2.1
    have same : NoneOrphaned (halted t) ↔ NoneOrphaned t :=
      ⟨fun kept => ⟨kept.recorded, kept.listed, kept.apart⟩,
        fun kept => ⟨kept.recorded, kept.listed, kept.apart⟩⟩
    rw [stop_open present]
    refine ⟨tracked.congr rfl rfl rfl rfl, keyed, same.trans (settled.trans ?_)⟩
    simp [Registers, present]

theorem call {c : DeltaConsumer} (h : Settled c) (a : ConsumerCall) :
    Tracked (call crc32 c a) ∧ (call crc32 c a).deltaLocator.Keyed ∧
      (NoneOrphaned (call crc32 c a) ↔ Registers crc32 c a) := by
  cases a with
  | start =>
    obtain ⟨running, disk, _, same⟩ := start_leaves c
    have started : Settled (DeltaConsumer.call crc32 c .start) := by
      rw [DeltaConsumer.call, same]
      exact h.congr rfl rfl rfl rfl rfl
    exact ⟨started.toTracked, started.keyed, iff_of_true started.kept trivial⟩
  | processUpdates ring => exact h.processUpdates ring
  | stop => exact h.stop

theorem new (config : DeltaConsumerConfig) (disk : Disk) {locator : DeltaLocator}
    (keyed : locator.Keyed) : Settled (new config locator disk) where
  named := by simp [DeltaConsumer.new]
  slots := by simp [DeltaConsumer.new]
  recorded := rfl
  current := by simp [DeltaConsumer.new]
  kept := ⟨rfl, by simp [DeltaConsumer.new, closed], .nil⟩
  keyed := keyed

end Settled

/-- In every run no entry is orphaned exactly as long as every flush registers
its segment and stop finds nothing to lose. -/
theorem none_orphaned_iff (config : DeltaConsumerConfig) (before : List LocatorCall) (disk : Disk)
    (calls : List ConsumerCall) :
    Along (ofFun (call crc32)) (fun _ _ t => NoneOrphaned t)
        (new config (DeltaLocator.reached before) disk) calls ↔
      Along (ofFun (call crc32)) (fun c a _ => Registers crc32 c a)
        (new config (DeltaLocator.reached before) disk) calls := by
  refine along_ofFun_iff Settled ?_ ?_ (Settled.new config disk (DeltaLocator.reached_keyed before)) calls
  · intro c a settled
    exact (settled.call a).2.2
  · intro c a settled registers
    exact ⟨(settled.call a).1, (settled.call a).2.2.mpr registers, (settled.call a).2.1⟩

/-- One entry, and a stop before the batch is full. -/
theorem stop_orphans_entry :
    ¬ Along (ofFun (call fun _ => 0)) (fun _ _ t => NoneOrphaned t)
      (new ⟨"delta", 1000⟩ (DeltaLocator.reached []) .empty)
      [.start, .processUpdates (ringOf ⟨7, 1, Vector.replicate 32 9, [5, 6]⟩), .stop] := by
  intro kept
  have last := ((((kept _ rfl).2 _ rfl).2) _ rfl).1
  have lost : (call (fun _ => 0) (call (fun _ => 0) (call (fun _ => 0)
      (new ⟨"delta", 1000⟩ (DeltaLocator.reached []) .empty) .start)
      (.processUpdates (ringOf ⟨7, 1, Vector.replicate 32 9, [5, 6]⟩))) .stop).closed.map
        (fun r => (r.entries.isEmpty, r.registered.isSome)) = [(false, false)] := by decide +kernel
  obtain ⟨r, closed, record⟩ := List.map_eq_singleton_iff.mp lost
  simp only [Prod.mk.injEq, List.isEmpty_eq_false_iff, Option.isSome_eq_false_iff] at record
  obtain ⟨m, known, _⟩ := last.listed r (closed ▸ List.mem_singleton_self r) record.1
  rw [known] at record
  cases record.2

end DeltaConsumer

end Hyperplane
