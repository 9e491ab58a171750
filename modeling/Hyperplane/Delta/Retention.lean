import Hyperplane.Delta.History

/-! What becomes of entries that were appended. The file of a segment is named
after the slot of its first entry, and opening it truncates it. -/
namespace Hyperplane
open Transition RingBufferReader SegmentWriter Maps

namespace DeltaConsumer

variable {crc32 : List UInt8 → UInt32}

/-- Every entry appended is in a segment. Segments have files of their own that
hold their entries, the files of closed segments stay as they are, and registered
segments are listed. -/
structure KeepsEntries (before after : DeltaConsumer) : Prop where
  recorded : after.recorded = after.appendedEntries
  apart : after.segments.Pairwise fun r s => r.path ≠ s.path
  held : ∀ r ∈ after.segments, FileHolds after.disk r.path r.pieces
  untouched : ∀ r ∈ before.closed, after.disk.files r.path = before.disk.files r.path
  listed : ∀ r ∈ after.segments, ∀ m, r.registered = some m → m ∈ after.deltaLocator.getAllSegments

/-- When the first entry of a call opens a segment, no segment was opened for its
slot before. -/
def OpensFresh (c : DeltaConsumer) : ConsumerCall → Prop
  | .processUpdates ring => c.state.currentSegment = none → c.disk.next.1 = none →
    ∀ v after, readNext ring fresh = (.ok (some v), after) → ∀ r ∈ c.segments, r.startSlot ≠ v.slot
  | _ => True

theorem segmentPath_injective (config : DeltaConsumerConfig) {a b : UInt64}
    (same : config.segmentPath a = config.segmentPath b) : a = b := by
  unfold DeltaConsumerConfig.segmentPath at same
  have digits : a.toNat.repr = b.toNat.repr :=
    (String.append_right_inj _).mp ((String.append_left_inj _).mp same)
  have list := congrArg String.toList digits
  rw [Nat.toList_repr, Nat.toList_repr] at list
  have numbers := congrArg (Nat.ofDigitChars 10 · 0) list
  simp only [Nat.ofDigitChars_ten_toDigits] at numbers
  exact UInt64.toNat_inj.mp numbers

theorem Tracked.fresh_path {c : DeltaConsumer} (h : Tracked c) {slot : UInt64}
    (unused : ∀ r ∈ c.segments, r.startSlot ≠ slot) :
    ∀ r ∈ c.segments, r.path ≠ c.config.segmentPath slot := by
  intro r member same
  rw [h.named r member] at same
  exact unused r member (segmentPath_injective c.config same)

structure Intact (c : DeltaConsumer) : Prop extends Tracked c where
  apart : c.segments.Pairwise fun r s => r.startSlot ≠ s.startSlot
  listed : ∀ r ∈ c.segments, ∀ m, r.registered = some m →
    c.deltaLocator.segmentsBySlot[r.startSlot]? = some m
  carried : ∀ w r rest, c.state.currentSegment = some w → c.segments = r :: rest →
    Carries (c.disk, w) r.pieces
  held : ∀ r ∈ c.closed, FileHolds c.disk r.path r.pieces

/-- Closed segments stay closed, and their files as they are. -/
def Since (before after : DeltaConsumer) : Prop :=
  ∀ r ∈ before.closed, r ∈ after.closed ∧ after.disk.files r.path = before.disk.files r.path

theorem Since.refl (c : DeltaConsumer) : Since c c := fun _ member => ⟨member, rfl⟩

theorem Since.trans {c m t : DeltaConsumer} (first : Since c m) (second : Since m t) : Since c t := by
  intro r member
  obtain ⟨still, same⟩ := first r member
  obtain ⟨stays, again⟩ := second r still
  exact ⟨stays, again.trans same⟩

structure IntactSince (before after : DeltaConsumer) : Prop extends Intact after where
  since : Since before after

theorem IntactSince.trans {c m t : DeltaConsumer} (first : IntactSince c m)
    (second : IntactSince m t) : IntactSince c t where
  toIntact := second.toIntact
  since := first.since.trans second.since

theorem fileHolds_congr {before after : Disk} {path : String} {pieces : List (List UInt8)}
    (same : after.files path = before.files path) (holds : FileHolds before path pieces) :
    FileHolds after path pieces := by
  obtain ⟨contents, file, inOrder⟩ := holds
  exact ⟨contents, same.trans file, inOrder⟩

namespace Intact

theorem other_path {c : DeltaConsumer} (h : Intact c) {r : SegmentRecord} {rest : List SegmentRecord}
    (segments : c.segments = r :: rest) : ∀ s ∈ rest, s.path ≠ r.path := by
  intro s member same
  have apart := h.apart
  have named := h.named
  rw [segments] at apart named
  rw [named s (List.mem_cons_of_mem r member), named r List.mem_cons_self] at same
  exact List.rel_of_pairwise_cons apart member (segmentPath_injective c.config same).symm

/-- Nothing but the reducer, the statistics and the disk's coming results differ. -/
theorem congr {c t : DeltaConsumer} (h : Intact c) (config : t.config = c.config)
    (segments : t.segments = c.segments) (current : t.state.currentSegment = c.state.currentSegment)
    (locator : t.deltaLocator = c.deltaLocator) (appended : t.appended = c.appended)
    (files : ∀ r ∈ c.segments, t.disk.files r.path = c.disk.files r.path) : IntactSince c t := by
  have closed : t.closed = c.closed := by rw [DeltaConsumer.closed, DeltaConsumer.closed, current, segments]
  have sub : ∀ r ∈ c.closed, r ∈ c.segments := by
    intro r member
    unfold DeltaConsumer.closed at member
    split at member
    · exact member
    · exact List.mem_of_mem_tail member
  refine ⟨⟨h.toTracked.congr config segments current appended, ?_, ?_, ?_, ?_⟩, ?_⟩
  · rw [segments]
    exact h.apart
  · rw [segments, locator]
    exact h.listed
  · rw [segments, current]
    intro w r rest present some
    obtain ⟨contents, atEnd, long, inOrder⟩ := h.carried w r rest present some
    obtain ⟨r', rest', some', path, _, _⟩ := h.current w present
    rw [some] at some'
    cases some'
    have file := files r (by simp [some])
    refine ⟨contents, ⟨?_, atEnd.pos⟩, long, inOrder⟩
    have old := atEnd.file
    simp only [handle, path] at old ⊢
    exact file.trans old
  · rw [closed]
    intro r member
    exact fileHolds_congr (files r (sub r member)) (h.held r member)
  · intro r member
    rw [closed]
    exact ⟨member, files r (sub r member)⟩

theorem opened {c : DeltaConsumer} (h : Intact c) {slot : UInt64} {w : SegmentWriter} {disk : Disk}
    (absent : c.state.currentSegment = none) (path : w.file.path = c.config.segmentPath slot)
    (startSlot : w.header.startSlot = slot) (empty : Carries (disk, w) [])
    (only : OnlyAt (c.config.segmentPath slot) c.disk disk)
    (unused : ∀ r ∈ c.segments, r.startSlot ≠ slot) :
    IntactSince c (opened slot w disk c) := by
  have same : ∀ r ∈ c.segments, disk.files r.path = c.disk.files r.path :=
    fun r member => only r.path (h.fresh_path unused r member)
  have held := h.held
  rw [closed_none absent] at held
  refine ⟨⟨h.toTracked.opened path startSlot, ?_, ?_, ?_, ?_⟩, ?_⟩
  · exact List.pairwise_cons.mpr ⟨fun r member equal => unused r member equal.symm, h.apart⟩
  · refine List.forall_mem_cons.mpr ⟨?_, h.listed⟩
    intro m known
    cases known
  · rintro w' r rest ⟨⟩ segments
    cases segments
    exact empty
  · rw [closed_some rfl rfl]
    intro r member
    exact fileHolds_congr (same r member) (held r member)
  · intro r member
    rw [closed_none absent] at member
    rw [closed_some rfl rfl]
    exact ⟨member, same r member⟩

/-- The writer of the newest segment leaves the others alone. -/
theorem others_kept {c : DeltaConsumer} (h : Intact c) {w after : SegmentWriter} {disk : Disk}
    {r : SegmentRecord} {rest : List SegmentRecord} (present : c.state.currentSegment = some w)
    (segments : c.segments = r :: rest) (stays : Stays (c.disk, w) (disk, after)) :
    ∀ s ∈ rest, disk.files s.path = c.disk.files s.path ∧ FileHolds disk s.path s.pieces := by
  obtain ⟨r', rest', segments', path, _, _⟩ := h.current w present
  rw [segments] at segments'
  cases segments'
  have held := h.held
  rw [closed_some present segments] at held
  intro s member
  have other : s.path ≠ (handle (c.disk, w)).2.path := path.symm ▸ h.other_path segments s member
  have same : disk.files s.path = c.disk.files s.path := stays.frame.others s.path other
  exact ⟨same, fileHolds_congr same (held s member)⟩

/-- All but the newest segment were closed before. -/
theorem since_of_rest {c t : DeltaConsumer} {w : SegmentWriter} {r : SegmentRecord} {rest : List SegmentRecord}
    (present : c.state.currentSegment = some w) (segments : c.segments = r :: rest)
    (inside : ∀ s ∈ rest, s ∈ t.closed)
    (files : ∀ s ∈ rest, t.disk.files s.path = c.disk.files s.path) : Since c t := by
  intro s member
  rw [closed_some present segments] at member
  exact ⟨inside s member, files s member⟩

theorem moved {c : DeltaConsumer} (h : Intact c) {w after : SegmentWriter} {disk : Disk}
    (present : c.state.currentSegment = some w) (continues : Continues (c.disk, w) (disk, after)) :
    IntactSince c (moved after disk c) := by
  obtain ⟨r, rest, segments, _, _, _⟩ := h.current w present
  have kept := h.others_kept present segments continues.toStays
  have closed : (DeltaConsumer.moved after disk c).closed = rest := closed_some rfl segments
  refine ⟨⟨h.toTracked.moved present continues.toStays, h.apart, h.listed, ?_, ?_⟩, ?_⟩
  · rintro w' s others ⟨⟩ again
    exact continues.carries _ (h.carried w s others present again)
  · rw [closed]
    exact fun s member => (kept s member).2
  · exact since_of_rest present segments (fun s member => closed ▸ member) fun s member => (kept s member).1

theorem extended {c : DeltaConsumer} (h : Intact c) {w after : SegmentWriter} {disk : Disk}
    (present : c.state.currentSegment = some w) (stays : Stays (c.disk, w) (disk, after))
    (v : RingEntryView) (offset : UInt64) (carries : ∀ pieces, Carries (c.disk, w) pieces →
      Carries (disk, after) (pieces ++ [segmentBytes v])) :
    IntactSince c (extended v offset after disk c) := by
  obtain ⟨r, rest, segments, _, _, _⟩ := h.current w present
  have kept := h.others_kept present segments stays
  have more := extended_segments v offset after disk segments
  have closed : (DeltaConsumer.extended v offset after disk c).closed = rest := closed_some rfl more
  have apart := h.apart
  have listed := h.listed
  rw [segments] at apart listed
  refine ⟨⟨h.toTracked.extended present stays v offset, ?_, ?_, ?_, ?_⟩, ?_⟩
  · rw [more]
    exact List.pairwise_cons.mpr (List.pairwise_cons.mp apart)
  · rw [more]
    exact List.forall_mem_cons.mpr (List.forall_mem_cons.mp listed)
  · rintro w' s others ⟨⟩ again
    rw [more] at again
    cases again
    have carried := carries _ (h.carried w r rest present segments)
    simp only [SegmentRecord.pieces, List.map_append, List.map_cons, List.map_nil]
    exact carried
  · rw [closed]
    exact fun s member => (kept s member).2
  · exact since_of_rest present segments (fun s member => closed ▸ member) fun s member => (kept s member).1

theorem abandoned {c : DeltaConsumer} (h : Intact c) {w after : SegmentWriter} {disk : Disk}
    (present : c.state.currentSegment = some w) (ended : Sealed (c.disk, w) (disk, after)) :
    IntactSince c (abandoned disk c) := by
  obtain ⟨r, rest, segments, path, _, _⟩ := h.current w present
  have kept := h.others_kept present segments ended.toStays
  have closed : (DeltaConsumer.abandoned disk c).closed = r :: rest := (closed_none rfl).trans segments
  have written := ended.holds _ (h.carried w r rest present segments)
  refine ⟨⟨h.toTracked.abandoned disk, h.apart, h.listed, ?_, ?_⟩, ?_⟩
  · intro w' s others none
    cases none
  · rw [closed]
    exact List.forall_mem_cons.mpr ⟨path ▸ written, fun s member => (kept s member).2⟩
  · exact since_of_rest present segments (fun s member => closed ▸ List.mem_cons_of_mem r member)
      fun s member => (kept s member).1

theorem registered {c : DeltaConsumer} (h : Intact c) {w after : SegmentWriter} {disk : Disk}
    {info : SegmentInfo} (present : c.state.currentSegment = some w)
    (startSlot : info.startSlot = w.header.startSlot) (ended : Sealed (c.disk, w) (disk, after)) :
    IntactSince c (registered info disk c) := by
  obtain ⟨r, rest, segments, path, slot, _⟩ := h.current w present
  have kept := h.others_kept present segments ended.toStays
  have written := ended.holds _ (h.carried w r rest present segments)
  have apart := h.apart
  have listed := h.listed
  rw [segments] at apart listed
  obtain ⟨new, apart⟩ := List.pairwise_cons.mp apart
  let t := DeltaConsumer.registered info disk c
  have locator : t.deltaLocator.segmentsBySlot =
      c.deltaLocator.segmentsBySlot.insert r.startSlot (segmentMeta info c) := by
    rw [← startSlot.trans slot]
    rfl
  have more := registered_segments info disk segments
  have closed : t.closed = { r with registered := some (segmentMeta info c) } :: rest :=
    (closed_none rfl).trans more
  refine ⟨⟨h.toTracked.registered present startSlot disk, ?_, ?_, ?_, ?_⟩, ?_⟩
  · rw [more]
    exact List.pairwise_cons.mpr ⟨new, apart⟩
  · rw [more, locator]
    refine List.forall_mem_cons.mpr ⟨?_, ?_⟩
    · rintro m ⟨⟩
      exact Std.TreeMap.getElem?_insert_self
    · intro s member m known
      rw [getElem?_insert_ne _ (new s member).symm]
      exact listed s (List.mem_cons_of_mem r member) m known
  · intro w' s others none
    cases none
  · rw [closed]
    exact List.forall_mem_cons.mpr ⟨path ▸ written, fun s member => (kept s member).2⟩
  · exact since_of_rest present segments (fun s member => closed ▸ List.mem_cons_of_mem _ member)
      fun s member => (kept s member).1

theorem processEntry {c : DeltaConsumer} (h : Intact c) (v : RingEntryView)
    (unused : c.state.currentSegment = none → c.disk.next.1 = none →
      ∀ r ∈ c.segments, r.startSlot ≠ v.slot) :
    Method.Ends (processEntry crc32 v) c
      (fun _ t => IntactSince c t ∧ t.state.currentSegment ≠ none) (IntactSince c) := by
  have reduced : IntactSince c (reduce v.pubkey v c) := h.congr rfl rfl rfl rfl rfl fun _ _ => rfl
  apply processEntry_rule (J := IntactSince c)
  · exact fun _ => reduced
  · intro absent w disk ready path startSlot empty only
    exact reduced.trans (reduced.opened absent path startSlot empty only (unused absent ready))
  · intro absent disk only failed
    -- The file may have been truncated, but then it was nobody's.
    have files : ∀ r ∈ c.segments, disk.files r.path = c.disk.files r.path := by
      intro r member
      by_cases ready : c.disk.next.1 = none
      · exact only r.path (h.fresh_path (unused absent ready) r member)
      · exact congrFun (failed ready) r.path
    exact h.congr rfl rfl rfl rfl rfl files
  · intro m w present kept
    apply (appendEntry_ends v present).mono
    · intro _ t done
      obtain ⟨offset, after, disk, rfl, continues, carries⟩ := done
      exact ⟨kept.trans (kept.extended present continues.toStays v offset carries), nofun⟩
    · intro t done
      obtain ⟨after, disk, rfl, continues⟩ := done
      exact kept.trans (kept.moved present continues)

theorem finishUpdates {c : DeltaConsumer} (h : Intact c) (n : Nat) :
    IntactSince c (finishUpdates crc32 n c).2 := by
  have kept : IntactSince c (counted n c) := h.congr rfl rfl rfl rfl rfl fun _ _ => rfl
  have ended (w : SegmentWriter) : Method.Ends (finalize crc32) (c.disk, w)
      (fun info t => info.startSlot = w.header.startSlot ∧ Sealed (c.disk, w) t)
      (fun t => Sealed (c.disk, w) t) := finalize_ends (c.disk, w)
  have ends := (@finishUpdates_ends crc32 n c).mono (R := fun _ t => IntactSince c t)
    (K := IntactSince c) ?_ ?_
  · exact ends.state fun _ _ kept => kept
  · intro _ t done
    rcases done with ⟨rfl, _⟩ | ⟨w, info, disk, after, _, present, ran, rfl⟩
    · exact kept
    · obtain ⟨startSlot, closed⟩ := (ended w).ok ran
      exact kept.trans (kept.registered (w := w) present startSlot closed)
  · intro t done
    obtain ⟨w, e, disk, after, _, present, ran, rfl⟩ := done
    exact kept.trans (kept.abandoned (w := w) present ((ended w).error ran))

theorem processUpdates {c : DeltaConsumer} (h : Intact c) {ring : Ring}
    (fresh : OpensFresh c (.processUpdates ring)) :
    IntactSince c (processUpdates crc32 ring c).2 := by
  -- Only the first entry of the call can find no segment open.
  let I (reader : RingBufferReader) (t : DeltaConsumer) : Prop :=
    IntactSince c t ∧ (t.state.currentSegment = none → reader = RingBufferReader.fresh ∧ t = c)
  have entry : ∀ reader v after t, readNext ring reader = (.ok (some v), after) → I reader t →
      Method.Ends (DeltaConsumer.processEntry crc32 v) t (fun _ m => I after m) (IntactSince c) := by
    intro reader v after t read kept
    obtain ⟨kept, first⟩ := kept
    apply (kept.processEntry v _).mono
    · intro _ m done
      exact ⟨kept.trans done.1, fun absent => absurd absent done.2⟩
    · exact fun m done => kept.trans done
    · intro absent ready
      obtain ⟨rfl, rfl⟩ := first absent
      exact fresh absent ready v after read
  have start : IntactSince c c := ⟨h, .refl c⟩
  rcases processUpdates_cases (fun _ _ kept => kept.1) entry ⟨start, fun _ => ⟨rfl, rfl⟩⟩ with
    ⟨n, m, _, kept, same⟩ | ⟨_, kept⟩
  · rw [same]
    exact kept.trans (kept.finishUpdates n)
  · exact kept

theorem call {c : DeltaConsumer} (h : Intact c) {a : ConsumerCall} (fresh : OpensFresh c a) :
    IntactSince c (call crc32 c a) := by
  cases a with
  | start =>
    obtain ⟨running, disk, files, same⟩ := start_leaves c
    rw [DeltaConsumer.call, same]
    exact h.congr rfl rfl rfl rfl rfl fun r _ => congrFun files r.path
  | processUpdates ring => exact h.processUpdates fresh
  | stop =>
    rw [DeltaConsumer.call]
    cases present : c.state.currentSegment with
    | none =>
      rw [stop_idle present]
      exact h.congr rfl rfl rfl rfl rfl fun _ _ => rfl
    | some w =>
      have ended := (@finalize_ends crc32 (c.disk, w)).state fun _ _ closed => closed.2
      have kept := h.abandoned present ended
      rw [stop_open present]
      exact kept.trans (kept.congr rfl rfl rfl rfl rfl fun _ _ => rfl)

theorem new (config : DeltaConsumerConfig) (locator : DeltaLocator) (disk : Disk) :
    Intact (new config locator disk) where
  recorded := rfl
  named := by simp [DeltaConsumer.new]
  slots := by simp [DeltaConsumer.new]
  current := by simp [DeltaConsumer.new]
  apart := .nil
  listed := by simp [DeltaConsumer.new]
  carried := by simp [DeltaConsumer.new]
  held := by simp [DeltaConsumer.new, closed]

end Intact

theorem IntactSince.keepsEntries {before after : DeltaConsumer} (h : IntactSince before after) :
    KeepsEntries before after where
  recorded := h.recorded
  apart := by
    refine List.Pairwise.imp_of_mem ?_ h.apart
    intro r s first second other same
    rw [h.named r first, h.named s second] at same
    exact other (segmentPath_injective after.config same)
  held := by
    cases present : after.state.currentSegment with
    | none =>
      rw [← closed_none present]
      exact h.held
    | some w =>
      obtain ⟨r, rest, segments, path, _, _⟩ := h.current w present
      have held := h.held
      rw [closed_some present segments] at held
      obtain ⟨contents, atEnd, _, inOrder⟩ := h.carried w r rest present segments
      rw [segments]
      exact List.forall_mem_cons.mpr ⟨⟨contents, path ▸ atEnd.file, inOrder⟩, held⟩
  untouched r member := (h.since r member).2
  listed r member m known := by
    have found := h.listed r member m known
    exact List.mem_map.mpr ⟨(r.startSlot, m), Std.TreeMap.mem_toList_iff_getElem?_eq_some.mpr found, rfl⟩

/-- As long as no segment is opened for a slot that has had one, appended entries
stay in their files. -/
theorem appended_entries_kept (config : DeltaConsumerConfig) (locator : DeltaLocator) (disk : Disk)
    (calls : List ConsumerCall) (fresh : Along (ofFun (call crc32)) (fun c a _ => OpensFresh c a)
      (new config locator disk) calls) :
    Along (ofFun (call crc32)) (fun c _ t => KeepsEntries c t) (new config locator disk) calls := by
  refine along_of_invariant Intact (fun c a _ => OpensFresh c a) (fun c _ t => KeepsEntries c t)
    ?_ (Intact.new config locator disk) fresh
  rintro c a _ intact rfl unused
  have kept : IntactSince c (call crc32 c a) := intact.call unused
  exact ⟨kept.toIntact, kept.keepsEntries⟩

theorem two_slots_kept :
    Along (ofFun (call fun _ => 0)) (fun c _ t => KeepsEntries c t) (new ⟨"delta", 1⟩ {} .empty)
      [.processUpdates (ringOf ⟨7, 1, Vector.replicate 32 9, [5, 6]⟩),
        .processUpdates (ringOf ⟨8, 1, Vector.replicate 32 9, [5, 6]⟩)] := by
  refine appended_entries_kept _ _ _ _ ?_
  rintro _ rfl
  refine ⟨fun _ _ _ _ _ r member => absurd member List.not_mem_nil, ?_⟩
  rintro _ rfl
  refine ⟨?_, trivial⟩
  intro _ _ w after read r member
  have first : (readNext (ringOf ⟨8, 1, Vector.replicate 32 9, [5, 6]⟩) fresh).1 =
      .ok (some ⟨8, 1, Vector.replicate 32 9, [5, 6]⟩) := by decide +kernel
  rw [read] at first
  cases first
  have slots : (call (fun _ => 0) (new ⟨"delta", 1⟩ {} .empty)
      (.processUpdates (ringOf ⟨7, 1, Vector.replicate 32 9, [5, 6]⟩))).segments.map (·.startSlot) = [7] := by
      decide +kernel
  have slot : r.startSlot ∈ [7] := slots ▸ List.mem_map.mpr ⟨r, member, rfl⟩
  rw [List.mem_singleton.mp slot]
  decide

/-- Two segments for slot 7: the second truncates the file of the first. -/
theorem same_slot_truncates :
    ¬ Along (ofFun (call fun _ => 0)) (fun c _ t => KeepsEntries c t) (new ⟨"delta", 1⟩ {} .empty)
      [.processUpdates (ringOf ⟨7, 1, Vector.replicate 32 9, [5, 6]⟩),
        .processUpdates (ringOf ⟨7, 1, Vector.replicate 32 8, [5, 6]⟩)] := by
  intro keeps
  have apart := ((keeps _ rfl).2 _ rfl).1.apart
  have paths : (call (fun _ => 0) (call (fun _ => 0) (new ⟨"delta", 1⟩ {} .empty)
      (.processUpdates (ringOf ⟨7, 1, Vector.replicate 32 9, [5, 6]⟩)))
      (.processUpdates (ringOf ⟨7, 1, Vector.replicate 32 8, [5, 6]⟩))).segments.map (·.path) =
        [DeltaConsumerConfig.segmentPath ⟨"delta", 1⟩ 7, DeltaConsumerConfig.segmentPath ⟨"delta", 1⟩ 7] := by
    decide +kernel
  have differ := paths ▸ List.pairwise_map.mpr apart
  exact List.rel_of_pairwise_cons differ (List.mem_singleton_self _) rfl

end DeltaConsumer

end Hyperplane
