import Hyperplane.Delta.History

/-! What the locator knows about pubkeys after process_updates. Every entry goes
to the reducer and to a segment, and no update is registered with the locator. -/
namespace Hyperplane
open RingBufferReader SegmentWriter

namespace DeltaConsumer

variable {crc32 : List UInt8 → UInt32}

/-- The location belongs to a newest entry for the pubkey, and its data range in
the file the entry was appended to is the entry's data. -/
def Locates (c : DeltaConsumer) (vs : List RingEntryView) (pubkey : Pubkey)
    (location : AccountLocation) : Prop :=
  ∃ newest ∈ vs, newest.pubkey = pubkey ∧ location.slot = newest.slot ∧
    location.writeVersion = newest.writeVersion ∧
      (∀ other ∈ vs, other.pubkey = pubkey → ¬ (entryLocation other).isNewerThan location) ∧
        ∃ a ∈ c.appended, a.entry = newest ∧ ∃ contents, c.disk.files a.path = some contents ∧
          (contents.take location.dataRange.2.toNat).drop location.dataRange.1.toNat = newest.data

def LatestServed (ring : Ring) (c : DeltaConsumer) : Prop :=
  ∀ vs, Reads ring fresh vs → ∀ v ∈ vs, ∃ location,
    c.deltaLocator.getLatest v.pubkey = some location ∧ Locates c vs v.pubkey location

/-- The locations the locator has for pubkeys. -/
def latest (c : DeltaConsumer) : Std.TreeMap Pubkey AccountLocation := c.deltaLocator.latestLocations

theorem openSegment_keeps (slot : UInt64) : Method.Keeps latest (openSegment crc32 slot) := by
  intro c
  unfold openSegment
  split
  · rfl
  · split <;> rfl

theorem appendEntry_keeps (v : RingEntryView) : Method.Keeps latest (appendEntry v) := by
  intro c
  unfold appendEntry
  split
  · rfl
  · split <;> rfl

theorem maybeFlushSegment_keeps : Method.Keeps latest (maybeFlushSegment crc32) := by
  intro c
  unfold maybeFlushSegment
  split
  · split
    · rfl
    · split <;> rfl
  · rfl

theorem processEntry_keeps (v : RingEntryView) : Method.Keeps latest (processEntry crc32 v) := by
  unfold processEntry
  split
  · exact Method.keeps_fail _
  · refine Method.keeps_bind (Method.keeps_modify fun _ => rfl) fun _ => ?_
    exact Method.keeps_bind (openSegment_keeps v.slot) fun _ => appendEntry_keeps v

theorem finishUpdates_keeps (processed : Nat) :
    Method.Keeps latest (finishUpdates crc32 processed) := by
  refine Method.keeps_bind (Method.keeps_modify fun _ => rfl) fun _ => ?_
  exact Method.keeps_bind maybeFlushSegment_keeps fun _ => Method.keeps_pure processed

theorem processLoop_keeps (ring : Ring) (fuel : Nat) (reader : RingBufferReader) (processed : Nat) :
    Method.Keeps latest (processLoop crc32 ring fuel reader processed) := by
  induction fuel generalizing reader processed with
  | zero => exact fun _ => rfl
  | succ fuel ih =>
    unfold processLoop
    split
    · exact finishUpdates_keeps processed
    · exact Method.keeps_bind (processEntry_keeps _) fun _ => ih _ _
    · exact Method.keeps_fail _
    · exact fun _ => rfl

theorem processUpdates_keeps (ring : Ring) : Method.Keeps latest (processUpdates crc32 ring) := by
  unfold processUpdates
  split
  · exact processLoop_keeps ring _ _ 0
  · exact Method.keeps_fail _
  · exact fun _ => rfl

theorem call_latest (c : DeltaConsumer) (a : ConsumerCall) : (call crc32 c a).latest = c.latest := by
  cases a with
  | start =>
    change (start c).2.latest = c.latest
    unfold start
    refine Method.keeps_bind (fun _ => rfl) (fun before => ?_) c
    split
    · exact Method.keeps_fail _
    · exact Method.keeps_bind (Method.keeps_modify fun _ => rfl) fun _ => fun _ => rfl
  | processUpdates ring => exact processUpdates_keeps ring c
  | stop =>
    change (stop crc32 c).latest = c.latest
    unfold stop
    split <;> rfl

theorem reached_latest (c : DeltaConsumer) (calls : List ConsumerCall) :
    (calls.foldl (call crc32) c).latest = c.latest := by
  induction calls generalizing c with
  | nil => rfl
  | cons a rest ih => exact (ih (call crc32 c a)).trans (call_latest c a)

/-- A locator that knows no pubkey can serve an empty ring only. -/
theorem latestServed_iff {ring : Ring} {c : DeltaConsumer} {n : Nat} (unknown : c.latest = ∅)
    (returned : (processUpdates crc32 ring c).1 = .ok n) :
    LatestServed ring (processUpdates crc32 ring c).2 ↔ ring.header.writePos = 0 := by
  have none : (processUpdates crc32 ring c).2.latest = ∅ := (processUpdates_keeps ring c).trans unknown
  have ran : processUpdates crc32 ring c = (.ok n, (processUpdates crc32 ring c).2) :=
    Prod.ext returned rfl
  obtain ⟨_, vs, _, _, reads, _, _⟩ := processUpdates_ok_iff.mp ran
  constructor
  · intro served
    cases reads with
    | done empty => exact Nat.le_zero.mp (readNext_none_iff.mp empty).1
    | @next _ after v rest found tail =>
      obtain ⟨location, known, _⟩ := served (v :: rest) (.next found tail) v List.mem_cons_self
      have absent : (processUpdates crc32 ring c).2.latest[v.pubkey]? = Option.none := by
        rw [none]
        rfl
      exact absurd (known.symm.trans absent) nofun
  · intro empty us again
    cases again with
    | done _ => exact fun v member => absurd member List.not_mem_nil
    | next found _ =>
      rw [readNext_end (by rw [empty]; exact Nat.zero_le _)] at found
      cases found

/-- In every run of the consumer, a call of process_updates that returns has told
the locator about the ring's pubkeys only if the ring holds no entry. -/
theorem latest_served_iff_empty (config : DeltaConsumerConfig) (disk : Disk) (calls : List ConsumerCall)
    (ring : Ring) (n : Nat)
    (returned : (processUpdates crc32 ring (calls.foldl (call crc32) (new config {} disk))).1 = .ok n) :
    LatestServed ring (processUpdates crc32 ring (calls.foldl (call crc32) (new config {} disk))).2 ↔
      ring.header.writePos = 0 :=
  latestServed_iff (reached_latest (new config {} disk) calls) returned

theorem empty_ring_served :
    LatestServed (RingBufferWriter.created 1024)
      (processUpdates (fun _ => 0) (RingBufferWriter.created 1024) (new ⟨"delta", 1⟩ {} .empty)).2 :=
  (@latest_served_iff_empty (fun _ => 0) ⟨"delta", 1⟩ .empty [] (RingBufferWriter.created 1024) 0 rfl).mpr rfl

/-- One entry for one pubkey, which the locator does not know afterwards. -/
theorem entry_not_served :
    (processUpdates (fun _ => 0) (ringOf ⟨7, 1, Vector.replicate 32 9, [5, 6]⟩)
        (new ⟨"delta", 1⟩ {} .empty)).1 = .ok 1 ∧
      ¬ LatestServed (ringOf ⟨7, 1, Vector.replicate 32 9, [5, 6]⟩)
        (processUpdates (fun _ => 0) (ringOf ⟨7, 1, Vector.replicate 32 9, [5, 6]⟩)
          (new ⟨"delta", 1⟩ {} .empty)).2 := by
  have returned : (processUpdates (fun _ => 0) (ringOf ⟨7, 1, Vector.replicate 32 9, [5, 6]⟩)
      (new ⟨"delta", 1⟩ {} .empty)).1 = .ok 1 := by decide +kernel
  have unknown : (new ⟨"delta", 1⟩ {} .empty).latest = ∅ := rfl
  refine ⟨returned, ?_⟩
  rw [latestServed_iff unknown returned]
  decide

end DeltaConsumer

end Hyperplane
