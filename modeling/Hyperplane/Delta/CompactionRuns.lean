import Hyperplane.Delta.Compactor
import Hyperplane.Delta.LocatorRuns

/-! Compactions while segments are registered. The compactor holds its own lock from the
first step to the last, but the locator's only to read the segments and, later, to
remove them. -/
namespace Hyperplane
open Transition Maps

structure CompactionThresholds where
  minSegments : Nat := 10
  minEntries : UInt64 := 100000

def CompactionThresholds.shouldCompact (self : CompactionThresholds) (deltaLocator : DeltaLocator) : Bool :=
  let segments := deltaLocator.getAllSegments
  let totalEntries := segments.foldl (fun total segment => total + segment.entryCount) 0
  decide (self.minSegments ≤ segments.length) || decide (self.minEntries ≤ totalEntries)

/-- The compactor, the locator and what the compactions returned. -/
structure CompactedDelta where
  compactor : Compactor
  locator : DeltaLocator
  results : List CompactionResult

inductive AtomicMove where
  | call (call : LocatorCall)
  | removeSegments (slots : List UInt64)
  | clear
  | compact

namespace CompactedDelta

/-- Compaction in one step. -/
def atomic (s : CompactedDelta) : AtomicMove → CompactedDelta
  | .call call => { s with locator := s.locator.call call }
  | .removeSegments slots => { s with locator := s.locator.removeSegments slots }
  | .clear => { s with locator := s.locator.clear }
  | .compact =>
    match Compactor.compact (s.compactor, s.locator) with
    | (.ok (result, _), compactor, locator) => ⟨compactor, locator, s.results ++ [result]⟩
    | (_, compactor, locator) => ⟨compactor, locator, s.results⟩

/-- What compact does after it has read the segments, if there are any. -/
def finish (s : CompactedDelta) (segments : List DeltaSegmentMeta) : CompactedDelta :=
  let newLocations := Compactor.mergeLatest ∅
  let merged := UInt64.ofNat newLocations.length
  { compactor := ⟨Compactor.count newLocations (Compactor.count newLocations s.compactor.state)⟩
    locator := s.locator.removeSegments (segments.map (·.startSlot))
    results := s.results ++ [⟨UInt64.ofNat segments.length, merged, merged, 0⟩] }

theorem atomic_compact (s : CompactedDelta) : s.atomic .compact =
    if s.locator.getAllSegments.isEmpty then { s with results := s.results ++ [⟨0, 0, 0, 0⟩] }
    else s.finish s.locator.getAllSegments := by
  by_cases none : s.locator.getAllSegments.isEmpty
  · have compacted : Compactor.compact (s.compactor, s.locator) =
        (.ok (⟨0, 0, 0, 0⟩, []), s.compactor, s.locator) := if_pos none
    rw [if_pos none, atomic, compacted]
  · rw [if_neg none, atomic, Compactor.compact]
    simp only [none, Bool.false_eq_true, ↓reduceIte]
    rfl

/-- A compaction leaves nothing that calls for another. -/
theorem compacted_not_due {s : CompactedDelta} (keyed : s.locator.Keyed) {thresholds : CompactionThresholds}
    (segments : 0 < thresholds.minSegments) (entries : 0 < thresholds.minEntries) :
    thresholds.shouldCompact (s.atomic .compact).locator = false := by
  have none : (s.atomic .compact).locator.getAllSegments = [] := by
    rw [atomic_compact]
    split
    · rename_i empty
      exact List.isEmpty_iff.mp empty
    · refine List.eq_nil_iff_forall_not_mem.mpr fun segment listed => ?_
      rw [finish, DeltaLocator.mem_getAllSegments (keyed.removeSegments _),
        DeltaLocator.removeSegments_lookup] at listed
      split at listed
      · cases listed
      · rename_i kept
        exact kept (List.mem_map_of_mem ((DeltaLocator.mem_getAllSegments keyed segment).mpr listed))
  rw [CompactionThresholds.shouldCompact, none]
  simp [Nat.not_le.mpr segments, UInt64.not_le.mpr entries]

end CompactedDelta

inductive CompactionMove where
  | call (call : LocatorCall)
  | removeSegments (slots : List UInt64)
  | clear
  | collect
  | finish

/-- The segments of the compaction under way, which is the only one. -/
structure SharedDelta where
  delta : CompactedDelta
  collected : Option (List DeltaSegmentMeta)

namespace SharedDelta

def step (s : SharedDelta) : CompactionMove → Option SharedDelta
  | .call call => some { s with delta := s.delta.atomic (.call call) }
  | .removeSegments slots => some { s with delta := s.delta.atomic (.removeSegments slots) }
  | .clear => some { s with delta := s.delta.atomic .clear }
  | .collect =>
    match s.collected with
    | some _ => none
    | none =>
      let segments := s.delta.locator.getAllSegments
      if segments.isEmpty then
        some { s with delta := { s.delta with results := s.delta.results ++ [⟨0, 0, 0, 0⟩] } }
      else some { s with collected := some segments }
  | .finish =>
    match s.collected with
    | some segments => some ⟨s.delta.finish segments, none⟩
    | none => none

/-- A registration under a start slot that the compaction under way has read. -/
def reuses (s : SharedDelta) : LocatorCall → Bool
  | .registerSegment segment => (s.collected.getD []).any (·.startSlot == segment.startSlot)
  | .registerUpdate _ _ => false

/-- A compaction counts where it reads the segments. -/
def asAtomic (s : SharedDelta) : CompactionMove → List AtomicMove
  | .call call => if s.reuses call then [] else [.call call]
  | .removeSegments slots => [.removeSegments slots]
  | .clear => [.clear]
  | .collect => [.compact]
  | .finish => []

def linear (s : SharedDelta) : List CompactionMove → List AtomicMove
  | [] => []
  | move :: rest => s.asAtomic move ++ (match s.step move with
    | some next => linear next rest
    | none => [])

/-- The state once the compaction under way is through. -/
def settled (s : SharedDelta) : CompactedDelta :=
  match s.collected with
  | some segments => s.delta.finish segments
  | none => s.delta

end SharedDelta

/-- One state but for the shape of the maps, with or without a root. -/
structure SameDelta (a b : CompactedDelta) : Prop where
  segments : ∀ slot : UInt64, a.locator.segmentsBySlot[slot]? = b.locator.segmentsBySlot[slot]?
  latest : a.locator.latestLocations = b.locator.latestLocations
  entries : a.locator.totalEntries = b.locator.totalEntries
  compactor : a.compactor = b.compactor
  results : a.results = b.results

namespace SameDelta

theorem listed {a b : CompactedDelta} (same : SameDelta a b) :
    a.locator.getAllSegments = b.locator.getAllSegments := by
  rw [DeltaLocator.getAllSegments, DeltaLocator.getAllSegments,
    Std.TreeMap.Equiv.toList_eq (.of_forall_constGet?_eq same.segments)]

theorem trans {a b c : CompactedDelta} (first : SameDelta a b) (second : SameDelta b c) : SameDelta a c where
  segments slot := (first.segments slot).trans (second.segments slot)
  latest := first.latest.trans second.latest
  entries := first.entries.trans second.entries
  compactor := first.compactor.trans second.compactor
  results := first.results.trans second.results

theorem finish {a b : CompactedDelta} (same : SameDelta a b) (segments : List DeltaSegmentMeta) :
    SameDelta (a.finish segments) (b.finish segments) where
  segments slot := by
    simp only [CompactedDelta.finish, DeltaLocator.removeSegments_lookup, same.segments]
  latest := same.latest
  entries := same.entries
  compactor := by rw [CompactedDelta.finish, CompactedDelta.finish, same.compactor]
  results := by rw [CompactedDelta.finish, CompactedDelta.finish, same.results]

theorem atomic {a b : CompactedDelta} (same : SameDelta a b) (move : AtomicMove) :
    SameDelta (a.atomic move) (b.atomic move) := by
  obtain ⟨segments, latest, entries, compactor, results⟩ := same
  cases move with
  | call call =>
    cases call with
    | registerSegment segment =>
      refine ⟨fun slot => ?_, latest, entries, compactor, results⟩
      simp only [CompactedDelta.atomic, DeltaLocator.call, DeltaLocator.registerSegment, getElem?_insert_ite,
        segments]
    | registerUpdate pubkey location =>
      refine ⟨segments, ?_, ?_, compactor, results⟩
      · simp only [CompactedDelta.atomic, DeltaLocator.call, DeltaLocator.registerUpdate, latest]
      · simp only [CompactedDelta.atomic, DeltaLocator.call, DeltaLocator.registerUpdate, entries]
  | removeSegments slots =>
    refine ⟨fun slot => ?_, latest, entries, compactor, results⟩
    simp only [CompactedDelta.atomic, DeltaLocator.removeSegments_lookup, segments]
  | clear => exact ⟨fun _ => rfl, rfl, rfl, compactor, results⟩
  | compact =>
    have same : SameDelta a b := ⟨segments, latest, entries, compactor, results⟩
    rw [CompactedDelta.atomic_compact, CompactedDelta.atomic_compact, same.listed]
    split
    · refine ⟨segments, latest, entries, compactor, ?_⟩
      rw [results]
    · exact same.finish _

end SameDelta

namespace SharedDelta

theorem collected_reused {segments : List DeltaSegmentMeta} {delta : CompactedDelta} {segment : DeltaSegmentMeta} :
    SharedDelta.reuses ⟨delta, some segments⟩ (.registerSegment segment) = true ↔
      segment.startSlot ∈ segments.map (·.startSlot) := by
  simp [reuses, List.mem_map]

/-- What is registered under way is gone when the compaction is through if its slot was
read, and is there otherwise. -/
theorem finish_call (delta : CompactedDelta) (segments : List DeltaSegmentMeta) (call : LocatorCall) :
    SameDelta ((delta.atomic (.call call)).finish segments)
      (if SharedDelta.reuses ⟨delta, some segments⟩ call then delta.finish segments
        else (delta.finish segments).atomic (.call call)) := by
  cases call with
  | registerUpdate pubkey location => exact ⟨fun _ => rfl, rfl, rfl, rfl, rfl⟩
  | registerSegment segment =>
    split
    · rename_i reused
      have read := collected_reused.mp reused
      refine ⟨fun slot => ?_, rfl, rfl, rfl, rfl⟩
      simp only [CompactedDelta.finish, CompactedDelta.atomic, DeltaLocator.call, DeltaLocator.registerSegment,
        DeltaLocator.removeSegments_lookup, getElem?_insert_ite]
      split
      · rfl
      · rename_i kept
        rw [if_neg]
        rintro rfl
        exact kept read
    · rename_i fresh
      have unread := fun read => fresh (collected_reused.mpr read)
      refine ⟨fun slot => ?_, rfl, rfl, rfl, rfl⟩
      simp only [CompactedDelta.finish, CompactedDelta.atomic, DeltaLocator.call, DeltaLocator.registerSegment,
        DeltaLocator.removeSegments_lookup, getElem?_insert_ite]
      split
      · rename_i gone
        rw [if_neg]
        rintro rfl
        exact unread gone
      · rfl

theorem settled_step {s next : SharedDelta} {move : CompactionMove} {t : CompactedDelta}
    (same : SameDelta s.settled t) (stepped : s.step move = some next) :
    SameDelta next.settled ((s.asAtomic move).foldl CompactedDelta.atomic t) := by
  obtain ⟨delta, collected⟩ := s
  cases move with
  | call call =>
    cases stepped
    cases collected with
    | none =>
      have idle : SharedDelta.reuses ⟨delta, none⟩ call = false := by
        cases call <;> rfl
      rw [asAtomic, idle]
      exact same.atomic (.call call)
    | some segments =>
      refine (finish_call delta segments call).trans ?_
      rw [asAtomic]
      split
      · exact same
      · exact same.atomic (.call call)
  | removeSegments slots =>
    cases stepped
    cases collected with
    | none => exact same.atomic (.removeSegments slots)
    | some segments =>
      refine SameDelta.trans ?_ (same.atomic (.removeSegments slots))
      refine ⟨fun slot => ?_, rfl, rfl, rfl, rfl⟩
      simp only [settled, CompactedDelta.finish, CompactedDelta.atomic, DeltaLocator.removeSegments_lookup]
      split
      · split <;> rfl
      · rfl
  | clear =>
    cases stepped
    cases collected with
    | none => exact same.atomic .clear
    | some segments =>
      refine SameDelta.trans ?_ (same.atomic .clear)
      refine ⟨fun slot => ?_, rfl, rfl, rfl, rfl⟩
      simp only [settled, CompactedDelta.finish, CompactedDelta.atomic, DeltaLocator.removeSegments_lookup,
        DeltaLocator.clear]
      split
      · simp
      · rfl
  | collect =>
    cases collected with
    | some segments => cases stepped
    | none =>
      refine SameDelta.trans ?_ (same.atomic .compact)
      rw [CompactedDelta.atomic_compact]
      simp only [step] at stepped
      split at stepped
      · rename_i empty
        cases stepped
        rw [settled, settled, if_pos empty]
        exact ⟨fun _ => rfl, rfl, rfl, rfl, rfl⟩
      · rename_i occupied
        cases stepped
        rw [settled, settled, if_neg occupied]
        exact ⟨fun _ => rfl, rfl, rfl, rfl, rfl⟩
  | finish =>
    cases collected with
    | none => cases stepped
    | some segments =>
      cases stepped
      exact same

theorem settled_run {now s : SharedDelta} {t : CompactedDelta} {moves : List CompactionMove}
    (same : SameDelta now.settled t) (ran : Run (ofPartial step) now moves s) :
    SameDelta s.settled ((linear now moves).foldl CompactedDelta.atomic t) := by
  induction moves generalizing now t with
  | nil =>
    cases (ran : now = s)
    exact same
  | cons move rest ih =>
    obtain ⟨next, first, later⟩ := ran
    have stepped : now.step move = some next := first
    rw [linear, List.foldl_append, stepped]
    exact ih (settled_step same stepped) later

/-- However compactions and registrations interleave, all comes out as if each compaction
had happened at once, where it read the segments: but for the segments registered
under way under a start slot that it read, which are lost. -/
theorem compactions_linearize {start : CompactedDelta} {moves : List CompactionMove} {s : SharedDelta}
    (ran : Run (ofPartial step) ⟨start, none⟩ moves s) :
    SameDelta s.settled ((linear ⟨start, none⟩ moves).foldl CompactedDelta.atomic start) := by
  have initial : SameDelta (settled ⟨start, none⟩) start := ⟨fun _ => rfl, rfl, rfl, rfl, rfl⟩
  exact settled_run initial ran

/-- The segment that comes too late has the start slot of the first. -/
theorem late_segment_lost :
    let first : DeltaSegmentMeta := ⟨"segment_5.bin", 5, 5, 1, 64⟩
    let late : DeltaSegmentMeta := ⟨"segment_5.bin", 5, 9, 2, 128⟩
    let other : DeltaSegmentMeta := ⟨"segment_6.bin", 6, 6, 1, 64⟩
    let moves : List CompactionMove := [.call (.registerSegment first), .collect, .call (.registerSegment late),
      .call (.registerSegment other), .finish]
    ∃ s, Run (ofPartial step) ⟨⟨{}, {}, []⟩, none⟩ moves s ∧ s.delta.locator.getAllSegments = [other] ∧
      SameDelta s.settled ([.call (.registerSegment first), .compact, .call (.registerSegment other)].foldl
        CompactedDelta.atomic ⟨{}, {}, []⟩) := by
  intro first late other moves
  have ran := (run_ofPartial step moves ⟨⟨{}, {}, []⟩, none⟩ _).mpr rfl
  exact ⟨_, ran, rfl, compactions_linearize ran⟩

end SharedDelta

end Hyperplane
