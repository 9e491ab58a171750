import Hyperplane.Delta.Locator
import Hyperplane.Lib.Method
import Hyperplane.Lib.Transition

/-! The compactor, which is to merge delta segments into the base layer. -/
namespace Hyperplane
open Transition

structure CompactionResult where
  segmentsCompacted : UInt64
  accountsMerged : UInt64
  newBaseLocations : UInt64
  bytesFreed : UInt64
  deriving DecidableEq

structure CompactorState where
  compactionCount : UInt64 := 0
  totalMerged : UInt64 := 0

structure Compactor where
  state : CompactorState := {}

inductive CompactionError where
  | io
  | pubkeyNotFound (pubkey : Pubkey)

namespace Compactor

/-- The location an account gets in the base layer; the zeros are assigned later. -/
def baseLocation (deltaLocation : AccountLocation) : AccountLocation where
  fileId := 0
  offset := 0
  storedSize := deltaLocation.storedSize
  dataOffset := deltaLocation.dataOffset
  dataLen := deltaLocation.dataLen
  slot := deltaLocation.slot
  writeVersion := deltaLocation.writeVersion
  storageType := .compacted

def mergeLatest (latestDeltas : Std.TreeMap Pubkey AccountLocation) : List (UInt64 × AccountLocation) :=
  latestDeltas.toList.filterMap fun (pubkey, deltaLocation) =>
    (latestDeltas[pubkey]?).map fun _ => (0, baseLocation deltaLocation)

def count (newLocations : List (UInt64 × AccountLocation)) (state : CompactorState) : CompactorState where
  compactionCount := state.compactionCount + 1
  totalMerged := state.totalMerged + UInt64.ofNat newLocations.length

/-- The source keeps the new locations in a local vector; here they are
returned beside the result. The map of the latest deltas is never filled. -/
def compact : Method (Compactor × DeltaLocator) CompactionError
    (CompactionResult × List (UInt64 × AccountLocation)) := fun (self, deltaLocator) =>
  let segments := deltaLocator.getAllSegments
  if segments.isEmpty then (.ok (⟨0, 0, 0, 0⟩, []), self, deltaLocator)
  else
    let latestDeltas : Std.TreeMap Pubkey AccountLocation := ∅
    let newLocations := mergeLatest latestDeltas
    let merged := UInt64.ofNat newLocations.length
    (.ok (⟨UInt64.ofNat segments.length, merged, merged, 0⟩, newLocations),
      -- The source updates the statistics before and after it removes the segments.
      ⟨count newLocations (count newLocations self.state)⟩,
      deltaLocator.removeSegments (segments.map (·.startSlot)))

end Compactor

namespace DeltaLocator

/-- Every account with a delta location is counted and has got a compacted
location with its slot and write version. -/
structure AllMerged (locator : DeltaLocator) (result : CompactionResult)
    (newLocations : List (UInt64 × AccountLocation)) : Prop where
  merged : result.accountsMerged.toNat = locator.latestLocations.size
  located : result.newBaseLocations.toNat = locator.latestLocations.size
  compacted : ∀ pubkey location, locator.getLatest pubkey = some location →
    ∃ new ∈ newLocations, new.2.storageType = .compacted ∧ new.2.slot = location.slot ∧
      new.2.writeVersion = location.writeVersion

/-- When compaction removes a segment, no account is left behind. -/
def DropsNothing (locator : DeltaLocator) (compactor : Compactor) : Prop :=
  ∀ result newLocations self after,
    Compactor.compact (compactor, locator) = (.ok (result, newLocations), self, after) →
    (∃ segment ∈ locator.getAllSegments, segment ∉ after.getAllSegments) →
      AllMerged locator result newLocations

theorem getAllSegments_eq_nil (locator : DeltaLocator) :
    locator.getAllSegments = [] ↔ locator.segmentsBySlot.isEmpty := by
  rw [getAllSegments, List.map_eq_nil_iff, ← List.isEmpty_iff, Std.TreeMap.isEmpty_toList]

theorem reached_segments (calls : List LocatorCall) :
    (reached calls).getAllSegments = [] ↔ ∀ c ∈ calls, ∀ segment, c ≠ .registerSegment segment := by
  rw [getAllSegments_eq_nil]
  refine (foldl_iff (fun locator : DeltaLocator => locator.segmentsBySlot.isEmpty = true)
    (fun c => ∀ segment, c ≠ .registerSegment segment) ?_ calls {}).trans (by simp)
  rintro locator (segment | ⟨pubkey, location⟩)
  · simp [call, registerSegment]
  · simp [call, registerUpdate]

theorem reached_latest (calls : List LocatorCall) : (reached calls).latestLocations.isEmpty ↔
    ∀ c ∈ calls, ∀ pubkey location, c ≠ .registerUpdate pubkey location := by
  refine (foldl_iff (fun locator : DeltaLocator => locator.latestLocations.isEmpty = true)
    (fun c => ∀ pubkey location, c ≠ .registerUpdate pubkey location) ?_ calls {}).trans (by simp)
  rintro locator (segment | ⟨pubkey, location⟩)
  · simp [call, registerSegment]
  · simp [call, registerUpdate]

theorem dropsNothing_iff {locator : DeltaLocator} (keyed : locator.Keyed) (compactor : Compactor) :
    DropsNothing locator compactor ↔
      locator.getAllSegments = [] ∨ locator.latestLocations.isEmpty := by
  by_cases none : locator.getAllSegments = []
  · simp only [none, true_or, iff_true]
    rintro result newLocations self after compacted ⟨segment, listed, _⟩
    rw [none] at listed
    cases listed
  · obtain ⟨segment, listed⟩ := List.exists_mem_of_ne_nil _ none
    let slots := locator.getAllSegments.map (·.startSlot)
    have compacted : Compactor.compact (compactor, locator) =
        (.ok (⟨UInt64.ofNat locator.getAllSegments.length, 0, 0, 0⟩, []),
          ⟨Compactor.count [] (Compactor.count [] compactor.state)⟩, locator.removeSegments slots) := by
      simp [Compactor.compact, none, Compactor.mergeLatest, slots]
    have removed : segment ∉ (locator.removeSegments slots).getAllSegments := by
      rw [mem_getAllSegments (keyed.removeSegments slots), removeSegments_lookup,
        if_pos (List.mem_map.mpr ⟨segment, listed, rfl⟩)]
      nofun
    simp only [none, false_or]
    constructor
    · intro drops
      have size := (drops _ _ _ _ compacted ⟨segment, listed, removed⟩).merged
      rw [Std.TreeMap.isEmpty_eq_size_eq_zero, ← size]
      rfl
    · intro empty result newLocations self after run _
      rw [compacted] at run
      cases run
      have size : locator.latestLocations.size = 0 := by
        simpa [Std.TreeMap.isEmpty_eq_size_eq_zero] using empty
      refine ⟨size.symm, size.symm, ?_⟩
      intro pubkey location known
      rw [getLatest, Std.TreeMap.getElem?_of_isEmpty empty] at known
      cases known

/-- Compaction drops no update exactly when there are no segments to remove or
no updates to merge. -/
theorem compact_dropsNothing_iff (calls : List LocatorCall) (compactor : Compactor) :
    DropsNothing (reached calls) compactor ↔
      (∀ c ∈ calls, ∀ segment, c ≠ .registerSegment segment) ∨
        ∀ c ∈ calls, ∀ pubkey location, c ≠ .registerUpdate pubkey location := by
  rw [dropsNothing_iff (reached_keyed calls), reached_segments, reached_latest]

/-- One segment and one update: the segment goes and the update is not merged. -/
theorem compact_drops_update :
    ¬ DropsNothing (reached [.registerSegment ⟨"segment_5.bin", 5, 5, 1, 64⟩,
      .registerUpdate (Vector.replicate 32 1) ⟨0, 0, 0, 0, 0, 5, 1, .delta⟩]) {} := by
  rw [dropsNothing_iff (reached_keyed _), reached_segments, reached_latest]
  simp

end DeltaLocator

end Hyperplane
