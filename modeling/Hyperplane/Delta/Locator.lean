import Mathlib.Data.Finset.Basic
import Hyperplane.Lib.Maps
import Hyperplane.Lib.Transition
import Hyperplane.Types.Account

/-! The registry of delta segments and of the latest location of each pubkey. -/
namespace Hyperplane
open Maps Transition

structure DeltaSegmentMeta where
  path : String
  startSlot : UInt64
  endSlot : UInt64
  entryCount : UInt64
  dataSize : UInt64
  deriving DecidableEq

/-- The map of segments has a root from its first insert on, also when it is empty again. -/
structure DeltaLocator where
  segmentsBySlot : Std.TreeMap UInt64 DeltaSegmentMeta := ∅
  latestLocations : Std.TreeMap Pubkey AccountLocation := ∅
  totalEntries : Nat := 0
  segmentsRooted : Bool := false

inductive LocatorCall where
  | registerSegment (segment : DeltaSegmentMeta)
  | registerUpdate (pubkey : Pubkey) (location : AccountLocation)

namespace DeltaLocator

def registerSegment (locator : DeltaLocator) (segment : DeltaSegmentMeta) : DeltaLocator :=
  { locator with
    segmentsBySlot := locator.segmentsBySlot.insert segment.startSlot segment
    segmentsRooted := true }

def registerUpdate (locator : DeltaLocator) (pubkey : Pubkey) (location : AccountLocation) :
    DeltaLocator :=
  { locator with
    latestLocations := locator.latestLocations.insert pubkey location
    totalEntries := locator.totalEntries + 1 }

def getLatest (locator : DeltaLocator) (pubkey : Pubkey) : Option AccountLocation :=
  locator.latestLocations[pubkey]?

def getAllSegments (locator : DeltaLocator) : List DeltaSegmentMeta :=
  locator.segmentsBySlot.toList.map Prod.snd

def removeSegments (locator : DeltaLocator) (slots : List UInt64) : DeltaLocator :=
  { locator with segmentsBySlot := slots.foldl (·.erase ·) locator.segmentsBySlot }

def call (locator : DeltaLocator) : LocatorCall → DeltaLocator
  | .registerSegment segment => locator.registerSegment segment
  | .registerUpdate pubkey location => locator.registerUpdate pubkey location

def reached (calls : List LocatorCall) : DeltaLocator := calls.foldl call {}

/-- Every segment is listed under its own start slot. -/
def Keyed (locator : DeltaLocator) : Prop :=
  ∀ (slot : UInt64) (segment : DeltaSegmentMeta),
    locator.segmentsBySlot[slot]? = some segment → segment.startSlot = slot

theorem mem_getAllSegments {locator : DeltaLocator} (keyed : locator.Keyed)
    (segment : DeltaSegmentMeta) : segment ∈ locator.getAllSegments ↔
      locator.segmentsBySlot[segment.startSlot]? = some segment := by
  simp only [getAllSegments, List.mem_map, Prod.exists, exists_eq_right,
    Std.TreeMap.mem_toList_iff_getElem?_eq_some]
  constructor
  · rintro ⟨slot, found⟩
    rwa [keyed slot segment found]
  · intro found
    exact ⟨segment.startSlot, found⟩

theorem Keyed.registerSegment {locator : DeltaLocator} (keyed : locator.Keyed)
    (segment : DeltaSegmentMeta) : (locator.registerSegment segment).Keyed := by
  intro slot other found
  simp only [DeltaLocator.registerSegment] at found
  by_cases same : slot = segment.startSlot
  · subst same
    rw [Std.TreeMap.getElem?_insert_self] at found
    rw [← Option.some.inj found]
  · rw [getElem?_insert_ne _ same] at found
    exact keyed slot other found

theorem reached_keyed (calls : List LocatorCall) : (reached calls).Keyed := by
  refine foldl_invariant Keyed ?_ ?_ calls
  · rintro locator (segment | ⟨pubkey, location⟩) keyed
    · exact keyed.registerSegment segment
    · exact keyed
  · intro slot segment found
    simp at found

theorem removeSegments_lookup (locator : DeltaLocator) (slots : List UInt64) (slot : UInt64) :
    (locator.removeSegments slots).segmentsBySlot[slot]? =
      if slot ∈ slots then none else locator.segmentsBySlot[slot]? := by
  induction slots generalizing locator with
  | nil => simp [removeSegments]
  | cons key rest ih =>
    have step : locator.removeSegments (key :: rest) =
        (locator.removeSegments [key]).removeSegments rest := rfl
    have first : (locator.removeSegments [key]).segmentsBySlot[slot]? =
        if slot = key then none else locator.segmentsBySlot[slot]? :=
      getElem?_erase_ite locator.segmentsBySlot key slot
    rw [step, ih, first]
    by_cases later : slot ∈ rest
    · simp [later]
    · simp [later]

theorem Keyed.removeSegments {locator : DeltaLocator} (keyed : locator.Keyed)
    (slots : List UInt64) : (locator.removeSegments slots).Keyed := by
  intro slot segment found
  rw [removeSegments_lookup] at found
  split at found
  · cases found
  · exact keyed slot segment found

end DeltaLocator

end Hyperplane
