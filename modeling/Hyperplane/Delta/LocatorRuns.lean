import Mathlib.Data.Finset.Max
import Hyperplane.Delta.Locator
import Hyperplane.Lib.Method

/-! Runs of the delta locator: the latest locations against those registered, and
ranges of slots against the segments held. -/
namespace Hyperplane
open Maps Newer Transition

namespace DeltaLocator

/-- The segments that start in the range. A range that starts after its end panics as
soon as the map has a root; a map without one is not searched. -/
def getSegmentsForRange (locator : DeltaLocator) (startSlot endSlot : UInt64) :
    Outcome Empty (List DeltaSegmentMeta) :=
  if endSlot < startSlot then if locator.segmentsRooted then .fault else .ok []
  else .ok ((locator.segmentsBySlot.toList.filter fun (slot, _) =>
    startSlot ≤ slot ∧ slot ≤ endSlot).map Prod.snd)

def getLatestSlot (locator : DeltaLocator) : Option UInt64 := locator.segmentsBySlot.maxKey?

def clear (_ : DeltaLocator) : DeltaLocator := {}

end DeltaLocator

inductive LocatorAction where
  | registerSegment (segment : DeltaSegmentMeta)
  | registerUpdate (pubkey : Pubkey) (location : AccountLocation)
  | removeSegments (slots : List UInt64)
  | clear

/-- A locator, the segments registered and not removed since, and the locations
registered since the last clear. -/
structure LocatorRun where
  locator : DeltaLocator := {}
  held : Finset DeltaSegmentMeta := ∅
  registered : Pubkey → List AccountLocation := fun _ => []

namespace LocatorRun

def act (run : LocatorRun) : LocatorAction → LocatorRun
  | .registerSegment segment =>
    { run with locator := run.locator.registerSegment segment, held := insert segment run.held }
  | .registerUpdate pubkey location =>
    { run with
      locator := run.locator.registerUpdate pubkey location
      registered := Function.update run.registered pubkey (run.registered pubkey ++ [location]) }
  | .removeSegments slots =>
    { run with
      locator := run.locator.removeSegments slots
      held := run.held.filter (·.startSlot ∉ slots) }
  | .clear => { locator := run.locator.clear }

def NewestFor (run : LocatorRun) (pubkey : Pubkey) : Prop :=
  match run.locator.getLatest pubkey with
  | none => run.registered pubkey = []
  | some location => Newest AccountLocation.Newer (run.registered pubkey) location

def NewestLatest (run : LocatorRun) : Prop := ∀ pubkey, run.NewestFor pubkey

/-- The latest location of the pubkey is not newer than the one registered. -/
def InOrder (run : LocatorRun) : LocatorAction → Prop
  | .registerUpdate pubkey location =>
    ∀ latest, run.locator.getLatest pubkey = some latest → ¬ latest.Newer location
  | _ => True

theorem newestLatest_registerUpdate {run : LocatorRun} (h : run.NewestLatest) (pubkey : Pubkey)
    (location : AccountLocation) : (run.act (.registerUpdate pubkey location)).NewestLatest ↔
      Newest AccountLocation.Newer (run.registered pubkey ++ [location]) location := by
  have lookup (other : Pubkey) : (run.act (.registerUpdate pubkey location)).locator.getLatest other =
      if other = pubkey then some location else run.locator.getLatest other :=
    getElem?_insert_ite run.locator.latestLocations pubkey other location
  constructor
  · intro all
    have here := all pubkey
    unfold NewestFor at here
    rw [lookup, if_pos rfl] at here
    simpa only [act, Function.update_self] using here
  · intro newest other
    unfold NewestFor
    rw [lookup]
    by_cases same : other = pubkey
    · subst same
      simpa only [act, Function.update_self, if_true] using newest
    · have before := h other
      simp only [act, if_neg same, Function.update_of_ne same]
      exact before

theorem act_newestLatest {run : LocatorRun} (h : run.NewestLatest) (action : LocatorAction) :
    (run.act action).NewestLatest ↔ run.InOrder action := by
  cases action with
  | registerSegment segment => exact iff_of_true h trivial
  | removeSegments slots => exact iff_of_true h trivial
  | clear =>
    exact iff_of_true (fun _ => by simp [NewestFor, act, DeltaLocator.clear, DeltaLocator.getLatest]) trivial
  | registerUpdate pubkey location =>
    rw [newestLatest_registerUpdate h]
    have before := h pubkey
    unfold NewestFor at before
    simp only [InOrder]
    cases held : run.locator.getLatest pubkey with
    | none =>
      rw [held] at before
      rw [before, List.nil_append]
      exact iff_of_true (newest_single AccountLocation.newer_weakOrder location) nofun
    | some latest =>
      rw [held] at before
      rw [before.replace_iff AccountLocation.newer_weakOrder]
      simp only [Option.some.injEq, forall_eq']

/-- The locations returned are newest after every call exactly if no location was
registered over a newer one. -/
theorem newestLatest_iff (actions : List LocatorAction) :
    Along (ofFun act) (fun _ _ after => after.NewestLatest) {} actions ↔
      Along (ofFun act) (fun before action _ => before.InOrder action) {} actions := by
  refine along_ofFun_iff NewestLatest ?_ ?_ ?_ actions
  · intro before action newest
    exact act_newestLatest newest action
  · intro before action newest inOrder
    exact (act_newestLatest newest action).mpr inOrder
  · intro pubkey
    simp [NewestFor, DeltaLocator.getLatest]

/-- A location registered late replaces a newer one. -/
theorem latest_of_late_update : ¬ ∀ actions : List LocatorAction,
    (actions.foldl act {}).NewestLatest := by
  intro all
  let newer : AccountLocation := ⟨0, 0, 0, 0, 0, 200, 1, .delta⟩
  let older : AccountLocation := ⟨0, 0, 0, 0, 0, 100, 1, .delta⟩
  let pubkey : Pubkey := .replicate 32 1
  have latest := all [.registerUpdate pubkey newer, .registerUpdate pubkey older] pubkey
  have held : ([.registerUpdate pubkey newer, .registerUpdate pubkey older].foldl act
      {}).locator.getLatest pubkey = some older := by decide +kernel
  unfold NewestFor at latest
  rw [held] at latest
  exact latest.none newer (by simp [act]) (by decide)

/-- Segments that do not end before they start and have start slots of their own. -/
structure Proper (segments : List DeltaSegmentMeta) : Prop where
  ordered : ∀ segment ∈ segments, segment.startSlot.toNat ≤ segment.endSlot.toNat
  distinct : ∀ a ∈ segments, ∀ b ∈ segments, a.startSlot = b.startSlot → a = b

def registeredSegments (actions : List LocatorAction) : List DeltaSegmentMeta :=
  actions.filterMap fun
    | .registerSegment segment => some segment
    | _ => none

/-- A segment was registered and the locator not cleared since. -/
def Registered (actions : List LocatorAction) : Prop :=
  ∃ before segment after, actions = before ++ .registerSegment segment :: after ∧ .clear ∉ after

theorem registered_snoc (actions : List LocatorAction) (last : LocatorAction) :
    Registered (actions ++ [last]) ↔
      (∃ segment, last = .registerSegment segment) ∨ (last ≠ .clear ∧ Registered actions) := by
  constructor
  · rintro ⟨before, segment, after, split, kept⟩
    rcases after.eq_nil_or_concat with rfl | ⟨front, final, rfl⟩
    · obtain ⟨_, same⟩ := List.append_inj' split rfl
      exact .inl ⟨segment, List.head_eq_of_cons_eq same⟩
    · rw [List.concat_eq_append, ← List.cons_append, ← List.append_assoc] at split
      obtain ⟨rfl, same⟩ := List.append_inj' split rfl
      cases List.head_eq_of_cons_eq same
      simp only [List.concat_eq_append, List.mem_append, List.mem_singleton, not_or] at kept
      exact .inr ⟨fun clears => kept.2 clears.symm, before, segment, front, rfl, kept.1⟩
  · rintro (⟨segment, rfl⟩ | ⟨keeps, before, segment, after, rfl, kept⟩)
    · exact ⟨actions, segment, [], rfl, List.not_mem_nil⟩
    · refine ⟨before, segment, after ++ [last], by simp, ?_⟩
      simp [kept, keeps.symm]

/-- The map of segments has a root exactly then. -/
theorem foldl_rooted_iff (actions : List LocatorAction) :
    (actions.foldl act {}).locator.segmentsRooted = true ↔ Registered actions := by
  induction actions using List.reverseRecOn with
  | nil => simp [Registered]
  | append_singleton actions last ih =>
    rw [List.foldl_append, registered_snoc, ← ih]
    cases last with
    | clear => simp [LocatorRun.act, DeltaLocator.clear]
    | registerSegment segment => simp [LocatorRun.act, DeltaLocator.registerSegment]
    | registerUpdate pubkey location => simp [LocatorRun.act, DeltaLocator.registerUpdate]
    | removeSegments slots => simp [LocatorRun.act, DeltaLocator.removeSegments]

/-- The segments held are of the list, and the locator has each under its start slot;
a map without a root is empty. -/
structure Holds (segments : List DeltaSegmentMeta) (run : LocatorRun) : Prop where
  among : ∀ segment ∈ run.held, segment ∈ segments
  rooted : run.locator.segmentsRooted = false → run.held = ∅
  listed : ∀ (slot : UInt64) (segment : DeltaSegmentMeta),
    run.locator.segmentsBySlot[slot]? = some segment ↔ segment ∈ run.held ∧ segment.startSlot = slot

theorem Holds.act {segments : List DeltaSegmentMeta} (proper : Proper segments) {run : LocatorRun}
    (h : Holds segments run) (action : LocatorAction)
    (inside : ∀ segment, action = .registerSegment segment → segment ∈ segments) :
    Holds segments (run.act action) := by
  cases action with
  | registerUpdate pubkey location => exact ⟨h.among, h.rooted, h.listed⟩
  | clear => exact ⟨nofun, fun _ => rfl, fun slot segment => by simp [LocatorRun.act, DeltaLocator.clear]⟩
  | registerSegment new =>
    have member := inside new rfl
    refine ⟨fun segment among => ?_, nofun, fun slot segment => ?_⟩
    · rcases Finset.mem_insert.mp among with rfl | before
      · exact member
      · exact h.among segment before
    · have lookup : (run.act (.registerSegment new)).locator.segmentsBySlot[slot]? =
          if slot = new.startSlot then some new else run.locator.segmentsBySlot[slot]? :=
        getElem?_insert_ite run.locator.segmentsBySlot new.startSlot slot new
      rw [lookup]
      simp only [LocatorRun.act, Finset.mem_insert]
      by_cases same : slot = new.startSlot
      · rw [if_pos same]
        constructor
        · intro found
          cases found
          exact ⟨.inl rfl, same.symm⟩
        · rintro ⟨rfl | before, key⟩
          · rfl
          · rw [proper.distinct segment (h.among segment before) new member (key.trans same)]
      · rw [if_neg same, h.listed]
        constructor
        · exact fun ⟨before, key⟩ => ⟨.inr before, key⟩
        · rintro ⟨rfl | before, key⟩
          · exact absurd key.symm same
          · exact ⟨before, key⟩
  | removeSegments slots =>
    refine ⟨fun segment among => h.among segment (Finset.mem_filter.mp among).1, fun rootless => ?_,
      fun slot segment => ?_⟩
    · simp [LocatorRun.act, h.rooted rootless]
    have lookup := DeltaLocator.removeSegments_lookup run.locator slots slot
    simp only [LocatorRun.act, lookup, Finset.mem_filter]
    split
    · rename_i removed
      simp only [reduceCtorEq, false_iff]
      rintro ⟨⟨_, kept⟩, key⟩
      exact kept (key ▸ removed)
    · rename_i kept
      rw [h.listed]
      exact ⟨fun ⟨before, key⟩ => ⟨⟨before, key ▸ kept⟩, key⟩, fun ⟨⟨before, _⟩, key⟩ => ⟨before, key⟩⟩

theorem foldl_holds {actions : List LocatorAction} (proper : Proper (registeredSegments actions)) :
    Holds (registeredSegments actions) (actions.foldl act {}) := by
  refine List.foldlRecOn actions act ⟨nofun, fun _ => rfl, fun slot segment => by simp⟩
    fun run h action member => ?_
  refine h.act proper action fun segment same => ?_
  exact List.mem_filterMap.mpr ⟨action, member, by rw [same]⟩

theorem Holds.getSegmentsForRange {segments : List DeltaSegmentMeta} {run : LocatorRun}
    (h : Holds segments run) {startSlot endSlot : UInt64} (ordered : ¬ endSlot < startSlot) :
    ∃ found, run.locator.getSegmentsForRange startSlot endSlot = .ok found ∧ found.Nodup ∧
      ∀ segment, segment ∈ found ↔
        segment ∈ run.held ∧ startSlot ≤ segment.startSlot ∧ segment.startSlot ≤ endSlot := by
  refine ⟨_, if_neg ordered, ?_, fun segment => ?_⟩
  · refine List.Nodup.of_map DeltaSegmentMeta.startSlot ?_
    rw [List.map_map, List.map_congr_left (g := Prod.fst)]
    · have keys : (run.locator.segmentsBySlot.toList.map Prod.fst).Nodup := by
        rw [Std.TreeMap.map_fst_toList_eq_keys]
        exact Std.TreeMap.nodup_keys
      exact keys.sublist (List.filter_sublist.map _)
    · rintro ⟨slot, segment⟩ member
      have found := Std.TreeMap.mem_toList_iff_getElem?_eq_some.mp (List.mem_filter.mp member).1
      exact ((h.listed slot segment).mp found).2
  · simp only [List.mem_map, List.mem_filter, Prod.exists, exists_eq_right, decide_eq_true_eq,
      Std.TreeMap.mem_toList_iff_getElem?_eq_some, h.listed]
    constructor
    · rintro ⟨_, ⟨held, rfl⟩, inside⟩
      exact ⟨held, inside⟩
    · rintro ⟨held, inside⟩
      exact ⟨_, ⟨held, rfl⟩, inside⟩

theorem Holds.getLatestSlot {segments : List DeltaSegmentMeta} {run : LocatorRun}
    (h : Holds segments run) (latest : UInt64) : run.locator.getLatestSlot = some latest ↔
      (∃ segment ∈ run.held, segment.startSlot = latest) ∧
        ∀ segment ∈ run.held, segment.startSlot ≤ latest := by
  have present (slot : UInt64) : slot ∈ run.locator.segmentsBySlot ↔
      ∃ segment ∈ run.held, segment.startSlot = slot := by
    rw [Std.TreeMap.mem_iff_isSome_getElem?, Option.isSome_iff_exists]
    simp only [h.listed]
  rw [DeltaLocator.getLatestSlot, Std.TreeMap.maxKey?_eq_some_iff_mem_and_forall, present]
  refine and_congr_right fun _ => ?_
  constructor
  · intro all segment held
    exact Std.isLE_compare.mp (all _ ((present _).mpr ⟨segment, held, rfl⟩))
  · intro all slot member
    obtain ⟨segment, held, rfl⟩ := (present slot).mp member
    exact Std.isLE_compare.mpr (all segment held)

/-- The range yields, without a panic, exactly the held segments that contain one of its slots. -/
def RangeExact (run : LocatorRun) (startSlot endSlot : UInt64) : Prop :=
  ∃ found, run.locator.getSegmentsForRange startSlot endSlot = .ok found ∧ found.Nodup ∧
    ∀ segment, segment ∈ found ↔ segment ∈ run.held ∧
      ∃ slot, (startSlot ≤ slot ∧ slot ≤ endSlot) ∧ segment.startSlot ≤ slot ∧ slot ≤ segment.endSlot

/-- The latest slot is the largest end of a held segment. -/
def LatestExact (run : LocatorRun) : Prop := ∀ latest, run.locator.getLatestSlot = some latest ↔
  (∃ segment ∈ run.held, segment.endSlot = latest) ∧ ∀ segment ∈ run.held, segment.endSlot ≤ latest

theorem Holds.rangeExact_iff {segments : List DeltaSegmentMeta} (proper : Proper segments)
    {run : LocatorRun} (h : Holds segments run) (startSlot endSlot : UInt64) :
    run.RangeExact startSlot endSlot ↔
      (startSlot ≤ endSlot ∨ run.locator.segmentsRooted = false) ∧
        ∀ segment ∈ run.held, ¬ (segment.startSlot < startSlot ∧ startSlot ≤ segment.endSlot) := by
  by_cases inverted : endSlot < startSlot
  · have backward : ¬ startSlot ≤ endSlot := UInt64.not_le.mpr inverted
    cases rooted : run.locator.segmentsRooted with
    | true =>
      have panics : run.locator.getSegmentsForRange startSlot endSlot = .fault := by
        rw [DeltaLocator.getSegmentsForRange, if_pos inverted, if_pos rooted]
      refine iff_of_false ?_ fun ⟨forward, _⟩ => forward.elim backward nofun
      rintro ⟨found, outcome, _⟩
      rw [panics] at outcome
      cases outcome
    | false =>
      have nothing : run.locator.getSegmentsForRange startSlot endSlot = .ok [] := by
        rw [DeltaLocator.getSegmentsForRange, if_pos inverted, rooted]
        rfl
      have empty := h.rooted rooted
      refine iff_of_true ⟨[], nothing, List.nodup_nil, fun segment => ?_⟩ ⟨.inr rfl, fun segment held => ?_⟩
      · simp [empty]
      · simp [empty] at held
  · obtain ⟨found, outcome, nodup, inside⟩ := h.getSegmentsForRange inverted
    have forward := UInt64.not_lt.mp inverted
    rw [and_iff_right (Or.inl forward)]
    simp only [UInt64.le_iff_toNat_le, UInt64.lt_iff_toNat_lt] at forward inside ⊢
    constructor
    · rintro ⟨listed, same, _, exactly⟩ segment held reaching
      cases same.symm.trans outcome
      -- A segment that starts before the range and reaches into it contains the first slot.
      have contains := (exactly segment).mpr ⟨held, startSlot, ⟨UInt64.le_refl _,
        UInt64.le_iff_toNat_le.mpr forward⟩, UInt64.le_iff_toNat_le.mpr reaching.1.le,
        UInt64.le_iff_toNat_le.mpr reaching.2⟩
      have starts := ((inside segment).mp contains).2.1
      omega
    · intro none
      refine ⟨found, outcome, nodup, fun segment => (inside segment).trans (and_congr_right fun held => ?_)⟩
      have proper := proper.ordered segment (h.among segment held)
      have apart := none segment held
      simp only [UInt64.le_iff_toNat_le]
      constructor
      · exact fun within => ⟨segment.startSlot, within, Nat.le_refl _, proper⟩
      · rintro ⟨slot, within, contained⟩
        omega

theorem Holds.latestExact_iff {segments : List DeltaSegmentMeta} (proper : Proper segments)
    {run : LocatorRun} (h : Holds segments run) : run.LatestExact ↔
      ∀ segment ∈ run.held, ∃ last ∈ run.held, segment.endSlot ≤ last.startSlot := by
  constructor
  · intro latest segment held
    obtain ⟨last, inside, largest⟩ := run.held.exists_max_image (·.endSlot.toNat) ⟨segment, held⟩
    have ends := (latest last.endSlot).mpr ⟨⟨last, inside, rfl⟩, fun other among =>
      UInt64.le_iff_toNat_le.mpr (largest other among)⟩
    obtain ⟨⟨newest, among, starts⟩, _⟩ := (h.getLatestSlot last.endSlot).mp ends
    exact ⟨newest, among, starts ▸ UInt64.le_iff_toNat_le.mpr (largest segment held)⟩
  · intro covered latest
    rw [h.getLatestSlot]
    have ordered := fun segment held => UInt64.le_iff_toNat_le.mpr (proper.ordered segment (h.among segment held))
    constructor
    · rintro ⟨⟨last, inside, rfl⟩, largest⟩
      have bound : ∀ segment ∈ run.held, segment.endSlot ≤ last.startSlot := by
        intro segment held
        obtain ⟨after, among, reached⟩ := covered segment held
        exact UInt64.le_trans reached (largest after among)
      exact ⟨⟨last, inside, UInt64.le_antisymm (bound last inside) (ordered last inside)⟩, bound⟩
    · rintro ⟨⟨last, inside, rfl⟩, largest⟩
      obtain ⟨after, among, reached⟩ := covered last inside
      have within := UInt64.le_trans (ordered after among) (largest after among)
      exact ⟨⟨after, among, UInt64.le_antisymm within reached⟩, fun segment held =>
        UInt64.le_trans (ordered segment held) (largest segment held)⟩

/-- The range and the latest slot are right exactly when the range is not inverted or
no segment was registered since the last clear, no held segment reaches into the range
from before, and every held segment ends no later than some held segment starts. -/
theorem range_and_latest_iff (actions : List LocatorAction)
    (proper : Proper (registeredSegments actions)) (startSlot endSlot : UInt64) :
    let run := actions.foldl act {}
    run.RangeExact startSlot endSlot ∧ run.LatestExact ↔
      ((startSlot ≤ endSlot ∨ ¬ Registered actions) ∧
        ∀ segment ∈ run.held, ¬ (segment.startSlot < startSlot ∧ startSlot ≤ segment.endSlot)) ∧
      ∀ segment ∈ run.held, ∃ last ∈ run.held, segment.endSlot ≤ last.startSlot := by
  have rootless := (foldl_rooted_iff actions).not
  rw [Bool.not_eq_true] at rootless
  rw [← rootless]
  exact and_congr ((foldl_holds proper).rangeExact_iff proper startSlot endSlot)
    ((foldl_holds proper).latestExact_iff proper)

/-- Two segments that touch, one that was removed, and a range that touches both. -/
theorem range_and_latest_iff_touching :
    let run := [LocatorAction.registerSegment ⟨"a", 100, 104, 3, 90⟩,
      .registerSegment ⟨"b", 104, 104, 1, 30⟩, .registerSegment ⟨"c", 7, 200, 1, 30⟩,
      .removeSegments [7]].foldl act {}
    run.RangeExact 90 104 ∧ run.LatestExact :=
  (range_and_latest_iff [.registerSegment ⟨"a", 100, 104, 3, 90⟩, .registerSegment ⟨"b", 104, 104, 1, 30⟩,
    .registerSegment ⟨"c", 7, 200, 1, 30⟩, .removeSegments [7]] ⟨by decide, by decide⟩ 90 104).mpr
      ⟨⟨.inl (by decide), by decide⟩, by decide⟩

/-- One segment of the slots 100 to 109: it is missing from the slots 105 to 107, an
inverted range panics, and the latest slot is 100. -/
theorem range_and_latest_wrong :
    let run := [LocatorAction.registerSegment ⟨"a", 100, 109, 3, 90⟩].foldl act {}
    ¬ run.RangeExact 105 107 ∧ ¬ run.RangeExact 7 3 ∧ ¬ run.LatestExact := by
  intro run
  have holds : Holds _ run := foldl_holds ⟨by decide, by decide⟩
  have proper : Proper [⟨"a", 100, 109, 3, 90⟩] := ⟨by decide, by decide⟩
  rw [holds.rangeExact_iff proper, holds.rangeExact_iff proper, holds.latestExact_iff proper]
  decide

end LocatorRun

end Hyperplane
