import Hyperplane.Delta.ReducerRuns

/-! The accounts of the update reducer: every update added is deduplicated, flushed or
pending. Adds and flushes take the lock for the whole call, so a run is a sequence of them. -/
namespace Hyperplane
open Maps Newer Transition

structure ReducerStats where
  pendingCount : UInt64
  flushedCount : UInt64
  dedupCount : UInt64
  deriving DecidableEq

namespace UpdateReducer

def pendingCount (reducer : UpdateReducer) : Nat := reducer.pendingUpdates.size

def stats (reducer : UpdateReducer) : ReducerStats where
  pendingCount := UInt64.ofNat reducer.pendingUpdates.size
  flushedCount := reducer.flushedCount
  dedupCount := reducer.dedupCount

theorem counts_addUpdate (reducer : UpdateReducer) (update : ReducerUpdate) :
    (reducer.addUpdate update.pubkey update.slot update.writeVersion update.location).2.flushedCount =
        reducer.flushedCount ∧
      (reducer.addUpdate update.pubkey update.slot update.writeVersion update.location).2.dedupCount =
        reducer.dedupCount + if (reducer.addUpdate update.pubkey update.slot update.writeVersion
          update.location).1 then 1 else 0 := by
  have count : (if reducer.pendingUpdates.contains update.pubkey then reducer.dedupCount + 1
      else reducer.dedupCount) =
      reducer.dedupCount + if reducer.pendingUpdates.contains update.pubkey then 1 else 0 := by
    split
    · rfl
    · exact (UInt64.add_zero _).symm
  unfold addUpdate
  cases reducer.pendingUpdates[update.pubkey]? with
  | none => exact ⟨rfl, count⟩
  | some existing =>
    dsimp only
    split <;> exact ⟨rfl, count⟩

/-- An older update leaves the pubkey pending as well. -/
theorem contains_addUpdate (reducer : UpdateReducer) (update : ReducerUpdate) (pubkey : Pubkey) :
    ((reducer.addUpdate update.pubkey update.slot update.writeVersion
        update.location).2.pendingUpdates[pubkey]?).isSome ↔
      (reducer.pendingUpdates[pubkey]?).isSome ∨ pubkey = update.pubkey := by
  rw [pending_addUpdate]
  split
  · rename_i same
    refine iff_of_true ?_ (.inr same)
    unfold keep
    split
    · rfl
    · split <;> rfl
  · rename_i other
    exact (or_iff_left other).symm

/-- The pubkeys that a flush hands out are the keys of the map. -/
theorem pubkeys_flush (reducer : UpdateReducer) (order : HashOrder Pubkey) :
    (reducer.flush order).1.map Prod.fst = order.list reducer.pendingUpdates.keys.toFinset := by
  have named : ∀ pubkey ∈ order.list reducer.pendingUpdates.keys.toFinset,
      ((reducer.pendingUpdates[pubkey]?.map fun update => (pubkey, update)).map Prod.fst) = some pubkey := by
    intro pubkey member
    rw [order.mem_list, List.mem_toFinset, Std.TreeMap.mem_keys] at member
    rw [Std.TreeMap.getElem?_eq_some_getElem member]
    rfl
  rw [flush, getPendingUpdates, List.map_filterMap, List.filterMap_congr named, List.filterMap_some]

end UpdateReducer

inductive ReducerAction where
  | addUpdate (update : ReducerUpdate)
  | flush (order : HashOrder Pubkey)

/-- A reducer, how many updates were added to it and how many of the calls returned true,
and the pubkeys added since the last flush. -/
structure ReducerLedger where
  reducer : UpdateReducer
  adds : Nat := 0
  dedups : Nat := 0
  added : List Pubkey := []

namespace ReducerLedger

def apply (ledger : ReducerLedger) : ReducerAction → ReducerLedger
  | .addUpdate update =>
    let (isDedup, reducer) :=
      ledger.reducer.addUpdate update.pubkey update.slot update.writeVersion update.location
    { reducer
      adds := ledger.adds + 1
      dedups := ledger.dedups + if isDedup then 1 else 0
      added := ledger.added ++ [update.pubkey] }
  | .flush order => { ledger with
      reducer := (ledger.reducer.flush order).2
      added := [] }

/-- Every update added was deduplicated, flushed or is pending, as far as 64 bits count. -/
structure Balanced (ledger : ReducerLedger) : Prop where
  adds : UInt64.ofNat ledger.adds = ledger.reducer.stats.dedupCount + ledger.reducer.stats.flushedCount +
    ledger.reducer.stats.pendingCount
  exact_adds : ledger.adds < 2 ^ 64 → ledger.adds = ledger.reducer.stats.dedupCount.toNat +
    ledger.reducer.stats.flushedCount.toNat + ledger.reducer.pendingCount
  dedups : ledger.reducer.stats.dedupCount = UInt64.ofNat ledger.dedups

/-- The counters stand for numbers that add up. -/
structure Counted (ledger : ReducerLedger) (flushed : Nat) : Prop where
  adds : ledger.adds = ledger.dedups + flushed + ledger.reducer.pendingCount
  flushes : ledger.reducer.flushedCount = UInt64.ofNat flushed
  dedups : ledger.reducer.dedupCount = UInt64.ofNat ledger.dedups

theorem Counted.balanced {ledger : ReducerLedger} {flushed : Nat} (h : ledger.Counted flushed) :
    ledger.Balanced where
  adds := by
    rw [h.adds, UInt64.ofNat_add, UInt64.ofNat_add, ← h.flushes, ← h.dedups]
    rfl
  exact_adds below := by
    have adds := h.adds
    have dedups : ledger.reducer.stats.dedupCount.toNat = ledger.dedups :=
      (congrArg UInt64.toNat h.dedups).trans (UInt64.toNat_ofNat_of_lt' (Nat.lt_of_le_of_lt (by omega) below))
    have flushes : ledger.reducer.stats.flushedCount.toNat = flushed :=
      (congrArg UInt64.toNat h.flushes).trans (UInt64.toNat_ofNat_of_lt' (Nat.lt_of_le_of_lt (by omega) below))
    rw [dedups, flushes]
    exact adds
  dedups := h.dedups

/-- A flush hands out what was added since the last one, each pubkey once, and leaves
nothing pending. -/
def FlushesAdded (before : ReducerLedger) (action : ReducerAction) (after : ReducerLedger) : Prop :=
  match action with
  | .addUpdate _ => True
  | .flush order =>
    ((before.reducer.flush order).1.map Prod.fst).Nodup ∧
      (∀ pubkey, pubkey ∈ (before.reducer.flush order).1.map Prod.fst ↔ pubkey ∈ before.added) ∧
      after.reducer.pendingCount = 0

/-- What the ledger keeps for the next flush. -/
def Recorded (ledger : ReducerLedger) : Prop :=
  ∀ pubkey : Pubkey, (ledger.reducer.pendingUpdates[pubkey]?).isSome ↔ pubkey ∈ ledger.added

theorem Recorded.flushesAdded {ledger : ReducerLedger} (h : ledger.Recorded) (action : ReducerAction) :
    FlushesAdded ledger action (ledger.apply action) := by
  cases action with
  | addUpdate update => trivial
  | flush order =>
    refine ⟨?_, fun pubkey => ?_, rfl⟩
    · rw [UpdateReducer.pubkeys_flush]
      exact order.nodup_list _
    · rw [UpdateReducer.pubkeys_flush, order.mem_list, List.mem_toFinset, Std.TreeMap.mem_keys,
        ← Std.TreeMap.isSome_getElem?_iff_mem]
      exact h pubkey

theorem Recorded.apply {ledger : ReducerLedger} (h : ledger.Recorded) (action : ReducerAction) :
    (ledger.apply action).Recorded := by
  intro pubkey
  cases action with
  | addUpdate update =>
    refine (UpdateReducer.contains_addUpdate ledger.reducer update pubkey).trans ?_
    rw [h pubkey]
    exact (List.mem_append.trans (or_congr_right List.mem_singleton)).symm
  | flush order => exact iff_of_false (by simp [ReducerLedger.apply, UpdateReducer.flush]) List.not_mem_nil

theorem Counted.apply {ledger : ReducerLedger} {flushed : Nat} (h : ledger.Counted flushed)
    (action : ReducerAction) : ∃ after, (ledger.apply action).Counted after := by
  obtain ⟨adds, flushes, dedups⟩ := h
  cases action with
  | addUpdate update =>
    obtain ⟨kept, counted⟩ := UpdateReducer.counts_addUpdate ledger.reducer update
    have size := UpdateReducer.size_addUpdate ledger.reducer update
    refine ⟨flushed, ?_, kept.trans flushes, ?_⟩
    · simp only [UpdateReducer.pendingCount] at adds
      simp only [ReducerLedger.apply, UpdateReducer.pendingCount, size]
      split <;> omega
    · simp only [ReducerLedger.apply, counted, dedups]
      split
      · exact (UInt64.ofNat_add ledger.dedups 1).symm
      · exact UInt64.add_zero _
  | flush order =>
    refine ⟨flushed + ledger.reducer.pendingCount, ?_, ?_, dedups⟩
    · simp only [ReducerLedger.apply, UpdateReducer.flush, UpdateReducer.pendingCount, Std.TreeMap.size_emptyc]
      exact adds.trans (Nat.add_assoc ..)
    · rw [UInt64.ofNat_add, ← flushes]
      rfl

/-- Updates are conserved over every run of adds and flushes. -/
theorem updates_conserved (flushThreshold : Nat) (actions : List ReducerAction) :
    Along (ofFun apply) (fun before action after => after.Balanced ∧ FlushesAdded before action after)
      { reducer := { flushThreshold } } actions := by
  refine along_of_invariant (fun ledger => (∃ flushed, ledger.Counted flushed) ∧ ledger.Recorded)
    (fun _ _ _ => True) _ ?_ ?_ (along_labels _ (fun _ _ => trivial) _)
  · rintro ledger action _ ⟨⟨flushed, counted⟩, recorded⟩ rfl _
    obtain ⟨total, kept⟩ := counted.apply action
    exact ⟨⟨⟨total, kept⟩, recorded.apply action⟩, kept.balanced, recorded.flushesAdded action⟩
  · refine ⟨⟨0, rfl, rfl, rfl⟩, fun pubkey => ?_⟩
    simp

end ReducerLedger

end Hyperplane
