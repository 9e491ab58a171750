import Hyperplane.Lib.Transition
import Hyperplane.Types.Account

/-! The slot reconciler keeps the slot of every commitment level and the root
twice: in atomics and in a snapshot behind a lock. -/
namespace Hyperplane
open Transition

structure SlotReconcilerState where
  processedSlot : UInt64
  confirmedSlot : UInt64
  finalizedSlot : UInt64
  rootSlot : UInt64
  rollbackCount : UInt64
  deriving DecidableEq

structure SlotReconciler where
  state : SlotReconcilerState
  processedSlot : UInt64
  confirmedSlot : UInt64
  finalizedSlot : UInt64
  rootSlot : UInt64
  deriving DecidableEq

namespace SlotReconcilerState

def slotOf (state : SlotReconcilerState) : CommitmentLevel → UInt64
  | .processed => state.processedSlot
  | .confirmed => state.confirmedSlot
  | .finalized => state.finalizedSlot

end SlotReconcilerState

namespace SlotReconciler

def new (rootSlot : UInt64) : SlotReconciler where
  state := ⟨rootSlot, rootSlot, rootSlot, rootSlot, 0⟩
  processedSlot := rootSlot
  confirmedSlot := rootSlot
  finalizedSlot := rootSlot
  rootSlot := rootSlot

/-- The store to the atomic of a level, which takes no lock. -/
def store (self : SlotReconciler) (level : CommitmentLevel) (slot : UInt64) : SlotReconciler :=
  match level with
  | .processed => { self with processedSlot := slot }
  | .confirmed => { self with confirmedSlot := slot }
  | .finalized => { self with finalizedSlot := slot }

/-- The section under the lock that follows the store. -/
def write (self : SlotReconciler) (level : CommitmentLevel) (slot : UInt64) : SlotReconciler :=
  match level with
  | .processed => { self with state := { self.state with processedSlot := slot } }
  | .confirmed => { self with state := { self.state with confirmedSlot := slot } }
  | .finalized =>
    -- The root only ever follows the finalized slot upwards.
    if self.state.rootSlot < slot then
      { self with
        state := { self.state with finalizedSlot := slot, rootSlot := slot }
        rootSlot := slot }
    else { self with state := { self.state with finalizedSlot := slot } }

def update (self : SlotReconciler) (level : CommitmentLevel) (slot : UInt64) : SlotReconciler :=
  (self.store level slot).write level slot

def updateProcessed (self : SlotReconciler) (slot : UInt64) : SlotReconciler :=
  self.update .processed slot

def updateConfirmed (self : SlotReconciler) (slot : UInt64) : SlotReconciler :=
  self.update .confirmed slot

def updateFinalized (self : SlotReconciler) (slot : UInt64) : SlotReconciler :=
  self.update .finalized slot

def getRoot (self : SlotReconciler) : UInt64 := self.rootSlot

def getSlot (self : SlotReconciler) : CommitmentLevel → UInt64
  | .processed => self.processedSlot
  | .confirmed => self.confirmedSlot
  | .finalized => self.finalizedSlot

def isFinalized (self : SlotReconciler) (slot : UInt64) : Bool := slot ≤ self.finalizedSlot

def isConfirmed (self : SlotReconciler) (slot : UInt64) : Bool := slot ≤ self.confirmedSlot

/-- One section under the lock. Of the three levels only finalized is lowered. -/
def handleRollback (self : SlotReconciler) (newRoot : UInt64) : SlotReconciler :=
  let rooted := { self with
    state := { self.state with
      rollbackCount := self.state.rollbackCount + 1
      rootSlot := newRoot }
    rootSlot := newRoot }
  if newRoot < self.finalizedSlot then
    { rooted with
      state := { rooted.state with finalizedSlot := newRoot }
      finalizedSlot := newRoot }
  else rooted

def stats (self : SlotReconciler) : SlotReconcilerState := self.state

def rollbackCount (self : SlotReconciler) : UInt64 := self.state.rollbackCount

section update

variable (self : SlotReconciler) (level : CommitmentLevel) (slot : UInt64)

theorem getSlot_store (other : CommitmentLevel) :
    (self.store level slot).getSlot other = if other = level then slot else self.getSlot other := by
  cases level <;> cases other <;> rfl

@[simp]
theorem getSlot_write (other : CommitmentLevel) :
    (self.write level slot).getSlot other = self.getSlot other := by
  cases level with
  | processed => cases other <;> rfl
  | confirmed => cases other <;> rfl
  | finalized =>
    simp only [write]
    split <;> cases other <;> rfl

@[simp]
theorem stats_store : (self.store level slot).stats = self.stats := by
  cases level <;> rfl

@[simp]
theorem getRoot_store : (self.store level slot).getRoot = self.getRoot := by
  cases level <;> rfl

theorem slotOf_write (other : CommitmentLevel) : (self.write level slot).stats.slotOf other =
    if other = level then slot else self.stats.slotOf other := by
  cases level with
  | processed => cases other <;> rfl
  | confirmed => cases other <;> rfl
  | finalized =>
    simp only [write]
    split <;> cases other <;> rfl

/-- Both copies of the root are written in one section. -/
theorem root_write (same : self.getRoot = self.stats.rootSlot) :
    (self.write level slot).getRoot = (self.write level slot).stats.rootSlot := by
  cases level with
  | processed => exact same
  | confirmed => exact same
  | finalized =>
    simp only [write]
    split
    · rfl
    · exact same

theorem getSlot_update (other : CommitmentLevel) :
    (self.update level slot).getSlot other = if other = level then slot else self.getSlot other := by
  rw [update, getSlot_write, getSlot_store]

end update

/-- A rollback caps the finalized slot and leaves the other two. -/
theorem getSlot_handleRollback (self : SlotReconciler) (newRoot : UInt64) (level : CommitmentLevel) :
    (self.handleRollback newRoot).getSlot level =
      if level = .finalized ∧ newRoot < self.getSlot .finalized then newRoot
      else self.getSlot level := by
  by_cases lowered : newRoot < self.finalizedSlot
  · cases level <;> simp [handleRollback, getSlot, lowered]
  · cases level <;> simp [handleRollback, getSlot, lowered]

theorem slotOf_handleRollback (self : SlotReconciler) (newRoot : UInt64) (level : CommitmentLevel) :
    (self.handleRollback newRoot).stats.slotOf level =
      if level = .finalized ∧ newRoot < self.getSlot .finalized then newRoot
      else self.stats.slotOf level := by
  by_cases lowered : newRoot < self.finalizedSlot
  · cases level <;> simp [handleRollback, stats, SlotReconcilerState.slotOf, getSlot, lowered]
  · cases level <;> simp [handleRollback, stats, SlotReconcilerState.slotOf, getSlot, lowered]

theorem root_handleRollback (self : SlotReconciler) (newRoot : UInt64) :
    (self.handleRollback newRoot).getRoot = (self.handleRollback newRoot).stats.rootSlot := by
  simp only [handleRollback, getRoot, stats]
  split <;> rfl

theorem getRoot_handleRollback (self : SlotReconciler) (newRoot : UInt64) :
    (self.handleRollback newRoot).getRoot = newRoot := by
  simp only [handleRollback, getRoot]
  split <;> rfl

theorem isFinalized_iff (self : SlotReconciler) (slot : UInt64) :
    self.isFinalized slot = true ↔ slot ≤ self.getSlot .finalized := decide_eq_true_iff

theorem isConfirmed_iff (self : SlotReconciler) (slot : UInt64) :
    self.isConfirmed slot = true ↔ slot ≤ self.getSlot .confirmed := decide_eq_true_iff

end SlotReconciler

inductive ReconcilerCall where
  | updateProcessed (slot : UInt64)
  | updateConfirmed (slot : UInt64)
  | updateFinalized (slot : UInt64)
  | handleRollback (newRoot : UInt64)
  deriving DecidableEq

namespace SlotReconciler

def call (self : SlotReconciler) : ReconcilerCall → SlotReconciler
  | .updateProcessed slot => self.updateProcessed slot
  | .updateConfirmed slot => self.updateConfirmed slot
  | .updateFinalized slot => self.updateFinalized slot
  | .handleRollback newRoot => self.handleRollback newRoot

section ordered

/-- Finalized is at most confirmed, confirmed at most processed. -/
def Ordered (self : SlotReconciler) : Prop :=
  self.getSlot .finalized ≤ self.getSlot .confirmed ∧ self.getSlot .confirmed ≤ self.getSlot .processed

/-- The update stays between the neighbouring levels; a rollback always does. -/
def StaysBetween (self : SlotReconciler) (call : ReconcilerCall) (_ : SlotReconciler) : Prop :=
  match call with
  | .updateProcessed slot => self.getSlot .confirmed ≤ slot
  | .updateConfirmed slot => self.getSlot .finalized ≤ slot ∧ slot ≤ self.getSlot .processed
  | .updateFinalized slot => slot ≤ self.getSlot .confirmed
  | .handleRollback _ => True

theorem new_ordered (root : UInt64) : (new root).Ordered :=
  ⟨UInt64.le_refl root, UInt64.le_refl root⟩

theorem Ordered.isConfirmed {self : SlotReconciler} (h : self.Ordered) {slot : UInt64}
    (final : self.isFinalized slot = true) : self.isConfirmed slot = true :=
  (isConfirmed_iff self slot).mpr (UInt64.le_trans ((isFinalized_iff self slot).mp final) h.1)

theorem Ordered.handleRollback {self : SlotReconciler} (h : self.Ordered) (newRoot : UInt64) :
    (self.handleRollback newRoot).Ordered := by
  have confirmed : (self.handleRollback newRoot).getSlot .confirmed = self.getSlot .confirmed := by
    simp [getSlot_handleRollback]
  have processed : (self.handleRollback newRoot).getSlot .processed = self.getSlot .processed := by
    simp [getSlot_handleRollback]
  have capped : (self.handleRollback newRoot).getSlot .finalized ≤ self.getSlot .finalized := by
    rw [getSlot_handleRollback]
    split
    · rename_i lowered
      exact UInt64.le_of_lt lowered.2
    · exact UInt64.le_refl _
  rw [Ordered, confirmed, processed]
  exact ⟨UInt64.le_trans capped h.1, h.2⟩

theorem Ordered.call_iff {self : SlotReconciler} (h : self.Ordered) (call : ReconcilerCall) :
    (self.call call).Ordered ↔ self.StaysBetween call (self.call call) := by
  cases call with
  | updateProcessed slot =>
    simp [SlotReconciler.call, updateProcessed, Ordered, getSlot_update, StaysBetween, h.1]
  | updateConfirmed slot =>
    simp [SlotReconciler.call, updateConfirmed, Ordered, getSlot_update, StaysBetween]
  | updateFinalized slot =>
    simp [SlotReconciler.call, updateFinalized, Ordered, getSlot_update, StaysBetween, h.2]
  | handleRollback newRoot => exact iff_of_true (h.handleRollback newRoot) trivial

/-- A run keeps the levels ordered exactly when every update stays between the
neighbours of its level. -/
theorem levels_ordered_iff (root : UInt64) (calls : List ReconcilerCall) :
    Along (ofFun call)
        (fun _ _ t => t.Ordered ∧ ∀ slot, t.isFinalized slot = true → t.isConfirmed slot = true)
        (new root) calls ↔
      Along (ofFun call) StaysBetween (new root) calls := by
  refine along_ofFun_iff Ordered ?_ ?_ (new_ordered root) calls
  · intro s call h
    rw [← h.call_iff call]
    exact ⟨fun point => point.1, fun ordered => ⟨ordered, fun slot => ordered.isConfirmed⟩⟩
  · intro s call h stays
    exact (h.call_iff call).mpr stays

/-- Neither the order of the levels nor the guard of the root is checked. -/
theorem finalized_passes_confirmed : ¬ Along (ofFun call)
    (fun _ _ t => t.Ordered ∧ ∀ slot, t.isFinalized slot = true → t.isConfirmed slot = true)
    (new 100) [.updateFinalized 103] := by
  intro along
  have ordered := (along _ rfl).1.1.1
  revert ordered
  decide

end ordered

section rollback

/-- No level claims a slot above the root that was rolled back to. -/
def RolledBack (self : SlotReconciler) (newRoot : UInt64) : Prop :=
  (∀ level, self.getSlot level ≤ newRoot) ∧ self.getRoot = newRoot ∧
    ∀ slot, newRoot < slot → self.isConfirmed slot = false ∧ self.isFinalized slot = false

theorem rolledBack_iff (self : SlotReconciler) (newRoot : UInt64) :
    self.RolledBack newRoot ↔ (∀ level, self.getSlot level ≤ newRoot) ∧ self.getRoot = newRoot := by
  refine ⟨fun h => ⟨h.1, h.2.1⟩, fun ⟨below, root⟩ => ⟨below, root, fun slot above => ⟨?_, ?_⟩⟩⟩
  · refine Bool.eq_false_iff.mpr fun confirmed => ?_
    have reached := UInt64.le_trans ((isConfirmed_iff self slot).mp confirmed) (below .confirmed)
    exact UInt64.not_lt.mpr reached above
  · refine Bool.eq_false_iff.mpr fun final => ?_
    have reached := UInt64.le_trans ((isFinalized_iff self slot).mp final) (below .finalized)
    exact UInt64.not_lt.mpr reached above

theorem handleRollback_rolledBack_iff (self : SlotReconciler) (newRoot : UInt64) :
    (self.handleRollback newRoot).RolledBack newRoot ↔
      self.getSlot .processed ≤ newRoot ∧ self.getSlot .confirmed ≤ newRoot := by
  rw [rolledBack_iff, getRoot_handleRollback]
  simp only [getSlot_handleRollback, and_true]
  constructor
  · intro below
    exact ⟨below .processed, below .confirmed⟩
  · rintro ⟨processed, confirmed⟩ level
    cases level with
    | processed => simpa using processed
    | confirmed => simpa using confirmed
    | finalized =>
      split
      · exact UInt64.le_refl newRoot
      · rename_i kept
        exact UInt64.not_lt.mp fun above => kept ⟨rfl, above⟩

/-- What a rollback must leave, as a property of the step. -/
def RollbackClears (_ : SlotReconciler) (call : ReconcilerCall) (t : SlotReconciler) : Prop :=
  match call with
  | .handleRollback newRoot => t.RolledBack newRoot
  | _ => True

/-- The two levels a rollback does not lower are not above the new root. -/
def NothingAbove (s : SlotReconciler) (call : ReconcilerCall) (_ : SlotReconciler) : Prop :=
  match call with
  | .handleRollback newRoot => s.getSlot .processed ≤ newRoot ∧ s.getSlot .confirmed ≤ newRoot
  | _ => True

theorem rollbacks_clear_iff (root : UInt64) (calls : List ReconcilerCall) :
    Along (ofFun call) RollbackClears (new root) calls ↔
      Along (ofFun call) NothingAbove (new root) calls := by
  refine along_ofFun_iff (fun _ => True) ?_ (fun _ _ _ _ => trivial) trivial calls
  intro s call _
  cases call with
  | handleRollback newRoot => exact handleRollback_rolledBack_iff s newRoot
  | _ => exact Iff.rfl

theorem confirmed_survives_rollback : ¬ Along (ofFun call) RollbackClears (new 100)
    [.updateProcessed 105, .updateConfirmed 104, .updateFinalized 103, .handleRollback 102] := by
  intro along
  have cleared : RolledBack _ 102 := ((((along _ rfl).2 _ rfl).2 _ rfl).2 _ rfl).1
  have below := cleared.1 .confirmed
  revert below
  decide

end rollback

end SlotReconciler

end Hyperplane
