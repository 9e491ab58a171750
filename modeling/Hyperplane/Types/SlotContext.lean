import Hyperplane.Lib.Transition
import Hyperplane.Types.Account

/-! The slots of the commitment levels as reads see them. Confirmed and finalized lag
behind the processed slot, and stay where they are while it is too low. -/
namespace Hyperplane
open Transition

structure SlotContext where
  processedSlot : UInt64
  confirmedSlot : UInt64
  finalizedSlot : UInt64
  parentSlot : UInt64
  deriving DecidableEq

namespace SlotContext

def new : SlotContext := ⟨0, 0, 0, 0⟩

/-- The parent it is given is not used. -/
def update (self : SlotContext) (newSlot _parentSlot : UInt64) : SlotContext where
  parentSlot := self.processedSlot
  processedSlot := newSlot
  confirmedSlot := if 1 < newSlot then newSlot - 1 else self.confirmedSlot
  finalizedSlot := if 31 < newSlot then newSlot - 31 else self.finalizedSlot

def getWatermark (self : SlotContext) : CommitmentLevel → UInt64
  | .processed => self.processedSlot
  | .confirmed => self.confirmedSlot
  | .finalized => self.finalizedSlot

def isVisible (self : SlotContext) (slot : UInt64) (commitment : CommitmentLevel) : Bool :=
  slot ≤ self.getWatermark commitment

def Ordered (self : SlotContext) : Prop :=
  self.finalizedSlot ≤ self.confirmedSlot ∧ self.confirmedSlot ≤ self.processedSlot

instance (self : SlotContext) : Decidable self.Ordered := inferInstanceAs (Decidable (_ ∧ _))

/-- A slot visible at one level is visible at the levels below. -/
def VisibilityNested (self : SlotContext) : Prop :=
  ∀ slot, (self.isVisible slot .finalized = true → self.isVisible slot .confirmed = true) ∧
    (self.isVisible slot .confirmed = true → self.isVisible slot .processed = true)

theorem isVisible_iff (self : SlotContext) (slot : UInt64) (commitment : CommitmentLevel) :
    self.isVisible slot commitment = true ↔ slot ≤ self.getWatermark commitment := decide_eq_true_iff

theorem Ordered.visibilityNested {self : SlotContext} (h : self.Ordered) : self.VisibilityNested := by
  intro slot
  rw [isVisible_iff, isVisible_iff, isVisible_iff]
  exact ⟨fun seen => UInt64.le_trans seen h.1, fun seen => UInt64.le_trans seen h.2⟩

/-- The slot sets both other levels, or is not below the one that keeps its old value. -/
def Clears (self : SlotContext) (newSlot : UInt64) : Prop :=
  31 < newSlot ∨ (1 < newSlot ∧ self.finalizedSlot < newSlot) ∨
    (newSlot ≤ 1 ∧ self.confirmedSlot ≤ newSlot)

theorem Ordered.update_iff {self : SlotContext} (h : self.Ordered) (newSlot parentSlot : UInt64) :
    (self.update newSlot parentSlot).Ordered ↔ self.Clears newSlot := by
  obtain ⟨final, confirmed⟩ := h
  simp only [Ordered, update, Clears, UInt64.lt_iff_toNat_lt, UInt64.le_iff_toNat_le] at *
  have one : (1 : UInt64).toNat = 1 := rfl
  have lag : (31 : UInt64).toNat = 31 := rfl
  rw [one, lag]
  by_cases high : 31 < newSlot.toNat
  · have above : 1 < newSlot.toNat := by omega
    have less := UInt64.toNat_sub_of_le newSlot 1 (UInt64.le_iff_toNat_le.mpr (by omega))
    have behind := UInt64.toNat_sub_of_le newSlot 31 (UInt64.le_iff_toNat_le.mpr (by omega))
    rw [if_pos high, if_pos above, less, behind, one, lag]
    omega
  · rw [if_neg high]
    by_cases above : 1 < newSlot.toNat
    · have less := UInt64.toNat_sub_of_le newSlot 1 (UInt64.le_iff_toNat_le.mpr (by omega))
      rw [if_pos above, less, one]
      omega
    · rw [if_neg above]
      omega

/-- What an update should leave: levels in order, and the parent it was given. -/
def Updated (_ : SlotContext) (call : UInt64 × UInt64) (t : SlotContext) : Prop :=
  t.Ordered ∧ t.VisibilityNested ∧ t.parentSlot = call.2

/-- The slot clears the old values, and its parent is the slot processed before it. -/
def FollowsOn (s : SlotContext) (call : UInt64 × UInt64) (_ : SlotContext) : Prop :=
  s.Clears call.1 ∧ call.2 = s.processedSlot

def call (self : SlotContext) (call : UInt64 × UInt64) : SlotContext := self.update call.1 call.2

theorem Ordered.updated_iff {s : SlotContext} (h : s.Ordered) (call : UInt64 × UInt64) :
    s.Updated call (s.call call) ↔ s.FollowsOn call (s.call call) := by
  have ordered := h.update_iff call.1 call.2
  constructor
  · rintro ⟨after, _, parent⟩
    exact ⟨ordered.mp after, parent.symm⟩
  · rintro ⟨clears, parent⟩
    have after := ordered.mpr clears
    exact ⟨after, after.visibilityNested, parent.symm⟩

/-- The levels stay in order with the right parent exactly as long as every update follows
on from the one before. -/
theorem updates_ordered_iff (calls : List (UInt64 × UInt64)) :
    Along (ofFun call) Updated new calls ↔ Along (ofFun call) FollowsOn new calls := by
  refine along_ofFun_iff Ordered ?_ ?_ (by decide) calls
  · intro s call h
    exact h.updated_iff call
  · intro s call h follows
    exact ((h.updated_iff call).mpr follows).1

/-- After a restart at a low slot the finalized slot is the old one. -/
theorem restart_leaves_finalized :
    ¬ Along (ofFun call) Updated new [(100, 0), (5, 100)] := by
  intro along
  obtain ⟨_, later⟩ := along _ rfl
  obtain ⟨⟨ordered, _⟩, _⟩ := later _ rfl
  revert ordered
  decide

end SlotContext

end Hyperplane
