import Hyperplane.Reconciler.SlotReconciler
import Hyperplane.Ring.Buffer

/-! The watermarks of the slot reconciler over whole runs: what every sequence of
calls keeps, and when the slots of the levels are the highest that were reported. -/
namespace Hyperplane
open Transition

def ReconcilerCall.isRollback : ReconcilerCall → Bool
  | .handleRollback _ => true
  | _ => false

namespace SlotReconciler

/-- The finalized slot is not past the root, and every atomic has its copy behind the
lock. -/
structure Consistent (s : SlotReconciler) : Prop where
  rooted : s.getSlot .finalized ≤ s.getRoot
  slots : ∀ level, s.getSlot level = s.stats.slotOf level
  root : s.getRoot = s.stats.rootSlot

theorem new_consistent (root : UInt64) : (new root).Consistent where
  rooted := UInt64.le_refl root
  slots level := by cases level <;> rfl
  root := rfl

theorem slotOf_update (self : SlotReconciler) (level : CommitmentLevel) (slot : UInt64)
    (other : CommitmentLevel) : (self.update level slot).stats.slotOf other =
      if other = level then slot else self.stats.slotOf other := by
  rw [update, slotOf_write, stats_store]

theorem getRoot_update (self : SlotReconciler) (level : CommitmentLevel) (slot : UInt64) :
    (self.update level slot).getRoot =
      if level = .finalized ∧ self.stats.rootSlot < slot then slot else self.getRoot := by
  cases level with
  | processed => rfl
  | confirmed => rfl
  | finalized =>
    by_cases raised : self.state.rootSlot < slot
    · simp [update, store, write, getRoot, stats, raised]
    · simp [update, store, write, getRoot, stats, raised]

/-- The root follows the finalized slot upwards before it could be passed. -/
theorem Consistent.update {self : SlotReconciler} (h : self.Consistent) (level : CommitmentLevel)
    (slot : UInt64) : (self.update level slot).Consistent where
  rooted := by
    rw [getSlot_update, getRoot_update, ← h.root]
    by_cases final : CommitmentLevel.finalized = level
    · rw [if_pos final]
      split
      · exact UInt64.le_refl slot
      · rename_i kept
        exact UInt64.not_lt.mp fun above => kept ⟨final.symm, above⟩
    · rw [if_neg final, if_neg fun moved => final moved.1.symm]
      exact h.rooted
  slots other := by
    rw [getSlot_update, slotOf_update]
    split
    · rfl
    · exact h.slots other
  root := root_write _ level slot (by rw [getRoot_store, stats_store, h.root])

/-- A rollback caps the finalized slot at the new root. -/
theorem Consistent.handleRollback {self : SlotReconciler} (h : self.Consistent) (newRoot : UInt64) :
    (self.handleRollback newRoot).Consistent where
  rooted := by
    rw [getSlot_handleRollback, getRoot_handleRollback]
    split
    · exact UInt64.le_refl newRoot
    · rename_i kept
      exact UInt64.not_lt.mp fun above => kept ⟨rfl, above⟩
  slots level := by
    rw [getSlot_handleRollback, slotOf_handleRollback]
    split
    · rfl
    · exact h.slots level
  root := root_handleRollback self newRoot

theorem Consistent.call {self : SlotReconciler} (h : self.Consistent) (call : ReconcilerCall) :
    (self.call call).Consistent := by
  cases call with
  | updateProcessed slot => exact h.update .processed slot
  | updateConfirmed slot => exact h.update .confirmed slot
  | updateFinalized slot => exact h.update .finalized slot
  | handleRollback newRoot => exact h.handleRollback newRoot

theorem rollbackCount_update (self : SlotReconciler) (level : CommitmentLevel) (slot : UInt64) :
    (self.update level slot).rollbackCount = self.rollbackCount := by
  cases level with
  | processed => rfl
  | confirmed => rfl
  | finalized =>
    by_cases raised : self.state.rootSlot < slot
    · simp [update, store, write, rollbackCount, raised]
    · simp [update, store, write, rollbackCount, raised]

theorem rollbackCount_call (self : SlotReconciler) (call : ReconcilerCall) :
    (self.call call).rollbackCount =
      if call.isRollback then self.rollbackCount + 1 else self.rollbackCount := by
  cases call with
  | handleRollback newRoot =>
    by_cases lowered : newRoot < self.finalizedSlot
    · simp [SlotReconciler.call, handleRollback, rollbackCount, lowered, ReconcilerCall.isRollback]
    · simp [SlotReconciler.call, handleRollback, rollbackCount, lowered, ReconcilerCall.isRollback]
  | _ => exact rollbackCount_update self _ _

theorem rollbackCount_run (calls : List ReconcilerCall) (self : SlotReconciler) :
    (calls.foldl call self).rollbackCount =
      self.rollbackCount + UInt64.ofNat (calls.countP ReconcilerCall.isRollback) := by
  induction calls generalizing self with
  | nil => simp
  | cons first rest ih =>
    rw [List.foldl_cons, ih, rollbackCount_call, List.countP_cons]
    cases first.isRollback with
    | false => simp
    | true =>
      have next (n : Nat) : UInt64.ofNat (n + 1) = 1 + UInt64.ofNat n := by
        rw [UInt64.ofNat_add, UInt64.add_comm]
        rfl
      simp only [if_true, next, UInt64.add_assoc]

/-- After every sequence of calls both copies of the four slots agree, finalized is at
most the root, and the rollbacks are counted, as far as 64 bits count. -/
theorem run_consistent (root : UInt64) (calls : List ReconcilerCall) :
    (calls.foldl call (new root)).Consistent ∧
      (calls.foldl call (new root)).rollbackCount =
        UInt64.ofNat (calls.countP ReconcilerCall.isRollback) := by
  refine ⟨foldl_invariant Consistent (fun _ call h => h.call call) (new_consistent root) calls, ?_⟩
  rw [rollbackCount_run]
  exact UInt64.zero_add _

end SlotReconciler

/-- The slot is the highest of the list. -/
def Highest (slots : List UInt64) (slot : UInt64) : Prop := slot ∈ slots ∧ ∀ other ∈ slots, other ≤ slot

theorem Highest.cons {slots : List UInt64} {highest slot : UInt64} (h : Highest slots highest)
    (above : highest ≤ slot) : Highest (slot :: slots) slot := by
  refine ⟨List.mem_cons_self .., fun other member => ?_⟩
  rcases List.mem_cons.mp member with rfl | before
  · exact UInt64.le_refl other
  · exact UInt64.le_trans (h.2 other before) above

/-- The reconciler, and the root it began with and all slots reported for every level. -/
structure WatermarkRun where
  reconciler : SlotReconciler
  reported : CommitmentLevel → List UInt64

namespace WatermarkRun

def start (root : UInt64) : WatermarkRun := ⟨.new root, fun _ => [root]⟩

def step (s : WatermarkRun) (report : CommitmentLevel × UInt64) : WatermarkRun where
  reconciler := s.reconciler.update report.1 report.2
  reported level := if level = report.1 then report.2 :: s.reported level else s.reported level

def AtHighest (s : WatermarkRun) : Prop :=
  ∀ level, Highest (s.reported level) (s.reconciler.getSlot level)

/-- Every level is at the highest slot reported for it, and none went back. -/
def Forward (s : WatermarkRun) (_ : CommitmentLevel × UInt64) (t : WatermarkRun) : Prop :=
  t.AtHighest ∧ ∀ level, s.reconciler.getSlot level ≤ t.reconciler.getSlot level

/-- The slot reported is not behind the level's. -/
def NotBehind (s : WatermarkRun) (report : CommitmentLevel × UInt64) (_ : WatermarkRun) : Prop :=
  s.reconciler.getSlot report.1 ≤ report.2

theorem start_atHighest (root : UInt64) : (start root).AtHighest := by
  intro level
  have initial : (start root).reconciler.getSlot level = root := by cases level <;> rfl
  rw [initial]
  refine ⟨List.mem_singleton_self root, fun other member => ?_⟩
  rw [List.mem_singleton.mp member]
  exact UInt64.le_refl root

theorem AtHighest.forward {s : WatermarkRun} (h : s.AtHighest) {report : CommitmentLevel × UInt64}
    (notBehind : s.reconciler.getSlot report.1 ≤ report.2) : s.Forward report (s.step report) := by
  have slot (level : CommitmentLevel) := s.reconciler.getSlot_update report.1 report.2 level
  constructor
  · intro level
    simp only [step, slot]
    by_cases same : level = report.1
    · subst same
      simpa only [if_true] using (h _).cons notBehind
    · simpa only [if_neg same] using h level
  · intro level
    simp only [step, slot]
    split
    · rename_i same
      exact same ▸ notBehind
    · exact UInt64.le_refl _

theorem AtHighest.forward_iff {s : WatermarkRun} (h : s.AtHighest) (report : CommitmentLevel × UInt64) :
    s.Forward report (s.step report) ↔ s.NotBehind report (s.step report) := by
  constructor
  · rintro ⟨_, kept⟩
    have own := s.reconciler.getSlot_update report.1 report.2 report.1
    rw [if_pos rfl] at own
    exact UInt64.le_trans (kept report.1) (UInt64.le_of_eq own)
  · exact h.forward

theorem forward_along_iff (root : UInt64) (reports : List (CommitmentLevel × UInt64)) :
    Along (ofFun step) Forward (start root) reports ↔ Along (ofFun step) NotBehind (start root) reports := by
  refine along_ofFun_iff AtHighest ?_ ?_ (start_atHighest root) reports
  · intro s report h
    exact h.forward_iff report
  · intro s report h notBehind
    exact (h.forward notBehind).1

end WatermarkRun

/-- What the thread that reads the ring works on. -/
structure GeyserConsumer where
  reader : RingBufferReader
  reconciler : SlotReconciler
  counter : UInt64

namespace GeyserConsumer

/-- One turn of the loop, on the ring as it is then. -/
def turn (s : GeyserConsumer) (ring : Ring) : Option GeyserConsumer :=
  match RingBufferReader.readNext ring s.reader with
  | (.ok (some update), reader) =>
    some ⟨reader, s.reconciler.updateProcessed update.slot, s.counter + 1⟩
  | (.ok none, reader) => some { s with reader }
  | (.error _, reader) => some { s with reader }
  | (.fault, _) => none

/-- The slots of the updates that the turns of the loop read. -/
def slotsRead (reader : RingBufferReader) : List Ring → List UInt64
  | [] => []
  | ring :: rest => match RingBufferReader.readNext ring reader with
    | (.ok (some update), after) => update.slot :: slotsRead after rest
    | (_, after) => slotsRead after rest

/-- Whatever is in the ring, the loop reports the slots it reads as processed. -/
theorem run_reports {s t : GeyserConsumer} {rings : List Ring} (ran : Run (ofPartial turn) s rings t) :
    t.reconciler = (slotsRead s.reader rings).foldl SlotReconciler.updateProcessed s.reconciler := by
  induction rings generalizing s with
  | nil => exact (ran : s = t) ▸ rfl
  | cons ring rest ih =>
    obtain ⟨m, first, tail⟩ := ran
    rw [ih tail]
    unfold ofPartial turn at first
    rw [slotsRead]
    cases read : RingBufferReader.readNext ring s.reader with
    | mk outcome after =>
      rw [read] at first
      cases outcome with
      | ok found => cases found <;> cases first <;> rfl
      | error e =>
        cases first
        rfl
      | fault => cases first

end GeyserConsumer

namespace WatermarkRun

theorem run_processed (slots : List UInt64) (s : WatermarkRun) :
    ((slots.map fun slot => (CommitmentLevel.processed, slot)).foldl step s).reconciler =
      slots.foldl SlotReconciler.updateProcessed s.reconciler := by
  induction slots generalizing s with
  | nil => rfl
  | cons slot rest ih => exact ih _

/-- The levels are at their highest slots exactly as long as no report is behind its level.
What the loop that reads the ring makes is such a run, of the slots it reads. -/
theorem watermarks_highest_iff (root : UInt64) :
    (∀ reports, Along (ofFun step) Forward (start root) reports ↔
      Along (ofFun step) NotBehind (start root) reports) ∧
    ∀ (rings : List Ring) (t : GeyserConsumer),
      Run (ofPartial GeyserConsumer.turn) ⟨.fresh, .new root, 0⟩ rings t →
        t.reconciler = (((GeyserConsumer.slotsRead .fresh rings).map fun slot =>
          (CommitmentLevel.processed, slot)).foldl step (start root)).reconciler := by
  refine ⟨forward_along_iff root, fun rings t ran => ?_⟩
  rw [run_processed]
  exact GeyserConsumer.run_reports ran

/-- A slot of another fork that arrives late takes the level back. -/
theorem late_report_goes_back :
    ¬ Along (ofFun step) Forward (start 100) [(.processed, 105), (.processed, 103)] := by
  intro along
  obtain ⟨_, later⟩ := along _ rfl
  obtain ⟨⟨_, kept⟩, _⟩ := later _ rfl
  have back := kept .processed
  revert back
  decide

end WatermarkRun

end Hyperplane
