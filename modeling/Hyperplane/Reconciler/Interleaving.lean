import Hyperplane.Lib.Threads
import Hyperplane.Reconciler.SlotReconciler

/-! Calls of the slot reconciler taken apart into their atomic stores and their
sections under the lock. Any number of threads call it. -/
namespace Hyperplane
open Transition Threads

/-- A step as it took effect on one copy of the slot of a level. -/
inductive SlotEvent where
  | stored (level : CommitmentLevel) (slot : UInt64)
  | written (level : CommitmentLevel) (slot : UInt64)
  deriving DecidableEq

namespace SlotEvent

def storedSlot (level : CommitmentLevel) : SlotEvent → Option UInt64
  | .stored other slot => if other = level then some slot else none
  | .written _ _ => none

def writtenSlot (level : CommitmentLevel) : SlotEvent → Option UInt64
  | .written other slot => if other = level then some slot else none
  | .stored _ _ => none

end SlotEvent

/-- The field events records the order in which the steps took effect. -/
structure ReconcilerRun where
  reconciler : SlotReconciler
  events : List SlotEvent
  deriving DecidableEq

inductive ReconcilerPhase where
  | idle
  | entered (level : CommitmentLevel) (slot : UInt64)
  | stored (level : CommitmentLevel) (slot : UInt64)
  | rollback (newRoot : UInt64)
  | returned
  deriving DecidableEq

namespace ReconcilerPhase

def resting : ReconcilerPhase → Bool
  | .idle | .returned => true
  | _ => false

end ReconcilerPhase

namespace ReconcilerRun

def lastStored (s : ReconcilerRun) (level : CommitmentLevel) : Option UInt64 :=
  (s.events.filterMap (SlotEvent.storedSlot level)).getLast?

def lastWritten (s : ReconcilerRun) (level : CommitmentLevel) : Option UInt64 :=
  (s.events.filterMap (SlotEvent.writtenSlot level)).getLast?

def store (s : ReconcilerRun) (level : CommitmentLevel) (slot : UInt64) : ReconcilerRun :=
  ⟨s.reconciler.store level slot, s.events ++ [.stored level slot]⟩

def write (s : ReconcilerRun) (level : CommitmentLevel) (slot : UInt64) : ReconcilerRun :=
  ⟨s.reconciler.write level slot, s.events ++ [.written level slot]⟩

/-- A rollback that lowers the finalized slot sets both copies of it. -/
def rollback (s : ReconcilerRun) (newRoot : UInt64) : ReconcilerRun :=
  ⟨s.reconciler.handleRollback newRoot,
    if newRoot < s.reconciler.getSlot .finalized then
      s.events ++ [.stored .finalized newRoot, .written .finalized newRoot]
    else s.events⟩

def enter : ReconcilerCall → ReconcilerPhase
  | .updateProcessed slot => .entered .processed slot
  | .updateConfirmed slot => .entered .confirmed slot
  | .updateFinalized slot => .entered .finalized slot
  | .handleRollback newRoot => .rollback newRoot

def advance : ReconcilerPhase → ReconcilerRun →
    Option (ReconcilerPhase × ReconcilerRun × List ReconcilerPhase)
  | .entered level slot, s => some (.stored level slot, s.store level slot, [])
  | .stored level slot, s => some (.returned, s.write level slot, [])
  | .rollback newRoot, s => some (.returned, s.rollback newRoot, [])
  | .idle, _ => none
  | .returned, _ => none

def program : Program ReconcilerRun ReconcilerPhase ReconcilerCall where
  enter call _ := enter call
  resting := ReconcilerPhase.resting
  advance := advance

def start (root : UInt64) (threads : Nat) : Pool ReconcilerRun ReconcilerPhase where
  shared := ⟨.new root, []⟩
  phases := List.replicate threads .idle

/-- A call that no other interrupts is the method. -/
theorem alone_call (s : ReconcilerRun) (call : ReconcilerCall) : ∃ steps events,
    Run (ofPartial program.step) ⟨s, [.idle]⟩ (.call 0 call :: List.replicate steps (.advance 0))
      ⟨⟨s.reconciler.call call, events⟩, [.returned]⟩ := by
  cases call with
  | updateProcessed slot =>
    exact ⟨2, ((s.store .processed slot).write .processed slot).events, (run_ofPartial _ _ _ _).mpr rfl⟩
  | updateConfirmed slot =>
    exact ⟨2, ((s.store .confirmed slot).write .confirmed slot).events, (run_ofPartial _ _ _ _).mpr rfl⟩
  | updateFinalized slot =>
    exact ⟨2, ((s.store .finalized slot).write .finalized slot).events, (run_ofPartial _ _ _ _).mpr rfl⟩
  | handleRollback newRoot =>
    exact ⟨1, (s.rollback newRoot).events, (run_ofPartial _ _ _ _).mpr rfl⟩

section last

variable (s : ReconcilerRun) (level : CommitmentLevel) (slot : UInt64) (other : CommitmentLevel)

theorem lastStored_store : (s.store level slot).lastStored other =
    if other = level then some slot else s.lastStored other := by
  by_cases same : other = level
  · simp [store, lastStored, SlotEvent.storedSlot, same]
  · simp [store, lastStored, SlotEvent.storedSlot, same, Ne.symm same]

theorem lastWritten_store : (s.store level slot).lastWritten other = s.lastWritten other := by
  simp [store, lastWritten, SlotEvent.writtenSlot]

theorem lastStored_write : (s.write level slot).lastStored other = s.lastStored other := by
  simp [write, lastStored, SlotEvent.storedSlot]

theorem lastWritten_write : (s.write level slot).lastWritten other =
    if other = level then some slot else s.lastWritten other := by
  by_cases same : other = level
  · simp [write, lastWritten, SlotEvent.writtenSlot, same]
  · simp [write, lastWritten, SlotEvent.writtenSlot, same, Ne.symm same]

theorem lastStored_rollback (newRoot : UInt64) : (s.rollback newRoot).lastStored level =
    if level = .finalized ∧ newRoot < s.reconciler.getSlot .finalized then some newRoot
    else s.lastStored level := by
  by_cases lowered : newRoot < s.reconciler.getSlot .finalized
  · by_cases final : level = .finalized
    · simp [rollback, lastStored, SlotEvent.storedSlot, List.filterMap_cons, lowered, final]
    · simp [rollback, lastStored, SlotEvent.storedSlot, lowered, final, Ne.symm final]
  · simp [rollback, lastStored, lowered]

theorem lastWritten_rollback (newRoot : UInt64) : (s.rollback newRoot).lastWritten level =
    if level = .finalized ∧ newRoot < s.reconciler.getSlot .finalized then some newRoot
    else s.lastWritten level := by
  by_cases lowered : newRoot < s.reconciler.getSlot .finalized
  · by_cases final : level = .finalized
    · simp [rollback, lastWritten, SlotEvent.writtenSlot, lowered, final]
    · simp [rollback, lastWritten, SlotEvent.writtenSlot, lowered, final, Ne.symm final]
  · simp [rollback, lastWritten, lowered]

end last

/-- Each copy holds what was last put there, and both copies of the root agree. -/
structure Recorded (root : UInt64) (s : ReconcilerRun) : Prop where
  atomics : ∀ level, s.reconciler.getSlot level = (s.lastStored level).getD root
  snapshot : ∀ level, s.reconciler.stats.slotOf level = (s.lastWritten level).getD root
  roots : s.reconciler.getRoot = s.reconciler.stats.rootSlot

theorem Recorded.store {root : UInt64} {s : ReconcilerRun} (h : s.Recorded root)
    (level : CommitmentLevel) (slot : UInt64) : (s.store level slot).Recorded root where
  atomics other := by
    rw [lastStored_store]
    refine (SlotReconciler.getSlot_store s.reconciler level slot other).trans ?_
    split
    · rfl
    · exact h.atomics other
  snapshot other := by
    rw [lastWritten_store]
    exact (congrArg (·.slotOf other) (SlotReconciler.stats_store ..)).trans (h.snapshot other)
  roots := by
    have roots := h.roots
    rw [← SlotReconciler.getRoot_store s.reconciler level slot,
      ← SlotReconciler.stats_store s.reconciler level slot] at roots
    exact roots

theorem Recorded.write {root : UInt64} {s : ReconcilerRun} (h : s.Recorded root)
    (level : CommitmentLevel) (slot : UInt64) : (s.write level slot).Recorded root where
  atomics other := by
    rw [lastStored_write]
    exact (SlotReconciler.getSlot_write s.reconciler level slot other).trans (h.atomics other)
  snapshot other := by
    rw [lastWritten_write]
    refine (SlotReconciler.slotOf_write s.reconciler level slot other).trans ?_
    split
    · rfl
    · exact h.snapshot other
  roots := SlotReconciler.root_write s.reconciler level slot h.roots

theorem Recorded.rollback {root : UInt64} {s : ReconcilerRun} (h : s.Recorded root)
    (newRoot : UInt64) : (s.rollback newRoot).Recorded root where
  atomics level := by
    rw [lastStored_rollback]
    refine (SlotReconciler.getSlot_handleRollback s.reconciler newRoot level).trans ?_
    split
    · rfl
    · exact h.atomics level
  snapshot level := by
    rw [lastWritten_rollback]
    refine (SlotReconciler.slotOf_handleRollback s.reconciler newRoot level).trans ?_
    split
    · rfl
    · exact h.snapshot level
  roots := SlotReconciler.root_handleRollback s.reconciler newRoot

/-- What one step of a call does. -/
theorem advance_cases {p q : ReconcilerPhase} {s t : ReconcilerRun} {started : List ReconcilerPhase}
    (moved : advance p s = some (q, t, started)) : started = [] ∧
    ((∃ level slot, p = .entered level slot ∧ q = .stored level slot ∧ t = s.store level slot) ∨
    (∃ level slot, p = .stored level slot ∧ q = .returned ∧ t = s.write level slot) ∨
    (∃ newRoot, p = .rollback newRoot ∧ q = .returned ∧ t = s.rollback newRoot)) := by
  cases p with
  | idle => cases moved
  | returned => cases moved
  | entered level slot =>
    cases moved
    exact ⟨rfl, .inl ⟨level, slot, rfl, rfl, rfl⟩⟩
  | stored level slot =>
    cases moved
    exact ⟨rfl, .inr (.inl ⟨level, slot, rfl, rfl, rfl⟩)⟩
  | rollback newRoot =>
    cases moved
    exact ⟨rfl, .inr (.inr ⟨newRoot, rfl, rfl, rfl⟩)⟩

/-- The snapshot of a level is written only after its atomic, and an atomic
that was stored has its section done or waiting. -/
structure Followed (t : Pool ReconcilerRun ReconcilerPhase) : Prop where
  waiting : ∀ p ∈ t.phases, ∀ level slot, p = .stored level slot → (t.shared.lastStored level).isSome
  written : ∀ level, (t.shared.lastWritten level).isSome → (t.shared.lastStored level).isSome
  done : ∀ level, (t.shared.lastStored level).isSome → (t.shared.lastWritten level).isSome ∨
    ∃ p ∈ t.phases, ∃ slot, p = .stored level slot

structure Tracked (root : UInt64) (t : Pool ReconcilerRun ReconcilerPhase) : Prop where
  recorded : t.shared.Recorded root
  followed : Followed t

theorem start_tracked (root : UInt64) (threads : Nat) : Tracked root (start root threads) where
  recorded := {
    atomics := by rintro (_ | _ | _) <;> rfl
    snapshot := by rintro (_ | _ | _) <;> rfl
    roots := rfl }
  followed := {
    waiting := by
      rintro p member level slot rfl
      cases List.eq_of_mem_replicate member
    written := by simp [start, lastWritten]
    done := by simp [start, lastStored] }

theorem Followed.call {t : Pool ReconcilerRun ReconcilerPhase} (h : Followed t) {i : Nat}
    {p : ReconcilerPhase} (here : t.phases[i]? = some p) (rests : p.resting = true)
    (call : ReconcilerCall) : Followed ⟨t.shared, t.phases.set i (enter call)⟩ where
  waiting q member level slot stored := by
    rcases List.mem_or_eq_of_mem_set member with old | rfl
    · exact h.waiting q old level slot stored
    · cases call <;> cases stored
  written := h.written
  done level stored := by
    refine (h.done level stored).imp id (exists_set here ?_)
    rintro ⟨slot, rfl⟩
    cases rests

theorem Followed.store {t : Pool ReconcilerRun ReconcilerPhase} (h : Followed t) {i : Nat}
    {level : CommitmentLevel} {slot : UInt64} (here : t.phases[i]? = some (.entered level slot)) :
    Followed ⟨t.shared.store level slot, t.phases.set i (.stored level slot)⟩ where
  waiting q member other value stored := by
    rw [lastStored_store]
    split
    · rfl
    · rename_i different
      rcases List.mem_or_eq_of_mem_set member with old | rfl
      · exact h.waiting q old other value stored
      · cases stored
        exact absurd rfl different
  written other written := by
    rw [lastWritten_store] at written
    rw [lastStored_store]
    split
    · rfl
    · exact h.written other written
  done other stored := by
    rw [lastStored_store] at stored
    rw [lastWritten_store]
    split at stored
    · rename_i same
      exact .inr ⟨_, List.mem_set (List.getElem?_eq_some_iff.mp here).1 _, slot, same ▸ rfl⟩
    · refine (h.done other stored).imp id (exists_set here ?_)
      rintro ⟨_, impossible⟩
      cases impossible

theorem Followed.write {t : Pool ReconcilerRun ReconcilerPhase} (h : Followed t) {i : Nat}
    {level : CommitmentLevel} {slot : UInt64} (here : t.phases[i]? = some (.stored level slot)) :
    Followed ⟨t.shared.write level slot, t.phases.set i .returned⟩ where
  waiting q member other value stored := by
    rw [lastStored_write]
    rcases List.mem_or_eq_of_mem_set member with old | rfl
    · exact h.waiting q old other value stored
    · cases stored
  written other written := by
    rw [lastWritten_write] at written
    rw [lastStored_write]
    split at written
    · rename_i same
      subst same
      exact h.waiting _ (List.mem_of_getElem? here) other slot rfl
    · exact h.written other written
  done other stored := by
    rw [lastStored_write] at stored
    rw [lastWritten_write]
    split
    · exact .inl rfl
    · rename_i different
      refine (h.done other stored).imp id (exists_set here ?_)
      rintro ⟨_, same⟩
      cases same
      exact different rfl

theorem Followed.rollback {t : Pool ReconcilerRun ReconcilerPhase} (h : Followed t) {i : Nat}
    {newRoot : UInt64} (here : t.phases[i]? = some (.rollback newRoot)) :
    Followed ⟨t.shared.rollback newRoot, t.phases.set i .returned⟩ where
  waiting q member level slot stored := by
    rw [lastStored_rollback]
    split
    · rfl
    · rcases List.mem_or_eq_of_mem_set member with old | rfl
      · exact h.waiting q old level slot stored
      · cases stored
  written level written := by
    rw [lastWritten_rollback] at written
    rw [lastStored_rollback]
    split
    · rfl
    · rename_i kept
      rw [if_neg kept] at written
      exact h.written level written
  done level stored := by
    rw [lastStored_rollback] at stored
    rw [lastWritten_rollback]
    split
    · exact .inl rfl
    · rename_i kept
      rw [if_neg kept] at stored
      refine (h.done level stored).imp id (exists_set here ?_)
      rintro ⟨_, impossible⟩
      cases impossible

theorem Tracked.step {root : UInt64} {t u : Pool ReconcilerRun ReconcilerPhase} (h : Tracked root t)
    (move : Move ReconcilerCall) (taken : program.step t move = some u) : Tracked root u := by
  cases move with
  | call i call =>
    obtain ⟨p, here, rests, rfl⟩ := Program.step_call.mp taken
    exact ⟨h.recorded, h.followed.call here rests call⟩
  | advance i =>
    obtain ⟨p, q, shared, started, here, moved, rfl⟩ := Program.step_advance.mp taken
    obtain ⟨rfl, ⟨level, slot, rfl, rfl, rfl⟩ | ⟨level, slot, rfl, rfl, rfl⟩ | ⟨newRoot, rfl, rfl, rfl⟩⟩ :=
      advance_cases moved
    · rw [List.append_nil]
      exact ⟨h.recorded.store level slot, h.followed.store here⟩
    · rw [List.append_nil]
      exact ⟨h.recorded.write level slot, h.followed.write here⟩
    · rw [List.append_nil]
      exact ⟨h.recorded.rollback newRoot, h.followed.rollback here⟩

/-- Every atomic equals its field of the snapshot. -/
def CopiesAgree (self : SlotReconciler) : Prop :=
  (∀ level, self.getSlot level = self.stats.slotOf level) ∧ self.getRoot = self.stats.rootSlot

/-- Once all calls have returned the copies agree exactly when, at every level,
the last store and the last section under the lock carried one slot. -/
theorem copies_agree_iff (root : UInt64) (threads : Nat) (moves : List (Move ReconcilerCall))
    (t : Pool ReconcilerRun ReconcilerPhase)
    (ran : Run (ofPartial program.step) (start root threads) moves t) (settled : t.Settled program) :
    CopiesAgree t.shared.reconciler ↔
      ∀ level, t.shared.lastStored level = t.shared.lastWritten level := by
  have tracked : Tracked root t := run_invariant (Tracked root)
    (fun _ move _ h taken => h.step move taken) (start_tracked root threads) ran
  have both (level : CommitmentLevel) :
      (t.shared.lastStored level).isSome ↔ (t.shared.lastWritten level).isSome := by
    refine ⟨fun stored => ?_, tracked.followed.written level⟩
    rcases tracked.followed.done level stored with written | ⟨p, member, slot, rfl⟩
    · exact written
    · cases settled _ member
  refine (and_iff_left tracked.recorded.roots).trans (forall_congr' fun level => ?_)
  rw [tracked.recorded.atomics, tracked.recorded.snapshot]
  have same := both level
  cases stored : t.shared.lastStored level with
  | none =>
    cases written : t.shared.lastWritten level with
    | none => simp
    | some slot => simp [stored, written] at same
  | some slot =>
    cases written : t.shared.lastWritten level with
    | none => simp [stored, written] at same
    | some other => simp

theorem updates_in_turn_agree : ∃ t, Run (ofPartial program.step) (start 100 2)
    [.call 0 (.updateProcessed 101), .call 1 (.updateProcessed 102), .advance 0, .advance 1,
      .advance 0, .advance 1] t ∧ CopiesAgree t.shared.reconciler := by
  have ran := (run_ofPartial program.step
    [.call 0 (.updateProcessed 101), .call 1 (.updateProcessed 102), .advance 0, .advance 1,
      .advance 0, .advance 1] (start 100 2) _).mpr rfl
  refine ⟨_, ran, (copies_agree_iff 100 2 _ _ ran ?_).mpr ?_⟩
  · unfold Pool.Settled
    decide
  · rintro (_ | _ | _) <;> rfl

/-- The second update stores last, but takes the lock first. -/
theorem crossed_updates_disagree : ∃ t, Run (ofPartial program.step) (start 100 2)
    [.call 0 (.updateProcessed 101), .call 1 (.updateProcessed 102), .advance 0, .advance 1,
      .advance 1, .advance 0] t ∧ t.Settled program ∧ ¬ CopiesAgree t.shared.reconciler := by
  refine ⟨_, (run_ofPartial _ _ _ _).mpr rfl, ?_, fun agree => ?_⟩
  · unfold Pool.Settled
    decide
  · have processed := agree.1 .processed
    revert processed
    decide

/-- The section of an update finds its own slot in the atomic of its level. -/
def InTurn (t : Pool ReconcilerRun ReconcilerPhase) (move : Move ReconcilerCall)
    (_ : Pool ReconcilerRun ReconcilerPhase) : Prop :=
  match move with
  | .call _ _ => True
  | .advance i => ∀ level slot, t.phases[i]? = some (.stored level slot) →
    t.shared.reconciler.getSlot level = slot

/-- The copies of a level agree, or the update that stored last has its section
before it. -/
def Repairable (t : Pool ReconcilerRun ReconcilerPhase) : Prop :=
  ∀ level, t.shared.lastStored level = t.shared.lastWritten level ∨
    ∃ p ∈ t.phases, ∃ slot, p = .stored level slot ∧ t.shared.lastStored level = some slot

theorem Tracked.lastStored {root : UInt64} {t : Pool ReconcilerRun ReconcilerPhase}
    (h : Tracked root t) {level : CommitmentLevel} {slot : UInt64}
    (waiting : .stored level slot ∈ t.phases) :
    t.shared.lastStored level = some (t.shared.reconciler.getSlot level) := by
  obtain ⟨last, stored⟩ := Option.isSome_iff_exists.mp (h.followed.waiting _ waiting level slot rfl)
  rw [h.recorded.atomics, stored]
  rfl

theorem Repairable.step {root : UInt64} {t u : Pool ReconcilerRun ReconcilerPhase}
    (tracked : Tracked root t) (h : Repairable t) (move : Move ReconcilerCall)
    (taken : program.step t move = some u) (turn : InTurn t move u) : Repairable u := by
  intro level
  cases move with
  | call i call =>
    obtain ⟨p, here, rests, rfl⟩ := Program.step_call.mp taken
    refine (h level).imp id (exists_set here ?_)
    rintro ⟨slot, rfl, _⟩
    cases rests
  | advance i =>
    obtain ⟨p, q, shared, started, here, moved, rfl⟩ := Program.step_advance.mp taken
    obtain ⟨rfl, ⟨other, slot, rfl, rfl, rfl⟩ | ⟨other, slot, rfl, rfl, rfl⟩ | ⟨newRoot, rfl, rfl, rfl⟩⟩ :=
      advance_cases moved
    · rw [lastStored_store, lastWritten_store, List.append_nil]
      split
      · rename_i same
        exact .inr ⟨_, List.mem_set (List.getElem?_eq_some_iff.mp here).1 _, slot, same ▸ rfl, rfl⟩
      · refine (h level).imp id (exists_set here ?_)
        rintro ⟨_, impossible, _⟩
        cases impossible
    · rw [lastStored_write, lastWritten_write, List.append_nil]
      split
      · rename_i same
        subst same
        rw [tracked.lastStored (List.mem_of_getElem? here), turn level slot here]
        exact .inl rfl
      · rename_i different
        refine (h level).imp id (exists_set here ?_)
        rintro ⟨_, same, _⟩
        cases same
        exact different rfl
    · rw [lastStored_rollback, lastWritten_rollback, List.append_nil]
      split
      · exact .inl rfl
      · refine (h level).imp id (exists_set here ?_)
        rintro ⟨_, impossible, _⟩
        cases impossible

/-- Updates that take the lock in the order of their stores keep the copies
together. -/
theorem agree_of_inTurn {root : UInt64} {threads : Nat} {moves : List (Move ReconcilerCall)}
    {t : Pool ReconcilerRun ReconcilerPhase}
    (ran : Run (ofPartial program.step) (start root threads) moves t)
    (turns : Along (ofPartial program.step) InTurn (start root threads) moves)
    (settled : t.Settled program) : CopiesAgree t.shared.reconciler := by
  have initial : Tracked root (start root threads) ∧ Repairable (start root threads) :=
    ⟨start_tracked root threads, fun _ => .inl rfl⟩
  obtain ⟨tracked, repairable⟩ := run_invariant_along (fun t => Tracked root t ∧ Repairable t) InTurn
    (fun _ move _ h taken turn => ⟨h.1.step move taken, h.2.step h.1 move taken turn⟩)
    initial turns ran
  refine ⟨fun level => ?_, tracked.recorded.roots⟩
  rcases repairable level with same | ⟨p, member, slot, rfl, _⟩
  · rw [tracked.recorded.atomics, tracked.recorded.snapshot, same]
  · cases settled _ member

end ReconcilerRun

end Hyperplane
