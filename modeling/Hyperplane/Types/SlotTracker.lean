import Hyperplane.Lib.Threads
import Hyperplane.Types.SlotContext

/-! The slots of the commitment levels in three atomics. An update stores them, and a
read loads them, one after the other and in the same order. -/
namespace Hyperplane
open Transition Threads

structure AtomicSlotTracker where
  processedSlot : UInt64
  confirmedSlot : UInt64
  finalizedSlot : UInt64
  deriving DecidableEq

namespace AtomicSlotTracker

def new : AtomicSlotTracker := ⟨0, 0, 0⟩

def update (_ : AtomicSlotTracker) (context : SlotContext) : AtomicSlotTracker :=
  ⟨context.processedSlot, context.confirmedSlot, context.finalizedSlot⟩

def parentOf (processedSlot : UInt64) : UInt64 := if processedSlot = 0 then 0 else processedSlot - 1

def getContext (self : AtomicSlotTracker) : SlotContext :=
  ⟨self.processedSlot, self.confirmedSlot, self.finalizedSlot, parentOf self.processedSlot⟩

end AtomicSlotTracker

inductive TrackerCall where
  | update (context : SlotContext)
  | getContext
  deriving DecidableEq

/-- The tracker, the context that the latest update began to store, and the contexts
that reads returned. -/
structure TrackerRun where
  tracker : AtomicSlotTracker
  latest : SlotContext
  returned : List SlotContext
  deriving DecidableEq

inductive TrackerPhase where
  | idle
  | updating (context : SlotContext)
  | storedProcessed (context : SlotContext)
  | storedConfirmed (context : SlotContext)
  | updated
  | reading
  | loadedProcessed (processed : UInt64)
  | loadedConfirmed (processed confirmed : UInt64)
  | loadedFinalized (processed confirmed finalized : UInt64)
  | read (context : SlotContext)
  deriving DecidableEq

namespace TrackerPhase

def resting : TrackerPhase → Bool
  | .idle | .updated | .read _ => true
  | _ => false

/-- The thread is in an update that has not stored everything. -/
def stores : TrackerPhase → Bool
  | .updating _ | .storedProcessed _ | .storedConfirmed _ => true
  | _ => false

end TrackerPhase

/-- No slot of a context is above that of another. -/
def SlotContext.AtMost (a b : SlotContext) : Prop :=
  a.processedSlot ≤ b.processedSlot ∧ a.confirmedSlot ≤ b.confirmedSlot ∧ a.finalizedSlot ≤ b.finalizedSlot

instance (a b : SlotContext) : Decidable (a.AtMost b) := inferInstanceAs (Decidable (_ ∧ _ ∧ _))

namespace TrackerRun

def storeProcessed (s : TrackerRun) (context : SlotContext) : TrackerRun :=
  { s with tracker := { s.tracker with processedSlot := context.processedSlot }, latest := context }

def storeConfirmed (s : TrackerRun) (context : SlotContext) : TrackerRun :=
  { s with tracker := { s.tracker with confirmedSlot := context.confirmedSlot } }

def storeFinalized (s : TrackerRun) (context : SlotContext) : TrackerRun :=
  { s with tracker := { s.tracker with finalizedSlot := context.finalizedSlot } }

/-- The last load of a read is a second one of the processed slot, for the parent. -/
def answer (s : TrackerRun) (processed confirmed finalized : UInt64) : SlotContext :=
  ⟨processed, confirmed, finalized, AtomicSlotTracker.parentOf s.tracker.processedSlot⟩

def enter : TrackerCall → TrackerPhase
  | .update context => .updating context
  | .getContext => .reading

def advance : TrackerPhase → TrackerRun → Option (TrackerPhase × TrackerRun × List TrackerPhase)
  | .updating context, s => some (.storedProcessed context, s.storeProcessed context, [])
  | .storedProcessed context, s => some (.storedConfirmed context, s.storeConfirmed context, [])
  | .storedConfirmed context, s => some (.updated, s.storeFinalized context, [])
  | .reading, s => some (.loadedProcessed s.tracker.processedSlot, s, [])
  | .loadedProcessed processed, s => some (.loadedConfirmed processed s.tracker.confirmedSlot, s, [])
  | .loadedConfirmed processed confirmed, s =>
    some (.loadedFinalized processed confirmed s.tracker.finalizedSlot, s, [])
  | .loadedFinalized processed confirmed finalized, s =>
    let context := s.answer processed confirmed finalized
    some (.read context, { s with returned := s.returned ++ [context] }, [])
  | .idle, _ => none
  | .updated, _ => none
  | .read _, _ => none

def program : Program TrackerRun TrackerPhase TrackerCall where
  enter call _ := enter call
  resting := TrackerPhase.resting
  advance := advance

/-- One thread makes all updates, with contexts in order that never go back. -/
def Permits (writer : Nat) (t : Pool TrackerRun TrackerPhase) : Move TrackerCall → Prop
  | .call i (.update context) => i = writer ∧ context.Ordered ∧ t.shared.latest.AtMost context
  | _ => True

instance (writer : Nat) (t : Pool TrackerRun TrackerPhase) : ∀ m, Decidable (Permits writer t m)
  | .call _ (.update _) => inferInstanceAs (Decidable (_ ∧ _ ∧ _))
  | .call _ .getContext => instDecidableTrue
  | .advance _ => instDecidableTrue

def step (writer : Nat) (t : Pool TrackerRun TrackerPhase) (m : Move TrackerCall) :
    Option (Pool TrackerRun TrackerPhase) :=
  if Permits writer t m then program.step t m else none

def start (threads : Nat) : Pool TrackerRun TrackerPhase where
  shared := ⟨.new, .new, []⟩
  phases := List.replicate threads .idle

/-- A call that no other interrupts is the method. -/
theorem alone_update (s : TrackerRun) (context : SlotContext) :
    Run (ofPartial program.step) ⟨s, [.idle]⟩ (.call 0 (.update context) :: List.replicate 3 (.advance 0))
      ⟨⟨s.tracker.update context, context, s.returned⟩, [.updated]⟩ := (run_ofPartial _ _ _ _).mpr rfl

theorem alone_getContext (s : TrackerRun) :
    Run (ofPartial program.step) ⟨s, [.idle]⟩ (.call 0 .getContext :: List.replicate 4 (.advance 0))
      ⟨{ s with returned := s.returned ++ [s.tracker.getContext] }, [.read s.tracker.getContext]⟩ :=
  (run_ofPartial _ _ _ _).mpr rfl

/-- What one step of a call does. -/
inductive Advanced : TrackerRun → TrackerPhase → TrackerPhase → TrackerRun → Prop where
  | storeProcessed (s : TrackerRun) (context : SlotContext) :
      Advanced s (.updating context) (.storedProcessed context) (s.storeProcessed context)
  | storeConfirmed (s : TrackerRun) (context : SlotContext) :
      Advanced s (.storedProcessed context) (.storedConfirmed context) (s.storeConfirmed context)
  | storeFinalized (s : TrackerRun) (context : SlotContext) :
      Advanced s (.storedConfirmed context) .updated (s.storeFinalized context)
  | loadProcessed (s : TrackerRun) :
      Advanced s .reading (.loadedProcessed s.tracker.processedSlot) s
  | loadConfirmed (s : TrackerRun) (processed : UInt64) :
      Advanced s (.loadedProcessed processed) (.loadedConfirmed processed s.tracker.confirmedSlot) s
  | loadFinalized (s : TrackerRun) (processed confirmed : UInt64) :
      Advanced s (.loadedConfirmed processed confirmed)
        (.loadedFinalized processed confirmed s.tracker.finalizedSlot) s
  | answer (s : TrackerRun) (processed confirmed finalized : UInt64) :
      Advanced s (.loadedFinalized processed confirmed finalized)
        (.read (s.answer processed confirmed finalized))
        { s with returned := s.returned ++ [s.answer processed confirmed finalized] }

theorem advanced_of_advance {p q : TrackerPhase} {s after : TrackerRun} {started : List TrackerPhase}
    (moved : advance p s = some (q, after, started)) : started = [] ∧ Advanced s p q after := by
  cases p with
  | idle => cases moved
  | updated => cases moved
  | read context => cases moved
  | _ =>
    cases moved
    exact ⟨rfl, by constructor⟩

theorem step_cases {writer : Nat} {t u : Pool TrackerRun TrackerPhase} {m : Move TrackerCall}
    (taken : step writer t m = some u) :
    (∃ i p q, m = .call i q ∧ t.phases[i]? = some p ∧ p.resting = true ∧ Permits writer t (.call i q) ∧
      u = ⟨t.shared, t.phases.set i (enter q)⟩) ∨
    ∃ i p q after, m = .advance i ∧ t.phases[i]? = some p ∧ Advanced t.shared p q after ∧
      u = ⟨after, t.phases.set i q⟩ := by
  unfold step at taken
  split at taken
  · rename_i permitted
    rcases Program.step_lone_cases advanced_of_advance taken with ⟨i, c, p, rfl, here, rests, rfl⟩ | moved
    · exact .inl ⟨i, p, c, rfl, here, rests, permitted, rfl⟩
    · exact .inr moved
  · cases taken

/-- The context of an update on its way, compared with the latest one. -/
def Follows : TrackerPhase → TrackerRun → Prop
  | .updating context, s => context.Ordered ∧ s.latest.AtMost context
  | .storedProcessed context, s => context = s.latest
  | .storedConfirmed context, s => context = s.latest ∧ s.tracker.confirmedSlot = context.confirmedSlot
  | _, _ => True

/-- What the one writer keeps: the tracker is always in order and at most at the latest
context. -/
structure Written (writer : Nat) (t : Pool TrackerRun TrackerPhase) : Prop where
  latest : t.shared.latest.Ordered
  processed : t.shared.tracker.processedSlot = t.shared.latest.processedSlot
  confirmed : t.shared.tracker.confirmedSlot ≤ t.shared.latest.confirmedSlot
  finalized : t.shared.tracker.finalizedSlot ≤ t.shared.latest.finalizedSlot
  below : t.shared.tracker.finalizedSlot ≤ t.shared.tracker.confirmedSlot
  own : ∀ i p, t.phases[i]? = some p → p.stores = true → i = writer ∧ Follows p t.shared

variable {writer : Nat} {t u : Pool TrackerRun TrackerPhase}

theorem start_written (writer threads : Nat) : Written writer (start threads) where
  latest := ⟨UInt64.le_refl 0, UInt64.le_refl 0⟩
  processed := rfl
  confirmed := UInt64.le_refl 0
  finalized := UInt64.le_refl 0
  below := UInt64.le_refl 0
  own i p here stores := by
    rw [List.eq_of_mem_replicate (List.mem_of_getElem? here)] at stores
    cases stores

/-- A thread that moved is the writer, or left the other updates where they were. -/
theorem Written.own_set (h : Written writer t) {i : Nat} {q : TrackerPhase} {after : TrackerRun}
    (mine : q.stores = true → i = writer ∧ Follows q after)
    (theirs : i = writer ∨ ∀ r, Follows r t.shared → Follows r after) (j : Nat) (r : TrackerPhase)
    (there : (t.phases.set i q)[j]? = some r) (stores : r.stores = true) : j = writer ∧ Follows r after := by
  rcases getElem?_set_cases there with ⟨rfl, rfl⟩ | ⟨different, before⟩
  · exact mine stores
  · obtain ⟨rfl, follows⟩ := h.own j r before stores
    rcases theirs with rfl | kept
    · exact absurd rfl different
    · exact ⟨rfl, kept r follows⟩

theorem Written.advance (h : Written writer t) {i : Nat} {p q : TrackerPhase} {after : TrackerRun}
    (here : t.phases[i]? = some p) (moved : Advanced t.shared p q after) :
    Written writer ⟨after, t.phases.set i q⟩ := by
  have reader (resting : q.stores = false) : ∀ j r, (t.phases.set i q)[j]? = some r → r.stores = true →
      j = writer ∧ Follows r t.shared :=
    h.own_set (fun stores => absurd (resting.symm.trans stores) Bool.false_ne_true) (.inr fun _ same => same)
  have own := h.own i p here
  cases moved with
  | storeProcessed context =>
    obtain ⟨rfl, ordered, above⟩ := own rfl
    exact {
      latest := ordered
      processed := rfl
      confirmed := UInt64.le_trans h.confirmed above.2.1
      finalized := UInt64.le_trans h.finalized above.2.2
      below := h.below
      own := h.own_set (fun _ => ⟨rfl, rfl⟩) (.inl rfl) }
  | storeConfirmed context =>
    obtain ⟨rfl, rfl⟩ := own rfl
    exact {
      latest := h.latest
      processed := h.processed
      confirmed := UInt64.le_refl _
      finalized := h.finalized
      below := UInt64.le_trans h.finalized h.latest.1
      own := h.own_set (fun _ => ⟨rfl, rfl, rfl⟩) (.inl rfl) }
  | storeFinalized context =>
    obtain ⟨rfl, rfl, same⟩ := own rfl
    exact {
      latest := h.latest
      processed := h.processed
      confirmed := h.confirmed
      finalized := UInt64.le_refl _
      below := UInt64.le_trans h.latest.1 (UInt64.le_of_eq same.symm)
      own := h.own_set (fun impossible => absurd impossible Bool.false_ne_true) (.inl rfl) }
  | loadProcessed => exact { h with own := reader rfl }
  | loadConfirmed processed => exact { h with own := reader rfl }
  | loadFinalized processed confirmed => exact { h with own := reader rfl }
  | answer processed confirmed finalized =>
    exact { h with
      own := h.own_set (fun impossible => absurd impossible Bool.false_ne_true) (.inr fun r same => by
        cases r <;> exact same) }

theorem Written.step (h : Written writer t) {m : Move TrackerCall}
    (taken : step writer t m = some u) : Written writer u := by
  rcases step_cases taken with ⟨i, p, c, rfl, here, rests, permitted, rfl⟩ | ⟨i, p, q, after, rfl, here, moved, rfl⟩
  · refine { h with own := h.own_set ?_ (.inr fun _ same => same) }
    cases c with
    | update context => exact fun _ => permitted
    | getContext => exact fun impossible => absurd impossible Bool.false_ne_true
  · exact h.advance here moved

/-- A store raises its slot. -/
theorem Written.grows (h : Written writer t) {m : Move TrackerCall} (taken : TrackerRun.step writer t m = some u) :
    t.shared.tracker.confirmedSlot ≤ u.shared.tracker.confirmedSlot ∧
      t.shared.tracker.finalizedSlot ≤ u.shared.tracker.finalizedSlot := by
  rcases step_cases taken with ⟨i, p, c, rfl, here, rests, permitted, rfl⟩ | ⟨i, p, q, after, rfl, here, moved, rfl⟩
  · exact ⟨UInt64.le_refl _, UInt64.le_refl _⟩
  · have own := h.own i p here
    cases moved with
    | storeConfirmed context =>
      obtain ⟨_, rfl⟩ := own rfl
      exact ⟨h.confirmed, UInt64.le_refl _⟩
    | storeFinalized context =>
      obtain ⟨_, rfl, _⟩ := own rfl
      exact ⟨UInt64.le_refl _, h.finalized⟩
    | _ => exact ⟨UInt64.le_refl _, UInt64.le_refl _⟩

/-- Every slot a read has loaded is at least what it will load next, and what it loaded
after. -/
def Fine (tracker : AtomicSlotTracker) : TrackerPhase → Prop
  | .loadedProcessed processed => tracker.confirmedSlot ≤ processed
  | .loadedConfirmed processed confirmed => confirmed ≤ processed ∧ tracker.finalizedSlot ≤ confirmed
  | .loadedFinalized processed confirmed finalized => confirmed ≤ processed ∧ finalized ≤ confirmed
  | _ => True

def AllOrdered (t : Pool TrackerRun TrackerPhase) : Prop := ∀ context ∈ t.shared.returned, context.Ordered

structure Sound (t : Pool TrackerRun TrackerPhase) : Prop where
  phases : ∀ p ∈ t.phases, Fine t.shared.tracker p
  returned : AllOrdered t

def Torn (t : Pool TrackerRun TrackerPhase) : Prop :=
  (∃ p ∈ t.phases, ¬ Fine t.shared.tracker p) ∨ ¬ AllOrdered t

/-- Between two loads of a read no store takes the second slot past the one it has loaded. -/
def NotOvertaking (t : Pool TrackerRun TrackerPhase) (m : Move TrackerCall)
    (_ : Pool TrackerRun TrackerPhase) : Prop :=
  match m with
  | .call _ _ => True
  | .advance i => match t.phases[i]? with
    | some (.storedProcessed context) => ∀ processed, .loadedProcessed processed ∈ t.phases →
      context.confirmedSlot ≤ processed
    | some (.storedConfirmed context) => ∀ processed confirmed, .loadedConfirmed processed confirmed ∈ t.phases →
      context.finalizedSlot ≤ confirmed
    | _ => True

theorem fine_of_resting (tracker : AtomicSlotTracker) {p : TrackerPhase} (rests : p.resting = true) :
    Fine tracker p := by
  cases p <;> trivial

theorem fine_enter (tracker : AtomicSlotTracker) (c : TrackerCall) : Fine tracker (enter c) := by
  cases c <;> trivial

/-- Where a slot has passed what a read loaded, it has for good. -/
theorem fine_anti {before after : AtomicSlotTracker} (confirmed : before.confirmedSlot ≤ after.confirmedSlot)
    (finalized : before.finalizedSlot ≤ after.finalizedSlot) {p : TrackerPhase} (fine : Fine after p) :
    Fine before p := by
  cases p with
  | loadedProcessed processed => exact UInt64.le_trans confirmed fine
  | loadedConfirmed processed slot => exact ⟨fine.1, UInt64.le_trans finalized fine.2⟩
  | _ => exact fine

theorem start_sound (threads : Nat) : Sound (start threads) where
  phases p member := by
    rw [List.eq_of_mem_replicate member]
    trivial
  returned context member := absurd member List.not_mem_nil

/-- The confirmed slot is never past the processed one. -/
theorem Written.middle (h : Written writer t) :
    t.shared.tracker.confirmedSlot ≤ t.shared.tracker.processedSlot := by
  rw [h.processed]
  exact UInt64.le_trans h.confirmed h.latest.2

theorem Sound.advance (h : Sound t) (written : Written writer t) {i : Nat} {p q : TrackerPhase}
    {after : TrackerRun} (here : t.phases[i]? = some p) (moved : Advanced t.shared p q after)
    (behind : NotOvertaking t (.advance i) ⟨after, t.phases.set i q⟩) : Sound ⟨after, t.phases.set i q⟩ := by
  have own := h.phases p (List.mem_of_getElem? here)
  simp only [NotOvertaking, here] at behind
  cases moved with
  | storeProcessed context =>
    refine ⟨forall_set (fun r member => ?_) trivial, h.returned⟩
    have fine := h.phases r member
    cases r <;> exact fine
  | storeConfirmed context =>
    refine ⟨forall_set (fun r member => ?_) trivial, h.returned⟩
    have fine := h.phases r member
    cases r with
    | loadedProcessed processed => exact behind processed member
    | _ => exact fine
  | storeFinalized context =>
    refine ⟨forall_set (fun r member => ?_) trivial, h.returned⟩
    have fine := h.phases r member
    cases r with
    | loadedConfirmed processed confirmed => exact ⟨fine.1, behind processed confirmed member⟩
    | _ => exact fine
  | loadProcessed => exact ⟨forall_set h.phases written.middle, h.returned⟩
  | loadConfirmed processed => exact ⟨forall_set h.phases ⟨own, written.below⟩, h.returned⟩
  | loadFinalized processed confirmed => exact ⟨forall_set h.phases own, h.returned⟩
  | answer processed confirmed finalized =>
    refine ⟨forall_set h.phases trivial, fun context member => ?_⟩
    rcases List.mem_append.mp member with old | new
    · exact h.returned context old
    · rw [List.mem_singleton.mp new]
      exact ⟨own.2, own.1⟩

theorem Sound.step (h : Sound t) (written : Written writer t) {m : Move TrackerCall}
    (taken : step writer t m = some u) (behind : NotOvertaking t m u) : Sound u := by
  rcases step_cases taken with ⟨i, p, c, rfl, here, rests, permitted, rfl⟩ | ⟨i, p, q, after, rfl, here, moved, rfl⟩
  · exact ⟨forall_set h.phases (fine_enter _ c), h.returned⟩
  · exact h.advance written here moved behind

/-- The read that a store overtakes will return what it has loaded. -/
theorem torn_of_overtaking {m : Move TrackerCall} (taken : step writer t m = some u)
    (ahead : ¬ NotOvertaking t m u) : Torn u := by
  rcases step_cases taken with ⟨i, p, c, rfl, here, rests, permitted, rfl⟩ | ⟨i, p, q, after, rfl, here, moved, rfl⟩
  · exact absurd trivial ahead
  · simp only [NotOvertaking, here] at ahead
    have stays {r : TrackerPhase} (member : r ∈ t.phases) (other : r ≠ p) : r ∈ t.phases.set i q := by
      obtain ⟨_, kept, rfl⟩ := exists_set (R := (· = r)) here (fun same => other same.symm) ⟨r, member, rfl⟩
      exact kept
    cases moved with
    | storeConfirmed context =>
      obtain ⟨processed, ahead⟩ := Classical.not_forall.mp ahead
      obtain ⟨member, past⟩ := Classical.not_imp.mp ahead
      exact .inl ⟨.loadedProcessed processed, stays member (by simp), past⟩
    | storeFinalized context =>
      obtain ⟨processed, ahead⟩ := Classical.not_forall.mp ahead
      obtain ⟨confirmed, ahead⟩ := Classical.not_forall.mp ahead
      obtain ⟨member, past⟩ := Classical.not_imp.mp ahead
      exact .inl ⟨.loadedConfirmed processed confirmed, stays member (by simp), fun fine => past fine.2⟩
    | _ => exact absurd trivial ahead

/-- A read that cannot come out in order takes it with it to its answer. -/
theorem torn_of_advanced {p q : TrackerPhase} {after : TrackerRun} {phases : List TrackerPhase}
    (moved : Advanced t.shared p q after) (own : ¬ Fine t.shared.tracker p) (member : q ∈ phases) :
    Torn ⟨after, phases⟩ := by
  cases moved with
  | loadConfirmed processed => exact .inl ⟨_, member, fun fine => own fine.1⟩
  | loadFinalized processed confirmed => exact .inl ⟨_, member, own⟩
  | answer processed confirmed finalized =>
    refine .inr fun ordered => own ?_
    have last := ordered _ (List.mem_append_right _ (List.mem_singleton_self _))
    exact ⟨last.2, last.1⟩
  | _ => exact absurd trivial own

theorem Torn.step (h : Torn t) (written : Written writer t) {m : Move TrackerCall}
    (taken : step writer t m = some u) : Torn u := by
  have grows := written.grows taken
  rcases step_cases taken with ⟨i, p, c, rfl, here, rests, permitted, rfl⟩ | ⟨i, p, q, after, rfl, here, moved, rfl⟩
  · rcases h with waiting | returned
    · exact .inl (exists_set here (fun torn => torn (fine_of_resting _ rests)) waiting)
    · exact .inr returned
  · rcases h with waiting | returned
    · rcases @exists_moved _ _ [] _ _ q _ here waiting with own | ⟨r, member, torn⟩
      · exact torn_of_advanced moved own (List.mem_set (List.getElem?_eq_some_iff.mp here).1 q)
      · rw [List.append_nil] at member
        exact .inl ⟨r, member, fun fine => torn (fine_anti grows.1 grows.2 fine)⟩
    · refine .inr fun ordered => returned fun context member => ?_
      cases moved with
      | answer => exact ordered context (List.mem_append_left _ member)
      | _ => exact ordered context member

/-- Every context returned is in order as long as no store overtakes a read, and once all
calls have returned only then. -/
theorem contexts_ordered_iff (writer threads : Nat) {moves : List (Move TrackerCall)}
    (ran : Run (ofPartial (step writer)) (start threads) moves t) :
    (Along (ofPartial (step writer)) NotOvertaking (start threads) moves → AllOrdered t) ∧
      (t.Settled program →
        (AllOrdered t ↔ Along (ofPartial (step writer)) NotOvertaking (start threads) moves)) := by
  have outcome := along_or_broken (fun t => Written writer t ∧ Sound t) (fun t => Written writer t ∧ Torn t)
    NotOvertaking
    (fun _ _ _ h taken behind => ⟨h.1.step taken, h.2.step h.1 taken behind⟩)
    (fun _ _ _ h taken ahead => ⟨h.1.step taken, torn_of_overtaking taken ahead⟩)
    (fun _ _ _ h taken => ⟨h.1.step taken, h.2.step h.1 taken⟩)
    ⟨start_written writer threads, start_sound threads⟩ ran
  rcases outcome with ⟨along, _, sound⟩ | ⟨overtaken, _, torn⟩
  · exact ⟨fun _ => sound.returned, fun _ => iff_of_true sound.returned along⟩
  · refine ⟨fun along => absurd along overtaken, fun settled => iff_of_false ?_ overtaken⟩
    rcases torn with ⟨p, member, torn⟩ | returned
    · exact absurd (fine_of_resting _ (settled p member)) torn
    · exact returned

theorem read_after_update :
    let moves : List (Move TrackerCall) := .call 0 (.update ⟨100, 99, 69, 99⟩) ::
      List.replicate 3 (.advance 0) ++ .call 1 .getContext :: List.replicate 4 (.advance 1)
    ∃ t, Run (ofPartial (step 0)) (start 2) moves t ∧
      (Along (ofPartial (step 0)) NotOvertaking (start 2) moves → AllOrdered t) ∧
      (t.Settled program → (AllOrdered t ↔ Along (ofPartial (step 0)) NotOvertaking (start 2) moves)) := by
  intro moves
  have ran := (run_ofPartial (step 0) moves (start 2) _).mpr rfl
  exact ⟨_, ran, contexts_ordered_iff 0 2 ran⟩

/-- A whole update between the first load and the second. -/
theorem update_during_read_tears : ∃ t, Run (ofPartial (step 0)) (start 2)
    [.call 1 .getContext, .advance 1, .call 0 (.update ⟨100, 99, 69, 99⟩), .advance 0, .advance 0, .advance 0,
      .advance 1, .advance 1, .advance 1] t ∧ t.Settled program ∧ ¬ AllOrdered t := by
  refine ⟨_, (run_ofPartial _ _ _ _).mpr rfl, ?_, fun ordered => ?_⟩
  · unfold Pool.Settled
    decide
  · have torn := ordered ⟨0, 99, 69, 99⟩ (by decide)
    revert torn
    decide

end TrackerRun

end Hyperplane
