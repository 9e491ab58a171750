import Hyperplane.Ring.SingleProducer
import Hyperplane.Reconciler.SlotReconciler

/-! The threads of the runtime. One consumes the ring while the plugin writes it, others
wait for queries and log metrics, and a stop ends them all. -/
namespace Hyperplane
open Transition RingBufferReader

/-- Where the consumer thread is: it opens the ring once, and handles an entry in three steps. -/
inductive ConsumerPhase where
  | opening
  | polling
  | reading
  | storing (slot : UInt64)
  | locking (slot : UInt64)
  | counting
  | waiting
  | finished
  deriving DecidableEq

/-- The ring was there when the consumer tried to open it, and no stop was seen. -/
def ConsumerPhase.Opened : ConsumerPhase → Prop
  | .polling | .reading | .storing _ | .locking _ | .counting => True
  | .opening | .waiting | .finished => False

/-- The steps that are left to the consumer once the runtime is stopped. -/
def ConsumerPhase.left : ConsumerPhase → Nat
  | .reading => 5
  | .storing _ => 4
  | .locking _ => 3
  | .counting | .opening => 2
  | .polling | .waiting => 1
  | .finished => 0

/-- Where a query worker or the metrics thread is. -/
inductive LoopPhase where
  | polling
  | working
  | finished
  deriving DecidableEq

def LoopPhase.left : LoopPhase → Nat
  | .working => 2
  | .polling => 1
  | .finished => 0

structure RuntimeStats where
  geysersProcessed : UInt64
  queriesExecuted : UInt64
  currentSlot : UInt64
  rootSlot : UInt64

/-- The runtime and the ring of the plugin, which is missing until the plugin has made it. -/
structure SynapseRuntime (P : Type) where
  ring : Option RingSystem
  slotReconciler : SlotReconciler
  queryPlanner : Option P
  running : Bool
  geysersProcessed : UInt64
  queriesExecuted : UInt64
  consumer : ConsumerPhase
  workers : List LoopPhase
  metrics : LoopPhase

/-- Steps of the plugin, of the threads, and of those who hold the runtime. -/
inductive RuntimeAction where
  | create (capacity : Nat)
  | produce (action : RingAction)
  | consumer
  | worker (i : Nat)
  | metrics
  | initializeQueryPlanner
  | updateConfirmed (slot : UInt64)
  | updateFinalized (slot : UInt64)
  | handleRollback (newRoot : UInt64)
  | stop

namespace RuntimeAction

def isConsumer : RuntimeAction → Bool
  | .consumer => true
  | _ => false

def isWorker (i : Nat) : RuntimeAction → Bool
  | .worker j => i == j
  | _ => false

def isMetrics : RuntimeAction → Bool
  | .metrics => true
  | _ => false

/-- The data of a write that begins fits the size field. -/
def Fits (action : RuntimeAction) : Prop := ∀ i v, action = .produce (.enter i v) → v.Small

theorem fits_of_short {actions : List RuntimeAction}
    (short : ∀ i v, .produce (.enter i v) ∈ actions → v.data.length < 2 ^ 32 - 64) :
    ∀ action ∈ actions, action.Fits := by
  rintro action member i v rfl
  have fits := short i v member
  unfold RingEntryView.Small RingEntry.headerSize
  omega

end RuntimeAction

namespace SynapseRuntime

variable {P : Type}

/-- A runtime that has been started. -/
def started (queryWorkers : Nat) (enableMetrics : Bool) : SynapseRuntime P where
  ring := none
  slotReconciler := .new 0
  queryPlanner := none
  running := true
  geysersProcessed := 0
  queriesExecuted := 0
  consumer := .opening
  workers := List.replicate queryWorkers .polling
  metrics := if enableMetrics then .polling else .finished

def stats (s : SynapseRuntime P) : RuntimeStats where
  geysersProcessed := s.geysersProcessed
  queriesExecuted := s.queriesExecuted
  currentSlot := s.slotReconciler.stats.processedSlot
  rootSlot := s.slotReconciler.stats.rootSlot

/-- A ring that cannot be opened at first is not opened later. -/
def openRing (s : SynapseRuntime P) : ConsumerPhase :=
  match s.ring with
  | some r => match openFile r.ring with
    | .ok _ => .polling
    | _ => .waiting
  | none => .waiting

/-- An error of the ring is logged, and the entry tried again. -/
def consume (s : SynapseRuntime P) : Option (SynapseRuntime P) :=
  match s.ring with
  | some r => match readNext r.ring r.reader with
    | (.ok (some v), reader) => some { s with
        ring := some { r with reader, views := r.views ++ [v] }
        consumer := .storing v.slot }
    | (.ok none, reader) => some { s with ring := some { r with reader }, consumer := .polling }
    | (.error _, reader) => some { s with ring := some { r with reader }, consumer := .polling }
    | (.fault, _) => none
  | none => none

def consumerStep (s : SynapseRuntime P) : Option (SynapseRuntime P) :=
  match s.consumer with
  | .opening => some { s with consumer := s.openRing }
  | .polling => some { s with consumer := if s.running then .reading else .finished }
  | .reading => s.consume
  | .storing slot => some { s with
      slotReconciler := s.slotReconciler.store .processed slot
      consumer := .locking slot }
  | .locking slot => some { s with
      slotReconciler := s.slotReconciler.write .processed slot
      consumer := .counting }
  | .counting => some { s with geysersProcessed := s.geysersProcessed + 1, consumer := .polling }
  | .waiting => some { s with consumer := if s.running then .waiting else .finished }
  | .finished => none

def loopStep (s : SynapseRuntime P) : LoopPhase → Option LoopPhase
  | .polling => some (if s.running then .working else .finished)
  | .working => some .polling
  | .finished => none

/-- A worker counts a query when there is a planner. -/
def workerStep (s : SynapseRuntime P) (i : Nat) : Option (SynapseRuntime P) :=
  s.workers[i]?.bind fun phase => (s.loopStep phase).map fun next => { s with
    workers := s.workers.set i next
    queriesExecuted :=
      if phase = .working ∧ s.queryPlanner.isSome then s.queriesExecuted + 1 else s.queriesExecuted }

def step (s : SynapseRuntime P) : RuntimeAction → Option (SynapseRuntime P)
  | .create capacity => match s.ring, RingBufferWriter.create capacity with
    | none, .ok _ => some { s with ring := some (RingSystem.start capacity 1) }
    | _, _ => none
  | .produce action => match action, s.ring with
    | .read, _ => none
    | action, some r => (r.step action).map fun after => { s with ring := some after }
    | _, none => none
  | .consumer => s.consumerStep
  | .worker i => s.workerStep i
  | .metrics => (s.loopStep s.metrics).map fun next => { s with metrics := next }
  -- The planner is made and dropped.
  | .initializeQueryPlanner => some s
  | .updateConfirmed slot => some { s with slotReconciler := s.slotReconciler.updateConfirmed slot }
  | .updateFinalized slot => some { s with slotReconciler := s.slotReconciler.updateFinalized slot }
  | .handleRollback newRoot => some { s with slotReconciler := s.slotReconciler.handleRollback newRoot }
  | .stop => some { s with running := false }

/-- What the consumer has read. -/
def views (s : SynapseRuntime P) : List RingEntryView := (s.ring.map (·.views)).getD []

/-- What the consumer has read and counted. -/
def handled (s : SynapseRuntime P) : List RingEntryView :=
  match s.consumer with
  | .storing _ | .locking _ | .counting => s.views.dropLast
  | _ => s.views

/-- What the plugin has written or is writing. -/
def accepted (s : SynapseRuntime P) : List RingEntryView := (s.ring.map (·.accepted)).getD []

end SynapseRuntime

def lastSlot (views : List RingEntryView) : UInt64 := (views.getLast?.map (·.slot)).getD 0

namespace SynapseRuntime

variable {P : Type}

/-- The entries whose slot is in the atomic, behind the lock, and that are counted. -/
structure At (reconciler : SlotReconciler) (counter : UInt64)
    (stored locked counted : List RingEntryView) : Prop where
  stored : reconciler.processedSlot = lastSlot stored
  locked : reconciler.state.processedSlot = lastSlot locked
  counted : counter = UInt64.ofNat counted.length

/-- The entry that is under way is the last one read. -/
def Handles (reconciler : SlotReconciler) (counter : UInt64) (views : List RingEntryView) :
    ConsumerPhase → Prop
  | .opening | .waiting => views = [] ∧ At reconciler counter [] [] []
  | .polling | .reading | .finished => At reconciler counter views views views
  | .storing slot => ∃ vs v, views = vs ++ [v] ∧ slot = v.slot ∧ At reconciler counter vs vs vs
  | .locking slot => ∃ vs v, views = vs ++ [v] ∧ slot = v.slot ∧ At reconciler counter views vs vs
  | .counting => ∃ vs v, views = vs ++ [v] ∧ At reconciler counter views views vs

structure Sound (s : SynapseRuntime P) : Prop where
  planner : s.queryPlanner = none
  queries : s.queriesExecuted = 0
  ring : ∀ r, s.ring = some r → (∃ done, RingSystem.Coherent r done) ∧ RingSystem.OneSmall r
  handles : Handles s.slotReconciler s.geysersProcessed s.views s.consumer
  opened : s.consumer.Opened → s.ring.isSome

/-- Only the processed slot of the reconciler matters here. -/
theorem Handles.carry {before after : SlotReconciler} {counter : UInt64} {vs : List RingEntryView}
    {phase : ConsumerPhase} (h : Handles before counter vs phase)
    (stored : after.processedSlot = before.processedSlot)
    (locked : after.state.processedSlot = before.state.processedSlot) :
    Handles after counter vs phase := by
  have same {a b c : List RingEntryView} (at_ : At before counter a b c) : At after counter a b c :=
    ⟨stored.trans at_.stored, locked.trans at_.locked, at_.counted⟩
  cases phase with
  | opening => exact ⟨h.1, same h.2⟩
  | waiting => exact ⟨h.1, same h.2⟩
  | polling => exact same h
  | reading => exact same h
  | finished => exact same h
  | storing slot =>
    obtain ⟨vs, v, split, slot, at_⟩ := h
    exact ⟨vs, v, split, slot, same at_⟩
  | locking slot =>
    obtain ⟨vs, v, split, slot, at_⟩ := h
    exact ⟨vs, v, split, slot, same at_⟩
  | counting =>
    obtain ⟨vs, v, split, at_⟩ := h
    exact ⟨vs, v, split, same at_⟩

theorem started_sound (queryWorkers : Nat) (enableMetrics : Bool) :
    (started queryWorkers enableMetrics : SynapseRuntime P).Sound where
  planner := rfl
  queries := rfl
  ring := fun _ no => nomatch no
  handles := ⟨rfl, rfl, rfl, rfl⟩
  opened := False.elim

theorem ring_keeps_views {r t : RingSystem} {action : RingAction} (taken : r.step action = some t)
    (other : action ≠ .read) : t.views = r.views := by
  cases action with
  | enter i v =>
    obtain ⟨_, _, _, rfl⟩ := RingSystem.step_enter taken
    rfl
  | advance i =>
    obtain ⟨_, _, _, _, _, rfl⟩ := RingSystem.step_advance taken
    rfl
  | read => exact absurd rfl other
  | close =>
    cases taken
    rfl

theorem views_of_ring {s : SynapseRuntime P} {r : RingSystem} (there : s.ring = some r) :
    s.views = r.views := by
  rw [views, there]
  rfl

theorem accepted_of_ring {s : SynapseRuntime P} {r : RingSystem} (there : s.ring = some r) :
    s.accepted = r.accepted := by
  rw [accepted, there]
  rfl

theorem Sound.views_prefix {s : SynapseRuntime P} (h : s.Sound) : s.views <+: s.accepted := by
  cases there : s.ring with
  | none =>
    rw [views, there]
    exact List.nil_prefix
  | some r =>
    obtain ⟨⟨done, coherent⟩, _⟩ := h.ring r there
    rw [views_of_ring there, accepted_of_ring there]
    exact coherent.seen.trans coherent.flight.extends

/-- A poll of the ring finds the next published entry, or that there is none. -/
theorem consume_cases {s : SynapseRuntime P} {r : RingSystem} {done : List RingEntryView}
    (there : s.ring = some r) (coherent : r.Coherent done) :
    (s.consume = some { s with consumer := .polling } ∧ r.views = done) ∨
      ∃ v after, s.consume = some { s with ring := some after, consumer := .storing v.slot } ∧
        r.step .read = some after ∧ after.views = r.views ++ [v] := by
  rcases coherent.read with ⟨none, all⟩ | ⟨v, rest, split, some⟩
  · refine .inl ⟨?_, all⟩
    simp only [SynapseRuntime.consume, there, none]
  · refine .inr ⟨v, { r with reader := ⟨(span (r.views ++ [v])).length⟩, views := r.views ++ [v] }, ?_⟩
    simp only [SynapseRuntime.consume, RingSystem.step, there, some, and_self]

theorem Sound.ring_step {s : SynapseRuntime P} (h : s.Sound) {r after : RingSystem} {action : RingAction}
    (there : s.ring = some r) (taken : r.step action = some after)
    (small : ∀ i v, action = .enter i v → v.Small) :
    (∃ done, RingSystem.Coherent after done) ∧ RingSystem.OneSmall after := by
  obtain ⟨coherent, one⟩ := h.ring r there
  exact ⟨RingSystem.coherent_step coherent taken (RingSystem.exclusive_of_oneSmall one action after),
    RingSystem.oneSmall_step one taken small⟩

theorem lastSlot_append (vs : List RingEntryView) (v : RingEntryView) :
    lastSlot (vs ++ [v]) = v.slot := by
  simp [lastSlot]

theorem sound_consumer {s t : SynapseRuntime P} (h : s.Sound) (taken : s.consumerStep = some t) :
    t.Sound := by
  have handles := h.handles
  have opened := h.opened
  unfold consumerStep at taken
  cases at_ : s.consumer with
  | opening =>
    rw [at_] at taken handles
    cases taken
    refine ⟨h.planner, h.queries, h.ring, ?_, ?_⟩
    · change Handles s.slotReconciler s.geysersProcessed s.views s.openRing
      unfold openRing
      split
      · split
        · rw [handles.1]
          exact handles.2
        · exact handles
      · exact handles
    · change s.openRing.Opened → s.ring.isSome
      unfold openRing
      split
      · rename_i r there
        exact fun _ => by simp [there]
      · exact False.elim
  | polling =>
    rw [at_] at taken handles opened
    cases taken
    refine ⟨h.planner, h.queries, h.ring, ?_, fun _ => opened trivial⟩
    change Handles s.slotReconciler s.geysersProcessed s.views (if s.running then .reading else .finished)
    split
    · exact handles
    · exact handles
  | reading =>
    rw [at_] at taken handles opened
    obtain ⟨r, there⟩ := Option.isSome_iff_exists.mp (opened trivial)
    obtain ⟨⟨done, coherent⟩, _⟩ := h.ring r there
    rcases consume_cases there coherent with ⟨none, _⟩ | ⟨v, after, some, read, grown⟩
    · cases none.symm.trans taken
      exact ⟨h.planner, h.queries, h.ring, handles, fun _ => opened trivial⟩
    · cases some.symm.trans taken
      refine ⟨h.planner, h.queries, ?_, ⟨s.views, v, ?_, rfl, handles⟩, fun _ => rfl⟩
      · rintro _ ⟨⟩
        exact h.ring_step there read (fun _ _ no => nomatch no)
      · rw [views_of_ring there]
        exact grown
  | storing slot =>
    rw [at_] at taken handles opened
    cases taken
    obtain ⟨vs, v, split, rfl, before⟩ := handles
    refine ⟨h.planner, h.queries, h.ring, ⟨vs, v, split, rfl, ?_, before.locked, before.counted⟩,
      fun _ => opened trivial⟩
    change v.slot = lastSlot s.views
    rw [split, lastSlot_append]
  | locking slot =>
    rw [at_] at taken handles opened
    cases taken
    obtain ⟨vs, v, split, rfl, before⟩ := handles
    refine ⟨h.planner, h.queries, h.ring, ⟨vs, v, split, before.stored, ?_, before.counted⟩,
      fun _ => opened trivial⟩
    change v.slot = lastSlot s.views
    rw [split, lastSlot_append]
  | counting =>
    rw [at_] at taken handles opened
    cases taken
    obtain ⟨vs, v, split, before⟩ := handles
    refine ⟨h.planner, h.queries, h.ring, ⟨before.stored, before.locked, ?_⟩, fun _ => opened trivial⟩
    change s.geysersProcessed + 1 = UInt64.ofNat s.views.length
    rw [before.counted, split, List.length_append, UInt64.ofNat_add]
    rfl
  | waiting =>
    rw [at_] at taken handles
    cases taken
    refine ⟨h.planner, h.queries, h.ring, ?_, ?_⟩
    · change Handles s.slotReconciler s.geysersProcessed s.views (if s.running then .waiting else .finished)
      split
      · exact handles
      · rw [handles.1]
        exact handles.2
    · change (if s.running then ConsumerPhase.waiting else .finished).Opened → _
      split <;> exact False.elim
  | finished =>
    rw [at_] at taken
    cases taken

theorem sound_step {s t : SynapseRuntime P} {action : RuntimeAction} (h : s.Sound)
    (taken : s.step action = some t) (fits : action.Fits) : t.Sound := by
  cases action with
  | create capacity =>
    simp only [step] at taken
    split at taken
    · rename_i missing _
      cases taken
      refine ⟨h.planner, h.queries, ?_, ?_, fun _ => rfl⟩
      · rintro _ ⟨⟩
        exact ⟨⟨[], RingSystem.start_coherent capacity 1⟩, .idle, rfl, fun _ no => nomatch no⟩
      · have handles := h.handles
        rw [views, missing] at handles
        exact handles
    · cases taken
  | produce action =>
    simp only [step] at taken
    split at taken
    · cases taken
    · rename_i r other there
      obtain ⟨after, moved, rfl⟩ := Option.map_eq_some_iff.mp taken
      refine ⟨h.planner, h.queries, ?_, ?_, fun _ => rfl⟩
      · rintro _ ⟨⟩
        exact h.ring_step there moved fun i v same => fits i v (congrArg _ same)
      · have handles := h.handles
        rw [views_of_ring there, ← ring_keeps_views moved other] at handles
        exact handles
    · cases taken
  | consumer => exact sound_consumer h taken
  | worker i =>
    obtain ⟨phase, _, moved⟩ := Option.bind_eq_some_iff.mp taken
    obtain ⟨next, _, rfl⟩ := Option.map_eq_some_iff.mp moved
    refine ⟨h.planner, ?_, h.ring, h.handles, h.opened⟩
    simp [h.planner, h.queries]
  | metrics =>
    obtain ⟨next, _, rfl⟩ := Option.map_eq_some_iff.mp taken
    exact ⟨h.planner, h.queries, h.ring, h.handles, h.opened⟩
  | initializeQueryPlanner =>
    cases taken
    exact h
  | updateConfirmed slot =>
    cases taken
    exact ⟨h.planner, h.queries, h.ring, h.handles.carry rfl rfl, h.opened⟩
  | updateFinalized slot =>
    cases taken
    refine ⟨h.planner, h.queries, h.ring, h.handles.carry ?_ ?_, h.opened⟩
    · exact SlotReconciler.getSlot_update _ .finalized slot .processed
    · exact SlotReconciler.slotOf_write (s.slotReconciler.store .finalized slot) .finalized slot .processed
  | handleRollback newRoot =>
    cases taken
    refine ⟨h.planner, h.queries, h.ring, h.handles.carry ?_ ?_, h.opened⟩
    · exact (SlotReconciler.getSlot_handleRollback _ newRoot .processed).trans (if_neg (by simp))
    · exact (SlotReconciler.slotOf_handleRollback _ newRoot .processed).trans (if_neg (by simp))
  | stop =>
    cases taken
    exact ⟨h.planner, h.queries, h.ring, h.handles, h.opened⟩

theorem run_sound {queryWorkers : Nat} {enableMetrics : Bool} {actions : List RuntimeAction}
    {s : SynapseRuntime P} (ran : Run (ofPartial step) (started queryWorkers enableMetrics) actions s)
    (small : ∀ i v, .produce (.enter i v) ∈ actions → v.data.length < 2 ^ 32 - 64) : s.Sound := by
  have fits : Along (ofPartial step) (fun _ action _ => action.Fits)
      (started queryWorkers enableMetrics : SynapseRuntime P) actions :=
    along_labels _ (RuntimeAction.fits_of_short small) _
  exact run_invariant_along Sound _ (fun _ _ _ h taken given => sound_step h taken given)
    (started_sound queryWorkers enableMetrics) fits ran

theorem handled_of_pending {s : SynapseRuntime P} {vs : List RingEntryView} {v : RingEntryView}
    (split : s.views = vs ++ [v])
    (pending : (∃ slot, s.consumer = .storing slot ∨ s.consumer = .locking slot) ∨ s.consumer = .counting) :
    s.handled = vs := by
  unfold handled
  rcases pending with ⟨slot, at_ | at_⟩ | at_ <;> rw [at_] <;> simp [split]

/-- The slot in a copy is that of the last entry counted, or of the one under way. -/
def Shows (s : SynapseRuntime P) (slot : UInt64) : Prop :=
  slot = lastSlot s.handled ∨ slot = lastSlot s.views

theorem Sound.shows {s : SynapseRuntime P} (h : s.Sound) :
    s.geysersProcessed = UInt64.ofNat s.handled.length ∧ (∃ rest, s.views = s.handled ++ rest ∧ rest.length ≤ 1) ∧
      s.Shows s.slotReconciler.processedSlot ∧ s.Shows s.slotReconciler.state.processedSlot := by
  have handles := h.handles
  have settled (same : s.handled = s.views)
      (at_ : At s.slotReconciler s.geysersProcessed s.views s.views s.views) :
      s.geysersProcessed = UInt64.ofNat s.handled.length ∧
        (∃ rest, s.views = s.handled ++ rest ∧ rest.length ≤ 1) ∧
        s.Shows s.slotReconciler.processedSlot ∧ s.Shows s.slotReconciler.state.processedSlot :=
    ⟨same ▸ at_.counted, ⟨[], by rw [same, List.append_nil], Nat.zero_le 1⟩, .inr at_.stored, .inr at_.locked⟩
  cases at_ : s.consumer with
  | opening =>
    rw [at_] at handles
    exact settled (by rw [handled, at_]) (handles.1 ▸ handles.2)
  | waiting =>
    rw [at_] at handles
    exact settled (by rw [handled, at_]) (handles.1 ▸ handles.2)
  | polling =>
    rw [at_] at handles
    exact settled (by rw [handled, at_]) handles
  | reading =>
    rw [at_] at handles
    exact settled (by rw [handled, at_]) handles
  | finished =>
    rw [at_] at handles
    exact settled (by rw [handled, at_]) handles
  | storing slot =>
    rw [at_] at handles
    obtain ⟨vs, v, split, _, before⟩ := handles
    obtain rfl := handled_of_pending split (.inl ⟨slot, .inl at_⟩)
    exact ⟨before.counted, ⟨[v], split, Nat.le_refl 1⟩, .inl before.stored, .inl before.locked⟩
  | locking slot =>
    rw [at_] at handles
    obtain ⟨vs, v, split, _, before⟩ := handles
    obtain rfl := handled_of_pending split (.inl ⟨slot, .inr at_⟩)
    exact ⟨before.counted, ⟨[v], split, Nat.le_refl 1⟩, .inr before.stored, .inl before.locked⟩
  | counting =>
    rw [at_] at handles
    obtain ⟨vs, v, split, before⟩ := handles
    obtain rfl := handled_of_pending split (.inr at_)
    exact ⟨before.counted, ⟨[v], split, Nat.le_refl 1⟩, .inr before.stored, .inr before.locked⟩

/-- At every moment the entries read are a prefix of the accepted writes and all
but at most one are counted. Both copies of the processed slot belong to the
last one counted or read, whatever others do to the reconciler. No query is
ever counted, and a consumer that found no ring reads nothing. -/
theorem stats_follow_ring (queryWorkers : Nat) (enableMetrics : Bool) (actions : List RuntimeAction)
    (s : SynapseRuntime P) (ran : Run (ofPartial step) (started queryWorkers enableMetrics) actions s)
    (small : ∀ i v, .produce (.enter i v) ∈ actions → v.data.length < 2 ^ 32 - 64) :
    s.views <+: s.accepted ∧ (∃ rest, s.views = s.handled ++ rest ∧ rest.length ≤ 1) ∧
      s.stats.geysersProcessed = UInt64.ofNat s.handled.length ∧ s.stats.queriesExecuted = 0 ∧
      s.Shows s.stats.currentSlot ∧ s.Shows (s.slotReconciler.getSlot .processed) ∧
      (s.consumer = .waiting → s.views = []) := by
  have h := run_sound ran small
  obtain ⟨counted, pending, stored, locked⟩ := h.shows
  refine ⟨h.views_prefix, pending, counted, h.queries, locked, stored, ?_⟩
  intro waits
  have handles := h.handles
  rw [waits] at handles
  exact handles.1

/-- The plugin writes one entry into a ring that the consumer has opened. -/
def oneWrite : List RuntimeAction :=
  let v : RingEntryView := ⟨7, 1, Vector.replicate 32 9, [5, 6]⟩
  [.create 1024, .consumer, .produce (.enter 0 v), .produce (.advance 0), .produce (.advance 0),
    .produce (.advance 0), .produce (.advance 0)]

theorem oneWrite_short {actions : List RuntimeAction} (own : ∀ i v, .produce (.enter i v) ∉ actions) (i : Nat)
    (v : RingEntryView) (member : .produce (.enter i v) ∈ oneWrite ++ actions) :
    v.data.length < 2 ^ 32 - 64 := by
  rcases List.mem_append.mp member with first | second
  · simp [oneWrite] at first
    obtain ⟨rfl, rfl⟩ := first
    decide
  · exact absurd second (own i v)

theorem entry_under_way :
    let actions := oneWrite ++ [.consumer, .consumer, .updateFinalized 9, .handleRollback 3, .consumer]
    ∃ s : SynapseRuntime Unit, Run (ofPartial step) (started 1 true) actions s ∧
      s.stats.currentSlot = 0 ∧ s.slotReconciler.getSlot .processed = 7 ∧
      s.stats.geysersProcessed = UInt64.ofNat s.handled.length ∧ s.views <+: s.accepted := by
  intro actions
  have ends : ∃ s, actions.foldlM step (started 1 true : SynapseRuntime Unit) = some s ∧
      s.stats.currentSlot = 0 ∧ s.slotReconciler.getSlot .processed = 7 := ⟨_, rfl, by decide, by decide⟩
  obtain ⟨s, run, shown, stored⟩ := ends
  have ran := (run_ofPartial _ _ _ _).mpr run
  have follows := stats_follow_ring 1 true actions s ran (oneWrite_short (by simp))
  exact ⟨s, ran, shown, stored, follows.2.2.1, follows.1⟩

section progress

theorem ring_grows {r t : RingSystem} {done : List RingEntryView} {action : RingAction}
    (h : r.Coherent done) (taken : r.step action = some t) :
    r.accepted <+: t.accepted ∧ r.ring.header.writePos ≤ t.ring.header.writePos := by
  cases action with
  | enter i v =>
    obtain ⟨_, _, _, rfl⟩ := RingSystem.step_enter taken
    exact ⟨List.prefix_refl _, Nat.le_refl _⟩
  | read =>
    simp only [RingSystem.step] at taken
    split at taken <;> cases taken <;> exact ⟨List.prefix_refl _, Nat.le_refl _⟩
  | close =>
    cases taken
    exact ⟨List.prefix_refl _, Nat.le_refl _⟩
  | advance i =>
    obtain ⟨p, q, after, here, moved, rfl⟩ := RingSystem.step_advance taken
    refine ⟨List.prefix_append _ _, ?_⟩
    rcases RingSystem.advance_cases moved with ⟨_, _, _, _, rfl⟩ | ⟨_, _, _, _, rfl⟩ |
      ⟨_, _, _, _, copied⟩ | ⟨v, pos, rfl, rfl, rfl⟩ | ⟨_, _, _, _, rfl⟩
    · exact Nat.le_refl _
    · exact Nat.le_refl _
    · obtain ⟨_, rfl⟩ := RingBufferWriter.copyEntry_ok.mp copied
      exact Nat.le_refl _
    · obtain ⟨_, _, _, rfl, _, _⟩ := h.flight.at_copied here
      exact Nat.le_add_right _ _
    · exact Nat.le_refl _

/-- A shorter list of entries ends earlier in the ring. -/
theorem span_shorter {front rest : List RingEntryView}
    (same : (span (front ++ rest)).length ≤ (span front).length) :
    rest = [] := by
  cases rest with
  | nil => rfl
  | cons v rest =>
    rw [span_append, List.length_append] at same
    have positive : 0 < (span (v :: rest)).length := by
      rw [span, List.flatMap_cons, List.length_append, RingEntryView.length_bytes]
      unfold RingEntry.headerSize
      omega
    omega

/-- What is published stays published. -/
theorem published_grows {r t : RingSystem} {before after : List RingEntryView} {action : RingAction}
    (h : r.Coherent before) (taken : r.step action = some t) (next : t.Coherent after) :
    before <+: after := by
  obtain ⟨longer, later⟩ := ring_grows h taken
  rw [h.held.ends, next.held.ends] at later
  rcases List.prefix_or_prefix_of_prefix (h.flight.extends.trans longer) next.flight.extends with
    grown | ⟨rest, shrunk⟩
  · exact grown
  · rw [← shrunk] at later
    rw [span_shorter later, List.append_nil] at shrunk
    exact shrunk ▸ List.prefix_refl _

/-- Steps since the last poll. -/
def sincePoll : ConsumerPhase → Nat
  | .reading => 1
  | .storing _ => 2
  | .locking _ => 3
  | .counting => 4
  | .opening | .polling | .waiting | .finished => 0

/-- The steps the consumer needs for the first entries of the ring. -/
def ahead (wanted : List RingEntryView) (s : SynapseRuntime P) : Nat :=
  5 * (wanted.length - s.handled.length) - sincePoll s.consumer

/-- The runtime runs, and the wanted entries are published. -/
structure Serving (wanted : List RingEntryView) (s : SynapseRuntime P) : Prop where
  sound : s.Sound
  running : s.running = true
  opened : s.consumer.Opened
  published : ∀ r, s.ring = some r → ∃ done, r.Coherent done ∧ wanted <+: done

theorem consumerStep_keeps {s t : SynapseRuntime P} (h : s.Sound) (taken : s.consumerStep = some t) :
    t.running = s.running ∧ ∀ r, s.ring = some r →
      t.ring = some r ∨ ∃ after, r.step .read = some after ∧ t.ring = some after := by
  have opened := h.opened
  unfold consumerStep at taken
  cases at_ : s.consumer with
  | reading =>
    rw [at_] at taken opened
    obtain ⟨r, there⟩ := Option.isSome_iff_exists.mp (opened trivial)
    obtain ⟨⟨done, coherent⟩, _⟩ := h.ring r there
    rcases consume_cases there coherent with ⟨none, _⟩ | ⟨v, after, some, read, _⟩
    · cases none.symm.trans taken
      exact ⟨rfl, fun _ => .inl⟩
    · cases some.symm.trans taken
      refine ⟨rfl, fun u same => .inr ⟨after, ?_, rfl⟩⟩
      cases there.symm.trans same
      exact read
  | _ =>
    rw [at_] at taken
    cases taken
    try exact ⟨rfl, fun _ => .inl⟩

/-- Only the consumer reads and moves. -/
theorem other_keeps {s t : SynapseRuntime P} {action : RuntimeAction}
    (taken : s.step action = some t) (other : action ≠ .consumer) :
    (action ≠ .stop → t.running = s.running) ∧ t.consumer = s.consumer ∧ t.views = s.views ∧
      ∀ r, s.ring = some r → t.ring = some r ∨ ∃ act after, r.step act = some after ∧ t.ring = some after := by
  cases action with
  | consumer => exact absurd rfl other
  | create capacity =>
    simp only [step] at taken
    split at taken
    · rename_i missing _
      cases taken
      refine ⟨fun _ => rfl, rfl, ?_, fun r there => nomatch missing.symm.trans there⟩
      rw [views, views, missing]
      rfl
    · cases taken
  | produce act =>
    simp only [step] at taken
    split at taken
    · cases taken
    · rename_i r notRead there
      obtain ⟨after, moved, rfl⟩ := Option.map_eq_some_iff.mp taken
      refine ⟨fun _ => rfl, rfl, ?_, ?_⟩
      · exact (ring_keeps_views moved notRead).trans (views_of_ring there).symm
      · intro u same
        cases there.symm.trans same
        exact .inr ⟨_, after, moved, rfl⟩
    · cases taken
  | worker i =>
    obtain ⟨_, _, moved⟩ := Option.bind_eq_some_iff.mp taken
    obtain ⟨_, _, rfl⟩ := Option.map_eq_some_iff.mp moved
    exact ⟨fun _ => rfl, rfl, rfl, fun _ => .inl⟩
  | metrics =>
    obtain ⟨_, _, rfl⟩ := Option.map_eq_some_iff.mp taken
    exact ⟨fun _ => rfl, rfl, rfl, fun _ => .inl⟩
  | stop =>
    cases taken
    exact ⟨fun going => absurd rfl going, rfl, rfl, fun _ => .inl⟩
  | _ =>
    cases taken
    exact ⟨fun _ => rfl, rfl, rfl, fun _ => .inl⟩

theorem handled_congr {s t : SynapseRuntime P} (views : t.views = s.views) (phase : t.consumer = s.consumer) :
    t.handled = s.handled := by
  unfold handled
  rw [views, phase]

theorem Serving.consumer_step {wanted : List RingEntryView} {s t : SynapseRuntime P}
    (h : Serving wanted s) (taken : s.consumerStep = some t) :
    t.consumer.Opened ∧ ahead wanted t ≤ ahead wanted s - 1 := by
  have opened := h.opened
  have handles := h.sound.handles
  unfold consumerStep at taken
  cases at_ : s.consumer with
  | opening =>
    rw [at_] at opened
    exact opened.elim
  | waiting =>
    rw [at_] at opened
    exact opened.elim
  | finished =>
    rw [at_] at opened
    exact opened.elim
  | polling =>
    rw [at_, h.running] at taken
    cases taken
    refine ⟨trivial, ?_⟩
    simp [ahead, handled, at_, sincePoll, views]
  | reading =>
    rw [at_] at taken
    obtain ⟨r, there⟩ := Option.isSome_iff_exists.mp (h.sound.opened h.opened)
    obtain ⟨done, coherent, wants⟩ := h.published r there
    rcases consume_cases there coherent with ⟨none, all⟩ | ⟨v, after, some, read, grown⟩
    · cases none.symm.trans taken
      refine ⟨trivial, ?_⟩
      have enough : wanted.length ≤ s.views.length := by
        rw [views_of_ring there, all]
        exact wants.length_le
      have nothing : wanted.length - s.views.length = 0 := by omega
      simp only [ahead, handled, at_, sincePoll, nothing]
      change 5 * (wanted.length - s.views.length) - 0 ≤ _
      omega
    · cases some.symm.trans taken
      refine ⟨trivial, ?_⟩
      have same : after.views.dropLast = s.views := by
        rw [grown, List.dropLast_concat, views_of_ring there]
      simp only [ahead, handled, at_, sincePoll]
      change 5 * (wanted.length - after.views.dropLast.length) - 2 ≤ _
      rw [same]
      omega
  | storing slot =>
    rw [at_] at taken
    cases taken
    refine ⟨trivial, ?_⟩
    simp only [ahead, handled, at_, sincePoll]
    change 5 * (wanted.length - s.views.dropLast.length) - 3 ≤ _
    omega
  | locking slot =>
    rw [at_] at taken
    cases taken
    refine ⟨trivial, ?_⟩
    simp only [ahead, handled, at_, sincePoll]
    change 5 * (wanted.length - s.views.dropLast.length) - 4 ≤ _
    omega
  | counting =>
    rw [at_] at taken handles
    cases taken
    obtain ⟨vs, v, split, _⟩ := handles
    refine ⟨trivial, ?_⟩
    simp only [ahead, handled, at_, sincePoll]
    change 5 * (wanted.length - s.views.length) - 0 ≤ _
    rw [split, List.dropLast_concat, List.length_append, List.length_singleton]
    omega

theorem Serving.step {wanted : List RingEntryView} {s t : SynapseRuntime P} {action : RuntimeAction}
    (h : Serving wanted s) (taken : s.step action = some t) (fits : action.Fits) (goesOn : action ≠ .stop) :
    Serving wanted t ∧ ahead wanted t ≤ ahead wanted s - (action.isConsumer).toNat := by
  have sound := sound_step h.sound taken fits
  obtain ⟨r, there⟩ := Option.isSome_iff_exists.mp (h.sound.opened h.opened)
  obtain ⟨done, coherent, wants⟩ := h.published r there
  have published (moved : t.ring = some r ∨ ∃ act after, r.step act = some after ∧ t.ring = some after) :
      ∀ u, t.ring = some u → ∃ done, u.Coherent done ∧ wanted <+: done := by
    intro u next
    rcases moved with same | ⟨act, after, moved, same⟩
    · cases same.symm.trans next
      exact ⟨done, coherent, wants⟩
    · cases same.symm.trans next
      obtain ⟨⟨later, nextCoherent⟩, _⟩ := sound.ring u next
      exact ⟨later, nextCoherent, wants.trans (published_grows coherent moved nextCoherent)⟩
  by_cases own : action = .consumer
  · subst own
    obtain ⟨opened, lower⟩ := h.consumer_step taken
    obtain ⟨running, moved⟩ := consumerStep_keeps h.sound taken
    refine ⟨⟨sound, running.trans h.running, opened, published ?_⟩, lower⟩
    exact (moved r there).imp_right fun ⟨after, read, next⟩ => ⟨.read, after, read, next⟩
  · obtain ⟨running, phase, views, moved⟩ := other_keeps taken own
    have same : t.handled = s.handled := handled_congr views phase
    refine ⟨⟨sound, (running goesOn).trans h.running, phase ▸ h.opened, published (moved r there)⟩, ?_⟩
    rw [ahead, ahead, same, phase]
    exact Nat.le_sub_of_add_le (by cases action <;> simp_all [RuntimeAction.isConsumer])

theorem Serving.prefix_handled {wanted : List RingEntryView} {s : SynapseRuntime P}
    (h : Serving wanted s) (none : ahead wanted s = 0) : wanted <+: s.handled := by
  obtain ⟨r, there⟩ := Option.isSome_iff_exists.mp (h.sound.opened h.opened)
  obtain ⟨done, coherent, wants⟩ := h.published r there
  obtain ⟨_, ⟨rest, split, _⟩, _⟩ := h.sound.shows
  have within : s.handled <+: done :=
    (split ▸ List.prefix_append s.handled rest).trans (views_of_ring there ▸ coherent.seen)
  have short : sincePoll s.consumer ≤ 4 := by cases s.consumer <;> simp [sincePoll]
  refine List.prefix_of_prefix_length_le wants within ?_
  unfold ahead at none
  omega

/-- Whatever the other threads and the plugin do meanwhile, five steps of the
consumer for each published entry it has not handled are enough to handle them
all, while nobody stops the runtime. -/
theorem consumer_catches_up (queryWorkers : Nat) (enableMetrics : Bool)
    (earlier later : List RuntimeAction) (s t : SynapseRuntime P)
    (ran : Run (ofPartial step) (started queryWorkers enableMetrics) earlier s)
    (ranOn : Run (ofPartial step) s later t)
    (small : ∀ i v, .produce (.enter i v) ∈ earlier ++ later → v.data.length < 2 ^ 32 - 64)
    (running : s.running = true) (opened : s.consumer.Opened) (served : .stop ∉ later)
    (landed : ∀ r, s.ring = some r → ∀ p ∈ r.threads, ¬ p.InFlight)
    (enough : 5 * (s.accepted.length - s.handled.length) ≤ later.countP RuntimeAction.isConsumer) :
    s.accepted <+: t.handled := by
  have h := run_sound ran fun i v member => small i v (List.mem_append_left later member)
  have labels : ∀ action ∈ later, action.Fits ∧ action ≠ .stop := fun action member =>
    ⟨RuntimeAction.fits_of_short small action (List.mem_append_right earlier member),
      fun stops => served (stops ▸ member)⟩
  have serving : Serving s.accepted s := by
    refine ⟨h, running, opened, ?_⟩
    intro r there
    obtain ⟨⟨done, coherent⟩, _⟩ := h.ring r there
    have all := coherent.flight.landed (landed r there)
    exact ⟨done, coherent, (accepted_of_ring there).trans all ▸ List.prefix_refl done⟩
  obtain ⟨final, left⟩ := run_lowers (Serving s.accepted) (fun _ action _ => action.Fits ∧ action ≠ .stop)
    (ahead s.accepted) RuntimeAction.isConsumer
    (fun _ _ _ h taken keeps => h.step taken keeps.1 keeps.2) serving (along_labels _ labels s) ranOn
  exact final.prefix_handled (by unfold ahead at left ⊢; omega)

theorem entry_caught_up :
    let later := [.consumer, .metrics, .consumer, .consumer, .worker 0, .consumer, .consumer]
    ∃ s t : SynapseRuntime Unit, Run (ofPartial step) (started 1 true) oneWrite s ∧
      Run (ofPartial step) s later t ∧ s.accepted.length = 1 ∧ s.handled = [] ∧ s.accepted <+: t.handled := by
  intro later
  have ends : ∃ s t, oneWrite.foldlM step (started 1 true : SynapseRuntime Unit) = some s ∧
      later.foldlM step s = some t ∧ s.accepted.length = 1 ∧ s.handled = [] ∧ s.running = true ∧
      s.consumer = .polling ∧ s.ring.map (·.threads) = some [.returned (.ok 0)] :=
    ⟨_, _, rfl, rfl, by decide, by decide, rfl, rfl, by decide⟩
  obtain ⟨s, t, run, runOn, one, none, running, polls, threads⟩ := ends
  have ran := (run_ofPartial _ _ _ _).mpr run
  have ranOn := (run_ofPartial _ _ _ _).mpr runOn
  have landed (r : RingSystem) (there : s.ring = some r) : ∀ p ∈ r.threads, ¬ p.InFlight := by
    rw [there] at threads
    have settled : r.threads = [.returned (.ok 0)] := Option.some.inj threads
    rw [settled]
    decide
  refine ⟨s, t, ran, ranOn, one, none, ?_⟩
  exact consumer_catches_up 1 true oneWrite later s t ran ranOn (oneWrite_short (by simp [later])) running
    (polls ▸ trivial) (by simp [later]) landed (by rw [one, none]; decide)

end progress

section stopping

/-- The runtime is stopped, and the consumer reads at most one more entry. -/
structure Stopping (most : Nat) (s : SynapseRuntime P) : Prop where
  sound : s.Sound
  stopped : s.running = false
  read : s.views.length + (if s.consumer = .reading then 1 else 0) ≤ most

theorem Stopping.step {most : Nat} {s t : SynapseRuntime P} {action : RuntimeAction}
    (h : Stopping most s) (taken : s.step action = some t) (fits : action.Fits) : Stopping most t := by
  have sound := sound_step h.sound taken fits
  have read := h.read
  by_cases own : action = .consumer
  · subst own
    refine ⟨sound, (consumerStep_keeps h.sound taken).1.trans h.stopped, ?_⟩
    change s.consumerStep = some t at taken
    unfold consumerStep at taken
    cases at_ : s.consumer with
    | reading =>
      rw [at_] at taken
      rw [at_, if_pos rfl] at read
      obtain ⟨r, there⟩ := Option.isSome_iff_exists.mp (h.sound.opened (at_ ▸ trivial))
      obtain ⟨⟨done, coherent⟩, _⟩ := h.sound.ring r there
      rcases consume_cases there coherent with ⟨none, _⟩ | ⟨v, after, some, _, grown⟩
      · cases none.symm.trans taken
        exact Nat.le_of_succ_le read
      · cases some.symm.trans taken
        change after.views.length + 0 ≤ most
        rw [grown, List.length_append, ← views_of_ring there]
        exact read
    | opening =>
      rw [at_] at taken read
      cases taken
      have polls : s.openRing ≠ .reading := by
        unfold openRing
        repeat' split
        all_goals simp
      change s.views.length + (if s.openRing = .reading then 1 else 0) ≤ most
      rw [if_neg polls]
      exact read
    | polling =>
      rw [at_, h.stopped] at taken
      rw [at_] at read
      cases taken
      exact read
    | waiting =>
      rw [at_, h.stopped] at taken
      rw [at_] at read
      cases taken
      exact read
    | _ =>
      rw [at_] at taken read
      cases taken
      try exact read
  · obtain ⟨running, phase, views, _⟩ := other_keeps taken own
    refine ⟨sound, ?_, by rw [views, phase]; exact read⟩
    by_cases stops : action = .stop
    · subst stops
      cases taken
      rfl
    · exact (running stops).trans h.stopped

theorem Stopping.consumer_left {most : Nat} {s t : SynapseRuntime P} {action : RuntimeAction}
    (h : Stopping most s) (taken : s.step action = some t) :
    t.consumer.left + (action.isConsumer).toNat ≤ s.consumer.left := by
  by_cases own : action = .consumer
  · subst own
    change s.consumerStep = some t at taken
    unfold consumerStep at taken
    cases at_ : s.consumer with
    | reading =>
      rw [at_] at taken
      obtain ⟨r, there⟩ := Option.isSome_iff_exists.mp (h.sound.opened (at_ ▸ trivial))
      obtain ⟨⟨done, coherent⟩, _⟩ := h.sound.ring r there
      rcases consume_cases there coherent with ⟨none, _⟩ | ⟨v, after, some, _, _⟩
      · cases none.symm.trans taken
        change 1 + 1 ≤ 5
        decide
      · cases some.symm.trans taken
        exact Nat.le_refl 5
    | opening =>
      rw [at_] at taken
      cases taken
      change s.openRing.left + 1 ≤ 2
      unfold openRing
      repeat' split
      all_goals decide
    | polling =>
      rw [at_, h.stopped] at taken
      cases taken
      exact Nat.le_refl 1
    | waiting =>
      rw [at_, h.stopped] at taken
      cases taken
      exact Nat.le_refl 1
    | storing slot =>
      rw [at_] at taken
      cases taken
      exact Nat.le_refl 4
    | locking slot =>
      rw [at_] at taken
      cases taken
      exact Nat.le_refl 3
    | counting =>
      rw [at_] at taken
      cases taken
      exact Nat.le_refl 2
    | finished =>
      rw [at_] at taken
      cases taken
  · have others : action.isConsumer = false := by cases action <;> simp_all [RuntimeAction.isConsumer]
    rw [(other_keeps taken own).2.1, others]
    exact Nat.le_refl _

theorem loopStep_left {s : SynapseRuntime P} (stopped : s.running = false) {before after : LoopPhase}
    (taken : s.loopStep before = some after) : after.left + 1 ≤ before.left := by
  cases before with
  | polling =>
    rw [loopStep, stopped] at taken
    cases taken
    exact Nat.le_refl 1
  | working =>
    cases taken
    exact Nat.le_refl 2
  | finished => cases taken

/-- The steps that are left to one worker. -/
def workerLeft (i : Nat) (s : SynapseRuntime P) : Nat := (s.workers[i]?.map LoopPhase.left).getD 0

theorem consumerStep_loops {s t : SynapseRuntime P} (taken : s.consumerStep = some t) :
    t.workers = s.workers ∧ t.metrics = s.metrics := by
  unfold consumerStep consume at taken
  repeat' split at taken
  all_goals
    cases taken
    try exact ⟨rfl, rfl⟩

/-- A step of a loop costs it one, and no other step moves it. -/
theorem loops_left {s t : SynapseRuntime P} {action : RuntimeAction} (stopped : s.running = false)
    (taken : s.step action = some t) :
    (∀ i, workerLeft i t + (action.isWorker i).toNat ≤ workerLeft i s) ∧
      t.metrics.left + (action.isMetrics).toNat ≤ s.metrics.left := by
  have same (workers : t.workers = s.workers) (own : ∀ i, action.isWorker i = false) :
      ∀ i, workerLeft i t + (action.isWorker i).toNat ≤ workerLeft i s := by
    intro i
    rw [workerLeft, workers, own i]
    exact Nat.le_refl _
  cases action with
  | worker i =>
    obtain ⟨phase, there, moved⟩ := Option.bind_eq_some_iff.mp taken
    obtain ⟨next, left, rfl⟩ := Option.map_eq_some_iff.mp moved
    refine ⟨?_, Nat.le_refl _⟩
    intro j
    obtain ⟨inside, rfl⟩ := List.getElem?_eq_some_iff.mp there
    by_cases this : j = i
    · subst this
      simpa [workerLeft, RuntimeAction.isWorker, inside] using loopStep_left stopped left
    · simp [workerLeft, RuntimeAction.isWorker, this, List.getElem?_set_ne (Ne.symm this)]
  | metrics =>
    obtain ⟨next, left, rfl⟩ := Option.map_eq_some_iff.mp taken
    exact ⟨same rfl fun _ => rfl, loopStep_left stopped left⟩
  | consumer =>
    obtain ⟨workers, metrics⟩ := consumerStep_loops taken
    exact ⟨same workers fun _ => rfl, metrics ▸ Nat.le_refl _⟩
  | create capacity =>
    simp only [step] at taken
    split at taken <;> cases taken
    exact ⟨same rfl fun _ => rfl, Nat.le_refl _⟩
  | produce act =>
    simp only [step] at taken
    split at taken
    · cases taken
    · obtain ⟨_, _, rfl⟩ := Option.map_eq_some_iff.mp taken
      exact ⟨same rfl fun _ => rfl, Nat.le_refl _⟩
    · cases taken
  | _ =>
    cases taken
    exact ⟨same rfl fun _ => rfl, Nat.le_refl _⟩

theorem Sound.consumer_goes_on {s : SynapseRuntime P} (h : s.Sound) (busy : s.consumer ≠ .finished) :
    (s.step .consumer).isSome := by
  change s.consumerStep.isSome
  unfold consumerStep
  cases at_ : s.consumer with
  | finished => exact absurd at_ busy
  | reading =>
    obtain ⟨r, there⟩ := Option.isSome_iff_exists.mp (h.opened (at_ ▸ trivial))
    obtain ⟨⟨done, coherent⟩, _⟩ := h.ring r there
    rcases consume_cases there coherent with ⟨none, _⟩ | ⟨v, after, some, _, _⟩
    · simp only [none, Option.isSome_some]
    · simp only [some, Option.isSome_some]
  | _ => rfl

theorem loop_goes_on (s : SynapseRuntime P) {phase : LoopPhase} (busy : phase ≠ .finished) :
    (s.loopStep phase).isSome := by
  cases phase with
  | finished => exact absurd rfl busy
  | polling => rfl
  | working => rfl

/-- A stop ends every thread under every interleaving: each can take its next
step and has at most five of them left. The consumer reads at most one more
entry, and when it has finished every entry it read is counted. -/
theorem stop_ends_threads (queryWorkers : Nat) (enableMetrics : Bool)
    (earlier later : List RuntimeAction) (s t : SynapseRuntime P)
    (ran : Run (ofPartial step) (started queryWorkers enableMetrics) earlier s)
    (ranOn : Run (ofPartial step) s later t)
    (small : ∀ i v, .produce (.enter i v) ∈ earlier ++ later → v.data.length < 2 ^ 32 - 64)
    (stopped : s.running = false) :
    (later.countP RuntimeAction.isConsumer ≤ 5 ∧ (t.consumer ≠ .finished → (t.step .consumer).isSome)) ∧
    (∀ i, later.countP (RuntimeAction.isWorker i) ≤ 2 ∧
      ∀ phase, t.workers[i]? = some phase → phase ≠ .finished → (t.step (.worker i)).isSome) ∧
    (later.countP RuntimeAction.isMetrics ≤ 2 ∧ (t.metrics ≠ .finished → (t.step .metrics).isSome)) ∧
    t.views.length ≤ s.views.length + 1 ∧
    (t.consumer = .finished → t.stats.geysersProcessed = UInt64.ofNat t.views.length ∧
      t.stats.currentSlot = lastSlot t.views) := by
  have h := run_sound ran fun i v member => small i v (List.mem_append_left later member)
  have fits : Along (ofPartial step) (fun _ action _ => action.Fits) s later :=
    along_labels _ (fun action member =>
      RuntimeAction.fits_of_short small action (List.mem_append_right earlier member)) s
  let most := s.views.length + 1
  have stopping : Stopping most s := by
    refine ⟨h, stopped, Nat.add_le_add_left ?_ _⟩
    split <;> decide
  have spends (measure : SynapseRuntime P → Nat) (own : RuntimeAction → Bool)
      (each : ∀ s action t, Stopping most s → s.step action = some t →
        measure t + (own action).toNat ≤ measure s) : later.countP own ≤ measure s :=
    Nat.le_of_add_left_le (run_spends (Stopping most) _ measure own
      (fun _ _ _ h taken fits => ⟨h.step taken fits, each _ _ _ h taken⟩) stopping fits ranOn).2
  have final : Stopping most t :=
    run_invariant_along (Stopping most) _ (fun _ _ _ h taken fits => h.step taken fits) stopping fits ranOn
  obtain ⟨counted, ⟨rest, split, _⟩, _, locked⟩ := final.sound.shows
  refine ⟨⟨?_, final.sound.consumer_goes_on⟩, fun i => ⟨?_, ?_⟩, ⟨?_, ?_⟩, ?_, ?_⟩
  · have all := spends (·.consumer.left) _ fun _ _ _ h => h.consumer_left
    exact all.trans (by cases s.consumer <;> simp [ConsumerPhase.left])
  · have all := spends (workerLeft i) (RuntimeAction.isWorker i)
      fun _ _ _ h taken => (loops_left h.stopped taken).1 i
    refine all.trans ?_
    unfold workerLeft
    cases s.workers[i]? with
    | none => exact Nat.zero_le 2
    | some phase => cases phase <;> decide
  · intro phase there busy
    obtain ⟨next, left⟩ := Option.isSome_iff_exists.mp (loop_goes_on t busy)
    simp [step, workerStep, there, left]
  · have all := spends (·.metrics.left) _ fun _ _ _ h taken => (loops_left h.stopped taken).2
    exact all.trans (by cases s.metrics <;> decide)
  · intro busy
    obtain ⟨next, left⟩ := Option.isSome_iff_exists.mp (loop_goes_on t busy)
    simp [step, left]
  · exact Nat.le_of_add_right_le final.read
  · intro ended
    have all : t.handled = t.views := by rw [handled, ended]
    refine ⟨all ▸ counted, ?_⟩
    rcases locked with shown | shown
    · exact all ▸ shown
    · exact shown

theorem stopped_while_reading :
    let earlier := oneWrite ++ [.consumer, .stop]
    let later := [.worker 0, .consumer, .metrics, .consumer, .consumer, .consumer, .consumer]
    ∃ s t : SynapseRuntime Unit, Run (ofPartial step) (started 1 true) earlier s ∧
      Run (ofPartial step) s later t ∧ s.running = false ∧
      t.stats.geysersProcessed = UInt64.ofNat t.views.length ∧ t.stats.currentSlot = 7 := by
  intro earlier later
  have ends : ∃ s t, earlier.foldlM step (started 1 true : SynapseRuntime Unit) = some s ∧
      later.foldlM step s = some t ∧ s.running = false ∧ t.consumer = .finished ∧ t.stats.currentSlot = 7 :=
    ⟨_, _, rfl, rfl, rfl, rfl, by decide⟩
  obtain ⟨s, t, run, runOn, stopped, ended, shown⟩ := ends
  have ran := (run_ofPartial _ _ _ _).mpr run
  have ranOn := (run_ofPartial _ _ _ _).mpr runOn
  have all := stop_ends_threads 1 true earlier later s t ran ranOn ?_ stopped
  · exact ⟨s, t, ran, ranOn, stopped, (all.2.2.2.2 ended).1, shown⟩
  · intro i v
    rw [List.append_assoc]
    exact oneWrite_short (by simp [later]) i v

end stopping

end SynapseRuntime

end Hyperplane
