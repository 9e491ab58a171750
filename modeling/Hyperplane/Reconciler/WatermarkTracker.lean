import Hyperplane.Lib.Threads

/-! The watermark tracker. An update loads the watermark and exchanges it for the new
value, and starts over when another thread was faster; an advance is one atomic step. -/
namespace Hyperplane
open Transition Threads

structure WatermarkTracker where
  watermark : UInt64
  deriving DecidableEq

namespace WatermarkTracker

def new (initial : UInt64) : WatermarkTracker := ⟨initial⟩

def get (self : WatermarkTracker) : UInt64 := self.watermark

def update (self : WatermarkTracker) (newValue : UInt64) : Bool × WatermarkTracker :=
  if newValue ≤ self.watermark then (false, self) else (true, ⟨newValue⟩)

def advance (self : WatermarkTracker) : UInt64 × WatermarkTracker := (self.watermark, ⟨self.watermark + 1⟩)

end WatermarkTracker

inductive WatermarkCall where
  | update (newValue : UInt64)
  | advance
  deriving DecidableEq

inductive WatermarkPhase where
  | idle
  | updating (newValue : UInt64)
  | loaded (newValue current : UInt64)
  | returning (newValue : UInt64) (result : Bool)
  | updated (result : Bool)
  | advancing
  | advanced (before : UInt64)
  deriving DecidableEq

namespace WatermarkPhase

def resting : WatermarkPhase → Bool
  | .idle | .updated _ | .advanced _ => true
  | _ => false

/-- The argument of the update the thread is in. -/
def newValue : WatermarkPhase → Option UInt64
  | .updating newValue | .loaded newValue _ | .returning newValue _ => some newValue
  | _ => none

def step : WatermarkPhase → WatermarkTracker → Option (WatermarkPhase × WatermarkTracker)
  | .updating newValue, tracker =>
    some (if newValue ≤ tracker.get then .returning newValue false else .loaded newValue tracker.get, tracker)
  | .loaded newValue current, tracker =>
    -- compare_exchange
    if tracker.watermark = current then some (.returning newValue true, ⟨newValue⟩)
    else some (.updating newValue, tracker)
  | .returning _ result, tracker => some (.updated result, tracker)
  | .advancing, tracker => some (.advanced tracker.advance.1, tracker.advance.2)
  | .idle, _ => none
  | .updated _, _ => none
  | .advanced _, _ => none

end WatermarkPhase

/-- A thread, and whether a step of its call has taken the watermark from another value to
the new one. -/
structure WatermarkThread where
  phase : WatermarkPhase
  changed : Bool := false
  deriving DecidableEq

/-- An update that has returned, with the watermark at that moment. -/
structure UpdateReturn where
  newValue : UInt64
  result : Bool
  changed : Bool
  watermark : UInt64
  deriving DecidableEq

structure WatermarkShared where
  tracker : WatermarkTracker
  returns : List UpdateReturn := []
  deriving DecidableEq

namespace WatermarkThread

def enter : WatermarkCall → WatermarkThread
  | .update newValue => ⟨.updating newValue, false⟩
  | .advance => ⟨.advancing, false⟩

/-- The thread after a step, which is seen from outside. -/
def observe (p : WatermarkThread) (q : WatermarkPhase) (before after : WatermarkTracker) : WatermarkThread where
  phase := q
  changed := p.changed || decide (before.get ≠ after.get ∧ p.phase.newValue = some after.get)

def returned (p : WatermarkThread) (s : WatermarkShared) : List UpdateReturn :=
  match p.phase with
  | .returning newValue result => [⟨newValue, result, p.changed, s.tracker.get⟩]
  | _ => []

def advance (p : WatermarkThread) (s : WatermarkShared) :
    Option (WatermarkThread × WatermarkShared × List WatermarkThread) :=
  (p.phase.step s.tracker).map fun (q, after) =>
    (p.observe q s.tracker after, ⟨after, s.returns ++ p.returned s⟩, [])

def program : Program WatermarkShared WatermarkThread WatermarkCall where
  enter call _ := enter call
  resting p := p.phase.resting
  advance := advance

def start (initial : UInt64) (threads : Nat) : Pool WatermarkShared WatermarkThread where
  shared := { tracker := .new initial }
  phases := List.replicate threads { phase := .idle }

/-- What one step of a call does. -/
inductive Advanced : WatermarkShared → WatermarkThread → WatermarkThread → WatermarkShared → Prop where
  | behind (s : WatermarkShared) (newValue : UInt64) (changed : Bool) (above : newValue ≤ s.tracker.get) :
      Advanced s ⟨.updating newValue, changed⟩ ⟨.returning newValue false, changed⟩ s
  | load (s : WatermarkShared) (newValue : UInt64) (changed : Bool) (below : s.tracker.get < newValue) :
      Advanced s ⟨.updating newValue, changed⟩ ⟨.loaded newValue s.tracker.get, changed⟩ s
  | exchange (s : WatermarkShared) (newValue : UInt64) (changed : Bool) :
      Advanced s ⟨.loaded newValue s.tracker.get, changed⟩
        (observe ⟨.loaded newValue s.tracker.get, changed⟩ (.returning newValue true) s.tracker ⟨newValue⟩)
        { s with tracker := ⟨newValue⟩ }
  | overtaken (s : WatermarkShared) (newValue current : UInt64) (changed : Bool) :
      Advanced s ⟨.loaded newValue current, changed⟩ ⟨.updating newValue, changed⟩ s
  | answer (s : WatermarkShared) (newValue : UInt64) (result changed : Bool) :
      Advanced s ⟨.returning newValue result, changed⟩ ⟨.updated result, changed⟩
        { s with returns := s.returns ++ [⟨newValue, result, changed, s.tracker.get⟩] }
  | increment (s : WatermarkShared) (changed : Bool) :
      Advanced s ⟨.advancing, changed⟩ ⟨.advanced s.tracker.get, changed⟩ { s with tracker := s.tracker.advance.2 }

theorem advanced_of_advance {p q : WatermarkThread} {s after : WatermarkShared} {started : List WatermarkThread}
    (moved : advance p s = some (q, after, started)) : started = [] ∧ Advanced s p q after := by
  obtain ⟨phase, changed⟩ := p
  obtain ⟨tracker, returns⟩ := s
  cases phase with
  | idle => cases moved
  | updated result => cases moved
  | advanced before => cases moved
  | updating newValue =>
    cases moved
    refine ⟨rfl, ?_⟩
    by_cases above : newValue ≤ tracker.get
    · simpa [observe, returned, above] using Advanced.behind ⟨tracker, returns⟩ newValue changed above
    · simpa [observe, returned, above] using
        Advanced.load ⟨tracker, returns⟩ newValue changed (UInt64.not_le.mp above)
  | loaded newValue current =>
    by_cases same : tracker.watermark = current
    · subst same
      simp only [advance, WatermarkPhase.step, if_pos, Option.map_some] at moved
      cases moved
      refine ⟨rfl, ?_⟩
      simpa [returned, WatermarkTracker.get] using Advanced.exchange ⟨tracker, returns⟩ newValue changed
    · simp only [advance, WatermarkPhase.step, if_neg same, Option.map_some] at moved
      cases moved
      refine ⟨rfl, ?_⟩
      simpa [observe, returned] using Advanced.overtaken ⟨tracker, returns⟩ newValue current changed
  | returning newValue result =>
    cases moved
    refine ⟨rfl, ?_⟩
    simpa [observe, returned] using Advanced.answer ⟨tracker, returns⟩ newValue result changed
  | advancing =>
    cases moved
    refine ⟨rfl, ?_⟩
    simpa [observe, returned, WatermarkPhase.newValue, WatermarkTracker.advance, WatermarkTracker.get] using
      Advanced.increment ⟨tracker, returns⟩ changed

/-- A call that no other interrupts is the method. -/
theorem alone_update (tracker : WatermarkTracker) (newValue : UInt64) :
    ∃ moves returns changed, Run (ofPartial program.step) ⟨⟨tracker, []⟩, [{ phase := .idle }]⟩
      (.call 0 (.update newValue) :: moves)
      ⟨⟨(tracker.update newValue).2, returns⟩, [⟨.updated (tracker.update newValue).1, changed⟩]⟩ := by
  by_cases above : newValue ≤ tracker.watermark
  · refine ⟨[.advance 0, .advance 0], [⟨newValue, false, false, tracker.watermark⟩], false, ?_⟩
    refine (run_ofPartial _ _ _ _).mpr ?_
    simp [List.foldlM, program, Program.step, enter, advance, WatermarkPhase.step, WatermarkPhase.resting,
      observe, returned, WatermarkTracker.update, WatermarkTracker.get, above]
  · refine ⟨[.advance 0, .advance 0, .advance 0],
      [⟨newValue, true, decide (tracker.watermark ≠ newValue), newValue⟩],
      decide (tracker.watermark ≠ newValue), ?_⟩
    refine (run_ofPartial _ _ _ _).mpr ?_
    simp [List.foldlM, program, Program.step, enter, advance, WatermarkPhase.step, WatermarkPhase.resting,
      observe, returned, WatermarkPhase.newValue, WatermarkTracker.update, WatermarkTracker.get, above]

theorem alone_advance (tracker : WatermarkTracker) :
    Run (ofPartial program.step) ⟨⟨tracker, []⟩, [{ phase := .idle }]⟩ [.call 0 .advance, .advance 0]
      ⟨⟨tracker.advance.2, []⟩, [⟨.advanced tracker.advance.1, false⟩]⟩ := by
  refine (run_ofPartial _ _ _ _).mpr ?_
  simp [List.foldlM, program, Program.step, enter, advance, WatermarkPhase.step, WatermarkPhase.resting,
    observe, returned, WatermarkPhase.newValue, WatermarkTracker.advance, WatermarkTracker.get]

variable {initial : UInt64} {t u : Pool WatermarkShared WatermarkThread}

theorem step_cases {m : Move WatermarkCall} (taken : program.step t m = some u) :
    (∃ i c p, m = .call i c ∧ t.phases[i]? = some p ∧ p.phase.resting = true ∧
      u = ⟨t.shared, t.phases.set i (enter c)⟩) ∨
    ∃ i p q after, m = .advance i ∧ t.phases[i]? = some p ∧ Advanced t.shared p q after ∧
      u = ⟨after, t.phases.set i q⟩ :=
  Program.step_lone_cases advanced_of_advance taken

/-- No fetch_add finds the largest value. -/
def NoOverflow (t : Pool WatermarkShared WatermarkThread) (m : Move WatermarkCall)
    (_ : Pool WatermarkShared WatermarkThread) : Prop :=
  match m with
  | .call _ _ => True
  | .advance i => ∀ p ∈ t.phases[i]?, p.phase = .advancing → t.shared.tracker.watermark.toNat + 1 < 2 ^ 64

instance : ∀ t m u, Decidable (NoOverflow t m u)
  | _, .call _ _, _ => instDecidableTrue
  | t, .advance i, _ => inferInstanceAs (Decidable (∀ p ∈ t.phases[i]?, p.phase = .advancing → _))

/-- No later load of the watermark sees less. -/
def Rises (t : Pool WatermarkShared WatermarkThread) (_ : Move WatermarkCall)
    (u : Pool WatermarkShared WatermarkThread) : Prop :=
  t.shared.tracker.get ≤ u.shared.tracker.get

/-- Where an update stands: what it has loaded is below its value and not above the
watermark, and it has changed the watermark exactly if it is going to say so. -/
def Fine (watermark : UInt64) (p : WatermarkThread) : Prop :=
  match p.phase with
  | .updating _ => p.changed = false
  | .loaded newValue current => current < newValue ∧ current ≤ watermark ∧ p.changed = false
  | .returning newValue result => newValue ≤ watermark ∧ p.changed = result
  | _ => True

def Right (r : UpdateReturn) : Prop := r.newValue ≤ r.watermark ∧ (r.result = true ↔ r.changed = true)

structure Sound (t : Pool WatermarkShared WatermarkThread) : Prop where
  phases : ∀ p ∈ t.phases, Fine t.shared.tracker.get p
  returns : ∀ r ∈ t.shared.returns, Right r

theorem Fine.mono {p : WatermarkThread} {before after : UInt64} (rises : before ≤ after) (h : Fine before p) :
    Fine after p := by
  obtain ⟨phase, changed⟩ := p
  cases phase with
  | loaded newValue current => exact ⟨h.1, UInt64.le_trans h.2.1 rises, h.2.2⟩
  | returning newValue result => exact ⟨UInt64.le_trans h.1 rises, h.2⟩
  | _ => exact h

theorem fine_enter (watermark : UInt64) (c : WatermarkCall) : Fine watermark (enter c) := by
  cases c with
  | update newValue => exact rfl
  | advance => trivial

theorem start_sound (initial : UInt64) (threads : Nat) : Sound (start initial threads) where
  phases p member := by
    rw [List.eq_of_mem_replicate member]
    trivial
  returns r member := absurd member List.not_mem_nil

theorem Sound.moved (h : Sound t) {i : Nat} {q : WatermarkThread} {after : WatermarkShared}
    (rises : t.shared.tracker.get ≤ after.tracker.get) (own : Fine after.tracker.get q)
    (returns : ∀ r ∈ after.returns, Right r) : Sound ⟨after, t.phases.set i q⟩ where
  phases := forall_set (fun p old => (h.phases p old).mono rises) own
  returns := returns

theorem le_advance {tracker : WatermarkTracker} (fits : tracker.watermark.toNat + 1 < 2 ^ 64) :
    tracker.get ≤ tracker.advance.2.get := by
  have next : (tracker.watermark + 1).toNat = tracker.watermark.toNat + 1 := by
    rw [UInt64.toNat_add]
    exact Nat.mod_eq_of_lt fits
  rw [UInt64.le_iff_toNat_le]
  exact Nat.le_trans (Nat.le_succ _) (Nat.le_of_eq next.symm)

theorem Sound.step (h : Sound t) {m : Move WatermarkCall} (taken : program.step t m = some u)
    (fits : NoOverflow t m u) : Sound u ∧ Rises t m u := by
  rcases step_cases taken with ⟨i, c, p, rfl, here, rests, rfl⟩ | ⟨i, p, q, after, rfl, here, moved, rfl⟩
  · exact ⟨h.moved (UInt64.le_refl _) (fine_enter _ c) h.returns, UInt64.le_refl _⟩
  · have own := h.phases p (List.mem_of_getElem? here)
    have same : t.shared.tracker.get ≤ t.shared.tracker.get := UInt64.le_refl _
    cases moved with
    | behind newValue changed above => exact ⟨h.moved same ⟨above, own⟩ h.returns, same⟩
    | load newValue changed below => exact ⟨h.moved same ⟨below, same, own⟩ h.returns, same⟩
    | exchange newValue changed =>
      obtain ⟨below, _, fresh⟩ := own
      have rises : t.shared.tracker.get ≤ newValue := UInt64.le_of_lt below
      have other : t.shared.tracker.get ≠ newValue := UInt64.ne_of_lt below
      refine ⟨h.moved rises ⟨UInt64.le_refl _, ?_⟩ h.returns, rises⟩
      exact (Bool.or_eq_true _ _).mpr (.inr (decide_eq_true ⟨other, rfl⟩))
    | overtaken newValue current changed => exact ⟨h.moved same own.2.2 h.returns, same⟩
    | answer newValue result changed =>
      obtain ⟨reached, told⟩ := own
      refine ⟨h.moved same trivial fun r member => ?_, same⟩
      rcases List.mem_append.mp member with old | new
      · exact h.returns r old
      · cases List.mem_singleton.mp new
        exact ⟨reached, by rw [show changed = result from told]⟩
    | increment changed =>
      have rises := le_advance (fits _ here rfl)
      exact ⟨h.moved rises trivial h.returns, rises⟩

/-- As long as no thread is in an advance, only an update that has said so or is going to
has changed the watermark. -/
structure Untouched (initial : UInt64) (t : Pool WatermarkShared WatermarkThread) : Prop where
  updates : ∀ p ∈ t.phases, p.phase ≠ .advancing
  told : t.shared.tracker.get = initial ∨ (∃ r ∈ t.shared.returns, r.result = true) ∨
    ∃ p ∈ t.phases, ∃ newValue, p.phase = .returning newValue true

theorem start_untouched (initial : UInt64) (threads : Nat) : Untouched initial (start initial threads) where
  updates p member := by
    rw [List.eq_of_mem_replicate member]
    exact WatermarkPhase.noConfusion
  told := .inl rfl

/-- Whoever was going to say so still is, unless it is the thread that moved. -/
theorem Untouched.kept (h : Untouched initial t) {i : Nat} {p q : WatermarkThread} (here : t.phases[i]? = some p)
    (silent : ∀ newValue, p.phase ≠ .returning newValue true) (update : q.phase ≠ .advancing) :
    Untouched initial ⟨t.shared, t.phases.set i q⟩ where
  updates := forall_set h.updates update
  told := h.told.imp_right fun told => told.imp_right fun found =>
    exists_set here (fun ⟨newValue, phase⟩ => silent newValue phase) found

theorem Untouched.step (h : Untouched initial t) {m : Move WatermarkCall} (taken : program.step t m = some u)
    (update : ∀ i, m ≠ .call i .advance) : Untouched initial u := by
  rcases step_cases taken with ⟨i, c, p, rfl, here, rests, rfl⟩ | ⟨i, p, q, after, rfl, here, moved, rfl⟩
  · refine h.kept here (fun newValue phase => ?_) fun same => ?_
    · rw [phase] at rests
      cases rests
    · cases c with
      | update newValue => cases same
      | advance => exact update i rfl
  · cases moved with
    | behind newValue changed above =>
      exact h.kept here (fun _ => WatermarkPhase.noConfusion) WatermarkPhase.noConfusion
    | load newValue changed below =>
      exact h.kept here (fun _ => WatermarkPhase.noConfusion) WatermarkPhase.noConfusion
    | overtaken newValue current changed =>
      exact h.kept here (fun _ => WatermarkPhase.noConfusion) WatermarkPhase.noConfusion
    | exchange newValue changed =>
      have inside := (List.getElem?_eq_some_iff.mp here).1
      exact ⟨forall_set h.updates WatermarkPhase.noConfusion,
        .inr (.inr ⟨_, List.mem_set inside _, newValue, rfl⟩)⟩
    | answer newValue result changed =>
      refine ⟨forall_set h.updates WatermarkPhase.noConfusion, ?_⟩
      cases result with
      | true => exact .inr (.inl ⟨_, List.mem_append_right _ (List.mem_singleton_self _), rfl⟩)
      | false =>
        rcases h.told with same | ⟨r, member, told⟩ | found
        · exact .inl same
        · exact .inr (.inl ⟨r, List.mem_append_left _ member, told⟩)
        · exact .inr (.inr (exists_set here (fun ⟨_, phase⟩ => by cases phase) found))
    | increment changed => exact absurd rfl (h.updates _ (List.mem_of_getElem? here))

/-- The watermark never goes back, an update leaves it at its value or above and says so
exactly if it has changed it, and updates that all returned false have not. -/
theorem updates_tell_changes (initial : UInt64) (threads : Nat) {moves : List (Move WatermarkCall)}
    (ran : Run (ofPartial program.step) (start initial threads) moves t)
    (fits : Along (ofPartial program.step) NoOverflow (start initial threads) moves) :
    Along (ofPartial program.step) Rises (start initial threads) moves ∧
      (∀ r ∈ t.shared.returns, r.newValue ≤ r.watermark ∧ (r.result = true ↔ r.changed = true)) ∧
        (t.Settled program → (∀ r ∈ t.shared.returns, r.result = false) →
          (∀ m ∈ moves, ∀ i, m ≠ .call i .advance) → t.shared.tracker.get = initial) := by
  refine ⟨?_, ?_, fun settled falses updates => ?_⟩
  · exact along_of_invariant Sound NoOverflow Rises (fun _ _ _ h taken fits => h.step taken fits)
      (start_sound initial threads) fits
  · exact (run_invariant_along Sound NoOverflow (fun _ _ _ h taken fits => (h.step taken fits).1)
      (start_sound initial threads) fits ran).returns
  · have untouched := run_invariant_along (Untouched initial) (fun _ m _ => ∀ i, m ≠ .call i .advance)
      (fun _ _ _ h taken update => h.step taken update) (start_untouched initial threads)
      (along_labels _ updates _) ran
    rcases untouched.told with same | ⟨r, member, told⟩ | ⟨p, member, newValue, phase⟩
    · exact same
    · rw [falses r member] at told
      cases told
    · have rests : p.phase.resting = true := settled p member
      rw [phase] at rests
      cases rests

theorem overtaken_update_tells :
    let moves : List (Move WatermarkCall) := [.call 0 (.update 5), .advance 0, .call 1 .advance, .advance 1,
      .advance 0, .advance 0, .advance 0, .advance 0]
    ∃ t, Run (ofPartial program.step) (start 3 2) moves t ∧
      Along (ofPartial program.step) Rises (start 3 2) moves ∧
        (∀ r ∈ t.shared.returns, r.newValue ≤ r.watermark ∧ (r.result = true ↔ r.changed = true)) ∧
          (t.Settled program → (∀ r ∈ t.shared.returns, r.result = false) →
            (∀ m ∈ moves, ∀ i, m ≠ .call i .advance) → t.shared.tracker.get = 3) := by
  intro moves
  have ran := (run_ofPartial program.step moves (start 3 2) _).mpr rfl
  exact ⟨_, ran, updates_tell_changes 3 2 ran (by decide)⟩

end WatermarkThread

end Hyperplane
