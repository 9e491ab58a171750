import Hyperplane.Lib.Threads

/-! The root tracker. An advance of the root loads it and stores the sum, in two
atomic steps. -/
namespace Hyperplane
open Transition Threads

structure RootTracker where
  root : UInt64
  deriving DecidableEq

namespace RootTracker

def new (initialRoot : UInt64) : RootTracker := ⟨initialRoot⟩

/-- A single load: it sees the root of the moment. -/
def getRoot (self : RootTracker) : UInt64 := self.root

def updateRoot (self : RootTracker) (newRoot : UInt64) : UInt64 × RootTracker := (self.root, ⟨newRoot⟩)

def advanceRoot (self : RootTracker) (delta : UInt64) : UInt64 × RootTracker :=
  (self.root + delta, ⟨self.root + delta⟩)

end RootTracker

/-- The tracker, and the deltas of the calls that have loaded the root. -/
structure RootRun where
  tracker : RootTracker
  begun : List UInt64
  deriving DecidableEq

inductive RootPhase where
  | idle
  | entered (delta : UInt64)
  | loaded (delta current : UInt64)
  | returned (newRoot : UInt64)
  deriving DecidableEq

namespace RootPhase

def resting : RootPhase → Bool
  | .idle | .returned _ => true
  | _ => false

/-- What the call will add to the root it has loaded. -/
def pending : RootPhase → Nat
  | .loaded delta _ => delta.toNat
  | _ => 0

/-- What the call will add to a root it has not loaded. -/
def unloaded : RootPhase → Nat
  | .entered delta => delta.toNat
  | _ => 0

end RootPhase

/-- The deltas of the calls among the moves. -/
def deltas (moves : List (Move UInt64)) : List UInt64 :=
  moves.filterMap fun
    | .call _ delta => some delta
    | .advance _ => none

def sumOf (slots : List UInt64) : Nat := (slots.map UInt64.toNat).sum

namespace RootRun
open RootPhase

/-- A sum past 64 bits panics. -/
def advance : RootPhase → RootRun → Option (RootPhase × RootRun × List RootPhase)
  | .entered delta, s => some (.loaded delta s.tracker.root, { s with begun := delta :: s.begun }, [])
  | .loaded delta current, s =>
    if current.toNat + delta.toNat < 2 ^ 64 then
      some (.returned (current + delta), { s with tracker := ⟨current + delta⟩ }, [])
    else none
  | .idle, _ => none
  | .returned _, _ => none

def program : Program RootRun RootPhase UInt64 where
  enter delta _ := .entered delta
  resting := RootPhase.resting
  advance := advance

def start (initialRoot : UInt64) (threads : Nat) : Pool RootRun RootPhase where
  shared := ⟨.new initialRoot, []⟩
  phases := List.replicate threads .idle

/-- A call that no other interrupts is the method. -/
theorem alone_advanceRoot (s : RootRun) (delta : UInt64)
    (fits : s.tracker.root.toNat + delta.toNat < 2 ^ 64) :
    Run (ofPartial program.step) ⟨s, [.idle]⟩ [.call 0 delta, .advance 0, .advance 0]
      ⟨⟨(s.tracker.advanceRoot delta).2, delta :: s.begun⟩, [.returned (s.tracker.advanceRoot delta).1]⟩ := by
  refine ⟨_, rfl, _, rfl, _, ?_, rfl⟩
  exact Program.step_advance.mpr ⟨_, _, _, _, rfl, if_pos fits, rfl⟩

/-- What one step of a call does. -/
inductive Advanced : RootRun → RootPhase → RootPhase → RootRun → Prop where
  | load (s : RootRun) (delta : UInt64) :
      Advanced s (.entered delta) (.loaded delta s.tracker.root) { s with begun := delta :: s.begun }
  | store (s : RootRun) (delta current : UInt64) (fits : current.toNat + delta.toNat < 2 ^ 64) :
      Advanced s (.loaded delta current) (.returned (current + delta)) { s with tracker := ⟨current + delta⟩ }

theorem advanced_of_advance {p q : RootPhase} {s after : RootRun} {started : List RootPhase}
    (moved : advance p s = some (q, after, started)) : started = [] ∧ Advanced s p q after := by
  cases p with
  | idle => cases moved
  | returned newRoot => cases moved
  | entered delta =>
    cases moved
    exact ⟨rfl, .load s delta⟩
  | loaded delta current =>
    simp only [advance] at moved
    split at moved
    · rename_i fits
      cases moved
      exact ⟨rfl, .store s delta current fits⟩
    · cases moved

theorem toNat_sum {current delta : UInt64} (fits : current.toNat + delta.toNat < 2 ^ 64) :
    (current + delta).toNat = current.toNat + delta.toNat := by
  rw [UInt64.toNat_add, Nat.mod_eq_of_lt fits]

theorem pending_of_resting {p : RootPhase} (rests : p.resting = true) : p.pending = 0 ∧ p.unloaded = 0 := by
  cases p <;> first | exact ⟨rfl, rfl⟩ | cases rests

/-- With nothing lost, the root and what is pending come to the sum of all deltas. -/
structure Counted (initialRoot : UInt64) (t : Pool RootRun RootPhase) : Prop where
  counted : t.shared.tracker.root.toNat + total pending t.phases = initialRoot.toNat + sumOf t.shared.begun
  behind : ∀ delta current, .loaded delta current ∈ t.phases → current ≤ t.shared.tracker.root

/-- Something is lost for good: the root is short of the sum, and so is every root that a
call has loaded. -/
structure Short (initialRoot : UInt64) (t : Pool RootRun RootPhase) : Prop where
  short : t.shared.tracker.root.toNat + total pending t.phases < initialRoot.toNat + sumOf t.shared.begun
  behind : ∀ delta current, .loaded delta current ∈ t.phases →
    current.toNat + total pending t.phases < initialRoot.toNat + sumOf t.shared.begun

/-- The store of a call finds the root as the call has loaded it. -/
def AsLoaded (t : Pool RootRun RootPhase) (m : Move UInt64) (_ : Pool RootRun RootPhase) : Prop :=
  match m with
  | .call _ _ => True
  | .advance i => ∀ delta current, t.phases[i]? = some (.loaded delta current) →
    t.shared.tracker.root = current

/-- No later load of the root sees less. -/
def RootKept (t : Pool RootRun RootPhase) (_ : Move UInt64) (u : Pool RootRun RootPhase) : Prop :=
  t.shared.tracker.getRoot ≤ u.shared.tracker.getRoot

variable {initialRoot : UInt64} {t u : Pool RootRun RootPhase}

theorem total_start (f : RootPhase → Nat) (idle : f .idle = 0) (threads : Nat) :
    total f (List.replicate threads .idle) = 0 := by
  simp [total, idle]

theorem start_counted (initialRoot : UInt64) (threads : Nat) :
    Counted initialRoot (start initialRoot threads) where
  counted := congrArg (initialRoot.toNat + ·) (total_start pending rfl threads)
  behind delta current member := by cases List.eq_of_mem_replicate member

theorem sumOf_cons (first : UInt64) (rest : List UInt64) : sumOf (first :: rest) = first.toNat + sumOf rest :=
  List.sum_cons

theorem step_cases {m : Move UInt64} (taken : program.step t m = some u) :
    (∃ i delta p, m = .call i delta ∧ t.phases[i]? = some p ∧ p.resting = true ∧
      u = ⟨t.shared, t.phases.set i (.entered delta)⟩) ∨
    ∃ i p q after, m = .advance i ∧ t.phases[i]? = some p ∧ Advanced t.shared p q after ∧
      u = ⟨after, t.phases.set i q⟩ :=
  Program.step_lone_cases advanced_of_advance taken

/-- A call that begins has nothing pending yet. -/
theorem pending_called {i : Nat} {p : RootPhase} (here : t.phases[i]? = some p) (rests : p.resting = true)
    (delta : UInt64) : total pending (t.phases.set i (.entered delta)) = total pending t.phases := by
  have moved := total_set (f := pending) (q := .entered delta) here
  rw [(pending_of_resting rests).1] at moved
  exact moved

theorem mem_loaded_set {i : Nat} {q : RootPhase} {delta current : UInt64}
    (member : .loaded delta current ∈ t.phases.set i q) :
    .loaded delta current ∈ t.phases ∨ q = .loaded delta current :=
  (List.mem_or_eq_of_mem_set member).imp_right Eq.symm

theorem Counted.step (h : Counted initialRoot t) {m : Move UInt64} (taken : program.step t m = some u)
    (turn : AsLoaded t m u) : Counted initialRoot u ∧ RootKept t m u := by
  rcases step_cases taken with
    ⟨i, delta, p, rfl, here, rests, rfl⟩ | ⟨i, p, q, after, rfl, here, moved, rfl⟩
  · refine ⟨⟨?_, fun other current member => ?_⟩, UInt64.le_refl _⟩
    · have same := pending_called here rests delta
      exact (congrArg (_ + ·) same).trans h.counted
    · rcases mem_loaded_set member with old | new
      · exact h.behind other current old
      · cases new
  · cases moved with
    | load delta =>
      have moved := total_set (f := pending) (q := .loaded delta t.shared.tracker.root) here
      refine ⟨⟨?_, fun other current member => ?_⟩, UInt64.le_refl _⟩
      · have counted := h.counted
        simp only [sumOf_cons, pending] at *
        omega
      · rcases mem_loaded_set member with old | new
        · exact h.behind other current old
        · cases new
          exact UInt64.le_refl _
    | store delta current fits =>
      have moved := total_set (f := pending) (q := .returned (current + delta)) here
      have sum := toNat_sum fits
      have found := turn delta current here
      have grows : t.shared.tracker.root ≤ current + delta := by
        rw [found, UInt64.le_iff_toNat_le]
        omega
      refine ⟨⟨?_, fun other loaded member => ?_⟩, grows⟩
      · have counted := h.counted
        simp only [pending, found] at *
        omega
      · rcases mem_loaded_set member with old | new
        · exact UInt64.le_trans (h.behind other loaded old) grows
        · cases new

/-- A store on an old root loses what was added since, unless it takes the root back. -/
theorem Counted.short (h : Counted initialRoot t) {m : Move UInt64} (taken : program.step t m = some u)
    (stale : ¬ AsLoaded t m u) (kept : RootKept t m u) : Short initialRoot u := by
  rcases step_cases taken with
    ⟨i, delta, p, rfl, here, rests, rfl⟩ | ⟨i, p, q, after, rfl, here, moved, rfl⟩
  · exact absurd trivial stale
  · cases moved with
    | load delta =>
      refine absurd (fun other current loaded => ?_) stale
      cases here.symm.trans loaded
    | store delta current fits =>
      have moved := total_set (f := pending) (q := .returned (current + delta)) here
      have sum := toNat_sum fits
      have counted := h.counted
      have old := UInt64.le_iff_toNat_le.mp (h.behind delta current (List.mem_of_getElem? here))
      have other : t.shared.tracker.root.toNat ≠ current.toNat := by
        intro same
        refine stale fun _ _ loaded => ?_
        cases here.symm.trans loaded
        exact UInt64.toNat_inj.mp same
      have raised : t.shared.tracker.root.toNat ≤ (current + delta).toNat := UInt64.le_iff_toNat_le.mp kept
      simp only [pending] at moved
      refine ⟨?_, fun later loaded member => ?_⟩
      · simp only
        omega
      · rcases mem_loaded_set member with before | new
        · have behind := UInt64.le_iff_toNat_le.mp (h.behind later loaded before)
          simp only
          omega
        · cases new

theorem Short.step (h : Short initialRoot t) {m : Move UInt64} (taken : program.step t m = some u) :
    Short initialRoot u := by
  have short := h.short
  rcases step_cases taken with
    ⟨i, delta, p, rfl, here, rests, rfl⟩ | ⟨i, p, q, after, rfl, here, moved, rfl⟩
  · have same := pending_called here rests delta
    refine ⟨by simpa only [same] using short, fun other current member => ?_⟩
    simp only [same]
    rcases mem_loaded_set member with old | new
    · exact h.behind other current old
    · cases new
  · cases moved with
    | load delta =>
      have moved := total_set (f := pending) (q := .loaded delta t.shared.tracker.root) here
      simp only [pending] at moved
      refine ⟨?_, fun other current member => ?_⟩
      · simp only [sumOf_cons]
        omega
      · simp only [sumOf_cons]
        rcases mem_loaded_set member with old | new
        · have behind := h.behind other current old
          omega
        · cases new
          omega
    | store delta current fits =>
      have moved := total_set (f := pending) (q := .returned (current + delta)) here
      have sum := toNat_sum fits
      have own := h.behind delta current (List.mem_of_getElem? here)
      simp only [pending] at moved
      refine ⟨?_, fun other loaded member => ?_⟩
      · simp only
        omega
      · simp only
        rcases mem_loaded_set member with old | new
        · have behind := h.behind other loaded old
          omega
        · cases new

/-- The deltas of all calls are those of the calls that have loaded the root and those of
the others. -/
theorem sum_deltas {moves : List (Move UInt64)} {s : Pool RootRun RootPhase}
    (ran : Run (ofPartial program.step) s moves t) :
    sumOf t.shared.begun + total unloaded t.phases =
      sumOf s.shared.begun + total unloaded s.phases + sumOf (deltas moves) := by
  induction moves generalizing s with
  | nil => exact (ran : s = t) ▸ rfl
  | cons m rest ih =>
    obtain ⟨next, first, tail⟩ := ran
    rw [ih tail]
    rcases step_cases first with
      ⟨i, delta, p, rfl, here, rests, rfl⟩ | ⟨i, p, q, after, rfl, here, moved, rfl⟩
    · have moved := total_set (f := unloaded) (q := .entered delta) here
      have listed : sumOf (deltas (.call i delta :: rest)) = delta.toNat + sumOf (deltas rest) := sumOf_cons ..
      rw [(pending_of_resting rests).2] at moved
      simp only [unloaded] at moved
      rw [listed]
      dsimp only
      omega
    · have listed : deltas (.advance i :: rest) = deltas rest := rfl
      rw [listed]
      cases moved with
      | load delta =>
        have moved := total_set (f := unloaded) (q := .loaded delta s.shared.tracker.root) here
        simp only [unloaded] at moved
        simp only [sumOf_cons]
        omega
      | store delta current fits =>
        have moved := total_set (f := unloaded) (q := .returned (current + delta)) here
        simp only [unloaded] at moved
        simp only
        omega

/-- As long as every store finds the root as its call had loaded it, the root never goes
back. Once all calls have returned, it is the sum of all deltas, and has never gone back,
exactly if every store did. -/
theorem advances_summed_iff (initialRoot : UInt64) (threads : Nat) {moves : List (Move UInt64)}
    (ran : Run (ofPartial program.step) (start initialRoot threads) moves t) :
    (Along (ofPartial program.step) AsLoaded (start initialRoot threads) moves →
      Along (ofPartial program.step) RootKept (start initialRoot threads) moves) ∧
      (t.Settled program →
        ((t.shared.tracker.getRoot.toNat = initialRoot.toNat + sumOf (deltas moves) ∧
            Along (ofPartial program.step) RootKept (start initialRoot threads) moves) ↔
          Along (ofPartial program.step) AsLoaded (start initialRoot threads) moves)) := by
  have keeps : Along (ofPartial program.step) AsLoaded (start initialRoot threads) moves →
      Along (ofPartial program.step) RootKept (start initialRoot threads) moves :=
    along_of_invariant (Counted initialRoot) AsLoaded RootKept
      (fun _ _ _ h taken turn => h.step taken turn) (start_counted initialRoot threads)
  refine ⟨keeps, fun settled => ?_⟩
  have resting p member := pending_of_resting (settled p member)
  have pending : total pending t.phases = 0 := total_eq_zero.mpr fun p member => (resting p member).1
  have begun : sumOf t.shared.begun = sumOf (deltas moves) := by
    have all := sum_deltas ran
    have before : total unloaded (start initialRoot threads).phases = 0 := total_start unloaded rfl threads
    have after : total unloaded t.phases = 0 := total_eq_zero.mpr fun p member => (resting p member).2
    rw [after, before] at all
    simpa [start, sumOf] using all
  have outcome := along_or_broken_unless (Counted initialRoot) (Short initialRoot) AsLoaded RootKept
    (fun _ _ _ h taken turn => (h.step taken turn).1) (fun _ _ _ h taken stale kept => h.short taken stale kept)
    (fun _ _ _ h taken _ => h.step taken) (start_counted initialRoot threads) ran
  rw [← begun]
  rcases outcome with ⟨along, counted⟩ | ⟨stale, short⟩
  · have sum := counted.counted
    rw [pending] at sum
    exact iff_of_true ⟨sum, keeps along⟩ along
  · refine iff_of_false (fun ⟨sum, kept⟩ => ?_) stale
    have less := (short kept).short
    rw [pending] at less
    exact Nat.ne_of_lt less sum

theorem advances_in_turn_summed :
    let moves : List (Move UInt64) := [.call 0 5, .advance 0, .advance 0, .call 1 7, .advance 1, .advance 1]
    ∃ t, Run (ofPartial program.step) (start 100 2) moves t ∧
      (Along (ofPartial program.step) AsLoaded (start 100 2) moves →
        Along (ofPartial program.step) RootKept (start 100 2) moves) ∧
      (t.Settled program →
        ((t.shared.tracker.getRoot.toNat = 100 + sumOf (deltas moves) ∧
            Along (ofPartial program.step) RootKept (start 100 2) moves) ↔
          Along (ofPartial program.step) AsLoaded (start 100 2) moves)) := by
  intro moves
  have ran := (run_ofPartial program.step moves (start 100 2) _).mpr rfl
  exact ⟨_, ran, advances_summed_iff 100 2 ran⟩

/-- Both calls load 100, and the second store covers the first. -/
theorem overlapping_advances_lose : ∃ t, Run (ofPartial program.step) (start 100 2)
    [.call 0 5, .call 1 7, .advance 0, .advance 1, .advance 0, .advance 1] t ∧ t.Settled program ∧
      t.shared.tracker.getRoot.toNat ≠ 100 + sumOf [5, 7] := by
  refine ⟨_, (run_ofPartial _ _ _ _).mpr rfl, ?_, by decide⟩
  unfold Pool.Settled
  decide

end RootRun

end Hyperplane
