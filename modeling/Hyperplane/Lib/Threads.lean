import Mathlib.Algebra.Ring.Nat
import Hyperplane.Lib.Transition

/-! Threads over a shared state. Each thread is at one phase of its current
call; a step of it changes the shared state and may start further threads. The
rules say what a step does to a property of every thread or of some thread. -/
namespace Threads
open Transition

structure Program (S P C : Type) where
  enter : C → S → P
  resting : P → Bool
  advance : P → S → Option (P × S × List P)

structure Pool (S P : Type) where
  shared : S
  phases : List P

inductive Move (C : Type) where
  | call (i : Nat) (c : C)
  | advance (i : Nat)

variable {S P C : Type}

namespace Pool

def Settled (program : Program S P C) (t : Pool S P) : Prop :=
  ∀ p ∈ t.phases, program.resting p = true

end Pool

namespace Program

def step (program : Program S P C) (t : Pool S P) : Move C → Option (Pool S P)
  | .call i c => match t.phases[i]? with
    | some p =>
      if program.resting p then
        some { t with phases := t.phases.set i (program.enter c t.shared) }
      else none
    | none => none
  | .advance i => match t.phases[i]? with
    | some p => match program.advance p t.shared with
      | some (q, shared, started) => some ⟨shared, t.phases.set i q ++ started⟩
      | none => none
    | none => none

theorem step_call {program : Program S P C} {t u : Pool S P} {i : Nat} {c : C} :
    program.step t (.call i c) = some u ↔ ∃ p, t.phases[i]? = some p ∧ program.resting p = true ∧
      u = ⟨t.shared, t.phases.set i (program.enter c t.shared)⟩ := by
  simp only [step]
  cases here : t.phases[i]? with
  | none => simp
  | some p =>
    by_cases rests : program.resting p = true
    · simp only [if_pos rests, Option.some.injEq]
      constructor
      · rintro rfl
        exact ⟨p, rfl, rests, rfl⟩
      · rintro ⟨_, rfl, _, rfl⟩
        rfl
    · simp [rests]

theorem step_advance {program : Program S P C} {t u : Pool S P} {i : Nat} :
    program.step t (.advance i) = some u ↔ ∃ p q shared started, t.phases[i]? = some p ∧
      program.advance p t.shared = some (q, shared, started) ∧
        u = ⟨shared, t.phases.set i q ++ started⟩ := by
  simp only [step]
  cases here : t.phases[i]? with
  | none => simp
  | some p =>
    cases moved : program.advance p t.shared with
    | none => simp [moved]
    | some next =>
      obtain ⟨q, shared, started⟩ := next
      simp only [moved, Option.some.injEq]
      constructor
      · rintro rfl
        exact ⟨p, q, shared, started, rfl, moved, rfl⟩
      · rintro ⟨_, _, _, _, rfl, same, rfl⟩
        cases moved.symm.trans same
        rfl

/-- The shape of a step where no thread starts another and a relation says what a step of
one thread can be. -/
theorem step_lone_cases {program : Program S P C} {Advanced : S → P → P → S → Prop}
    (lone : ∀ {p q s after started}, program.advance p s = some (q, after, started) →
      started = [] ∧ Advanced s p q after) {t u : Pool S P} {m : Move C} (moved : program.step t m = some u) :
    (∃ i c p, m = .call i c ∧ t.phases[i]? = some p ∧ program.resting p = true ∧
      u = ⟨t.shared, t.phases.set i (program.enter c t.shared)⟩) ∨
    ∃ i p q after, m = .advance i ∧ t.phases[i]? = some p ∧ Advanced t.shared p q after ∧
      u = ⟨after, t.phases.set i q⟩ := by
  cases m with
  | call i c =>
    obtain ⟨p, here, rests, rfl⟩ := step_call.mp moved
    exact .inl ⟨i, c, p, rfl, here, rests, rfl⟩
  | advance i =>
    obtain ⟨p, q, after, started, here, advanced, rfl⟩ := step_advance.mp moved
    obtain ⟨rfl, taken⟩ := lone advanced
    exact .inr ⟨i, p, q, after, rfl, here, taken, by rw [List.append_nil]⟩

end Program

section phases

variable {phases started : List P} {i : Nat} {p q : P}

theorem forall_set {Q : P → Prop} (others : ∀ r ∈ phases, Q r) (own : Q q) : ∀ r ∈ phases.set i q, Q r := by
  intro r member
  rcases List.mem_or_eq_of_mem_set member with old | rfl
  · exact others r old
  · exact own

theorem forall_moved {Q : P → Prop} (others : ∀ r ∈ phases, Q r) (own : Q q)
    (new : ∀ r ∈ started, Q r) : ∀ r ∈ phases.set i q ++ started, Q r := by
  intro r member
  rcases List.mem_append.mp member with old | fresh
  · exact forall_set others own r old
  · exact new r fresh

/-- A thread with the property is still there, unless it is the one that
moved. -/
theorem exists_moved {R : P → Prop} (here : phases[i]? = some p) (found : ∃ r ∈ phases, R r) :
    R p ∨ ∃ r ∈ phases.set i q ++ started, R r := by
  obtain ⟨r, member, holds⟩ := found
  obtain ⟨j, there⟩ := List.mem_iff_getElem?.mp member
  by_cases same : j = i
  · subst same
    rw [here] at there
    exact .inl (Option.some.inj there ▸ holds)
  · refine .inr ⟨r, List.mem_append_left _ (List.mem_iff_getElem?.mpr ⟨j, ?_⟩), holds⟩
    rw [List.getElem?_set_ne (Ne.symm same)]
    exact there

/-- A thread with the property is still there when another one moves. -/
theorem exists_set {R : P → Prop} (here : phases[i]? = some p) (other : ¬ R p)
    (found : ∃ r ∈ phases, R r) : ∃ r ∈ phases.set i q, R r := by
  have kept : R p ∨ ∃ r ∈ phases.set i q ++ [], R r := exists_moved here found
  rw [List.append_nil] at kept
  exact kept.resolve_left other

theorem getElem?_set_cases {j : Nat} {r : P} (there : (phases.set i q)[j]? = some r) :
    (j = i ∧ r = q) ∨ (j ≠ i ∧ phases[j]? = some r) := by
  by_cases same : j = i
  · subst same
    obtain ⟨inside, own⟩ := List.getElem?_eq_some_iff.mp there
    rw [List.getElem_set_self] at own
    exact .inl ⟨rfl, own.symm⟩
  · rw [List.getElem?_set_ne (Ne.symm same)] at there
    exact .inr ⟨same, there⟩

theorem mem_moved (here : phases[i]? = some p) : q ∈ phases.set i q ++ started :=
  List.mem_append_left _ (List.mem_set (List.getElem?_eq_some_iff.mp here).1 q)

end phases

section total

variable (f : P → Nat)

def total (phases : List P) : Nat := (phases.map f).sum

variable {f} {phases : List P} {i : Nat} {p q : P}

theorem total_cons (first : P) (rest : List P) : total f (first :: rest) = f first + total f rest := by
  rw [total, List.map_cons, List.sum_cons, total]

theorem total_append (front rest : List P) : total f (front ++ rest) = total f front + total f rest := by
  rw [total, List.map_append, List.sum_append, total, total]

theorem total_set (here : phases[i]? = some p) : total f (phases.set i q) + f p = total f phases + f q := by
  induction phases generalizing i with
  | nil => cases here
  | cons first rest ih =>
    cases i with
    | zero =>
      cases here
      rw [List.set_cons_zero, total_cons, total_cons]
      omega
    | succ i =>
      have later : total f (rest.set i q) + f p = total f rest + f q := ih here
      rw [List.set_cons_succ, total_cons, total_cons]
      omega

theorem le_total (member : p ∈ phases) : f p ≤ total f phases := by
  induction phases with
  | nil => cases member
  | cons first rest ih =>
    rw [total_cons]
    rcases List.mem_cons.mp member with rfl | later
    · omega
    · have bound := ih later
      omega

theorem exists_of_total_pos (positive : 0 < total f phases) : ∃ p ∈ phases, 0 < f p := by
  obtain ⟨_, member, positive⟩ := List.sum_pos_iff_exists_pos_nat.mp positive
  obtain ⟨p, there, rfl⟩ := List.mem_map.mp member
  exact ⟨p, there, positive⟩

theorem total_eq_zero : total f phases = 0 ↔ ∀ p ∈ phases, f p = 0 := by
  constructor
  · intro none p member
    have bound := le_total (f := f) member
    omega
  · intro none
    refine Nat.eq_zero_of_not_pos fun positive => ?_
    obtain ⟨p, member, positive⟩ := exists_of_total_pos positive
    rw [none p member] at positive
    exact Nat.lt_irrefl 0 positive

end total

/-- Some thread has not finished and none can go on. -/
def Pool.Stuck (program : Program S P C) (t : Pool S P) : Prop :=
  ¬ t.Settled program ∧ ∀ i, program.step t (.advance i) = none

/-- Where every step leaves less work, threads that take no new call come to rest or
get stuck. -/
theorem Program.exists_quiet (program : Program S P C) (work : P → Nat)
    (less : ∀ p s q after started, program.advance p s = some (q, after, started) →
      work q + total work started < work p) (t : Pool S P) :
    ∃ moves u, (∀ m ∈ moves, ∃ i, m = .advance i) ∧ Run (ofPartial program.step) t moves u ∧
      ∀ i, program.step u (.advance i) = none := by
  induction bound : total work t.phases using Nat.strongRecOn generalizing t with
  | _ n ih =>
    by_cases quiet : ∀ i, program.step t (.advance i) = none
    · exact ⟨[], t, fun _ member => absurd member List.not_mem_nil, rfl, quiet⟩
    · push Not at quiet
      obtain ⟨i, moved⟩ := quiet
      obtain ⟨m, first⟩ := Option.ne_none_iff_exists'.mp moved
      obtain ⟨p, q, shared, started, here, advanced, rfl⟩ := step_advance.mp first
      have set := total_set (f := work) (q := q) here
      have drop := less p t.shared q shared started advanced
      have smaller : total work (t.phases.set i q ++ started) < n := by
        rw [total_append]
        omega
      obtain ⟨moves, u, advances, ran, rest⟩ := ih _ smaller ⟨shared, t.phases.set i q ++ started⟩ rfl
      refine ⟨.advance i :: moves, u, fun m member => ?_, ⟨_, first, ran⟩, rest⟩
      rcases List.mem_cons.mp member with rfl | later
      · exact ⟨i, rfl⟩
      · exact advances m later

section calls

/-- Whether the move is a call that counts. -/
def Move.counts (opens : C → Bool) : Move C → Bool
  | .call _ c => opens c
  | .advance _ => false

/-- Every call that counts opens a debt of its thread, and every step of a thread leaves
debts and payments together as they were. Then the payments are the calls, but for
the debts still open. -/
theorem Program.calls_paid {program : Program S P C} (owes : P → Bool) (opens : C → Bool) (paid : S → Nat → Prop)
    (rest : ∀ p, program.resting p = true → owes p = false)
    (enter : ∀ c s, owes (program.enter c s) = opens c)
    (advance : ∀ {p q s after started n}, program.advance p s = some (q, after, started) → paid s n →
      ∃ m, paid after m ∧ (owes q).toNat + total (Bool.toNat ∘ owes) started + m = (owes p).toNat + n)
    {t u : Pool S P} {moves : List (Move C)} (ran : Run (ofPartial program.step) t moves u) {n : Nat}
    (initial : paid t.shared n) : ∃ m, paid u.shared m ∧
      total (Bool.toNat ∘ owes) u.phases + m =
        total (Bool.toNat ∘ owes) t.phases + n + moves.countP (Move.counts opens) := by
  induction moves generalizing t n with
  | nil =>
    obtain rfl : t = u := ran
    exact ⟨n, initial, rfl⟩
  | cons move moves ih =>
    obtain ⟨m, moved, ran⟩ := ran
    rw [List.countP_cons]
    cases move with
    | call i c =>
      obtain ⟨p, here, rests, rfl⟩ := step_call.mp moved
      obtain ⟨k, last, same⟩ := ih ran initial
      have set := total_set (f := Bool.toNat ∘ owes) (q := program.enter c t.shared) here
      simp only [Function.comp_apply, rest p rests, enter, Bool.toNat_false, Nat.add_zero] at set
      refine ⟨k, last, ?_⟩
      cases counted : opens c <;> simp [Move.counts, counted] at set same ⊢ <;> omega
    | advance i =>
      obtain ⟨p, q, after, started, here, advanced, rfl⟩ := step_advance.mp moved
      obtain ⟨next, later, settled⟩ := advance advanced initial
      obtain ⟨k, last, same⟩ := ih ran later
      have set := total_set (f := Bool.toNat ∘ owes) (q := q) here
      simp only [Function.comp_apply] at set
      refine ⟨k, last, ?_⟩
      rw [total_append] at same
      simp only [Move.counts, Bool.false_eq_true, ↓reduceIte]
      omega

/-- Once every thread rests, each call that counts is paid. -/
theorem Program.settled_calls_paid {program : Program S P C} (owes : P → Bool) {opens : C → Bool}
    (paid : S → Nat → Prop) (rest : ∀ p, program.resting p = true → owes p = false)
    (enter : ∀ c s, owes (program.enter c s) = opens c)
    (advance : ∀ {p q s after started n}, program.advance p s = some (q, after, started) → paid s n →
      ∃ m, paid after m ∧ (owes q).toNat + total (Bool.toNat ∘ owes) started + m = (owes p).toNat + n)
    {t u : Pool S P} {moves : List (Move C)} (ran : Run (ofPartial program.step) t moves u)
    (resting : t.Settled program) (settled : u.Settled program) (initial : paid t.shared 0) :
    paid u.shared (moves.countP (Move.counts opens)) := by
  have none {v : Pool S P} (rests : v.Settled program) : total (Bool.toNat ∘ owes) v.phases = 0 := by
    refine total_eq_zero.mpr fun p member => ?_
    rw [Function.comp_apply, rest p (rests p member)]
    rfl
  obtain ⟨m, last, same⟩ := Program.calls_paid owes opens paid rest enter advance ran initial
  rw [none resting, none settled, Nat.zero_add, Nat.zero_add] at same
  exact same ▸ last

end calls

end Threads
