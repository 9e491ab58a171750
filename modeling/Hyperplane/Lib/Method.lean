import Mathlib.Data.List.Basic

/-! Fallible methods of a mutable object. A call returns a value, returns an
error, or faults: it panics or touches memory outside what it may. The object
keeps what was written to it before an error, as it does behind a mutable
reference whose method returns early. -/

inductive Outcome (ε α : Type) where
  | ok (value : α)
  | error (e : ε)
  | fault
  deriving DecidableEq, Repr

def Outcome.mapError {ε η α : Type} (f : ε → η) : Outcome ε α → Outcome η α
  | .ok value => .ok value
  | .error e => .error (f e)
  | .fault => .fault

def Method (σ ε α : Type) : Type := σ → Outcome ε α × σ

namespace Method

def pure {σ ε α : Type} (a : α) : Method σ ε α := fun s => (.ok a, s)

def bind {σ ε α β : Type} (x : Method σ ε α) (f : α → Method σ ε β) : Method σ ε β := fun s =>
  match x s with
  | (.ok a, t) => f a t
  | (.error e, t) => (.error e, t)
  | (.fault, t) => (.fault, t)

instance {σ ε : Type} : Monad (Method σ ε) where
  pure := Method.pure
  bind := Method.bind

def get {σ ε : Type} : Method σ ε σ := fun s => (.ok s, s)

def modify {σ ε : Type} (f : σ → σ) : Method σ ε Unit := fun s => (.ok (), f s)

def fail {σ ε α : Type} (e : ε) : Method σ ε α := fun s => (.error e, s)

/-- Run a method on a part of the object and convert its error. -/
def zoom {σ τ ε η α : Type} (part : σ → τ) (put : σ → τ → σ) (convert : ε → η)
    (x : Method τ ε α) : Method σ η α := fun s =>
  ((x (part s)).1.mapError convert, put s (x (part s)).2)

@[simp] theorem pure_ok {σ ε α : Type} (a b : α) (s t : σ) :
    (Pure.pure a : Method σ ε α) s = (.ok b, t) ↔ a = b ∧ s = t := by
  simp [Pure.pure, Method.pure]

@[simp] theorem modify_ok {σ ε : Type} (f : σ → σ) (u : Unit) (s t : σ) :
    (modify f : Method σ ε Unit) s = (.ok u, t) ↔ f s = t := by
  simp [modify]

@[simp] theorem bind_ok {σ ε α β : Type} (x : Method σ ε α) (f : α → Method σ ε β)
    (b : β) (s t : σ) :
    (x >>= f) s = (.ok b, t) ↔ ∃ a m, x s = (.ok a, m) ∧ f a m = (.ok b, t) := by
  change (match x s with
    | (.ok a, t) => f a t
    | (.error e, t) => (.error e, t)
    | (.fault, t) => (.fault, t)) = (.ok b, t) ↔ _
  cases h : x s with
  | mk result m =>
    cases result with
    | ok a => simp
    | error e => simp
    | fault => simp

theorem bind_run {σ ε α β : Type} {x : Method σ ε α} {s m : σ} {a : α} (ran : x s = (.ok a, m))
    (f : α → Method σ ε β) : (x >>= f) s = f a m := by
  change (match x s with
    | (.ok a, t) => f a t
    | (.error e, t) => (.error e, t)
    | (.fault, t) => (.fault, t)) = f a m
  rw [ran]

theorem bind_run_error {σ ε α β : Type} {x : Method σ ε α} {s m : σ} {e : ε}
    (ran : x s = (.error e, m)) (f : α → Method σ ε β) : (x >>= f) s = (.error e, m) := by
  change (match x s with
    | (.ok a, t) => f a t
    | (.error e, t) => (.error e, t)
    | (.fault, t) => (.fault, t)) = (.error e, m)
  rw [ran]

/-- Whatever the method returns, this part of the object is as it was. -/
def Keeps {σ ε α τ : Type} (part : σ → τ) (x : Method σ ε α) : Prop := ∀ s, part (x s).2 = part s

section Keeps
variable {σ ε α β τ : Type} {part : σ → τ}

theorem keeps_pure (a : α) : Keeps part (Pure.pure a : Method σ ε α) := fun _ => rfl

theorem keeps_fail (e : ε) : Keeps part (fail e : Method σ ε α) := fun _ => rfl

theorem keeps_modify {f : σ → σ} (same : ∀ s, part (f s) = part s) :
    Keeps part (modify f : Method σ ε Unit) := same

theorem keeps_bind {x : Method σ ε α} {f : α → Method σ ε β} (first : Keeps part x)
    (rest : ∀ a, Keeps part (f a)) : Keeps part (x >>= f) := by
  intro s
  have before := first s
  change part (match x s with
    | (.ok a, t) => f a t
    | (.error e, t) => (.error e, t)
    | (.fault, t) => (.fault, t)).2 = part s
  cases ran : x s with
  | mk result t =>
    rw [ran] at before
    cases result with
    | ok a => exact (rest a t).trans before
    | error e => exact before
    | fault => exact before

end Keeps

/-- A method ends without a fault: with a value and an object that satisfy Q, or
with an error and an object that satisfies J. -/
def Ends {σ ε α : Type} (x : Method σ ε α) (s : σ) (Q : α → σ → Prop) (J : σ → Prop) : Prop :=
  match x s with
  | (.ok a, t) => Q a t
  | (.error _, t) => J t
  | (.fault, _) => False

/-- A local of the method is dropped when it returns, whatever it returns. -/
def thenDrop {σ ε α : Type} (drop : σ → σ) (x : Method σ ε α) : Method σ ε α := fun s =>
  ((x s).1, drop (x s).2)

section Ends
variable {σ ε α β : Type} {x : Method σ ε α} {s : σ}

@[simp] theorem ends_pure (a : α) (s : σ) (Q : α → σ → Prop) (J : σ → Prop) :
    Ends (Pure.pure a : Method σ ε α) s Q J ↔ Q a s := Iff.rfl

@[simp] theorem ends_get (s : σ) (Q : σ → σ → Prop) (J : σ → Prop) :
    Ends (get : Method σ ε σ) s Q J ↔ Q s s := Iff.rfl

@[simp] theorem ends_modify (f : σ → σ) (s : σ) (Q : Unit → σ → Prop) (J : σ → Prop) :
    Ends (modify f : Method σ ε Unit) s Q J ↔ Q () (f s) := Iff.rfl

theorem ends_of_run {a : α} {t : σ} (ran : x s = (.ok a, t)) {Q : α → σ → Prop} (J : σ → Prop)
    (value : Q a t) : Ends x s Q J := by
  unfold Ends
  rw [ran]
  exact value

theorem ends_of_error {e : ε} {t : σ} (ran : x s = (.error e, t)) (Q : α → σ → Prop) {J : σ → Prop}
    (none : J t) : Ends x s Q J := by
  unfold Ends
  rw [ran]
  exact none

theorem ends_bind (f : α → Method σ ε β) (Q : β → σ → Prop) (J : σ → Prop) :
    Ends (x >>= f) s Q J ↔ Ends x s (fun a t => Ends (f a) t Q J) J := by
  unfold Ends
  change (match (match x s with
    | (.ok a, t) => f a t
    | (.error e, t) => (.error e, t)
    | (.fault, t) => (.fault, t)) with
    | (.ok b, t) => Q b t
    | (.error _, t) => J t
    | (.fault, _) => False) ↔ _
  cases x s with
  | mk result t => cases result <;> exact Iff.rfl

theorem ends_zoom {τ η : Type} (part : σ → τ) (put : σ → τ → σ) (convert : ε → η)
    (y : Method τ ε α) (Q : α → σ → Prop) (J : σ → Prop) :
    Ends (zoom part put convert y) s Q J ↔
      Ends y (part s) (fun a t => Q a (put s t)) (fun t => J (put s t)) := by
  unfold Ends zoom
  cases y (part s) with
  | mk result t => cases result <;> exact Iff.rfl

theorem ends_thenDrop (drop : σ → σ) (Q : α → σ → Prop) (J : σ → Prop) :
    Ends (thenDrop drop x) s Q J ↔ Ends x s (fun a t => Q a (drop t)) (fun t => J (drop t)) := by
  unfold Ends thenDrop
  cases x s with
  | mk result t => cases result <;> exact Iff.rfl

instance decidableEnds {Q : α → σ → Prop} {J : σ → Prop} [∀ a t, Decidable (Q a t)] [∀ t, Decidable (J t)] :
    Decidable (Ends x s Q J) :=
  match ran : x s with
  | (.ok a, t) => decidable_of_iff (Q a t) (by unfold Ends; rw [ran])
  | (.error _, t) => decidable_of_iff (J t) (by unfold Ends; rw [ran])
  | (.fault, _) => isFalse (by unfold Ends; rw [ran]; exact id)

theorem Ends.mono {Q R : α → σ → Prop} {J K : σ → Prop} (ends : Ends x s Q J)
    (value : ∀ a t, Q a t → R a t) (none : ∀ t, J t → K t) : Ends x s R K := by
  unfold Ends at ends ⊢
  cases run : x s with
  | mk result t =>
    rw [run] at ends
    cases result with
    | ok a => exact value a t ends
    | error e => exact none t ends
    | fault => exact ends

theorem Ends.and {Q R : α → σ → Prop} {J K : σ → Prop} (first : Ends x s Q J) (second : Ends x s R K) :
    Ends x s (fun a t => Q a t ∧ R a t) (fun t => J t ∧ K t) := by
  unfold Ends at first second ⊢
  cases run : x s with
  | mk result t =>
    rw [run] at first second
    cases result with
    | ok a => exact ⟨first, second⟩
    | error e => exact ⟨first, second⟩
    | fault => exact first

/-- Without an error there is a value. -/
theorem Ends.exists_ok {Q : α → σ → Prop} (ends : Ends x s Q fun _ => False) :
    ∃ a t, x s = (.ok a, t) ∧ Q a t := by
  unfold Ends at ends
  cases run : x s with
  | mk result t =>
    rw [run] at ends
    cases result with
    | ok a => exact ⟨a, t, rfl, ends⟩
    | error e => exact ends.elim
    | fault => exact ends.elim

theorem Ends.state_of_ok {J : σ → Prop} (ends : Ends x s (fun _ t => J t) fun _ => False) : J (x s).2 := by
  obtain ⟨a, t, ran, value⟩ := ends.exists_ok
  rw [ran]
  exact value

theorem Ends.state {Q : α → σ → Prop} {J : σ → Prop} (ends : Ends x s Q J)
    (value : ∀ a t, Q a t → J t) : J (x s).2 := by
  unfold Ends at ends
  cases run : x s with
  | mk result t =>
    rw [run] at ends
    cases result with
    | ok a => exact value a t ends
    | error e => exact ends
    | fault => exact ends.elim

theorem Ends.ok {Q : α → σ → Prop} {J : σ → Prop} (ends : Ends x s Q J) {a : α} {t : σ}
    (run : x s = (.ok a, t)) : Q a t := by
  unfold Ends at ends
  rw [run] at ends
  exact ends

theorem Ends.error {Q : α → σ → Prop} {J : σ → Prop} (ends : Ends x s Q J) {e : ε} {t : σ}
    (run : x s = (.error e, t)) : J t := by
  unfold Ends at ends
  rw [run] at ends
  exact ends

end Ends

end Method
