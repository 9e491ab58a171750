import Mathlib.Data.List.Basic

/-! Labelled transition relations and their runs. A property of a run is either
a property of the state reached or a property of every step taken; both have
one induction rule, stated here for any relation. -/
namespace Transition

/-- The state reached when the labels are taken one after the other. -/
def Run {S A : Type} (step : S → A → S → Prop) : S → List A → S → Prop
  | s, [], t => s = t
  | s, a :: rest, t => ∃ m, step s a m ∧ Run step m rest t

/-- Every step taken along the labels satisfies a predicate of its source,
label and target. -/
def Along {S A : Type} (step : S → A → S → Prop) (P : S → A → S → Prop) : S → List A → Prop
  | _, [] => True
  | s, a :: rest => ∀ t, step s a t → P s a t ∧ Along step P t rest

def ofFun {S A : Type} (f : S → A → S) (s : S) (a : A) (t : S) : Prop := f s a = t

def ofPartial {S A : Type} (f : S → A → Option S) (s : S) (a : A) (t : S) : Prop := f s a = some t

theorem run_ofPartial {S A : Type} (f : S → A → Option S) (as : List A) (s t : S) :
    Run (ofPartial f) s as t ↔ as.foldlM f s = some t := by
  induction as generalizing s with
  | nil => simp [Run]
  | cons a rest ih =>
    simp only [Run, ofPartial, ih, List.foldlM_cons]
    exact Option.bind_eq_some_iff.symm

theorem Run.append {S A : Type} {step : S → A → S → Prop} {s m t : S} {as bs : List A}
    (first : Run step s as m) (last : Run step m bs t) : Run step s (as ++ bs) t := by
  induction as generalizing s with
  | nil => exact (first : s = m) ▸ last
  | cons a rest ih =>
    obtain ⟨k, taken, tail⟩ := first
    exact ⟨k, taken, ih tail⟩

/-- A property that every step keeps exactly for some labels holds at the end
exactly when all labels are such. -/
theorem foldl_iff {S A : Type} {f : S → A → S} (I : S → Prop) (Q : A → Prop)
    (exact_step : ∀ s a, I (f s a) ↔ I s ∧ Q a) (as : List A) (s : S) :
    I (as.foldl f s) ↔ I s ∧ ∀ a ∈ as, Q a := by
  induction as generalizing s with
  | nil => simp
  | cons a rest ih => rw [List.foldl_cons, ih, exact_step, and_assoc, List.forall_mem_cons]

theorem foldl_invariant {S A : Type} {f : S → A → S} (I : S → Prop) (keep : ∀ s a, I s → I (f s a))
    {s : S} (initial : I s) (as : List A) : I (as.foldl f s) := by
  induction as generalizing s with
  | nil => exact initial
  | cons a rest ih => exact ih (keep s a initial)

theorem run_iff {S A : Type} {step : S → A → S → Prop} (I : S → Prop) (Q : A → Prop)
    (exact_step : ∀ s a t, step s a t → (I t ↔ I s ∧ Q a)) {s t : S} {as : List A}
    (ran : Run step s as t) : I t ↔ I s ∧ ∀ a ∈ as, Q a := by
  induction as generalizing s with
  | nil => exact (ran : s = t) ▸ by simp
  | cons a rest ih =>
    obtain ⟨m, first, tail⟩ := ran
    rw [ih tail, exact_step s a m first, and_assoc, List.forall_mem_cons]

theorem along_labels {S A : Type} (step : S → A → S → Prop) {Q : A → Prop} {as : List A}
    (labels : ∀ a ∈ as, Q a) (s : S) : Along step (fun _ a _ => Q a) s as := by
  induction as generalizing s with
  | nil => trivial
  | cons a rest ih =>
    intro t _
    exact ⟨labels a (by simp), ih (fun b member => labels b (List.mem_cons_of_mem a member)) t⟩

/-- A step preserves the invariant under a condition, which every step meets. -/
theorem run_invariant_along {S A : Type} {step : S → A → S → Prop} (I : S → Prop)
    (C : S → A → S → Prop) (keep : ∀ s a t, I s → step s a t → C s a t → I t)
    {s t : S} {as : List A} (initial : I s) (meets : Along step C s as)
    (ran : Run step s as t) : I t := by
  induction as generalizing s with
  | nil => exact (ran : s = t) ▸ initial
  | cons a rest ih =>
    obtain ⟨m, first, tail⟩ := ran
    obtain ⟨here, later⟩ := meets m first
    exact ih (keep s a m initial first here) later tail

/-- What the steps of a run show to an observer, in their order. -/
def observed {S A B : Type} (f : S → A → Option S) (out : S → A → S → List B) : S → List A → List B
  | _, [] => []
  | s, a :: rest => match f s a with
    | some t => out s a t ++ observed f out t rest
    | none => []

/-- The rule for an invariant that speaks of what has been observed so far. -/
theorem run_observed_along {S A B : Type} {f : S → A → Option S} {out : S → A → S → List B}
    (I : S → List B → Prop) (C : S → A → S → Prop)
    (keep : ∀ s a t seen, I s seen → f s a = some t → C s a t → I t (seen ++ out s a t))
    {s t : S} {as : List A} {seen : List B} (initial : I s seen)
    (meets : Along (ofPartial f) C s as) (ran : Run (ofPartial f) s as t) :
    I t (seen ++ observed f out s as) := by
  induction as generalizing s seen with
  | nil =>
    obtain rfl : s = t := ran
    rw [observed, List.append_nil]
    exact initial
  | cons a rest ih =>
    obtain ⟨m, first, tail⟩ := ran
    obtain ⟨here, later⟩ := meets m first
    have taken : f s a = some m := first
    rw [observed, taken]
    simp only [← List.append_assoc]
    exact ih (keep s a m seen initial taken here) later tail

theorem run_invariant {S A : Type} {step : S → A → S → Prop} (I : S → Prop)
    (keep : ∀ s a t, I s → step s a t → I t) {s t : S} {as : List A}
    (initial : I s) (ran : Run step s as t) : I t := by
  have unconditional : Along step (fun _ _ _ => True) s as := along_labels step (fun _ _ => trivial) s
  exact run_invariant_along I _ (fun s a t h taken _ => keep s a t h taken) initial unconditional ran

/-- What the steps of one party lower by one and no other step raises is used
up once the party has taken that many steps. -/
theorem run_lowers {S A : Type} {step : S → A → S → Prop} (I : S → Prop) (P : S → A → S → Prop)
    (measure : S → Nat) (own : A → Bool)
    (each : ∀ s a t, I s → step s a t → P s a t → I t ∧ measure t ≤ measure s - (own a).toNat)
    {s t : S} {as : List A} (initial : I s) (along : Along step P s as) (ran : Run step s as t) :
    I t ∧ measure t ≤ measure s - as.countP own := by
  induction as generalizing s with
  | nil =>
    obtain rfl : s = t := ran
    exact ⟨initial, Nat.le_refl _⟩
  | cons a rest ih =>
    obtain ⟨m, first, tail⟩ := ran
    obtain ⟨here, later⟩ := along m first
    obtain ⟨kept, lower⟩ := each s a m initial first here
    obtain ⟨final, lowest⟩ := ih kept later tail
    refine ⟨final, ?_⟩
    rw [List.countP_cons]
    cases own_a : own a <;> simp [own_a] at lower ⊢ <;> omega

/-- A party each of whose steps costs one takes no more steps than it can pay. -/
theorem run_spends {S A : Type} {step : S → A → S → Prop} (I : S → Prop) (P : S → A → S → Prop)
    (measure : S → Nat) (own : A → Bool)
    (each : ∀ s a t, I s → step s a t → P s a t → I t ∧ measure t + (own a).toNat ≤ measure s)
    {s t : S} {as : List A} (initial : I s) (along : Along step P s as) (ran : Run step s as t) :
    I t ∧ measure t + as.countP own ≤ measure s := by
  induction as generalizing s with
  | nil =>
    obtain rfl : s = t := ran
    exact ⟨initial, Nat.le_refl _⟩
  | cons a rest ih =>
    obtain ⟨m, first, tail⟩ := ran
    obtain ⟨here, later⟩ := along m first
    obtain ⟨kept, paid⟩ := each s a m initial first here
    obtain ⟨final, spent⟩ := ih kept later tail
    refine ⟨final, ?_⟩
    rw [List.countP_cons]
    cases own_a : own a <;> simp [own_a] at paid ⊢ <;> omega

/-- The same rule for a property of the steps. -/
theorem along_of_invariant {S A : Type} {step : S → A → S → Prop} (I : S → Prop)
    (C P : S → A → S → Prop) (keep : ∀ s a t, I s → step s a t → C s a t → I t ∧ P s a t)
    {s : S} {as : List A} (initial : I s) (meets : Along step C s as) : Along step P s as := by
  induction as generalizing s with
  | nil => trivial
  | cons a rest ih =>
    intro t taken
    obtain ⟨here, later⟩ := meets t taken
    obtain ⟨kept, point⟩ := keep s a t initial taken here
    exact ⟨point, ih kept later⟩

theorem along_mono {S A : Type} {step : S → A → S → Prop} {P Q : S → A → S → Prop}
    (weaker : ∀ s a t, P s a t → Q s a t) {s : S} {as : List A} (h : Along step P s as) :
    Along step Q s as := by
  refine along_of_invariant (fun _ => True) P Q ?_ trivial h
  intro s a t _ _ holds
  exact ⟨trivial, weaker s a t holds⟩

/-- When, under an invariant and in a run whose steps are all such, a step has the
property exactly if it meets the condition, and meeting the condition keeps the
invariant, then the whole run has the property exactly if it meets the condition
throughout. -/
theorem along_within_iff {S A : Type} {step : S → A → S → Prop} (I : S → Prop)
    {F P C : S → A → S → Prop}
    (exact_step : ∀ s a t, I s → step s a t → F s a t → (P s a t ↔ C s a t))
    (keep : ∀ s a t, I s → step s a t → F s a t → C s a t → I t)
    {s : S} (initial : I s) {as : List A} (within : Along step F s as) :
    Along step P s as ↔ Along step C s as := by
  induction as generalizing s with
  | nil => exact Iff.rfl
  | cons a rest ih =>
    constructor
    · intro h t taken
      obtain ⟨here, tail⟩ := h t taken
      obtain ⟨such, later⟩ := within t taken
      have meets := (exact_step s a t initial taken such).mp here
      exact ⟨meets, (ih (keep s a t initial taken such meets) later).mp tail⟩
    · intro h t taken
      obtain ⟨meets, tail⟩ := h t taken
      obtain ⟨such, later⟩ := within t taken
      exact ⟨(exact_step s a t initial taken such).mpr meets,
        (ih (keep s a t initial taken such meets) later).mpr tail⟩

/-- The same rule when all labels are such. -/
theorem along_iff {S A : Type} {step : S → A → S → Prop} (I : S → Prop) (Q : A → Prop)
    (P C : S → A → S → Prop)
    (exact_step : ∀ s a t, I s → Q a → step s a t → (P s a t ↔ C s a t))
    (keep : ∀ s a t, I s → Q a → step s a t → C s a t → I t)
    {s : S} (initial : I s) {as : List A} (labels : ∀ a ∈ as, Q a) :
    Along step P s as ↔ Along step C s as :=
  along_within_iff I (fun s a t h taken label => exact_step s a t h label taken)
    (fun s a t h taken label meets => keep s a t h label taken meets) initial
    (along_labels step labels s)

/-- The same rule for arbitrary labels. -/
theorem along_step_iff {S A : Type} {step : S → A → S → Prop} (I : S → Prop) {P C : S → A → S → Prop}
    (exact_step : ∀ s a t, I s → step s a t → (P s a t ↔ C s a t))
    (keep : ∀ s a t, I s → step s a t → C s a t → I t) {s : S} (initial : I s) (as : List A) :
    Along step P s as ↔ Along step C s as :=
  along_iff I (fun _ => True) P C (fun s a t h _ taken => exact_step s a t h taken)
    (fun s a t h _ taken meets => keep s a t h taken meets) initial (fun _ _ => trivial)

/-- The same rule for a total function. -/
theorem along_ofFun_iff {S A : Type} {f : S → A → S} (I : S → Prop) {P C : S → A → S → Prop}
    (exact_step : ∀ s a, I s → (P s a (f s a) ↔ C s a (f s a)))
    (keep : ∀ s a, I s → C s a (f s a) → I (f s a)) {s : S} (initial : I s) (as : List A) :
    Along (ofFun f) P s as ↔ Along (ofFun f) C s as := by
  refine along_step_iff I ?_ ?_ initial as
  · rintro s a _ h rfl
    exact exact_step s a h
  · rintro s a _ h rfl meets
    exact keep s a h meets

/-- When, under an invariant, a step that does not meet the condition breaks
something for good or lacks a property, then a run that ends unbroken with the
property throughout met the condition throughout, and one that ends broken did not. -/
theorem along_or_broken_unless {S A : Type} {f : S → A → Option S} (I B : S → Prop)
    (C P : S → A → S → Prop)
    (keep : ∀ s a t, I s → f s a = some t → C s a t → I t)
    (breaks : ∀ s a t, I s → f s a = some t → ¬ C s a t → P s a t → B t)
    (stays : ∀ s a t, B s → f s a = some t → P s a t → B t)
    {s t : S} {as : List A} (initial : I s) (ran : Run (ofPartial f) s as t) :
    (Along (ofPartial f) C s as ∧ I t) ∨
      (¬ Along (ofPartial f) C s as ∧ (Along (ofPartial f) P s as → B t)) := by
  induction as generalizing s with
  | nil =>
    obtain rfl : s = t := ran
    exact .inl ⟨trivial, initial⟩
  | cons a rest ih =>
    obtain ⟨m, first, tail⟩ := ran
    by_cases meets : C s a m
    · rcases ih (keep s a m initial first meets) tail with ⟨later, good⟩ | ⟨later, bad⟩
      · refine .inl ⟨?_, good⟩
        intro n taken
        cases first.symm.trans taken
        exact ⟨meets, later⟩
      · refine .inr ⟨fun along => later (along m first).2, fun along => ?_⟩
        exact bad (along m first).2
    · refine .inr ⟨fun along => meets (along m first).1, fun along => ?_⟩
      obtain ⟨here, later⟩ := along m first
      exact run_invariant_along B P stays (breaks s a m initial first meets here) later tail

theorem along_or_broken {S A : Type} {f : S → A → Option S} (I B : S → Prop)
    (C : S → A → S → Prop)
    (keep : ∀ s a t, I s → f s a = some t → C s a t → I t)
    (breaks : ∀ s a t, I s → f s a = some t → ¬ C s a t → B t)
    (stays : ∀ s a t, B s → f s a = some t → B t)
    {s t : S} {as : List A} (initial : I s) (ran : Run (ofPartial f) s as t) :
    (Along (ofPartial f) C s as ∧ I t) ∨ (¬ Along (ofPartial f) C s as ∧ B t) := by
  have always : Along (ofPartial f) (fun _ _ _ => True) s as := along_labels _ (fun _ _ => trivial) s
  have outcome := along_or_broken_unless I B C (fun _ _ _ => True) keep
    (fun s a t good taken early _ => breaks s a t good taken early)
    (fun s a t bad taken _ => stays s a t bad taken) initial ran
  exact outcome.imp_right fun ⟨early, bad⟩ => ⟨early, bad always⟩

instance decidableAlong {S A : Type} (f : S → A → Option S) (P : S → A → S → Prop)
    [∀ s a t, Decidable (P s a t)] : ∀ s as, Decidable (Along (ofPartial f) P s as)
  | _, [] => isTrue trivial
  | s, a :: rest => match taken : f s a with
    | none => isTrue fun t step => by rw [ofPartial, taken] at step; cases step
    | some t =>
      have : Decidable (Along (ofPartial f) P t rest) := decidableAlong f P t rest
      decidable_of_iff (P s a t ∧ Along (ofPartial f) P t rest)
        ⟨fun h u step => by rw [ofPartial, taken] at step; exact Option.some.inj step ▸ h,
          fun h => h t taken⟩

/-- For a total function every split of the labels names one step taken. -/
theorem along_ofFun {S A : Type} (f : S → A → S) (P : S → A → S → Prop) (s : S) (as : List A) :
    Along (ofFun f) P s as ↔
      ∀ pre a post, as = pre ++ a :: post → P (pre.foldl f s) a (f (pre.foldl f s) a) := by
  induction as generalizing s with
  | nil => exact ⟨fun _ pre a post impossible => by simp at impossible, fun _ => trivial⟩
  | cons b rest ih =>
    constructor
    · intro h pre a post split
      obtain ⟨here, later⟩ := h (f s b) rfl
      cases pre with
      | nil =>
        cases split
        exact here
      | cons c pre =>
        cases split
        exact (ih (f s b)).mp later pre a post rfl
    · rintro h _ rfl
      refine ⟨h [] b rest rfl, (ih (f s b)).mpr ?_⟩
      intro pre a post split
      exact h (b :: pre) a post (by rw [split]; rfl)

end Transition
