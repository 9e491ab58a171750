import Mathlib.Data.List.Basic
import Mathlib.Data.List.Induction
import Mathlib.Data.Set.Basic

/-! An inverted index in the abstract: the accounts listed under each key, and
for each account the one key it was published under last. Withdrawing an
account forgets that key only. -/

@[ext] structure Postings (K A : Type) where
  Listed : K → A → Prop
  current : A → Option K

namespace Postings

def none {K A : Type} : Postings K A := ⟨fun _ _ => False, fun _ => .none⟩

open Classical in
noncomputable def publish {K A : Type} (p : Postings K A) (a : A) (k : K) : Postings K A where
  Listed l b := p.Listed l b ∨ (l = k ∧ b = a)
  current b := if b = a then some k else p.current b

open Classical in
noncomputable def withdraw {K A : Type} (p : Postings K A) (a : A) : Postings K A where
  Listed l b := p.Listed l b ∧ ¬ (b = a ∧ p.current a = some l)
  current b := if b = a then .none else p.current b

theorem listed_publish {K A : Type} (p : Postings K A) (a b : A) (k l : K) :
    (p.publish a k).Listed l b ↔ p.Listed l b ∨ (l = k ∧ b = a) := Iff.rfl

/-- Only the key published last is withdrawn; the account keeps older ones. -/
theorem listed_withdraw {K A : Type} (p : Postings K A) (a b : A) (l : K) :
    (p.withdraw a).Listed l b ↔ p.Listed l b ∧ ¬ (b = a ∧ p.current a = some l) := Iff.rfl

theorem current_publish {K A : Type} (p : Postings K A) (a b : A) (k l : K) :
    (p.publish a k).current b = some l ↔
      (b = a ∧ l = k) ∨ (b ≠ a ∧ p.current b = some l) := by
  by_cases same : b = a
  · simp [publish, same, eq_comm]
  · simp [publish, same]

theorem current_withdraw {K A : Type} (p : Postings K A) {a b : A} (other : b ≠ a) :
    (p.withdraw a).current b = p.current b := by
  simp [withdraw, other]

/-- An account is published under a key, or withdrawn. -/
noncomputable def play {K A : Type} (p : Postings K A) (event : A × Option K) : Postings K A :=
  match event.2 with
  | some k => p.publish event.1 k
  | .none => p.withdraw event.1

/-- What happened to one account. -/
def own {K A : Type} [DecidableEq A] (events : List (A × Option K)) (a : A) : List (Option K) :=
  (events.filter fun event => event.1 = a).map Prod.snd

/-- Some publication under the key has no withdrawal behind it that came straight
after a publication under the key. -/
def Standing {K : Type} (k : K) (own : List (Option K)) : Prop :=
  ∃ before rest, own = before ++ some k :: rest ∧ ¬ [some k, .none] <:+: some k :: rest

theorem pair_infix_concat {T : Type} (x y e : T) (l : List T) :
    [x, y] <:+: l ++ [e] ↔ [x, y] <:+: l ∨ (y = e ∧ l.getLast? = some x) := by
  rw [List.infix_concat_iff, or_comm, List.suffix_concat_iff, ← List.singleton_suffix_iff_getLast?_eq_some]
  refine or_congr_right ?_
  constructor
  · rintro (empty | ⟨t, same, behind⟩)
    · cases empty
    · obtain ⟨rfl, last⟩ := List.append_inj' (show [x] ++ [y] = t ++ [e] from same) rfl
      cases last
      exact ⟨rfl, behind⟩
  · rintro ⟨rfl, behind⟩
    exact .inr ⟨[x], rfl, behind⟩

theorem standing_concat {K : Type} (k : K) (own : List (Option K)) (event : Option K) :
    Standing k (own ++ [event]) ↔
      (Standing k own ∧ ¬ (event = .none ∧ own.getLast? = some (some k))) ∨ event = some k := by
  have last (before rest : List (Option K)) :
      (before ++ some k :: rest).getLast? = (some k :: rest).getLast? :=
    List.getLast?_append_cons before _ _
  constructor
  · rintro ⟨before, rest, same, free⟩
    obtain rfl | ⟨rest, e, rfl⟩ := List.eq_nil_or_concat' rest
    · exact .inr (List.singleton_inj.mp (List.append_inj' same rfl).2)
    · rw [← List.cons_append, ← List.append_assoc] at same
      obtain ⟨rfl, ends⟩ := List.append_inj' same rfl
      cases ends
      rw [← List.cons_append, pair_infix_concat, not_or] at free
      refine .inl ⟨⟨before, rest, rfl, free.1⟩, fun ⟨withdrawn, published⟩ => free.2 ⟨withdrawn.symm, ?_⟩⟩
      rw [← last before rest, published]
  · rintro (⟨⟨before, rest, rfl, free⟩, stays⟩ | rfl)
    · refine ⟨before, rest ++ [event], by simp, ?_⟩
      rw [← List.cons_append, pair_infix_concat, not_or]
      refine ⟨free, fun ⟨withdrawn, published⟩ => stays ⟨withdrawn.symm, ?_⟩⟩
      rw [last before rest, published]
    · exact ⟨own, [], rfl, fun inside => by simpa using inside.length_le⟩

theorem own_concat {K A : Type} [DecidableEq A] (events : List (A × Option K)) (event : A × Option K) (a : A) :
    own (events ++ [event]) a = if event.1 = a then own events a ++ [event.2] else own events a := by
  unfold own
  rw [List.filter_append, List.map_append]
  split
  · rename_i here
    simp [here]
  · rename_i elsewhere
    simp [elsewhere]

/-- The postings that a run of events makes, read off each account's own events. -/
theorem play_all {K A : Type} [DecidableEq A] (events : List (A × Option K)) (a : A) :
    (events.foldl play none).current a = (own events a).getLast?.join ∧
      ∀ k, (events.foldl play none).Listed k a ↔ Standing k (own events a) := by
  induction events using List.reverseRecOn with
  | nil =>
    refine ⟨rfl, fun k => ?_⟩
    simp [own, Standing, none]
  | append_singleton events event ih =>
    obtain ⟨current, listed⟩ := ih
    rw [List.foldl_append, List.foldl_cons, List.foldl_nil, own_concat]
    obtain ⟨b, key⟩ := event
    by_cases here : b = a
    · subst here
      rw [if_pos rfl]
      cases key with
      | some l =>
        refine ⟨by simp [play, publish], fun k => ?_⟩
        rw [standing_concat, ← listed k]
        simp [play, publish, eq_comm]
      | none =>
        refine ⟨by simp [play, withdraw], fun k => ?_⟩
        rw [standing_concat, ← listed k]
        have latest : (own events b).getLast?.join = some k ↔ (own events b).getLast? = some (some k) :=
          Option.join_eq_some_iff
        simp [play, withdraw, current, latest]
    · rw [if_neg here]
      cases key with
      | some l => simp [play, publish, current, listed, Ne.symm here]
      | none => simp [play, withdraw, current, listed, Ne.symm here]

end Postings
