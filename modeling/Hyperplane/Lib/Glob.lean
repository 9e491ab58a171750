/-! Patterns in which a star stands for any characters and every other character
for itself. -/
namespace Glob

inductive Matches : List Char → List Char → Prop where
  | done : Matches [] []
  | star {pattern rest : List Char} (front : List Char) :
      Matches pattern rest → Matches ('*' :: pattern) (front ++ rest)
  | char {c : Char} {pattern rest : List Char} :
      c ≠ '*' → Matches pattern rest → Matches (c :: pattern) (c :: rest)

theorem matches_star {pattern text : List Char} :
    Matches ('*' :: pattern) text ↔ ∃ front rest, text = front ++ rest ∧ Matches pattern rest := by
  constructor
  · intro found
    cases found with
    | star front later => exact ⟨front, _, rfl, later⟩
    | char other later => exact absurd rfl other
  · rintro ⟨front, rest, rfl, later⟩
    exact .star front later

theorem matches_char {c : Char} (literal : c ≠ '*') {pattern text : List Char} :
    Matches (c :: pattern) text ↔ ∃ rest, text = c :: rest ∧ Matches pattern rest := by
  constructor
  · intro found
    cases found with
    | star front later => exact absurd rfl literal
    | char other later => exact ⟨_, rfl, later⟩
  · rintro ⟨rest, rfl, later⟩
    exact .char literal later

/-- A text in front of a pattern is matched by itself. -/
theorem matches_append {front : List Char} (literal : '*' ∉ front) {pattern text : List Char} :
    Matches (front ++ pattern) text ↔ ∃ rest, text = front ++ rest ∧ Matches pattern rest := by
  induction front generalizing text with
  | nil => simp
  | cons c front ih =>
    have own : c ≠ '*' := fun same => literal (same ▸ List.mem_cons_self)
    have later : '*' ∉ front := fun among => literal (List.mem_cons_of_mem c among)
    rw [List.cons_append, matches_char own]
    constructor
    · rintro ⟨rest, rfl, found⟩
      obtain ⟨last, rfl, ending⟩ := (ih later).mp found
      exact ⟨last, rfl, ending⟩
    · rintro ⟨rest, rfl, found⟩
      exact ⟨front ++ rest, rfl, (ih later).mpr ⟨rest, rfl, found⟩⟩

theorem matches_last {text : List Char} : Matches ['*'] text := by
  rw [matches_star]
  exact ⟨text, [], (List.append_nil text).symm, .done⟩

/-- Two texts with anything between and behind them. -/
theorem matches_between {first second text : List Char} (literal : '*' ∉ first) (literal' : '*' ∉ second) :
    Matches (first ++ '*' :: (second ++ ['*'])) text ↔ ∃ x y, text = first ++ (x ++ (second ++ y)) := by
  rw [matches_append literal]
  constructor
  · rintro ⟨_, rfl, found⟩
    obtain ⟨x, _, rfl, behind⟩ := matches_star.mp found
    obtain ⟨y, rfl, _⟩ := (matches_append literal').mp behind
    exact ⟨x, y, rfl⟩
  · rintro ⟨x, y, rfl⟩
    exact ⟨_, rfl, matches_star.mpr ⟨x, _, rfl, (matches_append literal').mpr ⟨y, rfl, matches_last⟩⟩⟩

end Glob
