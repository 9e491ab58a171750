import Mathlib.Data.List.Basic

/-! The newest elements of a list under a comparison in which different elements may be
equally new, and the fold that holds on to one until a newer one comes. -/
namespace Newer

structure WeakOrder {A : Type} (newer : A → A → Prop) : Prop where
  asymm : ∀ {a b}, newer a b → ¬ newer b a
  negTrans : ∀ {a b c}, ¬ newer a b → ¬ newer b c → ¬ newer a c

/-- One of the list, and none of the list is newer. -/
structure Newest {A : Type} (newer : A → A → Prop) (all : List A) (a : A) : Prop where
  member : a ∈ all
  none : ∀ e ∈ all, ¬ newer e a

variable {A : Type} {newer : A → A → Prop}

theorem WeakOrder.irrefl (order : WeakOrder newer) (a : A) : ¬ newer a a := fun self => order.asymm self self

theorem WeakOrder.trans (order : WeakOrder newer) {a b c : A} (first : newer a b) (second : newer b c) :
    newer a c := by
  by_contra absent
  exact order.negTrans absent (order.asymm second) first

theorem newest_single (order : WeakOrder newer) (a : A) : Newest newer [a] a where
  member := List.mem_singleton.mpr rfl
  none _ member := List.mem_singleton.mp member ▸ order.irrefl a

section added

variable {all : List A} {held : A}

theorem Newest.replace_iff (order : WeakOrder newer) (newest : Newest newer all held) (a : A) :
    Newest newer (all ++ [a]) a ↔ ¬ newer held a := by
  constructor
  · exact fun replaced => replaced.none held (List.mem_append_left _ newest.member)
  · intro older
    refine ⟨List.mem_append_right _ (List.mem_singleton.mpr rfl), fun e member => ?_⟩
    rcases List.mem_append.mp member with before | last
    · exact order.negTrans (newest.none e before) older
    · rw [List.mem_singleton.mp last]
      exact order.irrefl a

theorem Newest.keep_iff (newest : Newest newer all held) (a : A) :
    Newest newer (all ++ [a]) held ↔ ¬ newer a held := by
  constructor
  · exact fun kept => kept.none a (List.mem_append_right _ (List.mem_singleton.mpr rfl))
  · intro older
    refine ⟨List.mem_append_left _ newest.member, fun e member => ?_⟩
    rcases List.mem_append.mp member with before | last
    · exact newest.none e before
    · rw [List.mem_singleton.mp last]
      exact older

end added

section keep

variable [DecidableRel newer]

variable (newer) in
def keep (held : Option A) (a : A) : Option A :=
  match held with
  | none => some a
  | some old => if newer a old then some a else some old

/-- Two that are not equally new may come in either order. -/
theorem keep_comm (order : WeakOrder newer) {a b : A} (apart : a = b ∨ newer a b ∨ newer b a)
    (held : Option A) : keep newer (keep newer held a) b = keep newer (keep newer held b) a := by
  have both : keep newer (some a) b = keep newer (some b) a := by
    rcases apart with rfl | first | second
    · rfl
    · simp only [keep, if_pos first, if_neg (order.asymm first)]
    · simp only [keep, if_pos second, if_neg (order.asymm second)]
  cases held with
  | none => exact both
  | some old =>
    by_cases first : newer a old
    · by_cases second : newer b old
      · simpa only [keep, if_pos first, if_pos second] using both
      · have older : ¬ newer b a := fun later => second (order.trans later first)
        simp only [keep, if_pos first, if_neg second, if_neg older]
    · by_cases second : newer b old
      · have older : ¬ newer a b := fun later => first (order.trans later second)
        simp only [keep, if_neg first, if_pos second, if_neg older]
      · simp only [keep, if_neg first, if_neg second]

theorem foldl_keep_perm (order : WeakOrder newer) {all other : List A} (perm : all.Perm other)
    (apart : ∀ a ∈ all, ∀ b ∈ all, a = b ∨ newer a b ∨ newer b a) (held : Option A) :
    all.foldl (keep newer) held = other.foldl (keep newer) held :=
  perm.foldl_eq' (fun a inA b inB _ => keep_comm order (apart a inA b inB) _) held

end keep

end Newer
