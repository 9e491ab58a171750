import Mathlib.Data.Finset.Card

/-! Hash sets are finite sets; their iteration order is a parameter. -/
namespace Hyperplane

/-- The order in which a hash set yields its elements, which is unspecified. -/
structure HashOrder (A : Type) where
  list : Finset A → List A
  mem_list : ∀ set a, a ∈ list set ↔ a ∈ set
  nodup_list : ∀ set, (list set).Nodup

namespace HashOrder

def reverse {A : Type} (order : HashOrder A) : HashOrder A where
  list set := (order.list set).reverse
  mem_list set a := by rw [List.mem_reverse, order.mem_list]
  nodup_list set := List.nodup_reverse.mpr (order.nodup_list set)

theorem list_perm {A : Type} (order other : HashOrder A) (set : Finset A) :
    (order.list set).Perm (other.list set) := by
  refine (List.perm_ext_iff_of_nodup (order.nodup_list set) (other.nodup_list set)).mpr fun a => ?_
  rw [order.mem_list, other.mem_list]

theorem length_list {A : Type} [DecidableEq A] (order : HashOrder A) (set : Finset A) :
    (order.list set).length = set.card := by
  rw [← List.toFinset_card_of_nodup (order.nodup_list set)]
  congr 1
  ext a
  rw [List.mem_toFinset, order.mem_list]

noncomputable def some (A : Type) : HashOrder A :=
  ⟨Finset.toList, fun _ _ => Finset.mem_toList, Finset.nodup_toList⟩

end HashOrder

end Hyperplane
