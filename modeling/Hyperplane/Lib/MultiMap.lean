import Hyperplane.Lib.Maps

/-! Maps from keys to finite sets, as relations: pairs are linked and unlinked,
and a key without values is dropped. -/

abbrev MultiMap (K V : Type) [Ord K] := Std.TreeMap K (Finset V)

namespace MultiMap

variable {K V : Type} [Ord K] [DecidableEq V]

def values (m : MultiMap K V) (k : K) : Finset V := m[k]?.getD ∅

def link (m : MultiMap K V) (k : K) (v : V) : MultiMap K V := Maps.entry m k ∅ (insert v)

def unlink (m : MultiMap K V) (k : K) (v : V) : MultiMap K V :=
  match m[k]? with
  | some found => if found.erase v = ∅ then m.erase k else m.insert k (found.erase v)
  | none => m

variable [Std.TransOrd K] [Std.LawfulEqOrd K]

theorem mem_values_link (m : MultiMap K V) (k l : K) (v w : V) :
    w ∈ values (link m k v) l ↔ (l = k ∧ w = v) ∨ w ∈ values m l := by
  by_cases same : l = k
  · subst same
    simp [values, link, Maps.getElem?_entry_self]
  · simp [values, link, Maps.getElem?_entry_ne m same, same]

theorem values_unlink_self (m : MultiMap K V) (k : K) (v : V) :
    values (unlink m k v) k = (values m k).erase v := by
  unfold unlink
  cases found : m[k]? with
  | none => simp [values, found]
  | some old =>
    dsimp only
    split
    · rename_i empty
      simp [values, found, empty]
    · simp [values, found]

theorem values_unlink_ne (m : MultiMap K V) {k l : K} (other : l ≠ k) (v : V) :
    values (unlink m k v) l = values m l := by
  unfold unlink
  cases m[k]? with
  | none => rfl
  | some old =>
    dsimp only
    split
    · rw [values, Maps.getElem?_erase_ne m other, values]
    · rw [values, Maps.getElem?_insert_ne m other, values]

theorem mem_values_unlink (m : MultiMap K V) (k l : K) (v w : V) :
    w ∈ values (unlink m k v) l ↔ w ∈ values m l ∧ ¬ (l = k ∧ w = v) := by
  by_cases same : l = k
  · subst same
    simp [values_unlink_self, and_comm]
  · simp [values_unlink_ne m same, same]

theorem mem_values_linkAll (ks : List K) (m : MultiMap K V) (l : K) (v w : V) :
    w ∈ values (ks.foldl (fun m k => link m k v) m) l ↔ (l ∈ ks ∧ w = v) ∨ w ∈ values m l := by
  induction ks generalizing m with
  | nil => simp
  | cons k rest ih =>
    rw [List.foldl_cons, ih, mem_values_link, List.mem_cons, or_and_right, or_assoc, or_left_comm]

theorem mem_values_unlinkAll (ks : List K) (m : MultiMap K V) (l : K) (v w : V) :
    w ∈ values (ks.foldl (fun m k => unlink m k v) m) l ↔ w ∈ values m l ∧ ¬ (l ∈ ks ∧ w = v) := by
  induction ks generalizing m with
  | nil => simp
  | cons k rest ih =>
    rw [List.foldl_cons, ih, mem_values_unlink, and_assoc, ← not_or, List.mem_cons, or_and_right]

end MultiMap
