import Mathlib.Data.List.Basic
import Hyperplane.Lib.Maps

/-! Lists of values under the keys of a sorted map. Read over a range of keys, they are
what was put in, sorted by key, and under one key in the order it was put in. -/
namespace KeyedLists

section sorting

variable {A K : Type} [DecidableEq K]

/-- Sorted lists that agree on every key are equal. -/
theorem sorted_unique {r : K → K → Prop} (antisymm : ∀ a b, r a b → r b a → a = b) (key : A → K)
    {xs ys : List A} (sorted : xs.Pairwise fun a b => r (key a) (key b))
    (others : ys.Pairwise fun a b => r (key a) (key b))
    (same : ∀ k, xs.filter (key · = k) = ys.filter (key · = k)) : xs = ys := by
  induction xs generalizing ys with
  | nil =>
    cases ys with
    | nil => rfl
    | cons y ys =>
      have here := same (key y)
      simp at here
  | cons x xs ih =>
    cases ys with
    | nil =>
      have here := same (key x)
      simp at here
    | cons y ys =>
      obtain ⟨below, sortedRest⟩ := List.pairwise_cons.mp sorted
      obtain ⟨above, othersRest⟩ := List.pairwise_cons.mp others
      have member (z : A) : z ∈ x :: xs ↔ z ∈ y :: ys := by
        have here := congrArg (z ∈ ·) (same (key z))
        simpa [-List.mem_cons] using here
      have keys : key x = key y := by
        obtain rfl | later := List.mem_cons.mp ((member x).mp List.mem_cons_self)
        · rfl
        · obtain rfl | behind := List.mem_cons.mp ((member y).mpr List.mem_cons_self)
          · rfl
          · exact antisymm _ _ (below y behind) (above x later)
      have heads := same (key x)
      rw [List.filter_cons_of_pos (by simp), List.filter_cons_of_pos (by simp [keys])] at heads
      obtain ⟨rfl, _⟩ := List.cons.inj heads
      refine congrArg (x :: ·) (ih sortedRest othersRest fun k => ?_)
      have tails := same k
      by_cases here : key x = k
      · rw [List.filter_cons_of_pos (by simpa using here),
          List.filter_cons_of_pos (by simpa using here)] at tails
        exact (List.cons.inj tails).2
      · rw [List.filter_cons_of_neg (by simpa using here),
          List.filter_cons_of_neg (by simpa using here)] at tails
        exact tails

/-- Sorting leaves the order of equals alone. -/
theorem filter_mergeSort {le : A → A → Bool} (trans : ∀ a b c, le a b → le b c → le a c)
    (total : ∀ a b, le a b || le b a) {p : A → Bool} (equal : ∀ a b, p a → p b → le a b) (xs : List A) :
    (xs.mergeSort le).filter p = xs.filter p := by
  have inside : (xs.filter p).Sublist (xs.mergeSort le) := by
    refine List.sublist_mergeSort trans total ?_ List.filter_sublist
    exact List.pairwise_of_forall_mem_list fun a first b second =>
      equal a b (List.mem_filter.mp first).2 (List.mem_filter.mp second).2
  have kept := inside.filter p
  simp only [List.filter_filter, Bool.and_self] at kept
  exact (kept.eq_of_length ((List.mergeSort_perm xs le).filter p).length_eq.symm).symm

end sorting

variable {K V : Type} [Ord K] [Std.TransOrd K] [Std.LawfulEqOrd K] [DecidableEq K]

/-- The lists of the map are what the pairs put under its keys. -/
def Holds (lists : Std.TreeMap K (List V)) (pairs : List (K × V)) : Prop :=
  ∀ k : K, lists[k]?.getD [] = (pairs.filter (·.1 = k)).map Prod.snd

def entries (lists : Std.TreeMap K (List V)) : List (K × V) :=
  lists.toList.flatMap fun entry => entry.2.map fun v => (entry.1, v)

omit [Std.TransOrd K] [Std.LawfulEqOrd K] in
theorem holds_empty : Holds (∅ : Std.TreeMap K (List V)) [] := fun _ => rfl

theorem holds_push {lists : Std.TreeMap K (List V)} {pairs : List (K × V)} (h : Holds lists pairs)
    (k : K) (v : V) :
    Holds (Maps.entry lists k [] fun values => values ++ [v]) (pairs ++ [(k, v)]) := by
  intro l
  rw [List.filter_append, List.map_append, ← h l]
  by_cases same : l = k
  · subst same
    simp [Maps.getElem?_entry_self]
  · simp [Maps.getElem?_entry_ne _ same, Ne.symm same]

omit [Ord K] [Std.TransOrd K] [Std.LawfulEqOrd K] in
theorem filter_absent {lists : List (K × List V)} {k : K} (absent : ∀ entry ∈ lists, entry.1 ≠ k) :
    (lists.flatMap fun entry => entry.2.map fun v => (entry.1, v)).filter (·.1 = k) = [] := by
  refine List.filter_eq_nil_iff.mpr fun pair member => ?_
  obtain ⟨entry, inside, here⟩ := List.mem_flatMap.mp member
  obtain ⟨v, _, rfl⟩ := List.mem_map.mp here
  simpa using absent entry inside

omit [Ord K] [Std.TransOrd K] [Std.LawfulEqOrd K] in
theorem filter_present {lists : List (K × List V)} (apart : lists.Pairwise fun a b => a.1 ≠ b.1) {k : K}
    {values : List V} (member : (k, values) ∈ lists) :
    (lists.flatMap fun entry => entry.2.map fun v => (entry.1, v)).filter (·.1 = k) =
      values.map fun v => (k, v) := by
  induction lists with
  | nil => cases member
  | cons entry rest ih =>
    obtain ⟨different, apart⟩ := List.pairwise_cons.mp apart
    rw [List.flatMap_cons, List.filter_append]
    obtain rfl | later := List.mem_cons.mp member
    · rw [filter_absent fun other inside => (different other inside).symm, List.append_nil,
        List.filter_eq_self.mpr (by simp)]
    · have none : (entry.2.map fun v => (entry.1, v)).filter (·.1 = k) = [] := by
        refine List.filter_eq_nil_iff.mpr fun pair here => ?_
        obtain ⟨v, _, rfl⟩ := List.mem_map.mp here
        simpa using different _ later
      rw [none, List.nil_append, ih apart later]

theorem filter_entries (lists : Std.TreeMap K (List V)) (k : K) :
    (entries lists).filter (·.1 = k) = (lists[k]?.getD []).map fun v => (k, v) := by
  cases found : lists[k]? with
  | none =>
    refine filter_absent fun entry inside same => ?_
    obtain ⟨l, values⟩ := entry
    subst same
    rw [Std.TreeMap.mem_toList_iff_getElem?_eq_some.mp inside] at found
    cases found
  | some values =>
    refine filter_present (lists.distinct_keys_toList.imp fun different same => different ?_)
      (Std.TreeMap.mem_toList_iff_getElem?_eq_some.mpr found)
    rw [same]
    exact Std.ReflCmp.compare_self

omit [Std.LawfulEqOrd K] [DecidableEq K] in
theorem entries_sorted (lists : Std.TreeMap K (List V)) :
    (entries lists).Pairwise fun a b => (compare a.1 b.1).isLE := by
  refine List.pairwise_flatMap.mpr ⟨fun entry _ => ?_,
    lists.ordered_keys_toList.imp fun {a b} below x first y second => ?_⟩
  · have self : compare entry.1 entry.1 = .eq := Std.ReflCmp.compare_self
    refine List.pairwise_map.mpr (List.pairwise_of_forall fun _ _ => ?_)
    rw [self]
    rfl
  · obtain ⟨_, _, rfl⟩ := List.mem_map.mp first
    obtain ⟨_, _, rfl⟩ := List.mem_map.mp second
    dsimp only
    rw [below]
    rfl

omit [Std.TransOrd K] [Std.LawfulEqOrd K] [DecidableEq K] in
theorem range_entries (lists : Std.TreeMap K (List V)) (inRange : K → Bool) :
    (lists.toList.filter fun entry => inRange entry.1).flatMap Prod.snd =
      ((entries lists).filter fun pair => inRange pair.1).map Prod.snd := by
  unfold entries
  induction lists.toList with
  | nil => rfl
  | cons entry rest ih =>
    rw [List.flatMap_cons, List.filter_append, List.map_append, ← ih]
    by_cases inside : inRange entry.1
    · have kept : (entry.2.map fun v => (entry.1, v)).filter (fun pair => inRange pair.1) =
          entry.2.map fun v => (entry.1, v) := by
        simp [inside]
      rw [List.filter_cons, if_pos inside, List.flatMap_cons, kept, List.map_map]
      simp
    · have dropped : (entry.2.map fun v => (entry.1, v)).filter (fun pair => inRange pair.1) = [] := by
        simp [inside]
      rw [List.filter_cons, if_neg inside, dropped]
      rfl

/-- The lists of a range of keys, one after the other. -/
theorem range_eq {lists : Std.TreeMap K (List V)} {pairs : List (K × V)} (h : Holds lists pairs)
    (inRange : K → Bool) :
    (lists.toList.filter fun entry => inRange entry.1).flatMap Prod.snd =
      ((pairs.filter fun pair => inRange pair.1).mergeSort fun a b => (compare a.1 b.1).isLE).map Prod.snd := by
  have trans (a b c : K × V) (first : (compare a.1 b.1).isLE) (second : (compare b.1 c.1).isLE) :
      (compare a.1 c.1).isLE := Std.TransCmp.isLE_trans first second
  have total (a b : K × V) : ((compare a.1 b.1).isLE || (compare b.1 a.1).isLE) = true := by
    have swapped : compare b.1 a.1 = (compare a.1 b.1).swap := Std.OrientedCmp.eq_swap
    rw [swapped]
    cases compare a.1 b.1 <;> rfl
  have own (k : K) : (entries lists).filter (·.1 = k) = pairs.filter (·.1 = k) := by
    rw [filter_entries, h k, List.map_map]
    refine (List.map_congr_left fun pair member => ?_).trans (List.map_id _)
    have same : pair.1 = k := by simpa using (List.mem_filter.mp member).2
    subst same
    rfl
  rw [range_entries]
  refine congrArg (List.map Prod.snd) (sorted_unique (r := fun a b : K => (compare a b).isLE) ?_ Prod.fst
    ((entries_sorted lists).filter _) (List.pairwise_mergeSort trans total _) fun k => ?_)
  · intro a b first second
    exact Std.LawfulEqCmp.eq_of_compare (Std.OrientedCmp.isLE_antisymm first second)
  · have stable := filter_mergeSort trans total (p := fun pair => pair.1 = k) (fun a b first second => by
      have same : a.1 = b.1 := (of_decide_eq_true first).trans (of_decide_eq_true second).symm
      have self : compare b.1 b.1 = .eq := Std.ReflCmp.compare_self
      rw [same, self]
      rfl) (pairs.filter fun pair => inRange pair.1)
    rw [stable, List.filter_comm, own, List.filter_comm]

end KeyedLists
