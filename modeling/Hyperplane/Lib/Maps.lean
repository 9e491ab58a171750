import Mathlib.Algebra.Ring.Nat
import Mathlib.Data.Finset.Card
import Mathlib.Data.List.Dedup

/-! Lookups in ordered maps, and maps filled by inserting the items of a list
one after the other: of the items with one key the last one stays. -/
namespace Maps

theorem getElem?_insert_ne {K V : Type} [Ord K] [Std.TransOrd K] [Std.LawfulEqOrd K]
    (t : Std.TreeMap K V) {k a : K} (other : a ≠ k) (v : V) : (t.insert k v)[a]? = t[a]? := by
  rw [Std.TreeMap.getElem?_insert, if_neg]
  intro same
  exact other (Std.LawfulEqOrd.eq_of_compare same).symm

theorem getElem?_erase_ne {K V : Type} [Ord K] [Std.TransOrd K] [Std.LawfulEqOrd K]
    (t : Std.TreeMap K V) {k a : K} (other : a ≠ k) : (t.erase k)[a]? = t[a]? := by
  rw [Std.TreeMap.getElem?_erase, if_neg]
  intro same
  exact other (Std.LawfulEqOrd.eq_of_compare same).symm

theorem getElem?_insert_ite {K V : Type} [Ord K] [Std.TransOrd K] [Std.LawfulEqOrd K] [DecidableEq K]
    (t : Std.TreeMap K V) (k a : K) (v : V) : (t.insert k v)[a]? = if a = k then some v else t[a]? := by
  split
  · rename_i same
    rw [same, Std.TreeMap.getElem?_insert_self]
  · rename_i other
    exact getElem?_insert_ne t other v

theorem getElem?_erase_ite {K V : Type} [Ord K] [Std.TransOrd K] [Std.LawfulEqOrd K] [DecidableEq K]
    (t : Std.TreeMap K V) (k a : K) : (t.erase k)[a]? = if a = k then none else t[a]? := by
  split
  · rename_i same
    rw [same, Std.TreeMap.getElem?_erase_self]
  · rename_i other
    exact getElem?_erase_ne t other

section sums

variable {K V : Type} [Ord K]

/-- The sum of a number for every value in the map. -/
def sumOver (f : V → Nat) (t : Std.TreeMap K V) : Nat := (t.toList.map fun pair => f pair.2).sum

theorem sumOver_empty (f : V → Nat) : sumOver f (∅ : Std.TreeMap K V) = 0 := rfl

variable [Std.TransOrd K] [Std.LawfulEqOrd K]

theorem sumOver_congr (f : V → Nat) {t u : Std.TreeMap K V} (same : ∀ a : K, t[a]? = u[a]?) :
    sumOver f t = sumOver f u := by
  rw [sumOver, sumOver, Std.TreeMap.Equiv.toList_eq (.of_forall_constGet?_eq same)]

variable [DecidableEq K]

/-- The value under the key, counted apart from the others. -/
theorem sumOver_insert (f : V → Nat) (t : Std.TreeMap K V) (k : K) (v : V) :
    sumOver f (t.insert k v) + (t[k]?.map f).getD 0 = sumOver f t + f v := by
  have apart (w : V) : sumOver f (t.insert k w) =
      f w + ((t.toList.filter (¬k == ·.1)).map fun pair => f pair.2).sum := by
    rw [sumOver, (Std.TreeMap.toList_insert_perm.map _).sum_nat, List.map_cons, List.sum_cons]
  cases found : t[k]? with
  | none =>
    have all : t.toList.filter (¬k == ·.1) = t.toList := by
      refine List.filter_eq_self.mpr fun pair member => ?_
      have there := Std.TreeMap.mem_toList_iff_getElem?_eq_some.mp member
      have other : k ≠ pair.1 := by
        rintro rfl
        rw [found] at there
        cases there
      simpa using other
    rw [apart, all, sumOver, Option.map_none, Option.getD_none]
    omega
  | some w =>
    have same : sumOver f (t.insert k w) = sumOver f t := by
      refine sumOver_congr f fun a => ?_
      rw [getElem?_insert_ite]
      split
      · rename_i here
        rw [here, found]
      · rfl
    have before := apart w
    rw [same] at before
    rw [apart, before, Option.map_some, Option.getD_some]
    omega

/-- The value under the key, no longer counted. -/
theorem sumOver_erase (f : V → Nat) (t : Std.TreeMap K V) (k : K) :
    sumOver f (t.erase k) + (t[k]?.map f).getD 0 = sumOver f t := by
  cases found : t[k]? with
  | none =>
    refine sumOver_congr f fun a => ?_
    rw [getElem?_erase_ite]
    split
    · rename_i here
      rw [here, found]
    · rfl
  | some v =>
    have back : sumOver f ((t.erase k).insert k v) = sumOver f t := by
      refine sumOver_congr f fun a => ?_
      rw [getElem?_insert_ite]
      split
      · rename_i here
        rw [here, found]
      · rename_i other
        exact getElem?_erase_ne t other
    have count := sumOver_insert f (t.erase k) k v
    rw [Std.TreeMap.getElem?_erase_self, Option.map_none, Option.getD_none, back] at count
    exact count.symm

end sums

/-- The value under the key, or a new one, is changed in place. -/
def entry {K V : Type} [Ord K] (t : Std.TreeMap K V) (k : K) (new : V) (change : V → V) :
    Std.TreeMap K V :=
  t.insert k (change (t[k]?.getD new))

section entry

variable {K V : Type} [Ord K] [Std.TransOrd K]

theorem getElem?_entry_self (t : Std.TreeMap K V) (k : K) (new : V) (change : V → V) :
    (entry t k new change)[k]? = some (change (t[k]?.getD new)) :=
  Std.TreeMap.getElem?_insert_self

variable [Std.LawfulEqOrd K]

theorem getElem?_entry_ne (t : Std.TreeMap K V) {k a : K} (other : a ≠ k) (new : V)
    (change : V → V) : (entry t k new change)[a]? = t[a]? :=
  getElem?_insert_ne t other _

/-- What holds of every changed value and of the values that were there. -/
theorem entry_all {P : K → V → Prop} {t : Std.TreeMap K V} (h : ∀ a v, t[a]? = some v → P a v)
    (k : K) (new : V) {change : V → V} (changed : ∀ v, P k (change v)) :
    ∀ a v, (entry t k new change)[a]? = some v → P a v := by
  intro a v found
  by_cases same : a = k
  · subst same
    rw [getElem?_entry_self] at found
    exact Option.some.inj found ▸ changed _
  · rw [getElem?_entry_ne t same] at found
    exact h a v found

/-- A map without the key is smaller than a set of keys with it. -/
theorem size_lt_card [DecidableEq K] {t : Std.TreeMap K V} {keys : Finset K}
    (inside : ∀ (a : K) (v : V), t[a]? = some v → a ∈ keys) {k : K} (member : k ∈ keys)
    (absent : t[k]? = none) : t.size < keys.card := by
  have count : t.keys.toFinset.card = t.size := by
    rw [List.toFinset_card_of_nodup Std.TreeMap.nodup_keys, Std.TreeMap.length_keys]
  rw [← count]
  refine Finset.card_lt_card (Finset.ssubset_iff_subset_ne.mpr ⟨fun a among => ?_, ?_⟩)
  · have present := Std.TreeMap.mem_keys.mp (List.mem_toFinset.mp among)
    obtain ⟨v, found⟩ := Std.TreeMap.mem_iff_isSome_getElem?.mp present |> Option.isSome_iff_exists.mp
    exact inside a v found
  · intro same
    rw [← same, List.mem_toFinset, Std.TreeMap.mem_keys, Std.TreeMap.mem_iff_isSome_getElem?, absent] at member
    cases member

/-- As many as there are different keys. -/
theorem size_eq_dedup [DecidableEq K] {t : Std.TreeMap K V} {keys : List K}
    (same : ∀ a : K, (∃ v, t[a]? = some v) ↔ a ∈ keys) : t.size = keys.dedup.length := by
  have perm : t.keys.Perm keys.dedup := by
    refine (List.perm_ext_iff_of_nodup Std.TreeMap.nodup_keys keys.nodup_dedup).mpr fun a => ?_
    rw [Std.TreeMap.mem_keys, List.mem_dedup, ← same, Std.TreeMap.mem_iff_isSome_getElem?,
      Option.isSome_iff_exists]
  rw [← Std.TreeMap.length_keys, perm.length_eq]

end entry

variable {A K V : Type}

def insertAll [Ord K] (key : A → K) (val : A → V) (t : Std.TreeMap K V) (items : List A) :
    Std.TreeMap K V :=
  items.foldl (fun t a => t.insert (key a) (val a)) t

/-- The item is in the list and none after it has its key. -/
def Last (key : A → K) (items : List A) (a : A) : Prop :=
  ∃ before after, items = before ++ a :: after ∧ ∀ b ∈ after, key b ≠ key a

theorem last_cons_iff {key : A → K} {items : List A} {a b : A} :
    Last key (b :: items) a ↔ Last key items a ∨ (a = b ∧ ∀ c ∈ items, key c ≠ key a) := by
  constructor
  · rintro ⟨before, after, split, none⟩
    cases before with
    | nil =>
      cases split
      exact .inr ⟨rfl, none⟩
    | cons c before =>
      cases split
      exact .inl ⟨before, after, rfl, none⟩
  · rintro (⟨before, after, rfl, none⟩ | ⟨rfl, none⟩)
    · exact ⟨b :: before, after, rfl, none⟩
    · exact ⟨[], items, rfl, none⟩

theorem exists_last {key : A → K} {items : List A} {k : K} (present : ∃ a ∈ items, key a = k) :
    ∃ a, Last key items a ∧ key a = k := by
  induction items with
  | nil =>
    obtain ⟨a, member, _⟩ := present
    cases member
  | cons b rest ih =>
    by_cases later : ∃ a ∈ rest, key a = k
    · obtain ⟨a, last, same⟩ := ih later
      exact ⟨a, last_cons_iff.mpr (.inl last), same⟩
    · obtain ⟨a, member, rfl⟩ := present
      rcases List.mem_cons.mp member with rfl | among
      · exact ⟨a, last_cons_iff.mpr (.inr ⟨rfl, fun c below same => later ⟨c, below, same⟩⟩), rfl⟩
      · exact absurd ⟨a, among, rfl⟩ later

/-- An item that is the last of its key is in the list. -/
theorem Last.mem {key : A → K} {items : List A} {a : A} (last : Last key items a) : a ∈ items := by
  obtain ⟨before, after, rfl, _⟩ := last
  exact List.mem_append_right before (List.mem_cons_self ..)

theorem last_unique {key : A → K} {items : List A} {a b : A} (first : Last key items a)
    (second : Last key items b) (same : key a = key b) : a = b := by
  induction items with
  | nil =>
    obtain ⟨before, after, impossible, _⟩ := first
    simp at impossible
  | cons c rest ih =>
    rcases last_cons_iff.mp first with among | ⟨rfl, none⟩
    · rcases last_cons_iff.mp second with here | ⟨rfl, absent⟩
      · exact ih among here
      · obtain ⟨before, after, rfl, _⟩ := among
        exact absurd same (absent a (by simp))
    · rcases last_cons_iff.mp second with here | ⟨rfl, _⟩
      · obtain ⟨before, after, rfl, _⟩ := here
        exact absurd same.symm (none b (by simp))
      · rfl

theorem last_map_iff {B : Type} {f : A → B} {key : B → K} {items : List A} {b : B} :
    Last key (items.map f) b ↔ ∃ a, Last (fun a => key (f a)) items a ∧ f a = b := by
  constructor
  · rintro ⟨before, after, split, none⟩
    obtain ⟨first, rest, rfl, rfl, mapped⟩ := List.map_eq_append_iff.mp split
    obtain ⟨a, later, rfl, rfl, rfl⟩ := List.map_eq_cons_iff.mp mapped
    exact ⟨a, ⟨first, later, rfl, fun c member => none (f c) (List.mem_map_of_mem member)⟩, rfl⟩
  · rintro ⟨a, ⟨before, after, rfl, none⟩, rfl⟩
    refine ⟨before.map f, after.map f, by rw [List.map_append, List.map_cons], ?_⟩
    exact List.forall_mem_map.mpr none

section lookup

variable [Ord K] [Std.TransOrd K] [Std.LawfulEqOrd K]

theorem insertAll_absent {key : A → K} {items : List A} {k : K} (absent : ∀ a ∈ items, key a ≠ k)
    (val : A → V) (t : Std.TreeMap K V) : (insertAll key val t items)[k]? = t[k]? := by
  induction items generalizing t with
  | nil => rfl
  | cons b rest ih =>
    have other : k ≠ key b := (absent b (by simp)).symm
    calc (insertAll key val (t.insert (key b) (val b)) rest)[k]?
        = (t.insert (key b) (val b))[k]? :=
          ih (fun a member => absent a (List.mem_cons_of_mem b member)) _
      _ = t[k]? := getElem?_insert_ne t other (val b)

/-- A key of the list is mapped to the last item that has it. -/
theorem insertAll_last {key : A → K} {items : List A} {a : A} (last : Last key items a)
    (val : A → V) (t : Std.TreeMap K V) : (insertAll key val t items)[key a]? = some (val a) := by
  obtain ⟨before, after, rfl, none⟩ := last
  have split : insertAll key val t (before ++ a :: after) =
      insertAll key val ((insertAll key val t before).insert (key a) (val a)) after := by
    simp [insertAll]
  rw [split, insertAll_absent none, Std.TreeMap.getElem?_insert_self]

end lookup

end Maps
