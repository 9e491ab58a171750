import Hyperplane.Lib.MerkleTree

/-! The tree of which a Merkle root is the hash. Its data in order are what the leaves
were made of, so what a root says of them is what a hash says of its tree. -/
namespace MerkleTree

variable {H G : Type} {node : H → H → H} {other : G → G → G} {f : H → G}

theorem map_pairUp (hom : ∀ a b, f (node a b) = other (f a) (f b)) (level : List H) :
    (pairUp node level).map f = pairUp other (level.map f) := by
  induction level using pairUp.induct with
  | case1 a b rest ih => simp only [pairUp, List.map_cons, hom, ih]
  | case2 rest short =>
    cases rest with
    | nil => rfl
    | cons a rest =>
      cases rest with
      | nil => rfl
      | cons b rest => exact absurd rfl (short a b rest)

theorem map_top (hom : ∀ a b, f (node a b) = other (f a) (f b)) (level : List H) :
    (top node level).map f = top other (level.map f) := by
  induction level using level_induction node with
  | short level short => rw [top_of_short node short, top_of_short other (by rwa [List.length_map])]
  | long level long ih =>
    rw [top_of_long node long, top_of_long other (by rwa [List.length_map]), ih, map_pairUp hom]

theorem top_singleton {level : List H} (occupied : level ≠ []) : ∃ root, top node level = [root] := by
  obtain ⟨first, rest, rfl⟩ := List.exists_cons_of_ne_nil occupied
  exact ⟨_, top_eq_path node (List.getElem?_eq_getElem (Nat.zero_lt_succ _))⟩

inductive HashTree (D : Type) where
  | leaf (data : D)
  | fork (left right : HashTree D)
  deriving DecidableEq

namespace HashTree

def data {D : Type} : HashTree D → List D
  | leaf d => [d]
  | fork left right => left.data ++ right.data

def shape {D : Type} : HashTree D → HashTree Unit
  | leaf _ => leaf ()
  | fork left right => fork left.shape right.shape

def ofLeaves {D : Type} (leaves : List D) : List (HashTree D) := top fork (leaves.map leaf)

theorem data_pairUp {D : Type} (level : List (HashTree D)) :
    (pairUp fork level).flatMap data = level.flatMap data := by
  induction level using pairUp.induct with
  | case1 a b rest ih => simp only [pairUp, List.flatMap_cons, data, ih, List.append_assoc]
  | case2 rest short =>
    cases rest with
    | nil => rfl
    | cons a rest =>
      cases rest with
      | nil => rfl
      | cons b rest => exact absurd rfl (short a b rest)

theorem data_top {D : Type} (level : List (HashTree D)) : (top fork level).flatMap data = level.flatMap data := by
  induction level using level_induction fork with
  | short level short => rw [top_of_short fork short]
  | long level long ih => rw [top_of_long fork long, ih, data_pairUp]

theorem data_ofLeaves {D : Type} (leaves : List D) : (ofLeaves leaves).flatMap data = leaves := by
  rw [ofLeaves, data_top, List.flatMap_map]
  exact List.flatMap_singleton' leaves

theorem shape_ofLeaves {D : Type} (leaves : List D) :
    (ofLeaves leaves).map shape = ofLeaves (List.replicate leaves.length ()) := by
  have mapped : (top fork (leaves.map leaf)).map shape = top fork ((leaves.map leaf).map shape) :=
    map_top (fun _ _ => rfl) _
  rw [ofLeaves, mapped, ofLeaves, List.map_map, List.map_replicate]
  exact congrArg _ List.map_const'

section digest

variable {I : Type} (digest : I → H) (join : H → H → I)

def hash : HashTree I → H
  | leaf d => digest d
  | fork left right => digest (join left.hash right.hash)

/-- All that is hashed for the root. -/
def inputs : HashTree I → List I
  | leaf d => [d]
  | fork left right => join (left.hash digest join) (right.hash digest join) :: (left.inputs ++ right.inputs)

theorem hash_ofLeaves (leaves : List I) : (ofLeaves leaves).map (hash digest join) =
    top (fun a b => digest (join a b)) (leaves.map digest) := by
  have mapped : (top fork (leaves.map leaf)).map (hash digest join) =
      top (fun a b => digest (join a b)) ((leaves.map leaf).map (hash digest join)) :=
    map_top (fun _ _ => rfl) _
  rw [ofLeaves, mapped, List.map_map]
  rfl

/-- No data of one tree is, where the other has a node, two hashes joined. -/
def Told : HashTree I → HashTree I → Prop
  | leaf _, leaf _ => True
  | leaf d, fork _ _ => ∀ a b, join a b ≠ d
  | fork _ _, leaf d => ∀ a b, join a b ≠ d
  | fork a b, fork c d => Told a c ∧ Told b d

theorem told_of_shape {t u : HashTree I} (same : t.shape = u.shape) : Told join t u := by
  induction t generalizing u with
  | leaf d =>
    cases u with
    | leaf e => trivial
    | fork left right => cases same
  | fork a b left right =>
    cases u with
    | leaf e => cases same
    | fork c d =>
      injection same with here there
      exact ⟨left here, right there⟩

theorem told_of_data {t u : HashTree I} (first : ∀ d ∈ t.data, ∀ a b, join a b ≠ d)
    (second : ∀ d ∈ u.data, ∀ a b, join a b ≠ d) : Told join t u := by
  induction t generalizing u with
  | leaf d =>
    cases u with
    | leaf e => trivial
    | fork left right => exact first d List.mem_cons_self
  | fork a b left right =>
    cases u with
    | leaf e => exact second e List.mem_cons_self
    | fork c d =>
      exact ⟨left (fun x inside => first x (List.mem_append_left _ inside))
          (fun x inside => second x (List.mem_append_left _ inside)),
        right (fun x inside => first x (List.mem_append_right _ inside))
          (fun x inside => second x (List.mem_append_right _ inside))⟩

/-- Without a collision between what is hashed for the two, trees with one hash are one tree. -/
theorem eq_of_hash (joined : ∀ a b c d, join a b = join c d → a = c ∧ b = d) {t u : HashTree I}
    (free : ∀ x ∈ t.inputs digest join, ∀ y ∈ u.inputs digest join, digest x = digest y → x = y)
    (told : Told join t u) (same : t.hash digest join = u.hash digest join) : t = u := by
  induction t generalizing u with
  | leaf d =>
    cases u with
    | leaf e => rw [free d List.mem_cons_self e List.mem_cons_self same]
    | fork left right => exact absurd (free d List.mem_cons_self _ List.mem_cons_self same).symm (told _ _)
  | fork a b left right =>
    cases u with
    | leaf e => exact absurd (free _ List.mem_cons_self e List.mem_cons_self same) (told _ _)
    | fork c d =>
      obtain ⟨here, there⟩ := joined _ _ _ _ (free _ List.mem_cons_self _ List.mem_cons_self same)
      rw [left (fun x inside y within => free x (List.mem_cons_of_mem _ (List.mem_append_left _ inside))
          y (List.mem_cons_of_mem _ (List.mem_append_left _ within))) told.1 here,
        right (fun x inside y within => free x (List.mem_cons_of_mem _ (List.mem_append_right _ inside))
          y (List.mem_cons_of_mem _ (List.mem_append_right _ within))) told.2 there]

end digest

end HashTree

end MerkleTree
