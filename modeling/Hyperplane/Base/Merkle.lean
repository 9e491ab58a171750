import Hyperplane.Lib.MerkleTree

/-! The Merkle tree of receipt inscriptions: its root, a proof for the leaf at an
index, and the check of a proof. The hash of a node is a parameter. -/
namespace Hyperplane
open MerkleTree

abbrev Hash := Vector UInt8 32

namespace Merkle

variable (nodeHash : Hash → Hash → Hash)

def computeRoot : List Hash → Hash
  | [] => Vector.replicate 32 0
  | [leaf] => leaf
  | leaves => (top nodeHash leaves).headD (Vector.replicate 32 0)

/-- What one pass over the pairs of a level, from pair i on, adds to the proof. -/
def pushSibling (idx : Nat) : Nat → List Hash → List Hash
  | i, left :: right :: rest =>
    (if i = idx / 2 then [if idx % 2 = 0 then right else left] else []) ++ pushSibling idx (i + 1) rest
  | _, _ => []

def generateProof (level : List Hash) (idx : Nat) : List Hash :=
  if 1 < level.length then
    pushSibling idx 0 level ++ generateProof (pairUp nodeHash level) (idx / 2)
  else []
termination_by level.length
decreasing_by
  rw [length_pairUp]
  omega

/-- The check does not know the side of a sibling: it is always hashed second. -/
def verifyProof (leaf : Hash) (proof : List Hash) (root : Hash) : Bool :=
  proof.foldl nodeHash leaf = root

theorem pushSibling_past {idx i : Nat} (past : idx / 2 < i) (level : List Hash) :
    pushSibling idx i level = [] := by
  induction level using pairUp.induct generalizing i with
  | case1 left right rest ih =>
    rw [pushSibling, if_neg (by omega), ih (by omega)]
    rfl
  | case2 rest short => rw [pushSibling.eq_2 idx i rest short]

/-- The pass that starts at pair i sees the level from index 2 * i on. -/
theorem pushSibling_eq (i : Nat) {level : List Hash} {index : Nat} (below : index < level.length) :
    pushSibling (2 * i + index) i level = (sibling level index).toList.map Step.sibling := by
  induction level using pairUp.induct generalizing i index with
  | case1 left right rest ih =>
    rcases index with _ | _ | index
    · rw [pushSibling, if_pos (by omega), if_pos (by omega), pushSibling_past (by omega)]
      rfl
    · rw [pushSibling, if_pos (by omega), if_neg (by omega), pushSibling_past (by omega)]
      rfl
    · have shift : 2 * i + (index + 2) = 2 * (i + 1) + index := by omega
      have later : index < rest.length := by simpa using below
      rw [pushSibling, if_neg (by omega), shift, ih (i + 1) later, sibling_add_two]
      rfl
  | case2 rest short =>
    rcases rest with _ | ⟨left, _ | ⟨right, rest⟩⟩
    · cases below
    · cases index with
      | zero => rfl
      | succ index => simp at below
    · exact absurd rfl (short left right rest)

theorem generateProof_eq {level : List Hash} {index : Nat} (below : index < level.length) :
    generateProof nodeHash level index = (path nodeHash level index).map Step.sibling := by
  induction level using level_induction nodeHash generalizing index with
  | short level short => rw [generateProof, if_neg short, path_of_short nodeHash short, List.map_nil]
  | long level long ih =>
    have pass := pushSibling_eq 0 below
    have above : index / 2 < (pairUp nodeHash level).length := by
      rw [length_pairUp]
      omega
    rw [Nat.mul_zero, Nat.zero_add] at pass
    rw [generateProof, if_pos long, path_of_long nodeHash long, List.map_append, ih above, pass]

theorem computeRoot_eq {leaves : List Hash} {index : Nat} (below : index < leaves.length) :
    computeRoot nodeHash leaves = (path nodeHash leaves index).foldl (Step.join nodeHash) leaves[index] := by
  have climbed := top_eq_path nodeHash (List.getElem?_eq_getElem below)
  match leaves with
  | [leaf] =>
    rw [top_of_short nodeHash (by simp)] at climbed
    exact List.head_eq_of_cons_eq climbed
  | a :: b :: rest =>
    have head : computeRoot nodeHash (a :: b :: rest) =
      (top nodeHash (a :: b :: rest)).headD (Vector.replicate 32 0) := rfl
    rw [head, climbed]
    rfl

/-- The proof of a leaf is accepted under the root of its tree. -/
def Complete (leaves : List Hash) (index : Nat) (below : index < leaves.length) : Prop :=
  verifyProof nodeHash leaves[index] (generateProof nodeHash leaves index)
    (computeRoot nodeHash leaves) = true

theorem complete_of_commutes {leaves : List Hash} {index : Nat} (below : index < leaves.length)
    (commutes : ∀ step ∈ path nodeHash leaves index, step.onLeft = true →
      ∀ a, nodeHash step.sibling a = nodeHash a step.sibling) :
    Complete nodeHash leaves index below := by
  unfold Complete verifyProof
  rw [generateProof_eq nodeHash below, computeRoot_eq nodeHash below, foldl_join nodeHash commutes]
  exact decide_eq_true rfl

/-- A hash that is its left argument tells the leaves apart. -/
theorem complete_fst {leaves : List Hash} {index : Nat} (below : index < leaves.length)
    (complete : Complete (fun a _ => a) leaves index below) : leaves.head? = some leaves[index] := by
  have root := head?_top_fst leaves
  rw [top_eq_path _ (List.getElem?_eq_getElem below), ← computeRoot_eq _ below] at root
  have kept (proof : List Hash) (leaf : Hash) : proof.foldl (fun a _ => a) leaf = leaf := by
    induction proof with
    | nil => rfl
    | cons _ rest ih => exact ih
  have checked := of_decide_eq_true complete
  rw [kept] at checked
  rw [← root, ← checked]
  rfl

/-- Two leaves are enough to see the order of the arguments. -/
theorem complete_pair_iff (a b : Hash) :
    Complete nodeHash [b, a] 1 (Nat.lt_add_one 1) ↔ nodeHash a b = nodeHash b a := by
  have path : path nodeHash [b, a] 1 = [Step.mk true b] := by
    rw [path_of_long nodeHash (by simp), path_of_short nodeHash (by simp [pairUp])]
    rfl
  unfold Complete verifyProof
  rw [generateProof_eq nodeHash (by simp), @computeRoot_eq nodeHash [b, a] 1 (by simp), path]
  exact decide_eq_true_iff

theorem exists_incomplete {count index : Nat} (inside : index < count) (later : index ≠ 0) :
    ∃ (nodeHash : Hash → Hash → Hash) (leaves : List Hash) (below : index < leaves.length),
      leaves.length = count ∧ ¬ Complete nodeHash leaves index below := by
  let zeros : List Hash := List.replicate count (Vector.replicate 32 0)
  have below : index < (zeros.set index (Vector.replicate 32 1)).length := by simpa [zeros] using inside
  refine ⟨fun a _ => a, zeros.set index (Vector.replicate 32 1), below, by simp [zeros], fun complete => ?_⟩
  have first := complete_fst below complete
  have positive : 0 < count := by omega
  rw [List.head?_eq_getElem?, List.getElem?_set_ne later, List.getElem?_replicate, if_pos positive,
    List.getElem_set_self] at first
  exact absurd (Option.some.inj first) (by decide)

/-- At the first index every proof is accepted, whatever the hash and the leaves;
at no other index is that so, however many leaves there are. And a hash makes
every proof accepted exactly when it is commutative. -/
theorem proofs_complete_iff (index : Nat) :
    (∀ count, index < count →
      ((∀ hash leaves, leaves.length = count → ∀ below, Complete hash leaves index below) ↔ index = 0)) ∧
    ((∀ leaves i below, Complete nodeHash leaves i below) ↔ ∀ a b, nodeHash a b = nodeHash b a) := by
  refine ⟨fun count inside => ⟨fun complete => ?_, ?_⟩, ⟨fun complete a b => ?_, ?_⟩⟩
  · by_contra later
    obtain ⟨hash, leaves, below, length, rejected⟩ := exists_incomplete inside later
    exact rejected (complete hash leaves length below)
  · rintro rfl hash leaves - below
    refine complete_of_commutes hash below fun step member left => ?_
    rw [path_zero hash leaves step member] at left
    cases left
  · exact (complete_pair_iff nodeHash a b).mp (complete [b, a] 1 (by simp))
  · intro commutative leaves i below
    exact complete_of_commutes nodeHash below fun step _ _ other => commutative step.sibling other

/-- The second of two leaves is hashed on the wrong side. -/
theorem second_leaf_rejected : ¬ Complete (fun a _ => a)
    [Vector.replicate 32 0, Vector.replicate 32 1] 1 (Nat.lt_add_one 1) := by
  rw [complete_pair_iff]
  decide

/-- With the sides taken from the positions every proof leads to the root, and no part of
it is left over. -/
theorem proof_is_sibling_path {leaves : List Hash} (index : Nat) (below : index < leaves.length) :
    ascend nodeHash index leaves.length leaves[index] (generateProof nodeHash leaves index) =
      some (computeRoot nodeHash leaves, []) := by
  rw [generateProof_eq nodeHash below, computeRoot_eq nodeHash below]
  exact ascend_path nodeHash (List.getElem?_eq_getElem below)

theorem proof_is_sibling_path_middle :
    let hash (a b : Hash) : Hash := Vector.zipWith (fun x y => 3 * x + y) a b
    let leaves : List Hash := [Vector.replicate 32 0, Vector.replicate 32 1, Vector.replicate 32 2]
    ascend hash 1 3 (Vector.replicate 32 1) (generateProof hash leaves 1) = some (computeRoot hash leaves, []) :=
  @proof_is_sibling_path (Vector.zipWith fun x y => 3 * x + y)
    [Vector.replicate 32 0, Vector.replicate 32 1, Vector.replicate 32 2] 1 (by decide)

end Merkle

end Hyperplane
