import Hyperplane.Base.Merkle

/-! What the check of a proof says about the value it accepts. Pairs of hashes are
more than hashes, so the node hash is ideal only as far as it is used: no pair
hashed by the check collides with a pair hashed for the root. -/
namespace Hyperplane
open MerkleTree

namespace Merkle

variable (nodeHash : Hash → Hash → Hash)

def CollisionFree (leaves : List Hash) (leaf : Hash) (proof : List Hash) : Prop :=
  ∀ p ∈ hashed nodeHash leaves, ∀ q ∈ climbed nodeHash leaf proof,
    nodeHash p.1 p.2 = nodeHash q.1 q.2 → p = q

instance (leaves : List Hash) (leaf : Hash) (proof : List Hash) :
    Decidable (CollisionFree nodeHash leaves leaf proof) :=
  @List.decidableBAll _ _ (fun _ => List.decidableBAll _ _) _

theorem head?_top (first : Hash) (rest : List Hash) :
    (top nodeHash (first :: rest)).head? = some (computeRoot nodeHash (first :: rest)) := by
  rw [top_eq_path nodeHash (List.getElem?_eq_getElem (Nat.zero_lt_succ _)),
    ← computeRoot_eq nodeHash (Nat.zero_lt_succ _)]
  rfl

theorem computeRoot_pair (a b : Hash) : computeRoot nodeHash [a, b] = nodeHash a b := by
  have head := head?_top nodeHash a [b]
  rw [top_of_long nodeHash (by simp), top_of_short nodeHash (by simp [pairUp])] at head
  exact (Option.some.inj head).symm

theorem verifyProof_iff {leaf root : Hash} {proof : List Hash} :
    verifyProof nodeHash leaf proof root = true ↔ proof.foldl nodeHash leaf = root :=
  decide_eq_true_iff

theorem verifyProof_append {leaf current root : Hash} {front proof : List Hash}
    (before : verifyProof nodeHash leaf front current = true) :
    verifyProof nodeHash leaf (front ++ proof) root = verifyProof nodeHash current proof root := by
  rw [verifyProof_iff] at before
  rw [verifyProof, verifyProof, List.foldl_append, before]

/-- Without a collision the accepted values are the first nodes of the levels, from
the first leaf to the root, and what the check hashes to the first leaf itself. -/
theorem accepted_values (first : Hash) (rest : List Hash) (leaf : Hash) :
    (∀ proof, CollisionFree nodeHash (first :: rest) leaf proof →
      verifyProof nodeHash leaf proof (computeRoot nodeHash (first :: rest)) = true →
      leaf ∈ leftmost nodeHash (first :: rest) ∨
        ∃ front, front <+: proof ∧ verifyProof nodeHash leaf front first = true) ∧
    ((leaf ∈ leftmost nodeHash (first :: rest) ∨ ∃ front, verifyProof nodeHash leaf front first = true) →
      ∃ proof, verifyProof nodeHash leaf proof (computeRoot nodeHash (first :: rest)) = true) := by
  refine ⟨fun proof free accepted => ?_, ?_⟩
  · rw [verifyProof_iff] at accepted
    have reached : some (proof.foldl nodeHash leaf) = (top nodeHash (first :: rest)).head? := by
      rw [head?_top, accepted]
    rcases climb_of_collisionFree nodeHash leaf free rfl reached with started | ⟨front, before, joined⟩
    · exact .inl started
    · exact .inr ⟨front, before, (verifyProof_iff nodeHash).mpr joined⟩
  · rintro (started | ⟨front, before⟩)
    · obtain ⟨proof, reached⟩ := climb_of_leftmost nodeHash started
      rw [head?_top] at reached
      exact ⟨proof, (verifyProof_iff nodeHash).mpr (Option.some.inj reached).symm⟩
    · obtain ⟨proof, reached⟩ := climb_of_leftmost nodeHash
        (head_mem_leftmost nodeHash (rfl : (first :: rest).head? = some first))
      rw [head?_top] at reached
      refine ⟨front ++ proof, ?_⟩
      rw [verifyProof_append nodeHash before]
      exact (verifyProof_iff nodeHash).mpr (Option.some.inj reached).symm

theorem accepted_values_pair :
    let nodeHash : Hash → Hash → Hash := Vector.zipWith fun left right => left + 2 * right + 1
    let leaf (b : UInt8) : Hash := Vector.replicate 32 b
    leaf 0 ∈ leftmost nodeHash [leaf 0, leaf 1] ∨
      ∃ front, front <+: [leaf 1] ∧ verifyProof nodeHash (leaf 0) front (leaf 0) = true := by
  intro nodeHash leaf
  have accepted : verifyProof nodeHash (leaf 0) [leaf 1] (computeRoot nodeHash [leaf 0, leaf 1]) = true := by
    rw [computeRoot_pair]
    decide +kernel
  exact (accepted_values nodeHash _ _ _).1 [leaf 1] (by decide +kernel) accepted

/-- The root of two leaves is accepted with an empty proof. -/
theorem root_accepted :
    let nodeHash : Hash → Hash → Hash := Vector.zipWith fun left right => left + 2 * right + 1
    let leaves := [Vector.replicate 32 0, Vector.replicate 32 1]
    let root := computeRoot nodeHash leaves
    CollisionFree nodeHash leaves root [] ∧ verifyProof nodeHash root [] root = true ∧ root ∉ leaves := by
  refine ⟨fun _ _ _ hashed => absurd hashed List.not_mem_nil, decide_eq_true rfl, ?_⟩
  rw [computeRoot_pair]
  decide +kernel

end Merkle

end Hyperplane
