import Mathlib.Data.List.Basic

/-! Trees of hashes built level by level, an odd node at the end being carried
up as it is. A step of a path says on which side its sibling stands. -/
namespace MerkleTree

variable {H : Type} (node : H → H → H)

def pairUp : List H → List H
  | a :: b :: rest => node a b :: pairUp rest
  | rest => rest

theorem length_pairUp (level : List H) : (pairUp node level).length = (level.length + 1) / 2 := by
  induction level using pairUp.induct with
  | case1 a b rest ih =>
    simp only [pairUp, List.length_cons, ih]
    omega
  | case2 rest short =>
    match rest with
    | [] => simp [pairUp]
    | [a] => simp [pairUp]
    | a :: b :: rest => exact absurd rfl (short a b rest)

/-- The level at which one node is left. -/
def top (level : List H) : List H :=
  if 1 < level.length then top (pairUp node level) else level
termination_by level.length
decreasing_by
  rw [length_pairUp]
  omega

structure Step (H : Type) where
  onLeft : Bool
  sibling : H

def Step.join (current : H) (step : Step H) : H :=
  if step.onLeft then node step.sibling current else node current step.sibling

/-- The sibling of a node in its level, which the last one may lack. -/
def sibling (level : List H) (index : Nat) : Option (Step H) :=
  if index % 2 = 0 then level[index + 1]?.map (Step.mk false)
  else level[index - 1]?.map (Step.mk true)

/-- The siblings on the way from a node to the root. -/
def path (level : List H) (index : Nat) : List (Step H) :=
  if 1 < level.length then (sibling level index).toList ++ path (pairUp node level) (index / 2) else []
termination_by level.length
decreasing_by
  rw [length_pairUp]
  omega

theorem top_of_long {level : List H} (long : 1 < level.length) :
    top node level = top node (pairUp node level) := by
  rw [top, if_pos long]

theorem top_of_short {level : List H} (short : ¬ 1 < level.length) : top node level = level := by
  rw [top, if_neg short]

theorem path_of_long {level : List H} (long : 1 < level.length) (index : Nat) :
    path node level index = (sibling level index).toList ++ path node (pairUp node level) (index / 2) := by
  rw [path, if_pos long]

theorem path_of_short {level : List H} (short : ¬ 1 < level.length) (index : Nat) :
    path node level index = [] := by
  rw [path, if_neg short]

/-- What holds of short levels and is inherited from the next level holds of all. -/
theorem level_induction {P : List H → Prop} (short : ∀ level, ¬ 1 < level.length → P level)
    (long : ∀ level, 1 < level.length → P (pairUp node level) → P level) (level : List H) :
    P level := by
  induction level using top.induct node with
  | case1 level above ih => exact long level above ih
  | case2 level below => exact short level below

theorem sibling_add_two (a b : H) (level : List H) (index : Nat) :
    sibling (a :: b :: level) (index + 2) = sibling level index := by
  unfold sibling
  rcases Nat.mod_two_eq_zero_or_one index with even | odd
  · rw [if_pos (by omega), if_pos even]
    rfl
  · obtain ⟨k, rfl⟩ : ∃ k, index = k + 1 := ⟨index - 1, by omega⟩
    rw [if_neg (by omega), if_neg (by omega)]
    rfl

/-- A node joined with its sibling, if it has one, is the node above. -/
theorem getElem?_pairUp {level : List H} {index : Nat} {own : H} (here : level[index]? = some own) :
    (pairUp node level)[index / 2]? =
      some ((sibling level index).toList.foldl (Step.join node) own) := by
  induction level using pairUp.induct generalizing index with
  | case1 a b rest ih =>
    match index with
    | 0 =>
      cases here
      rfl
    | 1 =>
      cases here
      rfl
    | index + 2 =>
      have below : rest[index]? = some own := here
      have half : (index + 2) / 2 = index / 2 + 1 := by omega
      rw [half, sibling_add_two]
      exact ih below
  | case2 rest short =>
    match rest with
    | [] => cases here
    | [a] =>
      match index with
      | 0 =>
        cases here
        rfl
      | index + 1 => cases here
    | a :: b :: rest => exact absurd rfl (short a b rest)

/-- Joined on the sides they stand on, the siblings of a node lead to the root. -/
theorem top_eq_path {level : List H} {index : Nat} {own : H} (here : level[index]? = some own) :
    top node level = [(path node level index).foldl (Step.join node) own] := by
  induction level using level_induction node generalizing index own with
  | short level short =>
    rw [top_of_short node short, path_of_short node short]
    match level, index with
    | [], _ => cases here
    | [a], 0 =>
      cases here
      rfl
    | [a], index + 1 => cases here
    | a :: b :: rest, _ => simp at short
  | long level long ih =>
    rw [top_of_long node long, path_of_long node long, List.foldl_append]
    exact ih (getElem?_pairUp node here)

/-- The way up from position p of a level of n nodes that knows the sides by the position:
where it ends, and what it leaves of the siblings. -/
def ascend (p n : Nat) (current : H) (siblings : List H) : Option (H × List H) :=
  if 1 < n then
    if p % 2 = 0 ∧ n ≤ p + 1 then ascend (p / 2) ((n + 1) / 2) current siblings
    else match siblings with
      | [] => none
      | other :: rest =>
        ascend (p / 2) ((n + 1) / 2) (if p % 2 = 0 then node current other else node other current) rest
  else some (current, siblings)
termination_by n

/-- One level of the way up, with the sibling that stands there. -/
theorem ascend_level {level : List H} (long : 1 < level.length) {index : Nat}
    (below : index < level.length) (own : H) (rest : List H) :
    ascend node index level.length own ((sibling level index).toList.map Step.sibling ++ rest) =
      ascend node (index / 2) ((level.length + 1) / 2)
        ((sibling level index).toList.foldl (Step.join node) own) rest := by
  rw [ascend.eq_def, if_pos long]
  rcases Nat.mod_two_eq_zero_or_one index with even | odd
  · by_cases last : level.length ≤ index + 1
    · have alone : sibling level index = none := by
        rw [sibling, if_pos even, List.getElem?_eq_none last]
        rfl
      rw [if_pos ⟨even, last⟩, alone]
      rfl
    · have paired : sibling level index = some ⟨false, level[index + 1]⟩ := by
        rw [sibling, if_pos even, List.getElem?_eq_getElem (by omega)]
        rfl
      rw [if_neg fun both => last both.2, paired]
      simp only [Option.toList_some, List.map_cons, List.map_nil, List.singleton_append, if_pos even]
      rfl
  · have paired : sibling level index = some ⟨true, level[index - 1]⟩ := by
      rw [sibling, if_neg (by omega), List.getElem?_eq_getElem (by omega)]
      rfl
    rw [if_neg fun both => by omega, paired]
    simp only [Option.toList_some, List.map_cons, List.map_nil, List.singleton_append,
      if_neg (show ¬ index % 2 = 0 by omega)]
    rfl

/-- The siblings of a path are all used up on the way, which ends where the path does. -/
theorem ascend_path {level : List H} {index : Nat} {own : H} (here : level[index]? = some own) :
    ascend node index level.length own ((path node level index).map Step.sibling) =
      some ((path node level index).foldl (Step.join node) own, []) := by
  induction level using level_induction node generalizing index own with
  | short level short =>
    rw [path_of_short node short, ascend.eq_def, if_neg short]
    rfl
  | long level long ih =>
    obtain ⟨below, _⟩ := List.getElem?_eq_some_iff.mp here
    have above := ih (getElem?_pairUp node here)
    rw [length_pairUp] at above
    rw [path_of_long node long, List.map_append, ascend_level node long below, above, List.foldl_append]

/-- The siblings of the first node all stand to its right. -/
theorem path_zero (level : List H) : ∀ step ∈ path node level 0, step.onLeft = false := by
  induction level using level_induction node with
  | short level short => simp [path_of_short node short]
  | long level long ih =>
    rw [path_of_long node long]
    intro step member
    rcases List.mem_append.mp member with own | above
    · obtain ⟨_, _, rfl⟩ : ∃ a, level[1]? = some a ∧ Step.mk false a = step := by
        simpa [sibling] using own
      rfl
    · exact ih step above

/-- Ignoring the sides changes nothing where the order does not matter. -/
theorem foldl_join {steps : List (Step H)}
    (commutes : ∀ step ∈ steps, step.onLeft = true → ∀ a, node step.sibling a = node a step.sibling)
    (own : H) : steps.foldl (Step.join node) own = (steps.map Step.sibling).foldl node own := by
  induction steps generalizing own with
  | nil => rfl
  | cons step rest ih =>
    have joined : Step.join node own step = node own step.sibling := by
      unfold Step.join
      split
      · rename_i left
        exact commutes step (by simp) left own
      · rfl
    rw [List.foldl_cons, joined, ih (fun later member => commutes later (List.mem_cons_of_mem _ member))]
    rfl

/-- Under the projection to the left the root is the first leaf. -/
theorem head?_top_fst (level : List H) : (top (fun a _ => a) level).head? = level.head? := by
  induction level using level_induction (fun a _ => a) with
  | short level short => rw [top_of_short _ short]
  | long level long ih =>
    rw [top_of_long _ long, ih]
    match level with
    | [] => rfl
    | [a] => rfl
    | a :: b :: rest => rfl

/-! A climb that ignores the sides hashes the current node first. -/

def pairs : List H → List (H × H)
  | a :: b :: rest => (a, b) :: pairs rest
  | _ => []

/-- The pairs hashed on the way from a level to the top. -/
def hashed (level : List H) : List (H × H) :=
  if 1 < level.length then pairs level ++ hashed (pairUp node level) else []
termination_by level.length
decreasing_by
  rw [length_pairUp]
  omega

/-- The first nodes of a level and of all the levels above it. -/
def leftmost (level : List H) : List H :=
  level.head?.toList ++ if 1 < level.length then leftmost (pairUp node level) else []
termination_by level.length
decreasing_by
  rw [length_pairUp]
  omega

/-- The pairs hashed by a climb. -/
def climbed (current : H) : List H → List (H × H)
  | [] => []
  | sibling :: rest => (current, sibling) :: climbed (node current sibling) rest

theorem leftmost_of_long {level : List H} (long : 1 < level.length) :
    leftmost node level = level.head?.toList ++ leftmost node (pairUp node level) := by
  rw [leftmost, if_pos long]

theorem leftmost_of_short {level : List H} (short : ¬ 1 < level.length) :
    leftmost node level = level.head?.toList := by
  rw [leftmost, if_neg short, List.append_nil]

theorem hashed_of_long {level : List H} (long : 1 < level.length) :
    hashed node level = pairs level ++ hashed node (pairUp node level) := by
  rw [hashed, if_pos long]

theorem head_mem_leftmost {level : List H} {own : H} (first : level.head? = some own) :
    own ∈ leftmost node level := by
  rw [leftmost, first]
  simp

/-- The last pair of a climb is its last sibling with what was hashed before. -/
theorem mem_climbed_append (current : H) (front rest : List H) (sibling : H) :
    (front.foldl node current, sibling) ∈ climbed node current (front ++ sibling :: rest) := by
  induction front generalizing current with
  | nil => exact List.mem_cons_self
  | cons next front ih => exact List.mem_cons_of_mem _ (ih (node current next))

/-- Without a collision a climb that ends at the top has started at one of the first
nodes or has come by the first node of the level. -/
theorem climb_of_collisionFree {level : List H} {own : H} {proof : List H} (current : H)
    (free : ∀ p ∈ hashed node level, ∀ q ∈ climbed node current proof,
      node p.1 p.2 = node q.1 q.2 → p = q)
    (first : level.head? = some own)
    (reached : some (proof.foldl node current) = (top node level).head?) :
    current ∈ leftmost node level ∨ ∃ front, front <+: proof ∧ front.foldl node current = own := by
  induction level using level_induction node generalizing own with
  | short level short =>
    rw [top_of_short node short, first] at reached
    exact .inr ⟨proof, List.prefix_rfl, Option.some.inj reached⟩
  | long level long ih =>
    match level, first, long with
    | a :: b :: rest, rfl, long =>
      rw [hashed_of_long node long] at free
      rw [top_of_long node long] at reached
      rw [leftmost_of_long node long]
      have above := ih (fun p member => free p (List.mem_append_right _ member))
        (rfl : (pairUp node (a :: b :: rest)).head? = some (node a b)) reached
      rcases above with started | ⟨front, ⟨later, split⟩, joined⟩
      · exact .inl (List.mem_append_right _ started)
      · rcases List.eq_nil_or_concat front with rfl | ⟨front, sibling, rfl⟩
        · refine .inl (List.mem_append_right _ ?_)
          exact head_mem_leftmost node (congrArg some joined.symm)
        · -- the last step of the climb so far has hashed the pair (a, b)
          rw [List.concat_eq_append, List.foldl_append] at joined
          rw [List.concat_eq_append, List.append_assoc, List.singleton_append] at split
          have last : (front.foldl node current, sibling) ∈ climbed node current proof :=
            split ▸ mem_climbed_append node current front later sibling
          have same := free (a, b) (List.mem_append_left _ List.mem_cons_self) _ last joined.symm
          exact .inr ⟨front, ⟨sibling :: later, split⟩, (congrArg Prod.fst same).symm⟩

theorem climb_of_head {level : List H} {own : H} (first : level.head? = some own) :
    (top node level).head? = some (((path node level 0).map Step.sibling).foldl node own) := by
  rw [top_eq_path node (List.head?_eq_getElem?.symm.trans first), List.head?_cons, foldl_join node]
  intro step member left
  rw [path_zero node level step member] at left
  cases left

/-- From each of the first nodes the top can be reached. -/
theorem climb_of_leftmost {level : List H} {current : H} (member : current ∈ leftmost node level) :
    ∃ proof : List H, (top node level).head? = some (proof.foldl node current) := by
  induction level using level_induction node with
  | short level short =>
    rw [leftmost_of_short node short, Option.mem_toList] at member
    exact ⟨_, climb_of_head node member⟩
  | long level long ih =>
    rw [leftmost_of_long node long, List.mem_append, Option.mem_toList] at member
    rcases member with own | above
    · exact ⟨_, climb_of_head node own⟩
    · rw [top_of_long node long]
      exact ih above

end MerkleTree
