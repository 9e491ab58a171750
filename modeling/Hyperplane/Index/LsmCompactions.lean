import Hyperplane.Index.LsmInterleaving

/-! What several compactions at once do to the ids inserted. -/
namespace Hyperplane
open Transition Threads

namespace LsmShared

variable {S : Type} [IdUnion S]

/-- The id is in the base, in a delta, or in the copy of a compaction that has
still to write the base. -/
def Held (t : Pool (LsmShared S) (LsmPhase S)) (id : UInt32) : Prop :=
  t.shared.bitmap.inBase id = true ∨ t.shared.bitmap.inDeltas id = true ∨
    ∃ p ∈ t.phases, p.carries id = true

/-- No inserted id is lost, and when all threads rest a query shows exactly the
inserted ids. -/
structure Conserved (t : Pool (LsmShared S) (LsmPhase S)) : Prop where
  held : ∀ id ∈ t.shared.inserted, Held t id
  settled : t.Settled program →
    ∀ id : UInt32, IdSet.contains t.shared.bitmap.query id.toNat = true ↔ id ∈ t.shared.inserted

/-- The condition on a step: a compaction that writes the base finds there only
ids that it has in its copy, or that are in a delta or in the copy of another
compaction. -/
def OverwritesNothing (t : Pool (LsmShared S) (LsmPhase S)) (a : Move LsmOperation)
    (_ : Pool (LsmShared S) (LsmPhase S)) : Prop :=
  match a with
  | .call _ _ => True
  | .advance i => match t.phases[i]? with
    | some (.compacting (.writing _ newBase)) => ∀ id : UInt32, t.shared.bitmap.inBase id = true →
      IdSet.contains newBase id.toNat = true ∨ t.shared.bitmap.inDeltas id = true ∨
        ∃ j p, j ≠ i ∧ t.phases[j]? = some p ∧ p.carries id = true
    | _ => True

/-- Nothing is anywhere that was not inserted. -/
structure Known (t : Pool (LsmShared S) (LsmPhase S)) : Prop where
  base : ∀ id, t.shared.bitmap.inBase id = true → id ∈ t.shared.inserted
  deltas : ∀ id, t.shared.bitmap.inDeltas id = true → id ∈ t.shared.inserted
  carried : ∀ p ∈ t.phases, ∀ id, p.carries id = true → id ∈ t.shared.inserted

theorem start_known (maxDeltas maxDeltaSize threads : Nat) :
    Known (start maxDeltas maxDeltaSize threads : Pool (LsmShared S) (LsmPhase S)) where
  base := by simp [start, LsmBitmap.withConfig, LsmBitmap.inBase, IdSet.contains_empty]
  deltas := by simp [start, LsmBitmap.withConfig, LsmBitmap.inDeltas, IdSet.contains_empty]
  carried p member := by
    rw [List.eq_of_mem_replicate member]
    intro id carries
    cases carries

theorem copy_enter (op : LsmOperation) (s : LsmShared S) : (program.enter op s).copy = none := by
  cases op <;> rfl

theorem carries_merge {s : LsmShared S} {background : Bool} {newBase : S} {id : UInt32} :
    (LsmPhase.compacting (.writing background (s.bitmap.mergeDeltas newBase))).carries id = true ↔
      IdSet.contains newBase id.toNat = true ∨ s.bitmap.inDeltas id = true :=
  s.bitmap.contains_mergeDeltas newBase id

theorem Known.step {t u : Pool (LsmShared S) (LsmPhase S)} (h : Known t) {a : Move LsmOperation}
    (taken : program.step t a = some u) : Known u := by
  cases a with
  | call i op =>
    obtain ⟨p, _, _, rfl⟩ := Program.step_call.mp taken
    refine ⟨h.base, h.deltas, forall_set h.carried fun id carries => ?_⟩
    change (enter op t.shared).carries id = true at carries
    cases (LsmPhase.not_carries (copy_enter op t.shared) id).symm.trans carries
  | advance i =>
    obtain ⟨p, q, s, started, here, moved, rfl⟩ := Program.step_advance.mp taken
    have mine := h.carried p (List.mem_of_getElem? here)
    rcases advance_cases moved with quiet | ⟨rfl, ⟨id, rfl, rfl, rfl⟩ | ⟨background, rfl, rfl, rfl⟩ |
      ⟨background, newBase, rfl, rfl, rfl⟩ | ⟨background, newBase, rfl, rfl, rfl⟩⟩
    · refine ⟨?_, ?_, forall_moved ?_ ?_ ?_⟩
      · intro id inside
        exact quiet.inserted ▸ h.base id (quiet.base id ▸ inside)
      · intro id inside
        exact quiet.inserted ▸ h.deltas id (quiet.deltas id ▸ inside)
      · intro r old id carries
        exact quiet.inserted ▸ h.carried r old id carries
      · intro id carries
        rw [LsmPhase.not_carries quiet.after] at carries
        cases carries
      · intro r new id carries
        rw [LsmPhase.not_carries (quiet.spawned r new)] at carries
        cases carries
    · refine ⟨?_, ?_, forall_moved ?_ ?_ (by simp)⟩
      · intro other inside
        exact List.mem_append_left _ (h.base other inside)
      · intro other inside
        rcases (t.shared.bitmap.inDeltas_addDelta id other).mp inside with rfl | old
        · exact List.mem_append_right _ (List.mem_singleton.mpr rfl)
        · exact List.mem_append_left _ (h.deltas other old)
      · intro r old other carries
        exact List.mem_append_left _ (h.carried r old other carries)
      · intro other carries
        cases carries
    · exact ⟨h.base, h.deltas, forall_moved h.carried h.base (by simp)⟩
    · refine ⟨h.base, ?_, forall_moved h.carried ?_ (by simp)⟩
      · intro id inside
        rw [LsmBitmap.inDeltas_clearDeltas] at inside
        cases inside
      · intro id carries
        rcases carries_merge.mp carries with old | delta
        · exact mine id old
        · exact h.deltas id delta
    · refine ⟨mine, h.deltas, forall_moved h.carried ?_ (by simp)⟩
      intro id carries
      cases carries

theorem Held.step {t u : Pool (LsmShared S) (LsmPhase S)} {id : UInt32} (held : Held t id)
    {a : Move LsmOperation} (taken : program.step t a = some u)
    (overwrites : OverwritesNothing t a u) : Held u id := by
  cases a with
  | call i op =>
    obtain ⟨p, here, rests, rfl⟩ := Program.step_call.mp taken
    rcases held with base | delta | carried
    · exact .inl base
    · exact .inr (.inl delta)
    · rcases @exists_moved _ _ [] _ _ (program.enter op t.shared) _ here carried with mine | theirs
      · rw [LsmPhase.not_carries (LsmPhase.copy_of_resting rests)] at mine
        cases mine
      · exact .inr (.inr (by simpa using theirs))
  | advance i =>
    obtain ⟨p, q, s, started, here, moved, rfl⟩ := Program.step_advance.mp taken
    simp only [OverwritesNothing, here] at overwrites
    -- Another thread that carries the id still does; the one that moves is looked at case by case.
    have carried (waiting : ∃ r ∈ t.phases, r.carries id = true) : p.carries id = true ∨
        Held (⟨s, t.phases.set i q ++ started⟩ : Pool (LsmShared S) (LsmPhase S)) id :=
      (exists_moved here waiting).imp_right fun theirs => .inr (.inr theirs)
    rcases advance_cases moved with quiet | ⟨rfl, ⟨new, rfl, rfl, rfl⟩ | ⟨background, rfl, rfl, rfl⟩ |
      ⟨background, newBase, rfl, rfl, rfl⟩ | ⟨background, newBase, rfl, rfl, rfl⟩⟩
    · rcases held with base | delta | waiting
      · exact .inl ((quiet.base id).trans base)
      · exact .inr (.inl ((quiet.deltas id).trans delta))
      · refine (carried waiting).resolve_left ?_
        simp [LsmPhase.not_carries quiet.before]
    · rcases held with base | delta | waiting
      · exact .inl base
      · exact .inr (.inl ((t.shared.bitmap.inDeltas_addDelta new id).mpr (.inr delta)))
      · exact (carried waiting).resolve_left Bool.false_ne_true
    · rcases held with base | delta | waiting
      · exact .inl base
      · exact .inr (.inl delta)
      · exact (carried waiting).resolve_left Bool.false_ne_true
    · rcases held with base | delta | waiting
      · exact .inl base
      · exact .inr (.inr ⟨_, mem_moved here, carries_merge.mpr (.inr delta)⟩)
      · rcases carried waiting with mine | theirs
        · exact .inr (.inr ⟨_, mem_moved here, carries_merge.mpr (.inl mine)⟩)
        · exact theirs
    · rcases held with base | delta | waiting
      · rcases overwrites id base with copied | delta | ⟨j, r, other, there, carries⟩
        · exact .inl copied
        · exact .inr (.inl delta)
        · refine .inr (.inr ⟨r, List.mem_append_left _ (List.mem_iff_getElem?.mpr ⟨j, ?_⟩), carries⟩)
          rw [List.getElem?_set_ne (Ne.symm other)]
          exact there
      · exact .inr (.inl delta)
      · rcases carried waiting with mine | theirs
        · exact .inl mine
        · exact theirs

/-- An id that becomes an inserted one goes to a delta. -/
theorem inserted_step {t u : Pool (LsmShared S) (LsmPhase S)} {a : Move LsmOperation}
    (taken : program.step t a = some u) {id : UInt32} (present : id ∈ u.shared.inserted) :
    id ∈ t.shared.inserted ∨ u.shared.bitmap.inDeltas id = true := by
  cases a with
  | call i op =>
    obtain ⟨_, _, _, rfl⟩ := Program.step_call.mp taken
    exact .inl present
  | advance i =>
    obtain ⟨p, q, s, started, here, moved, rfl⟩ := Program.step_advance.mp taken
    rcases advance_cases moved with quiet | ⟨rfl, ⟨new, rfl, rfl, rfl⟩ | ⟨_, rfl, rfl, rfl⟩ |
      ⟨_, _, rfl, rfl, rfl⟩ | ⟨_, _, rfl, rfl, rfl⟩⟩
    · exact .inl (quiet.inserted ▸ present)
    · rcases List.mem_append.mp present with old | last
      · exact .inl old
      · exact .inr ((t.shared.bitmap.inDeltas_addDelta new id).mpr (.inl (List.mem_singleton.mp last)))
    · exact .inl present
    · exact .inl present
    · exact .inl present

/-- A write that overwrites an id leaves it nowhere. -/
theorem lost_of_overwritten {t u : Pool (LsmShared S) (LsmPhase S)} (known : Known t)
    {a : Move LsmOperation} (taken : program.step t a = some u)
    (overwrites : ¬ OverwritesNothing t a u) : ∃ id ∈ u.shared.inserted, ¬ Held u id := by
  cases a with
  | call i op => exact absurd trivial overwrites
  | advance i =>
    obtain ⟨p, q, s, started, here, moved, rfl⟩ := Program.step_advance.mp taken
    simp only [OverwritesNothing, here] at overwrites
    rcases advance_cases moved with quiet | ⟨rfl, ⟨_, rfl, rfl, rfl⟩ | ⟨_, rfl, rfl, rfl⟩ |
      ⟨_, _, rfl, rfl, rfl⟩ | ⟨background, newBase, rfl, rfl, rfl⟩⟩
    · refine absurd ?_ overwrites
      split
      · rename_i same
        cases same
        cases quiet.before
      · trivial
    · exact absurd trivial overwrites
    · exact absurd trivial overwrites
    · exact absurd trivial overwrites
    · obtain ⟨id, overwrites⟩ := Classical.not_forall.mp overwrites
      obtain ⟨base, nowhere⟩ := Classical.not_imp.mp overwrites
      refine ⟨id, known.base id base, ?_⟩
      rintro (copied | delta | ⟨r, member, carries⟩)
      · exact nowhere (.inl copied)
      · exact nowhere (.inr (.inl delta))
      · obtain ⟨j, there⟩ := List.mem_iff_getElem?.mp member
        rw [List.append_nil] at there
        by_cases same : j = i
        · subst same
          rw [List.getElem?_set_self (List.getElem?_eq_some_iff.mp here).1] at there
          cases there
          cases carries
        · rw [List.getElem?_set_ne (Ne.symm same)] at there
          exact nowhere (.inr (.inr ⟨j, r, same, there, carries⟩))

theorem conserved_of_held {t : Pool (LsmShared S) (LsmPhase S)} (known : Known t)
    (held : ∀ id ∈ t.shared.inserted, Held t id) : Conserved t where
  held := held
  settled resting id := by
    rw [LsmBitmap.contains_query]
    constructor
    · rintro (base | delta)
      · exact known.base id base
      · exact known.deltas id delta
    · intro present
      rcases held id present with base | delta | ⟨p, member, carries⟩
      · exact .inl base
      · exact .inr delta
      · rw [LsmPhase.not_carries (LsmPhase.copy_of_resting (resting p member))] at carries
        cases carries

theorem step_conserved_iff {t u : Pool (LsmShared S) (LsmPhase S)} (known : Known t)
    (conserved : Conserved t) {a : Move LsmOperation} (taken : program.step t a = some u) :
    Conserved u ↔ OverwritesNothing t a u := by
  constructor
  · intro after
    by_contra overwrites
    obtain ⟨id, present, lost⟩ := lost_of_overwritten known taken overwrites
    exact lost (after.held id present)
  · intro overwrites
    refine conserved_of_held (known.step taken) fun id present => ?_
    rcases inserted_step taken present with old | new
    · exact (conserved.held id old).step taken overwrites
    · exact .inr (.inl new)

/-- In every run, with any number of compactions at once, no insert is lost
exactly as long as no compaction overwrites an id. -/
theorem inserts_conserved_iff (maxDeltas maxDeltaSize threads : Nat) (moves : List (Move LsmOperation)) :
    Along (ofPartial program.step) (fun _ _ after => Conserved after)
      (start maxDeltas maxDeltaSize threads : Pool (LsmShared S) (LsmPhase S)) moves ↔
    Along (ofPartial program.step) OverwritesNothing
      (start maxDeltas maxDeltaSize threads : Pool (LsmShared S) (LsmPhase S)) moves := by
  refine along_step_iff (fun t => Known t ∧ Conserved t) ?_ ?_ ?_ moves
  · intro t a u h taken
    exact step_conserved_iff h.1 h.2 taken
  · intro t a u h taken overwrites
    exact ⟨h.1.step taken, (step_conserved_iff h.1 h.2 taken).mpr overwrites⟩
  · have known := @start_known S _ maxDeltas maxDeltaSize threads
    exact ⟨known, conserved_of_held known (by simp [start])⟩

/-- Two compactions copy the empty base; the second writes it over the id that
the first one moved there. -/
theorem overlapping_compactions_lose :
    ∃ t : Pool (LsmShared SortedIds) (LsmPhase SortedIds),
      Run (ofPartial program.step) (start 4 100000 3)
        [.call 0 (.insert 1), .advance 0, .advance 0, .advance 0, .call 1 .compact, .call 2 .compact,
          .advance 1, .advance 2, .advance 1, .advance 1, .advance 1, .advance 2, .advance 2, .advance 2] t ∧
      t.Settled program ∧
      ¬ ∀ id : UInt32, IdSet.contains t.shared.bitmap.query id.toNat = true ↔ id ∈ t.shared.inserted := by
  have outcome : ((List.foldlM program.step (start 4 100000 3)
      [.call 0 (.insert 1), .advance 0, .advance 0, .advance 0, .call 1 .compact, .call 2 .compact,
        .advance 1, .advance 2, .advance 1, .advance 1, .advance 1, .advance 2, .advance 2, .advance 2] :
      Option (Pool (LsmShared SortedIds) (LsmPhase SortedIds))).map fun t =>
        (t.phases.all program.resting, IdSet.contains t.shared.bitmap.query 1, t.shared.inserted)) =
      some (true, false, [1]) := by decide +kernel
  obtain ⟨t, ran, final⟩ := Option.map_eq_some_iff.mp outcome
  simp only [Prod.mk.injEq] at final
  obtain ⟨resting, missing, inserted⟩ := final
  refine ⟨t, (run_ofPartial _ _ _ _).mpr ran, List.all_eq_true.mp resting, ?_⟩
  intro all
  have found := (all 1).mpr (inserted ▸ List.mem_singleton.mpr rfl)
  exact Bool.false_ne_true (missing.symm.trans found)

end LsmShared

end Hyperplane
