import Hyperplane.Manager.History
import Hyperplane.Query.Planner

/-! Queries over a manager's indexes find every account whose latest version
they match. A memcmp filter of a shape the index does not track has no bitmap
and is skipped, so it costs no account. -/
namespace Hyperplane
open Transition

def AccountView.Satisfies (account : AccountView) : GpaFilter → Prop
  | .dataSize size => account.data.length = size
  | .memcmp offset bytes => offset + bytes.length ≤ account.data.length ∧
      (account.data.drop offset).take bytes.length = bytes
  | .discriminator disc => disc.toList <+: account.data

structure QueryPlanner.RunsOver {S : Type} (planner : QueryPlanner S) (manager : IndexManager S) :
    Prop where
  program : manager.programIndex = some planner.programIndex
  dataSize : manager.dataSizeIndex = some planner.dataSizeIndex
  memcmp : manager.memcmpIndex = some planner.memcmpIndex
  discriminator : manager.discriminatorIndex = some planner.discriminatorIndex

namespace IndexRun

variable {S : Type} [IdSet S]

/-- The latest version of every account is listed under all its keys, and the
memcmp index has bitmaps for the two tracked shapes only. -/
structure Fresh (s : IndexRun S) : Prop where
  sound : s.manager.Sound
  listed : ∀ pubkey v key, s.latest pubkey = some v → v.HasKey key → s.manager.Listed key pubkey
  shapes : ∀ offset bytes, (s.manager.lookup (.memcmp offset bytes)).isSome →
    offset = 0 ∧ (bytes.length = 8 ∨ bytes.length = 32)

theorem start_fresh : Fresh (start : IndexRun S) where
  sound := IndexManager.sound_new
  listed _ _ _ impossible := nomatch impossible
  shapes offset bytes some := by
    simp [IndexManager.lookup, start, IndexManager.new, MemcmpIndex.getAccountsByMemcmp,
      IdBitmaps.accounts] at some

theorem fresh_update {s : IndexRun S} (h : Fresh s) (account : AccountView) (slot : UInt64) :
    Fresh (s.step (.update account slot)) where
  sound := IndexManager.sound_update h.sound account slot
  listed pubkey v key newest had := by
    refine (IndexManager.listed_update h.sound account slot key pubkey).mpr ?_
    rcases latest_update_cases newest with ⟨here, rfl⟩ | ⟨_, before⟩
    · exact .inr ⟨here, had⟩
    · exact .inl (h.listed pubkey v key before had)
  shapes offset bytes some := by
    obtain ⟨index, enabled, wf⟩ := h.sound.memcmp
    obtain ⟨_, _, present⟩ := IndexManager.addMemcmps_spec wf account slot
    have updated : (s.manager.updateAccount account slot).memcmpIndex =
        Option.some (IndexManager.addMemcmps account slot index) := by
      simp [IndexManager.updateAccount, enabled]
    simp only [IndexManager.lookup, step, updated, Option.bind_some] at some
    rcases (present ⟨offset, bytes⟩).mp some with old | ⟨start, ⟨long, rfl⟩ | ⟨long, rfl⟩⟩
    · apply h.shapes offset bytes
      simp only [IndexManager.lookup, enabled, Option.bind_some]
      exact old
    · exact ⟨start, .inl (by simp [long])⟩
    · exact ⟨start, .inr (by simp [long])⟩

theorem fresh_remove {s : IndexRun S} (h : Fresh s) (removed : Pubkey) :
    Fresh (s.step (.remove removed)) where
  sound := IndexManager.sound_remove h.sound removed
  listed pubkey v key newest had := by
    obtain ⟨other, before⟩ := latest_remove_cases newest
    refine (IndexManager.listed_remove h.sound removed key pubkey).mpr
      ⟨h.listed pubkey v key before had, ?_⟩
    exact fun same => other same.1
  shapes := h.shapes

theorem run_fresh (ops : List IndexOperation) : Fresh (ops.foldl step (start : IndexRun S)) := by
  refine foldl_invariant Fresh (fun s a h => ?_) start_fresh ops
  cases a with
  | update account slot => exact fresh_update h account slot
  | remove removed => exact fresh_remove h removed

theorem Fresh.key_of_satisfies {s : IndexRun S} (h : Fresh s) {v : AccountView} {f : GpaFilter}
    (satisfied : v.Satisfies f) : ∃ key, (∀ planner : QueryPlanner S, planner.RunsOver s.manager →
      planner.lookup f.filterType = s.manager.lookup key) ∧
        ((s.manager.lookup key).isSome → v.HasKey key) := by
  cases f with
  | dataSize size =>
    refine ⟨.dataSize size, ?_, fun _ => satisfied.symm⟩
    intro planner runsOver
    simp [QueryPlanner.lookup, GpaFilter.filterType, IndexManager.lookup, runsOver.dataSize]
  | memcmp offset bytes =>
    refine ⟨.memcmp offset bytes, ?_, ?_⟩
    · intro planner runsOver
      simp [QueryPlanner.lookup, GpaFilter.filterType, IndexManager.lookup, runsOver.memcmp]
    · intro tracked
      obtain ⟨inside, same⟩ := satisfied
      obtain ⟨rfl, eight | thirtyTwo⟩ := h.shapes offset bytes tracked
      · rw [List.drop_zero, eight] at same
        exact ⟨rfl, .inl ⟨by omega, same.symm⟩⟩
      · rw [List.drop_zero, thirtyTwo] at same
        exact ⟨rfl, .inr ⟨by omega, same.symm⟩⟩
  | discriminator disc =>
    refine ⟨.discriminator disc, ?_, ?_⟩
    · intro planner runsOver
      simp [QueryPlanner.lookup, GpaFilter.filterType, IndexManager.lookup, runsOver.discriminator]
    · intro _
      have starts : disc.toList <+: v.data := satisfied
      have eight : disc.toList.length = 8 := by simp
      have long := starts.length_le
      refine ⟨by omega, ?_⟩
      exact (List.prefix_iff_eq_take.mp starts).trans (by rw [eight])

/-- No false negatives: whatever was updated and removed, in any order, a query
returns every account whose latest version matches it. -/
theorem query_returns_latest_matches (ops : List IndexOperation) (order : HashOrder Pubkey)
    (planner : QueryPlanner S) (plan : QueryPlan) (pubkey : Pubkey) (v : AccountView)
    (runsOver : planner.RunsOver (ops.foldl step (start : IndexRun S)).manager)
    (latest : (ops.foldl step (start : IndexRun S)).latest pubkey = some v)
    (owner : v.owner = plan.programId) (satisfies : ∀ f ∈ plan.filters, v.Satisfies f) :
    pubkey ∈ (QueryPlanner.executeQuery order planner plan).1 := by
  have h := run_fresh (S := S) ops
  rw [QueryPlanner.mem_executeQuery]
  constructor
  · obtain ⟨accounts, found, inside⟩ := h.listed pubkey v (.program plan.programId) latest owner.symm
    refine ⟨accounts, ?_, inside⟩
    simpa [IndexManager.lookup, QueryPlanner.lookup, runsOver.program] using found
  · intro f member accounts found
    obtain ⟨key, same, named⟩ := h.key_of_satisfies (satisfies f member)
    rw [same planner runsOver] at found
    obtain ⟨others, again, inside⟩ := h.listed pubkey v key latest (named (by rw [found]; rfl))
    rw [found] at again
    cases again
    exact inside

theorem updated_account_is_returned :
    let view : AccountView :=
      { pubkey := Vector.replicate 32 9, lamports := 1, data := [1, 2, 3, 4, 5, 6, 7, 8],
        owner := Vector.replicate 32 1, executable := false, slot := 1, writeVersion := 1,
        rentEpoch := 0, storageType := .delta, location := ⟨0, 0, 0, 0, 0, 1, 1, .delta⟩ }
    let run : IndexRun SortedIds :=
      [.update view 1, .remove view.pubkey, .update view 2].foldl step start
    ∃ planner, planner.RunsOver run.manager ∧
      view.pubkey ∈ (QueryPlanner.executeQuery (.some Pubkey) planner ⟨view.owner,
        [.dataSize 8, .memcmp 2 [3, 4], .discriminator #v[1, 2, 3, 4, 5, 6, 7, 8]]⟩).1 := by
  intro view run
  let planner : QueryPlanner SortedIds :=
    { programIndex := run.manager.programIndex.getD {}
      dataSizeIndex := run.manager.dataSizeIndex.getD {}
      memcmpIndex := run.manager.memcmpIndex.getD {}
      discriminatorIndex := run.manager.discriminatorIndex.getD {} }
  have runsOver : planner.RunsOver run.manager := ⟨rfl, rfl, rfl, rfl⟩
  refine ⟨planner, runsOver,
    query_returns_latest_matches _ _ planner _ view.pubkey view runsOver rfl rfl ?_⟩
  intro f member
  simp only [List.mem_cons, List.not_mem_nil, or_false] at member
  rcases member with rfl | rfl | rfl
  · rfl
  · exact ⟨by decide, rfl⟩
  · exact ⟨[], rfl⟩

end IndexRun

end Hyperplane
