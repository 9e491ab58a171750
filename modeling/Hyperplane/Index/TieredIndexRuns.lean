import Hyperplane.Index.TieredIndex

/-! In which tier an account is found after inserts, accesses and slots gone by. -/
namespace Hyperplane
open Transition

inductive TieredIndexMove where
  | setCurrentSlot (slot : UInt64)
  | insertAccount (accountId : UInt32) (pubkey : Pubkey)
  | accessAccount (accountId : UInt32) (pubkey : Pubkey)
  | background (tier : StorageTier) (i : Nat)

/-- The index, the ids inserted so far, and every use of an id with its slot,
the last one first. -/
structure TieredIndexRun (S : Type) where
  index : TieredIndex S
  inserted : List UInt32
  uses : List (UInt32 × UInt64)

namespace TieredIndexRun

variable {S : Type} [IdUnion S]

def start : TieredIndexRun S := ⟨.new, [], []⟩

/-- The sections of a compaction run between the calls. -/
def step (s : TieredIndexRun S) : TieredIndexMove → Option (TieredIndexRun S)
  | .setCurrentSlot slot => some { s with index := s.index.setCurrentSlot slot }
  | .insertAccount accountId pubkey => some {
      index := s.index.insertAccount accountId pubkey
      inserted := accountId :: s.inserted
      uses := (accountId, s.index.currentSlot) :: s.uses }
  | .accessAccount accountId pubkey => some { s with
      index := (s.index.accessAccount accountId pubkey).2
      uses := (accountId, s.index.currentSlot) :: s.uses }
  | .background tier i => (s.index.background i tier).map fun index => { s with index := index }

/-- The slots since the last insert or access of the id. -/
def elapsed (s : TieredIndexRun S) (id : UInt32) : Nat :=
  s.index.currentSlot.toNat - ((s.uses.lookup id).getD 0).toNat

/-- Every inserted id is found in the tier of its age, and in no other. -/
def Placed (s : TieredIndexRun S) : Prop :=
  ∀ id ∈ s.inserted, ∀ tier,
    IdSet.contains (s.index.query tier) id.toNat = true ↔ tier = .due (s.elapsed id)

/-- A compaction has drained the deltas of the id, and has it still to write. -/
def InTransit (s : TieredIndexRun S) (id : UInt32) : Prop :=
  s.index.hotIndex.Carries id ∧ s.index.hotIndex.bitmap.inBase id = false ∧
    s.index.hotIndex.bitmap.inDeltas id = false

/-- Only the hot index is ever filled. -/
structure Hot (s : TieredIndexRun S) : Prop where
  sound : s.index.hotIndex.Sound
  has : ∀ id ∈ s.inserted, s.index.hotIndex.Has id
  warm : s.index.warmIndex = .new
  cold : s.index.coldIndex = .new

theorem start_hot : (start : TieredIndexRun S).Hot := ⟨LsmStore.new_sound, by simp [start], rfl, rfl⟩

theorem Hot.step {s t : TieredIndexRun S} (h : s.Hot) {move : TieredIndexMove}
    (taken : s.step move = some t) : t.Hot := by
  cases move with
  | setCurrentSlot slot =>
    cases taken
    exact ⟨h.sound, h.has, h.warm, h.cold⟩
  | insertAccount accountId pubkey =>
    cases taken
    refine ⟨h.sound.insert accountId, fun id member => ?_, h.warm, h.cold⟩
    exact s.index.hotIndex.has_insert accountId ((List.mem_cons.mp member).imp_right (h.has id))
  | accessAccount accountId pubkey =>
    cases taken
    obtain ⟨metadata, accessed⟩ := s.index.accessAccount_snd accountId pubkey
    refine ⟨?_, ?_, ?_, ?_⟩ <;> rw [accessed]
    · exact h.sound
    · exact h.has
    · exact h.warm
    · exact h.cold
  | background tier i =>
    obtain ⟨index, advanced, rfl⟩ := Option.map_eq_some_iff.mp taken
    cases tier with
    | hot =>
      obtain ⟨store, moved, rfl⟩ := Option.map_eq_some_iff.mp advanced
      obtain ⟨sound, kept⟩ := h.sound.advance moved
      exact ⟨sound, fun id member => kept id (h.has id member), h.warm, h.cold⟩
    | warm =>
      rw [TieredIndex.background, h.warm] at advanced
      cases advanced
    | cold =>
      rw [TieredIndex.background, h.cold] at advanced
      cases advanced

theorem reached_hot {moves : List TieredIndexMove} {s : TieredIndexRun S}
    (ran : Run (ofPartial step) start moves s) : s.Hot :=
  run_invariant Hot (fun _ _ _ h taken => h.step taken) start_hot ran

/-- The last use of an inserted id is on record. -/
theorem inserted_used {moves : List TieredIndexMove} {s : TieredIndexRun S}
    (ran : Run (ofPartial step) start moves s) :
    ∀ id ∈ s.inserted, (s.uses.lookup id).isSome = true := by
  have older (uses : List (UInt32 × UInt64)) (use : UInt32 × UInt64) {id : UInt32}
      (used : id = use.1 ∨ (uses.lookup id).isSome = true) : ((use :: uses).lookup id).isSome = true := by
    rw [List.lookup_cons]
    split
    · rfl
    · rename_i other
      exact used.resolve_left (beq_eq_false_iff_ne.mp other)
  refine run_invariant (fun s => ∀ id ∈ s.inserted, (s.uses.lookup id).isSome = true) ?_
    (by simp [start]) ran
  intro s move t h taken id member
  cases move with
  | setCurrentSlot slot =>
    cases taken
    exact h id member
  | insertAccount accountId pubkey =>
    cases taken
    exact older s.uses (accountId, s.index.currentSlot) ((List.mem_cons.mp member).imp_right (h id))
  | accessAccount accountId pubkey =>
    cases taken
    exact older s.uses (accountId, s.index.currentSlot) (.inr (h id member))
  | background tier i =>
    obtain ⟨index, _, rfl⟩ := Option.map_eq_some_iff.mp taken
    exact h id member

theorem contains_new (id : UInt32) :
    IdSet.contains (LsmStore.new : LsmStore S).bitmap.query id.toNat = false := by
  simp [LsmStore.new, LsmBitmap.new, LsmBitmap.withConfig, LsmBitmap.query, IdUnion.contains_union,
    IdSet.contains_empty]

theorem Hot.contains_query_iff {s : TieredIndexRun S} (h : s.Hot) {id : UInt32} (member : id ∈ s.inserted)
    (tier : StorageTier) : IdSet.contains (s.index.query tier) id.toNat = true ↔
      tier = .hot ∧ ¬ s.InTransit id := by
  cases tier with
  | hot =>
    refine (LsmBitmap.contains_query _ id).trans ?_
    rw [and_iff_right rfl, InTransit]
    constructor
    · rintro (base | delta) ⟨_, notBase, notDelta⟩
      · cases base.symm.trans notBase
      · cases delta.symm.trans notDelta
    · intro settled
      rcases h.has id member with base | delta | carried
      · exact .inl base
      · exact .inr delta
      · by_contra missing
        obtain ⟨notBase, notDelta⟩ := not_or.mp missing
        exact settled ⟨carried, Bool.eq_false_iff.mpr notBase, Bool.eq_false_iff.mpr notDelta⟩
  | warm =>
    rw [TieredIndex.query, TieredIndex.queryWarm, h.warm, contains_new]
    simp
  | cold =>
    rw [TieredIndex.query, TieredIndex.queryCold, h.cold, contains_new]
    simp

/-- At any point of any run the accounts are in the tiers of their age exactly if
none was last used a hundred slots ago or more, and none is in transit. -/
theorem placed_iff {moves : List TieredIndexMove} {s : TieredIndexRun S}
    (ran : Run (ofPartial step) start moves s) :
    s.Placed ↔ ∀ id ∈ s.inserted, s.elapsed id < 100 ∧ ¬ s.InTransit id := by
  have found {id : UInt32} (member : id ∈ s.inserted) := (reached_hot ran).contains_query_iff member
  constructor
  · intro placed id member
    have inDue := (placed id member (.due (s.elapsed id))).mpr rfl
    obtain ⟨isHot, settled⟩ := (found member _).mp inDue
    exact ⟨(StorageTier.due_eq_hot_iff _).mp isHot, settled⟩
  · intro all id member tier
    obtain ⟨recent, settled⟩ := all id member
    rw [(StorageTier.due_eq_hot_iff _).mpr recent, found member, and_iff_left settled]

theorem recent_account_placed : ∃ s : TieredIndexRun SortedIds,
    Run (ofPartial step) start [.setCurrentSlot 1000, .insertAccount 7 (Vector.replicate 32 1),
      .setCurrentSlot 1099] s ∧ s.Placed := by
  obtain ⟨s, ran, inserted, elapsed, idle⟩ : ∃ s : TieredIndexRun SortedIds,
      Run (ofPartial step) start [.setCurrentSlot 1000, .insertAccount 7 (Vector.replicate 32 1),
        .setCurrentSlot 1099] s ∧
      s.inserted = [7] ∧ s.elapsed 7 = 99 ∧ s.index.hotIndex.compactions = [] :=
    ⟨_, (run_ofPartial _ _ _ _).mpr rfl, rfl, by decide +kernel, by decide +kernel⟩
  refine ⟨s, ran, (placed_iff ran).mpr fun id member => ?_⟩
  rw [inserted, List.mem_singleton] at member
  subst member
  refine ⟨by rw [elapsed]; decide, ?_⟩
  rintro ⟨⟨c, running, _⟩, _⟩
  rw [idle] at running
  cases running

/-- Fourteen thousand slots later the account is still found hot, and not cold. -/
theorem old_account_stays_hot : ∃ s : TieredIndexRun SortedIds,
    Run (ofPartial step) start [.setCurrentSlot 1000, .insertAccount 7 (Vector.replicate 32 1),
      .setCurrentSlot 15000] s ∧ ¬ s.Placed := by
  obtain ⟨s, ran, inserted, elapsed, hot⟩ : ∃ s : TieredIndexRun SortedIds,
      Run (ofPartial step) start [.setCurrentSlot 1000, .insertAccount 7 (Vector.replicate 32 1),
        .setCurrentSlot 15000] s ∧
      s.inserted = [7] ∧ s.elapsed 7 = 14000 ∧ IdSet.contains (s.index.query .hot) 7 = true :=
    ⟨_, (run_ofPartial _ _ _ _).mpr rfl, rfl, by decide +kernel, by decide +kernel⟩
  refine ⟨s, ran, fun placed => ?_⟩
  have due := (placed 7 (inserted ▸ List.mem_singleton.mpr rfl) .hot).mp hot
  rw [elapsed] at due
  revert due
  decide

end TieredIndexRun

end Hyperplane
