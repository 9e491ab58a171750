import Hyperplane.Lib.Transition
import Hyperplane.Manager.Keys

/-! Runs of updates and removals. An update leaves the keys of older versions
in place; a removal reaches the keys the reverse maps remember. -/
namespace Hyperplane
open Transition

inductive IndexOperation where
  | update (account : AccountView) (slot : UInt64)
  | remove (pubkey : Pubkey)

/-- The manager beside the versions of each account since its last removal. -/
structure IndexRun (S : Type) where
  manager : IndexManager S
  since : Pubkey → List AccountView

namespace IndexRun

variable {S : Type} [IdSet S]

def start : IndexRun S := ⟨IndexManager.new {}, fun _ => []⟩

def latest (s : IndexRun S) (pubkey : Pubkey) : Option AccountView := (s.since pubkey).getLast?

def step (s : IndexRun S) : IndexOperation → IndexRun S
  | .update account slot => ⟨s.manager.updateAccount account slot, fun pubkey =>
      if pubkey = account.pubkey then s.since pubkey ++ [account] else s.since pubkey⟩
  | .remove removed => ⟨s.manager.removeAccount removed, fun pubkey =>
      if pubkey = removed then [] else s.since pubkey⟩

theorem latest_update (s : IndexRun S) (account : AccountView) (slot : UInt64) (pubkey : Pubkey) :
    (s.step (.update account slot)).latest pubkey =
      if pubkey = account.pubkey then some account else s.latest pubkey := by
  simp only [latest, step]
  split
  · simp
  · rfl

theorem latest_remove (s : IndexRun S) (removed pubkey : Pubkey) :
    (s.step (.remove removed)).latest pubkey = if pubkey = removed then none else s.latest pubkey := by
  simp only [latest, step]
  split
  · rfl
  · rfl

theorem latest_update_cases {s : IndexRun S} {account : AccountView} {slot : UInt64}
    {pubkey : Pubkey} {v : AccountView}
    (newest : (s.step (.update account slot)).latest pubkey = some v) :
    (pubkey = account.pubkey ∧ v = account) ∨
      (pubkey ≠ account.pubkey ∧ s.latest pubkey = some v) := by
  rw [latest_update] at newest
  split at newest
  · rename_i here
    exact .inl ⟨here, (Option.some.inj newest).symm⟩
  · rename_i other
    exact .inr ⟨other, newest⟩

theorem latest_remove_cases {s : IndexRun S} {removed pubkey : Pubkey} {v : AccountView}
    (newest : (s.step (.remove removed)).latest pubkey = some v) :
    pubkey ≠ removed ∧ s.latest pubkey = some v := by
  rw [latest_remove] at newest
  split at newest
  · cases newest
  · rename_i other
    exact ⟨other, newest⟩

theorem start_not_listed (key : IndexKey) (pubkey : Pubkey) :
    ¬ (start : IndexRun S).manager.Listed key pubkey := by
  have empty {K : Type} [Ord K] [Std.TransOrd K] (l : K) :
      ¬ (KeyedIndex.postingsOf (some ({} : KeyedIndex S K))).Listed l pubkey := by
    rw [show KeyedIndex.postingsOf (some ({} : KeyedIndex S K)) = .none from KeyedIndex.empty_postings]
    exact fun listed => listed
  intro listed
  cases key with
  | program programId => exact empty programId ((IndexManager.listed_program _ _ _).mp listed)
  | tokenOwner owner => exact empty owner ((IndexManager.listed_tokenOwner _ _ _).mp listed)
  | tokenMint mint => exact empty mint ((IndexManager.listed_tokenMint _ _ _).mp listed)
  | dataSize size => exact empty size ((IndexManager.listed_dataSize _ _ _).mp listed)
  | memcmp offset bytes =>
    exact empty (⟨offset, bytes⟩ : MemcmpFilter)
      ((@IndexManager.memcmp_listed S _ start.manager {} rfl offset bytes pubkey).mp listed)
  | discriminator disc => exact empty disc ((IndexManager.listed_discriminator _ _ _).mp listed)

def ExactlyListed (_ : IndexRun S) (_ : IndexOperation) (t : IndexRun S) : Prop :=
  ∀ key pubkey, t.manager.Listed key pubkey ↔ ∃ v, t.latest pubkey = some v ∧ v.HasKey key

def KeepsKeys (s : IndexRun S) (a : IndexOperation) (_ : IndexRun S) : Prop :=
  ∀ account slot old, a = .update account slot → s.latest account.pubkey = some old →
    AccountView.SameKeys old account

theorem exactlyListed_iff_keepsKeys {s : IndexRun S} (sound : s.manager.Sound)
    (exact : ∀ key pubkey, s.manager.Listed key pubkey ↔ ∃ v, s.latest pubkey = some v ∧ v.HasKey key)
    (account : AccountView) (slot : UInt64) :
    ExactlyListed s (.update account slot) (s.step (.update account slot)) ↔
      KeepsKeys s (.update account slot) (s.step (.update account slot)) := by
  have listed (key : IndexKey) (pubkey : Pubkey) :
      (s.step (.update account slot)).manager.Listed key pubkey ↔
        (∃ v, s.latest pubkey = some v ∧ v.HasKey key) ∨
          (pubkey = account.pubkey ∧ account.HasKey key) := by
    rw [← exact]
    exact IndexManager.listed_update sound account slot key pubkey
  unfold ExactlyListed KeepsKeys
  simp only [listed, latest_update, ← AccountView.hasKey_subset_iff]
  constructor
  · rintro same account slot old ⟨⟩ replaced key had
    obtain ⟨v, newest, has⟩ := (same key account.pubkey).mp (.inl ⟨old, replaced, had⟩)
    rw [if_pos rfl] at newest
    cases newest
    exact has
  · intro keeps key pubkey
    by_cases here : pubkey = account.pubkey
    · subst here
      rw [if_pos rfl]
      constructor
      · rintro (⟨old, replaced, had⟩ | ⟨_, has⟩)
        · exact ⟨account, rfl, keeps account slot old rfl replaced key had⟩
        · exact ⟨account, rfl, has⟩
      · rintro ⟨_, ⟨⟩, has⟩
        exact .inr ⟨rfl, has⟩
    · simp [here]

/-- Along updates the indexes are exact after each call if and only if every
update keeps the keys of the version before. -/
theorem exact_listing_iff (updates : List (AccountView × UInt64)) :
    Along (ofFun step) ExactlyListed (start : IndexRun S) (updates.map fun u => .update u.1 u.2) ↔
      Along (ofFun step) KeepsKeys (start : IndexRun S) (updates.map fun u => .update u.1 u.2) := by
  apply along_iff (fun s : IndexRun S => s.manager.Sound ∧ ∀ key pubkey,
    s.manager.Listed key pubkey ↔ ∃ v, s.latest pubkey = some v ∧ v.HasKey key)
    (fun a => ∃ account slot, a = .update account slot)
  · rintro s _ _ ⟨sound, exact⟩ ⟨account, slot, rfl⟩ rfl
    exact exactlyListed_iff_keepsKeys sound exact account slot
  · rintro s _ _ ⟨sound, exact⟩ ⟨account, slot, rfl⟩ rfl keeps
    exact ⟨IndexManager.sound_update sound account slot,
      (exactlyListed_iff_keepsKeys sound exact account slot).mpr keeps⟩
  · refine ⟨IndexManager.sound_new, ?_⟩
    intro key pubkey
    constructor
    · intro listed
      exact absurd listed (start_not_listed key pubkey)
    · rintro ⟨v, impossible, _⟩
      cases impossible
  · intro a member
    obtain ⟨u, _, rfl⟩ := List.mem_map.mp member
    exact ⟨u.1, u.2, rfl⟩

theorem old_owner_stays_listed :
    let view (owner : UInt8) : AccountView :=
      { pubkey := Vector.replicate 32 9, lamports := 1, data := [], owner := Vector.replicate 32 owner,
        executable := false, slot := 1, writeVersion := 1, rentEpoch := 0, storageType := .delta,
        location := ⟨0, 0, 0, 0, 0, 1, 1, .delta⟩ }
    ¬ Along (ofFun step) ExactlyListed (start : IndexRun SortedIds)
      [.update (view 1) 1, .update (view 2) 2] := by
  intro view exact
  obtain ⟨last, _⟩ := (exact _ rfl).2 _ rfl
  have sound := IndexManager.sound_new (S := SortedIds)
  have once := (IndexManager.listed_update sound (view 1) 1 (.program (view 1).owner) (view 1).pubkey).mpr
    (.inr ⟨rfl, rfl⟩)
  have twice := (IndexManager.listed_update (IndexManager.sound_update sound (view 1) 1) (view 2) 2
    (.program (view 1).owner) (view 1).pubkey).mpr (.inl once)
  obtain ⟨v, newest, has⟩ := (last _ _).mp twice
  rw [latest_update, if_pos rfl] at newest
  cases newest
  have owners : (Vector.replicate 32 1 : Pubkey) = Vector.replicate 32 2 := has
  exact absurd owners (by decide)

/-- The account is listed under the keys of its versions since the last removal,
and the owner and the length of the last one are remembered. -/
structure Recorded (s : IndexRun S) : Prop where
  sound : s.manager.Sound
  listed : ∀ key pubkey, s.manager.Listed key pubkey ↔ ∃ v ∈ s.since pubkey, v.HasKey key
  owner : ∀ pubkey v, s.latest pubkey = some v → s.manager.Remembers pubkey (.program v.owner)
  size : ∀ pubkey v, s.latest pubkey = some v → s.manager.Remembers pubkey (.dataSize v.data.length)

/-- Versions that only have the program and the size key, and agree on both. -/
structure Erasable (versions : List AccountView) : Prop where
  short : ∀ v ∈ versions, v.data.length < 8
  same : ∀ v ∈ versions, ∀ w ∈ versions, v.owner = w.owner ∧ v.data.length = w.data.length

/-- After the call no account without a version since its removal is listed. -/
def Cleared (_ : IndexRun S) (_ : IndexOperation) (t : IndexRun S) : Prop :=
  ∀ pubkey, t.since pubkey = [] → ∀ key, ¬ t.manager.Listed key pubkey

def RemovesErasable (s : IndexRun S) (a : IndexOperation) (_ : IndexRun S) : Prop :=
  ∀ pubkey, a = .remove pubkey → Erasable (s.since pubkey)

theorem start_recorded : Recorded (start : IndexRun S) where
  sound := IndexManager.sound_new
  listed key pubkey := by
    constructor
    · intro listed
      exact absurd listed (start_not_listed key pubkey)
    · rintro ⟨v, impossible, _⟩
      cases impossible
  owner _ _ impossible := nomatch impossible
  size _ _ impossible := nomatch impossible

theorem recorded_update {s : IndexRun S} (h : Recorded s) (account : AccountView) (slot : UInt64) :
    Recorded (s.step (.update account slot)) where
  sound := IndexManager.sound_update h.sound account slot
  listed key pubkey := by
    refine (IndexManager.listed_update h.sound account slot key pubkey).trans ?_
    rw [h.listed]
    by_cases here : pubkey = account.pubkey
    · subst here
      simp [step, or_and_right, exists_or]
    · simp [step, here]
  owner pubkey v newest := by
    apply ((IndexManager.remembers_update h.sound account slot pubkey).1 v.owner).mpr
    rcases latest_update_cases newest with ⟨here, rfl⟩ | ⟨other, before⟩
    · exact .inl ⟨here, rfl⟩
    · exact .inr ⟨other, h.owner pubkey v before⟩
  size pubkey v newest := by
    apply ((IndexManager.remembers_update h.sound account slot pubkey).2 v.data.length).mpr
    rcases latest_update_cases newest with ⟨here, rfl⟩ | ⟨other, before⟩
    · exact .inl ⟨here, rfl⟩
    · exact .inr ⟨other, h.size pubkey v before⟩

/-- A removal clears the account exactly if all its keys are remembered. -/
theorem cleared_iff {s : IndexRun S} (h : Recorded s) (pubkey : Pubkey) :
    (∀ key, ¬ (s.step (.remove pubkey)).manager.Listed key pubkey) ↔ Erasable (s.since pubkey) := by
  have listed (key : IndexKey) : (s.step (.remove pubkey)).manager.Listed key pubkey ↔
      (∃ v ∈ s.since pubkey, v.HasKey key) ∧ ¬ s.manager.Remembers pubkey key := by
    rw [← h.listed]
    refine (IndexManager.listed_remove h.sound pubkey key pubkey).trans ?_
    simp
  simp only [listed, not_and, not_not]
  constructor
  · intro remembered
    constructor
    · intro v member
      apply Nat.lt_of_not_ge
      intro long
      exact remembered (.discriminator (discriminatorOf v.data))
        ⟨v, member, long, (AccountView.discriminatorOf_eq_iff long _).mp rfl⟩
    · intro v member w other
      have owners : some v.owner = some w.owner :=
        (remembered (.program v.owner) ⟨v, member, rfl⟩).symm.trans
          (remembered (.program w.owner) ⟨w, other, rfl⟩)
      have sizes : some v.data.length = some w.data.length :=
        (remembered (.dataSize v.data.length) ⟨v, member, rfl⟩).symm.trans
          (remembered (.dataSize w.data.length) ⟨w, other, rfl⟩)
      exact ⟨Option.some.inj owners, Option.some.inj sizes⟩
  · -- Short versions have a program and a size key only, both the remembered ones.
    rintro erasable key ⟨v, member, had⟩
    have short := erasable.short v member
    obtain ⟨last, newest⟩ : ∃ last, s.latest pubkey = some last :=
      Option.isSome_iff_exists.mp (List.getLast?_isSome.mpr (List.ne_nil_of_mem member))
    have equal := erasable.same v member last (List.mem_of_getLast? newest)
    cases key with
    | program programId =>
      rw [show programId = last.owner from had.trans equal.1]
      exact h.owner pubkey last newest
    | dataSize size =>
      rw [show size = last.data.length from had.trans equal.2]
      exact h.size pubkey last newest
    | tokenOwner owner =>
      have long := had.1.2
      omega
    | tokenMint mint =>
      have long := had.1.2
      omega
    | memcmp offset bytes =>
      obtain ⟨_, ⟨long, _⟩ | ⟨long, _⟩⟩ := had <;> omega
    | discriminator disc =>
      have long := had.1
      omega

theorem recorded_remove {s : IndexRun S} (h : Recorded s) {removed : Pubkey}
    (erasable : Erasable (s.since removed)) : Recorded (s.step (.remove removed)) where
  sound := IndexManager.sound_remove h.sound removed
  listed key pubkey := by
    by_cases here : pubkey = removed
    · subst here
      have never := (cleared_iff h pubkey).mpr erasable key
      simp [step] at never ⊢
      exact never
    · refine (IndexManager.listed_remove h.sound removed key pubkey).trans ?_
      simp [step, here, h.listed]
  owner pubkey v newest := by
    obtain ⟨other, before⟩ := latest_remove_cases newest
    exact (IndexManager.remembers_remove h.sound other _).mpr (h.owner pubkey v before)
  size pubkey v newest := by
    obtain ⟨other, before⟩ := latest_remove_cases newest
    exact (IndexManager.remembers_remove h.sound other _).mpr (h.size pubkey v before)

theorem Recorded.cleared {s : IndexRun S} (h : Recorded s) (pubkey : Pubkey)
    (none : s.since pubkey = []) (key : IndexKey) : ¬ s.manager.Listed key pubkey := by
  rw [h.listed, none]
  simp

/-- In every run removed accounts are listed nowhere after each call if and only
if every removal finds versions it can erase. -/
theorem cleared_after_removal_iff (ops : List IndexOperation) :
    Along (ofFun step) Cleared (start : IndexRun S) ops ↔
      Along (ofFun step) RemovesErasable (start : IndexRun S) ops := by
  apply along_ofFun_iff Recorded
  · intro s a h
    cases a with
    | update account slot =>
      constructor
      · intro _ pubkey impossible
        cases impossible
      · intro _ pubkey none key
        exact (recorded_update h account slot).cleared pubkey none key
    | remove removed =>
      constructor
      · rintro cleared _ ⟨⟩
        exact (cleared_iff h removed).mp (cleared removed (by simp [step]))
      · intro erasable pubkey none key
        exact (recorded_remove h (erasable removed rfl)).cleared pubkey none key
  · intro s a h erasable
    cases a with
    | update account slot => exact recorded_update h account slot
    | remove removed => exact recorded_remove h (erasable removed rfl)
  · exact start_recorded

/-- A removed account of eight bytes is still listed under its discriminator. -/
theorem discriminator_survives_removal :
    let view : AccountView :=
      { pubkey := Vector.replicate 32 9, lamports := 1, data := [1, 2, 3, 4, 5, 6, 7, 8],
        owner := Vector.replicate 32 1, executable := false, slot := 1, writeVersion := 1,
        rentEpoch := 0, storageType := .delta, location := ⟨0, 0, 0, 0, 0, 1, 1, .delta⟩ }
    ¬ Along (ofFun step) Cleared (start : IndexRun SortedIds) [.update view 1, .remove view.pubkey] := by
  intro view cleared
  obtain ⟨last, _⟩ := (cleared _ rfl).2 _ rfl
  have recorded := recorded_update (start_recorded (S := SortedIds)) view 1
  have erasable := (cleared_iff recorded view.pubkey).mp (last view.pubkey rfl)
  have short := erasable.short view (by decide)
  exact absurd short (by decide)

end IndexRun

end Hyperplane
