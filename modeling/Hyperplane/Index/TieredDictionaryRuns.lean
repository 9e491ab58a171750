import Hyperplane.Index.TieredDictionary
import Hyperplane.Lib.Transition

/-! Which account ids a lookup finds after inserts, demotions and lookups. -/
namespace Hyperplane
open Maps Transition DictEntries

inductive TieredDictCall where
  | insert (key : UInt64) (accountId : UInt32)
  | demoteL1ToL2 (key : UInt64)
  | demoteL2ToL3 (key : UInt64)
  | get (key : UInt64)
  | updateSlot (slot : UInt64)

def TieredDictCall.insertedKey : TieredDictCall → Option UInt64
  | .insert key _ => some key
  | _ => none

/-- The keys that the calls insert something under. -/
def insertedKeys (calls : List TieredDictCall) : Finset UInt64 :=
  (calls.filterMap TieredDictCall.insertedKey).toFinset

/-- The dictionary, and the ids inserted so far under their keys. -/
structure TieredDictRun where
  dict : TieredDictionary
  inserted : List (UInt64 × UInt32)

namespace TieredDictRun

def start (l1Size l2Size : Nat) : TieredDictRun := ⟨.new l1Size l2Size, []⟩

def step (s : TieredDictRun) : TieredDictCall → TieredDictRun
  | .insert key accountId => ⟨s.dict.insert key accountId, (key, accountId) :: s.inserted⟩
  | .demoteL1ToL2 key => { s with dict := s.dict.demoteL1ToL2 key }
  | .demoteL2ToL3 key => { s with dict := s.dict.demoteL2ToL3 key }
  | .get key => { s with dict := (s.dict.get key).2 }
  | .updateSlot slot => { s with dict := s.dict.updateSlot slot }

/-- A lookup returns an entry with exactly the ids inserted under its key. -/
def Complete (s : TieredDictRun) : Prop :=
  ∀ key id, (∃ entry, (s.dict.get key).1 = some entry ∧ id ∈ entry.accountIds) ↔ (key, id) ∈ s.inserted

/-- A call drops no id: a key that is not hot gets its first hot id only while
it has no other id in the second tier, and an entry is demoted only while all
its ids but the first are in the second tier already. -/
def Carried (s : TieredDictRun) : TieredDictCall → Prop
  | .insert key accountId => s.dict.hot key ≠ [] ∨ ∀ id ∈ s.dict.warm key, id = accountId
  | .demoteL1ToL2 key => ∀ id ∈ s.dict.hot key, (s.dict.hot key).head? = some id ∨ id ∈ s.dict.warm key
  | .demoteL2ToL3 _ => True
  | .get key => s.dict.hot key ≠ [] ∨ ∀ id ∈ s.dict.warm key, (s.dict.warm key).head? = some id
  | .updateSlot _ => True

instance (s : TieredDictRun) : ∀ call, Decidable (s.Carried call)
  | .insert key _ => @instDecidableOr _ _ inferInstance (List.decidableBAll _ (s.dict.warm key))
  | .demoteL1ToL2 key => List.decidableBAll _ (s.dict.hot key)
  | .demoteL2ToL3 _ => instDecidableTrue
  | .get key => @instDecidableOr _ _ inferInstance (List.decidableBAll _ (s.dict.warm key))
  | .updateSlot _ => instDecidableTrue

/-- The tiers have only inserted ids, and room for the keys; what is in the third
tier is in the second as well. -/
structure Stored (keys : Finset UInt64) (s : TieredDictRun) : Prop where
  hot : ∀ key, ∀ id ∈ s.dict.hot key, (key, id) ∈ s.inserted
  warm : ∀ key, ∀ id ∈ s.dict.warm key, (key, id) ∈ s.inserted
  cold : ∀ key, ∀ id ∈ s.dict.cold key, id ∈ s.dict.warm key
  among : ∀ key id, (key, id) ∈ s.inserted → key ∈ keys
  l1Size : keys.card ≤ s.dict.l1.maxSize
  l2Size : keys.card ≤ s.dict.l2.maxSize

theorem start_stored {keys : Finset UInt64} {l1Size l2Size : Nat} (l1 : keys.card ≤ l1Size)
    (l2 : keys.card ≤ l2Size) : (start l1Size l2Size).Stored keys := by
  have empty (key : UInt64) : listed ∅ key = [] := listed_none (by simp)
  refine ⟨?_, ?_, ?_, by simp [start], l1, l2⟩
  all_goals
    intro key id member
    exact absurd (empty key ▸ show id ∈ listed ∅ key from member) List.not_mem_nil

variable {keys : Finset UInt64} {s : TieredDictRun}

/-- No tier is ever full when a key comes that it does not have. -/
theorem Stored.roomy (h : s.Stored keys) {key : UInt64} (member : key ∈ keys) : s.dict.Roomy key := by
  have inside {entries : DictEntries} (known : ∀ key, ∀ id ∈ listed entries key, (key, id) ∈ s.inserted)
      (a : UInt64) (entry : DictEntry) (found : entries[a]? = some entry) : a ∈ keys :=
    h.among a entry.first (known a entry.first (listed_some found ▸ entry.first_mem))
  refine ⟨fun absent => if_neg ?_, fun absent => if_neg ?_⟩
  · exact Nat.not_le.mpr ((size_lt_card (inside h.hot) member absent).trans_le h.l1Size)
  · exact Nat.not_le.mpr ((size_lt_card (inside h.warm) member absent).trans_le h.l2Size)

theorem Stored.roomy_hot (h : s.Stored keys) {key : UInt64} (present : s.dict.hot key ≠ []) :
    s.dict.Roomy key := by
  obtain ⟨id, member⟩ := List.exists_mem_of_ne_nil _ present
  exact h.roomy (h.among key id (h.hot key id member))

theorem Stored.roomy_warm (h : s.Stored keys) {key : UInt64} (present : s.dict.warm key ≠ []) :
    s.dict.Roomy key := by
  obtain ⟨id, member⟩ := List.exists_mem_of_ne_nil _ present
  exact h.roomy (h.among key id (h.warm key id member))

theorem sizes_step (s : TieredDictRun) (call : TieredDictCall) :
    (s.step call).dict.sizes = s.dict.sizes := by
  cases call with
  | insert key id => rfl
  | demoteL1ToL2 key => exact s.dict.sizes_demoteL1ToL2 key
  | demoteL2ToL3 key => exact s.dict.sizes_demoteL2ToL3 key
  | get key => exact s.dict.sizes_get key
  | updateSlot slot => rfl

theorem Stored.step (h : s.Stored keys) {call : TieredDictCall}
    (label : ∀ key, call.insertedKey = some key → key ∈ keys) : (s.step call).Stored keys := by
  obtain ⟨l1, l2⟩ := Prod.mk.inj (sizes_step s call)
  have l1Size := h.l1Size.trans_eq l1.symm
  have l2Size := h.l2Size.trans_eq l2.symm
  cases call with
  | insert key accountId =>
    have member := label key rfl
    refine ⟨fun other id => ?_, fun other id warm => ?_, h.cold, fun other id => ?_, l1Size, l2Size⟩
    · rw [TieredDictRun.step, TieredDictionary.mem_hot_insert (h.roomy member), List.mem_cons]
      rintro (⟨rfl, rfl⟩ | old)
      · exact .inl rfl
      · exact .inr (h.hot other id old)
    · exact List.mem_cons_of_mem _ (h.warm other id warm)
    · intro inserted
      rcases List.mem_cons.mp inserted with new | old
      · cases new
        exact member
      · exact h.among other id old
  | demoteL1ToL2 key =>
    refine ⟨fun other id => ?_, fun other id => ?_, fun other id => ?_, h.among, l1Size, l2Size⟩
    · rw [TieredDictRun.step, TieredDictionary.hot_demoteL1ToL2]
      split
      · intro impossible
        cases impossible
      · exact h.hot other id
    · rw [TieredDictRun.step, TieredDictionary.mem_warm_demoteL1ToL2 h.roomy_hot]
      rintro (⟨rfl, first⟩ | old)
      · exact h.hot other id (List.mem_of_head? first)
      · exact h.warm other id old
    · rw [TieredDictRun.step, TieredDictionary.cold_demoteL1ToL2,
        TieredDictionary.mem_warm_demoteL1ToL2 h.roomy_hot]
      exact fun cold => .inr (h.cold other id cold)
  | demoteL2ToL3 key =>
    refine ⟨fun other id => ?_, fun other id => ?_, fun other id => ?_, h.among, l1Size, l2Size⟩
    · rw [TieredDictRun.step, TieredDictionary.hot_demoteL2ToL3]
      exact h.hot other id
    · rw [TieredDictRun.step, TieredDictionary.warm_demoteL2ToL3]
      exact h.warm other id
    · rw [TieredDictRun.step, TieredDictionary.warm_demoteL2ToL3, TieredDictionary.mem_cold_demoteL2ToL3]
      rintro (⟨rfl, first⟩ | old)
      · exact List.mem_of_head? first
      · exact h.cold other id old
  | get key =>
    refine ⟨fun other id => ?_, fun other id => ?_, fun other id => ?_, h.among, l1Size, l2Size⟩
    · rw [TieredDictRun.step, TieredDictionary.mem_hot_get h.roomy_warm]
      rintro (⟨rfl, _, first⟩ | old)
      · exact h.warm other id (List.mem_of_head? first)
      · exact h.hot other id old
    · rw [TieredDictRun.step, TieredDictionary.warm_get]
      exact h.warm other id
    · rw [TieredDictRun.step, TieredDictionary.warm_get, TieredDictionary.cold_get]
      exact h.cold other id
  | updateSlot slot => exact ⟨h.hot, h.warm, h.cold, h.among, l1Size, l2Size⟩

/-- The third tier adds nothing to what a lookup finds. -/
def Finds (s : TieredDictRun) (key : UInt64) (id : UInt32) : Prop :=
  id ∈ s.dict.hot key ∨ (s.dict.hot key = [] ∧ id ∈ s.dict.warm key)

theorem Stored.complete_iff (h : s.Stored keys) :
    s.Complete ↔ ∀ key id, s.Finds key id ↔ (key, id) ∈ s.inserted := by
  have none (key : UInt64) (id : UInt32) : ¬ (s.dict.warm key = [] ∧ id ∈ s.dict.cold key) := by
    rintro ⟨empty, member⟩
    exact absurd (empty ▸ h.cold key id member) List.not_mem_nil
  simp only [Complete, TieredDictionary.get_finds, none, or_false, Finds]

theorem insert_complete_iff (h : s.Stored keys) (complete : s.Complete) {key : UInt64}
    (member : key ∈ keys) (accountId : UInt32) :
    (s.step (.insert key accountId)).Complete ↔ s.Carried (.insert key accountId) := by
  have before := h.complete_iff.mp complete
  have after : (s.step (.insert key accountId)).Stored keys := h.step (by rintro _ ⟨⟩; exact member)
  have roomy := h.roomy member
  rw [after.complete_iff]
  simp only [Finds, step, TieredDictionary.mem_hot_insert roomy, TieredDictionary.hot_insert_eq_nil_iff roomy,
    TieredDictionary.warm_insert, List.mem_cons, ← before, Prod.mk.injEq]
  constructor
  · intro all
    by_cases present : s.dict.hot key = []
    · refine .inr fun id below => ?_
      rcases (all key id).mpr (.inr (.inr ⟨present, below⟩)) with (⟨_, same⟩ | above) | ⟨⟨other, _⟩, _⟩
      · exact same
      · exact absurd (present ▸ above) List.not_mem_nil
      · exact absurd rfl other
    · exact .inl present
  · intro carried other id
    by_cases same : other = key
    · subst same
      rcases carried with present | only
      · simp [present]
      · have covered := only id
        simp only [true_and, ne_eq, not_true_eq_false, false_and, or_false]
        tauto
    · simp [same]

theorem demoteL1ToL2_complete_iff (h : s.Stored keys) (complete : s.Complete) (key : UInt64) :
    (s.step (.demoteL1ToL2 key)).Complete ↔ s.Carried (.demoteL1ToL2 key) := by
  have before := h.complete_iff.mp complete
  have after : (s.step (.demoteL1ToL2 key)).Stored keys := h.step (by rintro _ ⟨⟩)
  have mem_warm := @TieredDictionary.mem_warm_demoteL1ToL2 s.dict key h.roomy_hot
  rw [after.complete_iff]
  simp only [Finds, step, TieredDictionary.hot_demoteL1ToL2, mem_warm]
  constructor
  · intro all id hot
    have found := (all key id).mpr ((before key id).mp (.inl hot))
    simpa using found
  · intro carried other id
    rw [← before]
    by_cases same : other = key
    · subst same
      have inserted := (before other id).mpr
      have known := h.warm other id
      have covered := carried id
      have first := @List.mem_of_head? _ (s.dict.hot other) id
      simp only [if_true, List.not_mem_nil, true_and, false_or]
      constructor
      · rintro (head | warm)
        · exact .inl (first head)
        · exact inserted (known warm)
      · rintro (hot | ⟨_, warm⟩)
        · exact covered hot
        · exact .inr warm
    · simp [same, Finds]

theorem demoteL2ToL3_complete (h : s.Stored keys) (complete : s.Complete) (key : UInt64) :
    (s.step (.demoteL2ToL3 key)).Complete := by
  have after : (s.step (.demoteL2ToL3 key)).Stored keys := h.step (by rintro _ ⟨⟩)
  rw [after.complete_iff]
  simp only [Finds, step, TieredDictionary.hot_demoteL2ToL3, TieredDictionary.warm_demoteL2ToL3]
  exact h.complete_iff.mp complete

theorem get_complete_iff (h : s.Stored keys) (complete : s.Complete) (key : UInt64) :
    (s.step (.get key)).Complete ↔ s.Carried (.get key) := by
  have before := h.complete_iff.mp complete
  have after : (s.step (.get key)).Stored keys := h.step (by rintro _ ⟨⟩)
  rw [after.complete_iff]
  simp only [Finds, step, TieredDictionary.mem_hot_get h.roomy_warm, TieredDictionary.warm_get,
    TieredDictionary.hot_get_eq_nil_iff h.roomy_warm, ← before]
  constructor
  · intro all
    by_cases present : s.dict.hot key = []
    · refine .inr fun id below => ?_
      rcases (all key id).mpr (.inr ⟨present, below⟩) with (⟨_, _, first⟩ | above) | ⟨⟨_, empty⟩, _⟩
      · exact first
      · exact absurd (present ▸ above) List.not_mem_nil
      · exact absurd (empty rfl ▸ below) List.not_mem_nil
    · exact .inl present
  · intro carried other id
    by_cases same : other = key
    · subst same
      rcases carried with present | only
      · simp [present]
      · have covered := only id
        have first := @List.mem_of_head? _ (s.dict.warm other) id
        have empty := @List.not_mem_nil _ id
        grind
    · simp [same]

theorem updateSlot_complete (complete : s.Complete) (slot : UInt64) :
    (s.step (.updateSlot slot)).Complete := by
  simp only [Complete, TieredDictionary.get_finds] at complete ⊢
  exact complete

theorem step_complete_iff (h : s.Stored keys) (complete : s.Complete) {call : TieredDictCall}
    (label : ∀ key, call.insertedKey = some key → key ∈ keys) :
    (s.step call).Complete ↔ s.Carried call := by
  cases call with
  | insert key id => exact insert_complete_iff h complete (label key rfl) id
  | demoteL1ToL2 key => exact demoteL1ToL2_complete_iff h complete key
  | demoteL2ToL3 key => exact iff_of_true (demoteL2ToL3_complete h complete key) trivial
  | get key => exact get_complete_iff h complete key
  | updateSlot slot => exact iff_of_true (updateSlot_complete complete slot) trivial

theorem start_complete (l1Size l2Size : Nat) : (start l1Size l2Size).Complete := by
  have empty := (@start_stored ∅ l1Size l2Size (Nat.zero_le _) (Nat.zero_le _))
  refine empty.complete_iff.mpr fun key id => ?_
  simp only [Finds, start, List.not_mem_nil, iff_false]
  rintro (hot | ⟨_, warm⟩)
  · exact absurd (empty.hot key id hot) List.not_mem_nil
  · exact absurd (empty.warm key id warm) List.not_mem_nil

/-- While the keys fit, every lookup is complete exactly as long as every call
carries all ids along. -/
theorem complete_iff_carried {l1Size l2Size : Nat} {calls : List TieredDictCall}
    (l1 : (insertedKeys calls).card ≤ l1Size) (l2 : (insertedKeys calls).card ≤ l2Size) :
    Along (ofFun step) (fun _ _ after => after.Complete) (start l1Size l2Size) calls ↔
      Along (ofFun step) (fun s call _ => s.Carried call) (start l1Size l2Size) calls := by
  refine along_iff (fun s => s.Stored (insertedKeys calls) ∧ s.Complete)
    (fun call => ∀ key, call.insertedKey = some key → key ∈ insertedKeys calls) _ _ ?_ ?_
    ⟨start_stored l1 l2, start_complete l1Size l2Size⟩ ?_
  · rintro s call _ h label rfl
    exact step_complete_iff h.1 h.2 label
  · rintro s call _ h label rfl carried
    exact ⟨h.1.step label, (step_complete_iff h.1 h.2 label).mpr carried⟩
  · intro call member key inserted
    exact List.mem_toFinset.mpr (List.mem_filterMap.mpr ⟨call, member, inserted⟩)

/-- A key keeps both its ids in L1 while another one's only id is carried through all
tiers and back. -/
theorem two_ids_carried : Along (ofFun step) (fun _ _ after => after.Complete) (start 2 2)
    [.insert 1000 1, .insert 1000 2, .insert 2000 3, .get 1000, .demoteL1ToL2 2000, .demoteL2ToL3 2000,
      .get 2000, .get 1000] := by
  refine (complete_iff_carried (by decide) (by decide)).mpr ?_
  simp only [Along, ofFun, forall_eq', and_true]
  decide +kernel

/-- The second id of the key is lost in the demotion. -/
theorem demoted_ids_lost : ¬ Along (ofFun step) (fun _ _ after => after.Complete) (start 100 1000)
    [.insert 1000 1, .insert 1000 2, .demoteL1ToL2 1000] := by
  intro h
  obtain ⟨_, second⟩ := h _ rfl
  obtain ⟨_, third⟩ := second _ rfl
  obtain ⟨complete, _⟩ := third _ rfl
  obtain ⟨entry, found, member⟩ := (complete 1000 2).mpr (by decide)
  have first : ([.insert 1000 1, .insert 1000 2, .demoteL1ToL2 1000].foldl step (start 100 1000)
    |>.dict.get 1000).1.map (·.accountIds) = some [1] := by decide +kernel
  have ids : entry.accountIds = [1] := Option.some.inj ((congrArg _ found).symm.trans first)
  rw [ids] at member
  revert member
  decide

/-- A lookup promotes the first id alone, and the next one finds only that. -/
theorem repeated_get_agrees_iff (l1Size l2Size : Nat) (calls : List TieredDictCall) (key : UInt64) :
    let dict := (calls.foldl step (start l1Size l2Size)).dict
    dict.GetsAgree key ↔ dict.hot key ≠ [] ∨ (dict.warm key).length ≤ 1 :=
  TieredDictionary.getsAgree_iff _ key

theorem second_get_loses_ids : ¬ TieredDictionary.GetsAgree
    ([.insert 1000 1, .demoteL1ToL2 1000, .insert 1000 2, .demoteL1ToL2 1000].foldl step
      (start 100 1000)).dict 1000 := by
  intro agree
  have single := (TieredDictionary.getsAgree_iff _ 1000).mp agree
  revert single
  decide +kernel

end TieredDictRun

end Hyperplane
