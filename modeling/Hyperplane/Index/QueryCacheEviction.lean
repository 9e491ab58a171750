import Hyperplane.Index.QueryCache
import Hyperplane.Lib.Transition

/-! What an insert into a map in memory evicts. A full map makes room before it
knows whether the key is new. -/
namespace Hyperplane
open Maps Transition

namespace MemoryCache

section insert

variable (self : MemoryCache) (order : HashOrder UInt64) (rank : CacheEntry → UInt64)

/-- The key that a full map would evict. -/
def victim : Option UInt64 :=
  let ranked key := ((self.entries[key]?).map fun entry => (rank entry).toNat).getD 0
  (order.list self.entries.keys.toFinset).argmin ranked

theorem mem_of_victim {self : MemoryCache} {order : HashOrder UInt64} {rank : CacheEntry → UInt64}
    {key : UInt64} (chosen : self.victim order rank = some key) : key ∈ self.entries := by
  have listed := (order.mem_list _ key).mp (List.argmin_mem chosen)
  exact Std.TreeMap.mem_keys.mp (List.mem_toFinset.mp listed)

theorem exists_victim (occupied : 0 < self.entries.size) :
    ∃ key, self.victim order rank = some key := by
  refine Option.ne_none_iff_exists'.mp fun none => ?_
  have empty : order.list self.entries.keys.toFinset = [] := List.argmin_eq_none.mp none
  have count := order.length_list self.entries.keys.toFinset
  rw [empty, List.toFinset_card_of_nodup Std.TreeMap.nodup_keys, Std.TreeMap.length_keys] at count
  exact Nat.ne_of_lt occupied count

theorem victim_eq_of_least {self : MemoryCache} {rank : CacheEntry → UInt64} {key : UInt64}
    (present : key ∈ self.entries) (least : self.entries.keys.all fun other => other = key ∨
      ((self.entries[key]?).map fun entry => (rank entry).toNat).getD 0 <
        ((self.entries[other]?).map fun entry => (rank entry).toNat).getD 0)
    (order : HashOrder UInt64) : self.victim order rank = some key := by
  have listed : key ∈ order.list self.entries.keys.toFinset :=
    (order.mem_list _ key).mpr (List.mem_toFinset.mpr (Std.TreeMap.mem_keys.mpr present))
  cases chosen : self.victim order rank with
  | none => exact absurd (List.argmin_eq_none.mp chosen) (List.ne_nil_of_mem listed)
  | some other =>
    have here := List.all_eq_true.mp least other (Std.TreeMap.mem_keys.mpr (mem_of_victim chosen))
    rcases of_decide_eq_true here with same | lower
    · rw [same]
    · exact absurd (List.le_of_mem_argmin listed chosen) (Nat.not_le_of_lt lower)

theorem entries_evict : (self.evict order rank).entries =
    ((self.victim order rank).map self.entries.erase).getD self.entries := by
  unfold evict victim
  dsimp only
  split
  · rename_i chosen
    rw [chosen]
    rfl
  · rename_i none
    rw [none]
    rfl

theorem mem_evict (other : UInt64) : other ∈ (self.evict order rank).entries ↔
    other ∈ self.entries ∧ self.victim order rank ≠ some other := by
  rw [entries_evict]
  cases self.victim order rank with
  | none => simp
  | some key => simp [Std.TreeMap.mem_erase, and_comm]

theorem size_evict (occupied : 0 < self.entries.size) :
    (self.evict order rank).entries.size + 1 = self.entries.size := by
  obtain ⟨key, chosen⟩ := self.exists_victim order rank occupied
  have present := Std.TreeMap.contains_iff_mem.mpr (mem_of_victim chosen)
  rw [entries_evict, chosen, Option.map_some, Option.getD_some, Std.TreeMap.size_erase, if_pos present]
  omega

/-- The map is full: an insert evicts first. -/
def Full : Prop := self.maxSize ≤ self.entries.size

theorem mem_insert (key : UInt64) (entry : CacheEntry) (other : UInt64) :
    other ∈ (self.insert order rank key entry).2.entries ↔
      other = key ∨ (other ∈ self.entries ∧ ¬ (self.Full ∧ self.victim order rank = some other)) := by
  unfold insert Full
  by_cases full : self.maxSize ≤ self.entries.size
  · simp [full, Std.TreeMap.mem_insert, mem_evict, eq_comm (a := key)]
  · simp [full, Std.TreeMap.mem_insert, eq_comm (a := key)]

theorem size_insert_le {self : MemoryCache} (room : 1 ≤ self.maxSize)
    (bounded : self.entries.size ≤ self.maxSize) (order : HashOrder UInt64) (rank : CacheEntry → UInt64)
    (key : UInt64) (entry : CacheEntry) :
    (self.insert order rank key entry).2.entries.size ≤ self.maxSize := by
  unfold insert
  refine Nat.le_trans Std.TreeMap.size_insert_le ?_
  split
  · have less := self.size_evict order rank (by omega)
    omega
  · omega

end insert

theorem size_get_le (self : MemoryCache) (now key : UInt64) :
    (self.get now key).2.entries.size ≤ self.entries.size := by
  unfold get
  cases found : self.entries[key]? with
  | none => exact Nat.le_refl _
  | some entry =>
    have present : self.entries.contains key = true :=
      Std.TreeMap.contains_iff_mem.mpr (Std.TreeMap.mem_iff_isSome_getElem?.mpr (by rw [found]; rfl))
    dsimp only
    split
    · exact Std.TreeMap.size_erase_le
    · exact Nat.le_of_eq (Std.TreeMap.size_insert.trans (if_pos present))

theorem maxSize_get (self : MemoryCache) (now key : UInt64) : (self.get now key).2.maxSize = self.maxSize := by
  unfold get
  cases self.entries[key]? with
  | none => rfl
  | some entry =>
    dsimp only
    split <;> rfl

theorem maxSize_insert (self : MemoryCache) (order : HashOrder UInt64) (rank : CacheEntry → UInt64)
    (key : UInt64) (entry : CacheEntry) : (self.insert order rank key entry).2.maxSize = self.maxSize := by
  unfold insert evict
  dsimp only
  split
  · split <;> rfl
  · rfl

end MemoryCache

inductive MemoryCall where
  | insert (order : HashOrder UInt64) (key : UInt64) (entry : CacheEntry)
  | get (now key : UInt64)
  | remove (key : UInt64)

namespace MemoryCache

def call (rank : CacheEntry → UInt64) (self : MemoryCache) : MemoryCall → MemoryCache
  | .insert order key entry => (self.insert order rank key entry).2
  | .get now key => (self.get now key).2
  | .remove key => (self.remove key).2

/-- The map stays within its size. An insert of a key that it has removes no other one;
an insert of a new key removes at most one, and none unless the map is full. -/
def Framed (maxSize : Nat) (s : MemoryCache) (call : MemoryCall) (t : MemoryCache) : Prop :=
  t.entries.size ≤ maxSize ∧ match call with
  | .insert _ key _ =>
    (key ∈ s.entries → ∀ other ∈ s.entries, other ∈ t.entries) ∧
    (key ∉ s.entries → ∀ gone ∈ s.entries, gone ∉ t.entries →
      maxSize ≤ s.entries.size ∧ ∀ other ∈ s.entries, other ∉ t.entries → other = gone)
  | _ => True

/-- Where a full map has the key, the key is the entry to evict. -/
def EvictsItself (rank : CacheEntry → UInt64) (s : MemoryCache) (call : MemoryCall) (_ : MemoryCache) : Prop :=
  match call with
  | .insert order key _ => key ∈ s.entries → s.Full → s.victim order rank = some key
  | _ => True

/-- What every run keeps. -/
structure Sized (maxSize : Nat) (s : MemoryCache) : Prop where
  capacity : s.maxSize = maxSize
  bounded : s.entries.size ≤ maxSize

variable {maxSize : Nat} {s : MemoryCache}

theorem Sized.call (h : s.Sized maxSize) (room : 1 ≤ maxSize) (rank : CacheEntry → UInt64)
    (call : MemoryCall) : (s.call rank call).Sized maxSize := by
  obtain ⟨rfl, bounded⟩ := h
  cases call with
  | insert order key entry =>
    exact ⟨s.maxSize_insert order rank key entry, size_insert_le room bounded order rank key entry⟩
  | get now key => exact ⟨s.maxSize_get now key, Nat.le_trans (s.size_get_le now key) bounded⟩
  | remove key => exact ⟨rfl, Nat.le_trans Std.TreeMap.size_erase_le bounded⟩

theorem Sized.framed_iff (h : s.Sized maxSize) (room : 1 ≤ maxSize) (rank : CacheEntry → UInt64)
    (call : MemoryCall) : s.Framed maxSize call (s.call rank call) ↔
      s.EvictsItself rank call (s.call rank call) := by
  refine (and_iff_right (h.call room rank call).bounded).trans ?_
  obtain ⟨rfl, bounded⟩ := h
  cases call with
  | insert order key entry =>
    have stays := s.mem_insert order rank key entry
    -- What an insert of a new key removes is the victim of a full map.
    have one : ∀ gone ∈ s.entries, gone ∉ (s.insert order rank key entry).2.entries →
        s.Full ∧ s.victim order rank = some gone := by
      intro gone before after
      rw [stays, not_or] at after
      by_contra spared
      exact after.2 ⟨before, spared⟩
    refine (and_iff_left ?_).trans ?_
    · intro _ gone before after
      obtain ⟨full, chosen⟩ := one gone before after
      refine ⟨full, fun other among absent => ?_⟩
      have same := (one other among absent).2.symm.trans chosen
      exact Option.some.inj same
    · refine imp_congr_right fun present => ?_
      constructor
      · intro kept full
        obtain ⟨victim, chosen⟩ := s.exists_victim order rank (Nat.lt_of_lt_of_le room full)
        rcases (stays victim).mp (kept victim (mem_of_victim chosen)) with rfl | ⟨_, spared⟩
        · exact chosen
        · exact absurd ⟨full, chosen⟩ spared
      · intro itself other among
        refine (stays other).mpr ?_
        by_cases same : other = key
        · exact .inl same
        · refine .inr ⟨among, fun ⟨full, chosen⟩ => same ?_⟩
          exact Option.some.inj (chosen.symm.trans (itself full))
  | _ => exact Iff.rfl

theorem runs_framed_iff (room : 1 ≤ maxSize) (rank : CacheEntry → UInt64) (calls : List MemoryCall) :
    Along (ofFun (call rank)) (Framed maxSize) (new maxSize) calls ↔
      Along (ofFun (call rank)) (EvictsItself rank) (new maxSize) calls := by
  refine along_ofFun_iff (Sized maxSize) ?_ ?_ ⟨rfl, Nat.zero_le _⟩ calls
  · intro s call h
    exact h.framed_iff room rank call
  · intro s call h _
    exact h.call room rank call

end MemoryCache

abbrev L1Cache.call := MemoryCache.call CacheEntry.lastAccess

abbrev L2Cache.call := MemoryCache.call CacheEntry.accessCount

open MemoryCache

/-- Both caches evict another key for one that they have already. -/
theorem inserts_framed_iff {maxSize : Nat} (room : 1 ≤ maxSize) (calls : List MemoryCall) :
    (Along (ofFun L1Cache.call) (Framed maxSize) (new maxSize) calls ↔
      Along (ofFun L1Cache.call) (EvictsItself CacheEntry.lastAccess) (new maxSize) calls) ∧
    (Along (ofFun L2Cache.call) (Framed maxSize) (new maxSize) calls ↔
      Along (ofFun L2Cache.call) (EvictsItself CacheEntry.accessCount) (new maxSize) calls) :=
  ⟨runs_framed_iff room _ calls, runs_framed_iff room _ calls⟩

/-- In a full cache the key that is written again is the one least recently used, and
the one least often. -/
theorem inserts_framed_victim :
    let calls : List MemoryCall := [.insert (.some UInt64) 1 (.new 0 [1] 100 60),
      .insert (.some UInt64) 2 (.new 1 [2] 100 60), .get 3 2, .insert (.some UInt64) 1 (.new 4 [3] 101 60)]
    1 ≤ 2 ∧ Along (ofFun L1Cache.call) (Framed 2) (new 2) calls ∧
      Along (ofFun L2Cache.call) (Framed 2) (new 2) calls := by
  intro calls
  refine ⟨by decide, (inserts_framed_iff (by decide) calls).1.mpr ?_,
    (inserts_framed_iff (by decide) calls).2.mpr ?_⟩
  all_goals
    simp only [calls, Along, ofFun, forall_eq', and_true]
    refine ⟨fun present => absurd present (by decide +kernel),
      fun present => absurd present (by decide +kernel), trivial, fun _ _ => ?_⟩
    exact victim_eq_of_least (by decide +kernel) (by decide +kernel) _

theorem overwritten_key_evicts_another :
    let entry (now : UInt64) := CacheEntry.new now [1] 100 60
    ¬ Along (ofFun L1Cache.call) (Framed 2) (new 2) [.insert (.some UInt64) 1 (entry 0),
      .insert (.some UInt64) 2 (entry 5), .insert (.some UInt64) 2 (entry 6)] := by
  intro entry along
  obtain ⟨_, second⟩ := along _ rfl
  obtain ⟨_, third⟩ := second _ rfl
  obtain ⟨framed, _⟩ := third _ rfl
  have empty : (new 2).Sized 2 := ⟨rfl, Nat.zero_le 2⟩
  have first := empty.call (by decide) CacheEntry.lastAccess (.insert (.some UInt64) 1 (entry 0))
  have both := first.call (by decide) CacheEntry.lastAccess (.insert (.some UInt64) 2 (entry 5))
  have itself := (both.framed_iff (by decide) CacheEntry.lastAccess _).mp framed
  have chosen := itself (by decide +kernel) (by unfold Full; decide +kernel)
  have least := List.le_of_mem_argmin (a := 1) ?_ chosen
  · revert least
    decide +kernel
  · refine (HashOrder.mem_list _ _ _).mpr (List.mem_toFinset.mpr (Std.TreeMap.mem_keys.mpr ?_))
    decide +kernel

end Hyperplane
