import Hyperplane.Cache.L1HotCache

/-! How many entries the hot account cache holds. An insert into a full cache
makes room only by what has outlived its TTL. -/
namespace Hyperplane
open Maps Transition

namespace L1HotCache

variable (self : L1HotCache)

def HasOutlived (now : Nat) : Prop :=
  ∃ key entry, self.cache[key]? = some entry ∧ outlived self.config now key entry = true

def Bounded : Prop := self.cache.size ≤ self.config.maxEntries

theorem size_evictStaleEntries_le (now : Nat) : (self.evictStaleEntries now).cache.size ≤ self.cache.size :=
  Std.TreeMap.size_filter_le_size

theorem size_evictStaleEntries_lt_iff (now : Nat) :
    (self.evictStaleEntries now).cache.size < self.cache.size ↔ self.HasOutlived now := by
  have bound := self.size_evictStaleEntries_le now
  have same : (self.evictStaleEntries now).cache.size = self.cache.size ↔ ¬ self.HasOutlived now := by
    refine (Std.TreeMap.size_filter_eq_size_iff).trans ?_
    constructor
    · rintro young ⟨key, entry, found, old⟩
      obtain ⟨member, rfl⟩ := Std.TreeMap.getElem?_eq_some_iff.mp found
      have kept := young key member
      rw [Std.TreeMap.getKey_eq, old] at kept
      cases kept
    · intro none key member
      rw [Std.TreeMap.getKey_eq, Bool.not_eq_true']
      refine Bool.eq_false_iff.mpr fun old => none ⟨key, self.cache[key], ?_, old⟩
      exact Std.TreeMap.getElem?_eq_some_getElem member
  rw [← not_iff_not, ← same]
  omega

theorem hasOutlived_of_evicted {now : Nat} {key : CacheKey} (present : key ∈ self.cache)
    (evicted : key ∉ (self.evictStaleEntries now).cache) : self.HasOutlived now := by
  have found := Std.TreeMap.getElem?_eq_some_getElem present
  have gone := Std.TreeMap.getElem?_eq_none evicted
  rw [getElem?_evictStaleEntries, found, Option.filter_eq_none_iff] at gone
  have old := gone _ rfl
  rw [Bool.not_eq_true', Bool.not_eq_false] at old
  exact ⟨key, _, found, old⟩

/-- One insert keeps the bound exactly if the cache has room, has the key, or has an
entry to evict. -/
theorem insert_bounded_iff {self : L1HotCache} (bounded : self.Bounded) (now : Nat) (key : CacheKey)
    (entry : L1CacheEntry) : (self.insert now key entry).Bounded ↔
      (self.full = true → key ∈ self.cache ∨ self.HasOutlived now) := by
  unfold Bounded at bounded
  by_cases full : self.full = true
  · have atMost := self.size_evictStaleEntries_le now
    have fewer := self.size_evictStaleEntries_lt_iff now
    have reached : self.config.maxEntries ≤ self.cache.size := of_decide_eq_true full
    have after : (self.insert now key entry).Bounded ↔
        ((self.evictStaleEntries now).cache.insert key entry).size ≤ self.config.maxEntries := by
      simp only [Bounded, insert, full, if_true]
      exact Iff.rfl
    rw [after, Std.TreeMap.size_insert]
    simp only [full, forall_const]
    by_cases kept : key ∈ (self.evictStaleEntries now).cache
    · rw [if_pos (Std.TreeMap.contains_iff_mem.mpr kept)]
      exact iff_of_true (by omega) (.inl (Std.TreeMap.mem_of_mem_filter kept))
    · rw [if_neg (fun present => kept (Std.TreeMap.contains_iff_mem.mp present))]
      have either : key ∈ self.cache ∨ self.HasOutlived now ↔ self.HasOutlived now :=
        or_iff_right_of_imp fun present => self.hasOutlived_of_evicted present kept
      rw [either, ← fewer]
      omega
  · have room : ¬ self.config.maxEntries ≤ self.cache.size := fun reached => full (decide_eq_true reached)
    refine iff_of_true ?_ fun impossible => absurd impossible full
    simp only [Bounded, insert, if_neg full]
    exact Nat.le_trans Std.TreeMap.size_insert_le (by omega)

theorem size_removeAll_le (named : Pubkey → Bool) : (self.removeAll named).cache.size ≤ self.cache.size := by
  have erased (keys : List CacheKey) (map : Std.TreeMap CacheKey L1CacheEntry) :
      (keys.foldl (·.erase ·) map).size ≤ map.size := by
    induction keys generalizing map with
    | nil => exact Nat.le_refl _
    | cons key rest ih => exact Nat.le_trans (ih _) Std.TreeMap.size_erase_le
  exact erased _ self.cache

theorem size_get (key : CacheKey) : (self.get key).2.cache.size = self.cache.size := by
  unfold get
  cases found : self.cache[key]? with
  | none => rfl
  | some entry =>
    have present : self.cache.contains key = true :=
      Std.TreeMap.contains_iff_mem.mpr (Std.TreeMap.mem_iff_isSome_getElem?.mpr (by rw [found]; rfl))
    exact Std.TreeMap.size_insert.trans (if_pos present)

end L1HotCache

namespace L1Run

/-- The cache holds at most as many entries as it is configured for. -/
def WithinSize (_ : L1Run) (_ : Nat × L1Call) (t : L1Run) : Prop := t.cache.Bounded

/-- An insert finds the cache below its capacity, the key in it, or an entry that has
outlived its TTL. -/
def MakesRoom (s : L1Run) (event : Nat × L1Call) (_ : L1Run) : Prop :=
  match event with
  | (now, .insert key _) => s.cache.full = true → key ∈ s.cache.cache ∨ s.cache.HasOutlived now
  | _ => True

theorem withinSize_iff {s : L1Run} (bounded : s.cache.Bounded) (event : Nat × L1Call) :
    (s.call event.1 event.2).cache.Bounded ↔ s.MakesRoom event (s.call event.1 event.2) := by
  obtain ⟨now, call⟩ := event
  have shrinks (named : Pubkey → Bool) : (s.cache.removeAll named).Bounded :=
    Nat.le_trans (s.cache.size_removeAll_le named) bounded
  cases call with
  | insert key entry => exact L1HotCache.insert_bounded_iff bounded now key entry
  | get key =>
    have config := s.config_call now (.get key)
    refine iff_of_true ?_ trivial
    unfold L1HotCache.Bounded
    rw [config]
    exact Nat.le_trans (Nat.le_of_eq (s.cache.size_get key)) bounded
  | invalidate pubkey => exact iff_of_true (shrinks _) trivial
  | invalidateBatch pubkeys => exact iff_of_true (shrinks _) trivial
  | clear => exact iff_of_true (Nat.zero_le _) trivial

/-- A run stays within the size exactly when no insert of a new key finds the cache
full of entries within their TTL. -/
theorem size_bounded_iff (config : L1CacheConfig) (events : List (Nat × L1Call)) :
    Along (ofPartial step) WithinSize (start config) events ↔
      Along (ofPartial step) MakesRoom (start config) events := by
  have exact_step (s : L1Run) (event : Nat × L1Call) (t : L1Run) (bounded : s.cache.Bounded)
      (taken : ofPartial step s event t) : s.WithinSize event t ↔ s.MakesRoom event t := by
    obtain ⟨_, rfl⟩ := step_eq_some.mp taken
    exact withinSize_iff bounded event
  refine along_step_iff (fun s => s.cache.Bounded) exact_step ?_ (Nat.zero_le _) events
  intro s event t bounded taken room
  exact (exact_step s event t bounded taken).mpr room

/-- Two entries of the same moment in a cache for one. -/
theorem fresh_entries_exceed_size :
    let key (byte : UInt8) : CacheKey := ⟨Vector.replicate 32 byte, .base64, .processed⟩
    let entry := L1CacheEntry.new 0 [1, 2, 3] .base64 100 1
    ¬ Along (ofPartial step) WithinSize (start { maxEntries := 1 })
      [(0, .insert (key 1) entry), (0, .insert (key 2) entry)] := by
  intro key entry along
  obtain ⟨_, later⟩ := along _ rfl
  obtain ⟨bounded, _⟩ := later _ rfl
  revert bounded
  unfold WithinSize L1HotCache.Bounded
  decide +kernel

end L1Run

end Hyperplane
