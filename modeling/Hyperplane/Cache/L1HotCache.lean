import Hyperplane.Lib.Maps
import Hyperplane.Lib.Transition
import Hyperplane.Types.Account

/-! The hot account cache. Entries outlive their TTL until an insert finds the
cache full. Instants are nanoseconds on a monotonic clock. -/
namespace Hyperplane
open Maps Transition

structure L1CacheEntry where
  data : List UInt8
  encoding : AccountEncoding
  cachedSlot : UInt64
  cachedWriteVersion : UInt64
  cachedAt : Nat
  accessCount : UInt64
  deriving DecidableEq

namespace L1CacheEntry

def new (now : Nat) (data : List UInt8) (encoding : AccountEncoding) (slot writeVersion : UInt64) :
    L1CacheEntry := ⟨data, encoding, slot, writeVersion, now, 1⟩

/-- Whether the version asked for is newer than the cached one. -/
def isStale (self : L1CacheEntry) (currentSlot currentWriteVersion : UInt64) : Bool :=
  if self.cachedSlot < currentSlot then true
  else if currentSlot = self.cachedSlot ∧ self.cachedWriteVersion < currentWriteVersion then true
  else false

def touch (self : L1CacheEntry) : L1CacheEntry := { self with accessCount := self.accessCount + 1 }

def ageMs (self : L1CacheEntry) (now : Nat) : Nat := (now - self.cachedAt) / 1000000

end L1CacheEntry

structure CacheKey where
  pubkey : Pubkey
  encoding : AccountEncoding
  commitment : CommitmentLevel
  deriving DecidableEq

namespace CacheKey

def order : CacheKey → CacheKey → Ordering :=
  compareLex (compareOn pubkey)
    (compareLex (compareOn fun key => key.encoding.ctorIdx) (compareOn fun key => key.commitment.ctorIdx))

instance : Ord CacheKey := ⟨order⟩

instance : Std.TransOrd CacheKey :=
  inferInstanceAs (Std.TransCmp (compareLex (compareOn pubkey)
    (compareLex (compareOn fun key : CacheKey => key.encoding.ctorIdx)
      (compareOn fun key : CacheKey => key.commitment.ctorIdx))))

instance : Std.LawfulEqOrd CacheKey where
  eq_of_compare {a b} same := by
    obtain ⟨pubkey, rest⟩ := compareLex_eq_eq.mp same
    obtain ⟨encoding, commitment⟩ := compareLex_eq_eq.mp rest
    obtain ⟨p, e, c⟩ := a
    obtain ⟨q, f, d⟩ := b
    have encodings : e.ctorIdx = f.ctorIdx := Std.LawfulEqOrd.eq_of_compare encoding
    have commitments : c.ctorIdx = d.ctorIdx := Std.LawfulEqOrd.eq_of_compare commitment
    cases (Std.LawfulEqOrd.eq_of_compare pubkey : p = q)
    have same : e = f := by cases e <;> cases f <;> first | rfl | cases encodings
    have level : c = d := by cases c <;> cases d <;> first | rfl | cases commitments
    rw [same, level]

end CacheKey

structure L1CacheConfig where
  maxEntries : Nat := 1000000
  processedTtlMs : UInt64 := 60000
  confirmedTtlMs : UInt64 := 300000
  finalizedTtlMs : UInt64 := 3600000

def L1CacheConfig.ttlMs (config : L1CacheConfig) : CommitmentLevel → UInt64
  | .processed => config.processedTtlMs
  | .confirmed => config.confirmedTtlMs
  | .finalized => config.finalizedTtlMs

structure L1CacheStats where
  hits : UInt64 := 0
  misses : UInt64 := 0
  inserts : UInt64 := 0
  invalidations : UInt64 := 0

structure L1HotCache where
  cache : Std.TreeMap CacheKey L1CacheEntry
  config : L1CacheConfig
  stats : L1CacheStats
  accessTracker : Std.TreeMap CacheKey UInt64

namespace L1HotCache

def new (config : L1CacheConfig) : L1HotCache := ⟨∅, config, {}, ∅⟩

/-- The age of the entry plays no part. -/
def get (self : L1HotCache) (key : CacheKey) : Option L1CacheEntry × L1HotCache :=
  match self.cache[key]? with
  | some entry =>
    (some entry.touch, { self with
      cache := self.cache.insert key entry.touch
      stats := { self.stats with hits := self.stats.hits + 1 } })
  | none => (none, { self with stats := { self.stats with misses := self.stats.misses + 1 } })

def outlived (config : L1CacheConfig) (now : Nat) (key : CacheKey) (entry : L1CacheEntry) : Bool :=
  (config.ttlMs key.commitment).toNat < entry.ageMs now

def evictStaleEntries (self : L1HotCache) (now : Nat) : L1HotCache :=
  { self with cache := self.cache.filter fun key entry => !outlived self.config now key entry }

def full (self : L1HotCache) : Bool := self.config.maxEntries ≤ self.cache.size

def insert (self : L1HotCache) (now : Nat) (key : CacheKey) (entry : L1CacheEntry) : L1HotCache :=
  let evicted := if self.full then self.evictStaleEntries now else self
  { evicted with
    cache := evicted.cache.insert key entry
    stats := { evicted.stats with inserts := evicted.stats.inserts + 1 }
    accessTracker := evicted.accessTracker.insert key 1 }

/-- The keys are collected first and then removed one by one. -/
def removeAll (self : L1HotCache) (named : Pubkey → Bool) : L1HotCache :=
  let keysToRemove := self.cache.keys.filter fun key => named key.pubkey
  { self with
    cache := keysToRemove.foldl (·.erase ·) self.cache
    stats := { self.stats with
      invalidations := self.stats.invalidations + UInt64.ofNat keysToRemove.length } }

def invalidate (self : L1HotCache) (pubkey : Pubkey) : L1HotCache := self.removeAll (· == pubkey)

def invalidateBatch (self : L1HotCache) (pubkeys : List Pubkey) : L1HotCache :=
  self.removeAll pubkeys.contains

def clear (self : L1HotCache) : L1HotCache := { self with cache := ∅, accessTracker := ∅ }

section lookup

variable (self : L1HotCache) (key : CacheKey)

theorem get_fst : (self.get key).1 = self.cache[key]?.map L1CacheEntry.touch := by
  unfold get
  cases self.cache[key]? <;> rfl

theorem getElem?_get (other : CacheKey) : (self.get key).2.cache[other]? =
    if other = key then self.cache[other]?.map L1CacheEntry.touch else self.cache[other]? := by
  unfold get
  cases found : self.cache[key]? with
  | none =>
    by_cases same : other = key
    · simp [same, found]
    · simp [same]
  | some entry =>
    refine (getElem?_insert_ite self.cache key other entry.touch).trans ?_
    by_cases same : other = key
    · simp [same, found]
    · simp [same]

theorem getElem?_evictStaleEntries (now : Nat) : (self.evictStaleEntries now).cache[key]? =
    self.cache[key]?.filter fun entry => !outlived self.config now key entry :=
  Std.TreeMap.getElem?_filter'

theorem getElem?_insert (now : Nat) (entry : L1CacheEntry) (other : CacheKey) :
    (self.insert now key entry).cache[other]? = if other = key then some entry
      else if self.full then self.cache[other]?.filter fun entry => !outlived self.config now other entry
      else self.cache[other]? := by
  refine (getElem?_insert_ite _ key other entry).trans ?_
  split
  · rfl
  · split
    · exact self.getElem?_evictStaleEntries other now
    · rfl

theorem getElem?_removeAll (named : Pubkey → Bool) : (self.removeAll named).cache[key]? =
    if named key.pubkey then none else self.cache[key]? := by
  have erased (keys : List CacheKey) (map : Std.TreeMap CacheKey L1CacheEntry) :
      (keys.foldl (·.erase ·) map)[key]? = if key ∈ keys then none else map[key]? := by
    induction keys generalizing map with
    | nil => simp
    | cons other rest ih =>
      rw [List.foldl_cons, ih, getElem?_erase_ite]
      by_cases later : key ∈ rest
      · simp [later]
      · simp [later]
  refine (erased _ self.cache).trans ?_
  by_cases gone : named key.pubkey = true
  · rw [if_pos gone]
    split
    · rfl
    · rename_i absent
      rw [List.mem_filter, Std.TreeMap.mem_keys] at absent
      exact Std.TreeMap.getElem?_eq_none fun member => absent ⟨member, gone⟩
  · simp [gone]

end lookup

theorem outlived_mono {config : L1CacheConfig} {key : CacheKey} {entry : L1CacheEntry} {t u : Nat}
    (before : t ≤ u) (old : outlived config t key entry = true) :
    outlived config u key entry = true := by
  have age : entry.ageMs t ≤ entry.ageMs u :=
    Nat.div_le_div_right (Nat.sub_le_sub_right before entry.cachedAt)
  exact decide_eq_true (Nat.lt_of_lt_of_le (of_decide_eq_true old) age)

end L1HotCache

inductive L1Call where
  | insert (key : CacheKey) (entry : L1CacheEntry)
  | get (key : CacheKey)
  | invalidate (pubkey : Pubkey)
  | invalidateBatch (pubkeys : List Pubkey)
  | clear

/-- The entry last inserted under a key, and when an insert last found the cache
full since then. -/
structure HeldEntry where
  entry : L1CacheEntry
  sweptAt : Option Nat

namespace HeldEntry

/-- An insert found the cache full after the entry had outlived its TTL. -/
def Evicted (config : L1CacheConfig) (key : CacheKey) (held : HeldEntry) : Prop :=
  ∃ t, held.sweptAt = some t ∧ L1HotCache.outlived config t key held.entry = true

/-- What the cache has under a key, given the entry held there. -/
structure Shown (config : L1CacheConfig) (now : Nat) (key : CacheKey) (held : HeldEntry)
    (present : Option L1CacheEntry) : Prop where
  past : ∀ t, held.sweptAt = some t → t ≤ now
  gone : held.Evicted config key → present = none
  kept : ¬ held.Evicted config key → ∃ count, present = some { held.entry with accessCount := count }

section shown

variable {config : L1CacheConfig} {now later : Nat} {key : CacheKey} {held : HeldEntry}
  {present : Option L1CacheEntry}

theorem Shown.wait (h : Shown config now key held present) (after : now ≤ later) :
    Shown config later key held present :=
  ⟨fun t swept => Nat.le_trans (h.past t swept) after, h.gone, h.kept⟩

theorem Shown.touch (h : Shown config now key held present) :
    Shown config now key held (present.map L1CacheEntry.touch) where
  past := h.past
  gone evicted := by
    rw [h.gone evicted]
    rfl
  kept young := by
    obtain ⟨count, rfl⟩ := h.kept young
    exact ⟨count + 1, rfl⟩

/-- The time of a pass stands for all earlier ones: entries only grow older. -/
theorem Shown.sweep (h : Shown config now key held present) (after : now ≤ later) :
    Shown config later key { held with sweptAt := some later }
      (present.filter fun entry => !L1HotCache.outlived config later key entry) where
  past := by
    rintro t ⟨⟩
    exact Nat.le_refl later
  gone := by
    rintro ⟨t, ⟨⟩, old⟩
    by_cases before : held.Evicted config key
    · rw [h.gone before]
      rfl
    · obtain ⟨count, rfl⟩ := h.kept before
      have same : L1HotCache.outlived config later key { held.entry with accessCount := count } = true := old
      simp [Option.filter, same]
  kept young := by
    have never : ¬ held.Evicted config key := by
      rintro ⟨t, swept, old⟩
      exact young ⟨later, rfl, L1HotCache.outlived_mono (Nat.le_trans (h.past t swept) after) old⟩
    obtain ⟨count, rfl⟩ := h.kept never
    have same : L1HotCache.outlived config later key { held.entry with accessCount := count } = false :=
      Bool.eq_false_iff.mpr fun old => young ⟨later, rfl, old⟩
    exact ⟨count, by simp [Option.filter, same]⟩

theorem shown_new (config : L1CacheConfig) (now : Nat) (key : CacheKey) (entry : L1CacheEntry) :
    Shown config now key ⟨entry, none⟩ (some entry) where
  past := by simp
  gone := by
    rintro ⟨t, impossible, _⟩
    cases impossible
  kept _ := ⟨entry.accessCount, rfl⟩

end shown

end HeldEntry

/-- The cache, the time of the latest call, and what was inserted under every key
since its last invalidation. -/
structure L1Run where
  cache : L1HotCache
  now : Nat
  held : CacheKey → Option HeldEntry

namespace L1Run

def start (config : L1CacheConfig) : L1Run := ⟨.new config, 0, fun _ => none⟩

def call (s : L1Run) (now : Nat) : L1Call → L1Run
  | .insert key entry => {
      cache := s.cache.insert now key entry
      now := now
      held := fun other => if other = key then some ⟨entry, none⟩
        else if s.cache.full then (s.held other).map fun h => { h with sweptAt := some now }
        else s.held other }
  | .get key => { s with cache := (s.cache.get key).2, now := now }
  | .invalidate pubkey => {
      cache := s.cache.invalidate pubkey
      now := now
      held := fun key => if key.pubkey == pubkey then none else s.held key }
  | .invalidateBatch pubkeys => {
      cache := s.cache.invalidateBatch pubkeys
      now := now
      held := fun key => if pubkeys.contains key.pubkey then none else s.held key }
  | .clear => ⟨s.cache.clear, now, fun _ => none⟩

/-- The clock does not go back. -/
def step (s : L1Run) (event : Nat × L1Call) : Option L1Run :=
  if s.now ≤ event.1 then some (s.call event.1 event.2) else none

theorem step_eq_some {s t : L1Run} {event : Nat × L1Call} :
    step s event = some t ↔ s.now ≤ event.1 ∧ s.call event.1 event.2 = t := by
  rw [step, Option.ite_none_right_eq_some, Option.some.injEq]

/-- Under every key the cache has what the inserts, the invalidations and the
evictions left. -/
structure Tracked (s : L1Run) : Prop where
  absent : ∀ key, s.held key = none → s.cache.cache[key]? = none
  shown : ∀ key held, s.held key = some held →
    held.Shown s.cache.config s.now key s.cache.cache[key]?

theorem start_tracked (config : L1CacheConfig) : (start config).Tracked where
  absent := by simp [start, L1HotCache.new]
  shown := by simp [start]

theorem config_call (s : L1Run) (now : Nat) (call : L1Call) :
    (s.call now call).cache.config = s.cache.config := by
  cases call with
  | insert key entry =>
    simp only [L1Run.call, L1HotCache.insert]
    split <;> rfl
  | get key =>
    simp only [L1Run.call, L1HotCache.get]
    split <;> rfl
  | _ => rfl

theorem Tracked.removeAll {s : L1Run} (h : s.Tracked) {now : Nat} (after : s.now ≤ now)
    (named : Pubkey → Bool) : Tracked ⟨s.cache.removeAll named, now,
      fun key => if named key.pubkey then none else s.held key⟩ where
  absent key none := by
    rw [L1HotCache.getElem?_removeAll]
    split
    · rfl
    · rename_i other
      exact h.absent key (by simpa [other] using none)
  shown key held found := by
    rw [L1HotCache.getElem?_removeAll]
    split
    · rename_i gone
      simp [gone] at found
    · rename_i other
      exact (h.shown key held (by simpa [other] using found)).wait after

theorem Tracked.insert {s : L1Run} (h : s.Tracked) {now : Nat} (after : s.now ≤ now)
    (key : CacheKey) (entry : L1CacheEntry) : (s.call now (.insert key entry)).Tracked where
  absent other none := by
    refine (L1HotCache.getElem?_insert s.cache key now entry other).trans ?_
    simp only [L1Run.call] at none
    split at none
    · cases none
    · rename_i different
      rw [if_neg different]
      split at none
      · rename_i full
        rw [if_pos full, h.absent other (Option.map_eq_none_iff.mp none)]
        rfl
      · rename_i room
        rw [if_neg room]
        exact h.absent other none
  shown other held found := by
    rw [config_call]
    have lookup := L1HotCache.getElem?_insert s.cache key now entry other
    simp only [L1Run.call] at found ⊢
    rw [lookup]
    split at found
    · rename_i same
      cases found
      rw [if_pos same]
      exact HeldEntry.shown_new _ now other entry
    · rename_i different
      rw [if_neg different]
      split at found
      · rename_i full
        obtain ⟨before, was, rfl⟩ := Option.map_eq_some_iff.mp found
        rw [if_pos full]
        exact (h.shown other before was).sweep after
      · rename_i room
        rw [if_neg room]
        exact (h.shown other held found).wait after

theorem Tracked.get {s : L1Run} (h : s.Tracked) {now : Nat} (after : s.now ≤ now)
    (key : CacheKey) : (s.call now (.get key)).Tracked where
  absent other none := by
    refine (L1HotCache.getElem?_get s.cache key other).trans ?_
    rw [h.absent other none]
    split <;> rfl
  shown other held found := by
    rw [config_call]
    have shown := (h.shown other held found).wait after
    have lookup := L1HotCache.getElem?_get s.cache key other
    simp only [L1Run.call]
    rw [lookup]
    split
    · exact shown.touch
    · exact shown

theorem Tracked.call {s : L1Run} (h : s.Tracked) {now : Nat} (after : s.now ≤ now) (call : L1Call) :
    (s.call now call).Tracked := by
  cases call with
  | insert key entry => exact h.insert after key entry
  | get key => exact h.get after key
  | invalidate pubkey => exact h.removeAll after (· == pubkey)
  | invalidateBatch pubkeys => exact h.removeAll after pubkeys.contains
  | clear =>
    refine ⟨fun key _ => ?_, fun key held found => ?_⟩
    · simp [L1Run.call, L1HotCache.clear]
    · cases found

/-- No entry returned is older than the TTL of its commitment level. -/
def ReturnsFresh (s : L1Run) (event : Nat × L1Call) (_ : L1Run) : Prop :=
  match event with
  | (now, .get key) => ∀ entry, (s.cache.get key).1 = some entry →
    entry.ageMs now ≤ (s.cache.config.ttlMs key.commitment).toNat
  | _ => True

/-- The entry last inserted under the key is within its TTL, or an insert that
found the cache full has evicted it. -/
def AskedInTime (s : L1Run) (event : Nat × L1Call) (_ : L1Run) : Prop :=
  match event with
  | (now, .get key) => ∀ held, s.held key = some held →
    held.entry.ageMs now ≤ (s.cache.config.ttlMs key.commitment).toNat ∨
      held.Evicted s.cache.config key
  | _ => True

theorem Tracked.returnsFresh_iff {s : L1Run} (h : s.Tracked) (event : Nat × L1Call) (t : L1Run) :
    s.ReturnsFresh event t ↔ s.AskedInTime event t := by
  obtain ⟨now, call⟩ := event
  cases call with
  | get key =>
    simp only [ReturnsFresh, AskedInTime, L1HotCache.get_fst]
    cases found : s.held key with
    | none => simp [h.absent key found]
    | some held =>
      have shown := h.shown key held found
      by_cases gone : held.Evicted s.cache.config key
      · simp [shown.gone gone, gone]
      · obtain ⟨count, present⟩ := shown.kept gone
        constructor
        · rintro fresh other ⟨⟩
          have returned : s.cache.cache[key]?.map L1CacheEntry.touch =
              some (L1CacheEntry.touch { held.entry with accessCount := count }) := by
            rw [present]
            rfl
          have young := fresh _ returned
          exact .inl young
        · intro asked entry returned
          rw [present] at returned
          cases returned
          exact (asked held rfl).resolve_right gone
  | _ => exact Iff.rfl

/-- Every get of a run returns a fresh entry or none exactly when every get asks
in time. -/
theorem gets_fresh_iff (config : L1CacheConfig) (events : List (Nat × L1Call)) :
    Along (ofPartial step) ReturnsFresh (start config) events ↔
      Along (ofPartial step) AskedInTime (start config) events := by
  refine along_step_iff Tracked (fun s event t h _ => h.returnsFresh_iff event t) ?_
    (start_tracked config) events
  intro s event t h taken _
  obtain ⟨after, rfl⟩ := step_eq_some.mp taken
  exact h.call after event.2

/-- Below its capacity the cache never looks at an age. -/
theorem outlived_entry_returned :
    let key : CacheKey := ⟨Vector.replicate 32 1, .base64, .processed⟩
    let entry := L1CacheEntry.new 0 [1, 2, 3] .base64 100 1
    ¬ Along (ofPartial step) ReturnsFresh (start {}) [(0, .insert key entry), (60001000000, .get key)] := by
  intro key entry along
  obtain ⟨_, later⟩ := along _ rfl
  obtain ⟨fresh, _⟩ := later _ rfl
  have returned : (((start {}).call 0 (.insert key entry)).cache.get key).1 = some entry.touch := by
    rw [L1HotCache.get_fst]
    exact congrArg (·.map L1CacheEntry.touch) ((L1HotCache.getElem?_insert _ key 0 entry key).trans (if_pos rfl))
  have age := fresh _ returned
  revert age
  decide

end L1Run

end Hyperplane
