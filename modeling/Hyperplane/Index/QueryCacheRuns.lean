import Mathlib.Algebra.Ring.Nat
import Hyperplane.Index.QueryCache
import Hyperplane.Lib.Transition

/-! Runs of the query result cache. A write of a file that fails leaves an older
one behind. -/
namespace Hyperplane
open Transition

inductive CacheCall where
  | insert (key : UInt64) (data : List UInt8) (slot ttlSecs : UInt64)
  | get (key : UInt64)
  | updateSlot (slot : UInt64)

/-- A cache with its disk, the slots it was told, what every key's file had when
the cache was opened, and the latest entry inserted under every key since. -/
structure CacheRun where
  cache : QueryResultCache
  disk : Disk
  slots : List UInt64
  origin : UInt64 → Option (List UInt8)
  inserted : UInt64 → Option CacheEntry

namespace CacheRun

def start (cache : QueryResultCache) (disk : Disk) : CacheRun :=
  ⟨cache, disk, [], fun key => disk.files (cachePath cache.l3.cacheDir key), fun _ => none⟩

def call (s : CacheRun) (m : Moment) : CacheCall → CacheRun
  | .insert key data slot ttlSecs => { s with
      disk := (s.cache.insert m key data slot ttlSecs s.disk).1
      cache := (s.cache.insert m key data slot ttlSecs s.disk).2
      inserted := Function.update s.inserted key (some (.new m.now data slot ttlSecs)) }
  | .get key => { s with
      disk := (s.cache.get m key s.disk).2.1
      cache := (s.cache.get m key s.disk).2.2 }
  | .updateSlot slot => { s with cache := s.cache.updateSlot slot, slots := slot :: s.slots }

def step (s : CacheRun) (event : Moment × CacheCall) : CacheRun := s.call event.1 event.2

/-- No slot the cache was told is more than the threshold ahead. -/
def Recent (s : CacheRun) (slotThreshold slot : UInt64) : Prop :=
  ∀ told ∈ s.slots, told.toNat ≤ slot.toNat + slotThreshold.toNat

/-- As far as the sum does not wrap, this is what the entry itself would say. -/
theorem recent_iff {slotThreshold : UInt64} {entry : CacheEntry} (s : CacheRun)
    (fits : entry.slot.toNat + slotThreshold.toNat < 2 ^ 64) : s.Recent slotThreshold entry.slot ↔
      ∀ told ∈ s.slots, entry.isInvalidatedBySlot told slotThreshold = false := by
  have sum : (entry.slot + slotThreshold).toNat = entry.slot.toNat + slotThreshold.toNat := by
    rw [UInt64.toNat_add, Nat.mod_eq_of_lt fits]
  simp only [Recent, CacheEntry.isInvalidatedBySlot, decide_eq_false_iff_not, UInt64.lt_iff_toNat_lt, sum,
    Nat.not_lt]

/-- What was last put under the key: by this process, or else into its file before. -/
def latest (s : CacheRun) (key : UInt64) : Option (List UInt8) :=
  ((s.inserted key).map CacheEntry.data).or (s.origin key)

/-- The data returned is the data last inserted. -/
def ReturnsLatest (s : CacheRun) (event : Moment × CacheCall) (_ : CacheRun) : Prop :=
  match event with
  | (m, .get key) => ∀ entry, (s.cache.get m key s.disk).1 = some entry →
    s.latest key = some entry.data
  | _ => True

/-- When neither map in memory has the key unexpired, the disk level does not have
it from an earlier insert, nor does a file without metadata. -/
structure DiskLatest (s : CacheRun) (now key : UInt64) : Prop where
  metadata : ∀ entry, s.cache.l3.live now key = some entry → s.latest key = some entry.data
  file : s.cache.l3.metadata[key]? = none → ∀ data,
    s.disk.readable (cachePath s.cache.l3.cacheDir key) = some data → s.latest key = some data

def AsksLatest (s : CacheRun) (event : Moment × CacheCall) (_ : CacheRun) : Prop :=
  match event with
  | (m, .get key) => s.cache.l1.live m.now key = none → s.cache.l2.live m.now key = none →
    s.DiskLatest m.now key
  | _ => True

/-- The maps in memory have no data but the latest. -/
structure MemoryLatest (s : CacheRun) : Prop where
  l1 : s.cache.l1.Holds fun key entry => s.latest key = some entry.data
  l2 : s.cache.l2.Holds fun key entry => s.latest key = some entry.data

theorem start_latest (cacheDir : String) (l1Size l2Size : Nat) (slotThreshold : UInt64) (disk : Disk) :
    (start (.fresh cacheDir l1Size l2Size slotThreshold) disk).MemoryLatest :=
  ⟨MemoryCache.holds_new _ _, MemoryCache.holds_new _ _⟩

theorem MemoryLatest.returnsLatest_iff {s : CacheRun} (h : s.MemoryLatest) (event : Moment × CacheCall)
    (t : CacheRun) : s.ReturnsLatest event t ↔ s.AsksLatest event t := by
  obtain ⟨m, call⟩ := event
  cases call with
  | get key =>
    refine (s.cache.forall_get_iff m key s.disk (Q := fun e => s.latest key = some e.data)
      fun _ => Iff.rfl).trans ⟨?_, ?_⟩
    · intro finds first second
      exact ⟨finds.l3 first second, finds.file first second⟩
    · intro asks
      exact ⟨fun _ found => (h.l1.live found).1, fun _ _ found => (h.l2.live found).1,
        fun first second => (asks first second).metadata, fun first second => (asks first second).file⟩
  | _ => exact Iff.rfl

theorem latest_insert (s : CacheRun) (m : Moment) (key : UInt64) (data : List UInt8) (slot ttlSecs : UInt64) :
    (s.call m (.insert key data slot ttlSecs)).latest = Function.update s.latest key (some data) := by
  funext other
  by_cases same : other = key
  · simp [latest, call, same, CacheEntry.new]
  · simp [latest, call, same]

theorem MemoryLatest.step {s : CacheRun} (h : s.MemoryLatest) (event : Moment × CacheCall)
    (asks : s.AsksLatest event (s.step event)) : (s.step event).MemoryLatest := by
  obtain ⟨m, call⟩ := event
  cases call with
  | insert key data slot ttlSecs =>
    have latest := s.latest_insert m key data slot ttlSecs
    have new : (s.call m (.insert key data slot ttlSecs)).latest key = some data := by
      rw [latest, Function.update_self]
    have others : ∀ other e, other ≠ key → s.latest other = some (CacheEntry.data e) →
        (s.call m (.insert key data slot ttlSecs)).latest other = some e.data := by
      intro other e different same
      rwa [latest, Function.update_of_ne different]
    exact ⟨h.l1.insert _ _ new others, h.l2.insert _ _ new others⟩
  | get key =>
    have kept := s.cache.get_holds m key s.disk (fun _ _ _ same => same) h.l1 h.l2 ?_
    · exact ⟨kept.1, kept.2⟩
    · intro first second entry returned
      have origin := (L3Cache.get_eq_some_iff _ _ _ _ _).mp returned
      rcases origin with ⟨e, found, rfl⟩ | ⟨absent, data, file, rfl⟩
      · exact (asks first second).metadata e found
      · exact (asks first second).file absent data file
  | updateSlot slot => exact ⟨h.l1, h.l2⟩

/-- Whatever the levels evict, promote or fail to write, a run returns the latest
data only exactly when the disk level is asked for no key it has older data of. -/
theorem gets_latest_iff (cacheDir : String) (l1Size l2Size : Nat) (slotThreshold : UInt64) (disk : Disk)
    (events : List (Moment × CacheCall)) :
    let first := start (.fresh cacheDir l1Size l2Size slotThreshold) disk
    Along (ofFun step) ReturnsLatest first events ↔ Along (ofFun step) AsksLatest first events := by
  refine along_ofFun_iff MemoryLatest ?_ ?_ (start_latest ..) events
  · intro s event h
    exact h.returnsLatest_iff event _
  · intro s event h asks
    exact h.step event asks

/-- On a disk that never fails the disk level has the latest data as well. -/
structure DiskCurrent (s : CacheRun) : Prop extends MemoryLatest s where
  sound : s.disk.Sound
  l3 : L3Cache.Carries (fun key data => s.latest key = some data) s.disk s.cache.l3

theorem DiskCurrent.asksLatest {s : CacheRun} (h : s.DiskCurrent) (event : Moment × CacheCall)
    (t : CacheRun) : s.AsksLatest event t := by
  obtain ⟨m, call⟩ := event
  cases call with
  | get key =>
    intro _ _
    refine ⟨fun entry found => ?_, fun _ data file => ?_⟩
    · exact h.l3.metadata key entry (Option.filter_eq_some_iff.mp found).1
    · exact h.l3.file key data (h.sound.readable _ ▸ file)
  | _ => trivial

theorem DiskCurrent.step {s : CacheRun} (h : s.DiskCurrent) (event : Moment × CacheCall) :
    (s.step event).DiskCurrent := by
  have memory := h.toMemoryLatest.step event (h.asksLatest event _)
  obtain ⟨m, call⟩ := event
  cases call with
  | insert key data slot ttlSecs =>
    have latest := s.latest_insert m key data slot ttlSecs
    refine ⟨memory, ?_, h.l3.insert h.sound ?_ fun other d different same => ?_⟩
    · change (L3Cache.insert key _ (s.disk, s.cache.l3)).2.1.Sound
      rw [L3Cache.insert_sound h.sound]
      exact h.sound.set _ _
    · exact (congrFun latest key).trans (Function.update_self ..)
    · exact (congrFun latest other).trans ((Function.update_of_ne different ..).trans same)
  | get key =>
    obtain ⟨carried, sound⟩ := h.l3.get h.sound m.now key
    have bottom := s.cache.get_disk m key s.disk
    split at bottom
    · rw [← bottom] at carried sound
      exact ⟨memory, sound, carried⟩
    · obtain ⟨disk, l3⟩ := Prod.mk.inj bottom
      refine ⟨memory, ?_, ?_⟩
      · simp only [CacheRun.step, call, disk]
        exact h.sound
      · simp only [CacheRun.step, call, disk, l3]
        exact h.l3
  | updateSlot slot => exact ⟨memory, h.sound, h.l3⟩

/-- Nothing else than a failing disk lets an earlier insert through. -/
theorem returns_latest_of_sound (cacheDir : String) (l1Size l2Size : Nat) (slotThreshold : UInt64)
    {disk : Disk} (sound : disk.Sound) (events : List (Moment × CacheCall)) :
    Along (ofFun step) ReturnsLatest (start (.fresh cacheDir l1Size l2Size slotThreshold) disk) events := by
  refine along_of_invariant DiskCurrent (fun _ _ _ => True) _ ?_ ?_ (along_labels _ (fun _ _ => trivial) _)
  · rintro s event t h rfl _
    exact ⟨h.step event, (h.toMemoryLatest.returnsLatest_iff event _).mpr (h.asksLatest event _)⟩
  · refine ⟨start_latest .., sound, ⟨fun key entry found => ?_, fun key data file => file⟩⟩
    simp [start, QueryResultCache.fresh] at found

/-- The second write of the file fails, and the second entry expires first. -/
theorem earlier_data_returned :
    let moment (now : UInt64) : Moment := ⟨now, .some UInt64, .some UInt64⟩
    ¬ Along (ofFun step) ReturnsLatest
      (start (.fresh "cache" 100 1000 10000) ⟨fun _ => none, [none, none, some 0]⟩)
      [(moment 0, .insert 7 [1] 1000 3600), (moment 1, .insert 7 [2] 1001 1), (moment 5, .get 7)] := by
  intro moment along
  obtain ⟨_, later⟩ := along _ rfl
  obtain ⟨_, last⟩ := later _ rfl
  obtain ⟨latest, _⟩ := last _ rfl
  have finds := (QueryResultCache.forall_get_iff _ _ _ _ (Q := fun e => _ = some e.data)
    (fun _ => Iff.rfl)).mp latest
  have old : (CacheEntry.new 1 [2] 1001 1).isExpired 5 = true := by decide
  have young : (CacheEntry.new 0 [1] 1000 3600).isExpired 5 = false := by decide
  have gone := Option.filter_some_neg (a := CacheEntry.new 1 [2] 1001 1)
    (p := fun entry => !entry.isExpired 5) (by simpa using old)
  have kept := Option.filter_some_pos (a := CacheEntry.new 0 [1] 1000 3600)
    (p := fun entry => !entry.isExpired 5) (by simpa using young)
  have memory := QueryResultCache.live_insert (moment 1) 7 [2] 1001 1
  have stale := finds.l3 ((memory _ _ 5).1.trans gone) ((memory _ _ 5).2.trans gone) _ kept
  cases stale

end CacheRun

end Hyperplane
