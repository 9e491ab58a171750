import Hyperplane.Lib.Bytes
import Hyperplane.Lib.Disk
import Hyperplane.Lib.Maps
import Hyperplane.Types.HashOrder
import Mathlib.Data.List.MinMax
import Mathlib.Order.Basic

/-! The query result cache: two maps in memory and one on disk. Times are
seconds, and sums of them wrap. A lookup goes from the smallest level to the
largest and copies what it finds one level up. -/
namespace Hyperplane
open Maps

structure CacheEntry where
  data : List UInt8
  createdAt : UInt64
  slot : UInt64
  accessCount : UInt64
  lastAccess : UInt64
  ttlSecs : UInt64

namespace CacheEntry

def new (now : UInt64) (data : List UInt8) (slot ttlSecs : UInt64) : CacheEntry :=
  ⟨data, now, slot, 0, now, ttlSecs⟩

def isExpired (self : CacheEntry) (now : UInt64) : Bool :=
  if self.ttlSecs = 0 then true else self.createdAt + self.ttlSecs < now

/-- No level asks this of an entry. -/
def isInvalidatedBySlot (self : CacheEntry) (currentSlot slotThreshold : UInt64) : Bool :=
  self.slot + slotThreshold < currentSlot

def access (self : CacheEntry) (now : UInt64) : CacheEntry :=
  { self with accessCount := self.accessCount + 1, lastAccess := now }

end CacheEntry

structure MemoryCache where
  entries : Std.TreeMap UInt64 CacheEntry
  maxSize : Nat
  currentSize : Nat

namespace MemoryCache

def new (maxSize : Nat) : MemoryCache := ⟨∅, maxSize, 0⟩

/-- Removes the first entry of the least rank that the map's iteration meets. -/
def evict (self : MemoryCache) (order : HashOrder UInt64) (rank : CacheEntry → UInt64) : MemoryCache :=
  let ranked key := ((self.entries[key]?).map fun entry => (rank entry).toNat).getD 0
  match (order.list self.entries.keys.toFinset).argmin ranked with
  | some key => { self with entries := self.entries.erase key }
  | none => self

/-- A full map evicts an entry even when the key is in it already. -/
def insert (self : MemoryCache) (order : HashOrder UInt64) (rank : CacheEntry → UInt64) (key : UInt64)
    (entry : CacheEntry) : Option CacheEntry × MemoryCache :=
  let room := if self.maxSize ≤ self.entries.size then self.evict order rank else self
  let entries := room.entries.insert key entry
  (room.entries[key]?, { room with entries := entries, currentSize := entries.size })

def get (self : MemoryCache) (now key : UInt64) : Option CacheEntry × MemoryCache :=
  match self.entries[key]? with
  | some entry =>
    if entry.isExpired now then
      let entries := self.entries.erase key
      (none, { self with entries := entries, currentSize := entries.size })
    else (some (entry.access now), { self with entries := self.entries.insert key (entry.access now) })
  | none => (none, self)

/-- Only the first of the two caches has it. -/
def remove (self : MemoryCache) (key : UInt64) : Option CacheEntry × MemoryCache :=
  let entries := self.entries.erase key
  (self.entries[key]?, { self with entries := entries, currentSize := entries.size })

/-- The entry under the key, unless it has expired. -/
def live (self : MemoryCache) (now key : UInt64) : Option CacheEntry :=
  self.entries[key]?.filter fun entry => !entry.isExpired now

/-- Every entry satisfies a predicate of its key and itself. -/
def Holds (self : MemoryCache) (R : UInt64 → CacheEntry → Prop) : Prop :=
  ∀ key entry, self.entries[key]? = some entry → R key entry

section lookup

variable (self : MemoryCache) (order : HashOrder UInt64) (rank : CacheEntry → UInt64)

theorem get_fst (now key : UInt64) :
    (self.get now key).1 = (self.live now key).map (·.access now) := by
  unfold get live
  cases self.entries[key]? with
  | none => rfl
  | some entry => cases old : entry.isExpired now <;> simp [Option.filter, old]

theorem getElem?_get (now key other : UInt64) : (self.get now key).2.entries[other]? =
    if other = key then (self.get now key).1 else self.entries[other]? := by
  unfold get
  cases found : self.entries[key]? with
  | none =>
    by_cases same : other = key
    · rw [if_pos same, same, found]
    · rw [if_neg same]
  | some entry =>
    by_cases old : entry.isExpired now = true
    · simp only [if_pos old]
      exact getElem?_erase_ite self.entries key other
    · simp only [if_neg old]
      exact getElem?_insert_ite self.entries key other _

theorem getElem?_evict {other : UInt64} {entry : CacheEntry}
    (found : (self.evict order rank).entries[other]? = some entry) :
    self.entries[other]? = some entry := by
  unfold evict at found
  simp only at found
  split at found
  · rename_i key _
    rw [getElem?_erase_ite] at found
    split at found
    · cases found
    · exact found
  · exact found

theorem getElem?_insert_self (key : UInt64) (entry : CacheEntry) :
    (self.insert order rank key entry).2.entries[key]? = some entry :=
  Std.TreeMap.getElem?_insert_self

theorem getElem?_insert {key other : UInt64} {entry e : CacheEntry}
    (found : (self.insert order rank key entry).2.entries[other]? = some e) :
    (other = key ∧ e = entry) ∨ (other ≠ key ∧ self.entries[other]? = some e) := by
  have lookup := (getElem?_insert_ite _ key other entry).symm.trans found
  split at lookup
  · rename_i same
    exact .inl ⟨same, (Option.some.inj lookup).symm⟩
  · rename_i different
    refine .inr ⟨different, ?_⟩
    split at lookup
    · exact self.getElem?_evict order rank lookup
    · exact lookup

end lookup

section holds

variable {self : MemoryCache} {R S : UInt64 → CacheEntry → Prop}

theorem holds_new (maxSize : Nat) (R : UInt64 → CacheEntry → Prop) : (new maxSize).Holds R := by
  intro key entry found
  simp [new] at found

theorem Holds.mono (h : self.Holds R) (weaker : ∀ key entry, R key entry → S key entry) :
    self.Holds S := fun key entry found => weaker key entry (h key entry found)

theorem Holds.live (h : self.Holds R) {now key : UInt64} {entry : CacheEntry}
    (found : self.live now key = some entry) : R key entry ∧ entry.isExpired now = false := by
  obtain ⟨present, young⟩ := Option.filter_eq_some_iff.mp found
  exact ⟨h key entry present, by simpa using young⟩

/-- The other keys keep what they have. -/
theorem Holds.insert (h : self.Holds R) (order : HashOrder UInt64) (rank : CacheEntry → UInt64)
    {key : UInt64} {entry : CacheEntry} (new : S key entry)
    (others : ∀ other e, other ≠ key → R other e → S other e) :
    (self.insert order rank key entry).2.Holds S := by
  intro other e found
  rcases self.getElem?_insert order rank found with ⟨rfl, rfl⟩ | ⟨different, before⟩
  · exact new
  · exact others other e different (h other e before)

theorem Holds.get_fst (h : self.Holds R) {now key : UInt64}
    (touched : ∀ entry, R key entry → R key (entry.access now)) {entry : CacheEntry}
    (returned : (self.get now key).1 = some entry) : R key entry := by
  rw [MemoryCache.get_fst] at returned
  obtain ⟨entry, alive, rfl⟩ := Option.map_eq_some_iff.mp returned
  exact touched entry (h.live alive).1

theorem Holds.get (h : self.Holds R) {now key : UInt64}
    (touched : ∀ entry, R key entry → R key (entry.access now)) : (self.get now key).2.Holds R := by
  intro other e found
  rw [getElem?_get] at found
  split at found
  · rename_i same
    exact same ▸ h.get_fst touched found
  · exact h other e found

end holds

end MemoryCache

abbrev L1Cache := MemoryCache

/-- Evicts what was accessed the longest time ago. -/
def L1Cache.insert (self : L1Cache) (order : HashOrder UInt64) (key : UInt64) (entry : CacheEntry) :
    Option CacheEntry × L1Cache := MemoryCache.insert self order CacheEntry.lastAccess key entry

abbrev L2Cache := MemoryCache

/-- Evicts what was accessed the fewest times. -/
def L2Cache.insert (self : L2Cache) (order : HashOrder UInt64) (key : UInt64) (entry : CacheEntry) :
    Option CacheEntry × L2Cache := MemoryCache.insert self order CacheEntry.accessCount key entry

/-- The file of a key is named by its hexadecimal digits. -/
def cachePath (cacheDir : String) (key : UInt64) : String :=
  cacheDir ++ "/" ++ String.ofList (Nat.toDigits 16 key.toNat) ++ ".cache"

theorem hexDigits_injective {m n : Nat} (same : Nat.toDigits 16 m = Nat.toDigits 16 n) : m = n := by
  induction m using Nat.strongRecOn generalizing n with
  | ind m ih =>
    have digits (k : Nat) := Nat.toDigits_eq_if (b := 16) (n := k) (by decide)
    rw [digits m, digits n] at same
    by_cases small : m < 16
    · by_cases less : n < 16
      · rw [if_pos small, if_pos less] at same
        exact Bytes.digitChar_inj small less (List.cons.inj same).1
      · rw [if_pos small, if_neg less] at same
        have empty := (List.append_eq_singleton_iff.mp same.symm).resolve_right fun h => by simp at h
        exact absurd empty.1 Nat.toDigits_ne_nil
    · by_cases less : n < 16
      · rw [if_neg small, if_pos less] at same
        have empty := (List.append_eq_singleton_iff.mp same).resolve_right fun h => by simp at h
        exact absurd empty.1 Nat.toDigits_ne_nil
      · rw [if_neg small, if_neg less] at same
        obtain ⟨front, last⟩ := List.append_inj' same rfl
        have quotient := ih (m / 16) (by omega) front
        have digit := Bytes.digitChar_inj (Nat.mod_lt m (by decide)) (Nat.mod_lt n (by decide))
          (List.cons.inj last).1
        omega

theorem cachePath_injective (cacheDir : String) {a b : UInt64}
    (same : cachePath cacheDir a = cachePath cacheDir b) : a = b := by
  have digits := (String.append_right_inj _).mp ((String.append_left_inj _).mp same)
  exact UInt64.toNat_inj.mp (hexDigits_injective (String.ofList_injective digits))

theorem files_set (disk : Disk) (cacheDir : String) (key other : UInt64) (contents : Option (List UInt8)) :
    (disk.set (cachePath cacheDir key) contents).files (cachePath cacheDir other) =
      if other = key then contents else disk.files (cachePath cacheDir other) := by
  by_cases same : other = key
  · simp [Disk.set, same]
  · have apart : cachePath cacheDir other ≠ cachePath cacheDir key := fun equal =>
      same (cachePath_injective cacheDir equal)
    simp [Disk.set, same, apart]

structure L3Cache where
  cacheDir : String
  metadata : Std.TreeMap UInt64 CacheEntry

namespace L3Cache

def new (cacheDir : String) : Method Disk IoError L3Cache := do
  Disk.attempt
  pure ⟨cacheDir, ∅⟩

/-- When the file cannot be written the metadata stays as it was. -/
def insert (key : UInt64) (entry : CacheEntry) : Method (Disk × L3Cache) IoError Unit := do
  let (_, self) ← Method.get
  Method.zoom Prod.fst (fun s disk => (disk, s.2)) id (Disk.write (cachePath self.cacheDir key) entry.data)
  Method.modify fun (disk, self) => (disk, { self with metadata := self.metadata.insert key entry })

/-- A file without metadata becomes a new entry: the slot and the TTL it was
inserted with are lost. -/
def get (now key : UInt64) (disk : Disk) (self : L3Cache) : Option CacheEntry × Disk × L3Cache :=
  match self.metadata[key]? with
  | some entry =>
    if entry.isExpired now then
      (none, (Disk.remove (cachePath self.cacheDir key) disk).2,
        { self with metadata := self.metadata.erase key })
    else (some (entry.access now), disk,
      { self with metadata := self.metadata.insert key (entry.access now) })
  | none => match Disk.read (cachePath self.cacheDir key) disk with
    | (.ok data, disk) =>
      let entry := CacheEntry.new now data 0 3600
      (some entry, disk, { self with metadata := self.metadata.insert key entry })
    | (_, disk) => (none, disk, self)

def live (self : L3Cache) (now key : UInt64) : Option CacheEntry :=
  self.metadata[key]?.filter fun entry => !entry.isExpired now

theorem get_eq_some_iff (now key : UInt64) (disk : Disk) (self : L3Cache) (entry : CacheEntry) :
    (self.get now key disk).1 = some entry ↔
      (∃ e, self.live now key = some e ∧ e.access now = entry) ∨
      (self.metadata[key]? = none ∧ ∃ data, disk.readable (cachePath self.cacheDir key) = some data ∧
        CacheEntry.new now data 0 3600 = entry) := by
  unfold get live
  cases self.metadata[key]? with
  | some e => cases old : e.isExpired now <;> simp [Option.filter, old]
  | none =>
    have ends := Disk.read_ends (cachePath self.cacheDir key) disk
    cases ran : Disk.read (cachePath self.cacheDir key) disk with
    | mk result after =>
      cases result with
      | ok data => simp [ends.ok ran]
      | error e => simp [ends.error ran]
      | fault =>
        unfold Method.Ends at ends
        rw [ran] at ends
        exact ends.elim

section sound

variable {now key : UInt64} {disk : Disk} {self : L3Cache} {entry : CacheEntry}

theorem insert_sound (sound : disk.Sound) (key : UInt64) (entry : CacheEntry) (self : L3Cache) :
    (insert key entry (disk, self)).2 = (disk.set (cachePath self.cacheDir key) (some entry.data),
      { self with metadata := self.metadata.insert key entry }) := by
  have written := sound.write (cachePath self.cacheDir key) entry.data
  have ran : insert key entry (disk, self) = _ := (Method.bind_run rfl _).trans
    (Method.bind_run (a := ()) (m := (disk.set (cachePath self.cacheDir key) (some entry.data), self))
      (by simp only [Method.zoom, written]; rfl) _)
  rw [ran]
  rfl

theorem get_expired (sound : disk.Sound) (found : self.metadata[key]? = some entry)
    (old : entry.isExpired now = true) : self.get now key disk =
      (none, disk.set (cachePath self.cacheDir key) none,
        { self with metadata := self.metadata.erase key }) := by
  simp only [get, found, old, if_true, sound.remove]

theorem get_live (found : self.metadata[key]? = some entry) (young : entry.isExpired now = false) :
    self.get now key disk = (some (entry.access now), disk,
      { self with metadata := self.metadata.insert key (entry.access now) }) := by
  simp [get, found, young]

theorem get_read (sound : disk.Sound) (absent : self.metadata[key]? = none) {data : List UInt8}
    (file : disk.files (cachePath self.cacheDir key) = some data) : self.get now key disk =
      (some (.new now data 0 3600), disk,
        { self with metadata := self.metadata.insert key (.new now data 0 3600) }) := by
  simp only [get, absent, sound.read_some file]

theorem get_absent (sound : disk.Sound) (absent : self.metadata[key]? = none)
    (missing : disk.files (cachePath self.cacheDir key) = none) :
    self.get now key disk = (none, disk, self) := by
  simp only [get, absent, sound.read_none missing]

/-- The data under every key, in the metadata and in the files, is of a kind. -/
structure Carries (V : UInt64 → List UInt8 → Prop) (disk : Disk) (l3 : L3Cache) : Prop where
  metadata : ∀ key entry, l3.metadata[key]? = some entry → V key entry.data
  file : ∀ key data, disk.files (cachePath l3.cacheDir key) = some data → V key data

variable {V : UInt64 → List UInt8 → Prop}

/-- An entry with data of the kind enters the metadata. -/
theorem Carries.put (h : Carries V disk self) (new : V key entry.data) :
    Carries V disk { self with metadata := self.metadata.insert key entry } where
  metadata other e found := by
    simp only [getElem?_insert_ite] at found
    split at found
    · rename_i here
      cases found
      exact here ▸ new
    · exact h.metadata other e found
  file := h.file

/-- The other keys keep what they have. -/
theorem Carries.insert {W : UInt64 → List UInt8 → Prop} (h : Carries V disk self) (sound : disk.Sound)
    (new : W key entry.data) (others : ∀ other data, other ≠ key → V other data → W other data) :
    Carries W (L3Cache.insert key entry (disk, self)).2.1 (L3Cache.insert key entry (disk, self)).2.2 := by
  rw [insert_sound sound]
  refine ⟨fun other e present => ?_, fun other data present => ?_⟩
  · simp only [getElem?_insert_ite] at present
    split at present
    · rename_i same
      cases present
      exact same ▸ new
    · rename_i different
      exact others other e.data different (h.metadata other e present)
  · simp only [files_set] at present
    split at present
    · rename_i same
      cases present
      exact same ▸ new
    · rename_i different
      exact others other data different (h.file other data present)

theorem Carries.get (h : Carries V disk self) (sound : disk.Sound) (now key : UInt64) :
    Carries V (self.get now key disk).2.1 (self.get now key disk).2.2 ∧
      (self.get now key disk).2.1.Sound := by
  cases found : self.metadata[key]? with
  | some entry =>
    cases old : entry.isExpired now with
    | true =>
      rw [get_expired sound found old]
      refine ⟨⟨fun other e present => ?_, fun other data present => ?_⟩, sound.set _ _⟩
      · simp only [getElem?_erase_ite] at present
        split at present
        · cases present
        · exact h.metadata other e present
      · simp only [files_set] at present
        split at present
        · cases present
        · exact h.file other data present
    | false =>
      rw [get_live found old]
      exact ⟨h.put (h.metadata key entry found), sound⟩
  | none =>
    cases file : disk.files (cachePath self.cacheDir key) with
    | none =>
      rw [get_absent sound found file]
      exact ⟨h, sound⟩
    | some data =>
      rw [get_read sound found file]
      exact ⟨h.put (h.file key data file), sound⟩

end sound

end L3Cache

structure QueryResultCache where
  l1 : L1Cache
  l2 : L2Cache
  l3 : L3Cache
  currentSlot : UInt64
  slotThreshold : UInt64
  hits : UInt64
  misses : UInt64

/-- The clock, read once for a call, and the iteration orders of the two maps in memory. -/
structure Moment where
  now : UInt64
  l1Order : HashOrder UInt64
  l2Order : HashOrder UInt64

namespace QueryResultCache

def new (cacheDir : String) (l1Size l2Size : Nat) (slotThreshold : UInt64) :
    Method Disk IoError QueryResultCache := do
  let l3 ← L3Cache.new (cacheDir ++ "/l3")
  pure ⟨.new l1Size, .new l2Size, l3, 0, slotThreshold, 0, 0⟩

/-- A cache just opened, over whatever files there are. -/
def fresh (cacheDir : String) (l1Size l2Size : Nat) (slotThreshold : UInt64) : QueryResultCache :=
  ⟨.new l1Size, .new l2Size, ⟨cacheDir ++ "/l3", ∅⟩, 0, slotThreshold, 0, 0⟩

theorem new_ends (cacheDir : String) (l1Size l2Size : Nat) (slotThreshold : UInt64) (disk : Disk) :
    Method.Ends (new cacheDir l1Size l2Size slotThreshold) disk
      (fun cache t => cache = fresh cacheDir l1Size l2Size slotThreshold ∧ t.files = disk.files)
      (fun t => t.files = disk.files) := by
  unfold new L3Cache.new
  simp only [Method.ends_bind, Method.ends_pure]
  exact (BufWriter.attempt_ends disk).mono (fun _ _ ends => ⟨rfl, ends.2⟩) (fun _ ends => ends.2)

theorem new_sound {disk : Disk} (sound : disk.Sound) (cacheDir : String) (l1Size l2Size : Nat)
    (slotThreshold : UInt64) : new cacheDir l1Size l2Size slotThreshold disk =
      (.ok (fresh cacheDir l1Size l2Size slotThreshold), disk) :=
  Method.bind_run (Method.bind_run sound.attempt _) _

def get (m : Moment) (key : UInt64) (disk : Disk) (self : QueryResultCache) :
    Option CacheEntry × Disk × QueryResultCache :=
  let first := self.l1.get m.now key
  match first.1 with
  | some entry => (some entry, disk, { self with l1 := first.2, hits := self.hits + 1 })
  | none =>
    let second := self.l2.get m.now key
    match second.1 with
    | some entry => (some entry, disk, { self with
        l1 := (L1Cache.insert first.2 m.l1Order key entry).2
        l2 := second.2
        hits := self.hits + 1 })
    | none =>
      let third := self.l3.get m.now key disk
      match third.1 with
      | some entry => (some entry, third.2.1, { self with
          l1 := first.2
          l2 := (L2Cache.insert second.2 m.l2Order key entry).2
          l3 := third.2.2
          hits := self.hits + 1 })
      | none => (none, third.2.1, { self with
          l1 := first.2
          l2 := second.2
          l3 := third.2.2
          misses := self.misses + 1 })

/-- An error of the disk level is ignored. -/
def insert (m : Moment) (key : UInt64) (data : List UInt8) (slot ttlSecs : UInt64) (disk : Disk)
    (self : QueryResultCache) : Disk × QueryResultCache :=
  let entry := CacheEntry.new m.now data slot ttlSecs
  let stored := (L3Cache.insert key entry (disk, self.l3)).2
  (stored.1, { self with
    l1 := (self.l1.insert m.l1Order key entry).2
    l2 := (self.l2.insert m.l2Order key entry).2
    l3 := stored.2 })

/-- A stub. -/
def invalidateBySlot (self : QueryResultCache) (_currentSlot : UInt64) : QueryResultCache := self

def updateSlot (self : QueryResultCache) (slot : UInt64) : QueryResultCache :=
  { self with currentSlot := slot }.invalidateBySlot slot

/-- The first level with an entry that has not expired has one that satisfies a
predicate, and so has the file when there is no such level and no metadata. -/
structure Finds (c : QueryResultCache) (now key : UInt64) (disk : Disk)
    (Q : CacheEntry → Prop) : Prop where
  l1 : ∀ e, c.l1.live now key = some e → Q e
  l2 : c.l1.live now key = none → ∀ e, c.l2.live now key = some e → Q e
  l3 : c.l1.live now key = none → c.l2.live now key = none →
    ∀ e, c.l3.live now key = some e → Q e
  file : c.l1.live now key = none → c.l2.live now key = none → c.l3.metadata[key]? = none →
    ∀ data, disk.readable (cachePath c.l3.cacheDir key) = some data → Q (.new now data 0 3600)

theorem forall_or_iff {A : Type} {Q : A → Prop} (a b : Option A) :
    (∀ e, a.or b = some e → Q e) ↔
      (∀ e, a = some e → Q e) ∧ (a = none → ∀ e, b = some e → Q e) := by
  cases a <;> simp

section get

variable (m : Moment) (key : UInt64) (disk : Disk) (self : QueryResultCache)

theorem get_fst : (self.get m key disk).1 = (self.l1.get m.now key).1.or
    ((self.l2.get m.now key).1.or (self.l3.get m.now key disk).1) := by
  simp only [get]
  cases (self.l1.get m.now key).1 with
  | some entry => rfl
  | none =>
    cases (self.l2.get m.now key).1 with
    | some entry => rfl
    | none => cases (self.l3.get m.now key disk).1 <;> rfl

/-- What holds of every entry a lookup can return, whatever its access count. -/
theorem forall_get_iff {Q : CacheEntry → Prop} (touched : ∀ e, Q (e.access m.now) ↔ Q e) :
    (∀ e, (self.get m key disk).1 = some e → Q e) ↔ self.Finds m.now key disk Q := by
  have level : ∀ found : Option CacheEntry, (∀ e, found.map (·.access m.now) = some e → Q e) ↔
      ∀ e, found = some e → Q e := by
    intro found
    simp only [Option.map_eq_some_iff, forall_exists_index, and_imp, forall_apply_eq_imp_iff₂, touched]
  have disk_level : (∀ e, (self.l3.get m.now key disk).1 = some e → Q e) ↔
      (∀ e, self.l3.live m.now key = some e → Q e) ∧ (self.l3.metadata[key]? = none → ∀ data,
        disk.readable (cachePath self.l3.cacheDir key) = some data → Q (.new m.now data 0 3600)) := by
    simp only [L3Cache.get_eq_some_iff, or_imp, forall_and, forall_exists_index, and_imp,
      forall_apply_eq_imp_iff₂, touched]
    refine and_congr_right fun _ => ⟨?_, ?_⟩
    · intro h absent data file
      exact h _ absent data file rfl
    · rintro h _ absent data file rfl
      exact h absent data file
  rw [get_fst, MemoryCache.get_fst, MemoryCache.get_fst, forall_or_iff, forall_or_iff, level, level,
    disk_level]
  simp only [Option.map_eq_none_iff]
  constructor
  · rintro ⟨l1, rest⟩
    exact ⟨l1, fun none => (rest none).1, fun none less => ((rest none).2 less).1,
      fun none less => ((rest none).2 less).2⟩
  · rintro ⟨l1, l2, l3, file⟩
    exact ⟨l1, fun none => ⟨l2 none, fun less => ⟨l3 none less, file none less⟩⟩⟩

/-- The disk level is asked only when neither map answers. -/
theorem get_disk : ((self.get m key disk).2.1, (self.get m key disk).2.2.l3) =
    if self.l1.live m.now key = none ∧ self.l2.live m.now key = none
      then (self.l3.get m.now key disk).2 else (disk, self.l3) := by
  have first := self.l1.get_fst m.now key
  have second := self.l2.get_fst m.now key
  unfold get
  cases l1 : self.l1.live m.now key with
  | some entry => simp [first, l1]
  | none =>
    cases l2 : self.l2.live m.now key with
    | some entry => simp [first, l1, second, l2]
    | none =>
      simp only [first, l1, second, l2, Option.map_none, and_self, if_true]
      cases (self.l3.get m.now key disk).1 <;> rfl

/-- A lookup that finds nothing leaves nothing in the two maps. -/
theorem getElem?_get_none (nothing : (self.get m key disk).1 = none) :
    (self.get m key disk).2.2.l1.entries[key]? = none ∧
      (self.get m key disk).2.2.l2.entries[key]? = none := by
  rw [get_fst, Option.or_eq_none_iff, Option.or_eq_none_iff] at nothing
  obtain ⟨first, second, third⟩ := nothing
  have l1 := (self.l1.getElem?_get m.now key key).trans (if_pos rfl)
  have l2 := (self.l2.getElem?_get m.now key key).trans (if_pos rfl)
  simp only [get, first, second, third]
  exact ⟨l1.trans first, l2.trans second⟩

theorem get_holds {R : UInt64 → CacheEntry → Prop}
    (touched : ∀ key entry now, R key entry → R key (entry.access now)) (l1 : self.l1.Holds R)
    (l2 : self.l2.Holds R) (disk_entry : self.l1.live m.now key = none → self.l2.live m.now key = none →
      ∀ e, (self.l3.get m.now key disk).1 = some e → R key e) :
    (self.get m key disk).2.2.l1.Holds R ∧ (self.get m key disk).2.2.l2.Holds R := by
  have here := fun entry => touched key entry m.now
  have first := l1.get here
  have second := l2.get here
  have none_live {self : MemoryCache} (nothing : (self.get m.now key).1 = none) :
      self.live m.now key = none :=
    Option.map_eq_none_iff.mp (self.get_fst m.now key ▸ nothing)
  unfold get
  cases found : (self.l1.get m.now key).1 with
  | some entry =>
    simp only [found]
    exact ⟨first, l2⟩
  | none =>
    cases below : (self.l2.get m.now key).1 with
    | some entry =>
      simp only [found, below]
      exact ⟨first.insert _ _ (l2.get_fst here below) fun _ _ _ kept => kept, second⟩
    | none =>
      cases bottom : (self.l3.get m.now key disk).1 with
      | some entry =>
        simp only [found, below, bottom]
        have new := disk_entry (none_live found) (none_live below) entry bottom
        exact ⟨first, second.insert _ _ new fun _ _ _ kept => kept⟩
      | none =>
        simp only [found, below, bottom]
        exact ⟨first, second⟩

end get

/-- Both maps have the entry just inserted, until it expires. -/
theorem live_insert (m : Moment) (key : UInt64) (data : List UInt8) (slot ttlSecs : UInt64) (disk : Disk)
    (self : QueryResultCache) (now : UInt64) :
    (self.insert m key data slot ttlSecs disk).2.l1.live now key =
        (some (CacheEntry.new m.now data slot ttlSecs)).filter (fun entry => !entry.isExpired now) ∧
      (self.insert m key data slot ttlSecs disk).2.l2.live now key =
        (some (CacheEntry.new m.now data slot ttlSecs)).filter (fun entry => !entry.isExpired now) :=
  ⟨congrArg (Option.filter _) (MemoryCache.getElem?_insert_self ..),
    congrArg (Option.filter _) (MemoryCache.getElem?_insert_self ..)⟩

end QueryResultCache

end Hyperplane
