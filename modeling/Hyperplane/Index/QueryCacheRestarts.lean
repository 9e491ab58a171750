import Hyperplane.Index.QueryCacheRuns

/-! Runs of the query result cache across restarts, on a disk that never fails.
Where every key stands is a matter of its own calls: what other keys evict from
the maps in memory is still on disk. A file outlives the instance that knew its
TTL, and nothing an update of the slot does reaches an entry. -/
namespace Hyperplane
open Maps Transition

/-- What the disk level has of a key. -/
inductive KeyPhase where
  | missing
  /-- The file of an instance that is gone. -/
  | left
  | ours (since ttlSecs slot : UInt64)
  /-- Such a file, read as a new entry. -/
  | readBack (since : UInt64)
  deriving DecidableEq

def CacheEntry.stamp (self : CacheEntry) : UInt64 × UInt64 × UInt64 :=
  (self.createdAt, self.ttlSecs, self.slot)

namespace KeyPhase

/-- The creation time, the TTL and the slot of every copy of the key. -/
def stamp : KeyPhase → Option (UInt64 × UInt64 × UInt64)
  | .ours since ttlSecs slot => some (since, ttlSecs, slot)
  | .readBack since => some (since, 3600, 0)
  | _ => none

def expired (now : UInt64) (phase : KeyPhase) : Bool :=
  phase.stamp.any fun (since, ttlSecs, slot) => (CacheEntry.new since [] slot ttlSecs).isExpired now

def asked (now : UInt64) : KeyPhase → KeyPhase
  | .left => .readBack now
  | phase => if phase.expired now then .missing else phase

theorem expired_of_stamp {phase : KeyPhase} {entry : CacheEntry} (same : phase.stamp = some entry.stamp)
    (now : UInt64) : phase.expired now = entry.isExpired now := by
  unfold expired
  rw [same]
  rfl

theorem asked_left {now : UInt64} {phase : KeyPhase} (same : phase.asked now = .left) : False := by
  cases phase <;> simp only [asked] at same <;> try split at same
  all_goals cases same

theorem asked_of_live {now : UInt64} {phase : KeyPhase} {entry : CacheEntry}
    (same : phase.stamp = some entry.stamp) (young : entry.isExpired now = false) :
    phase.asked now = phase := by
  have live := (expired_of_stamp same now).trans young
  cases phase with
  | left => cases same
  | _ => simp [asked, live]

theorem asked_of_expired {now : UInt64} {phase : KeyPhase} {entry : CacheEntry}
    (same : phase.stamp = some entry.stamp) (old : entry.isExpired now = true) :
    phase.asked now = .missing := by
  have gone := (expired_of_stamp same now).trans old
  cases phase with
  | left => cases same
  | _ => simp [asked, gone]

theorem left_of_stamp {phase : KeyPhase} (unstamped : phase.stamp = none) (there : phase ≠ .missing) :
    phase = .left := by
  cases phase with
  | left => rfl
  | missing => exact absurd rfl there
  | ours since ttlSecs slot => cases unstamped
  | readBack since => cases unstamped

theorem ours_of_asked {now since ttlSecs slot : UInt64} {phase : KeyPhase}
    (same : phase.asked now = .ours since ttlSecs slot) :
    phase = .ours since ttlSecs slot ∧ phase.expired now = false := by
  cases phase with
  | left => cases same
  | _ =>
    simp only [asked] at same
    split at same
    · cases same
    · rename_i live
      exact ⟨same, Bool.eq_false_iff.mpr live⟩

/-- What a lookup returns and where it leaves the key. -/
structure Lookup (phase asked : KeyPhase) (returned : Option CacheEntry) : Prop where
  nothing : returned = none → asked = .missing
  entry : ∀ e, returned = some e →
    asked.stamp = some e.stamp ∧ (phase.stamp = none ∨ asked = phase)

/-- The entry is a copy of what its key's phase tells. -/
def Stamped (phase : UInt64 → KeyPhase) (key : UInt64) (entry : CacheEntry) : Prop :=
  (phase key).stamp = some entry.stamp

theorem stamped_update_self {phase : UInt64 → KeyPhase} {key : UInt64} {after : KeyPhase}
    {entry : CacheEntry} (same : after.stamp = some entry.stamp) :
    Stamped (Function.update phase key after) key entry := by
  unfold Stamped
  rwa [Function.update_self]

theorem Stamped.update {phase : UInt64 → KeyPhase} {other : UInt64} {entry : CacheEntry}
    (h : Stamped phase other entry) {key : UInt64} (different : other ≠ key) (after : KeyPhase) :
    Stamped (Function.update phase key after) other entry := by
  unfold Stamped
  rwa [Function.update_of_ne different]

/-- A lookup that finds something leaves the copies of every key as they were. -/
theorem Lookup.stamped {phase : UInt64 → KeyPhase} {key : UInt64} {asked : KeyPhase} {returned : CacheEntry}
    (lookup : Lookup (phase key) asked (some returned)) (other : UInt64) (entry : CacheEntry)
    (h : Stamped phase other entry) : Stamped (Function.update phase key asked) other entry := by
  by_cases here : other = key
  · subst here
    refine stamped_update_self ?_
    rcases (lookup.entry returned rfl).2 with unstamped | stays
    · cases unstamped.symm.trans h
    · exact stays ▸ h
  · exact h.update here asked

end KeyPhase

open KeyPhase

structure DiskMirrors (cacheDir : String) (disk : Disk) (l3 : L3Cache)
    (phase : UInt64 → KeyPhase) : Prop where
  dir : l3.cacheDir = cacheDir
  sound : disk.Sound
  metadata : ∀ key, l3.metadata[key]?.map CacheEntry.stamp = (phase key).stamp
  file : ∀ key, disk.files (cachePath cacheDir key) = none ↔ phase key = .missing

namespace DiskMirrors

variable {cacheDir : String} {disk : Disk} {l3 : L3Cache} {phase : UInt64 → KeyPhase}

/-- One key's file and metadata change together. -/
theorem update (h : DiskMirrors cacheDir disk l3 phase) {key : UInt64} {after : KeyPhase} {disk' : Disk}
    {l3' : L3Cache} (sound : disk'.Sound) (dir : l3'.cacheDir = l3.cacheDir)
    (metadata : ∀ other, l3'.metadata[other]?.map CacheEntry.stamp =
      if other = key then after.stamp else l3.metadata[other]?.map CacheEntry.stamp)
    (file : disk'.files (cachePath l3.cacheDir key) = none ↔ after = .missing)
    (others : ∀ other, other ≠ key →
      disk'.files (cachePath l3.cacheDir other) = disk.files (cachePath l3.cacheDir other)) :
    DiskMirrors cacheDir disk' l3' (Function.update phase key after) where
  dir := dir.trans h.dir
  sound := sound
  metadata other := by
    rw [metadata other]
    by_cases same : other = key
    · simp [same]
    · simp [same, h.metadata other]
  file other := by
    rw [h.dir] at file others
    by_cases same : other = key
    · simp [same, file]
    · simp [same, others other same, h.file other]

theorem insert (h : DiskMirrors cacheDir disk l3 phase) (key : UInt64) (entry : CacheEntry) :
    DiskMirrors cacheDir (L3Cache.insert key entry (disk, l3)).2.1 (L3Cache.insert key entry (disk, l3)).2.2
      (Function.update phase key (.ours entry.createdAt entry.ttlSecs entry.slot)) := by
  rw [L3Cache.insert_sound h.sound]
  cases h.dir
  refine h.update (h.sound.set _ _) rfl (fun other => ?_) ?_ (fun other different => ?_)
  · simp only [getElem?_insert_ite]
    split <;> rfl
  · simp [files_set]
  · simp [files_set, different]

theorem get (h : DiskMirrors cacheDir disk l3 phase) (now key : UInt64) :
    DiskMirrors cacheDir (l3.get now key disk).2.1 (l3.get now key disk).2.2
        (Function.update phase key ((phase key).asked now)) ∧
      Lookup (phase key) ((phase key).asked now) (l3.get now key disk).1 := by
  cases h.dir
  have stamp := h.metadata key
  cases found : l3.metadata[key]? with
  | some entry =>
    rw [found] at stamp
    have same : (phase key).stamp = some entry.stamp := stamp.symm
    cases old : entry.isExpired now with
    | true =>
      rw [L3Cache.get_expired h.sound found old, asked_of_expired same old]
      refine ⟨h.update (h.sound.set _ _) rfl (fun other => ?_) ?_ (fun other different => ?_),
        fun _ => rfl, nofun⟩
      · simp only [getElem?_erase_ite]
        split <;> rfl
      · simp [files_set]
      · simp [files_set, different]
    | false =>
      have stays := asked_of_live same old
      rw [L3Cache.get_live found old, stays]
      refine ⟨h.update h.sound rfl (fun other => ?_) (h.file key) (fun _ _ => rfl), nofun, ?_⟩
      · simp only [getElem?_insert_ite]
        split
        · exact same.symm
        · rfl
      · rintro _ ⟨⟩
        exact ⟨same, .inr rfl⟩
  | none =>
    rw [found] at stamp
    have unstamped : (phase key).stamp = none := stamp.symm
    cases file : disk.files (cachePath l3.cacheDir key) with
    | none =>
      have missing := (h.file key).mp file
      have stays : (phase key).asked now = phase key := by rw [missing]; rfl
      rw [L3Cache.get_absent h.sound found file, stays, Function.update_eq_self]
      exact ⟨h, fun _ => missing, nofun⟩
    | some data =>
      have left := left_of_stamp unstamped fun missing => by simp [(h.file key).mpr missing] at file
      rw [L3Cache.get_read h.sound found file, left]
      refine ⟨h.update h.sound rfl (fun other => ?_) ?_ (fun _ _ => rfl), nofun, ?_⟩
      · simp only [getElem?_insert_ite]
        split <;> rfl
      · simp [file, asked]
      · rintro _ ⟨⟩
        exact ⟨rfl, .inl rfl⟩

end DiskMirrors

/-- Every copy of a key is as its phase says. -/
structure Mirrors (cacheDir : String) (cache : QueryResultCache) (disk : Disk)
    (phase : UInt64 → KeyPhase) : Prop where
  l1 : cache.l1.Holds (Stamped phase)
  l2 : cache.l2.Holds (Stamped phase)
  l3 : DiskMirrors cacheDir disk cache.l3 phase

namespace Mirrors

variable {cacheDir : String} {cache : QueryResultCache} {disk : Disk} {phase : UInt64 → KeyPhase}

theorem insert (h : Mirrors cacheDir cache disk phase) (m : Moment) (key : UInt64) (data : List UInt8)
    (slot ttlSecs : UInt64) : Mirrors cacheDir (cache.insert m key data slot ttlSecs disk).2
      (cache.insert m key data slot ttlSecs disk).1
      (Function.update phase key (.ours m.now ttlSecs slot)) where
  l1 := h.l1.insert _ _ (stamped_update_self rfl) fun _ _ different same => same.update different _
  l2 := h.l2.insert _ _ (stamped_update_self rfl) fun _ _ different same => same.update different _
  l3 := h.l3.insert key (.new m.now data slot ttlSecs)

theorem holds_update {self : MemoryCache} {key : UInt64} (h : self.Holds (Stamped phase))
    (gone : self.entries[key]? = none) (after : KeyPhase) :
    self.Holds (Stamped (Function.update phase key after)) := by
  intro other entry found
  by_cases same : other = key
  · rw [same, gone] at found
    cases found
  · exact (h other entry found).update same after

/-- An entry still in one of the maps keeps the disk level out of it. -/
theorem get_memory (h : Mirrors cacheDir cache disk phase) (m : Moment) (key : UInt64)
    (found : ¬ (cache.l1.live m.now key = none ∧ cache.l2.live m.now key = none)) :
    ∃ entry, (cache.get m key disk).1 = some entry ∧ (phase key).stamp = some entry.stamp ∧
      (phase key).asked m.now = phase key := by
  rw [QueryResultCache.get_fst, MemoryCache.get_fst, MemoryCache.get_fst]
  cases first : cache.l1.live m.now key with
  | some entry =>
    obtain ⟨same, young⟩ := h.l1.live first
    exact ⟨entry.access m.now, rfl, same, asked_of_live same young⟩
  | none =>
    cases second : cache.l2.live m.now key with
    | some entry =>
      obtain ⟨same, young⟩ := h.l2.live second
      exact ⟨entry.access m.now, rfl, same, asked_of_live same young⟩
    | none => exact absurd ⟨first, second⟩ found

theorem get (h : Mirrors cacheDir cache disk phase) (m : Moment) (key : UInt64) :
    Mirrors cacheDir (cache.get m key disk).2.2 (cache.get m key disk).2.1
        (Function.update phase key ((phase key).asked m.now)) ∧
      Lookup (phase key) ((phase key).asked m.now) (cache.get m key disk).1 := by
  have bottom := cache.get_disk m key disk
  by_cases quiet : cache.l1.live m.now key = none ∧ cache.l2.live m.now key = none
  · rw [if_pos quiet] at bottom
    obtain ⟨on_disk, lookup⟩ := h.l3.get m.now key
    have returned : (cache.get m key disk).1 = (cache.l3.get m.now key disk).1 := by
      rw [QueryResultCache.get_fst, MemoryCache.get_fst, MemoryCache.get_fst, quiet.1, quiet.2]
      rfl
    rw [← bottom] at on_disk
    rw [← returned] at lookup
    refine ⟨?_, lookup⟩
    cases found : (cache.get m key disk).1 with
    | none =>
      -- The copies of the key that had expired are gone with the file.
      obtain ⟨l1, l2⟩ := cache.get_holds m key disk (fun _ _ _ same => same) h.l1 h.l2
        fun _ _ entry impossible => by simp [← returned, found] at impossible
      obtain ⟨first, second⟩ := cache.getElem?_get_none m key disk found
      exact ⟨holds_update l1 first _, holds_update l2 second _, on_disk⟩
    | some entry =>
      rw [found] at lookup
      have promoted : Stamped (Function.update phase key ((phase key).asked m.now)) key entry :=
        stamped_update_self (lookup.entry entry rfl).1
      obtain ⟨l1, l2⟩ := cache.get_holds m key disk (fun _ _ _ same => same) (h.l1.mono lookup.stamped)
        (h.l2.mono lookup.stamped) fun _ _ e same => by
          rw [← returned, found] at same
          exact Option.some.inj same ▸ promoted
      exact ⟨l1, l2, on_disk⟩
  · rw [if_neg quiet] at bottom
    obtain ⟨entry, returned, same, stays⟩ := h.get_memory m key quiet
    obtain ⟨l1, l2⟩ := cache.get_holds m key disk (fun _ _ _ same => same) h.l1 h.l2
      fun first second => absurd ⟨first, second⟩ quiet
    obtain ⟨disk_same, l3_same⟩ := Prod.mk.inj bottom
    have on_disk : DiskMirrors cacheDir (cache.get m key disk).2.1 (cache.get m key disk).2.2.l3 phase := by
      rw [disk_same, l3_same]
      exact h.l3
    rw [stays, Function.update_eq_self, returned]
    refine ⟨⟨l1, l2, on_disk⟩, nofun, ?_⟩
    rintro _ ⟨⟩
    exact ⟨same, .inr rfl⟩

/-- Of a cache just opened nothing but the files matters. -/
theorem fresh {parent : String}
    (unstamped : ∀ key, (phase key).stamp = none)
    (file : ∀ key, disk.files (cachePath (parent ++ "/l3") key) = none ↔ phase key = .missing)
    (sound : disk.Sound) (l1Size l2Size : Nat) (slotThreshold : UInt64) :
    Mirrors (parent ++ "/l3") (.fresh parent l1Size l2Size slotThreshold) disk phase where
  l1 := MemoryCache.holds_new l1Size _
  l2 := MemoryCache.holds_new l2Size _
  l3 := by
    refine ⟨rfl, sound, fun key => ?_, file⟩
    rw [unstamped key]
    rfl

end Mirrors

inductive LifeCall where
  | call (call : CacheCall)
  | create (l1Size l2Size : Nat) (slotThreshold : UInt64)

/-- The caches opened over one directory one after the other. -/
structure CacheLives where
  cacheDir : String
  run : CacheRun
  phase : UInt64 → KeyPhase

/-- A new instance knows no file. -/
def KeyPhase.reopened : KeyPhase → KeyPhase
  | .missing => .missing
  | _ => .left

theorem KeyPhase.stamp_reopened (phase : KeyPhase) : phase.reopened.stamp = none := by
  cases phase <;> rfl

theorem KeyPhase.reopened_eq_missing_iff (phase : KeyPhase) :
    phase.reopened = .missing ↔ phase = .missing := by
  cases phase <;> simp [reopened]

namespace CacheLives

def start (cacheDir : String) (l1Size l2Size : Nat) (slotThreshold : UInt64)
    (files : String → Option (List UInt8)) : CacheLives where
  cacheDir := cacheDir
  run := .start (.fresh cacheDir l1Size l2Size slotThreshold) ⟨files, []⟩
  phase key := if files (cachePath (cacheDir ++ "/l3") key) = none then .missing else .left

def phaseAfter (s : CacheLives) (m : Moment) : CacheCall → UInt64 → KeyPhase
  | .insert key _ slot ttlSecs => Function.update s.phase key (.ours m.now ttlSecs slot)
  | .get key => Function.update s.phase key ((s.phase key).asked m.now)
  | .updateSlot _ => s.phase

def step (s : CacheLives) : Moment × LifeCall → Option CacheLives
  | (m, .call call) => some { s with run := s.run.call m call, phase := s.phaseAfter m call }
  | (_, .create l1Size l2Size slotThreshold) =>
    match QueryResultCache.new s.cacheDir l1Size l2Size slotThreshold s.run.disk with
    | (.ok cache, disk) => some { s with
        run := { CacheRun.start cache disk with inserted := s.run.inserted }
        phase := fun key => (s.phase key).reopened }
    | _ => none

/-- The latest insert under the key had a TTL, and it has not run out. -/
def InTime (s : CacheLives) (now key : UInt64) : Prop :=
  ∃ entry, s.run.inserted key = some entry ∧ entry.ttlSecs ≠ 0 ∧
    now.toNat ≤ entry.createdAt.toNat + entry.ttlSecs.toNat

structure Known (s : CacheLives) : Prop where
  mirrors : Mirrors (s.cacheDir ++ "/l3") s.run.cache s.run.disk s.phase
  ours : ∀ key since ttlSecs slot, s.phase key = .ours since ttlSecs slot →
    ∃ entry, s.run.inserted key = some entry ∧ entry.stamp = (since, ttlSecs, slot)

/-- Nothing is returned when the latest insert's TTL is over. -/
def ReturnsInTime (s : CacheLives) (event : Moment × LifeCall) (_ : CacheLives) : Prop :=
  match event with
  | (m, .call (.get key)) => ∀ entry, (s.run.cache.get m key s.run.disk).1 = some entry →
    s.InTime m.now key
  | _ => True

/-- A file that another instance left, or an entry read from one within the last
3600 seconds, is asked for only while the latest insert's TTL runs. -/
def LeftInTime (s : CacheLives) (event : Moment × LifeCall) (_ : CacheLives) : Prop :=
  match event with
  | (m, .call (.get key)) => ∀ since, (s.phase key).asked m.now = .readBack since → s.InTime m.now key
  | _ => True

theorem inTime_of_young {s : CacheLives} {key now : UInt64} {entry : CacheEntry}
    (inserted : s.run.inserted key = some entry) (young : entry.isExpired now = false) :
    s.InTime now key := by
  unfold CacheEntry.isExpired at young
  split at young
  · cases young
  · rename_i positive
    refine ⟨entry, inserted, positive, ?_⟩
    have bound := Nat.le_of_not_lt (UInt64.lt_iff_toNat_lt.not.mp (of_decide_eq_false young))
    rw [UInt64.toNat_add] at bound
    exact bound.trans (Nat.mod_le _ _)

theorem Known.returnsInTime_iff {s : CacheLives} (h : s.Known) (event : Moment × LifeCall)
    (t : CacheLives) : s.ReturnsInTime event t ↔ s.LeftInTime event t := by
  obtain ⟨m, call⟩ := event
  cases call with
  | create => exact Iff.rfl
  | call call =>
    cases call with
    | get key =>
      obtain ⟨_, lookup⟩ := h.mirrors.get m key
      change (∀ entry, (s.run.cache.get m key s.run.disk).1 = some entry → s.InTime m.now key) ↔
        ∀ since, (s.phase key).asked m.now = .readBack since → s.InTime m.now key
      cases returned : (s.run.cache.get m key s.run.disk).1 with
      | none => simp [lookup.nothing returned]
      | some entry =>
        obtain ⟨stamped, _⟩ := lookup.entry entry returned
        refine ⟨fun h _ _ => h entry rfl, fun asks _ _ => ?_⟩
        cases phase : (s.phase key).asked m.now with
        | missing =>
          rw [phase] at stamped
          cases stamped
        | left => exact (asked_left phase).elim
        | readBack since => exact asks since phase
        | ours since ttlSecs slot =>
          obtain ⟨known, live⟩ := ours_of_asked phase
          obtain ⟨inserted, latest, same⟩ := h.ours key since ttlSecs slot known
          have stamped : (s.phase key).stamp = some inserted.stamp := by rw [known, same]; rfl
          exact inTime_of_young latest ((expired_of_stamp stamped m.now).symm.trans live)
    | _ => exact Iff.rfl

theorem start_known (cacheDir : String) (l1Size l2Size : Nat) (slotThreshold : UInt64)
    (files : String → Option (List UInt8)) :
    (start cacheDir l1Size l2Size slotThreshold files).Known where
  mirrors := by
    refine .fresh (fun key => ?_) (fun key => ?_) ?_ l1Size l2Size slotThreshold
    · simp only [start]
      split <;> rfl
    · simp [start, CacheRun.start]
    · exact rfl
  ours := by
    intro key since ttlSecs slot known
    simp only [start] at known
    split at known <;> cases known

theorem Known.step {s t : CacheLives} (h : s.Known) (event : Moment × LifeCall)
    (taken : s.step event = some t) : t.Known := by
  obtain ⟨m, call⟩ := event
  cases call with
  | create l1Size l2Size slotThreshold =>
    simp only [CacheLives.step, QueryResultCache.new_sound h.mirrors.l3.sound] at taken
    cases taken
    refine ⟨.fresh (fun key => ?_) (fun key => ?_) h.mirrors.l3.sound l1Size l2Size slotThreshold, ?_⟩
    · exact stamp_reopened (s.phase key)
    · exact (h.mirrors.l3.file key).trans (reopened_eq_missing_iff (s.phase key)).symm
    · intro key since ttlSecs slot known
      have never := stamp_reopened (s.phase key)
      rw [show (s.phase key).reopened = _ from known] at never
      cases never
  | call call =>
    cases taken
    cases call with
    | insert key data slot ttlSecs =>
      refine ⟨h.mirrors.insert m key data slot ttlSecs, fun other since ttl other_slot known => ?_⟩
      simp only [phaseAfter, CacheRun.call] at known ⊢
      by_cases same : other = key
      · rw [same, Function.update_self] at known ⊢
        cases known
        exact ⟨_, rfl, rfl⟩
      · rw [Function.update_of_ne same] at known ⊢
        exact h.ours other since ttl other_slot known
    | get key =>
      refine ⟨(h.mirrors.get m key).1, fun other since ttl other_slot known => ?_⟩
      simp only [phaseAfter] at known
      by_cases same : other = key
      · rw [same, Function.update_self] at known
        rw [same]
        exact h.ours key since ttl other_slot (ours_of_asked known).1
      · rw [Function.update_of_ne same] at known
        exact h.ours other since ttl other_slot known
    | updateSlot slot => exact ⟨⟨h.mirrors.l1, h.mirrors.l2, h.mirrors.l3⟩, h.ours⟩

/-- Every get of a run returns something in time only exactly when no get asks too
late for what another instance left. -/
theorem gets_in_time_iff (cacheDir : String) (l1Size l2Size : Nat) (slotThreshold : UInt64)
    (files : String → Option (List UInt8)) (events : List (Moment × LifeCall)) :
    let first := start cacheDir l1Size l2Size slotThreshold files
    Along (ofPartial step) ReturnsInTime first events ↔
      Along (ofPartial step) LeftInTime first events :=
  along_step_iff Known (fun _ event t h _ => h.returnsInTime_iff event t)
    (fun _ event _ h taken _ => h.step event taken) (start_known ..) events

/-- No entry returned is behind a slot its instance was told by more than its threshold. -/
def ReturnsRecent (s : CacheLives) (event : Moment × LifeCall) (_ : CacheLives) : Prop :=
  match event with
  | (m, .call (.get key)) => ∀ entry, (s.run.cache.get m key s.run.disk).1 = some entry →
    s.run.Recent s.run.cache.slotThreshold entry.slot
  | _ => True

/-- What the key's own calls have left of it is recent; slot 0 stands for what
another instance left. -/
def AsksRecent (s : CacheLives) (event : Moment × LifeCall) (_ : CacheLives) : Prop :=
  match event with
  | (m, .call (.get key)) => ∀ since ttlSecs slot,
    ((s.phase key).asked m.now).stamp = some (since, ttlSecs, slot) →
      s.run.Recent s.run.cache.slotThreshold slot
  | _ => True

/-- Every get of a run returns a recent entry only exactly when no get asks for a key
whose own calls have left an older one: whichever level answers, whatever other keys
have evicted and however often the entry was promoted, it has the same slot. -/
theorem gets_recent_iff (cacheDir : String) (l1Size l2Size : Nat) (slotThreshold : UInt64)
    (files : String → Option (List UInt8)) (events : List (Moment × LifeCall)) :
    let first := start cacheDir l1Size l2Size slotThreshold files
    Along (ofPartial step) ReturnsRecent first events ↔ Along (ofPartial step) AsksRecent first events := by
  refine along_step_iff Known ?_ (fun _ event _ h taken _ => h.step event taken) (start_known ..) events
  rintro s ⟨m, call⟩ t h -
  cases call with
  | create => exact Iff.rfl
  | call call =>
    cases call with
    | get key =>
      obtain ⟨_, lookup⟩ := h.mirrors.get m key
      change (∀ entry, (s.run.cache.get m key s.run.disk).1 = some entry → _) ↔
        ∀ since ttlSecs slot, ((s.phase key).asked m.now).stamp = some (since, ttlSecs, slot) → _
      cases returned : (s.run.cache.get m key s.run.disk).1 with
      | none => simp [lookup.nothing returned, KeyPhase.stamp]
      | some entry =>
        rw [(lookup.entry entry returned).1]
        simp [CacheEntry.stamp]
    | _ => exact Iff.rfl

/-- The slot an update names reaches no level. -/
theorem outdated_entry_returned :
    let moment (now : UInt64) : Moment := ⟨now, .some UInt64, .some UInt64⟩
    ¬ Along (ofPartial step) ReturnsRecent (start "cache_slot" 100 1000 10000 fun _ => none)
      [(moment 0, .call (.insert 7 [100] 1000 3600)), (moment 1, .call (.updateSlot 20000)),
        (moment 2, .call (.get 7))] := by
  intro moment along
  obtain ⟨_, later⟩ := along _ rfl
  obtain ⟨_, last⟩ := later _ rfl
  obtain ⟨recent, _⟩ := last _ rfl
  have finds := (QueryResultCache.forall_get_iff _ _ _ _ (fun _ => Iff.rfl)).mp recent
  have young : (CacheEntry.new 0 [100] 1000 3600).isExpired 2 = false := by decide
  have cached := (QueryResultCache.live_insert (moment 0) 7 [100] 1000 3600 ⟨fun _ => none, []⟩
    (.fresh "cache_slot" 100 1000 10000) 2).1.trans (Option.filter_some_pos (by simpa using young))
  have behind := finds.l1 _ cached 20000 (List.mem_singleton_self _)
  revert behind
  decide

/-- No key was left by an instance that is gone. -/
def Own (phase : UInt64 → KeyPhase) : Prop :=
  ∀ key, phase key = .missing ∨ ∃ since ttlSecs slot, phase key = .ours since ttlSecs slot

theorem Own.update {phase : UInt64 → KeyPhase} (h : Own phase) (key : UInt64) {after : KeyPhase}
    (own : after = .missing ∨ ∃ since ttlSecs slot, after = .ours since ttlSecs slot) :
    Own (Function.update phase key after) := by
  intro other
  by_cases same : other = key
  · rwa [same, Function.update_self]
  · rw [Function.update_of_ne same]
    exact h other

theorem Own.asked {phase : UInt64 → KeyPhase} (h : Own phase) (now key : UInt64) :
    (phase key).asked now = .missing ∨
      ∃ since ttlSecs slot, (phase key).asked now = .ours since ttlSecs slot := by
  rcases h key with missing | ⟨since, ttlSecs, slot, ours⟩
  · rw [missing]
    exact .inl rfl
  · rw [ours]
    simp only [KeyPhase.asked]
    split
    · exact .inl rfl
    · exact .inr ⟨since, ttlSecs, slot, rfl⟩

/-- One instance over an empty directory returns nothing late. -/
theorem returns_in_time_of_one_life (cacheDir : String) (l1Size l2Size : Nat) (slotThreshold : UInt64)
    (events : List (Moment × CacheCall)) :
    Along (ofPartial step) ReturnsInTime (start cacheDir l1Size l2Size slotThreshold fun _ => none)
      (events.map fun event => (event.1, .call event.2)) := by
  have calls : ∀ event ∈ events.map fun event => (event.1, LifeCall.call event.2),
      ∃ call, event.2 = LifeCall.call call := by
    intro event member
    obtain ⟨original, _, rfl⟩ := List.mem_map.mp member
    exact ⟨original.2, rfl⟩
  refine along_of_invariant (fun s => s.Known ∧ Own s.phase) _ _ ?_ ⟨start_known .., ?_⟩
    (along_labels _ calls _)
  · rintro s ⟨m, _⟩ t ⟨known, own⟩ taken ⟨call, rfl⟩
    refine ⟨⟨known.step _ taken, ?_⟩, (known.returnsInTime_iff _ t).mpr ?_⟩
    · cases taken
      cases call with
      | insert key data slot ttlSecs => exact own.update key (.inr ⟨_, _, _, rfl⟩)
      | get key => exact own.update key (own.asked m.now key)
      | updateSlot slot => exact own
    · cases call with
      | get key =>
        intro since back
        rcases own.asked m.now key with missing | ⟨since, ttlSecs, slot, ours⟩
        · cases missing.symm.trans back
        · cases ours.symm.trans back
      | _ => trivial
  · intro key
    exact .inl rfl

/-- The file outlives the TTL of the entry written to it. -/
theorem expired_data_returned :
    let moment (now : UInt64) : Moment := ⟨now, .some UInt64, .some UInt64⟩
    ¬ Along (ofPartial step) ReturnsInTime (start "cache" 100 1000 10000 fun _ => none)
      [(moment 0, .call (.insert 7 [1] 1000 1)), (moment 5, .create 100 1000 10000),
        (moment 10, .call (.get 7))] := by
  intro moment along
  have known := start_known "cache" 100 1000 10000 fun _ => none
  obtain ⟨_, later⟩ := along _ rfl
  have written := known.step (moment 0, .call (.insert 7 [1] 1000 1)) rfl
  obtain ⟨_, last⟩ := later _ rfl
  have opened := written.step (moment 5, .create 100 1000 10000) rfl
  obtain ⟨returns, _⟩ := last _ rfl
  obtain ⟨entry, inserted, _, bound⟩ := (opened.returnsInTime_iff _ _).mp returns 10 rfl
  cases inserted
  revert bound
  decide

end CacheLives

end Hyperplane
