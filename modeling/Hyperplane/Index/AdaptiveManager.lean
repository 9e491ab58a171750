import Hyperplane.Index.AdaptiveIndex

/-! The manager keeps an index for each name and hands out handles. -/
namespace Hyperplane
open Maps Transition

structure AdaptiveIndexManager (S : Type) where
  indexes : Std.TreeMap String (AdaptiveIndex S)
  baseDir : String

/-- An absolute file name replaces the directory. -/
def joinPath (dir file : String) : String :=
  if file.startsWith "/" then file
  else if dir.isEmpty || dir.endsWith "/" then dir ++ file
  else dir ++ "/" ++ file

namespace AdaptiveIndexManager

variable {S : Type}

def new (baseDir : String) : AdaptiveIndexManager S := ⟨∅, baseDir⟩

/-- The index handed out is in neither case the one that is registered. -/
def getOrCreateIndex (manager : AdaptiveIndexManager S) (name : String) :
    AdaptiveIndex S × AdaptiveIndexManager S :=
  match manager.indexes[name]? with
  | some index => (.new index.indexPath, manager)
  | none =>
    let indexPath := joinPath manager.baseDir (name ++ ".idx")
    (.new indexPath, { manager with indexes := manager.indexes.insert name (.new indexPath) })

def adapt (index : AdaptiveIndex S) : AdaptiveIndex S :=
  match index.evaluateMigration with
  | some newType => index.migrateTo newType
  | none => index

/-- One round of the adaptation loop. -/
def runAdaptation (manager : AdaptiveIndexManager S) : AdaptiveIndexManager S :=
  { manager with indexes := manager.indexes.map fun _ index => adapt index }

theorem getOrCreateIndex_new {manager : AdaptiveIndexManager S}
    (registered : ∀ (name : String) (index : AdaptiveIndex S), manager.indexes[name]? = some index →
      ∃ path, index = .new path) (name : String) :
    (∃ path, (manager.getOrCreateIndex name).1 = .new path) ∧
      ∀ (other : String) (index : AdaptiveIndex S),
        (manager.getOrCreateIndex name).2.indexes[other]? = some index → ∃ path, index = .new path := by
  unfold getOrCreateIndex
  cases manager.indexes[name]? with
  | some old => exact ⟨⟨_, rfl⟩, registered⟩
  | none =>
    refine ⟨⟨_, rfl⟩, fun other index found => ?_⟩
    by_cases same : other = name
    · subst same
      rw [Std.TreeMap.getElem?_insert_self] at found
      exact ⟨_, (Option.some.inj found).symm⟩
    · rw [getElem?_insert_ne _ same] at found
      exact registered other index found

/-- With no entries there is nothing to adapt to. -/
theorem adapt_new (path : String) :
    adapt (AdaptiveIndex.new path : AdaptiveIndex S) = .new path := rfl

end AdaptiveIndexManager

structure AdaptiveHandle (S : Type) where
  name : String
  index : AdaptiveIndex S

structure AdaptiveEntry where
  handle : Nat
  name : String
  key : UInt64
  accountId : UInt32
  deriving DecidableEq

/-- The manager, the handles obtained so far, and what was inserted through them. -/
structure AdaptiveRun (S : Type) where
  manager : AdaptiveIndexManager S
  handles : List (AdaptiveHandle S)
  inserted : List AdaptiveEntry

inductive AdaptiveManagerCall where
  | getOrCreateIndex (name : String)
  | insert (handle : Nat) (key : UInt64) (accountId : UInt32)
  | query (handle : Nat) (key elapsed : UInt64)
  | adaptation

def AdaptiveManagerCall.inserts : AdaptiveManagerCall → Bool
  | .insert _ _ _ => true
  | _ => false

namespace AdaptiveRun

variable {S : Type}

def start (baseDir : String) : AdaptiveRun S := ⟨.new baseDir, [], []⟩

def setIndex (s : AdaptiveRun S) (i : Nat) (h : AdaptiveHandle S) (index : AdaptiveIndex S) :
    List (AdaptiveHandle S) :=
  s.handles.set i { h with index := index }

/-- The entry was inserted through the handle, under the key or one that has
the same low half. -/
def InsertedThrough (s : AdaptiveRun S) (i : Nat) (key : UInt64) (id : UInt32) : Prop :=
  ∃ e ∈ s.inserted, e.handle = i ∧ e.key.toUInt32 = key.toUInt32 ∧ e.accountId = id

theorem insertedThrough_append (s : AdaptiveRun S) (handles : List (AdaptiveHandle S))
    (new : List AdaptiveEntry) (i : Nat) (key : UInt64) (id : UInt32) :
    InsertedThrough { s with handles := handles, inserted := s.inserted ++ new } i key id ↔
      s.InsertedThrough i key id ∨
        ∃ e ∈ new, e.handle = i ∧ e.key.toUInt32 = key.toUInt32 ∧ e.accountId = id := by
  simp [InsertedThrough, or_and_right, exists_or]

variable [IdSet S]

/-- Only handles obtained before can be used. -/
def step (s : AdaptiveRun S) : AdaptiveManagerCall → Option (AdaptiveRun S)
  | .getOrCreateIndex name =>
    let (index, manager) := s.manager.getOrCreateIndex name
    some { s with manager := manager, handles := s.handles ++ [⟨name, index⟩] }
  | .insert i key accountId => s.handles[i]?.map fun h => { s with
      handles := s.setIndex i h (h.index.insert key accountId)
      inserted := s.inserted ++ [⟨i, h.name, key, accountId⟩] }
  | .query i key elapsed => s.handles[i]?.map fun h => { s with
      handles := s.setIndex i h (h.index.query key elapsed).2 }
  | .adaptation => some { s with manager := s.manager.runAdaptation }

/-- An inserted entry is shown by all handles for the name, and held by the
registered index; handles for other names do not show it for that. -/
structure Shared (s : AdaptiveRun S) : Prop where
  visible : ∀ e ∈ s.inserted, ∀ h ∈ s.handles, h.name = e.name → h.index.Shows e.key e.accountId
  registered : ∀ e ∈ s.inserted, ∃ index, s.manager.indexes[e.name]? = some index ∧
    index.Shows e.key e.accountId
  separate : ∀ h ∈ s.handles, ∀ key id, h.index.Shows key id →
    ∃ e ∈ s.inserted, e.name = h.name ∧ e.key.toUInt32 = key.toUInt32 ∧ e.accountId = id

/-- Every handle is an index of its own, and the registered indexes stay as new. -/
structure Apart (s : AdaptiveRun S) : Prop where
  registered : ∀ (name : String) (index : AdaptiveIndex S), s.manager.indexes[name]? = some index →
    ∃ path, index = .new path
  bitmaps : ∀ h ∈ s.handles, h.index.indexType = .bitmap
  known : ∀ e ∈ s.inserted, ∃ h, s.handles[e.handle]? = some h ∧ h.name = e.name
  shows : ∀ i h, s.handles[i]? = some h → ∀ key id, h.index.Shows key id ↔ s.InsertedThrough i key id

theorem start_apart (baseDir : String) : (start baseDir : AdaptiveRun S).Apart := by
  constructor <;> simp [start, AdaptiveIndexManager.new]

theorem new_shows_nothing (path : String) (key : UInt64) (id : UInt32) :
    ¬ (AdaptiveIndex.new path : AdaptiveIndex S).Shows key id := by
  simp [AdaptiveIndex.shows_iff, AdaptiveIndex.found, AdaptiveIndex.new]

theorem Apart.getOrCreateIndex {s t : AdaptiveRun S} (h : s.Apart) {name : String}
    (taken : s.step (.getOrCreateIndex name) = some t) : t.Apart := by
  obtain ⟨⟨path, fresh⟩, registered⟩ :=
    AdaptiveIndexManager.getOrCreateIndex_new h.registered name
  cases taken
  refine ⟨registered, ?_, ?_, ?_⟩
  · intro a member
    rcases List.mem_append.mp member with old | new
    · exact h.bitmaps a old
    · rw [List.mem_singleton.mp new]
      exact congrArg AdaptiveIndex.indexType fresh
  · intro e member
    obtain ⟨a, there, named⟩ := h.known e member
    exact ⟨a, List.getElem?_append_left (List.getElem?_eq_some_iff.mp there).1 ▸ there, named⟩
  · intro i a there key id
    rcases Nat.lt_or_ge i s.handles.length with old | new
    · rw [List.getElem?_append_left old] at there
      exact h.shows i a there key id
    · -- Nothing was inserted through the handle that is new.
      rw [List.getElem?_append_right new] at there
      obtain ⟨_, rfl⟩ := List.mem_singleton.mp (List.mem_of_getElem? there)
      refine iff_of_false (fresh ▸ new_shows_nothing path key id) ?_
      rintro ⟨e, member, rfl, _⟩
      obtain ⟨_, known, _⟩ := h.known e member
      exact Nat.not_lt.mpr new (List.getElem?_eq_some_iff.mp known).1

/-- What a call through a handle does, which changes the index of this handle. -/
theorem Apart.through {s : AdaptiveRun S} (h : s.Apart) {i : Nat} {a : AdaptiveHandle S}
    (there : s.handles[i]? = some a) (index : AdaptiveIndex S) (new : List AdaptiveEntry)
    (bitmap : index.indexType = .bitmap)
    (mine : ∀ e ∈ new, e.handle = i ∧ e.name = a.name)
    (shows : ∀ key id, index.Shows key id ↔ a.index.Shows key id ∨
      ∃ e ∈ new, e.key.toUInt32 = key.toUInt32 ∧ e.accountId = id) :
    Apart { s with handles := s.setIndex i a index, inserted := s.inserted ++ new } := by
  have inside := (List.getElem?_eq_some_iff.mp there).1
  have here : (s.setIndex i a index)[i]? = some { a with index := index } := List.getElem?_set_self inside
  have elsewhere (j : Nat) (other : j ≠ i) : (s.setIndex i a index)[j]? = s.handles[j]? :=
    List.getElem?_set_ne (Ne.symm other)
  refine ⟨h.registered, ?_, ?_, ?_⟩
  · intro b member
    rcases List.mem_or_eq_of_mem_set member with old | rfl
    · exact h.bitmaps b old
    · exact bitmap
  · intro e member
    by_cases same : e.handle = i
    · refine ⟨{ a with index := index }, same.symm ▸ here, ?_⟩
      rcases List.mem_append.mp member with old | added
      · obtain ⟨b, known, named⟩ := h.known e old
        cases (same ▸ known).symm.trans there
        exact named
      · exact (mine e added).2.symm
    · rcases List.mem_append.mp member with old | added
      · obtain ⟨b, known, named⟩ := h.known e old
        exact ⟨b, (elsewhere e.handle same).trans known, named⟩
      · exact absurd (mine e added).1 same
  · intro j b found key id
    by_cases same : j = i
    · subst same
      cases here.symm.trans found
      rw [insertedThrough_append, ← h.shows j a there]
      refine (shows key id).trans (or_congr_right ?_)
      constructor
      · rintro ⟨e, member, entry⟩
        exact ⟨e, member, (mine e member).1, entry⟩
      · rintro ⟨e, member, _, entry⟩
        exact ⟨e, member, entry⟩
    · rw [insertedThrough_append, ← h.shows j b ((elsewhere j same).symm.trans found)]
      refine (or_iff_left ?_).symm
      rintro ⟨e, member, there, _⟩
      exact same (there.symm.trans (mine e member).1)

theorem Apart.insert {s t : AdaptiveRun S} (h : s.Apart) {i : Nat} {key : UInt64} {id : UInt32}
    (taken : s.step (.insert i key id) = some t) : t.Apart := by
  obtain ⟨a, there, rfl⟩ := Option.map_eq_some_iff.mp taken
  have bitmap := h.bitmaps a (List.mem_of_getElem? there)
  refine h.through there (a.index.insert key id) [⟨i, a.name, key, id⟩] ?_ ?_ ?_
  · simp [AdaptiveIndex.insert, bitmap]
  · rintro e member
    rw [List.mem_singleton.mp member]
    exact ⟨rfl, rfl⟩
  · intro other shown
    rw [AdaptiveIndex.shows_iff, AdaptiveIndex.shows_iff, AdaptiveIndex.mem_found_insert]
    simp [AdaptiveIndex.SameKey, bitmap, or_comm, eq_comm]

theorem Apart.query {s t : AdaptiveRun S} (h : s.Apart) {i : Nat} {key elapsed : UInt64}
    (taken : s.step (.query i key elapsed) = some t) : t.Apart := by
  obtain ⟨a, there, rfl⟩ := Option.map_eq_some_iff.mp taken
  have same := h.through there (a.index.query key elapsed).2 [] (h.bitmaps a (List.mem_of_getElem? there))
    (by simp) (by simp [AdaptiveIndex.shows_iff, AdaptiveIndex.query, AdaptiveIndex.found])
  rwa [List.append_nil] at same

/-- The adaptation loop never migrates anything. -/
theorem Apart.runAdaptation {s : AdaptiveRun S} (h : s.Apart) (name : String) :
    s.manager.runAdaptation.indexes[name]? = s.manager.indexes[name]? := by
  rw [AdaptiveIndexManager.runAdaptation, Std.TreeMap.getElem?_map]
  cases found : s.manager.indexes[name]? with
  | none => rfl
  | some index =>
    obtain ⟨path, rfl⟩ := h.registered name index found
    exact congrArg some (AdaptiveIndexManager.adapt_new path)

theorem Apart.adaptation {s t : AdaptiveRun S} (h : s.Apart) (taken : s.step .adaptation = some t) :
    t.Apart := by
  cases taken
  refine ⟨fun name index found => ?_, h.bitmaps, h.known, h.shows⟩
  exact h.registered name index (h.runAdaptation name ▸ found)

theorem Apart.step {s t : AdaptiveRun S} (h : s.Apart) {call : AdaptiveManagerCall}
    (taken : s.step call = some t) : t.Apart := by
  cases call with
  | getOrCreateIndex name => exact h.getOrCreateIndex taken
  | insert i key id => exact h.insert taken
  | query i key elapsed => exact h.query taken
  | adaptation => exact h.adaptation taken

theorem reached_apart {baseDir : String} {calls : List AdaptiveManagerCall} {s : AdaptiveRun S}
    (ran : Run (ofPartial step) (start baseDir) calls s) : s.Apart :=
  run_invariant Apart (fun _ _ _ h taken => h.step taken) (start_apart baseDir) ran

theorem inserted_step {s t : AdaptiveRun S} {call : AdaptiveManagerCall} (taken : s.step call = some t) :
    t.inserted = [] ↔ s.inserted = [] ∧ call.inserts = false := by
  cases call with
  | getOrCreateIndex name =>
    cases taken
    simp [AdaptiveManagerCall.inserts]
  | insert i key id =>
    obtain ⟨a, _, rfl⟩ := Option.map_eq_some_iff.mp taken
    simp [AdaptiveManagerCall.inserts]
  | query i key elapsed =>
    obtain ⟨a, _, rfl⟩ := Option.map_eq_some_iff.mp taken
    simp [AdaptiveManagerCall.inserts]
  | adaptation =>
    cases taken
    simp [AdaptiveManagerCall.inserts]

/-- The registered index never shows an entry. -/
theorem Apart.shared_iff {s : AdaptiveRun S} (h : s.Apart) : s.Shared ↔ s.inserted = [] := by
  constructor
  · intro shared
    refine List.eq_nil_iff_forall_not_mem.mpr fun e member => ?_
    obtain ⟨index, found, shows⟩ := shared.registered e member
    obtain ⟨path, rfl⟩ := h.registered e.name index found
    exact new_shows_nothing path e.key e.accountId shows
  · intro none
    refine ⟨by simp [none], by simp [none], fun a member key id shows => ?_⟩
    obtain ⟨i, there⟩ := List.mem_iff_getElem?.mp member
    obtain ⟨e, impossible, _⟩ := (h.shows i a there key id).mp shows
    simp [none] at impossible

/-- A handle shows what was inserted through this handle, and nothing else. -/
theorem handle_shows_iff {baseDir : String} {calls : List AdaptiveManagerCall} {s : AdaptiveRun S}
    (ran : Run (ofPartial step) (start baseDir) calls s) {i : Nat} {a : AdaptiveHandle S}
    (there : s.handles[i]? = some a) (key : UInt64) (id : UInt32) :
    a.index.Shows key id ↔ s.InsertedThrough i key id :=
  (reached_apart ran).shows i a there key id

/-- The entries are shared by the handles and the manager only as long as there are none. -/
theorem entries_shared_iff {baseDir : String} {calls : List AdaptiveManagerCall} {s : AdaptiveRun S}
    (ran : Run (ofPartial step) (start baseDir) calls s) :
    s.Shared ↔ ∀ call ∈ calls, call.inserts = false := by
  rw [(reached_apart ran).shared_iff]
  have counted := run_iff (·.inserted = []) (·.inserts = false) (fun _ _ _ => inserted_step) ran
  exact counted.trans (and_iff_right rfl)

theorem lookups_are_shared : ∃ s : AdaptiveRun SortedIds,
    Run (ofPartial step) (start "data") [.getOrCreateIndex "test_idx", .query 0 1 5] s ∧ s.Shared := by
  obtain ⟨s, ran⟩ : ∃ s : AdaptiveRun SortedIds,
      Run (ofPartial step) (start "data") [.getOrCreateIndex "test_idx", .query 0 1 5] s :=
    ⟨_, (run_ofPartial _ _ _ _).mpr rfl⟩
  exact ⟨s, ran, (entries_shared_iff ran).mpr (by decide)⟩

/-- The second handle for the name does not show the entry, nor does the registered index. -/
theorem entry_not_shared : ∃ s : AdaptiveRun SortedIds,
    Run (ofPartial step) (start "data")
      [.getOrCreateIndex "test_idx", .getOrCreateIndex "test_idx", .insert 0 1 100] s ∧
    ∃ e ∈ s.inserted, (∃ h ∈ s.handles, h.name = e.name ∧ ¬ h.index.Shows e.key e.accountId) ∧
      ¬ ∃ index, s.manager.indexes[e.name]? = some index ∧ index.Shows e.key e.accountId := by
  have outcome : ((List.foldlM step (start "data")
      [.getOrCreateIndex "test_idx", .getOrCreateIndex "test_idx", .insert 0 1 100] :
      Option (AdaptiveRun SortedIds)).map fun s => (s.inserted,
        s.handles[1]?.map fun h => (h.name, h.index.found 1),
        s.manager.indexes["test_idx"]?.map (·.found 1))) =
      some ([⟨0, "test_idx", 1, 100⟩], some ("test_idx", []), some []) := by decide +kernel
  obtain ⟨s, ran, final⟩ := Option.map_eq_some_iff.mp outcome
  simp only [Prod.mk.injEq] at final
  obtain ⟨inserted, second, registered⟩ := final
  obtain ⟨h, there, shown⟩ := Option.map_eq_some_iff.mp second
  obtain ⟨named, empty⟩ := Prod.mk.inj shown
  refine ⟨s, (run_ofPartial _ _ _ _).mpr ran, ⟨0, "test_idx", 1, 100⟩, by simp [inserted],
    ⟨h, List.mem_of_getElem? there, named, ?_⟩, ?_⟩
  · rw [AdaptiveIndex.shows_iff, empty]
    exact List.not_mem_nil
  · rintro ⟨index, found, shows⟩
    have held : index.found 1 = [] := by simpa [found] using registered
    rw [AdaptiveIndex.shows_iff, held] at shows
    cases shows

end AdaptiveRun

end Hyperplane
