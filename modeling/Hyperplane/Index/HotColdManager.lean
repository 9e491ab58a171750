import Hyperplane.Lib.Threads
import Hyperplane.Lib.Maps
import Hyperplane.Index.LsmStats
import Hyperplane.Index.TieredIndex

/-! The manager of the tiered indexes of all programs. Looking an index up and
registering a new one are separate sections. -/
namespace Hyperplane
open Transition Threads Maps

/-- What the manager shares. The indexes that were made are found by their handles, the
registered ones by their program. -/
structure HotColdIndexManager (S : Type) where
  programIndexes : Std.TreeMap Pubkey Nat
  currentSlot : UInt64
  indexes : List (TieredIndex S)

structure HotColdGlobalStats where
  totalPrograms : Nat
  totalHot : Nat
  totalWarm : Nat
  totalCold : Nat
  totalAccounts : Nat

namespace HotColdIndexManager

variable {S : Type}

def registered (manager : HotColdIndexManager S) : List (TieredIndex S) :=
  manager.programIndexes.toList.filterMap fun (_, handle) => manager.indexes[handle]?

/-- The first section of update_slot. -/
def setSlot (manager : HotColdIndexManager S) (slot : UInt64) : HotColdIndexManager S :=
  { manager with currentSlot := slot }

def setSlots (slot : UInt64) (handles : List Nat) (indexes : List (TieredIndex S)) : List (TieredIndex S) :=
  handles.foldl (fun indexes handle => indexes.modify handle (·.setCurrentSlot slot)) indexes

/-- The second section, which holds the map of the programs for reading. -/
def spread (manager : HotColdIndexManager S) (slot : UInt64) : HotColdIndexManager S :=
  { manager with indexes := setSlots slot (manager.programIndexes.toList.map Prod.snd) manager.indexes }

def register (manager : HotColdIndexManager S) (programId : Pubkey) (handle : Nat) : HotColdIndexManager S :=
  { manager with programIndexes := manager.programIndexes.insert programId handle }

/-- The index of a handle lists the account. -/
def Sees (manager : HotColdIndexManager S) (handle : Nat) (pubkey : Pubkey) : Prop :=
  ∃ index, manager.indexes[handle]? = some index ∧ pubkey ∈ index.metadata

theorem mem_registered {manager : HotColdIndexManager S} {programId pubkey : Pubkey} {handle : Nat}
    (found : manager.programIndexes[programId]? = some handle) (sees : manager.Sees handle pubkey) :
    ∃ index ∈ manager.registered, pubkey ∈ index.metadata := by
  obtain ⟨index, made, listed⟩ := sees
  refine ⟨index, List.mem_filterMap.mpr ⟨(programId, handle), ?_, made⟩, listed⟩
  exact Std.TreeMap.mem_toList_iff_getElem?_eq_some.mpr found

theorem metadata_setSlots (slot : UInt64) (handles : List Nat) (indexes : List (TieredIndex S)) (handle : Nat) :
    (setSlots slot handles indexes)[handle]?.map TieredIndex.metadata =
      indexes[handle]?.map TieredIndex.metadata := by
  induction handles generalizing indexes with
  | nil => rfl
  | cons first rest ih =>
    refine (ih _).trans ?_
    rw [List.getElem?_modify]
    cases indexes[handle]? with
    | none => rfl
    | some index =>
      by_cases own : first = handle
      · simp [own, TieredIndex.setCurrentSlot]
      · simp [own]

theorem length_setSlots (slot : UInt64) (handles : List Nat) (indexes : List (TieredIndex S)) :
    (setSlots slot handles indexes).length = indexes.length := by
  induction handles generalizing indexes with
  | nil => rfl
  | cons first rest ih => exact (ih _).trans (List.length_modify ..)

theorem sees_spread {manager : HotColdIndexManager S} {handle : Nat} {pubkey : Pubkey}
    (sees : manager.Sees handle pubkey) (slot : UInt64) : (manager.spread slot).Sees handle pubkey := by
  obtain ⟨index, made, listed⟩ := sees
  have same := metadata_setSlots slot (manager.programIndexes.toList.map Prod.snd) manager.indexes handle
  rw [made, Option.map_some] at same
  obtain ⟨after, there, metadata⟩ := Option.map_eq_some_iff.mp same
  exact ⟨after, there, metadata ▸ listed⟩

variable [IdUnion S]

def new : HotColdIndexManager S := ⟨∅, 0, []⟩

def create (manager : HotColdIndexManager S) : Nat × HotColdIndexManager S :=
  (manager.indexes.length,
    { manager with indexes := manager.indexes ++ [TieredIndex.new.setCurrentSlot manager.currentSlot] })

def updateSlot (manager : HotColdIndexManager S) (slot : UInt64) : HotColdIndexManager S :=
  (manager.setSlot slot).spread slot

def getOrCreateIndex (manager : HotColdIndexManager S) (programId : Pubkey) : Nat × HotColdIndexManager S :=
  match manager.programIndexes[programId]? with
  | some handle => (handle, manager)
  | none => (manager.create.1, manager.create.2.register programId manager.create.1)

/-- An account inserted through a handle. -/
def insertAccount (manager : HotColdIndexManager S) (handle : Nat) (accountId : UInt32) (pubkey : Pubkey) :
    HotColdIndexManager S :=
  { manager with indexes := manager.indexes.modify handle (·.insertAccount accountId pubkey) }

def globalStats (manager : HotColdIndexManager S) : HotColdGlobalStats where
  totalPrograms := manager.programIndexes.size
  totalHot := (manager.registered.map (·.hotIndex.bitmap.estimatedTotal)).sum
  totalWarm := (manager.registered.map (·.warmIndex.bitmap.estimatedTotal)).sum
  totalCold := (manager.registered.map (·.coldIndex.bitmap.estimatedTotal)).sum
  totalAccounts := (manager.registered.map (·.metadata.size)).sum

/-- The statistics count each account that a registered index lists. -/
theorem totalAccounts_eq (manager : HotColdIndexManager S) : manager.globalStats.totalAccounts =
    (manager.registered.flatMap fun index => index.metadata.keys).length := by
  rw [List.length_flatMap]
  simp [globalStats]

theorem sees_create {manager : HotColdIndexManager S} {handle : Nat} {pubkey : Pubkey}
    (sees : manager.Sees handle pubkey) : manager.create.2.Sees handle pubkey := by
  obtain ⟨index, made, listed⟩ := sees
  refine ⟨index, ?_, listed⟩
  exact (List.getElem?_append_left (List.getElem?_eq_some_iff.mp made).1).trans made

theorem sees_insertAccount {manager : HotColdIndexManager S} {handle : Nat} {pubkey : Pubkey}
    (sees : manager.Sees handle pubkey) (other : Nat) (accountId : UInt32) (account : Pubkey) :
    (manager.insertAccount other accountId account).Sees handle pubkey := by
  obtain ⟨index, made, listed⟩ := sees
  refine ⟨_, (List.getElem?_modify ..).trans (congrArg _ made), ?_⟩
  split
  · exact Std.TreeMap.mem_insert.mpr (.inr listed)
  · exact listed

theorem sees_inserted {manager : HotColdIndexManager S} {handle : Nat} (made : handle < manager.indexes.length)
    (accountId : UInt32) (account : Pubkey) :
    (manager.insertAccount handle accountId account).Sees handle account := by
  refine ⟨_, (List.getElem?_modify ..).trans (congrArg _ (List.getElem?_eq_getElem made)), ?_⟩
  dsimp only
  rw [if_pos rfl]
  exact Std.TreeMap.mem_insert_self

end HotColdIndexManager

inductive ManagerCall where
  | getOrCreateIndex (programId : Pubkey)
  | updateSlot (slot : UInt64)
  | insertAccount (programId : Pubkey) (handle : Nat) (accountId : UInt32) (pubkey : Pubkey)

inductive ManagerPhase where
  | idle
  | looking (programId : Pubkey)
  | creating (programId : Pubkey)
  | registering (programId : Pubkey) (handle : Nat)
  | updating (slot : UInt64)
  | spreading (slot : UInt64)
  | inserting (programId : Pubkey) (handle : Nat) (accountId : UInt32) (pubkey : Pubkey)
  | returned
  deriving DecidableEq

namespace ManagerPhase

def resting : ManagerPhase → Bool
  | .idle | .returned => true
  | _ => false

def enter : ManagerCall → ManagerPhase
  | .getOrCreateIndex programId => .looking programId
  | .updateSlot slot => .updating slot
  | .insertAccount programId handle accountId pubkey => .inserting programId handle accountId pubkey

/-- Whether a thread is about to register a handle. -/
def holds (handle : Nat) : ManagerPhase → Nat
  | .registering _ own => if own = handle then 1 else 0
  | _ => 0

/-- The program a thread is about to register an index for. -/
def registers : ManagerPhase → Option Pubkey
  | .registering programId _ => some programId
  | _ => none

end ManagerPhase

/-- The fields answered and inserted record the handles returned for the programs, and
the accounts inserted through them. -/
structure ManagerRun (S : Type) where
  manager : HotColdIndexManager S
  answered : List (Pubkey × Nat)
  inserted : List (Pubkey × Pubkey)

namespace ManagerRun

variable {S : Type}

/-- A handle about to be registered is new and with one thread only. -/
structure Fresh (t : Pool (ManagerRun S) ManagerPhase) : Prop where
  answered : ∀ programId handle, t.shared.manager.programIndexes[programId]? = some handle →
    (programId, handle) ∈ t.shared.answered
  made : ∀ programId handle, (programId, handle) ∈ t.shared.answered →
    handle < t.shared.manager.indexes.length
  single : ∀ handle, total (ManagerPhase.holds handle) t.phases ≤ 1
  held : ∀ handle, 0 < total (ManagerPhase.holds handle) t.phases →
    handle < t.shared.manager.indexes.length ∧ ∀ programId, (programId, handle) ∉ t.shared.answered

/-- Steps that move no handle and answer nothing new. -/
theorem Fresh.same {t : Pool (ManagerRun S) ManagerPhase} (fresh : Fresh t) {i : Nat} {p q : ManagerPhase}
    (here : t.phases[i]? = some p) (neither : ∀ handle, p.holds handle = 0 ∧ q.holds handle = 0)
    {after : ManagerRun S} (registered : after.manager.programIndexes = t.shared.manager.programIndexes)
    (length : after.manager.indexes.length = t.shared.manager.indexes.length)
    (answers : ∀ pair, pair ∈ after.answered ↔ pair ∈ t.shared.answered) :
    Fresh ⟨after, t.phases.set i q⟩ := by
  have unmoved (handle : Nat) : total (ManagerPhase.holds handle) (t.phases.set i q) =
      total (ManagerPhase.holds handle) t.phases := by
    have set := total_set (f := ManagerPhase.holds handle) (q := q) here
    rw [(neither handle).1, (neither handle).2] at set
    exact set
  refine ⟨fun programId handle found => ?_, fun programId handle member => ?_, fun handle => ?_,
    fun handle held => ?_⟩
  · rw [registered] at found
    exact (answers _).mpr (fresh.answered programId handle found)
  · rw [length]
    exact fresh.made programId handle ((answers _).mp member)
  · rw [unmoved]
    exact fresh.single handle
  · rw [unmoved] at held
    obtain ⟨below, unknown⟩ := fresh.held handle held
    exact ⟨length ▸ below, fun programId member => unknown programId ((answers _).mp member)⟩

/-- A handle that is registered is answered and held by no thread any more. -/
theorem fresh_register {t : Pool (ManagerRun S) ManagerPhase} (fresh : Fresh t) {i : Nat} {programId : Pubkey}
    {handle : Nat} (here : t.phases[i]? = some (.registering programId handle)) :
    Fresh ⟨{ t.shared with
      manager := t.shared.manager.register programId handle
      answered := (programId, handle) :: t.shared.answered }, t.phases.set i .returned⟩ := by
  have moves (k : Nat) := total_set (f := ManagerPhase.holds k) (q := .returned) here
  have own := le_total (f := ManagerPhase.holds handle) (List.mem_of_getElem? here)
  have single := fresh.single handle
  have move := moves handle
  simp only [ManagerPhase.holds, if_true] at own move
  obtain ⟨below, unknown⟩ := fresh.held handle own
  refine ⟨fun other k found => ?_, fun other k member => ?_, fun k => ?_, fun k held => ?_⟩
  · have found : (t.shared.manager.programIndexes.insert programId handle)[other]? = some k := found
    rw [getElem?_insert_ite] at found
    split at found
    · rename_i same
      cases found
      exact same ▸ List.mem_cons_self
    · exact List.mem_cons_of_mem _ (fresh.answered other k found)
  · rcases List.mem_cons.mp member with new | old
    · cases new
      exact below
    · exact fresh.made other k old
  · have move := moves k
    have single := fresh.single k
    simp only [ManagerPhase.holds] at move
    dsimp only
    omega
  · have differ : k ≠ handle := by
      rintro rfl
      dsimp only at held
      omega
    have move := moves k
    simp only [ManagerPhase.holds, if_neg differ.symm] at move
    obtain ⟨below, unknown⟩ := fresh.held k (Nat.lt_of_lt_of_eq held move)
    refine ⟨below, fun other member => ?_⟩
    rcases List.mem_cons.mp member with new | old
    · cases new
      exact differ rfl
    · exact unknown other old

/-- All handles of a program are one, an account inserted through one of them is seen
through all, and in one of the indexes that the global statistics count. -/
structure OneIndex (s : ManagerRun S) : Prop where
  same : ∀ programId h k, (programId, h) ∈ s.answered → (programId, k) ∈ s.answered → h = k
  seen : ∀ programId pubkey h, (programId, pubkey) ∈ s.inserted → (programId, h) ∈ s.answered →
    s.manager.Sees h pubkey
  counted : ∀ programId pubkey, (programId, pubkey) ∈ s.inserted →
    ∃ index ∈ s.manager.registered, pubkey ∈ index.metadata

/-- No call registers an index for a program that has one by now. -/
def Unraced (t : Pool (ManagerRun S) ManagerPhase) (m : Move ManagerCall)
    (_ : Pool (ManagerRun S) ManagerPhase) : Prop :=
  ∀ i programId handle, m = .advance i → t.phases[i]? = some (.registering programId handle) →
    t.shared.manager.programIndexes[programId]? = none

theorem unraced_call (t u : Pool (ManagerRun S) ManagerPhase) (i : Nat) (c : ManagerCall) :
    Unraced t (.call i c) u :=
  fun _ _ _ same => nomatch same

theorem unraced_advance_iff (t u : Pool (ManagerRun S) ManagerPhase) (i : Nat) :
    Unraced t (.advance i) u ↔ ∀ p ∈ t.phases[i]?, ∀ programId ∈ p.registers,
      t.shared.manager.programIndexes[programId]? = none := by
  constructor
  · rintro unraced p here programId registers
    cases p <;> cases registers
    exact unraced i programId _ rfl here
  · rintro absent _ programId handle ⟨⟩ here
    exact absent _ here programId rfl

instance (t u : Pool (ManagerRun S) ManagerPhase) (m : Move ManagerCall) : Decidable (Unraced t m u) :=
  match m with
  | .call i c => isTrue (unraced_call t u i c)
  | .advance i => decidable_of_iff _ (unraced_advance_iff t u i).symm

/-- Every handle returned is the registered one. -/
structure Good (s : ManagerRun S) : Prop where
  registered : ∀ programId h, (programId, h) ∈ s.answered → s.manager.programIndexes[programId]? = some h
  seen : ∀ programId pubkey h, (programId, pubkey) ∈ s.inserted → (programId, h) ∈ s.answered →
    s.manager.Sees h pubkey
  through : ∀ programId pubkey, (programId, pubkey) ∈ s.inserted → ∃ h, (programId, h) ∈ s.answered

theorem oneIndex_of_good {s : ManagerRun S} (good : Good s) : OneIndex s where
  same programId h k first second :=
    Option.some.inj ((good.registered programId h first).symm.trans (good.registered programId k second))
  seen := good.seen
  counted programId pubkey member := by
    obtain ⟨h, answered⟩ := good.through programId pubkey member
    exact HotColdIndexManager.mem_registered (good.registered programId h answered)
      (good.seen programId pubkey h member answered)

theorem good_register {s : ManagerRun S} (good : Good s) {programId : Pubkey} {handle : Nat}
    (free : s.manager.programIndexes[programId]? = none) :
    Good { s with
      manager := s.manager.register programId handle
      answered := (programId, handle) :: s.answered } := by
  have unanswered (h : Nat) : (programId, h) ∉ s.answered := by
    intro member
    rw [good.registered programId h member] at free
    cases free
  refine ⟨fun other h member => ?_, fun other pubkey h listed member => ?_, fun other pubkey listed => ?_⟩
  · refine (getElem?_insert_ite _ _ _ _).trans ?_
    rcases List.mem_cons.mp member with new | old
    · cases new
      exact if_pos rfl
    · rw [if_neg]
      · exact good.registered other h old
      · rintro rfl
        exact unanswered h old
  · rcases List.mem_cons.mp member with new | old
    · cases new
      obtain ⟨k, answered⟩ := good.through programId pubkey listed
      exact absurd answered (unanswered k)
    · exact good.seen other pubkey h listed old
  · obtain ⟨h, answered⟩ := good.through other pubkey listed
    exact ⟨h, List.mem_cons_of_mem _ answered⟩

variable [IdUnion S]

def advance : ManagerPhase → ManagerRun S → Option (ManagerPhase × ManagerRun S × List ManagerPhase)
  | .looking programId, s => match s.manager.programIndexes[programId]? with
    | some handle => some (.returned, { s with answered := (programId, handle) :: s.answered }, [])
    | none => some (.creating programId, s, [])
  | .creating programId, s =>
    some (.registering programId s.manager.create.1, { s with manager := s.manager.create.2 }, [])
  | .registering programId handle, s =>
    some (.returned, { s with
      manager := s.manager.register programId handle
      answered := (programId, handle) :: s.answered }, [])
  | .updating slot, s => some (.spreading slot, { s with manager := s.manager.setSlot slot }, [])
  | .spreading slot, s => some (.returned, { s with manager := s.manager.spread slot }, [])
  | .inserting programId handle accountId pubkey, s =>
    if (programId, handle) ∈ s.answered then
      some (.returned, { s with
        manager := s.manager.insertAccount handle accountId pubkey
        inserted := (programId, pubkey) :: s.inserted }, [])
    else none
  | .idle, _ => none
  | .returned, _ => none

def program : Program (ManagerRun S) ManagerPhase ManagerCall where
  enter call _ := .enter call
  resting := ManagerPhase.resting
  advance := advance

def start (S : Type) [IdUnion S] (threads : Nat) : Pool (ManagerRun S) ManagerPhase where
  shared := ⟨.new, [], []⟩
  phases := List.replicate threads .idle

/-- A call that no other interrupts is the method. -/
theorem alone_call (s : ManagerRun S) (programId : Pubkey) (slot : UInt64) :
    (∃ steps, Run (ofPartial program.step) ⟨s, [.idle]⟩
      (.call 0 (.getOrCreateIndex programId) :: List.replicate steps (.advance 0))
      ⟨{ s with
        manager := (s.manager.getOrCreateIndex programId).2
        answered := (programId, (s.manager.getOrCreateIndex programId).1) :: s.answered }, [.returned]⟩) ∧
    Run (ofPartial program.step) ⟨s, [.idle]⟩ (.call 0 (.updateSlot slot) :: List.replicate 2 (.advance 0))
      ⟨{ s with manager := s.manager.updateSlot slot }, [.returned]⟩ := by
  refine ⟨?_, (run_ofPartial _ _ _ _).mpr rfl⟩
  unfold HotColdIndexManager.getOrCreateIndex
  cases found : s.manager.programIndexes[programId]? with
  | some handle =>
    have looked : advance (.looking programId) s = some (.returned,
        { s with answered := (programId, handle) :: s.answered }, []) := by
      unfold advance
      dsimp only
      rw [found]
    exact ⟨1, ⟨_, rfl, ⟨_, Program.step_advance.mpr ⟨_, _, _, _, rfl, looked, rfl⟩, rfl⟩⟩⟩
  | none =>
    have looked : advance (.looking programId) s = some (.creating programId, s, []) := by
      unfold advance
      dsimp only
      rw [found]
    exact ⟨3, ⟨_, rfl, ⟨_, Program.step_advance.mpr ⟨_, _, _, _, rfl, looked, rfl⟩, ⟨_, rfl, ⟨_, rfl, rfl⟩⟩⟩⟩⟩

/-- What a step of a thread can be. -/
inductive Advanced (s : ManagerRun S) : ManagerPhase → ManagerPhase → ManagerRun S → Prop
  | found {programId handle} (found : s.manager.programIndexes[programId]? = some handle) :
    Advanced s (.looking programId) .returned { s with answered := (programId, handle) :: s.answered }
  | missed {programId} : Advanced s (.looking programId) (.creating programId) s
  | create {programId} : Advanced s (.creating programId) (.registering programId s.manager.create.1)
      { s with manager := s.manager.create.2 }
  | register {programId handle} : Advanced s (.registering programId handle) .returned
      { s with
        manager := s.manager.register programId handle
        answered := (programId, handle) :: s.answered }
  | setSlot {slot} : Advanced s (.updating slot) (.spreading slot) { s with manager := s.manager.setSlot slot }
  | spread {slot} : Advanced s (.spreading slot) .returned { s with manager := s.manager.spread slot }
  | insert {programId handle accountId pubkey} (mine : (programId, handle) ∈ s.answered) :
    Advanced s (.inserting programId handle accountId pubkey) .returned
      { s with
        manager := s.manager.insertAccount handle accountId pubkey
        inserted := (programId, pubkey) :: s.inserted }

theorem advanced_of_step {p q : ManagerPhase} {s after : ManagerRun S} {started : List ManagerPhase}
    (moved : advance p s = some (q, after, started)) : started = [] ∧ Advanced s p q after := by
  cases p with
  | looking programId =>
    unfold advance at moved
    dsimp only at moved
    cases there : s.manager.programIndexes[programId]? with
    | some handle =>
      rw [there] at moved
      cases moved
      exact ⟨rfl, .found there⟩
    | none =>
      rw [there] at moved
      cases moved
      exact ⟨rfl, .missed⟩
  | creating programId =>
    cases moved
    exact ⟨rfl, .create⟩
  | registering programId handle =>
    cases moved
    exact ⟨rfl, .register⟩
  | updating slot =>
    cases moved
    exact ⟨rfl, .setSlot⟩
  | spreading slot =>
    cases moved
    exact ⟨rfl, .spread⟩
  | inserting programId handle accountId pubkey =>
    unfold advance at moved
    dsimp only at moved
    split at moved
    · rename_i mine
      cases moved
      exact ⟨rfl, .insert mine⟩
    · cases moved
  | idle => cases moved
  | returned => cases moved

theorem step_cases {t u : Pool (ManagerRun S) ManagerPhase} {m : Move ManagerCall}
    (moved : program.step t m = some u) :
    (∃ i c p, m = .call i c ∧ t.phases[i]? = some p ∧ p.resting = true ∧
      u = ⟨t.shared, t.phases.set i (.enter c)⟩) ∨
    ∃ i p q after, m = .advance i ∧ t.phases[i]? = some p ∧ Advanced t.shared p q after ∧
      u = ⟨after, t.phases.set i q⟩ :=
  Program.step_lone_cases advanced_of_step moved

theorem fresh_start (threads : Nat) : Fresh (start S threads) := by
  have none (handle : Nat) : total (ManagerPhase.holds handle) (start S threads).phases = 0 := by
    simp [start, total, ManagerPhase.holds]
  refine ⟨fun _ _ found => ?_, fun _ _ member => absurd member List.not_mem_nil, fun handle => ?_,
    fun handle held => ?_⟩
  · simp [start, HotColdIndexManager.new] at found
  · rw [none]
    exact Nat.zero_le 1
  · rw [none] at held
    exact absurd held (Nat.lt_irrefl 0)

/-- The thread that made an index holds its handle, which nobody knew before. -/
theorem fresh_create {t : Pool (ManagerRun S) ManagerPhase} (fresh : Fresh t) {i : Nat} {programId : Pubkey}
    (here : t.phases[i]? = some (.creating programId)) :
    Fresh ⟨{ t.shared with manager := t.shared.manager.create.2 },
      t.phases.set i (.registering programId t.shared.manager.create.1)⟩ := by
  have length : t.shared.manager.create.2.indexes.length = t.shared.manager.indexes.length + 1 :=
    List.length_append
  have next : t.shared.manager.create.1 = t.shared.manager.indexes.length := rfl
  have moves (handle : Nat) := total_set (f := ManagerPhase.holds handle)
    (q := .registering programId t.shared.manager.create.1) here
  refine ⟨fresh.answered, fun other handle member => ?_, fun handle => ?_, fun handle held => ?_⟩
  · rw [length]
    exact Nat.lt_succ_of_lt (fresh.made other handle member)
  · have move := moves handle
    have single := fresh.single handle
    have below : 0 < total (ManagerPhase.holds handle) t.phases → handle < t.shared.manager.indexes.length :=
      fun held => (fresh.held handle held).1
    simp only [ManagerPhase.holds] at move
    dsimp only
    by_cases new : t.shared.manager.create.1 = handle
    · rw [if_pos new] at move
      omega
    · rw [if_neg new] at move
      omega
  · have move := moves handle
    simp only [ManagerPhase.holds] at move
    rw [length]
    by_cases new : t.shared.manager.create.1 = handle
    · refine ⟨new ▸ Nat.lt_succ_self _, fun other member => ?_⟩
      exact absurd (fresh.made other handle member) (new ▸ Nat.lt_irrefl _)
    · rw [if_neg new] at move
      obtain ⟨below, unknown⟩ := fresh.held handle (Nat.lt_of_lt_of_eq held move)
      exact ⟨Nat.lt_succ_of_lt below, unknown⟩

theorem fresh_step {t u : Pool (ManagerRun S) ManagerPhase} {m : Move ManagerCall} (fresh : Fresh t)
    (moved : program.step t m = some u) : Fresh u := by
  rcases step_cases moved with ⟨i, c, p, -, here, rests, rfl⟩ | ⟨i, p, q, after, -, here, advanced, rfl⟩
  · refine fresh.same here (fun handle => ?_) rfl rfl fun _ => Iff.rfl
    constructor
    · cases p <;> first | rfl | cases rests
    · cases c <;> rfl
  · cases advanced with
    | @found programId handle found =>
      refine fresh.same here (fun _ => ⟨rfl, rfl⟩) rfl rfl fun pair => ?_
      refine ⟨fun member => ?_, List.mem_cons_of_mem _⟩
      rcases List.mem_cons.mp member with rfl | old
      · exact fresh.answered programId handle found
      · exact old
    | missed => exact fresh.same here (fun _ => ⟨rfl, rfl⟩) rfl rfl fun _ => Iff.rfl
    | create => exact fresh_create fresh here
    | register => exact fresh_register fresh here
    | setSlot => exact fresh.same here (fun _ => ⟨rfl, rfl⟩) rfl rfl fun _ => Iff.rfl
    | spread =>
      exact fresh.same here (fun _ => ⟨rfl, rfl⟩) rfl (HotColdIndexManager.length_setSlots ..) fun _ => Iff.rfl
    | insert mine => exact fresh.same here (fun _ => ⟨rfl, rfl⟩) rfl (List.length_modify ..) fun _ => Iff.rfl

theorem good_insert {t : Pool (ManagerRun S) ManagerPhase} (fresh : Fresh t) (good : Good t.shared)
    {programId : Pubkey} {handle : Nat} (mine : (programId, handle) ∈ t.shared.answered)
    (accountId : UInt32) (pubkey : Pubkey) :
    Good { t.shared with
      manager := t.shared.manager.insertAccount handle accountId pubkey
      inserted := (programId, pubkey) :: t.shared.inserted } := by
  refine ⟨good.registered, fun other account h listed member => ?_, fun other account listed => ?_⟩
  · rcases List.mem_cons.mp listed with new | old
    · cases new
      obtain rfl := (oneIndex_of_good good).same programId h handle member mine
      exact HotColdIndexManager.sees_inserted (fresh.made programId h mine) accountId pubkey
    · exact HotColdIndexManager.sees_insertAccount (good.seen other account h old member) handle accountId pubkey
  · rcases List.mem_cons.mp listed with new | old
    · cases new
      exact ⟨handle, mine⟩
    · exact good.through other account old

theorem good_step {t u : Pool (ManagerRun S) ManagerPhase} {m : Move ManagerCall} (fresh : Fresh t)
    (good : Good t.shared) (moved : program.step t m = some u) (meets : Unraced t m u) : Good u.shared := by
  rcases step_cases moved with ⟨i, c, p, -, here, rests, rfl⟩ | ⟨i, p, q, after, rfl, here, advanced, rfl⟩
  · exact good
  · cases advanced with
    | @found programId handle found =>
      have known := fresh.answered programId handle found
      have old {pair : Pubkey × Nat} (member : pair ∈ (programId, handle) :: t.shared.answered) :
          pair ∈ t.shared.answered := by
        rcases List.mem_cons.mp member with rfl | old
        · exact known
        · exact old
      exact ⟨fun other h member => good.registered other h (old member),
        fun other pubkey h listed member => good.seen other pubkey h listed (old member),
        fun other pubkey listed => (good.through other pubkey listed).imp fun _ => List.mem_cons_of_mem _⟩
    | missed => exact good
    | create =>
      exact ⟨good.registered, fun other pubkey h listed member =>
        HotColdIndexManager.sees_create (good.seen other pubkey h listed member), good.through⟩
    | @register programId handle => exact good_register good (meets i programId handle rfl here)
    | setSlot => exact ⟨good.registered, good.seen, good.through⟩
    | spread =>
      exact ⟨good.registered, fun other pubkey h listed member =>
        HotColdIndexManager.sees_spread (good.seen other pubkey h listed member) _, good.through⟩
    | insert mine => exact good_insert fresh good mine _ _

/-- Two calls for one program have returned different indexes. -/
def Split (s : ManagerRun S) : Prop :=
  ∃ programId h k, (programId, h) ∈ s.answered ∧ (programId, k) ∈ s.answered ∧ h ≠ k

theorem answered_step {t u : Pool (ManagerRun S) ManagerPhase} {m : Move ManagerCall}
    (moved : program.step t m = some u) : t.shared.answered ⊆ u.shared.answered := by
  rcases step_cases moved with ⟨i, c, p, -, here, rests, rfl⟩ | ⟨i, p, q, after, -, here, advanced, rfl⟩
  · exact List.Subset.refl _
  · cases advanced <;> first | exact List.Subset.refl _ | exact List.subset_cons_self ..

theorem split_of_raced {t u : Pool (ManagerRun S) ManagerPhase} {m : Move ManagerCall} (fresh : Fresh t)
    (moved : program.step t m = some u) (raced : ¬ Unraced t m u) : Split u.shared := by
  unfold Unraced at raced
  push Not at raced
  obtain ⟨i, programId, handle, rfl, here, taken⟩ := raced
  obtain ⟨k, registered⟩ := Option.ne_none_iff_exists'.mp taken
  have own := le_total (f := ManagerPhase.holds handle) (List.mem_of_getElem? here)
  have held : 0 < total (ManagerPhase.holds handle) t.phases := by
    simp only [ManagerPhase.holds, if_true] at own
    exact own
  have known := fresh.answered programId k registered
  have step : program.step t (.advance i) = some ⟨{ t.shared with
      manager := t.shared.manager.register programId handle
      answered := (programId, handle) :: t.shared.answered }, t.phases.set i .returned ++ []⟩ :=
    Program.step_advance.mpr ⟨_, _, _, _, here, rfl, rfl⟩
  rw [step] at moved
  cases moved
  refine ⟨programId, handle, k, List.mem_cons_self, List.mem_cons_of_mem _ known, ?_⟩
  rintro rfl
  exact (fresh.held handle held).2 programId known

/-- The calls for a program share one index exactly when none of them registers a
second one. -/
theorem oneIndex_iff_unraced {threads : Nat} {moves : List (Move ManagerCall)}
    {t : Pool (ManagerRun S) ManagerPhase} (ran : Run (ofPartial program.step) (start S threads) moves t) :
    OneIndex t.shared ↔ Along (ofPartial program.step) Unraced (start S threads) moves := by
  have initial : Good (start S threads).shared :=
    ⟨fun _ _ member => (nomatch member), fun _ _ _ member => (nomatch member), fun _ _ member => (nomatch member)⟩
  have reached := along_or_broken (fun t => Fresh t ∧ Good t.shared) (fun t => Split t.shared) Unraced
    (fun _ _ _ before moved meets => ⟨fresh_step before.1 moved, good_step before.1 before.2 moved meets⟩)
    (fun _ _ _ before moved raced => split_of_raced before.1 moved raced)
    (fun _ _ _ ⟨programId, h, k, first, second, differ⟩ moved =>
      ⟨programId, h, k, answered_step moved first, answered_step moved second, differ⟩)
    ⟨fresh_start threads, initial⟩ ran
  rcases reached with ⟨along, -, good⟩ | ⟨raced, programId, h, k, first, second, differ⟩
  · exact ⟨fun _ => along, fun _ => oneIndex_of_good good⟩
  · exact ⟨fun one => absurd (one.same programId h k first second) differ, fun along => absurd along raced⟩

/-- The second thread finds the index of the first: an account inserted through either
handle is in it. -/
theorem oneIndex_in_turn :
    let programId : Pubkey := Vector.replicate 32 0
    let account (b : UInt8) : Pubkey := Vector.replicate 32 b
    let moves : List (Move ManagerCall) :=
      [.call 0 (.getOrCreateIndex programId), .advance 0, .call 1 (.updateSlot 5), .advance 0, .advance 1,
        .advance 0, .advance 1, .call 1 (.getOrCreateIndex programId), .advance 1,
        .call 0 (.insertAccount programId 0 7 (account 8)), .call 1 (.insertAccount programId 0 9 (account 9)),
        .advance 1, .advance 0]
    ∃ t, Run (ofPartial program.step) (start SortedIds 2) moves t ∧
      t.shared.answered = [(programId, 0), (programId, 0)] ∧
      t.shared.inserted = [(programId, account 8), (programId, account 9)] ∧ OneIndex t.shared := by
  intro programId account moves
  have outcome : (moves.foldlM program.step (start SortedIds 2)).map
      (fun t => (t.shared.answered, t.shared.inserted)) = some ([(programId, 0), (programId, 0)],
        [(programId, account 8), (programId, account 9)]) := by decide +kernel
  obtain ⟨t, folded, final⟩ := Option.map_eq_some_iff.mp outcome
  obtain ⟨answered, inserted⟩ := Prod.mk.inj final
  have ran := (run_ofPartial _ _ _ _).mpr folded
  exact ⟨t, ran, answered, inserted, (oneIndex_iff_unraced ran).mpr (by decide +kernel)⟩

/-- Both threads look before either registers: an account inserted through the first
handle is not in the index of the second, which is the one that is counted. -/
theorem two_indexes : ∃ t, Run (ofPartial program.step) (start SortedIds 2)
    [.call 0 (.getOrCreateIndex (Vector.replicate 32 0)), .call 1 (.getOrCreateIndex (Vector.replicate 32 0)),
      .advance 0, .advance 1, .advance 0, .advance 1, .advance 0, .advance 1,
      .call 0 (.insertAccount (Vector.replicate 32 0) 0 7 (Vector.replicate 32 9)), .advance 0] t ∧
    t.shared.answered = [(Vector.replicate 32 0, 1), (Vector.replicate 32 0, 0)] ∧
    ¬ t.shared.manager.Sees 1 (Vector.replicate 32 9) ∧ ¬ OneIndex t.shared := by
  refine ⟨_, (run_ofPartial _ _ _ _).mpr rfl, rfl, ?_, fun one => ?_⟩
  · rintro ⟨index, made, listed⟩
    cases made
    exact Std.TreeMap.not_mem_emptyc listed
  · exact absurd (one.same (Vector.replicate 32 0) 1 0 (by decide) (by decide)) (by decide)

end ManagerRun

end Hyperplane
