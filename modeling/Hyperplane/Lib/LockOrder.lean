import Mathlib.Data.Finset.Max
import Mathlib.Logic.Function.Basic
import Hyperplane.Lib.RwLock

/-! Calls that do nothing but lock and unlock. Where the locks have ranks and every
call takes a lock only above those it holds, threads never get stuck, whatever they
call and however they interleave. -/
namespace Threads
open Transition

inductive LockMode where
  | read
  | write
  deriving DecidableEq

inductive LockOp (L : Type) where
  | acquire (lock : L) (mode : LockMode)
  | release (lock : L) (mode : LockMode)

/-- What a call does to the locks, in order. -/
abbrev Script (L : Type) := List (LockOp L)

/-- The guard of a lock lives for the body. -/
def locked {L : Type} (lock : L) (mode : LockMode) (body : Script L) : Script L :=
  .acquire lock mode :: (body ++ [.release lock mode])

/-- The guards a thread holds, whether it has queued for the lock it writes next,
and what is left of its call. -/
structure Holder (L : Type) where
  held : List (L × LockMode) := []
  queued : Bool := false
  rest : Script L := []

namespace Holder

variable {L : Type}

def resting (p : Holder L) : Bool := p.rest.isEmpty

/-- The lock that the thread takes next. -/
def wants (p : Holder L) : Option (L × LockMode) :=
  match p.rest with
  | .acquire lock mode :: _ => some (lock, mode)
  | _ => none

variable [DecidableEq L]

def guards (lock : L) : Guards (Holder L) where
  reads p := p.held.count (lock, .read)
  waits p := if p.queued = true ∧ p.wants = some (lock, .write) then 1 else 0
  writes p := p.held.count (lock, .write)

/-- How many steps the call has left. -/
def work (p : Holder L) : Nat := 2 * p.rest.length - if p.queued then 1 else 0

def advance (p : Holder L) (locks : L → RwLock) : Option (Holder L × (L → RwLock) × List (Holder L)) :=
  match p.rest with
  | [] => none
  | .acquire lock .read :: rest => (locks lock).read.map fun taken =>
      (⟨(lock, .read) :: p.held, false, rest⟩, Function.update locks lock taken, [])
  | .acquire lock .write :: rest =>
    if p.queued then (locks lock).write.map fun taken =>
      (⟨(lock, .write) :: p.held, false, rest⟩, Function.update locks lock taken, [])
    else some ({ p with queued := true }, Function.update locks lock (locks lock).queue, [])
  | .release lock .read :: rest => some (⟨p.held.erase (lock, .read), false, rest⟩,
      Function.update locks lock (locks lock).endRead, [])
  | .release lock .write :: rest => some (⟨p.held.erase (lock, .write), false, rest⟩,
      Function.update locks lock (locks lock).endWrite, [])

end Holder

/-- The threads of calls that follow scripts. -/
def scripted {L C : Type} [DecidableEq L] (script : C → Script L) : Program (L → RwLock) (Holder L) C where
  enter c _ := { rest := script c }
  resting := Holder.resting
  advance := Holder.advance

/-- All locks are free and no thread is in a call. -/
def unlocked (L : Type) (threads : Nat) : Pool (L → RwLock) (Holder L) where
  shared _ := {}
  phases := List.replicate threads {}

section order

variable {L : Type} [DecidableEq L] (rank : L → Nat)

/-- From these guards on the script takes locks of higher ranks than it holds,
gives back what it holds and ends with nothing. -/
def Follows : List (L × LockMode) → Script L → Prop
  | held, [] => held = []
  | held, .acquire lock mode :: rest =>
    (∀ guard ∈ held, rank guard.1 < rank lock) ∧ Follows ((lock, mode) :: held) rest
  | held, .release lock mode :: rest => (lock, mode) ∈ held ∧ Follows (held.erase (lock, mode)) rest

/-- The script can stand anywhere while only locks of ranks below the bound are held. -/
def Nested (bound : Nat) (body : Script L) : Prop := ∀ (held : List (L × LockMode)) (rest : Script L),
  (∀ guard ∈ held, rank guard.1 < bound) → Follows rank held rest → Follows rank held (body ++ rest)

variable {rank} {bound : Nat}

theorem nested_nil : Nested rank bound [] := fun _ _ _ rest => rest

theorem Nested.append {first second : Script L} (h : Nested rank bound first)
    (k : Nested rank bound second) : Nested rank bound (first ++ second) := by
  intro held rest below follows
  rw [List.append_assoc]
  exact h held _ below (k held rest below follows)

theorem Nested.mono {body : Script L} {low : Nat} (h : Nested rank bound body) (le : low ≤ bound) :
    Nested rank low body :=
  fun held rest below follows => h held rest (fun guard member => Nat.lt_of_lt_of_le (below guard member) le) follows

theorem nested_locked {lock : L} {mode : LockMode} {body : Script L} (above : bound ≤ rank lock)
    (inner : Nested rank (rank lock + 1) body) : Nested rank bound (locked lock mode body) := by
  intro held rest below follows
  have higher : ∀ guard ∈ held, rank guard.1 < rank lock :=
    fun guard member => Nat.lt_of_lt_of_le (below guard member) above
  rw [locked, List.cons_append, List.append_assoc]
  refine ⟨higher, inner _ _ ?_ ⟨List.mem_cons_self, ?_⟩⟩
  · intro guard member
    rcases List.mem_cons.mp member with rfl | old
    · exact Nat.lt_succ_self _
    · exact Nat.lt_succ_of_lt (higher guard old)
  · rwa [List.erase_cons_head]

theorem nested_flatMap {A : Type} {f : A → Script L} {as : List A} (each : ∀ a ∈ as, Nested rank bound (f a)) :
    Nested rank bound (as.flatMap f) := by
  induction as with
  | nil => exact nested_nil
  | cons a rest ih =>
    rw [List.flatMap_cons]
    exact (each a List.mem_cons_self).append (ih fun b member => each b (List.mem_cons_of_mem a member))

/-- The locks of a component may stand anywhere in the order, from a base on. -/
theorem nested_own {K : Type} {own : K → L} {level : K → Nat} {base n : Nat} {k : K} {mode : LockMode}
    {body : Script L} (placed : ∀ k, rank (own k) = base + level k)
    (inner : Nested rank (base + (level k + 1)) body) (deep : n ≤ level k := by decide) :
    Nested rank (base + n) (locked (own k) mode body) := by
  refine nested_locked ?_ ?_
  · rw [placed]
    exact Nat.add_le_add_left deep base
  · rw [placed]
    exact inner

/-- A whole call. -/
theorem Nested.follows {body : Script L} (h : Nested rank bound body) : Follows rank [] body := by
  have whole := h [] [] (fun _ none => absurd none List.not_mem_nil) rfl
  rwa [List.append_nil] at whole

variable (rank) in
/-- A thread follows its script, and queues only for what it writes next. -/
structure Holder.Ordered (p : Holder L) : Prop where
  follows : Follows rank p.held p.rest
  queued : p.queued = true → ∃ lock, p.wants = some (lock, .write)

/-- The steps of a thread, each at one lock. -/
inductive Advanced (locks : L → RwLock) (p : Holder L) : Holder L → L → RwLock → Prop where
  | read {lock rest taken} : p.rest = .acquire lock .read :: rest → (locks lock).read = some taken →
      Advanced locks p ⟨(lock, .read) :: p.held, false, rest⟩ lock taken
  | queue {lock rest} : p.rest = .acquire lock .write :: rest → p.queued = false →
      Advanced locks p { p with queued := true } lock (locks lock).queue
  | write {lock rest taken} : p.rest = .acquire lock .write :: rest → p.queued = true →
      (locks lock).write = some taken → Advanced locks p ⟨(lock, .write) :: p.held, false, rest⟩ lock taken
  | endRead {lock rest} : p.rest = .release lock .read :: rest →
      Advanced locks p ⟨p.held.erase (lock, .read), false, rest⟩ lock (locks lock).endRead
  | endWrite {lock rest} : p.rest = .release lock .write :: rest →
      Advanced locks p ⟨p.held.erase (lock, .write), false, rest⟩ lock (locks lock).endWrite

theorem advance_cases {p q : Holder L} {locks after : L → RwLock} {started : List (Holder L)}
    (moved : p.advance locks = some (q, after, started)) : started = [] ∧
      ∃ lock taken, after = Function.update locks lock taken ∧ Advanced locks p q lock taken := by
  unfold Holder.advance at moved
  split at moved
  · cases moved
  · rename_i lock rest next
    obtain ⟨taken, free, same⟩ := Option.map_eq_some_iff.mp moved
    cases same
    exact ⟨rfl, lock, taken, rfl, .read next free⟩
  · rename_i lock rest next
    split at moved
    · rename_i queued
      obtain ⟨taken, free, same⟩ := Option.map_eq_some_iff.mp moved
      cases same
      exact ⟨rfl, lock, taken, rfl, .write next queued free⟩
    · rename_i unqueued
      cases moved
      exact ⟨rfl, lock, _, rfl, .queue next (Bool.eq_false_iff.mpr unqueued)⟩
  · rename_i lock rest next
    cases moved
    exact ⟨rfl, lock, _, rfl, .endRead next⟩
  · rename_i lock rest next
    cases moved
    exact ⟨rfl, lock, _, rfl, .endWrite next⟩

theorem Advanced.ordered {locks : L → RwLock} {p q : Holder L} {lock : L} {taken : RwLock}
    (step : Advanced locks p q lock taken) (h : p.Ordered rank) : q.Ordered rank := by
  have follows := h.follows
  cases step with
  | read next free =>
    rw [next] at follows
    exact ⟨follows.2, nofun⟩
  | queue next unqueued => exact ⟨h.follows, fun _ => ⟨lock, by simp only [Holder.wants, next]⟩⟩
  | write next queued free =>
    rw [next] at follows
    exact ⟨follows.2, nofun⟩
  | endRead next =>
    rw [next] at follows
    exact ⟨follows.2, nofun⟩
  | endWrite next =>
    rw [next] at follows
    exact ⟨follows.2, nofun⟩

/-- A thread that does not take a lock has not queued. -/
theorem Holder.Ordered.unqueued {p : Holder L} (h : p.Ordered rank) (none : p.wants = none) :
    p.queued = false := by
  refine Bool.eq_false_iff.mpr fun queued => ?_
  obtain ⟨lock, wants⟩ := h.queued queued
  cases none.symm.trans wants

theorem guards_unqueued {p : Holder L} (unqueued : p.queued = false) (lock : L) :
    (Holder.guards lock).waits p = 0 := by
  simp [Holder.guards, unqueued]

/-- What the step does to the count of its own lock. -/
theorem Advanced.own {locks : L → RwLock} {p q : Holder L} {lock : L} {taken : RwLock}
    (step : Advanced locks p q lock taken) (h : p.Ordered rank) {phases : List (Holder L)} {i : Nat}
    (here : phases[i]? = some p) (counted : Counted (Holder.guards lock) (locks lock) phases) :
    Counted (Holder.guards lock) taken (phases.set i q) := by
  have follows := h.follows
  have among := List.mem_of_getElem? here
  have readers := counted.readers ▸ le_total (f := (Holder.guards lock).reads) among
  have writers := counted.writers ▸ le_total (f := (Holder.guards lock).writes) among
  cases step with
  | read next free =>
    obtain ⟨_, _, rfl⟩ := RwLock.read_eq_some.mp free
    refine counted.move here ?_ ?_ ?_
    · simp [Holder.guards]
      omega
    · simp [Holder.guards, Holder.wants, next]
    · simp [Holder.guards]
  | queue next unqueued =>
    refine counted.move here rfl ?_ rfl
    simp [RwLock.queue, Holder.guards, Holder.wants, next, unqueued]
  | write next queued free =>
    obtain ⟨_, none, rfl⟩ := RwLock.write_eq_some.mp free
    have waiting := counted.waiting ▸ le_total (f := (Holder.guards lock).waits) among
    simp only [Holder.guards, Holder.wants, next, queued, and_self, if_true] at waiting
    refine counted.move here ?_ ?_ ?_
    · simp [Holder.guards]
    · simp only [Holder.guards, Holder.wants, next, queued]
      simp
      omega
    · simp [Holder.guards, none]
      omega
  | endRead next =>
    rw [next] at follows
    have positive := List.count_pos_iff.mpr follows.1
    have unqueued := h.unqueued (by simp only [Holder.wants, next])
    refine counted.move here ?_ ?_ ?_
    · simp only [RwLock.endRead, Holder.guards, List.count_erase_self] at *
      omega
    · rw [guards_unqueued unqueued, guards_unqueued rfl]
      rfl
    · simp [RwLock.endRead, Holder.guards, List.count_erase_of_ne]
  | endWrite next =>
    rw [next] at follows
    have positive := List.count_pos_iff.mpr follows.1
    have unqueued := h.unqueued (by simp only [Holder.wants, next])
    refine counted.move here ?_ ?_ ?_
    · simp [RwLock.endWrite, Holder.guards, List.count_erase_of_ne]
    · rw [guards_unqueued unqueued, guards_unqueued rfl]
      rfl
    · simp only [RwLock.endWrite, Holder.guards, List.count_erase_self] at *
      omega

/-- The guards of another lock stay as they are. -/
theorem Advanced.other {locks : L → RwLock} {p q : Holder L} {lock other : L} {taken : RwLock}
    (step : Advanced locks p q lock taken) (h : p.Ordered rank) (differ : other ≠ lock) :
    (Holder.guards other).reads q = (Holder.guards other).reads p ∧
      (Holder.guards other).waits q = (Holder.guards other).waits p ∧
        (Holder.guards other).writes q = (Holder.guards other).writes p := by
  have apart (mode mode' : LockMode) : (lock, mode) ≠ (other, mode') := by
    rintro ⟨⟩
    exact differ rfl
  cases step with
  | read next free => simp [Holder.guards, Holder.wants, next, List.count_cons_of_ne, apart]
  | queue next unqueued => simp [Holder.guards, Holder.wants, next, differ.symm]
  | write next queued free =>
    simp [Holder.guards, Holder.wants, next, List.count_cons_of_ne, apart]
  | endRead next =>
    have unqueued := h.unqueued (by simp only [Holder.wants, next])
    simp [Holder.guards, unqueued, List.count_erase_of_ne (apart _ _).symm]
  | endWrite next =>
    have unqueued := h.unqueued (by simp only [Holder.wants, next])
    simp [Holder.guards, unqueued, List.count_erase_of_ne (apart _ _).symm]

theorem Advanced.counted {locks : L → RwLock} {p q : Holder L} {lock : L} {taken : RwLock}
    (step : Advanced locks p q lock taken) (h : p.Ordered rank) {phases : List (Holder L)} {i : Nat}
    (here : phases[i]? = some p) (counted : ∀ other, Counted (Holder.guards other) (locks other) phases)
    (other : L) : Counted (Holder.guards other) (Function.update locks lock taken other) (phases.set i q) := by
  by_cases own : other = lock
  · subst own
    rw [Function.update_self]
    exact step.own h here (counted other)
  · obtain ⟨reads, waits, writes⟩ := step.other h own
    rw [Function.update_of_ne own]
    exact (counted other).move here (by rw [reads]) (by rw [waits]) (by rw [writes])

variable (rank) in
/-- Every lock counts the guards of the threads, and every thread keeps the order. -/
structure Orderly (t : Pool (L → RwLock) (Holder L)) : Prop where
  counted : ∀ lock, Counted (Holder.guards lock) (t.shared lock) t.phases
  threads : ∀ p ∈ t.phases, p.Ordered rank

theorem ordered_idle : ({} : Holder L).Ordered rank := ⟨rfl, nofun⟩

variable (rank) in
theorem orderly_unlocked (threads : Nat) : Orderly rank (unlocked L threads) where
  counted lock := by
    have none (f : Holder L → Nat) (idle : f {} = 0) : total f (List.replicate threads {}) = 0 := by
      simp [total, idle]
    exact ⟨(none _ rfl).symm, (none _ rfl).symm, (none _ rfl).symm⟩
  threads p member := by
    rw [List.eq_of_mem_replicate member]
    exact ordered_idle

/-- A thread at rest holds nothing. -/
theorem Holder.Ordered.rests {p : Holder L} (h : p.Ordered rank) (rests : p.resting = true) :
    p.held = [] ∧ p.queued = false ∧ p.wants = none := by
  have none : p.rest = [] := List.isEmpty_iff.mp rests
  have wants : p.wants = .none := by simp only [Holder.wants, none]
  have follows := h.follows
  rw [none] at follows
  exact ⟨follows, h.unqueued wants, wants⟩

variable {C : Type} {script : C → Script L}

theorem Orderly.step {t u : Pool (L → RwLock) (Holder L)} {m : Move C} (h : Orderly rank t)
    (scripts : ∀ i c, m = .call i c → Follows rank [] (script c))
    (moved : (scripted script).step t m = some u) : Orderly rank u := by
  cases m with
  | call i c =>
    obtain ⟨p, here, rests, rfl⟩ := Program.step_call.mp moved
    have ordered := h.threads p (List.mem_of_getElem? here)
    obtain ⟨held, unqueued, _⟩ := ordered.rests rests
    refine ⟨fun lock => ?_, forall_set h.threads ⟨scripts i c rfl, nofun⟩⟩
    refine (h.counted lock).move here ?_ ?_ ?_
    · simp [Holder.guards, scripted, held]
    · simp [Holder.guards, scripted, unqueued]
    · simp [Holder.guards, scripted, held]
  | advance i =>
    obtain ⟨p, q, after, started, here, advanced, rfl⟩ := Program.step_advance.mp moved
    obtain ⟨rfl, lock, taken, rfl, step⟩ := advance_cases advanced
    have ordered := h.threads p (List.mem_of_getElem? here)
    rw [List.append_nil]
    exact ⟨step.counted ordered here h.counted, forall_set h.threads (step.ordered ordered)⟩

/-- A thread that cannot go on waits for a lock that another thread holds, or for a
writer that waits for it. -/
theorem Orderly.refused {t : Pool (L → RwLock) (Holder L)} (h : Orderly rank t) {p : Holder L}
    (stuck : p.advance t.shared = none) (busy : p.resting = false) :
    ∃ lock mode, p.wants = some (lock, mode) ∧
      ((∃ q ∈ t.phases, ∃ mode', (lock, mode') ∈ q.held) ∨
        mode = .read ∧ ∃ q ∈ t.phases, q.wants = some (lock, .write)) := by
  have reading (lock : L) (positive : 0 < (t.shared lock).readers) :
      ∃ q ∈ t.phases, ∃ mode', (lock, mode') ∈ q.held := by
    rw [(h.counted lock).readers] at positive
    obtain ⟨q, among, holds⟩ := exists_of_total_pos positive
    exact ⟨q, among, .read, List.count_pos_iff.mp holds⟩
  have writing (lock : L) (positive : 0 < (t.shared lock).writers) :
      ∃ q ∈ t.phases, ∃ mode', (lock, mode') ∈ q.held := by
    rw [(h.counted lock).writers] at positive
    obtain ⟨q, among, holds⟩ := exists_of_total_pos positive
    exact ⟨q, among, .write, List.count_pos_iff.mp holds⟩
  unfold Holder.advance at stuck
  split at stuck
  · rename_i none
    simp [Holder.resting, none] at busy
  · rename_i lock rest next
    refine ⟨lock, .read, by simp only [Holder.wants, next], ?_⟩
    have refused := Option.map_eq_none_iff.mp stuck
    unfold RwLock.read at refused
    split at refused
    · cases refused
    · rename_i taken
      by_cases free : (t.shared lock).writers = 0
      · have waits : 0 < (t.shared lock).waiting := by
          by_contra none
          exact taken ⟨free, by omega⟩
        rw [(h.counted lock).waiting] at waits
        obtain ⟨q, among, queues⟩ := exists_of_total_pos waits
        simp only [Holder.guards] at queues
        split at queues
        · rename_i wants
          exact .inr ⟨rfl, q, among, wants.2⟩
        · cases queues
      · exact .inl (writing lock (Nat.pos_of_ne_zero free))
  · rename_i lock rest next
    refine ⟨lock, .write, by simp only [Holder.wants, next], .inl ?_⟩
    split at stuck
    · have refused := Option.map_eq_none_iff.mp stuck
      unfold RwLock.write at refused
      split at refused
      · cases refused
      · rename_i taken
        by_cases free : (t.shared lock).readers = 0
        · refine writing lock (Nat.pos_of_ne_zero fun none => taken ⟨free, none⟩)
        · exact reading lock (Nat.pos_of_ne_zero free)
    · cases stuck
  · cases stuck
  · cases stuck

section stuck

variable {t : Pool (L → RwLock) (Holder L)} (h : Orderly rank t)
  (stuck : ∀ p ∈ t.phases, p.advance t.shared = none)

include h stuck

/-- Whoever holds a lock while nobody can go on waits for a lock of a higher rank. -/
theorem holder_wants {q : Holder L} (among : q ∈ t.phases) {lock : L} {mode : LockMode}
    (holds : (lock, mode) ∈ q.held) : q.resting = false ∧ ∃ next mode', q.wants = some (next, mode') ∧
      rank lock < rank next := by
  have ordered := h.threads q among
  have busy : q.resting = false := by
    refine Bool.eq_false_iff.mpr fun rests => ?_
    rw [(ordered.rests rests).1] at holds
    cases holds
  obtain ⟨next, mode', wants, _⟩ := h.refused (stuck q among) busy
  refine ⟨busy, next, mode', wants, ?_⟩
  have follows := ordered.follows
  unfold Holder.wants at wants
  split at wants
  · rename_i lock' mode'' rest script
    cases wants
    rw [script] at follows
    exact follows.1 _ holds
  · cases wants

theorem climbs {p : Holder L} (among : p ∈ t.phases) (busy : p.resting = false) :
    ∃ lock mode, p.wants = some (lock, mode) ∧ ∃ q ∈ t.phases, q.resting = false ∧
      ∃ next mode', q.wants = some (next, mode') ∧ rank lock < rank next := by
  obtain ⟨lock, mode, wants, ⟨q, member, mode', holds⟩ | ⟨_, q, member, queues⟩⟩ :=
    h.refused (stuck p among) busy
  · obtain ⟨busy, higher⟩ := holder_wants h stuck member holds
    exact ⟨lock, mode, wants, q, member, busy, higher⟩
  · -- The writer in the queue waits for a holder in its turn.
    have busy : q.resting = false := by
      refine Bool.eq_false_iff.mpr fun rests => ?_
      cases ((h.threads q member).rests rests).2.2.symm.trans queues
    obtain ⟨other, _, same, ⟨r, there, _, holds⟩ | ⟨reads, _⟩⟩ := h.refused (stuck q member) busy
    · cases same.symm.trans queues
      obtain ⟨busy, higher⟩ := holder_wants h stuck there holds
      exact ⟨lock, mode, wants, r, there, busy, higher⟩
    · cases reads
      cases same.symm.trans queues

/-- The ranks that are waited for would have no bound. -/
theorem all_rest : ∀ p ∈ t.phases, p.resting = true := by
  let wanted (p : Holder L) : Nat := (p.wants.map fun guard => rank guard.1).getD 0
  have unbounded (n : Nat) (found : ∃ p ∈ t.phases, p.resting = false) :
      ∃ p ∈ t.phases, p.resting = false ∧ n ≤ wanted p := by
    induction n with
    | zero =>
      obtain ⟨p, among, busy⟩ := found
      exact ⟨p, among, busy, Nat.zero_le _⟩
    | succ n ih =>
      obtain ⟨p, among, busy, high⟩ := ih
      obtain ⟨lock, mode, wants, q, member, waits, next, mode', later, higher⟩ := climbs h stuck among busy
      refine ⟨q, member, waits, ?_⟩
      simp only [wanted, wants, later, Option.map_some, Option.getD_some] at high ⊢
      omega
  intro p among
  by_contra busy
  obtain ⟨q, member, _, high⟩ := unbounded (total wanted t.phases + 1) ⟨p, among, Bool.eq_false_iff.mpr busy⟩
  have bound := le_total (f := wanted) member
  omega

end stuck

theorem work_decreases {p q : Holder L} {locks after : L → RwLock} {started : List (Holder L)}
    (moved : p.advance locks = some (q, after, started)) :
    q.work + total Holder.work started < p.work := by
  obtain ⟨rfl, lock, taken, rfl, step⟩ := advance_cases moved
  have none : total Holder.work ([] : List (Holder L)) = 0 := rfl
  rw [none, Nat.add_zero]
  cases step with
  | queue next unqueued =>
    simp only [Holder.work, next, unqueued, List.length_cons, if_true, Bool.false_eq_true, if_false]
    omega
  | _ next =>
    simp only [Holder.work, next, List.length_cons, Bool.false_eq_true, if_false]
    split <;> omega

/-- No run of calls that take the locks in order gets stuck, and every run can be
carried on until all calls have returned. -/
theorem Orderly.completes {t : Pool (L → RwLock) (Holder L)} (h : Orderly rank t)
    (script : C → Script L) : ¬ t.Stuck (scripted script) ∧
      ∃ moves u, (∀ m ∈ moves, ∃ i, m = .advance i) ∧
        Run (ofPartial (scripted script).step) t moves u ∧ u.Settled (scripted script) := by
  have quiet_rests {u : Pool (L → RwLock) (Holder L)} (orderly : Orderly rank u)
      (quiet : ∀ i, (scripted script).step u (.advance i) = none) : u.Settled (scripted script) := by
    refine all_rest orderly fun p among => ?_
    obtain ⟨i, here⟩ := List.mem_iff_getElem?.mp among
    have none := quiet i
    simp only [Program.step, here] at none
    split at none
    · cases none
    · rename_i same
      exact same
  refine ⟨fun stuck => stuck.1 (quiet_rests h stuck.2), ?_⟩
  obtain ⟨moves, u, advances, ran, quiet⟩ := (scripted script).exists_quiet Holder.work
    (fun _ _ _ _ _ moved => work_decreases moved) t
  refine ⟨moves, u, advances, ran, quiet_rests ?_ quiet⟩
  refine run_invariant_along (Orderly rank) (fun _ m _ => ∃ i, m = .advance i) ?_ h
    (along_labels _ advances t) ran
  rintro s _ v orderly moved ⟨i, rfl⟩
  exact orderly.step (fun _ _ call => by cases call) moved

theorem orderly_run {script : C → Script L} (scripts : ∀ c, Follows rank [] (script c)) {threads : Nat}
    {moves : List (Move C)} {t : Pool (L → RwLock) (Holder L)}
    (ran : Run (ofPartial (scripted script).step) (unlocked L threads) moves t) : Orderly rank t :=
  run_invariant (Orderly rank) (fun _ _ _ h moved => h.step (fun _ c _ => scripts c) moved)
    (orderly_unlocked rank threads) ran

end order

end Threads
