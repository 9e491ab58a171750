import Hyperplane.Lib.Threads
import Hyperplane.Index.LsmBitmap

/-! The calls on a bitmap taken apart into the sections they lock. Any number
of threads call, and inserts start compactions in threads of their own. -/
namespace Hyperplane
open Transition Threads

/-- A compaction holds a copy of the base until it writes it back. The flag says
whether it runs in the background. -/
inductive Compaction (S : Type) where
  | copying (background : Bool)
  | draining (background : Bool) (newBase : S)
  | writing (background : Bool) (newBase : S)
  | resetting (background : Bool)
  | unflagging
  | finished

namespace Compaction

variable {S : Type} [IdUnion S]

def advance : Compaction S → LsmBitmap S → Option (Compaction S × LsmBitmap S)
  | .copying background, bitmap => some (.draining background bitmap.base, bitmap)
  | .draining background newBase, bitmap =>
    some (.writing background (bitmap.mergeDeltas newBase), bitmap.clearDeltas)
  | .writing background newBase, bitmap => some (.resetting background, bitmap.writeBase newBase)
  | .resetting background, bitmap =>
    some (if background then .unflagging else .finished, bitmap.resetCounter)
  | .unflagging, bitmap => some (.finished, bitmap.setInProgress false)
  | .finished, _ => none

end Compaction

/-- A read remembers the ids whose insert had returned when it began. -/
inductive LsmPhase (S : Type) where
  | idle
  | inserting (id : UInt32)
  | added (id : UInt32)
  | weighed (id : UInt32) (due : Bool)
  | triggering (id : UInt32)
  | compacting (c : Compaction S)
  | probing (id : UInt32) (expected : Bool)
  | missed (id : UInt32) (expected : Bool)
  | probed (id : UInt32) (expected : Bool) (answer : Bool)
  | querying (expected : List UInt32)
  | holding (expected : List UInt32)
  | queried (expected : List UInt32) (answer : S)
  | done

inductive LsmOperation where
  | insert (id : UInt32)
  | compact
  | contains (id : UInt32)
  | query

/-- The bitmap, the number of threads that hold a read lock from one section to
the next, and what was inserted: in the deltas, and by calls that returned. -/
structure LsmShared (S : Type) where
  bitmap : LsmBitmap S
  baseReaders : Nat
  deltaReaders : Nat
  inserted : List UInt32
  returned : List UInt32

namespace LsmPhase

variable {S : Type}

def resting : LsmPhase S → Bool
  | .idle | .compacting .finished | .probed _ _ _ | .queried _ _ | .done => true
  | _ => false

/-- The bitmap a compaction is going to write back: between its copy of the
base and its write of the base. -/
def copy : LsmPhase S → Option S
  | .compacting (.draining _ newBase) | .compacting (.writing _ newBase) => some newBase
  | _ => none

def carries [IdUnion S] (p : LsmPhase S) (id : UInt32) : Bool :=
  p.copy.any fun newBase => IdSet.contains newBase id.toNat

theorem copy_of_resting {p : LsmPhase S} (rests : p.resting = true) : p.copy = none := by
  cases p with
  | compacting c =>
    cases c with
    | finished => rfl
    | _ => cases rests
  | _ => rfl

theorem not_carries [IdUnion S] {p : LsmPhase S} (none : p.copy = none) (id : UInt32) :
    p.carries id = false := by
  rw [carries, none, Option.any_none]

end LsmPhase

namespace LsmShared

variable {S : Type} [IdUnion S]

/-- A writer waits for the threads that hold the lock for reading. -/
def blocks (s : LsmShared S) : Compaction S → Bool
  | .draining _ _ => s.deltaReaders != 0
  | .writing _ _ => s.baseReaders != 0
  | _ => false

def advance : LsmPhase S → LsmShared S → Option (LsmPhase S × LsmShared S × List (LsmPhase S))
  | .inserting id, s =>
    if s.deltaReaders = 0 then
      some (.added id, { s with bitmap := s.bitmap.addDelta id, inserted := s.inserted ++ [id] }, [])
    else none
  -- The check holds the deltas while it reads the counter and then the flag.
  | .added id, s =>
    some (.weighed id s.bitmap.due, { s with deltaReaders := s.deltaReaders + 1 }, [])
  | .weighed id due, s =>
    if !s.bitmap.compactionInProgress && due then
      some (.triggering id, { s with deltaReaders := s.deltaReaders - 1 }, [])
    else
      some (.done, { s with deltaReaders := s.deltaReaders - 1, returned := s.returned ++ [id] }, [])
  | .triggering id, s =>
    some (.done, { s with bitmap := s.bitmap.setInProgress true, returned := s.returned ++ [id] },
      [.compacting (.copying true)])
  | .compacting c, s =>
    if s.blocks c then none
    else match c.advance s.bitmap with
      | some (next, bitmap) => some (.compacting next, { s with bitmap := bitmap }, [])
      | none => none
  | .probing id expected, s =>
    if s.bitmap.inDeltas id then some (.probed id expected true, s, [])
    else some (.missed id expected, s, [])
  | .missed id expected, s => some (.probed id expected (s.bitmap.inBase id), s, [])
  | .querying expected, s => some (.holding expected, { s with baseReaders := s.baseReaders + 1 }, [])
  | .holding expected, s =>
    some (.queried expected s.bitmap.query, { s with baseReaders := s.baseReaders - 1 }, [])
  | .idle, _ => none
  | .probed _ _ _, _ => none
  | .queried _ _, _ => none
  | .done, _ => none

def enter : LsmOperation → LsmShared S → LsmPhase S
  | .insert id, _ => .inserting id
  | .compact, _ => .compacting (.copying false)
  | .contains id, s => .probing id (s.returned.contains id)
  | .query, s => .querying s.returned

def program : Program (LsmShared S) (LsmPhase S) LsmOperation := ⟨enter, LsmPhase.resting, advance⟩

def start (maxDeltas maxDeltaSize threads : Nat) : Pool (LsmShared S) (LsmPhase S) where
  shared := ⟨.withConfig maxDeltas maxDeltaSize, 0, 0, [], []⟩
  phases := List.replicate threads .idle

/-- The sections a thread goes through, each with what it does. -/
inductive Section (s : LsmShared S) : LsmPhase S → LsmPhase S → LsmShared S → List (LsmPhase S) → Prop where
  | add (id : UInt32) : Section s (.inserting id) (.added id)
      { s with bitmap := s.bitmap.addDelta id, inserted := s.inserted ++ [id] } []
  | weigh (id : UInt32) : Section s (.added id) (.weighed id s.bitmap.due)
      { s with deltaReaders := s.deltaReaders + 1 } []
  | decide (id : UInt32) (idle : s.bitmap.compactionInProgress = false) :
      Section s (.weighed id true) (.triggering id)
      { s with deltaReaders := s.deltaReaders - 1 } []
  | decline (id : UInt32) (due : Bool) : Section s (.weighed id due) .done
      { s with deltaReaders := s.deltaReaders - 1, returned := s.returned ++ [id] } []
  | trigger (id : UInt32) : Section s (.triggering id) .done
      { s with bitmap := s.bitmap.setInProgress true, returned := s.returned ++ [id] }
      [.compacting (.copying true)]
  | copy (background : Bool) : Section s (.compacting (.copying background))
      (.compacting (.draining background s.bitmap.base)) s []
  | drain (background : Bool) (newBase : S) : Section s (.compacting (.draining background newBase))
      (.compacting (.writing background (s.bitmap.mergeDeltas newBase)))
      { s with bitmap := s.bitmap.clearDeltas } []
  | write (background : Bool) (newBase : S) : Section s (.compacting (.writing background newBase))
      (.compacting (.resetting background)) { s with bitmap := s.bitmap.writeBase newBase } []
  | reset (background : Bool) : Section s (.compacting (.resetting background))
      (.compacting (if background then .unflagging else .finished))
      { s with bitmap := s.bitmap.resetCounter } []
  | unflag : Section s (.compacting .unflagging) (.compacting .finished)
      { s with bitmap := s.bitmap.setInProgress false } []
  | find (id : UInt32) (expected : Bool) (found : s.bitmap.inDeltas id = true) :
      Section s (.probing id expected) (.probed id expected true) s []
  | miss (id : UInt32) (expected : Bool) (missed : s.bitmap.inDeltas id = false) :
      Section s (.probing id expected) (.missed id expected) s []
  | probe (id : UInt32) (expected : Bool) :
      Section s (.missed id expected) (.probed id expected (s.bitmap.inBase id)) s []
  | hold (expected : List UInt32) : Section s (.querying expected) (.holding expected)
      { s with baseReaders := s.baseReaders + 1 } []
  | answer (expected : List UInt32) : Section s (.holding expected) (.queried expected s.bitmap.query)
      { s with baseReaders := s.baseReaders - 1 } []

theorem section_of_advance {p q : LsmPhase S} {s t : LsmShared S} {started : List (LsmPhase S)}
    (moved : advance p s = some (q, t, started)) : Section s p q t started := by
  cases p with
  | inserting id =>
    simp only [advance] at moved
    split at moved <;> cases moved
    exact .add id
  | added id =>
    cases moved
    exact .weigh id
  | weighed id due =>
    simp only [advance] at moved
    split at moved <;> cases moved
    · rename_i decided
      obtain ⟨idle, rfl⟩ := Bool.and_eq_true_iff.mp decided
      exact .decide id (by simpa using idle)
    · exact .decline id due
  | triggering id =>
    cases moved
    exact .trigger id
  | probing id expected =>
    simp only [advance] at moved
    split at moved <;> cases moved
    · rename_i found
      exact .find id expected found
    · rename_i missed
      exact .miss id expected (Bool.eq_false_iff.mpr missed)
  | missed id expected =>
    cases moved
    exact .probe id expected
  | querying expected =>
    cases moved
    exact .hold expected
  | holding expected =>
    cases moved
    exact .answer expected
  | compacting c =>
    simp only [advance] at moved
    split at moved
    · cases moved
    · cases c with
      | copying background =>
        cases moved
        exact .copy background
      | draining background newBase =>
        cases moved
        exact .drain background newBase
      | writing background newBase =>
        cases moved
        exact .write background newBase
      | resetting background =>
        cases moved
        exact .reset background
      | unflagging =>
        cases moved
        exact .unflag
      | finished => cases moved
  | idle => cases moved
  | probed id expected answer => cases moved
  | queried expected answer => cases moved
  | done => cases moved

/-- A step of a thread that adds nothing and is no step of a compaction between
its copy of the base and its write. -/
structure Quiet (p q : LsmPhase S) (s t : LsmShared S) (started : List (LsmPhase S)) : Prop where
  base : ∀ id, t.bitmap.inBase id = s.bitmap.inBase id
  deltas : ∀ id, t.bitmap.inDeltas id = s.bitmap.inDeltas id
  inserted : t.inserted = s.inserted
  before : p.copy = none
  after : q.copy = none
  spawned : ∀ r ∈ started, r.copy = none

/-- What one step of a thread does to the places of the ids. -/
theorem advance_cases {p q : LsmPhase S} {s t : LsmShared S} {started : List (LsmPhase S)}
    (moved : advance p s = some (q, t, started)) : Quiet p q s t started ∨ (started = [] ∧
    ((∃ id, p = .inserting id ∧ q = .added id ∧
      t = { s with bitmap := s.bitmap.addDelta id, inserted := s.inserted ++ [id] }) ∨
    (∃ background, p = .compacting (.copying background) ∧
      q = .compacting (.draining background s.bitmap.base) ∧ t = s) ∨
    (∃ background newBase, p = .compacting (.draining background newBase) ∧
      q = .compacting (.writing background (s.bitmap.mergeDeltas newBase)) ∧
        t = { s with bitmap := s.bitmap.clearDeltas }) ∨
    (∃ background newBase, p = .compacting (.writing background newBase) ∧
      q = .compacting (.resetting background) ∧ t = { s with bitmap := s.bitmap.writeBase newBase }))) := by
  cases section_of_advance moved with
  | add id => exact .inr ⟨rfl, .inl ⟨id, rfl, rfl, rfl⟩⟩
  | copy background => exact .inr ⟨rfl, .inr (.inl ⟨background, rfl, rfl, rfl⟩)⟩
  | drain background newBase => exact .inr ⟨rfl, .inr (.inr (.inl ⟨background, newBase, rfl, rfl, rfl⟩))⟩
  | write background newBase => exact .inr ⟨rfl, .inr (.inr (.inr ⟨background, newBase, rfl, rfl, rfl⟩))⟩
  | reset background =>
    exact .inl ⟨fun _ => rfl, fun _ => rfl, rfl, rfl, by cases background <;> rfl, by simp⟩
  | trigger id => exact .inl ⟨fun _ => rfl, fun _ => rfl, rfl, rfl, rfl, by simp [LsmPhase.copy]⟩
  | _ => exact .inl ⟨fun _ => rfl, fun _ => rfl, rfl, rfl, rfl, by simp⟩

section alone

variable (s : LsmShared S) (id : UInt32)

/-- Calls that no other thread interrupts are the methods. -/
theorem alone_insert (free : s.deltaReaders = 0) : ∃ steps,
    Run (ofPartial program.step) ⟨s, [.idle]⟩ (.call 0 (.insert id) :: List.replicate steps (.advance 0))
      ⟨{ s with
          bitmap := (s.bitmap.insert id).2
          inserted := s.inserted ++ [id]
          returned := s.returned ++ [id] },
        .done :: if (s.bitmap.insert id).1 then [.compacting (.copying true)] else []⟩ := by
  rcases s.bitmap.insert_cases id with ⟨decided, taken⟩ | ⟨decided, taken⟩
  · simp only [LsmBitmap.shouldCompact, Bool.and_eq_true, Bool.not_eq_eq_eq_not, Bool.not_true] at decided
    refine ⟨4, (run_ofPartial _ _ _ _).mpr ?_⟩
    simp [program, Program.step, LsmPhase.resting, enter, advance, free, decided, taken]
  · simp only [LsmBitmap.shouldCompact, Bool.and_eq_false_iff, Bool.not_eq_eq_eq_not, Bool.not_false] at decided
    refine ⟨3, (run_ofPartial _ _ _ _).mpr ?_⟩
    rcases decided with running | light
    · simp [program, Program.step, LsmPhase.resting, enter, advance, free, running, taken]
    · simp [program, Program.step, LsmPhase.resting, enter, advance, free, light, taken]

theorem alone_compact (free : s.deltaReaders = 0) (unread : s.baseReaders = 0) :
    Run (ofPartial program.step) ⟨s, [.idle]⟩ (.call 0 .compact :: List.replicate 4 (.advance 0))
      ⟨{ s with bitmap := s.bitmap.compact }, [.compacting .finished]⟩ := by
  refine (run_ofPartial _ _ _ _).mpr ?_
  simp [program, Program.step, LsmPhase.resting, enter, advance, blocks, Compaction.advance, free,
    unread, LsmBitmap.compact]

theorem alone_contains : ∃ steps, Run (ofPartial program.step) ⟨s, [.idle]⟩
    (.call 0 (.contains id) :: List.replicate steps (.advance 0))
      ⟨s, [.probed id (s.returned.contains id) (s.bitmap.contains id)]⟩ := by
  by_cases found : s.bitmap.inDeltas id = true
  · refine ⟨1, (run_ofPartial _ _ _ _).mpr ?_⟩
    simp [program, Program.step, LsmPhase.resting, enter, advance, LsmBitmap.contains, found]
  · refine ⟨2, (run_ofPartial _ _ _ _).mpr ?_⟩
    simp [program, Program.step, LsmPhase.resting, enter, advance, LsmBitmap.contains, found]

theorem alone_query : Run (ofPartial program.step) ⟨s, [.idle]⟩
    [.call 0 .query, .advance 0, .advance 0] ⟨s, [.queried s.returned s.bitmap.query]⟩ := by
  refine (run_ofPartial _ _ _ _).mpr ?_
  simp [program, Program.step, LsmPhase.resting, enter, advance]

end alone

end LsmShared

end Hyperplane
