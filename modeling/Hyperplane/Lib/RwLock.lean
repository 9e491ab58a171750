import Hyperplane.Lib.Threads

/-! A lock for many readers or one writer that lets no new reader in while a writer
waits. It counts its guards; the threads that hold them are accounted for one by
one. -/
namespace Threads

structure RwLock where
  readers : Nat := 0
  writers : Nat := 0
  waiting : Nat := 0
  deriving DecidableEq

namespace RwLock

def read (lock : RwLock) : Option RwLock :=
  if lock.writers = 0 ∧ lock.waiting = 0 then some { lock with readers := lock.readers + 1 } else none

def endRead (lock : RwLock) : RwLock := { lock with readers := lock.readers - 1 }

/-- A writer queues first, also for a lock that is free. -/
def queue (lock : RwLock) : RwLock := { lock with waiting := lock.waiting + 1 }

def write (lock : RwLock) : Option RwLock :=
  if lock.readers = 0 ∧ lock.writers = 0 then
    some { lock with writers := 1, waiting := lock.waiting - 1 }
  else none

def endWrite (lock : RwLock) : RwLock := { lock with writers := lock.writers - 1 }

theorem read_eq_some {lock after : RwLock} : lock.read = some after ↔
    lock.writers = 0 ∧ lock.waiting = 0 ∧ after = { lock with readers := lock.readers + 1 } := by
  unfold read
  split
  · rename_i free
    simp [free, eq_comm]
  · rename_i held
    simp only [reduceCtorEq, false_iff]
    rintro ⟨writers, waiting, -⟩
    exact held ⟨writers, waiting⟩

theorem write_eq_some {lock after : RwLock} : lock.write = some after ↔
    lock.readers = 0 ∧ lock.writers = 0 ∧
      after = { lock with writers := 1, waiting := lock.waiting - 1 } := by
  unfold write
  split
  · rename_i free
    simp [free, eq_comm]
  · rename_i held
    simp only [reduceCtorEq, false_iff]
    rintro ⟨readers, writers, -⟩
    exact held ⟨readers, writers⟩

end RwLock

/-- How many guards a thread holds at a phase. -/
structure Guards (P : Type) where
  reads : P → Nat
  waits : P → Nat
  writes : P → Nat

/-- The lock counts the guards that the threads hold. -/
structure Counted {P : Type} (guards : Guards P) (lock : RwLock) (phases : List P) : Prop where
  readers : lock.readers = total guards.reads phases
  waiting : lock.waiting = total guards.waits phases
  writers : lock.writers = total guards.writes phases

/-- A thread that moves takes and gives back what its phases say. -/
theorem Counted.move {P : Type} {guards : Guards P} {lock after : RwLock} {phases : List P} {i : Nat} {p q : P}
    (counted : Counted guards lock phases) (here : phases[i]? = some p)
    (readers : after.readers + guards.reads p = lock.readers + guards.reads q)
    (waiting : after.waiting + guards.waits p = lock.waiting + guards.waits q)
    (writers : after.writers + guards.writes p = lock.writers + guards.writes q) :
    Counted guards after (phases.set i q) := by
  have movedReaders := total_set (f := guards.reads) (q := q) here
  have movedWaiting := total_set (f := guards.waits) (q := q) here
  have movedWriters := total_set (f := guards.writes) (q := q) here
  obtain ⟨ownReaders, ownWaiting, ownWriters⟩ := counted
  exact ⟨by omega, by omega, by omega⟩

end Threads
