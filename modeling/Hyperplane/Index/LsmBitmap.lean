import Hyperplane.Lib.IdSet
import Hyperplane.Lib.Transition

/-! The bitmap with a base and deltas: inserts go to the last delta, a
compaction moves all deltas into the base. -/
namespace Hyperplane
open Transition

/-- There is always a last delta for the next insert. -/
structure LsmBitmap (S : Type) where
  base : S
  deltas : List S
  maxDeltas : Nat
  maxDeltaSize : Nat
  compactionCounter : UInt64
  compactionInProgress : Bool
  inhabited : deltas ≠ []

namespace LsmBitmap

variable {S : Type} [IdUnion S]

def withConfig (maxDeltas maxDeltaSize : Nat) : LsmBitmap S :=
  ⟨IdSet.empty, [IdSet.empty], maxDeltas, maxDeltaSize, 0, false, List.cons_ne_nil _ _⟩

def new : LsmBitmap S := withConfig 4 100000

/-- The section of insert under the lock of the deltas. -/
def addDelta (self : LsmBitmap S) (id : UInt32) : LsmBitmap S :=
  { self with
    deltas := self.deltas.dropLast ++
      [(IdSet.insert (self.deltas.getLast self.inhabited) id.toNat).2]
    compactionCounter := self.compactionCounter + 1
    inhabited := List.append_ne_nil_of_right_ne_nil _ (List.cons_ne_nil _ _) }

/-- Too many deltas, the last delta too large, or a million inserts. -/
def due (self : LsmBitmap S) : Bool :=
  decide (self.maxDeltas ≤ self.deltas.length) ||
    decide (self.maxDeltaSize ≤ IdSet.len (self.deltas.getLast self.inhabited)) ||
    decide (1000000 ≤ self.compactionCounter)

def shouldCompact (self : LsmBitmap S) : Bool := !self.compactionInProgress && self.due

def setInProgress (self : LsmBitmap S) (flag : Bool) : LsmBitmap S :=
  { self with compactionInProgress := flag }

/-- Beside the bitmap: whether a background compaction was started. -/
def insert (self : LsmBitmap S) (id : UInt32) : Bool × LsmBitmap S :=
  let added := self.addDelta id
  if added.shouldCompact then (true, added.setInProgress true) else (false, added)

/-- The deltas are locked for reading, and left as they are. -/
def remove (self : LsmBitmap S) (id : UInt32) : LsmBitmap S :=
  { self with base := (IdSet.remove self.base id.toNat).2 }

def query (self : LsmBitmap S) : S := self.deltas.foldl IdUnion.union self.base

def inDeltas (self : LsmBitmap S) (id : UInt32) : Bool :=
  self.deltas.reverse.any fun delta => IdSet.contains delta id.toNat

def inBase (self : LsmBitmap S) (id : UInt32) : Bool := IdSet.contains self.base id.toNat

def contains (self : LsmBitmap S) (id : UInt32) : Bool :=
  if self.inDeltas id then true else self.inBase id

/-- The sections of a compaction after its copy of the base. -/
def mergeDeltas (self : LsmBitmap S) (newBase : S) : S := self.deltas.foldl IdUnion.union newBase

def clearDeltas (self : LsmBitmap S) : LsmBitmap S :=
  { self with deltas := [IdSet.empty], inhabited := List.cons_ne_nil _ _ }

def writeBase (self : LsmBitmap S) (newBase : S) : LsmBitmap S := { self with base := newBase }

def resetCounter (self : LsmBitmap S) : LsmBitmap S := { self with compactionCounter := 0 }

def compact (self : LsmBitmap S) : LsmBitmap S :=
  let newBase := self.mergeDeltas self.base
  (self.clearDeltas.writeBase newBase).resetCounter

section membership

variable (self : LsmBitmap S) (newBase : S) (id other : UInt32)

theorem inDeltas_iff :
    self.inDeltas id = true ↔ ∃ delta ∈ self.deltas, IdSet.contains delta id.toNat = true := by
  simp [inDeltas]

theorem contains_mergeDeltas : IdSet.contains (self.mergeDeltas newBase) id.toNat = true ↔
    IdSet.contains newBase id.toNat = true ∨ self.inDeltas id = true := by
  rw [inDeltas_iff]
  exact IdUnion.contains_foldl self.deltas newBase id.toNat

theorem contains_query : IdSet.contains self.query id.toNat = true ↔
    self.inBase id = true ∨ self.inDeltas id = true :=
  self.contains_mergeDeltas self.base id

theorem contains_iff : self.contains id = true ↔ self.inBase id = true ∨ self.inDeltas id = true := by
  unfold contains
  split
  · rename_i found
    simp [found]
  · rename_i missed
    simp [missed]

@[simp] theorem inBase_addDelta : (self.addDelta id).inBase other = self.inBase other := rfl

theorem inDeltas_addDelta : (self.addDelta id).inDeltas other = true ↔
    other = id ∨ self.inDeltas other = true := by
  have split : self.deltas = self.deltas.dropLast ++ [self.deltas.getLast self.inhabited] :=
    (List.dropLast_concat_getLast self.inhabited).symm
  rw [inDeltas_iff, inDeltas_iff, split]
  simp only [addDelta, List.mem_append, List.mem_singleton, or_and_right, exists_or, exists_eq_left,
    IdSet.contains_insert, Bool.or_eq_true, beq_iff_eq, UInt32.toNat_inj]
  exact or_left_comm

@[simp] theorem inDeltas_clearDeltas : self.clearDeltas.inDeltas id = false := by
  simp [inDeltas, clearDeltas, IdSet.contains_empty]

@[simp] theorem inDeltas_writeBase : (self.writeBase newBase).inDeltas id = self.inDeltas id := rfl

@[simp] theorem inDeltas_resetCounter : self.resetCounter.inDeltas id = self.inDeltas id := rfl

@[simp] theorem inDeltas_setInProgress (flag : Bool) :
    (self.setInProgress flag).inDeltas id = self.inDeltas id := rfl

@[simp] theorem inBase_setInProgress (flag : Bool) :
    (self.setInProgress flag).inBase id = self.inBase id := rfl

theorem inBase_remove : (self.remove id).inBase other = true ↔
    other ≠ id ∧ self.inBase other = true := by
  simp [remove, inBase, IdSet.contains_remove, UInt32.toNat_inj]

/-- A compaction moves everything into the base. -/
theorem inBase_compact : self.compact.inBase id = true ↔
    self.inBase id = true ∨ self.inDeltas id = true :=
  self.contains_query id

@[simp] theorem inDeltas_compact : self.compact.inDeltas id = false := by
  simp [compact]

/-- An insert adds to the deltas, and sets the flag if it starts a compaction. -/
theorem insert_cases :
    ((self.addDelta id).shouldCompact = true ∧
      self.insert id = (true, (self.addDelta id).setInProgress true)) ∨
    ((self.addDelta id).shouldCompact = false ∧ self.insert id = (false, self.addDelta id)) := by
  unfold insert
  cases decided : (self.addDelta id).shouldCompact <;> simp [decided]

@[simp] theorem inBase_insert : (self.insert id).2.inBase other = self.inBase other := by
  rcases self.insert_cases id with ⟨_, taken⟩ | ⟨_, taken⟩ <;> rw [taken] <;> rfl

theorem inDeltas_insert : (self.insert id).2.inDeltas other = true ↔
    other = id ∨ self.inDeltas other = true := by
  rcases self.insert_cases id with ⟨_, taken⟩ | ⟨_, taken⟩ <;> rw [taken] <;>
    exact self.inDeltas_addDelta id other

end membership

end LsmBitmap

end Hyperplane
