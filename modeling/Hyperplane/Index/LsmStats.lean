import Hyperplane.Index.LsmBitmap

/-! What the statistics of the bitmap say, and what a compaction changes. -/
namespace Hyperplane

structure LsmBitmapStats where
  baseCardinality : Nat
  deltaCount : Nat
  totalDeltaEntries : Nat
  estimatedTotal : Nat
  compactionInProgress : Bool

namespace LsmBitmap

variable {S : Type} [IdUnion S]

def totalDeltaEntries (self : LsmBitmap S) : Nat := (self.deltas.map IdSet.len).sum

/-- An id that lies in several places is counted at each of them. -/
def estimatedTotal (self : LsmBitmap S) : Nat := IdSet.len self.base + self.totalDeltaEntries

def stats (self : LsmBitmap S) : LsmBitmapStats where
  baseCardinality := IdSet.len self.base
  deltaCount := self.deltas.length
  totalDeltaEntries := self.totalDeltaEntries
  estimatedTotal := self.estimatedTotal
  compactionInProgress := self.compactionInProgress

/-- The answers are the same, the deltas are one empty delta, and the estimate
went down to the number of ids. -/
structure Compacts (before after : LsmBitmap S) : Prop where
  query : IdSet.iter after.query = IdSet.iter before.query
  contains : ∀ id, after.contains id = before.contains id
  deltas : ∃ delta, after.deltas = [delta] ∧ IdSet.iter delta = []
  estimated : IdSet.len before.query ≤ before.stats.estimatedTotal
  exact : after.stats.estimatedTotal = IdSet.len after.query

theorem query_compact (self : LsmBitmap S) : self.compact.query = IdUnion.union self.query IdSet.empty :=
  rfl

theorem contains_query_compact (self : LsmBitmap S) (i : Nat) :
    IdSet.contains self.compact.query i = true ↔ IdSet.contains self.query i = true := by
  rw [query_compact, IdUnion.contains_union, IdSet.contains_empty, Bool.or_false]

theorem contains_compact (self : LsmBitmap S) (id : UInt32) :
    self.compact.contains id = self.contains id := by
  rw [Bool.eq_iff_iff, contains_iff, contains_iff, inBase_compact, inDeltas_compact]
  simp

theorem estimatedTotal_compact (self : LsmBitmap S) :
    self.compact.estimatedTotal = IdSet.len self.compact.query := by
  have base : self.compact.estimatedTotal = IdSet.len self.query + (IdSet.len (IdSet.empty : S) + 0) := rfl
  rw [base, IdSet.len_empty]
  exact (IdSet.len_congr self.contains_query_compact).symm

/-- From every state, those that inserts, removes and compactions lead to among
them. -/
theorem compact_keeps_answers (self : LsmBitmap S) : Compacts self self.compact where
  query := IdSet.iter_congr self.contains_query_compact
  contains := self.contains_compact
  deltas := ⟨IdSet.empty, rfl, IdSet.iter_empty⟩
  estimated := IdUnion.len_foldl_le self.deltas self.base
  exact := self.estimatedTotal_compact

end LsmBitmap

end Hyperplane
