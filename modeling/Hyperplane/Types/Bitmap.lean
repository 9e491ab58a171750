import Hyperplane.Lib.IdSet

/-! Bitmaps of pubkey ids. -/
namespace Hyperplane

structure PubkeyBitmap (S : Type) where
  bitmap : S
  cardinality : Nat

namespace PubkeyBitmap

/-- The length of the serialized bitmap, given the serialized length of a set. -/
def compressedSize {S : Type} (serializedLen : S → UInt64) (b : PubkeyBitmap S) : UInt64 :=
  serializedLen b.bitmap

variable {S : Type} [IdSet S]

def new : PubkeyBitmap S := ⟨IdSet.empty, 0⟩

def insert (b : PubkeyBitmap S) (pubkeyId : Nat) : Bool × PubkeyBitmap S :=
  match IdSet.insert b.bitmap pubkeyId with
  | (true, bitmap) => (true, ⟨bitmap, IdSet.len bitmap⟩)
  | (false, bitmap) => (false, ⟨bitmap, b.cardinality⟩)

def remove (b : PubkeyBitmap S) (pubkeyId : Nat) : Bool × PubkeyBitmap S :=
  match IdSet.remove b.bitmap pubkeyId with
  | (true, bitmap) => (true, ⟨bitmap, IdSet.len bitmap⟩)
  | (false, bitmap) => (false, ⟨bitmap, b.cardinality⟩)

def contains (b : PubkeyBitmap S) (pubkeyId : Nat) : Bool := IdSet.contains b.bitmap pubkeyId

def iter (b : PubkeyBitmap S) : List Nat := IdSet.iter b.bitmap

@[simp] theorem contains_new (i : Nat) : (new : PubkeyBitmap S).contains i = false :=
  IdSet.contains_empty i

theorem insert_bitmap (b : PubkeyBitmap S) (i : Nat) :
    (b.insert i).2.bitmap = (IdSet.insert b.bitmap i).2 := by
  unfold insert
  split <;> simp_all

theorem remove_bitmap (b : PubkeyBitmap S) (i : Nat) :
    (b.remove i).2.bitmap = (IdSet.remove b.bitmap i).2 := by
  unfold remove
  split <;> simp_all

@[simp] theorem contains_insert (b : PubkeyBitmap S) (i j : Nat) :
    (b.insert i).2.contains j = (j == i || b.contains j) := by
  rw [contains, insert_bitmap]
  exact IdSet.contains_insert b.bitmap i j

@[simp] theorem contains_remove (b : PubkeyBitmap S) (i j : Nat) :
    (b.remove i).2.contains j = (j != i && b.contains j) := by
  rw [contains, remove_bitmap]
  exact IdSet.contains_remove b.bitmap i j

theorem contains_getD (found : Option (PubkeyBitmap S)) (i : Nat) :
    (found.getD .new).contains i = true ↔ ∃ b, found = some b ∧ b.contains i = true := by
  cases found <;> simp

theorem mem_iter (b : PubkeyBitmap S) (i : Nat) : i ∈ b.iter ↔ b.contains i = true :=
  IdSet.mem_iter b.bitmap i

end PubkeyBitmap

end Hyperplane
