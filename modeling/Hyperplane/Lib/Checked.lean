import Hyperplane.Lib.Bytes
import Hyperplane.Lib.Method

/-! Operations that panic: a 64-bit sum that overflows, an index or a slice
outside its list. Lists of bytes that are in memory are shorter than 2^63. -/

structure Slice where
  bytes : List UInt8
  short : bytes.length < 2 ^ 63

namespace Outcome

def bind {ε α β : Type} (x : Outcome ε α) (f : α → Outcome ε β) : Outcome ε β :=
  match x with
  | .ok a => f a
  | .error e => .error e
  | .fault => .fault

instance {ε : Type} : Monad (Outcome ε) where
  pure := .ok
  bind := Outcome.bind

@[simp] theorem ok_bind {ε α β : Type} (a : α) (f : α → Outcome ε β) :
    ((.ok a : Outcome ε α) >>= f) = f a := rfl

@[simp] theorem pure_eq_ok {ε α : Type} (a : α) : (Pure.pure a : Outcome ε α) = .ok a := rfl

def add64 {ε : Type} (a b : Nat) : Outcome ε Nat := if a + b < 2 ^ 64 then .ok (a + b) else .fault

def index {ε : Type} (bytes : List UInt8) (i : Nat) : Outcome ε UInt8 :=
  match bytes[i]? with
  | some b => .ok b
  | none => .fault

def slice {ε : Type} (bytes : List UInt8) (start stop : Nat) : Outcome ε (List UInt8) :=
  if start ≤ stop ∧ stop ≤ bytes.length then .ok ((bytes.drop start).take (stop - start)) else .fault

theorem add64_ok {ε : Type} {a b : Nat} (fits : a + b < 2 ^ 64) :
    (add64 a b : Outcome ε Nat) = .ok (a + b) := if_pos fits

theorem slice_ok {ε : Type} {bytes : List UInt8} {start stop : Nat} (ordered : start ≤ stop)
    (inside : stop ≤ bytes.length) :
    (slice bytes start stop : Outcome ε (List UInt8)) = .ok ((bytes.drop start).take (stop - start)) :=
  if_pos ⟨ordered, inside⟩

/-- A slice whose end is a wrapping sum: past 2^64 the end is before the start. -/
theorem slice_wrapping {ε : Type} {bytes : List UInt8} (short : bytes.length < 2 ^ 63) (start n : UInt64) :
    (slice bytes start.toNat (start + n).toNat : Outcome ε (List UInt8)) =
      if start.toNat + n.toNat ≤ bytes.length then .ok ((bytes.drop start.toNat).take n.toNat)
      else .fault := by
  have low := n.toNat_lt
  rw [UInt64.toNat_add]
  by_cases wraps : start.toNat + n.toNat < 2 ^ 64
  · rw [Nat.mod_eq_of_lt wraps]
    by_cases inside : start.toNat + n.toNat ≤ bytes.length
    · rw [if_pos inside, slice_ok (by omega) inside, Nat.add_sub_cancel_left]
    · rw [if_neg inside]
      exact if_neg (fun valid => inside valid.2)
  · rw [if_neg (by omega)]
    exact if_neg (by omega)

/-- A slice after a prefix is a slice of the rest. -/
theorem slice_append {ε : Type} {front rest : List UInt8} {start stop : Nat}
    (after : front.length ≤ start) (ordered : start ≤ stop) :
    (slice (front ++ rest) start stop : Outcome ε (List UInt8)) =
      slice rest (start - front.length) (stop - front.length) := by
  have shift : stop - front.length - (start - front.length) = stop - start := by omega
  have skip : front.drop start = [] := List.drop_eq_nil_of_le after
  simp only [slice, List.length_append, List.drop_append, skip, List.nil_append, shift]
  congr 1
  apply propext
  omega

theorem slice_cons {ε : Type} (b : UInt8) {rest : List UInt8} {start stop : Nat}
    (after : 0 < start) (ordered : start ≤ stop) :
    (slice (b :: rest) start stop : Outcome ε (List UInt8)) = slice rest (start - 1) (stop - 1) :=
  @slice_append ε [b] rest start stop after ordered

theorem slice_front {ε : Type} {part rest : List UInt8} {n : Nat} (width : part.length = n) :
    (slice (part ++ rest) 0 n : Outcome ε (List UInt8)) = .ok part := by
  subst width
  simp [slice]

theorem index_append {ε : Type} {front rest : List UInt8} {i : Nat} (after : front.length ≤ i) :
    (index (front ++ rest) i : Outcome ε UInt8) = index rest (i - front.length) := by
  simp [index, List.getElem?_append_right after]

theorem index_front {ε : Type} (b : UInt8) (rest : List UInt8) :
    (index (b :: rest) 0 : Outcome ε UInt8) = .ok b := rfl

end Outcome
