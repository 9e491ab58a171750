import Mathlib.Data.List.Basic
import Mathlib.Tactic.Ring

/-! Little-endian numbers and byte areas. An area is a total function of the
offset; a range of it is loaded and stored as a list of bytes. Whether an
offset may be touched at all is the business of whoever owns the area. -/
namespace Bytes

def toLE : Nat → Nat → List UInt8
  | 0, _ => []
  | w + 1, n => UInt8.ofNat n :: toLE w (n / 256)

def ofLE : List UInt8 → Nat
  | [] => 0
  | b :: bs => b.toNat + 256 * ofLE bs

@[simp] theorem length_toLE (w n : Nat) : (toLE w n).length = w := by
  induction w generalizing n with
  | zero => rfl
  | succ w ih => simp [toLE, ih]

theorem ofLE_toLE (w n : Nat) : ofLE (toLE w n) = n % 256 ^ w := by
  induction w generalizing n with
  | zero => simp [toLE, ofLE, Nat.mod_one]
  | succ w ih =>
    simp only [toLE, ofLE, ih, UInt8.toNat_ofNat', Nat.reducePow]
    rw [pow_succ', Nat.mod_mul]

theorem ofLE_toLE_of_lt {w n : Nat} (small : n < 256 ^ w) : ofLE (toLE w n) = n := by
  rw [ofLE_toLE, Nat.mod_eq_of_lt small]

theorem exists_front {bytes : List UInt8} {n : Nat} (long : n ≤ bytes.length) :
    ∃ front rest, bytes = front ++ rest ∧ front.length = n :=
  ⟨bytes.take n, bytes.drop n, (List.take_append_drop n bytes).symm, List.length_take_of_le long⟩

/-- The pieces stand in the body in this order, with gaps before and behind them. -/
def InOrder : List (List UInt8) → List UInt8 → Prop
  | [], _ => True
  | piece :: rest, body => ∃ gap tail, body = gap ++ (piece ++ tail) ∧ InOrder rest tail

theorem InOrder.append {pieces : List (List UInt8)} {body : List UInt8}
    (inOrder : InOrder pieces body) (more : List UInt8) : InOrder pieces (body ++ more) := by
  induction pieces generalizing body with
  | nil => trivial
  | cons piece rest ih =>
    obtain ⟨gap, tail, rfl, later⟩ := inOrder
    exact ⟨gap, tail ++ more, by simp only [List.append_assoc], ih later⟩

theorem InOrder.snoc {pieces : List (List UInt8)} {body : List UInt8}
    (inOrder : InOrder pieces body) (gap piece : List UInt8) :
    InOrder (pieces ++ [piece]) (body ++ (gap ++ piece)) := by
  induction pieces generalizing body with
  | nil => exact ⟨body ++ gap, [], by simp, trivial⟩
  | cons first rest ih =>
    obtain ⟨before, tail, rfl, later⟩ := inOrder
    exact ⟨before, tail ++ (gap ++ piece), by simp only [List.append_assoc], ih later⟩

theorem toLE_ofLE (bs : List UInt8) : toLE bs.length (ofLE bs) = bs := by
  induction bs with
  | nil => rfl
  | cons b bs ih =>
    have low := b.toNat_lt
    have quotient : (b.toNat + 256 * ofLE bs) / 256 = ofLE bs := by omega
    have first : UInt8.ofNat (b.toNat + 256 * ofLE bs) = b := by
      apply UInt8.toNat_inj.mp
      rw [UInt8.toNat_ofNat']
      omega
    simp only [ofLE, List.length_cons, toLE, quotient, first, ih]

theorem toLE_mod (w n : Nat) : toLE w (n % 256 ^ w) = toLE w n := by
  have round := toLE_ofLE (toLE w n)
  rwa [length_toLE, ofLE_toLE] at round

theorem ofLE_lt (bs : List UInt8) : ofLE bs < 256 ^ bs.length := by
  induction bs with
  | nil => simp [ofLE]
  | cons b bs ih =>
    have low := b.toNat_lt
    simp only [ofLE, List.length_cons, pow_succ]
    omega

theorem u32_round (x : UInt32) : UInt32.ofNat (ofLE (toLE 4 x.toNat)) = x := by
  rw [ofLE_toLE_of_lt (by simpa using x.toNat_lt), UInt32.ofNat_toNat]

theorem u64_round (x : UInt64) : UInt64.ofNat (ofLE (toLE 8 x.toNat)) = x := by
  rw [ofLE_toLE_of_lt (by simpa using x.toNat_lt), UInt64.ofNat_toNat]

theorem toLE_u32 {bs : List UInt8} (width : bs.length = 4) :
    toLE 4 (UInt32.ofNat (ofLE bs)).toNat = bs := by
  have small := ofLE_lt bs
  rw [width] at small
  rw [UInt32.toNat_ofNat', Nat.mod_eq_of_lt (show ofLE bs < 2 ^ 32 from small), ← width, toLE_ofLE]

/-- Eight bytes make a number that fits. -/
theorem toNat_u64 {bs : List UInt8} (width : bs.length = 8) :
    (UInt64.ofNat (ofLE bs)).toNat = ofLE bs := by
  have small := ofLE_lt bs
  rw [width] at small
  rw [UInt64.toNat_ofNat', Nat.mod_eq_of_lt (show ofLE bs < 2 ^ 64 from small)]

theorem toLE_u64 {bs : List UInt8} (width : bs.length = 8) :
    toLE 8 (UInt64.ofNat (ofLE bs)).toNat = bs := by
  rw [toNat_u64 width, ← width, toLE_ofLE]

abbrev Area := Nat → UInt8

def load (m : Area) : Nat → Nat → List UInt8
  | _, 0 => []
  | p, n + 1 => m p :: load m (p + 1) n

def store (m : Area) (p : Nat) (bs : List UInt8) : Area := fun i =>
  if p ≤ i then (bs[i - p]?).getD (m i) else m i

@[simp] theorem length_load (m : Area) (p n : Nat) : (load m p n).length = n := by
  induction n generalizing p with
  | zero => rfl
  | succ n ih => simp [load, ih]

theorem getElem?_load (m : Area) (p n i : Nat) :
    (load m p n)[i]? = if i < n then some (m (p + i)) else none := by
  induction n generalizing p i with
  | zero => simp [load]
  | succ n ih =>
    cases i with
    | zero => simp [load]
    | succ i =>
      have shift : p + 1 + i = p + (i + 1) := by omega
      simp [load, ih, shift]

theorem load_add (m : Area) (p a b : Nat) : load m p (a + b) = load m p a ++ load m (p + a) b := by
  induction a generalizing p with
  | zero => simp [load]
  | succ a ih =>
    have len : a + 1 + b = a + b + 1 := by omega
    have start : p + (a + 1) = p + 1 + a := by omega
    simp only [len, load, ih, start, List.cons_append]

theorem load_store_same (m : Area) (p : Nat) (bs : List UInt8) :
    load (store m p bs) p bs.length = bs := by
  apply List.ext_getElem?
  intro i
  rw [getElem?_load]
  by_cases inside : i < bs.length
  · simp [store, inside]
  · simp [inside]

theorem load_congr {m n : Area} {p len : Nat} (same : ∀ i, p ≤ i → i < p + len → m i = n i) :
    load m p len = load n p len := by
  induction len generalizing p with
  | zero => rfl
  | succ len ih =>
    simp only [load]
    rw [same p (Nat.le_refl p) (by omega), ih (fun i low high => same i (by omega) (by omega))]

theorem load_store_below (m : Area) (bs : List UInt8) {p n q : Nat} (below : p + n ≤ q) :
    load (store m q bs) p n = load m p n :=
  load_congr fun i _ high => by
    have outside : ¬ q ≤ i := by omega
    simp [store, outside]

/-- The area holds these bytes from this offset on. -/
def Laid (m : Area) (p : Nat) (bs : List UInt8) : Prop := load m p bs.length = bs

/-- A concatenation is laid out part by part, each after the ones before it. -/
theorem laid_append (m : Area) (p : Nat) (as bs : List UInt8) :
    Laid m p (as ++ bs) ↔ Laid m p as ∧ Laid m (p + as.length) bs := by
  unfold Laid
  rw [List.length_append, load_add]
  constructor
  · intro h
    exact List.append_inj h (length_load m p as.length)
  · rintro ⟨first, second⟩
    rw [first, second]

theorem laid_store (m : Area) (p : Nat) (bs : List UInt8) : Laid (store m p bs) p bs :=
  load_store_same m p bs

theorem laid_store_below (m : Area) (bs : List UInt8) {cs : List UInt8} {p q : Nat}
    (below : p + cs.length ≤ q) : Laid (store m q bs) p cs ↔ Laid m p cs := by
  unfold Laid
  rw [load_store_below m bs below]

theorem laid_iff (m : Area) (p : Nat) (bs : List UInt8) :
    Laid m p bs ↔ ∀ i b, bs[i]? = some b → m (p + i) = b := by
  unfold Laid
  constructor
  · intro laid i b found
    have inside := (List.getElem?_eq_some_iff.mp found).1
    rw [← laid, getElem?_load, if_pos inside] at found
    exact Option.some.inj found
  · intro same
    refine List.ext_getElem? fun i => ?_
    rw [getElem?_load]
    split
    · rename_i inside
      rw [same i _ (List.getElem?_eq_getElem inside), List.getElem?_eq_getElem inside]
    · rename_i outside
      rw [List.getElem?_eq_none (Nat.le_of_not_lt outside)]

theorem store_of_some (m : Area) {p i : Nat} {bs : List UInt8} {b : UInt8} (found : bs[i]? = some b) :
    store m p bs (p + i) = b := by
  rw [store, if_pos (Nat.le_add_right p i), Nat.add_sub_cancel_left, found]
  rfl

/-- What a store does to one byte: it is one of the bytes stored or is left as it was. -/
theorem store_cases (m : Area) (p : Nat) (bs : List UInt8) (i : Nat) :
    (∃ j b, i = p + j ∧ bs[j]? = some b ∧ store m p bs i = b) ∨
    ((∀ j, i = p + j → bs[j]? = none) ∧ store m p bs i = m i) := by
  by_cases after : p ≤ i
  · obtain ⟨j, rfl⟩ := Nat.exists_eq_add_of_le after
    cases found : bs[j]? with
    | some b => exact .inl ⟨j, b, rfl, found, store_of_some m found⟩
    | none =>
      refine .inr ⟨fun k same => Nat.add_left_cancel same ▸ found, ?_⟩
      rw [store, if_pos after, Nat.add_sub_cancel_left, found]
      rfl
  · refine .inr ⟨fun j same => absurd (same ▸ Nat.le_add_right p j) after, ?_⟩
    rw [store, if_neg after]

/-- The hexadecimal digits have characters of their own. -/
theorem digitChar_inj {m n : Nat} (small : m < 16) (less : n < 16) (same : m.digitChar = n.digitChar) :
    m = n := by
  have apart : ∀ m < 16, ∀ n < 16, m.digitChar = n.digitChar → m = n := by decide
  exact apart m small n less same

end Bytes
