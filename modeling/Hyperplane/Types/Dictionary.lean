import Mathlib.Algebra.Ring.Nat
import Hyperplane.Lib.Maps
import Hyperplane.Lib.Transition
import Hyperplane.Types.Account

/-! The dictionary of pubkey ids: two maps and the next id. -/
namespace Hyperplane
open Maps Transition

structure PubkeyDictionary where
  pubkeyToId : Std.TreeMap Pubkey UInt64 := ∅
  idToPubkey : Std.TreeMap UInt64 Pubkey := ∅
  nextId : UInt64 := 0

inductive DictionaryOperation where
  | insert (pubkey : Pubkey)
  | batchInsert (pubkeys : List Pubkey)
  | clear

namespace PubkeyDictionary

def getId (self : PubkeyDictionary) (pubkey : Pubkey) : Option UInt64 := self.pubkeyToId[pubkey]?

def getPubkey (self : PubkeyDictionary) (id : UInt64) : Option Pubkey := self.idToPubkey[id]?

def len (self : PubkeyDictionary) : Nat := self.pubkeyToId.size

def insert (self : PubkeyDictionary) (pubkey : Pubkey) : UInt64 × PubkeyDictionary :=
  match self.pubkeyToId[pubkey]? with
  | some id => (id, self)
  | none => (self.nextId, {
      pubkeyToId := self.pubkeyToId.insert pubkey self.nextId
      idToPubkey := self.idToPubkey.insert self.nextId pubkey
      nextId := self.nextId + 1 })

def batchInsert (self : PubkeyDictionary) : List Pubkey → List UInt64 × PubkeyDictionary
  | [] => ([], self)
  | pubkey :: rest =>
    let (id, next) := self.insert pubkey
    let (ids, after) := next.batchInsert rest
    (id :: ids, after)

def clear (_self : PubkeyDictionary) : PubkeyDictionary := ⟨∅, ∅, 0⟩

def fromIter (pubkeys : List Pubkey) : PubkeyDictionary :=
  pubkeys.foldl (fun dict pubkey => (dict.insert pubkey).2) {}

/-- The length of a hash map is a usize; growing past that panics. -/
def held (self : PubkeyDictionary) : Option PubkeyDictionary :=
  if self.len < 2 ^ 64 then some self else none

def apply (self : PubkeyDictionary) : DictionaryOperation → Option PubkeyDictionary
  | .insert pubkey => (self.insert pubkey).2.held
  | .batchInsert pubkeys => (self.batchInsert pubkeys).2.held
  | .clear => some self.clear

/-- The two maps are inverse to each other and the ids in use are those below
the length. -/
structure Dense (dict : PubkeyDictionary) : Prop where
  inverse : ∀ pubkey id, dict.getId pubkey = some id ↔ dict.getPubkey id = some pubkey
  range : ∀ id : UInt64, (∃ pubkey, dict.getId pubkey = some id) ↔ id.toNat < dict.len
  counter : dict.nextId.toNat = dict.len

/-- A dense dictionary that answers inserts with the ids it then reports; a
known pubkey changes nothing. -/
structure Exact (dict : PubkeyDictionary) : Prop extends Dense dict where
  known : ∀ pubkey id, dict.getId pubkey = some id → dict.insert pubkey = (id, dict)
  batch : ∀ pubkeys after, (dict.batchInsert pubkeys).2.held = some after →
    (dict.batchInsert pubkeys).1.map some = pubkeys.map after.getId

theorem held_eq_some {self dict : PubkeyDictionary} :
    self.held = some dict ↔ self = dict ∧ dict.len < 2 ^ 64 := by
  unfold held
  split
  · rename_i fits
    constructor
    · intro same
      cases same
      exact ⟨rfl, fits⟩
    · rintro ⟨rfl, _⟩
      rfl
  · rename_i full
    constructor
    · intro impossible
      cases impossible
    · rintro ⟨rfl, fits⟩
      exact absurd fits full

theorem insert_known {self : PubkeyDictionary} {pubkey : Pubkey} {id : UInt64}
    (known : self.getId pubkey = some id) : self.insert pubkey = (id, self) := by
  rw [getId] at known
  simp only [insert, known]

theorem insert_unknown {self : PubkeyDictionary} {pubkey : Pubkey}
    (absent : self.getId pubkey = none) : self.insert pubkey = (self.nextId, {
      pubkeyToId := self.pubkeyToId.insert pubkey self.nextId
      idToPubkey := self.idToPubkey.insert self.nextId pubkey
      nextId := self.nextId + 1 }) := by
  rw [getId] at absent
  simp only [insert, absent]

theorem getId_insert {self : PubkeyDictionary} {pubkey : Pubkey}
    (absent : self.getId pubkey = none) (other : Pubkey) :
    (self.insert pubkey).2.getId other =
      if other = pubkey then some self.nextId else self.getId other := by
  rw [insert_unknown absent]
  exact getElem?_insert_ite self.pubkeyToId pubkey other self.nextId

theorem getPubkey_insert {self : PubkeyDictionary} {pubkey : Pubkey}
    (absent : self.getId pubkey = none) (id : UInt64) :
    (self.insert pubkey).2.getPubkey id =
      if id = self.nextId then some pubkey else self.getPubkey id := by
  rw [insert_unknown absent]
  exact getElem?_insert_ite self.idToPubkey self.nextId id pubkey

/-- A free id leaves the two maps inverse to each other. -/
theorem inverse_insert {self : PubkeyDictionary} {pubkey : Pubkey} (absent : self.getId pubkey = none)
    (free : ∀ other, self.getId other ≠ some self.nextId)
    (inverse : ∀ other id, self.getId other = some id ↔ self.getPubkey id = some other)
    (other : Pubkey) (id : UInt64) :
    (self.insert pubkey).2.getId other = some id ↔ (self.insert pubkey).2.getPubkey id = some other := by
  rw [getId_insert absent, getPubkey_insert absent]
  split
  · rename_i same
    subst same
    split
    · rename_i here
      simp [here]
    · rename_i away
      rw [← inverse, absent]
      simp [Ne.symm away]
  · rename_i differs
    split
    · rename_i here
      subst here
      simp [free other, Ne.symm differs]
    · exact inverse other id

theorem len_insert {self : PubkeyDictionary} {pubkey : Pubkey}
    (absent : self.getId pubkey = none) : (self.insert pubkey).2.len = self.len + 1 := by
  have missing : ¬ self.pubkeyToId.contains pubkey = true := by
    rw [getId] at absent
    rw [Std.TreeMap.contains_eq_isSome_getElem?, absent]
    exact Bool.false_ne_true
  rw [insert_unknown absent]
  exact Std.TreeMap.size_insert.trans (if_neg missing)

/-- What an insert reports afterwards, for the pubkey and for the others. -/
theorem insert_keeps (self : PubkeyDictionary) {pubkey other : Pubkey} {id : UInt64}
    (known : self.getId other = some id) : (self.insert pubkey).2.getId other = some id := by
  cases present : self.getId pubkey with
  | some old =>
    rw [insert_known present]
    exact known
  | none =>
    rw [getId_insert present, if_neg]
    · exact known
    · rintro rfl
      rw [present] at known
      cases known

theorem insert_reports (self : PubkeyDictionary) (pubkey : Pubkey) :
    (self.insert pubkey).2.getId pubkey = some (self.insert pubkey).1 := by
  cases present : self.getId pubkey with
  | some old =>
    rw [insert_known present]
    exact present
  | none => rw [getId_insert present, if_pos rfl, insert_unknown present]

theorem len_le_insert (self : PubkeyDictionary) (pubkey : Pubkey) :
    self.len ≤ (self.insert pubkey).2.len := by
  cases present : self.getId pubkey with
  | some old =>
    rw [insert_known present]
  | none =>
    rw [len_insert present]
    exact Nat.le_succ _

theorem batchInsert_state (self : PubkeyDictionary) (pubkeys : List Pubkey) :
    (self.batchInsert pubkeys).2 = pubkeys.foldl (fun dict pubkey => (dict.insert pubkey).2) self := by
  induction pubkeys generalizing self with
  | nil => rfl
  | cons pubkey rest ih => exact ih (self.insert pubkey).2

theorem batchInsert_keeps (self : PubkeyDictionary) (pubkeys : List Pubkey) {other : Pubkey}
    {id : UInt64} (known : self.getId other = some id) :
    (self.batchInsert pubkeys).2.getId other = some id := by
  induction pubkeys generalizing self with
  | nil => exact known
  | cons pubkey rest ih => exact ih (self.insert pubkey).2 (self.insert_keeps known)

theorem len_le_batchInsert (self : PubkeyDictionary) (pubkeys : List Pubkey) :
    self.len ≤ (self.batchInsert pubkeys).2.len := by
  induction pubkeys generalizing self with
  | nil => exact Nat.le_refl _
  | cons pubkey rest ih => exact Nat.le_trans (self.len_le_insert pubkey) (ih _)

/-- Later inserts of a batch leave the ids of the earlier ones. -/
theorem batchInsert_reports (self : PubkeyDictionary) (pubkeys : List Pubkey) :
    (self.batchInsert pubkeys).1.map some = pubkeys.map (self.batchInsert pubkeys).2.getId := by
  induction pubkeys generalizing self with
  | nil => rfl
  | cons pubkey rest ih =>
    have first := batchInsert_keeps (self.insert pubkey).2 rest (self.insert_reports pubkey)
    have later := ih (self.insert pubkey).2
    simp only [batchInsert, List.map_cons, first, later]

theorem dense_empty : Dense {} where
  inverse := by simp [getId, getPubkey]
  range := by simp [getId, len]
  counter := rfl

theorem Dense.fresh {self : PubkeyDictionary} (h : Dense self) (pubkey : Pubkey) :
    self.getId pubkey ≠ some self.nextId := by
  intro taken
  have below := (h.range self.nextId).mp ⟨pubkey, taken⟩
  have counter := h.counter
  omega

theorem Dense.insert {self : PubkeyDictionary} (h : Dense self) (pubkey : Pubkey)
    (fits : (self.insert pubkey).2.len < 2 ^ 64) : Dense (self.insert pubkey).2 := by
  cases present : self.getId pubkey with
  | some id =>
    rw [insert_known present]
    exact h
  | none =>
    have length := len_insert present
    have counter := h.counter
    have next : (self.nextId + 1).toNat = self.nextId.toNat + 1 := by
      rw [UInt64.toNat_add]
      exact Nat.mod_eq_of_lt (by rw [UInt64.toNat_one]; omega)
    constructor
    · exact inverse_insert present h.fresh h.inverse
    · intro id
      rw [length]
      constructor
      · rintro ⟨other, known⟩
        rw [getId_insert present] at known
        split at known
        · cases known
          omega
        · have below := (h.range id).mp ⟨other, known⟩
          omega
      · intro below
        by_cases last : id = self.nextId
        · exact ⟨pubkey, by rw [getId_insert present, if_pos rfl, last]⟩
        · have differs : id.toNat ≠ self.nextId.toNat := fun same => last (UInt64.toNat_inj.mp same)
          obtain ⟨other, known⟩ := (h.range id).mpr (by omega)
          exact ⟨other, self.insert_keeps known⟩
    · rw [length, insert_unknown present]
      exact next.trans (congrArg (· + 1) counter)

theorem Dense.batchInsert {self : PubkeyDictionary} (h : Dense self) (pubkeys : List Pubkey)
    (fits : (self.batchInsert pubkeys).2.len < 2 ^ 64) : Dense (self.batchInsert pubkeys).2 := by
  induction pubkeys generalizing self with
  | nil => exact h
  | cons pubkey rest ih =>
    have first := len_le_batchInsert (self.insert pubkey).2 rest
    exact ih (h.insert pubkey (Nat.lt_of_le_of_lt first fits)) fits

theorem Dense.apply {self dict : PubkeyDictionary} (h : Dense self) {op : DictionaryOperation}
    (taken : self.apply op = some dict) : Dense dict := by
  cases op with
  | insert pubkey =>
    obtain ⟨rfl, fits⟩ := held_eq_some.mp taken
    exact h.insert pubkey fits
  | batchInsert pubkeys =>
    obtain ⟨rfl, fits⟩ := held_eq_some.mp taken
    exact h.batchInsert pubkeys fits
  | clear =>
    cases taken
    exact dense_empty

theorem Dense.exact {self : PubkeyDictionary} (h : Dense self) : Exact self where
  toDense := h
  known _ _ := insert_known
  batch pubkeys after held := by
    obtain ⟨rfl, _⟩ := held_eq_some.mp held
    exact self.batchInsert_reports pubkeys

/-- From a dictionary collected from any list of pubkeys, the empty one
included, every run of operations leads to an exact dictionary. -/
theorem dictionary_exact {pubkeys : List Pubkey} {operations : List DictionaryOperation}
    {start dict : PubkeyDictionary} (collected : (fromIter pubkeys).held = some start)
    (ran : Run (ofPartial apply) start operations dict) : Exact dict := by
  obtain ⟨rfl, fits⟩ := held_eq_some.mp collected
  have initial : Dense (fromIter pubkeys) := by
    rw [fromIter, ← batchInsert_state] at fits ⊢
    exact dense_empty.batchInsert pubkeys fits
  exact (run_invariant Dense (fun _ _ _ h taken => h.apply taken) initial ran).exact

theorem dictionary_exact_example :
    let a : Pubkey := Vector.replicate 32 1
    let b : Pubkey := Vector.replicate 32 2
    Exact ((fromIter [a]).batchInsert [a, b, b]).2 := by
  intro a b
  have fits : ((fromIter [a]).batchInsert [a, b, b]).2.len < 2 ^ 64 := by decide +kernel
  have first : (fromIter [a]).len < 2 ^ 64 := by decide +kernel
  have ran : Run (ofPartial apply) (fromIter [a]) [.batchInsert [a, b, b]]
      ((fromIter [a]).batchInsert [a, b, b]).2 := ⟨_, held_eq_some.mpr ⟨rfl, fits⟩, rfl⟩
  exact dictionary_exact (held_eq_some.mpr ⟨rfl, first⟩) ran

end PubkeyDictionary

end Hyperplane
