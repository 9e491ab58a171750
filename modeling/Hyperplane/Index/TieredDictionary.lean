import Hyperplane.Lib.Maps

/-! The dictionary in three tiers: entries begin hot and are demoted one tier
at a time. -/
namespace Hyperplane
open Maps

inductive DictTier where
  | l1Hot
  | l2Warm
  | l3Cold

/-- The first account id can always be read. -/
structure DictEntry where
  key : UInt64
  accountIds : List UInt32
  tier : DictTier
  accessCount : UInt64
  lastAccessSlot : UInt64
  occupied : accountIds ≠ []

namespace DictEntry

def new (key : UInt64) (accountId : UInt32) (slot : UInt64) : DictEntry :=
  ⟨key, [accountId], .l1Hot, 1, slot, List.cons_ne_nil _ _⟩

def access (entry : DictEntry) (slot : UInt64) : DictEntry :=
  { entry with accessCount := entry.accessCount + 1, lastAccessSlot := slot }

def addAccount (entry : DictEntry) (accountId : UInt32) : DictEntry :=
  if accountId ∈ entry.accountIds then entry
  else { entry with
    accountIds := entry.accountIds ++ [accountId]
    occupied := List.append_ne_nil_of_right_ne_nil _ (List.cons_ne_nil _ _) }

def counted (entry : DictEntry) : DictEntry := { entry with accessCount := entry.accessCount + 1 }

def first (entry : DictEntry) : UInt32 := entry.accountIds.head entry.occupied

theorem mem_addAccount (entry : DictEntry) (accountId other : UInt32) :
    other ∈ (entry.addAccount accountId).accountIds ↔ other = accountId ∨ other ∈ entry.accountIds := by
  unfold addAccount
  split
  · rename_i known
    exact ⟨.inr, fun h => h.elim (fun same => same ▸ known) id⟩
  · simp [or_comm]

theorem first_mem (entry : DictEntry) : entry.first ∈ entry.accountIds := List.head_mem entry.occupied

end DictEntry

abbrev DictEntries := Std.TreeMap UInt64 DictEntry

namespace DictEntries

/-- The tiers insert alike, but make room for a new key each in its own way. -/
def insert (makeRoom : DictEntries → DictEntries) (entries : DictEntries) (key : UInt64)
    (accountId : UInt32) (slot : UInt64) : DictEntry × DictEntries :=
  match entries[key]? with
  | some entry =>
    let touched := (entry.access slot).addAccount accountId
    (touched, Std.TreeMap.insert entries key touched)
  | none =>
    let entry := DictEntry.new key accountId slot
    (entry, Std.TreeMap.insert (makeRoom entries) key entry)

def get (entries : DictEntries) (key : UInt64) : Option DictEntry × DictEntries :=
  match entries[key]? with
  | some entry => (some entry.counted, Std.TreeMap.insert entries key entry.counted)
  | none => (none, entries)

def listed (entries : DictEntries) (key : UInt64) : List UInt32 :=
  (entries[key]?.map (·.accountIds)).getD []

theorem listed_some {entries : DictEntries} {key : UInt64} {entry : DictEntry}
    (found : entries[key]? = some entry) : listed entries key = entry.accountIds := by
  simp [listed, found]

theorem listed_none {entries : DictEntries} {key : UInt64} (absent : entries[key]? = none) :
    listed entries key = [] := by
  simp [listed, absent]

theorem listed_eq_nil_iff (entries : DictEntries) (key : UInt64) :
    listed entries key = [] ↔ entries[key]? = none := by
  cases found : entries[key]? with
  | none => simp [listed_none found]
  | some entry => simp [listed_some found, entry.occupied]

theorem head?_listed (entries : DictEntries) (key : UInt64) :
    (listed entries key).head? = entries[key]?.map DictEntry.first := by
  cases found : entries[key]? with
  | none => simp [listed_none found]
  | some entry => simp [listed_some found, DictEntry.first, List.head?_eq_some_head entry.occupied]

theorem mem_listed_insert {makeRoom : DictEntries → DictEntries} {entries : DictEntries} {key : UInt64}
    (room : entries[key]? = none → makeRoom entries = entries) (accountId : UInt32) (slot other : UInt64)
    (id : UInt32) : id ∈ listed (insert makeRoom entries key accountId slot).2 other ↔
      (other = key ∧ id = accountId) ∨ id ∈ listed entries other := by
  by_cases same : other = key
  · subst same
    unfold insert
    cases found : entries[other]? with
    | none => simp [listed, found, DictEntry.new]
    | some entry => simp [listed, found, DictEntry.mem_addAccount, DictEntry.access]
  · unfold insert
    cases found : entries[key]? with
    | none => simp [listed, room found, getElem?_insert_ne _ same, same]
    | some entry => simp [listed, getElem?_insert_ne _ same, same]

@[simp] theorem listed_get (entries : DictEntries) (key other : UInt64) :
    listed (get entries key).2 other = listed entries other := by
  unfold get
  cases found : entries[key]? with
  | none => rfl
  | some entry =>
    by_cases same : other = key
    · simp [listed, same, found, DictEntry.counted]
    · simp [listed, getElem?_insert_ne _ same]

theorem listed_erase (entries : DictEntries) (key other : UInt64) :
    listed (entries.erase key) other = if other = key then [] else listed entries other := by
  rw [listed, getElem?_erase_ite]
  split <;> rfl

end DictEntries

structure L1HotDict where
  entries : DictEntries
  maxSize : Nat

namespace L1HotDict

def new (maxSize : Nat) : L1HotDict := ⟨∅, maxSize⟩

def makeRoom (maxSize : Nat) (entries : DictEntries) : DictEntries :=
  if maxSize ≤ entries.size then entries.filter fun _ entry => 0 < entry.accessCount else entries

def insert (dict : L1HotDict) (key : UInt64) (accountId : UInt32) (slot : UInt64) :
    Option DictEntry × L1HotDict :=
  let (entry, entries) := DictEntries.insert (makeRoom dict.maxSize) dict.entries key accountId slot
  (some entry, { dict with entries := entries })

def get (dict : L1HotDict) (key : UInt64) : Option DictEntry × L1HotDict :=
  let (found, entries) := DictEntries.get dict.entries key
  (found, { dict with entries := entries })

def remove (dict : L1HotDict) (key : UInt64) : Option DictEntry × L1HotDict :=
  (dict.entries[key]?, { dict with entries := dict.entries.erase key })

end L1HotDict

structure L2WarmDict where
  entries : DictEntries
  maxSize : Nat

namespace L2WarmDict

def new (maxSize : Nat) : L2WarmDict := ⟨∅, maxSize⟩

/-- The smallest key goes. -/
def makeRoom (maxSize : Nat) (entries : DictEntries) : DictEntries :=
  if maxSize ≤ entries.size then
    match entries.minKey? with
    | some key => entries.erase key
    | none => entries
  else entries

def insert (dict : L2WarmDict) (key : UInt64) (accountId : UInt32) (slot : UInt64) : L2WarmDict :=
  { dict with entries := (DictEntries.insert (makeRoom dict.maxSize) dict.entries key accountId slot).2 }

def get (dict : L2WarmDict) (key : UInt64) : Option DictEntry × L2WarmDict :=
  let (found, entries) := DictEntries.get dict.entries key
  (found, { dict with entries := entries })

end L2WarmDict

/-- Nothing is written to disk: the cache is all there is. -/
structure L3ColdDict where
  cache : DictEntries

namespace L3ColdDict

def new : L3ColdDict := ⟨∅⟩

def insert (dict : L3ColdDict) (key : UInt64) (accountId : UInt32) (slot : UInt64) : L3ColdDict :=
  ⟨(DictEntries.insert id dict.cache key accountId slot).2⟩

def get (dict : L3ColdDict) (key : UInt64) : Option DictEntry × L3ColdDict :=
  let (found, cache) := DictEntries.get dict.cache key
  (found, ⟨cache⟩)

end L3ColdDict

structure TieredDictionary where
  l1 : L1HotDict
  l2 : L2WarmDict
  l3 : L3ColdDict
  currentSlot : UInt64

namespace TieredDictionary
open DictEntries

def new (l1Size l2Size : Nat) : TieredDictionary := ⟨.new l1Size, .new l2Size, .new, 0⟩

def insert (dict : TieredDictionary) (key : UInt64) (accountId : UInt32) : TieredDictionary :=
  { dict with l1 := (dict.l1.insert key accountId dict.currentSlot).2 }

/-- An entry found in the second tier is promoted, with its first account id. -/
def get (dict : TieredDictionary) (key : UInt64) : Option DictEntry × TieredDictionary :=
  match dict.l1.get key with
  | (some entry, l1) => (some entry, { dict with l1 := l1 })
  | (none, l1) => match dict.l2.get key with
    | (some entry, l2) => (some entry, { dict with
        l1 := (l1.insert key entry.first entry.lastAccessSlot).2
        l2 := l2 })
    | (none, l2) =>
      let (found, l3) := dict.l3.get key
      (found, { dict with l1 := l1, l2 := l2, l3 := l3 })

def demoteL1ToL2 (dict : TieredDictionary) (key : UInt64) : TieredDictionary :=
  match dict.l1.remove key with
  | (some entry, l1) => { dict with
      l1 := l1
      l2 := dict.l2.insert key entry.first entry.lastAccessSlot }
  | (none, l1) => { dict with l1 := l1 }

/-- The entry stays in the second tier, and is inserted twice into the third. -/
def demoteL2ToL3 (dict : TieredDictionary) (key : UInt64) : TieredDictionary :=
  match dict.l2.get key with
  | (some entry, l2) => { dict with
      l2 := l2
      l3 := (dict.l3.insert key entry.first entry.lastAccessSlot).insert key entry.first
        entry.lastAccessSlot }
  | (none, l2) => { dict with l2 := l2 }

def updateSlot (dict : TieredDictionary) (slot : UInt64) : TieredDictionary :=
  { dict with currentSlot := slot }

def hot (dict : TieredDictionary) (key : UInt64) : List UInt32 := listed dict.l1.entries key

def warm (dict : TieredDictionary) (key : UInt64) : List UInt32 := listed dict.l2.entries key

def cold (dict : TieredDictionary) (key : UInt64) : List UInt32 := listed dict.l3.cache key

/-- Neither of the first two tiers has to make room for the key. -/
structure Roomy (dict : TieredDictionary) (key : UInt64) : Prop where
  l1 : dict.l1.entries[key]? = none → L1HotDict.makeRoom dict.l1.maxSize dict.l1.entries = dict.l1.entries
  l2 : dict.l2.entries[key]? = none → L2WarmDict.makeRoom dict.l2.maxSize dict.l2.entries = dict.l2.entries

theorem mem_hot_insert {dict : TieredDictionary} {key : UInt64} (room : dict.Roomy key)
    (accountId id : UInt32) (other : UInt64) : id ∈ (dict.insert key accountId).hot other ↔
      (other = key ∧ id = accountId) ∨ id ∈ dict.hot other :=
  mem_listed_insert room.l1 accountId dict.currentSlot other id

theorem hot_insert_eq_nil_iff {dict : TieredDictionary} {key : UInt64} (room : dict.Roomy key)
    (accountId : UInt32) (other : UInt64) :
    (dict.insert key accountId).hot other = [] ↔ other ≠ key ∧ dict.hot other = [] := by
  simp only [List.eq_nil_iff_forall_not_mem, mem_hot_insert room, not_or, forall_and]
  simp

theorem warm_insert (dict : TieredDictionary) (key other : UInt64) (accountId : UInt32) :
    (dict.insert key accountId).warm other = dict.warm other := rfl

theorem hot_demoteL1ToL2 (dict : TieredDictionary) (key other : UInt64) :
    (dict.demoteL1ToL2 key).hot other = if other = key then [] else dict.hot other := by
  unfold demoteL1ToL2 L1HotDict.remove
  cases dict.l1.entries[key]? with
  | none => exact listed_erase dict.l1.entries key other
  | some entry => exact listed_erase dict.l1.entries key other

/-- Only the first id comes along. -/
theorem mem_warm_demoteL1ToL2 {dict : TieredDictionary} {key : UInt64}
    (room : dict.hot key ≠ [] → dict.Roomy key) (other : UInt64) (id : UInt32) :
    id ∈ (dict.demoteL1ToL2 key).warm other ↔
      (other = key ∧ (dict.hot key).head? = some id) ∨ id ∈ dict.warm other := by
  rw [hot, head?_listed]
  cases found : dict.l1.entries[key]? with
  | none => simp [demoteL1ToL2, L1HotDict.remove, found, warm]
  | some entry =>
    have present : dict.hot key ≠ [] := by simp [hot, listed_some found, entry.occupied]
    have inserted := mem_listed_insert (room present).l2 entry.first entry.lastAccessSlot other id
    simpa [demoteL1ToL2, L1HotDict.remove, found, warm, L2WarmDict.insert, eq_comm] using inserted

theorem cold_demoteL1ToL2 (dict : TieredDictionary) (key other : UInt64) :
    (dict.demoteL1ToL2 key).cold other = dict.cold other := by
  unfold demoteL1ToL2 L1HotDict.remove
  cases dict.l1.entries[key]? <;> rfl

theorem hot_demoteL2ToL3 (dict : TieredDictionary) (key other : UInt64) :
    (dict.demoteL2ToL3 key).hot other = dict.hot other := by
  unfold demoteL2ToL3 L2WarmDict.get DictEntries.get
  cases dict.l2.entries[key]? <;> rfl

theorem warm_demoteL2ToL3 (dict : TieredDictionary) (key other : UInt64) :
    (dict.demoteL2ToL3 key).warm other = dict.warm other := by
  refine Eq.trans ?_ (listed_get dict.l2.entries key other)
  unfold demoteL2ToL3 L2WarmDict.get DictEntries.get
  cases dict.l2.entries[key]? <;> rfl

theorem mem_cold_demoteL2ToL3 (dict : TieredDictionary) (key other : UInt64) (id : UInt32) :
    id ∈ (dict.demoteL2ToL3 key).cold other ↔
      (other = key ∧ (dict.warm key).head? = some id) ∨ id ∈ dict.cold other := by
  rw [warm, head?_listed]
  cases found : dict.l2.entries[key]? with
  | none => simp [demoteL2ToL3, L2WarmDict.get, DictEntries.get, found, cold]
  | some entry =>
    simp only [demoteL2ToL3, L2WarmDict.get, DictEntries.get, found, cold, L3ColdDict.insert]
    rw [mem_listed_insert (fun _ => rfl), mem_listed_insert (fun _ => rfl)]
    simp [DictEntry.first, DictEntry.counted, eq_comm]

/-- A lookup that finds the key in the second tier makes its first id hot. -/
theorem mem_hot_get {dict : TieredDictionary} {key : UInt64}
    (room : dict.warm key ≠ [] → dict.Roomy key) (other : UInt64) (id : UInt32) :
    id ∈ (dict.get key).2.hot other ↔
      (other = key ∧ dict.hot key = [] ∧ (dict.warm key).head? = some id) ∨ id ∈ dict.hot other := by
  have absent : dict.hot key = [] ↔ dict.l1.entries[key]? = none := listed_eq_nil_iff _ key
  rw [warm, head?_listed, absent]
  cases here : dict.l1.entries[key]? with
  | some entry =>
    have kept := listed_get dict.l1.entries key other
    simp only [DictEntries.get, here] at kept
    simp [get, L1HotDict.get, DictEntries.get, here, hot, kept]
  | none =>
    cases below : dict.l2.entries[key]? with
    | none => simp [get, L1HotDict.get, L2WarmDict.get, DictEntries.get, here, below, hot]
    | some entry =>
      have present : dict.warm key ≠ [] := by simp [warm, listed_some below, entry.occupied]
      have inserted := mem_listed_insert (room present).l1 entry.first entry.lastAccessSlot other id
      simpa [get, L1HotDict.get, L2WarmDict.get, DictEntries.get, here, below, hot, L1HotDict.insert,
        DictEntry.first, DictEntry.counted, eq_comm] using inserted

theorem hot_get_eq_nil_iff {dict : TieredDictionary} {key : UInt64}
    (room : dict.warm key ≠ [] → dict.Roomy key) (other : UInt64) :
    (dict.get key).2.hot other = [] ↔ dict.hot other = [] ∧ (other = key → dict.warm key = []) := by
  simp only [List.eq_nil_iff_forall_not_mem (l := (dict.get key).2.hot other), mem_hot_get room, not_or]
  constructor
  · intro none
    have notHot : dict.hot other = [] := List.eq_nil_iff_forall_not_mem.mpr fun id => (none id).2
    refine ⟨notHot, ?_⟩
    rintro rfl
    by_contra present
    exact (none _).1 ⟨rfl, notHot, List.head?_eq_some_head present⟩
  · rintro ⟨notHot, notWarm⟩ id
    constructor
    · rintro ⟨same, _, first⟩
      rw [notWarm same] at first
      cases first
    · simp [notHot]

theorem warm_get (dict : TieredDictionary) (key other : UInt64) :
    (dict.get key).2.warm other = dict.warm other := by
  have kept := listed_get dict.l2.entries key other
  unfold get L1HotDict.get DictEntries.get
  cases dict.l1.entries[key]? with
  | some entry => rfl
  | none =>
    refine Eq.trans ?_ kept
    unfold L2WarmDict.get DictEntries.get
    cases dict.l2.entries[key]? <;> rfl

theorem cold_get (dict : TieredDictionary) (key other : UInt64) :
    (dict.get key).2.cold other = dict.cold other := by
  have kept := listed_get dict.l3.cache key other
  unfold get L1HotDict.get DictEntries.get
  cases dict.l1.entries[key]? with
  | some entry => rfl
  | none =>
    unfold L2WarmDict.get DictEntries.get
    cases dict.l2.entries[key]? with
    | some entry => rfl
    | none => exact kept

/-- A lookup answers with the first tier that has the key. -/
theorem ids_get (dict : TieredDictionary) (key : UInt64) : (dict.get key).1.map (·.accountIds) =
    [dict.hot key, dict.warm key, dict.cold key].find? (· ≠ []) := by
  unfold get L1HotDict.get DictEntries.get
  cases here : dict.l1.entries[key]? with
  | some entry => simp [hot, listed_some here, DictEntry.counted, entry.occupied]
  | none =>
    unfold L2WarmDict.get DictEntries.get
    cases below : dict.l2.entries[key]? with
    | some entry => simp [hot, listed_none here, warm, listed_some below, DictEntry.counted, entry.occupied]
    | none =>
      unfold L3ColdDict.get DictEntries.get
      cases last : dict.l3.cache[key]? with
      | some entry =>
        simp [hot, listed_none here, warm, listed_none below, cold, listed_some last, DictEntry.counted,
          entry.occupied]
      | none => simp [hot, listed_none here, warm, listed_none below, cold, listed_none last]

/-- The ids a lookup finds: those of the first tier that has the key. -/
theorem get_finds (dict : TieredDictionary) (key : UInt64) (id : UInt32) :
    (∃ entry, (dict.get key).1 = some entry ∧ id ∈ entry.accountIds) ↔
      id ∈ dict.hot key ∨ (dict.hot key = [] ∧
        (id ∈ dict.warm key ∨ (dict.warm key = [] ∧ id ∈ dict.cold key))) := by
  have answer : (∃ entry, (dict.get key).1 = some entry ∧ id ∈ entry.accountIds) ↔
      ∃ ids, (dict.get key).1.map (·.accountIds) = some ids ∧ id ∈ ids := by
    simp [Option.map_eq_some_iff]
  rw [answer, ids_get]
  by_cases hot : dict.hot key = []
  · by_cases warm : dict.warm key = []
    · by_cases cold : dict.cold key = []
      · simp [hot, warm, cold]
      · simp [hot, warm, cold]
    · simp [hot, warm]
  · simp [hot]

/-- Whatever the first tier evicts, it has the promoted id under the key. -/
theorem hot_get_self (dict : TieredDictionary) (key : UInt64) : (dict.get key).2.hot key =
    if dict.hot key = [] then (dict.warm key).take 1 else dict.hot key := by
  have absent : dict.hot key = [] ↔ dict.l1.entries[key]? = none := listed_eq_nil_iff _ key
  cases here : dict.l1.entries[key]? with
  | some entry =>
    have kept := listed_get dict.l1.entries key key
    simp only [DictEntries.get, here] at kept
    rw [if_neg (by simp [absent, here])]
    simp [get, L1HotDict.get, DictEntries.get, here, hot, kept]
  | none =>
    rw [if_pos (absent.mpr here)]
    cases below : dict.l2.entries[key]? with
    | none =>
      simp [get, L1HotDict.get, L2WarmDict.get, DictEntries.get, here, below, hot, warm, listed_none here,
        listed_none below]
    | some entry =>
      have first : entry.accountIds.take 1 = [entry.first] := by
        rw [← List.cons_head_tail entry.occupied]
        rfl
      simp [get, L1HotDict.get, L2WarmDict.get, DictEntries.get, here, below, hot, warm, L1HotDict.insert,
        DictEntries.insert, listed, DictEntry.new, first, DictEntry.first, DictEntry.counted]

/-- Two lookups of a key in a row answer with the same ids. -/
def GetsAgree (dict : TieredDictionary) (key : UInt64) : Prop :=
  (dict.get key).1.map (·.accountIds) = ((dict.get key).2.get key).1.map (·.accountIds)

theorem getsAgree_iff (dict : TieredDictionary) (key : UInt64) :
    dict.GetsAgree key ↔ dict.hot key ≠ [] ∨ (dict.warm key).length ≤ 1 := by
  rw [GetsAgree, ids_get, ids_get, hot_get_self, warm_get, cold_get]
  by_cases present : dict.hot key = []
  · cases below : dict.warm key with
    | nil => simp [present]
    | cons first rest => cases rest <;> simp [present]
  · simp [present]

/-- The capacities never change. -/
def sizes (dict : TieredDictionary) : Nat × Nat := (dict.l1.maxSize, dict.l2.maxSize)

theorem sizes_demoteL1ToL2 (dict : TieredDictionary) (key : UInt64) :
    (dict.demoteL1ToL2 key).sizes = dict.sizes := by
  unfold demoteL1ToL2 L1HotDict.remove
  cases dict.l1.entries[key]? <;> rfl

theorem sizes_demoteL2ToL3 (dict : TieredDictionary) (key : UInt64) :
    (dict.demoteL2ToL3 key).sizes = dict.sizes := by
  unfold demoteL2ToL3 L2WarmDict.get DictEntries.get
  cases dict.l2.entries[key]? <;> rfl

theorem sizes_get (dict : TieredDictionary) (key : UInt64) : (dict.get key).2.sizes = dict.sizes := by
  unfold get L1HotDict.get DictEntries.get
  cases dict.l1.entries[key]? with
  | some entry => rfl
  | none =>
    unfold L2WarmDict.get DictEntries.get
    cases dict.l2.entries[key]? <;> rfl

end TieredDictionary

end Hyperplane
