import Hyperplane.Types.Dictionary

/-! The persistent dictionary of pubkey ids: a table on disk, a cache in memory
and a counter of its own for the next id. -/
namespace Hyperplane
open Maps Transition

/-- The last field records every id given to a pubkey, over all sessions of the
database, and is read by no operation. -/
structure PersistentPubkeyDictionary where
  table : Std.TreeMap Pubkey UInt64
  memoryCache : PubkeyDictionary
  nextId : UInt64
  given : List (Pubkey × UInt64)

namespace PersistentPubkeyDictionary

/-- A database that does not exist yet is created empty. -/
def created : PersistentPubkeyDictionary := ⟨∅, {}, 0, []⟩

/-- Opening the database again: only the table is on disk. -/
def reopen (self : PersistentPubkeyDictionary) : PersistentPubkeyDictionary :=
  { self with memoryCache := {}, nextId := 0 }

/-- The next id goes to the pubkey, in the table and in the cache. -/
def assign (self : PersistentPubkeyDictionary) (pubkey : Pubkey) : PersistentPubkeyDictionary where
  table := self.table.insert pubkey self.nextId
  memoryCache := (self.memoryCache.insert pubkey).2
  nextId := self.nextId + 1
  given := self.given ++ [(pubkey, self.nextId)]

def draw (self : PersistentPubkeyDictionary) (pubkey : Pubkey) : PersistentPubkeyDictionary :=
  { self with nextId := self.nextId + 1, given := self.given ++ [(pubkey, self.nextId)] }

def writeTable (self : PersistentPubkeyDictionary) (pubkey : Pubkey) (id : UInt64) :
    PersistentPubkeyDictionary :=
  { self with table := self.table.insert pubkey id }

/-- The cache gives the pubkey an id of its own counter. -/
def cacheInsert (self : PersistentPubkeyDictionary) (pubkey : Pubkey) : PersistentPubkeyDictionary :=
  { self with memoryCache := (self.memoryCache.insert pubkey).2 }

theorem assign_steps (self : PersistentPubkeyDictionary) (pubkey : Pubkey) :
    self.assign pubkey = ((self.draw pubkey).writeTable pubkey self.nextId).cacheInsert pubkey := rfl

def getOrCreateId (self : PersistentPubkeyDictionary) (pubkey : Pubkey) :
    UInt64 × PersistentPubkeyDictionary :=
  match self.memoryCache.getId pubkey with
  | some id => (id, self)
  | none => match self.table[pubkey]? with
    | some id => (id, self)
    | none => (self.nextId, self.assign pubkey)

def getId (self : PersistentPubkeyDictionary) (pubkey : Pubkey) : Option UInt64 :=
  match self.memoryCache.getId pubkey with
  | some id => some id
  | none => self.table[pubkey]?

def getPubkey (self : PersistentPubkeyDictionary) (id : UInt64) : Option Pubkey :=
  self.memoryCache.getPubkey id

/-- The table is not consulted. -/
def insertOne (self : PersistentPubkeyDictionary) (pubkey : Pubkey) : PersistentPubkeyDictionary :=
  if (self.memoryCache.getId pubkey).isNone then self.assign pubkey else self

def insertBatch (self : PersistentPubkeyDictionary) (pubkeys : List Pubkey) :
    List UInt64 × PersistentPubkeyDictionary :=
  let after := pubkeys.foldl insertOne self
  (pubkeys.filterMap after.memoryCache.getId, after)

end PersistentPubkeyDictionary

inductive DictionaryCall where
  | getOrCreateId (pubkey : Pubkey)
  | getId (pubkey : Pubkey)
  | insertBatch (pubkeys : List Pubkey)
  | reopen

namespace PersistentPubkeyDictionary

def step (self : PersistentPubkeyDictionary) : DictionaryCall → PersistentPubkeyDictionary
  | .getOrCreateId pubkey => (self.getOrCreateId pubkey).2
  | .getId _ => self
  | .insertBatch pubkeys => (self.insertBatch pubkeys).2
  | .reopen => self.reopen

/-- What a call returns, beside the pubkey it is returned for. -/
def answers (self : PersistentPubkeyDictionary) : DictionaryCall → List (Pubkey × Option UInt64)
  | .getOrCreateId pubkey => [(pubkey, some (self.getOrCreateId pubkey).1)]
  | .getId pubkey => [(pubkey, self.getId pubkey)]
  | .insertBatch pubkeys => pubkeys.zip ((self.insertBatch pubkeys).1.map some)
  | .reopen => []

/-- Every answer is the id the pubkey was given, and no id was given to two
pubkeys. -/
structure Permanent (before : PersistentPubkeyDictionary) (call : DictionaryCall)
    (after : PersistentPubkeyDictionary) : Prop where
  same : ∀ pubkey answer id, (pubkey, answer) ∈ before.answers call → (pubkey, id) ∈ after.given →
    answer = some id
  unique : ∀ a b id, (a, id) ∈ after.given → (b, id) ∈ after.given → a = b

/-- The next id is the pubkey's own in the table, or neither of the two is in
the table yet. -/
def FreshDraw (self : PersistentPubkeyDictionary) (pubkey : Pubkey) : Prop :=
  self.table[pubkey]? = some self.nextId ∨
    (self.table[pubkey]? = none ∧ ∀ other : Pubkey, self.table[other]? ≠ some self.nextId)

def BatchFresh : PersistentPubkeyDictionary → List Pubkey → Prop
  | _, [] => True
  | self, pubkey :: rest =>
    (self.memoryCache.getId pubkey = none → FreshDraw self pubkey) ∧
      BatchFresh (self.insertOne pubkey) rest

/-- Whenever the call draws the next id for a pubkey. -/
def DrawsFresh (self : PersistentPubkeyDictionary) : DictionaryCall → Prop
  | .getOrCreateId pubkey =>
    self.memoryCache.getId pubkey = none → self.table[pubkey]? = none → FreshDraw self pubkey
  | .insertBatch pubkeys => BatchFresh self pubkeys
  | _ => True

/-- The table holds exactly the ids given, the cache is a part of it, and both
counters agree. -/
structure Consistent (dict : PersistentPubkeyDictionary) : Prop where
  counter : dict.memoryCache.nextId = dict.nextId
  cached : ∀ (pubkey : Pubkey) (id : UInt64), dict.memoryCache.getId pubkey = some id →
    dict.table[pubkey]? = some id
  given_iff : ∀ (pubkey : Pubkey) (id : UInt64), (pubkey, id) ∈ dict.given ↔ dict.table[pubkey]? = some id
  injective : ∀ (a b : Pubkey) (id : UInt64), dict.table[a]? = some id → dict.table[b]? = some id → a = b

theorem created_consistent : Consistent created where
  counter := rfl
  cached := by simp [created, PubkeyDictionary.getId]
  given_iff := by simp [created]
  injective := by simp [created]

theorem Consistent.reopen {self : PersistentPubkeyDictionary} (h : Consistent self) :
    Consistent self.reopen where
  counter := rfl
  cached := by simp [PersistentPubkeyDictionary.reopen, PubkeyDictionary.getId]
  given_iff := h.given_iff
  injective := h.injective

theorem writeTable_table (self : PersistentPubkeyDictionary) (pubkey other : Pubkey) (id : UInt64) :
    (self.writeTable pubkey id).table[other]? =
      if other = pubkey then some id else self.table[other]? :=
  getElem?_insert_ite self.table pubkey other id

theorem cacheInsert_cached {self : PersistentPubkeyDictionary} {pubkey : Pubkey}
    (absent : self.memoryCache.getId pubkey = none) (other : Pubkey) :
    (self.cacheInsert pubkey).memoryCache.getId other =
      if other = pubkey then some self.memoryCache.nextId else self.memoryCache.getId other :=
  PubkeyDictionary.getId_insert absent other

theorem assign_cached {self : PersistentPubkeyDictionary} {pubkey : Pubkey}
    (counter : self.memoryCache.nextId = self.nextId)
    (absent : self.memoryCache.getId pubkey = none) (other : Pubkey) :
    (self.assign pubkey).memoryCache.getId other =
      if other = pubkey then some self.nextId else self.memoryCache.getId other := by
  rw [← counter]
  exact @cacheInsert_cached ((self.draw pubkey).writeTable pubkey self.nextId) pubkey absent other

theorem assign_table (self : PersistentPubkeyDictionary) (pubkey other : Pubkey) :
    (self.assign pubkey).table[other]? =
      if other = pubkey then some self.nextId else self.table[other]? :=
  writeTable_table (self.draw pubkey) pubkey other self.nextId

/-- An id that is drawn fresh is nobody else's in the table. -/
theorem Consistent.alone {self : PersistentPubkeyDictionary} {pubkey : Pubkey} (h : Consistent self)
    (fresh : FreshDraw self pubkey) (other : Pubkey) (known : self.table[other]? = some self.nextId) :
    other = pubkey := by
  rcases fresh with own | ⟨_, free⟩
  · exact h.injective other pubkey self.nextId known own
  · exact absurd known (free other)

theorem FreshDraw.own {self : PersistentPubkeyDictionary} {pubkey : Pubkey}
    (fresh : FreshDraw self pubkey) {id : UInt64} (known : self.table[pubkey]? = some id) :
    id = self.nextId := by
  rcases fresh with own | ⟨none, _⟩
  · exact Option.some.inj (known.symm.trans own)
  · rw [none] at known
    cases known

theorem Consistent.assign {self : PersistentPubkeyDictionary} {pubkey : Pubkey} (h : Consistent self)
    (absent : self.memoryCache.getId pubkey = none) (fresh : FreshDraw self pubkey) :
    Consistent (self.assign pubkey) := by
  constructor
  · have none := absent
    rw [PubkeyDictionary.getId] at none
    simp only [PersistentPubkeyDictionary.assign, PubkeyDictionary.insert, none, h.counter]
  · intro other id known
    rw [assign_cached h.counter absent] at known
    rw [assign_table]
    split at known
    · rename_i same
      rwa [if_pos same]
    · rename_i differs
      rw [if_neg differs]
      exact h.cached other id known
  · intro other id
    simp only [PersistentPubkeyDictionary.assign, List.mem_append, List.mem_singleton, Prod.mk.injEq]
    rw [h.given_iff]
    change _ ↔ (self.assign pubkey).table[other]? = some id
    rw [assign_table]
    by_cases same : other = pubkey
    · subst same
      rw [if_pos rfl, Option.some.injEq]
      constructor
      · rintro (known | ⟨_, rfl⟩)
        · exact (fresh.own known).symm
        · rfl
      · rintro rfl
        exact .inr ⟨rfl, rfl⟩
    · simp [same]
  · intro a b id first second
    rw [assign_table] at first second
    split at first <;> split at second
    · simp_all
    · rename_i here _
      cases first
      exact here.trans (h.alone fresh b second).symm
    · rename_i _ here
      cases second
      exact (h.alone fresh a first).trans here.symm
    · exact h.injective a b id first second

theorem Consistent.insertOne {self : PersistentPubkeyDictionary} {pubkey : Pubkey}
    (h : Consistent self)
    (fresh : self.memoryCache.getId pubkey = none → FreshDraw self pubkey) :
    Consistent (self.insertOne pubkey) := by
  unfold PersistentPubkeyDictionary.insertOne
  split
  · rename_i absent
    have none := Option.isNone_iff_eq_none.mp absent
    exact h.assign none (fresh none)
  · exact h

theorem Consistent.insertAll {self : PersistentPubkeyDictionary} {pubkeys : List Pubkey}
    (h : Consistent self) (fresh : BatchFresh self pubkeys) :
    Consistent (pubkeys.foldl PersistentPubkeyDictionary.insertOne self) := by
  induction pubkeys generalizing self with
  | nil => exact h
  | cons pubkey rest ih => exact ih (h.insertOne fresh.1) fresh.2

/-- Cached ids stay cached, and what was given stays given. -/
structure Extends (before after : PersistentPubkeyDictionary) : Prop where
  cached : ∀ pubkey id, before.memoryCache.getId pubkey = some id →
    after.memoryCache.getId pubkey = some id
  given : before.given ⊆ after.given
  counter : before.memoryCache.nextId = before.nextId → after.memoryCache.nextId = after.nextId

theorem extends_insertOne {self : PersistentPubkeyDictionary} (pubkey : Pubkey)
    (counter : self.memoryCache.nextId = self.nextId) : Extends self (self.insertOne pubkey) ∧
      ∃ id, (self.insertOne pubkey).memoryCache.getId pubkey = some id := by
  unfold insertOne
  split
  · rename_i absent
    have none := Option.isNone_iff_eq_none.mp absent
    refine ⟨⟨?_, ?_, ?_⟩, self.nextId, ?_⟩
    · intro other id known
      rw [assign_cached counter none, if_neg]
      · exact known
      · rintro rfl
        rw [none] at known
        cases known
    · exact List.subset_append_left _ _
    · intro _
      rw [PubkeyDictionary.getId] at none
      simp only [assign, PubkeyDictionary.insert, none, counter]
    · rw [assign_cached counter none, if_pos rfl]
  · rename_i present
    obtain ⟨id, known⟩ := Option.ne_none_iff_exists'.mp (mt Option.isNone_iff_eq_none.mpr present)
    exact ⟨⟨fun _ _ cached => cached, fun _ member => member, fun same => same⟩, id, known⟩

theorem extends_insertAll {self : PersistentPubkeyDictionary} (pubkeys : List Pubkey)
    (counter : self.memoryCache.nextId = self.nextId) :
    Extends self (pubkeys.foldl insertOne self) ∧
      ∀ pubkey ∈ pubkeys, ∃ id, (pubkeys.foldl insertOne self).memoryCache.getId pubkey = some id := by
  induction pubkeys generalizing self with
  | nil => exact ⟨⟨fun _ _ cached => cached, fun _ member => member, fun same => same⟩, by simp⟩
  | cons pubkey rest ih =>
    obtain ⟨first, id, known⟩ := extends_insertOne pubkey counter
    obtain ⟨later, others⟩ := ih (first.counter counter)
    refine ⟨⟨fun a i cached => later.cached a i (first.cached a i cached),
      List.Subset.trans first.given later.given, fun same => later.counter (first.counter same)⟩, ?_⟩
    intro other member
    rcases List.mem_cons.mp member with rfl | among
    · exact ⟨id, later.cached other id known⟩
    · exact others other among

/-- A batch returns the cached id of every pubkey, in order. -/
theorem filterMap_some {A B : Type} {f : A → Option B} {items : List A}
    (all : ∀ a ∈ items, ∃ b, f a = some b) : (items.filterMap f).map some = items.map f := by
  induction items with
  | nil => rfl
  | cons a rest ih =>
    obtain ⟨b, known⟩ := all a (by simp)
    have tail := ih fun c member => all c (List.mem_cons_of_mem a member)
    rw [List.filterMap_cons_some known, List.map_cons, tail, List.map_cons, known]

theorem answers_insertBatch {self : PersistentPubkeyDictionary} (pubkeys : List Pubkey)
    (counter : self.memoryCache.nextId = self.nextId) :
    self.answers (.insertBatch pubkeys) = pubkeys.map fun pubkey =>
      (pubkey, (pubkeys.foldl insertOne self).memoryCache.getId pubkey) := by
  simp only [answers, insertBatch, filterMap_some (extends_insertAll pubkeys counter).2]
  exact List.map_prod_left_eq_zip.symm

/-- An id drawn that is not fresh shows: the pubkey had another id, or another
pubkey has this one. -/
theorem broken_assign {self : PersistentPubkeyDictionary} {pubkey : Pubkey} (h : Consistent self)
    (stale : ¬ FreshDraw self pubkey) :
    (∃ id, (pubkey, id) ∈ self.given ∧ id ≠ self.nextId) ∨
      ∃ other, other ≠ pubkey ∧ (other, self.nextId) ∈ self.given := by
  cases known : self.table[pubkey]? with
  | some id =>
    refine .inl ⟨id, (h.given_iff pubkey id).mpr known, ?_⟩
    rintro rfl
    exact stale (.inl known)
  | none =>
    refine .inr ?_
    by_contra free
    refine stale (.inr ⟨known, ?_⟩)
    intro other taken
    refine free ⟨other, ?_, (h.given_iff other self.nextId).mpr taken⟩
    rintro rfl
    rw [known] at taken
    cases taken

/-- A batch with a draw that is not fresh leaves a pubkey of the batch with two
ids, or two pubkeys with one. -/
theorem broken_batch {self : PersistentPubkeyDictionary} {pubkeys : List Pubkey}
    (h : Consistent self) (stale : ¬ BatchFresh self pubkeys) :
    (∃ pubkey ∈ pubkeys, ∃ id old, (pubkeys.foldl insertOne self).memoryCache.getId pubkey = some id ∧
        (pubkey, old) ∈ (pubkeys.foldl insertOne self).given ∧ old ≠ id) ∨
      ∃ a b id, a ≠ b ∧ (a, id) ∈ (pubkeys.foldl insertOne self).given ∧
        (b, id) ∈ (pubkeys.foldl insertOne self).given := by
  induction pubkeys generalizing self with
  | nil => exact absurd trivial stale
  | cons pubkey rest ih =>
    by_cases fresh : self.memoryCache.getId pubkey = none → FreshDraw self pubkey
    · rcases ih (h.insertOne fresh) (fun later => stale ⟨fresh, later⟩) with ⟨other, member, two⟩ | shared
      · exact .inl ⟨other, List.mem_cons_of_mem pubkey member, two⟩
      · exact .inr shared
    · obtain ⟨absent, stale⟩ := Classical.not_imp.mp fresh
      have drawn : self.insertOne pubkey = self.assign pubkey :=
        if_pos (Option.isNone_iff_eq_none.mpr absent)
      obtain ⟨later, _⟩ := extends_insertAll rest
        ((extends_insertOne pubkey h.counter).1.counter h.counter)
      rw [List.foldl_cons]
      rw [drawn] at later ⊢
      have own : (self.assign pubkey).memoryCache.getId pubkey = some self.nextId := by
        rw [assign_cached h.counter absent, if_pos rfl]
      have earlier : self.given ⊆ (self.assign pubkey).given := List.subset_append_left _ _
      rcases broken_assign h stale with ⟨old, given, differs⟩ | ⟨other, differs, given⟩
      · exact .inl ⟨pubkey, by simp, self.nextId, old, later.cached _ _ own,
          later.given (earlier given), differs⟩
      · exact .inr ⟨other, pubkey, self.nextId, differs, later.given (earlier given),
          later.given (by simp [assign])⟩

theorem Consistent.step {self : PersistentPubkeyDictionary} {call : DictionaryCall}
    (h : Consistent self) (fresh : DrawsFresh self call) : Consistent (self.step call) := by
  cases call with
  | getOrCreateId pubkey =>
    simp only [PersistentPubkeyDictionary.step, getOrCreateId]
    split
    · exact h
    · rename_i absent
      split
      · exact h
      · rename_i none
        exact h.assign absent (fresh absent none)
  | getId pubkey => exact h
  | insertBatch pubkeys => exact h.insertAll fresh
  | reopen => exact h.reopen

/-- An answer is what the table holds after the call. -/
theorem answers_table {self : PersistentPubkeyDictionary} {call : DictionaryCall}
    (h : Consistent self) (fresh : DrawsFresh self call) {pubkey : Pubkey} {answer : Option UInt64}
    (answered : (pubkey, answer) ∈ self.answers call) : answer = (self.step call).table[pubkey]? := by
  cases call with
  | getOrCreateId asked =>
    cases List.mem_singleton.mp answered
    simp only [PersistentPubkeyDictionary.step, getOrCreateId]
    cases cached : self.memoryCache.getId pubkey with
    | some id => exact (h.cached pubkey id cached).symm
    | none =>
      cases known : self.table[pubkey]? with
      | some id => exact known.symm
      | none => rw [assign_table, if_pos rfl]
  | getId asked =>
    cases List.mem_singleton.mp answered
    simp only [PersistentPubkeyDictionary.step, getId]
    cases cached : self.memoryCache.getId pubkey with
    | some id => exact (h.cached pubkey id cached).symm
    | none => rfl
  | insertBatch pubkeys =>
    rw [answers_insertBatch pubkeys h.counter] at answered
    obtain ⟨asked, member, same⟩ := List.mem_map.mp answered
    cases same
    obtain ⟨id, cached⟩ := (extends_insertAll pubkeys h.counter).2 pubkey member
    rw [cached]
    exact ((h.insertAll fresh).cached pubkey id cached).symm
  | reopen => cases answered

theorem permanent_iff {self : PersistentPubkeyDictionary} {call : DictionaryCall}
    (h : Consistent self) : Permanent self call (self.step call) ↔ DrawsFresh self call := by
  constructor
  · rintro ⟨same, unique⟩
    by_contra stale
    cases call with
    | getOrCreateId pubkey =>
      obtain ⟨absent, stale⟩ := Classical.not_imp.mp stale
      obtain ⟨none, stale⟩ := Classical.not_imp.mp stale
      simp only [PersistentPubkeyDictionary.step, getOrCreateId, absent, none] at unique
      rcases broken_assign h stale with ⟨id, given, _⟩ | ⟨other, differs, given⟩
      · rw [h.given_iff, none] at given
        cases given
      · exact differs (unique other pubkey self.nextId (List.mem_append_left _ given) (by simp [assign]))
    | insertBatch pubkeys =>
      rcases broken_batch h stale with ⟨pubkey, member, id, old, cached, given, differs⟩ |
        ⟨a, b, id, differs, first, second⟩
      · have answered : (pubkey, some id) ∈ self.answers (.insertBatch pubkeys) := by
          rw [answers_insertBatch pubkeys h.counter, ← cached]
          exact List.mem_map.mpr ⟨pubkey, member, rfl⟩
        exact differs (Option.some.inj (same pubkey (some id) old answered given)).symm
      · exact differs (unique a b id first second)
    | getId pubkey => exact stale trivial
    | reopen => exact stale trivial
  · intro fresh
    have after := h.step fresh
    constructor
    · intro pubkey answer id answered given
      rw [answers_table h fresh answered]
      exact (after.given_iff pubkey id).mp given
    · intro a b id first second
      exact after.injective a b id ((after.given_iff a id).mp first) ((after.given_iff b id).mp second)

/-- In every run ids are permanent and unique exactly as long as each id that is
drawn is fresh in the table. -/
theorem ids_permanent_iff (calls : List DictionaryCall) :
    Along (ofFun step) Permanent created calls ↔
      Along (ofFun step) (fun self call _ => DrawsFresh self call) created calls := by
  refine along_ofFun_iff Consistent ?_ ?_ created_consistent calls
  · intro self call h
    exact permanent_iff h
  · intro self call h fresh
    exact h.step fresh

/-- After a re-open the counter starts at zero again. -/
theorem reopened_counter_repeats :
    let a : Pubkey := Vector.replicate 32 1
    let b : Pubkey := Vector.replicate 32 2
    ¬ Along (ofFun step) Permanent created [.getOrCreateId a, .reopen, .getOrCreateId b] := by
  intro a b permanent
  have last := (along_ofFun step Permanent created _).mp permanent [.getOrCreateId a, .reopen]
    (.getOrCreateId b) [] rfl
  have other : b ≠ a := by decide
  have absent : ((∅ : Std.TreeMap Pubkey UInt64).insert a 0)[b]? = none := by
    rw [getElem?_insert_ne _ other]
    rfl
  have given : ((created.step (.getOrCreateId a)).reopen.step (.getOrCreateId b)).given =
      [(a, 0), (b, 0)] := by
    simp [step, getOrCreateId, assign, reopen, created, PubkeyDictionary.getId, absent]
  exact other (last.unique b a 0 (given ▸ by simp) (given ▸ by simp))

end PersistentPubkeyDictionary

end Hyperplane
