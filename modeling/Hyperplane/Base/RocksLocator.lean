import Hyperplane.Lib.Maps
import Hyperplane.Base.LocationCodec

/-! The locator on disk: a table from pubkeys to persisted locations, written in
transactions on a storage that may fail at any operation. -/
namespace Hyperplane
open Maps Outcome

structure LocatorStats where
  reads : UInt64 := 0
  writes : UInt64 := 0
  batchWrites : UInt64 := 0

structure RocksLocator where
  table : Std.TreeMap Pubkey (List UInt8)
  stats : LocatorStats

/-- How one write transaction goes; the operations on its table are numbered. -/
structure RedbOutcome where
  beginWrite : Bool
  openTable : Bool
  operation : Nat → Bool
  commit : Bool

namespace RocksLocator

def get (self : RocksLocator) (pubkey : Pubkey) :
    Outcome LocatorError (Option AccountLocation) × RocksLocator :=
  match self.table[pubkey]? with
  | some value => match deserializeLocation value with
    | .ok location => (.ok (some location),
        { self with stats := { self.stats with reads := self.stats.reads + 1 } })
    | .error e => (.error e, self)
    | .fault => (.fault, self)
  | none => (.ok none, self)

/-- The table as a transaction leaves it. -/
def transact (self : RocksLocator) (redb : RedbOutcome)
    (change : Std.TreeMap Pubkey (List UInt8) → Outcome LocatorError (Std.TreeMap Pubkey (List UInt8))) :
    Outcome LocatorError (Std.TreeMap Pubkey (List UInt8)) :=
  if redb.beginWrite = false then .error .transactionError
  else if redb.openTable = false then .error .tableError
  else do
    let table ← change self.table
    if redb.commit = false then .error .commitError else .ok table

def insert (self : RocksLocator) (redb : RedbOutcome) (pubkey : Pubkey) (location : AccountLocation) :
    Outcome LocatorError Unit × RocksLocator :=
  let committed := self.transact redb fun table => do
    let bytes ← serializeLocation location
    if redb.operation 0 = false then .error .storageError else .ok (table.insert pubkey bytes)
  match committed with
  | .ok table => (.ok (), ⟨table, { self.stats with writes := self.stats.writes + 1 }⟩)
  | .error e => (.error e, self)
  | .fault => (.fault, self)

/-- The error of an insert is discarded. -/
def insertEach (operation : Nat → Bool) : Nat → List (Pubkey × AccountLocation) →
    Std.TreeMap Pubkey (List UInt8) → Outcome LocatorError (Std.TreeMap Pubkey (List UInt8))
  | _, [], table => .ok table
  | i, (pubkey, location) :: rest, table => do
    let bytes ← serializeLocation location
    insertEach operation (i + 1) rest (if operation i then table.insert pubkey bytes else table)

def insertBatch (self : RocksLocator) (redb : RedbOutcome)
    (locations : List (Pubkey × AccountLocation)) : Outcome LocatorError Unit × RocksLocator :=
  match self.transact redb (insertEach redb.operation 0 locations) with
  | .ok table => (.ok (), ⟨table, { self.stats with
      writes := self.stats.writes + UInt64.ofNat locations.length
      batchWrites := self.stats.batchWrites + 1 }⟩)
  | .error e => (.error e, self)
  | .fault => (.fault, self)

/-- So is the error of the removal. -/
def delete (self : RocksLocator) (redb : RedbOutcome) (pubkey : Pubkey) :
    Outcome LocatorError Unit × RocksLocator :=
  let committed := self.transact redb fun table =>
    .ok (if redb.operation 0 then table.erase pubkey else table)
  match committed with
  | .ok table => (.ok (), { self with table := table })
  | .error e => (.error e, self)
  | .fault => (.fault, self)

end RocksLocator

/-- The calls that write several records at once or remove one. -/
inductive LocatorWrite where
  | insertBatch (locations : List (Pubkey × AccountLocation))
  | delete (pubkey : Pubkey)

namespace RocksLocator

def write (self : RocksLocator) (redb : RedbOutcome) :
    LocatorWrite → Outcome LocatorError Unit × RocksLocator
  | .insertBatch locations => self.insertBatch redb locations
  | .delete pubkey => self.delete redb pubkey

/-- What get reports after a call that returned Ok. -/
def Reports (after : RocksLocator) : LocatorWrite → Prop
  | .insertBatch locations =>
    ∀ item, Last Prod.fst locations item → (after.get item.1).1 = .ok (some item.2)
  | .delete pubkey => (after.get pubkey).1 = .ok none

/-- A call that returns Ok did what it says, one that returns an error changed
no answer. -/
structure Honest (before : RocksLocator) (redb : RedbOutcome) (call : LocatorWrite) : Prop where
  done : (before.write redb call).1 = .ok () → Reports (before.write redb call).2 call
  failed : ∀ e, (before.write redb call).1 = .error e →
    ∀ pubkey, ((before.write redb call).2.get pubkey).1 = (before.get pubkey).1

/-- The pairs of a batch whose insert succeeds. -/
def landed (operation : Nat → Bool) : Nat → List (Pubkey × AccountLocation) →
    List (Pubkey × AccountLocation)
  | _, [] => []
  | i, item :: rest =>
    if operation i then item :: landed operation (i + 1) rest else landed operation (i + 1) rest

/-- Of every pubkey the last location is also the last one whose insert
succeeds, or none does and the location was there before; a removal succeeds,
or there was nothing to remove. -/
def Effective (self : RocksLocator) (redb : RedbOutcome) : LocatorWrite → Prop
  | .insertBatch locations => ∀ item, Last Prod.fst locations item →
      Last Prod.fst (landed redb.operation 0 locations) item ∨
        ((∀ other ∈ landed redb.operation 0 locations, other.1 ≠ item.1) ∧
          (self.get item.1).1 = .ok (some item.2))
  | .delete pubkey => redb.operation 0 = true ∨ (self.get pubkey).1 = .ok none

/-- The transaction is written and committed. -/
def Commits (redb : RedbOutcome) : Prop :=
  redb.beginWrite = true ∧ redb.openTable = true ∧ redb.commit = true

theorem transact_ok_iff (self : RocksLocator) (redb : RedbOutcome)
    (change : Std.TreeMap Pubkey (List UInt8) → Outcome LocatorError (Std.TreeMap Pubkey (List UInt8)))
    (table : Std.TreeMap Pubkey (List UInt8)) :
    self.transact redb change = .ok table ↔ Commits redb ∧ change self.table = .ok table := by
  unfold transact Commits
  cases redb.beginWrite with
  | false => simp
  | true =>
    cases redb.openTable with
    | false => simp
    | true =>
      cases changed : change self.table with
      | ok next =>
        cases redb.commit with
        | false => simp
        | true => simp
      | error e => simp [Bind.bind, Outcome.bind]
      | fault => simp [Bind.bind, Outcome.bind]

theorem transact_fails {redb : RedbOutcome} (fails : ¬ Commits redb) (self : RocksLocator)
    (change : Std.TreeMap Pubkey (List UInt8) → Outcome LocatorError (Std.TreeMap Pubkey (List UInt8)))
    {table : Std.TreeMap Pubkey (List UInt8)} (changed : change self.table = .ok table) :
    ∃ e, self.transact redb change = .error e := by
  cases begins : redb.beginWrite with
  | false => exact ⟨.transactionError, by simp [transact, begins]⟩
  | true =>
    cases opens : redb.openTable with
    | false => exact ⟨.tableError, by simp [transact, begins, opens]⟩
    | true =>
      cases commit : redb.commit with
      | false => exact ⟨.commitError, by simp [transact, begins, opens, commit, changed]⟩
      | true => exact absurd ⟨begins, opens, commit⟩ fails

/-- The bytes of a location. -/
def encoded (location : AccountLocation) : List UInt8 :=
  match serializeLocation location with
  | .ok bytes => bytes
  | _ => []

theorem serialize_encoded (location : AccountLocation) :
    serializeLocation location = .ok (encoded location) := rfl

theorem deserialize_encoded (location : AccountLocation) :
    deserializeLocation (encoded location) = .ok location := by
  obtain ⟨bytes, written, _, reads⟩ := deserialize_serialize location []
  rw [serialize_encoded, Outcome.ok.injEq] at written
  rw [written]
  rwa [List.append_nil] at reads

theorem get_of_stored {self : RocksLocator} {pubkey : Pubkey} {location : AccountLocation}
    (stored : self.table[pubkey]? = some (encoded location)) :
    (self.get pubkey).1 = .ok (some location) := by
  simp only [get, stored, deserialize_encoded]

/-- What get answers depends on the record of the pubkey alone. -/
theorem get_congr {self other : RocksLocator} {pubkey : Pubkey}
    (same : self.table[pubkey]? = other.table[pubkey]?) : (self.get pubkey).1 = (other.get pubkey).1 := by
  simp only [get, same]
  cases other.table[pubkey]? with
  | none => rfl
  | some value =>
    simp only
    cases deserializeLocation value with
    | ok location => rfl
    | error e => rfl
    | fault => rfl

theorem get_none_iff {self : RocksLocator} {pubkey : Pubkey} :
    (self.get pubkey).1 = .ok none ↔ self.table[pubkey]? = none := by
  unfold get
  cases self.table[pubkey]? with
  | none => simp
  | some value =>
    simp only [reduceCtorEq, iff_false]
    cases deserializeLocation value with
    | ok location => simp
    | error e => simp
    | fault => simp

/-- Unlike a batch, a single insert hands on the error of its table. -/
theorem insert_ok {self : RocksLocator} {redb : RedbOutcome} {pubkey : Pubkey}
    {location : AccountLocation} (done : (self.insert redb pubkey location).1 = .ok ()) :
    ((self.insert redb pubkey location).2.get pubkey).1 = .ok (some location) := by
  simp only [insert, serialize_encoded, ok_bind] at done ⊢
  split at done
  · rename_i table written
    obtain ⟨_, changed⟩ := (transact_ok_iff self redb _ table).mp written
    split at changed
    · cases changed
    · cases changed
      exact get_of_stored Std.TreeMap.getElem?_insert_self
  · cases done
  · cases done

theorem insertEach_eq (operation : Nat → Bool) (i : Nat) (locations : List (Pubkey × AccountLocation))
    (table : Std.TreeMap Pubkey (List UInt8)) : insertEach operation i locations table =
      .ok (insertAll Prod.fst (fun item => encoded item.2) table (landed operation i locations)) := by
  induction locations generalizing i table with
  | nil => rfl
  | cons item rest ih =>
    simp only [insertEach, serialize_encoded, ok_bind, ih, landed]
    split
    · rfl
    · rfl

/-- The table of a batch that is committed. -/
theorem insertBatch_commits {redb : RedbOutcome} (commits : Commits redb) (self : RocksLocator)
    (locations : List (Pubkey × AccountLocation)) :
    (self.insertBatch redb locations).1 = .ok () ∧ (self.insertBatch redb locations).2.table =
      insertAll Prod.fst (fun item => encoded item.2) self.table (landed redb.operation 0 locations) := by
  have changed := insertEach_eq redb.operation 0 locations self.table
  have written := (transact_ok_iff self redb _ _).mpr ⟨commits, changed⟩
  simp only [insertBatch, written, and_self]

theorem delete_commits {redb : RedbOutcome} (commits : Commits redb) (self : RocksLocator)
    (pubkey : Pubkey) : (self.delete redb pubkey).1 = .ok () ∧ (self.delete redb pubkey).2.table =
      if redb.operation 0 then self.table.erase pubkey else self.table := by
  have written := (transact_ok_iff self redb
    (fun table => .ok (if redb.operation 0 then table.erase pubkey else table)) _).mpr ⟨commits, rfl⟩
  simp only [delete, written, and_self]

theorem write_fails {redb : RedbOutcome} (fails : ¬ Commits redb) (self : RocksLocator)
    (call : LocatorWrite) : ∃ e, self.write redb call = (.error e, self) := by
  cases call with
  | insertBatch locations =>
    obtain ⟨e, written⟩ := transact_fails fails self _
      (insertEach_eq redb.operation 0 locations self.table)
    exact ⟨e, by simp only [write, insertBatch, written]⟩
  | delete pubkey =>
    obtain ⟨e, written⟩ := transact_fails fails self
      (fun table => .ok (if redb.operation 0 then table.erase pubkey else table)) rfl
    exact ⟨e, by simp only [write, delete, written]⟩

/-- After a batch that is committed, get answers the last location that landed. -/
theorem insertBatch_get {redb : RedbOutcome} (commits : Commits redb) (self : RocksLocator)
    (locations : List (Pubkey × AccountLocation)) (pubkey : Pubkey) :
    (∃ location, Last Prod.fst (landed redb.operation 0 locations) (pubkey, location) ∧
      ((self.insertBatch redb locations).2.get pubkey).1 = .ok (some location)) ∨
    ((∀ other ∈ landed redb.operation 0 locations, other.1 ≠ pubkey) ∧
      ((self.insertBatch redb locations).2.get pubkey).1 = (self.get pubkey).1) := by
  obtain ⟨_, table⟩ := insertBatch_commits commits self locations
  by_cases present : ∃ item ∈ landed redb.operation 0 locations, item.1 = pubkey
  · obtain ⟨⟨_, location⟩, last, rfl⟩ := exists_last present
    refine .inl ⟨location, last, get_of_stored ?_⟩
    rw [table]
    exact insertAll_last last _ _
  · have absent : ∀ other ∈ landed redb.operation 0 locations, other.1 ≠ pubkey :=
      fun other member same => present ⟨other, member, same⟩
    refine .inr ⟨absent, get_congr ?_⟩
    rw [table]
    exact insertAll_absent absent _ _

theorem delete_get {redb : RedbOutcome} (commits : Commits redb) (self : RocksLocator)
    (pubkey : Pubkey) : ((self.delete redb pubkey).2.get pubkey).1 = .ok none ↔
      redb.operation 0 = true ∨ (self.get pubkey).1 = .ok none := by
  rw [get_none_iff, get_none_iff, (delete_commits commits self pubkey).2]
  cases redb.operation 0 with
  | true => simp
  | false => simp

theorem reports_iff {redb : RedbOutcome} (commits : Commits redb) (self : RocksLocator)
    (call : LocatorWrite) : Reports (self.write redb call).2 call ↔ Effective self redb call := by
  cases call with
  | delete pubkey => exact delete_get commits self pubkey
  | insertBatch locations =>
    refine forall_congr' fun item => forall_congr' fun last => ?_
    obtain ⟨pubkey, location⟩ := item
    simp only [write]
    rcases insertBatch_get commits self locations pubkey with ⟨stored, lands, answer⟩ | ⟨absent, answer⟩
    · rw [answer]
      constructor
      · intro same
        cases same
        exact .inl lands
      · rintro (same | ⟨absent, _⟩)
        · cases last_unique lands same rfl
          rfl
        · exact absurd rfl (absent (pubkey, stored) lands.mem)
    · rw [answer]
      constructor
      · intro before
        exact .inr ⟨absent, before⟩
      · rintro (lands | ⟨_, before⟩)
        · exact absurd rfl (absent (pubkey, location) lands.mem)
        · exact before

/-- A call that returns Ok did what it reports exactly if no insert or removal
that mattered failed; one that returns an error did nothing. -/
theorem honest_iff (self : RocksLocator) (redb : RedbOutcome) (call : LocatorWrite) :
    Honest self redb call ↔ (Commits redb → Effective self redb call) := by
  by_cases commits : Commits redb
  · have done : (self.write redb call).1 = .ok () := by
      cases call with
      | insertBatch locations => exact (insertBatch_commits commits self locations).1
      | delete pubkey => exact (delete_commits commits self pubkey).1
    rw [← reports_iff commits self call]
    constructor
    · intro honest _
      exact honest.done done
    · intro reports
      refine ⟨fun _ => reports commits, fun e error => ?_⟩
      rw [done] at error
      cases error
  · obtain ⟨e, failed⟩ := write_fails commits self call
    refine ⟨fun _ committed => absurd committed commits, fun _ => ⟨fun done => ?_, fun _ _ _ => ?_⟩⟩
    · rw [failed] at done
      cases done
    · rw [failed]

theorem dropped_insert_reported :
    let a : Pubkey := Vector.replicate 32 1
    let location : AccountLocation := ⟨1, 100, 200, 50, 150, 1000, 1, .base⟩
    ¬ Honest ⟨∅, {}⟩ ⟨true, true, fun _ => false, true⟩ (.insertBatch [(a, location)]) := by
  intro a location honest
  have stored := honest.done rfl (a, location) ⟨[], [], rfl, by simp⟩
  cases stored

end RocksLocator

end Hyperplane
