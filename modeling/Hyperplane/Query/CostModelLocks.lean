import Hyperplane.Lib.RwLock
import Hyperplane.Query.CostModel

/-! Threads that plan over one cost model while others update its statistics. A plan
holds the statistics for reading and takes them for reading again for every filter. -/
namespace Hyperplane
open Transition Threads Maps

/-- The indexes that a refresh counts. -/
structure IndexContents (S : Type) where
  programs : ProgramIndex S
  dataSizes : DataSizeIndex S
  memcmps : MemcmpIndex S
  discriminators : DiscriminatorIndex S

inductive StatisticsUpdate (S : Type) where
  | refreshStatistics (contents : IndexContents S)
  | updateAccountStatistics (programId : Pubkey) (dataSize : Nat) (data : List UInt8)

namespace IndexStatistics

variable {S : Type} [IdSet S]

def cardinalities {K : Type} [Ord K] (keys : List K) (accounts : K → Option (List Pubkey)) :
    Std.TreeMap K UInt64 :=
  keys.foldl (fun map key => match accounts key with
    | some found => map.insert key (UInt64.ofNat found.length)
    | none => map) ∅

def refreshStatistics (contents : IndexContents S) : IndexStatistics where
  programCardinality :=
    cardinalities contents.programs.ids.bitmaps.keys contents.programs.getProgramAccounts
  datasizeCardinality :=
    cardinalities contents.dataSizes.ids.bitmaps.keys contents.dataSizes.getAccountsBySize
  memcmpCardinality := cardinalities contents.memcmps.ids.bitmaps.keys
    fun memcmp => contents.memcmps.getAccountsByMemcmp memcmp.offset memcmp.bytes
  discriminatorCardinality :=
    cardinalities contents.discriminators.ids.bitmaps.keys contents.discriminators.getAccountsByDiscriminator

def updateAccountStatistics (stats : IndexStatistics) (programId : Pubkey) (dataSize : Nat)
    (data : List UInt8) : IndexStatistics :=
  { stats with
    programCardinality := entry stats.programCardinality programId 0 (· + 1)
    datasizeCardinality := entry stats.datasizeCardinality dataSize 0 (· + 1)
    discriminatorCardinality :=
      if long : 8 ≤ data.length then
        entry stats.discriminatorCardinality ⟨(data.take 8).toArray, by simpa using long⟩ 0 (· + 1)
      else stats.discriminatorCardinality }

def update (stats : IndexStatistics) : StatisticsUpdate S → IndexStatistics
  | .refreshStatistics contents => refreshStatistics contents
  | .updateAccountStatistics programId dataSize data => stats.updateAccountStatistics programId dataSize data

end IndexStatistics

inductive CostModelCall (S : Type) where
  | createOptimizedPlan (programId : Pubkey) (filters : List GpaFilter)
  | update (update : StatisticsUpdate S)

structure LockedModel where
  lock : RwLock
  model : QueryCostModel

/-- A plan is collecting while it has its guard of the whole call, and estimating
while it has the guard of one estimate as well. -/
inductive CostModelPhase (S : Type) where
  | idle
  | planning (programId : Pubkey) (filters : List GpaFilter)
  | collecting (programCardinality : UInt64) (estimates : List (FilterType × UInt64)) (left : List GpaFilter)
  | estimating (programCardinality : UInt64) (estimates : List (FilterType × UInt64)) (filter : GpaFilter)
      (left : List GpaFilter)
  | planned (plan : OptimizedExecutionPlan)
  | asking (update : StatisticsUpdate S)
  | waiting (update : StatisticsUpdate S)
  | updating (update : StatisticsUpdate S)
  | updated

namespace CostModelPhase

variable {S : Type}

def resting : CostModelPhase S → Bool
  | .idle | .planned _ | .updated => true
  | _ => false

def guards : Guards (CostModelPhase S) where
  reads
    | .collecting .. => 1
    | .estimating .. => 2
    | _ => 0
  waits
    | .waiting _ => 1
    | _ => 0
  writes
    | .updating _ => 1
    | _ => 0

/-- The estimates that a plan will still lock for while it holds the lock. -/
def nested : CostModelPhase S → Nat
  | .collecting _ _ left | .estimating _ _ _ left => left.length
  | _ => 0

/-- Whether the thread is about to ask for the lock alone. -/
def asks : CostModelPhase S → Bool
  | .asking _ => true
  | _ => false

/-- How many steps a call has left. -/
def work : CostModelPhase S → Nat
  | .planning _ filters => 2 * filters.length + 2
  | .collecting _ _ left => 2 * left.length + 1
  | .estimating _ _ _ left => 2 * left.length + 2
  | .asking _ => 3
  | .waiting _ => 2
  | .updating _ => 1
  | .idle | .planned _ | .updated => 0

end CostModelPhase

namespace LockedModel

variable {S : Type}

def enter : CostModelCall S → CostModelPhase S
  | .createOptimizedPlan programId filters => .planning programId filters
  | .update update => .asking update

def start (S : Type) (model : QueryCostModel) (threads : Nat) : Pool LockedModel (CostModelPhase S) where
  shared := ⟨{}, model⟩
  phases := List.replicate threads .idle

open CostModelPhase

theorem counted_start (model : QueryCostModel) (threads : Nat) :
    Counted guards (start S model threads).shared.lock (start S model threads).phases := by
  have none (f : CostModelPhase S → Nat) (idle : f .idle = 0) : total f (List.replicate threads .idle) = 0 := by
    simp [total, idle]
  exact ⟨(none _ rfl).symm, (none _ rfl).symm, (none _ rfl).symm⟩

theorem guards_of_resting {p : CostModelPhase S} (rests : p.resting = true) :
    guards.reads p = 0 ∧ guards.waits p = 0 ∧ guards.writes p = 0 ∧ p.nested = 0 := by
  cases p <;> first | exact ⟨rfl, rfl, rfl, rfl⟩ | cases rests

theorem guards_enter (c : CostModelCall S) :
    guards.reads (enter c) = 0 ∧ guards.waits (enter c) = 0 ∧ guards.writes (enter c) = 0 ∧
      (enter c).nested = 0 := by
  cases c <;> exact ⟨rfl, rfl, rfl, rfl⟩

/-- A writer waits while plans that hold the lock will lock it again. -/
def Doomed (t : Pool LockedModel (CostModelPhase S)) : Prop :=
  0 < t.shared.lock.waiting ∧ 0 < total nested t.phases

/-- An update asks for the lock only when no plan that holds it has filters left. -/
def Unqueued (t : Pool LockedModel (CostModelPhase S)) (m : Move (CostModelCall S))
    (_ : Pool LockedModel (CostModelPhase S)) : Prop :=
  ∀ i update, m = .advance i → t.phases[i]? = some (.asking update) → ∀ p ∈ t.phases, p.nested = 0

theorem reads_of_nested {phases : List (CostModelPhase S)} (more : 0 < total nested phases) :
    0 < total guards.reads phases := by
  obtain ⟨p, member, positive⟩ := exists_of_total_pos more
  refine Nat.lt_of_lt_of_le ?_ (le_total member)
  cases p <;> first | exact absurd positive (Nat.lt_irrefl 0) | exact Nat.succ_pos _

theorem resting_of_nested {p : CostModelPhase S} (more : 0 < p.nested) : p.resting = false := by
  cases p <;> first | rfl | exact absurd more (Nat.lt_irrefl 0)

theorem unqueued_of_call {t u : Pool LockedModel (CostModelPhase S)} (i : Nat) (c : CostModelCall S) :
    Unqueued t (.call i c) u := by
  intro _ _ same
  cases same

theorem unqueued_iff_asks (t u : Pool LockedModel (CostModelPhase S)) (i : Nat) :
    Unqueued t (.advance i) u ↔ ∀ p ∈ t.phases[i]?, p.asks = true → ∀ q ∈ t.phases, q.nested = 0 := by
  constructor
  · rintro unqueued p here asks
    cases p <;> cases asks
    exact unqueued i _ rfl here
  · rintro last _ update ⟨⟩ here
    exact last _ here rfl

instance (t u : Pool LockedModel (CostModelPhase S)) (m : Move (CostModelCall S)) :
    Decidable (Unqueued t m u) :=
  match m with
  | .call i c => isTrue (unqueued_of_call i c)
  | .advance i => decidable_of_iff _ (unqueued_iff_asks t u i).symm

theorem unqueued_advance_iff {t u : Pool LockedModel (CostModelPhase S)} {i : Nat} {p : CostModelPhase S}
    (here : t.phases[i]? = some p) :
    Unqueued t (.advance i) u ↔ ∀ update, p = .asking update → total nested t.phases = 0 := by
  constructor
  · rintro unqueued update rfl
    exact total_eq_zero.mpr (unqueued i update rfl here)
  · rintro asking _ update same there
    cases same
    rw [here] at there
    exact total_eq_zero.mp (asking update (Option.some.inj there))

variable [IdSet S]

def advance : CostModelPhase S → LockedModel → Option (CostModelPhase S × LockedModel × List (CostModelPhase S))
  | .planning programId filters, s => s.lock.read.map fun lock =>
    let cardinality := s.model.programCardinality programId
    (.collecting cardinality [(.program programId, cardinality)] filters, { s with lock }, [])
  | .collecting cardinality estimates (filter :: left), s => s.lock.read.map fun lock =>
    (.estimating cardinality estimates filter left, { s with lock }, [])
  | .estimating cardinality estimates filter left, s =>
    some (.collecting cardinality (estimates ++ [s.model.estimateCardinality filter]) left,
      { s with lock := s.lock.endRead }, [])
  | .collecting cardinality estimates [], s =>
    some (.planned (s.model.plan cardinality estimates), { s with lock := s.lock.endRead }, [])
  | .asking update, s => some (.waiting update, { s with lock := s.lock.queue }, [])
  | .waiting update, s => s.lock.write.map fun lock => (.updating update, { s with lock }, [])
  | .updating update, s =>
    some (.updated, ⟨s.lock.endWrite, { s.model with stats := s.model.stats.update update }⟩, [])
  | .idle, _ => none
  | .planned _, _ => none
  | .updated, _ => none

def program : Program LockedModel (CostModelPhase S) (CostModelCall S) where
  enter call _ := enter call
  resting := CostModelPhase.resting
  advance := advance

theorem collects (model : QueryCostModel) (cardinality : UInt64) (estimates : List (FilterType × UInt64))
    (left : List GpaFilter) : ∃ steps, Run (ofPartial program.step)
      ⟨⟨⟨1, 0, 0⟩, model⟩, [.collecting cardinality estimates left]⟩
      (List.replicate steps (.advance 0 : Move (CostModelCall S)))
      ⟨⟨{}, model⟩, [.planned (model.plan cardinality (estimates ++ left.map model.estimateCardinality))]⟩ := by
  induction left generalizing estimates with
  | nil =>
    rw [List.map_nil, List.append_nil]
    exact ⟨1, ⟨_, rfl, rfl⟩⟩
  | cons filter left ih =>
    obtain ⟨steps, ran⟩ := ih (estimates ++ [model.estimateCardinality filter])
    rw [List.append_assoc, List.singleton_append, ← List.map_cons] at ran
    exact ⟨steps + 2, ⟨_, rfl, ⟨_, rfl, ran⟩⟩⟩

/-- A plan with the cost model to itself is the method. -/
theorem alone_plan (model : QueryCostModel) (programId : Pubkey) (filters : List GpaFilter) :
    ∃ steps, Run (ofPartial program.step) ⟨⟨{}, model⟩, [.idle]⟩
      (.call 0 (.createOptimizedPlan programId filters) ::
        List.replicate steps (.advance 0 : Move (CostModelCall S)))
      ⟨⟨{}, model⟩, [.planned (model.createOptimizedPlan programId filters)]⟩ := by
  obtain ⟨steps, ran⟩ := @collects S _ model (model.programCardinality programId)
    [(.program programId, model.programCardinality programId)] filters
  exact ⟨steps + 1, ⟨_, rfl, ⟨_, rfl, ran⟩⟩⟩

/-- What a step of a thread can be. -/
inductive Advanced (s : LockedModel) : CostModelPhase S → CostModelPhase S → LockedModel → Prop
  | lock {programId filters lock} (taken : s.lock.read = some lock) :
    Advanced s (.planning programId filters) (.collecting (s.model.programCardinality programId)
      [(.program programId, s.model.programCardinality programId)] filters) { s with lock }
  | lockAgain {cardinality estimates filter left lock} (taken : s.lock.read = some lock) :
    Advanced s (.collecting cardinality estimates (filter :: left))
      (.estimating cardinality estimates filter left) { s with lock }
  | estimate {cardinality estimates filter left} :
    Advanced s (.estimating cardinality estimates filter left)
      (.collecting cardinality (estimates ++ [s.model.estimateCardinality filter]) left)
      { s with lock := s.lock.endRead }
  | finish {cardinality estimates} :
    Advanced s (.collecting cardinality estimates []) (.planned (s.model.plan cardinality estimates))
      { s with lock := s.lock.endRead }
  | queue {update} : Advanced s (.asking update) (.waiting update) { s with lock := s.lock.queue }
  | lockAlone {update lock} (taken : s.lock.write = some lock) :
    Advanced s (.waiting update) (.updating update) { s with lock }
  | update {update} : Advanced s (.updating update) .updated
      ⟨s.lock.endWrite, { s.model with stats := s.model.stats.update update }⟩

theorem advanced_of_step {p q : CostModelPhase S} {s after : LockedModel} {started : List (CostModelPhase S)}
    (advanced : advance p s = some (q, after, started)) : started = [] ∧ Advanced s p q after := by
  match p with
  | .planning programId filters =>
    obtain ⟨lock, taken, same⟩ := Option.map_eq_some_iff.mp advanced
    cases same
    exact ⟨rfl, .lock taken⟩
  | .collecting cardinality estimates (filter :: left) =>
    obtain ⟨lock, taken, same⟩ := Option.map_eq_some_iff.mp advanced
    cases same
    exact ⟨rfl, .lockAgain taken⟩
  | .estimating cardinality estimates filter left =>
    cases advanced
    exact ⟨rfl, .estimate⟩
  | .collecting cardinality estimates [] =>
    cases advanced
    exact ⟨rfl, .finish⟩
  | .asking update =>
    cases advanced
    exact ⟨rfl, .queue⟩
  | .waiting update =>
    obtain ⟨lock, taken, same⟩ := Option.map_eq_some_iff.mp advanced
    cases same
    exact ⟨rfl, .lockAlone taken⟩
  | .updating update =>
    cases advanced
    exact ⟨rfl, .update⟩

/-- The shape of one step of the pool. -/
theorem step_cases {t u : Pool LockedModel (CostModelPhase S)} {m : Move (CostModelCall S)}
    (moved : program.step t m = some u) :
    (∃ i c p, m = .call i c ∧ t.phases[i]? = some p ∧ p.resting = true ∧
      u = ⟨t.shared, t.phases.set i (enter c)⟩) ∨
    ∃ i p q after, m = .advance i ∧ t.phases[i]? = some p ∧ Advanced t.shared p q after ∧
      u = ⟨after, t.phases.set i q⟩ :=
  Program.step_lone_cases advanced_of_step moved

theorem counted_step {t u : Pool LockedModel (CostModelPhase S)} {m : Move (CostModelCall S)}
    (counted : Counted guards t.shared.lock t.phases) (moved : program.step t m = some u) :
    Counted guards u.shared.lock u.phases := by
  rcases step_cases moved with ⟨i, c, p, -, here, rests, rfl⟩ | ⟨i, p, q, after, -, here, advanced, rfl⟩
  · obtain ⟨reads, waits, writes, -⟩ := guards_of_resting rests
    obtain ⟨newReads, newWaits, newWrites, -⟩ := guards_enter c
    exact counted.move here (by rw [reads, newReads]) (by rw [waits, newWaits]) (by rw [writes, newWrites])
  · have member : p ∈ t.phases := List.mem_of_getElem? here
    have reads := le_total (f := guards.reads) member
    have waits := le_total (f := guards.waits) member
    have writes := le_total (f := guards.writes) member
    rw [← counted.readers] at reads
    rw [← counted.waiting] at waits
    rw [← counted.writers] at writes
    cases advanced with
    | lock taken =>
      obtain ⟨-, -, rfl⟩ := RwLock.read_eq_some.mp taken
      exact counted.move here rfl rfl rfl
    | lockAgain taken =>
      obtain ⟨-, -, rfl⟩ := RwLock.read_eq_some.mp taken
      exact counted.move here rfl rfl rfl
    | estimate =>
      exact counted.move here (by simp only [guards, RwLock.endRead] at reads ⊢; omega) rfl rfl
    | finish =>
      exact counted.move here (by simp only [guards, RwLock.endRead] at reads ⊢; omega) rfl rfl
    | queue => exact counted.move here rfl rfl rfl
    | lockAlone taken =>
      obtain ⟨-, free, rfl⟩ := RwLock.write_eq_some.mp taken
      refine counted.move here rfl ?_ ?_
      · simp only [guards] at waits ⊢
        omega
      · simp only [guards, free]
    | update =>
      exact counted.move here rfl rfl (by simp only [guards, RwLock.endWrite] at writes ⊢; omega)

/-- Only an update that queues behind such a plan dooms the threads, and nothing saves
them after that. -/
theorem doomed_step_iff {t u : Pool LockedModel (CostModelPhase S)} {m : Move (CostModelCall S)}
    (counted : Counted guards t.shared.lock t.phases) (moved : program.step t m = some u) :
    Doomed u ↔ Doomed t ∨ ¬ Unqueued t m u := by
  rcases step_cases moved with ⟨i, c, p, rfl, here, rests, rfl⟩ | ⟨i, p, q, after, rfl, here, advanced, rfl⟩
  · have set := total_set (f := nested) (q := enter c) here
    rw [(guards_of_resting rests).2.2.2, (guards_enter c).2.2.2, Nat.add_zero, Nat.add_zero] at set
    rw [Doomed, set, or_iff_left (not_not.mpr (unqueued_of_call i c))]
    exact Iff.rfl
  · have set := total_set (f := nested) (q := q) here
    rw [unqueued_advance_iff here]
    unfold Doomed
    cases advanced with
    | lock taken =>
      obtain ⟨-, none, rfl⟩ := RwLock.read_eq_some.mp taken
      simp [none]
    | lockAgain taken =>
      obtain ⟨-, none, rfl⟩ := RwLock.read_eq_some.mp taken
      simp [none]
    | estimate =>
      rw [Nat.add_right_cancel set]
      simp [RwLock.endRead]
    | finish =>
      rw [Nat.add_right_cancel set]
      simp [RwLock.endRead]
    | @queue update =>
      have asks : (∀ other, asking update = asking other → total nested t.phases = 0) ↔
          total nested t.phases = 0 := ⟨fun every => every update rfl, fun none _ _ => none⟩
      rw [Nat.add_right_cancel set, asks]
      simp only [RwLock.queue]
      omega
    | lockAlone taken =>
      obtain ⟨free, -, rfl⟩ := RwLock.write_eq_some.mp taken
      have none : ¬ 0 < total nested t.phases := by
        intro more
        have held := reads_of_nested more
        rw [← counted.readers, free] at held
        exact Nat.lt_irrefl 0 held
      rw [Nat.add_right_cancel set]
      simp [none]
    | update =>
      rw [Nat.add_right_cancel set]
      simp [RwLock.endWrite]

theorem quiet_phase {t : Pool LockedModel (CostModelPhase S)} (quiet : ∀ i, program.step t (.advance i) = none)
    {p : CostModelPhase S} (member : p ∈ t.phases) : advance p t.shared = none := by
  obtain ⟨i, here⟩ := List.mem_iff_getElem?.mp member
  by_contra moves
  obtain ⟨⟨q, after, started⟩, moved⟩ := Option.ne_none_iff_exists'.mp moves
  have step : program.step t (.advance i) = some ⟨after, t.phases.set i q ++ started⟩ :=
    Program.step_advance.mpr ⟨p, q, after, started, here, moved, rfl⟩
  rw [quiet i] at step
  cases step

/-- Threads that are not doomed do not all wait. -/
theorem settled_of_quiet {t : Pool LockedModel (CostModelPhase S)}
    (counted : Counted guards t.shared.lock t.phases) (hopeful : ¬ Doomed t)
    (quiet : ∀ i, program.step t (.advance i) = none) : t.Settled program := by
  have blocked {p : CostModelPhase S} (member : p ∈ t.phases) := quiet_phase quiet member
  have writers : t.shared.lock.writers = 0 := by
    rw [counted.writers]
    by_contra some
    obtain ⟨p, member, writes⟩ := exists_of_total_pos (Nat.pos_of_ne_zero some)
    cases p with
    | updating update => exact absurd (blocked member) (by simp [advance])
    | _ => exact absurd writes (Nat.lt_irrefl 0)
  have waiting : t.shared.lock.waiting = 0 := by
    by_contra queued
    have queued := Nat.pos_of_ne_zero queued
    have holders : t.shared.lock.readers = 0 := by
      rw [counted.readers]
      by_contra some
      obtain ⟨p, member, reads⟩ := exists_of_total_pos (Nat.pos_of_ne_zero some)
      have none : total nested t.phases = 0 := by
        by_contra more
        exact hopeful ⟨queued, Nat.pos_of_ne_zero more⟩
      match p with
      | .collecting _ _ [] => exact absurd (blocked member) (by simp [advance])
      | .collecting _ _ (filter :: left) => exact absurd (total_eq_zero.mp none _ member) (by simp [nested])
      | .estimating _ _ _ _ => exact absurd (blocked member) (by simp [advance])
    rw [counted.waiting] at queued
    obtain ⟨p, member, waits⟩ := exists_of_total_pos queued
    cases p with
    | waiting update => exact absurd (blocked member) (by simp [advance, RwLock.write, holders, writers])
    | _ => exact absurd waits (Nat.lt_irrefl 0)
  intro p member
  have stays := blocked member
  match p with
  | .idle | .planned _ | .updated => rfl
  | .planning _ _ => simp [advance, RwLock.read, writers, waiting] at stays
  | .collecting _ _ (_ :: _) => simp [advance, RwLock.read, writers, waiting] at stays
  | .collecting _ _ [] | .estimating _ _ _ _ | .asking _ | .updating _ => simp [advance] at stays
  | .waiting update =>
    have own := le_total (f := guards.waits) member
    rw [← counted.waiting, waiting] at own
    exact absurd own (by simp [guards])

theorem work_advance (p : CostModelPhase S) (s : LockedModel) (q : CostModelPhase S) (after : LockedModel)
    (started : List (CostModelPhase S)) (advanced : advance p s = some (q, after, started)) :
    work q + total work started < work p := by
  obtain ⟨rfl, taken⟩ := advanced_of_step advanced
  cases taken <;> simp only [work, total, List.map_nil, List.sum_nil, List.length_cons] <;> omega

/-- In a run in which no update queues behind a plan with filters left no state is
stuck; once one has, the threads that take no new call end up stuck. -/
theorem stuck_iff_queued (model : QueryCostModel) {threads : Nat} {moves : List (Move (CostModelCall S))}
    {t : Pool LockedModel (CostModelPhase S)} (ran : Run (ofPartial program.step) (start S model threads) moves t) :
    (Along (ofPartial program.step) Unqueued (start S model threads) moves → ¬ t.Stuck program) ∧
    (¬ Along (ofPartial program.step) Unqueued (start S model threads) moves →
      ∃ more u, (∀ m ∈ more, ∃ i, m = .advance i) ∧ Run (ofPartial program.step) t more u ∧
        u.Stuck program) := by
  have fresh : ¬ Doomed (start S model threads) := fun doomed => absurd doomed.1 (Nat.lt_irrefl 0)
  have reached := along_or_broken
    (fun t => Counted guards t.shared.lock t.phases ∧ ¬ Doomed t)
    (fun t => Counted guards t.shared.lock t.phases ∧ Doomed t) Unqueued
    (fun s _ u before moved meets => ⟨counted_step before.1 moved, fun doomed =>
      ((doomed_step_iff before.1 moved).mp doomed).elim before.2 (fun broken => broken meets)⟩)
    (fun s _ u before moved broken => ⟨counted_step before.1 moved,
      (doomed_step_iff before.1 moved).mpr (.inr broken)⟩)
    (fun s _ u before moved => ⟨counted_step before.1 moved,
      (doomed_step_iff before.1 moved).mpr (.inl before.2)⟩)
    ⟨counted_start model threads, fresh⟩ ran
  rcases reached with ⟨along, counted, hopeful⟩ | ⟨broken, counted, doomed⟩
  · exact ⟨fun _ stuck => stuck.1 (settled_of_quiet counted hopeful stuck.2), fun broken => absurd along broken⟩
  · refine ⟨fun along => absurd along broken, fun _ => ?_⟩
    obtain ⟨more, u, advances, went, quiet⟩ := program.exists_quiet work work_advance t
    obtain ⟨-, -, still⟩ := run_invariant
      (fun t => Counted guards t.shared.lock t.phases ∧ Doomed t)
      (fun _ _ _ before moved => ⟨counted_step before.1 moved,
        (doomed_step_iff before.1 moved).mpr (.inl before.2)⟩) ⟨counted, doomed⟩ went
    refine ⟨more, u, advances, went, fun settled => ?_, quiet⟩
    obtain ⟨p, member, more⟩ := exists_of_total_pos still
    have rests : p.resting = true := settled p member
    rw [resting_of_nested more] at rests
    cases rests

/-- An update that queues when the plan that holds the lock has no filter left, and a
second plan after it. -/
theorem plan_update_plan_unstuck :
    let programId : Pubkey := Vector.replicate 32 0
    let moves : List (Move (CostModelCall SortedIds)) :=
      [.call 0 (.createOptimizedPlan programId [.dataSize 165]), .advance 0, .advance 0,
        .call 1 (.update (.updateAccountStatistics programId 165 [])), .advance 0, .advance 1, .advance 0,
        .advance 1, .advance 1, .call 0 (.createOptimizedPlan programId [.dataSize 165]), .advance 0]
    ∃ t, Run (ofPartial program.step) (start SortedIds {} 2) moves t ∧ ¬ t.Stuck program := by
  intro programId moves
  have ends : (moves.foldlM program.step (start SortedIds {} 2)).isSome := by decide +kernel
  obtain ⟨t, folded⟩ := Option.isSome_iff_exists.mp ends
  have ran := (run_ofPartial _ _ _ _).mpr folded
  exact ⟨t, ran, (stuck_iff_queued {} ran).1 (by decide +kernel)⟩

/-- A plan with one filter and an update that asks for the lock in the middle of it. -/
theorem plan_and_update_stuck : ∃ t, Run (ofPartial program.step) (start SortedIds {} 2)
    [.call 0 (.createOptimizedPlan (Vector.replicate 32 0) [.dataSize 165]), .advance 0,
      .call 1 (.update (.updateAccountStatistics (Vector.replicate 32 0) 165 [])), .advance 1] t ∧
      t.Stuck program := by
  refine ⟨_, (run_ofPartial _ _ _ _).mpr rfl, fun settled => ?_, fun i => ?_⟩
  · exact absurd (settled _ (List.mem_cons_self ..)) (by decide)
  · match i with
    | 0 => rfl
    | 1 => rfl
    | i + 2 => rfl

end LockedModel

end Hyperplane
