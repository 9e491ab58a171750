import Hyperplane.Lib.Threads
import Hyperplane.Base.PubkeyDict

/-! Calls of get_or_create_id taken apart into their atomic steps. Any number
of threads call it on one dictionary. -/
namespace Hyperplane
open Maps Transition Threads

/-- The field returned records what the calls returned. -/
structure IdCalls where
  dict : PersistentPubkeyDictionary
  returned : List (Pubkey × UInt64)

inductive IdPhase where
  | idle
  | entered (pubkey : Pubkey)
  | uncached (pubkey : Pubkey)
  | unknown (pubkey : Pubkey)
  | drawn (pubkey : Pubkey) (id : UInt64)
  | written (pubkey : Pubkey) (id : UInt64)
  | returned (id : UInt64)

namespace IdPhase

def resting : IdPhase → Bool
  | .idle | .returned _ => true
  | _ => false

/-- The id of a call between its draw and its return. -/
def pending : IdPhase → Option (Pubkey × UInt64)
  | .drawn pubkey id | .written pubkey id => some (pubkey, id)
  | _ => none

theorem pending_of_resting {p : IdPhase} (rests : p.resting = true) : p.pending = none := by
  cases p with
  | idle => rfl
  | returned id => rfl
  | _ => cases rests

end IdPhase

namespace IdCalls

def answer (s : IdCalls) (pubkey : Pubkey) (id : UInt64) : IdPhase × IdCalls × List IdPhase :=
  (.returned id, { s with returned := s.returned ++ [(pubkey, id)] }, [])

def advance : IdPhase → IdCalls → Option (IdPhase × IdCalls × List IdPhase)
  | .entered pubkey, s => match s.dict.memoryCache.getId pubkey with
    | some id => some (s.answer pubkey id)
    | none => some (.uncached pubkey, s, [])
  | .uncached pubkey, s => match s.dict.table[pubkey]? with
    | some id => some (s.answer pubkey id)
    | none => some (.unknown pubkey, s, [])
  | .unknown pubkey, s =>
    some (.drawn pubkey s.dict.nextId, { s with dict := s.dict.draw pubkey }, [])
  | .drawn pubkey id, s =>
    some (.written pubkey id, { s with dict := s.dict.writeTable pubkey id }, [])
  | .written pubkey id, s =>
    some ({ s with dict := s.dict.cacheInsert pubkey }.answer pubkey id)
  | .idle, _ => none
  | .returned _, _ => none

def program : Program IdCalls IdPhase Pubkey where
  enter pubkey _ := .entered pubkey
  resting := IdPhase.resting
  advance := advance

def start (threads : Nat) : Pool IdCalls IdPhase where
  shared := ⟨.created, []⟩
  phases := List.replicate threads .idle

/-- A call that no other interrupts is the method. -/
theorem alone_getOrCreateId (dict : PersistentPubkeyDictionary)
    (returned : List (Pubkey × UInt64)) (pubkey : Pubkey) :
    ∃ steps, Run (ofPartial program.step) ⟨⟨dict, returned⟩, [.idle]⟩
      (.call 0 pubkey :: List.replicate steps (.advance 0))
      ⟨⟨(dict.getOrCreateId pubkey).2, returned ++ [(pubkey, (dict.getOrCreateId pubkey).1)]⟩,
        [.returned (dict.getOrCreateId pubkey).1]⟩ := by
  unfold PersistentPubkeyDictionary.getOrCreateId
  cases cached : dict.memoryCache.getId pubkey with
  | some id =>
    refine ⟨1, (run_ofPartial _ _ _ _).mpr ?_⟩
    simp [program, Program.step, IdPhase.resting, advance, cached, answer]
  | none =>
    cases known : dict.table[pubkey]? with
    | some id =>
      refine ⟨2, (run_ofPartial _ _ _ _).mpr ?_⟩
      simp [program, Program.step, IdPhase.resting, advance, cached, known, answer]
    | none =>
      refine ⟨5, (run_ofPartial _ _ _ _).mpr ?_⟩
      simp [program, Program.step, IdPhase.resting, advance, cached, known, answer,
        PersistentPubkeyDictionary.assign_steps]

/-- What one step of a call does. -/
theorem advance_cases {p q : IdPhase} {s t : IdCalls} {started : List IdPhase}
    (moved : advance p s = some (q, t, started)) : started = [] ∧
    ((p.pending = none ∧ q.pending = none ∧ t = s) ∨
    (∃ pubkey id, (s.dict.memoryCache.getId pubkey = some id ∨ s.dict.table[pubkey]? = some id) ∧
      p.pending = none ∧ q = .returned id ∧
        t = { s with returned := s.returned ++ [(pubkey, id)] }) ∨
    (∃ pubkey, p = .unknown pubkey ∧ q = .drawn pubkey s.dict.nextId ∧
      t = { s with dict := s.dict.draw pubkey }) ∨
    (∃ pubkey id, p = .drawn pubkey id ∧ q = .written pubkey id ∧
      t = { s with dict := s.dict.writeTable pubkey id }) ∨
    (∃ pubkey id, p = .written pubkey id ∧ q = .returned id ∧
      t = ⟨s.dict.cacheInsert pubkey, s.returned ++ [(pubkey, id)]⟩)) := by
  cases p with
  | idle => cases moved
  | returned id => cases moved
  | entered pubkey =>
    simp only [advance] at moved
    split at moved
    · rename_i id known
      cases moved
      exact ⟨rfl, .inr (.inl ⟨pubkey, id, .inl known, rfl, rfl, rfl⟩)⟩
    · cases moved
      exact ⟨rfl, .inl ⟨rfl, rfl, rfl⟩⟩
  | uncached pubkey =>
    simp only [advance] at moved
    split at moved
    · rename_i id known
      cases moved
      exact ⟨rfl, .inr (.inl ⟨pubkey, id, .inr known, rfl, rfl, rfl⟩)⟩
    · cases moved
      exact ⟨rfl, .inl ⟨rfl, rfl, rfl⟩⟩
  | unknown pubkey =>
    cases moved
    exact ⟨rfl, .inr (.inr (.inl ⟨pubkey, rfl, rfl, rfl⟩))⟩
  | drawn pubkey id =>
    cases moved
    exact ⟨rfl, .inr (.inr (.inr (.inl ⟨pubkey, id, rfl, rfl, rfl⟩)))⟩
  | written pubkey id =>
    cases moved
    exact ⟨rfl, .inr (.inr (.inr (.inr ⟨pubkey, id, rfl, rfl, rfl⟩)))⟩

/-- Every id returned is the pubkey's in the table and in both lookups, and no
id was returned for two pubkeys. -/
structure Agreed (s : IdCalls) : Prop where
  table : ∀ pubkey id, (pubkey, id) ∈ s.returned → s.dict.table[pubkey]? = some id
  lookup : ∀ pubkey id, (pubkey, id) ∈ s.returned → s.dict.getId pubkey = some id
  inverse : ∀ pubkey id, (pubkey, id) ∈ s.returned → s.dict.getPubkey id = some pubkey
  distinct : ∀ a b id, (a, id) ∈ s.returned → (b, id) ∈ s.returned → a = b

/-- The condition on a step: a pubkey that draws an id has none yet and the id
is nobody's; and a pubkey that is not in the cache comes to its insert when the
cache's counter stands at its id. -/
def InTurn (t : Pool IdCalls IdPhase) (a : Move Pubkey) (_ : Pool IdCalls IdPhase) : Prop :=
  match a with
  | .call _ _ => True
  | .advance i => match t.phases[i]? with
    | some (.unknown pubkey) =>
      ∀ known ∈ t.shared.dict.given, known.1 = pubkey ↔ known.2 = t.shared.dict.nextId
    | some (.written pubkey id) =>
      t.shared.dict.memoryCache.getId pubkey = none → t.shared.dict.memoryCache.nextId = id
    | _ => True

instance (t : Pool IdCalls IdPhase) (a : Move Pubkey) (u : Pool IdCalls IdPhase) : Decidable (InTurn t a u) := by
  unfold InTurn
  split
  · exact isTrue trivial
  · split <;> infer_instance

/-- What holds of the dictionary and of the answers, whatever the threads are
about to do: the ids given are unique both ways, and the table, the cache and
the answers hold no others. -/
structure Sound (s : IdCalls) : Prop where
  unique : ∀ x ∈ s.dict.given, ∀ y ∈ s.dict.given, x.1 = y.1 ↔ x.2 = y.2
  recorded : ∀ (pubkey : Pubkey) (id : UInt64), s.dict.table[pubkey]? = some id → (pubkey, id) ∈ s.dict.given
  cached : ∀ (pubkey : Pubkey) (id : UInt64), s.dict.memoryCache.getId pubkey = some id →
    s.dict.table[pubkey]? = some id
  inverse : ∀ (pubkey : Pubkey) (id : UInt64), s.dict.memoryCache.getId pubkey = some id ↔
    s.dict.memoryCache.getPubkey id = some pubkey
  answered : ∀ x ∈ s.returned, x ∈ s.dict.given

/-- A call that holds an id was given it, and finds it in the table once it has
written there. -/
def Owns (s : IdCalls) : IdPhase → Prop
  | .drawn pubkey id => (pubkey, id) ∈ s.dict.given
  | .written pubkey id => (pubkey, id) ∈ s.dict.given ∧ s.dict.table[pubkey]? = some id
  | _ => True

structure Coherent (t : Pool IdCalls IdPhase) : Prop where
  sound : Sound t.shared
  owns : ∀ p ∈ t.phases, Owns t.shared p
  placed : ∀ x ∈ t.shared.dict.given, t.shared.dict.memoryCache.getId x.1 = some x.2 ∨
    ∃ p ∈ t.phases, p.pending = some x

/-- Every id given is returned or about to be. -/
def Reported (t : Pool IdCalls IdPhase) : Prop :=
  ∀ x ∈ t.shared.dict.given, x ∈ t.shared.returned ∨ ∃ p ∈ t.phases, p.pending = some x

/-- Two ids for one pubkey, two pubkeys for one id, or a pubkey whose id in the
cache is another than the one it was given. -/
def Broken (s : IdCalls) : Prop :=
  (∃ x ∈ s.dict.given, ∃ y ∈ s.dict.given, ¬ (x.1 = y.1 ↔ x.2 = y.2)) ∨
    ∃ x ∈ s.dict.given, ∃ id, s.dict.memoryCache.getId x.1 = some id ∧ id ≠ x.2

theorem start_coherent (threads : Nat) : Coherent (start threads) where
  sound := {
    unique := by simp [start, PersistentPubkeyDictionary.created]
    recorded := by simp [start, PersistentPubkeyDictionary.created]
    cached := by simp [start, PersistentPubkeyDictionary.created, PubkeyDictionary.getId]
    inverse := by
      simp [start, PersistentPubkeyDictionary.created, PubkeyDictionary.getId, PubkeyDictionary.getPubkey]
    answered := by simp [start] }
  owns p member := by
    rw [List.eq_of_mem_replicate member]
    trivial
  placed := by simp [start, PersistentPubkeyDictionary.created]

theorem start_reported (threads : Nat) : Reported (start threads) := by
  simp [Reported, start, PersistentPubkeyDictionary.created]

theorem Sound.same {s : IdCalls} (h : Sound s) {pubkey : Pubkey} {a b : UInt64}
    (first : (pubkey, a) ∈ s.dict.given) (second : (pubkey, b) ∈ s.dict.given) : a = b :=
  (h.unique _ first _ second).mp rfl

theorem Sound.only {s : IdCalls} (h : Sound s) {a b : Pubkey} {id : UInt64}
    (first : (a, id) ∈ s.dict.given) (second : (b, id) ∈ s.dict.given) : a = b :=
  (h.unique _ first _ second).mpr rfl

theorem Sound.answer {s : IdCalls} (h : Sound s) {pubkey : Pubkey} {id : UInt64}
    (given : (pubkey, id) ∈ s.dict.given) :
    Sound { s with returned := s.returned ++ [(pubkey, id)] } where
  unique := h.unique
  recorded := h.recorded
  cached := h.cached
  inverse := h.inverse
  answered x member := by
    rcases List.mem_append.mp member with old | new
    · exact h.answered x old
    · rw [List.mem_singleton.mp new]
      exact given

theorem Sound.draw {s : IdCalls} (h : Sound s) {pubkey : Pubkey}
    (fresh : ∀ known ∈ s.dict.given, known.1 = pubkey ↔ known.2 = s.dict.nextId) :
    Sound { s with dict := s.dict.draw pubkey } where
  unique x first y second := by
    rcases List.mem_append.mp first with old | new <;> rcases List.mem_append.mp second with past | now
    · exact h.unique x old y past
    · rw [List.mem_singleton.mp now]
      exact fresh x old
    · rw [List.mem_singleton.mp new]
      exact eq_comm.trans ((fresh y past).trans eq_comm)
    · rw [List.mem_singleton.mp new, List.mem_singleton.mp now]
      exact ⟨fun _ => rfl, fun _ => rfl⟩
  recorded other id known := List.mem_append_left _ (h.recorded other id known)
  cached := h.cached
  inverse := h.inverse
  answered x member := List.mem_append_left _ (h.answered x member)

/-- Writing the id a pubkey was given leaves what the table has for it. -/
theorem Sound.table_kept {s : IdCalls} (h : Sound s) {pubkey other : Pubkey} {id old : UInt64}
    (given : (pubkey, id) ∈ s.dict.given) (known : s.dict.table[other]? = some old) :
    (s.dict.writeTable pubkey id).table[other]? = some old := by
  rw [PersistentPubkeyDictionary.writeTable_table]
  split
  · rename_i same
    subst same
    rw [h.same given (h.recorded other old known)]
  · exact known

theorem Sound.writeTable {s : IdCalls} (h : Sound s) {pubkey : Pubkey} {id : UInt64}
    (given : (pubkey, id) ∈ s.dict.given) :
    Sound { s with dict := s.dict.writeTable pubkey id } where
  unique := h.unique
  recorded other old known := by
    change (s.dict.writeTable pubkey id).table[other]? = some old at known
    rw [PersistentPubkeyDictionary.writeTable_table] at known
    split at known
    · rename_i same
      cases known
      exact same ▸ given
    · exact h.recorded other old known
  cached other old known := h.table_kept given (h.cached other old known)
  inverse := h.inverse
  answered := h.answered

/-- In its turn a pubkey gets the id in the cache that it was given. -/
theorem Sound.cacheInsert {s : IdCalls} (h : Sound s) {pubkey : Pubkey} {id : UInt64}
    (given : (pubkey, id) ∈ s.dict.given) (written : s.dict.table[pubkey]? = some id)
    (turn : s.dict.memoryCache.getId pubkey = none → s.dict.memoryCache.nextId = id) :
    Sound { s with dict := s.dict.cacheInsert pubkey } ∧
      (s.dict.cacheInsert pubkey).memoryCache.getId pubkey = some id := by
  cases present : s.dict.memoryCache.getId pubkey with
  | some old =>
    have same : s.dict.cacheInsert pubkey = s.dict := by
      rw [PersistentPubkeyDictionary.cacheInsert, PubkeyDictionary.insert_known present]
    rw [same, present, h.same given (h.recorded pubkey old (h.cached pubkey old present))]
    exact ⟨h, rfl⟩
  | none =>
    have counter := turn present
    have lookup (other : Pubkey) : (s.dict.cacheInsert pubkey).memoryCache.getId other =
        if other = pubkey then some id else s.dict.memoryCache.getId other :=
      counter ▸ PersistentPubkeyDictionary.cacheInsert_cached present other
    have free (other : Pubkey) : s.dict.memoryCache.getId other ≠ some id := by
      intro taken
      rw [h.only (h.recorded other id (h.cached other id taken)) given, present] at taken
      cases taken
    refine ⟨⟨h.unique, h.recorded, ?_, ?_, h.answered⟩, by rw [lookup, if_pos rfl]⟩
    · intro other i known
      change (s.dict.cacheInsert pubkey).memoryCache.getId other = some i at known
      rw [lookup] at known
      split at known
      · rename_i same
        cases known
        exact same ▸ written
      · exact h.cached other i known
    · exact PubkeyDictionary.inverse_insert present (counter ▸ free) h.inverse

theorem Owns.mono {s t : IdCalls} {p : IdPhase} (h : Owns s p)
    (given : s.dict.given ⊆ t.dict.given)
    (table : ∀ (pubkey : Pubkey) (id : UInt64), s.dict.table[pubkey]? = some id → t.dict.table[pubkey]? = some id) :
    Owns t p := by
  cases p with
  | drawn pubkey id => exact given h
  | written pubkey id => exact ⟨given h.1, table pubkey id h.2⟩
  | _ => trivial

/-- A call that begins was not holding an id before. -/
theorem waits_call {t : Pool IdCalls IdPhase} {i : Nat} {p : IdPhase} {x : Pubkey × UInt64}
    (pubkey : Pubkey) (here : t.phases[i]? = some p) (rests : p.resting = true)
    (waiting : ∃ r ∈ t.phases, r.pending = some x) :
    ∃ r ∈ t.phases.set i (.entered pubkey), r.pending = some x := by
  rcases @exists_moved _ _ [] _ _ (.entered pubkey) _ here waiting with mine | theirs
  · rw [IdPhase.pending_of_resting rests] at mine
    cases mine
  · rwa [List.append_nil] at theirs

/-- An id given before is cached, or waits with a call as it did: one that moved without it
pending did not hold it. -/
theorem Coherent.placed_moved {t : Pool IdCalls IdPhase} (h : Coherent t) {i : Nat} {p : IdPhase} (q : IdPhase)
    (here : t.phases[i]? = some p) {x : Pubkey × UInt64} (old : x ∈ t.shared.dict.given)
    (idle : p.pending ≠ some x) : t.shared.dict.memoryCache.getId x.1 = some x.2 ∨
      ∃ r ∈ t.phases.set i q ++ [], r.pending = some x := by
  rcases h.placed x old with cached | waiting
  · exact .inl cached
  · rcases @exists_moved _ _ [] _ _ q _ here waiting with mine | theirs
    · exact absurd mine idle
    · exact .inr theirs

/-- A step in turn keeps the threads and the store coherent. -/
theorem Coherent.advance {t : Pool IdCalls IdPhase} (h : Coherent t) {i : Nat} {p q : IdPhase}
    {s : IdCalls} {started : List IdPhase} (here : t.phases[i]? = some p)
    (moved : advance p t.shared = some (q, s, started))
    (turn : InTurn t (.advance i) ⟨s, t.phases.set i q ++ started⟩) :
    Coherent ⟨s, t.phases.set i q ++ started⟩ := by
  have sound := h.sound
  have own := h.owns p (List.mem_of_getElem? here)
  simp only [InTurn, here] at turn
  obtain ⟨rfl, cases⟩ := advance_cases moved
  rcases cases with ⟨none, settled, rfl⟩ | ⟨pubkey, id, known, none, rfl, rfl⟩ | ⟨pubkey, rfl, rfl, rfl⟩ |
    ⟨pubkey, id, rfl, rfl, rfl⟩ | ⟨pubkey, id, rfl, rfl, rfl⟩
  · refine ⟨sound, forall_moved h.owns ?_ (by simp), ?_⟩
    · cases q with
      | drawn => cases settled
      | written => cases settled
      | _ => trivial
    · intro x old
      exact h.placed_moved _ here old (by simp [none])
  · have given : (pubkey, id) ∈ t.shared.dict.given := by
      rcases known with cached | recorded
      · exact sound.recorded pubkey id (sound.cached pubkey id cached)
      · exact sound.recorded pubkey id recorded
    refine ⟨sound.answer given, forall_moved h.owns trivial (by simp), ?_⟩
    intro x old
    exact h.placed_moved _ here old (by simp [none])
  · refine ⟨sound.draw turn, forall_moved ?_ ?_ (by simp), ?_⟩
    · intro r member
      exact (h.owns r member).mono (List.subset_append_left _ _) fun _ _ known => known
    · exact List.mem_append_right _ (List.mem_singleton.mpr rfl)
    · intro x member
      rcases List.mem_append.mp member with old | new
      · exact h.placed_moved _ here old (by simp [IdPhase.pending])
      · rw [List.mem_singleton.mp new]
        exact .inr ⟨_, mem_moved here, rfl⟩
  · refine ⟨sound.writeTable own, forall_moved ?_ ?_ (by simp), ?_⟩
    · intro r member
      exact (h.owns r member).mono (fun _ old => old) fun _ _ known => sound.table_kept own known
    · refine ⟨own, ?_⟩
      change (t.shared.dict.writeTable pubkey id).table[pubkey]? = some id
      rw [PersistentPubkeyDictionary.writeTable_table, if_pos rfl]
    · intro x old
      by_cases mine : (IdPhase.drawn pubkey id).pending = some x
      · exact .inr ⟨_, mem_moved here, mine⟩
      · exact h.placed_moved _ here old mine
  · obtain ⟨kept, cached⟩ := sound.cacheInsert own.1 own.2 turn
    refine ⟨kept.answer own.1, forall_moved h.owns trivial (by simp), ?_⟩
    intro x old
    by_cases mine : (IdPhase.written pubkey id).pending = some x
    · cases mine
      exact .inl cached
    · rcases h.placed_moved _ here old mine with before | waiting
      · exact .inl (PubkeyDictionary.insert_keeps _ before)
      · exact .inr waiting

theorem Coherent.step {t u : Pool IdCalls IdPhase} (h : Coherent t) {a : Move Pubkey}
    (taken : program.step t a = some u) (turn : InTurn t a u) : Coherent u := by
  cases a with
  | call i pubkey =>
    obtain ⟨p, here, rests, rfl⟩ := Program.step_call.mp taken
    refine ⟨h.sound, forall_set h.owns trivial, fun x given => ?_⟩
    exact (h.placed x given).imp_right (waits_call pubkey here rests)
  | advance i =>
    obtain ⟨p, q, s, started, here, moved, rfl⟩ := Program.step_advance.mp taken
    exact h.advance here moved turn

/-- Whatever the order of the steps, an id given is returned in the end. -/
theorem Reported.step {t u : Pool IdCalls IdPhase} (h : Reported t) {a : Move Pubkey}
    (taken : program.step t a = some u) : Reported u := by
  cases a with
  | call i pubkey =>
    obtain ⟨p, here, rests, rfl⟩ := Program.step_call.mp taken
    intro x given
    exact (h x given).imp_right (waits_call pubkey here rests)
  | advance i =>
    obtain ⟨p, q, s, started, here, moved, rfl⟩ := Program.step_advance.mp taken
    obtain ⟨rfl, cases⟩ := advance_cases moved
    have waits (x : Pubkey × UInt64) (old : x ∈ t.shared.dict.given) (idle : p.pending ≠ some x) :
        x ∈ t.shared.returned ∨ ∃ r ∈ t.phases.set i q ++ [], r.pending = some x := by
      rcases h x old with returned | waiting
      · exact .inl returned
      · rcases @exists_moved _ _ [] _ _ q _ here waiting with mine | theirs
        · exact absurd mine idle
        · exact .inr theirs
    intro x given
    rcases cases with ⟨none, _, rfl⟩ | ⟨pubkey, id, _, none, rfl, rfl⟩ | ⟨pubkey, rfl, rfl, rfl⟩ |
      ⟨pubkey, id, rfl, rfl, rfl⟩ | ⟨pubkey, id, rfl, rfl, rfl⟩
    · exact waits x given (by simp [none])
    · exact (waits x given (by simp [none])).imp_left (List.mem_append_left _)
    · rcases List.mem_append.mp given with old | new
      · exact waits x old (by simp [IdPhase.pending])
      · rw [List.mem_singleton.mp new]
        exact .inr ⟨_, mem_moved here, rfl⟩
    · by_cases mine : (IdPhase.drawn pubkey id).pending = some x
      · exact .inr ⟨_, mem_moved here, mine⟩
      · exact waits x given mine
    · by_cases mine : (IdPhase.written pubkey id).pending = some x
      · cases mine
        exact .inl (List.mem_append_right _ (List.mem_singleton.mpr rfl))
      · exact (waits x given mine).imp_left (List.mem_append_left _)

/-- No step takes back an id given or an entry of the cache. -/
theorem step_extends {t u : Pool IdCalls IdPhase} {a : Move Pubkey}
    (taken : program.step t a = some u) : t.shared.dict.given ⊆ u.shared.dict.given ∧
      ∀ pubkey id, t.shared.dict.memoryCache.getId pubkey = some id →
        u.shared.dict.memoryCache.getId pubkey = some id := by
  cases a with
  | call i pubkey =>
    obtain ⟨_, _, _, rfl⟩ := Program.step_call.mp taken
    exact ⟨fun _ old => old, fun _ _ known => known⟩
  | advance i =>
    obtain ⟨p, q, s, started, here, moved, rfl⟩ := Program.step_advance.mp taken
    obtain ⟨rfl, ⟨_, _, rfl⟩ | ⟨_, _, _, _, _, rfl⟩ | ⟨_, _, _, rfl⟩ | ⟨_, _, _, _, rfl⟩ |
      ⟨_, _, _, _, rfl⟩⟩ := advance_cases moved
    · exact ⟨fun _ old => old, fun _ _ known => known⟩
    · exact ⟨fun _ old => old, fun _ _ known => known⟩
    · exact ⟨List.subset_append_left _ _, fun _ _ known => known⟩
    · exact ⟨fun _ old => old, fun _ _ known => known⟩
    · exact ⟨fun _ old => old, fun _ _ known => PubkeyDictionary.insert_keeps _ known⟩

theorem Broken.step {t u : Pool IdCalls IdPhase} (h : Broken t.shared) {a : Move Pubkey}
    (taken : program.step t a = some u) : Broken u.shared := by
  obtain ⟨given, cached⟩ := step_extends taken
  rcases h with ⟨x, first, y, second, clash⟩ | ⟨x, member, id, known, other⟩
  · exact .inl ⟨x, given first, y, given second, clash⟩
  · exact .inr ⟨x, given member, id, cached x.1 id known, other⟩

/-- A step out of turn leaves a pubkey with two ids, an id with two pubkeys, or
another id in the cache. -/
theorem broken_of_not_inTurn {t u : Pool IdCalls IdPhase} (h : Coherent t) {a : Move Pubkey}
    (taken : program.step t a = some u) (early : ¬ InTurn t a u) : Broken u.shared := by
  cases a with
  | call i pubkey => exact absurd trivial early
  | advance i =>
    obtain ⟨p, q, s, started, here, moved, rfl⟩ := Program.step_advance.mp taken
    have own := h.owns p (List.mem_of_getElem? here)
    simp only [InTurn, here] at early
    cases p with
    | unknown pubkey =>
      cases moved
      obtain ⟨x, early⟩ := Classical.not_forall.mp early
      obtain ⟨member, clash⟩ := Classical.not_imp.mp early
      exact .inl ⟨x, List.mem_append_left _ member, (pubkey, t.shared.dict.nextId),
        List.mem_append_right _ (List.mem_singleton.mpr rfl), clash⟩
    | written pubkey id =>
      cases moved
      obtain ⟨absent, other⟩ := Classical.not_imp.mp early
      refine .inr ⟨(pubkey, id), own.1, t.shared.dict.memoryCache.nextId, ?_, other⟩
      exact (PubkeyDictionary.getId_insert absent pubkey).trans (if_pos rfl)
    | _ => exact absurd trivial early

theorem Coherent.agreed {t : Pool IdCalls IdPhase} (h : Coherent t) (settled : t.Settled program) :
    Agreed t.shared := by
  have cached {pubkey : Pubkey} {id : UInt64} (returned : (pubkey, id) ∈ t.shared.returned) :
      t.shared.dict.memoryCache.getId pubkey = some id := by
    rcases h.placed _ (h.sound.answered _ returned) with here | ⟨p, member, waiting⟩
    · exact here
    · rw [IdPhase.pending_of_resting (settled p member)] at waiting
      cases waiting
  constructor
  · intro pubkey id returned
    exact h.sound.cached pubkey id (cached returned)
  · intro pubkey id returned
    simp only [PersistentPubkeyDictionary.getId, cached returned]
  · intro pubkey id returned
    exact (h.sound.inverse pubkey id).mp (cached returned)
  · intro a b id first second
    exact h.sound.only (h.sound.answered _ first) (h.sound.answered _ second)

theorem Broken.not_agreed {t : Pool IdCalls IdPhase} (h : Broken t.shared) (reported : Reported t)
    (settled : t.Settled program) : ¬ Agreed t.shared := by
  intro agreed
  have returned (x : Pubkey × UInt64) (given : x ∈ t.shared.dict.given) : x ∈ t.shared.returned := by
    rcases reported x given with here | ⟨p, member, waiting⟩
    · exact here
    · rw [IdPhase.pending_of_resting (settled p member)] at waiting
      cases waiting
  rcases h with ⟨⟨a, i⟩, first, ⟨b, j⟩, second, clash⟩ | ⟨⟨a, i⟩, member, id, known, other⟩
  · have here := returned _ first
    have there := returned _ second
    refine clash ⟨?_, ?_⟩
    · rintro rfl
      exact Option.some.inj ((agreed.table a i here).symm.trans (agreed.table a j there))
    · rintro rfl
      exact agreed.distinct a b i here there
  · have answer := agreed.lookup a i (returned _ member)
    simp only [PersistentPubkeyDictionary.getId, known] at answer
    exact other (Option.some.inj answer)

/-- Once all calls have returned they agree with each other, the table and the
lookups exactly if every step was in turn. -/
theorem ids_agree_iff (threads : Nat) {moves : List (Move Pubkey)} {t : Pool IdCalls IdPhase}
    (ran : Run (ofPartial program.step) (start threads) moves t) (settled : t.Settled program) :
    Agreed t.shared ↔ Along (ofPartial program.step) InTurn (start threads) moves := by
  have outcome := along_or_broken (fun t => Coherent t ∧ Reported t)
    (fun t => Broken t.shared ∧ Reported t) InTurn
    (fun _ _ _ h taken turn => ⟨h.1.step taken turn, h.2.step taken⟩)
    (fun _ _ _ h taken early => ⟨broken_of_not_inTurn h.1 taken early, h.2.step taken⟩)
    (fun _ _ _ h taken => ⟨h.1.step taken, h.2.step taken⟩)
    ⟨start_coherent threads, start_reported threads⟩ ran
  rcases outcome with ⟨along, coherent, _⟩ | ⟨early, broken, reported⟩
  · exact ⟨fun _ => along, fun _ => coherent.agreed settled⟩
  · exact ⟨fun agreed => absurd agreed (broken.not_agreed reported settled), fun along => absurd along early⟩

/-- Two threads in turn, and the first asks again for the pubkey of the second. -/
theorem calls_in_turn_agree :
    let a : Pubkey := Vector.replicate 32 1
    let b : Pubkey := Vector.replicate 32 2
    let moves : List (Move Pubkey) := .call 0 a :: List.replicate 5 (.advance 0) ++
      .call 1 b :: List.replicate 5 (.advance 1) ++ [.call 0 b, .advance 0]
    ∃ t, Run (ofPartial program.step) (start 2) moves t ∧ t.Settled program ∧
      t.shared.returned = [(a, 0), (b, 1), (b, 1)] ∧ Agreed t.shared := by
  intro a b moves
  have outcome : (List.foldlM program.step (start 2) moves).map
      (fun t => (t.phases.all program.resting, t.shared.returned)) =
      some (true, [(a, 0), (b, 1), (b, 1)]) := by decide +kernel
  obtain ⟨t, folded, final⟩ := Option.map_eq_some_iff.mp outcome
  obtain ⟨resting, returned⟩ := Prod.mk.inj final
  have ran := (run_ofPartial _ _ _ _).mpr folded
  have settled : t.Settled program := List.all_eq_true.mp resting
  exact ⟨t, ran, settled, returned, (ids_agree_iff 2 ran settled).mpr (by decide +kernel)⟩

/-- Two calls draw 0 and 1, and the second is first at the cache. -/
theorem overtaken_call_disagrees :
    let a : Pubkey := Vector.replicate 32 1
    let b : Pubkey := Vector.replicate 32 2
    ∃ t, Run (ofPartial program.step) (start 2)
      [.call 0 a, .advance 0, .advance 0, .advance 0, .call 1 b, .advance 1, .advance 1, .advance 1,
        .advance 1, .advance 1, .advance 0, .advance 0] t ∧ t.Settled program ∧ ¬ Agreed t.shared := by
  intro a b
  have outcome : (List.foldlM program.step (start 2)
      [.call 0 a, .advance 0, .advance 0, .advance 0, .call 1 b, .advance 1, .advance 1, .advance 1,
        .advance 1, .advance 1, .advance 0, .advance 0]).map (fun t =>
          (t.phases.all program.resting, t.shared.returned, t.shared.dict.getId b)) =
      some (true, [(b, 1), (a, 0)], some 0) := by decide +kernel
  obtain ⟨t, ran, final⟩ := Option.map_eq_some_iff.mp outcome
  simp only [Prod.mk.injEq] at final
  obtain ⟨settled, returned, cached⟩ := final
  refine ⟨t, (run_ofPartial _ _ _ _).mpr ran, List.all_eq_true.mp settled, ?_⟩
  intro agreed
  have answer := agreed.lookup b 1 (returned ▸ by simp)
  rw [cached] at answer
  cases answer

end IdCalls

end Hyperplane
