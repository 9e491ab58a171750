import Hyperplane.Lib.Transition
import Hyperplane.Ring.Layout

/-! Calls of write taken apart into their memory steps. Any number of threads
share the ring; each is at one step of its current call. One reader polls. -/
namespace Hyperplane
open Bytes RingBufferWriter RingBufferReader

inductive WritePhase where
  | idle
  | entered (v : RingEntryView)
  | checked (v : RingEntryView) (writePos : Nat)
  | copied (v : RingEntryView) (writePos : Nat)
  | published (v : RingEntryView) (writePos : Nat)
  | returned (result : Outcome RingBufferError Nat)
  deriving DecidableEq

namespace WritePhase

def Resting : WritePhase → Prop
  | .idle | .returned _ => True
  | _ => False

/-- Between the load and the store of the write position. -/
def InFlight : WritePhase → Prop
  | .checked _ _ | .copied _ _ => True
  | _ => False

def isPublished : WritePhase → Bool
  | .published _ _ => true
  | _ => false

def accepts : WritePhase → List RingEntryView
  | .checked v _ => [v]
  | _ => []

/-- The entry of the call under way. -/
def call : WritePhase → Option RingEntryView
  | .entered v | .checked v _ | .copied v _ | .published v _ => some v
  | .idle | .returned _ => none

/-- The entry of a call that is past its checks and has not returned. -/
def passed : WritePhase → List RingEntryView
  | .checked v _ | .copied v _ | .published v _ => [v]
  | _ => []

instance (p : WritePhase) : Decidable p.Resting := by
  cases p <;> unfold Resting <;> infer_instance

instance (p : WritePhase) : Decidable p.InFlight := by
  cases p <;> unfold InFlight <;> infer_instance

/-- One memory step of a call. A copy outside the mapping has no successor. -/
def advance (w : RingBufferWriter) : WritePhase → Ring → Option (WritePhase × Ring)
  | .entered v, ring => match w.check v ring with
    | (.ok pos, after) => some (.checked v pos, after)
    | (.error e, after) => some (.returned (.error e), after)
    | (.fault, _) => none
  | .checked v pos, ring => match copyEntry v pos ring with
    | (.ok _, after) => some (.copied v pos, after)
    | _ => none
  | .copied v pos, ring =>
    some (.published v pos, storeWritePos (pos + (entrySize v.data).toNat) ring)
  | .published _ pos, ring => some (.returned (.ok pos), addEntryCount ring)
  | .idle, _ => none
  | .returned _, _ => none

end WritePhase

structure RingSystem where
  writer : RingBufferWriter
  ring : Ring
  threads : List WritePhase
  reader : RingBufferReader
  accepted : List RingEntryView
  views : List RingEntryView

inductive RingAction where
  | enter (i : Nat) (v : RingEntryView)
  | advance (i : Nat)
  | read
  | close

namespace RingSystem

def start (capacity threads : Nat) : RingSystem where
  writer := ⟨capacity⟩
  ring := created capacity
  threads := List.replicate threads .idle
  reader := fresh
  accepted := []
  views := []

def step (s : RingSystem) : RingAction → Option RingSystem
  | .enter i v => match s.threads[i]? with
    | some p => if p.Resting then some { s with threads := s.threads.set i (.entered v) } else none
    | none => none
  | .advance i => match s.threads[i]? with
    | some p => match p.advance s.writer s.ring with
      | some (q, after) => some { s with
          ring := after
          threads := s.threads.set i q
          accepted := s.accepted ++ q.accepts }
      | none => none
    | none => none
  | .read => match readNext s.ring s.reader with
    | (.ok (some v), after) => some { s with reader := after, views := s.views ++ [v] }
    | (.ok none, after) => some { s with reader := after }
    | (.error _, after) => some { s with reader := after }
    | (.fault, _) => none
  | .close => some { s with ring := RingBufferWriter.close s.ring }

/-- The call that returns in this step, with its result. -/
def returning (s : RingSystem) (a : RingAction) (t : RingSystem) :
    List (RingEntryView × Outcome RingBufferError Nat) :=
  match a with
  | .advance i => match s.threads[i]?.bind WritePhase.call, t.threads[i]? with
    | some v, some (.returned result) => [(v, result)]
    | _, _ => []
  | _ => []

/-- The calls among these that returned Ok, each with its entry and position. -/
def okReturns (calls : List (RingEntryView × Outcome RingBufferError Nat)) : List (RingEntryView × Nat) :=
  calls.filterMap fun call => match call.2 with
    | .ok pos => some (call.1, pos)
    | _ => none

theorem okReturns_append (calls more : List (RingEntryView × Outcome RingBufferError Nat)) :
    okReturns (calls ++ more) = okReturns calls ++ okReturns more :=
  List.filterMap_append

@[simp] theorem okReturns_nil : okReturns [] = [] := rfl

@[simp] theorem okReturns_ok (v : RingEntryView) (pos : Nat) : okReturns [(v, .ok pos)] = [(v, pos)] := rfl

@[simp] theorem okReturns_error (v : RingEntryView) (e : RingBufferError) :
    okReturns [(v, .error e)] = [] := rfl

end RingSystem

/-- A call that no other thread interrupts takes exactly these steps. -/
theorem write_ok_iff_advance (w : RingBufferWriter) (v : RingEntryView) (ring t : Ring) (pos : Nat) :
    w.write v ring = (.ok pos, t) ↔ ∃ checked copied stored,
      (WritePhase.entered v).advance w ring = some (.checked v pos, checked) ∧
      (WritePhase.checked v pos).advance w checked = some (.copied v pos, copied) ∧
      (WritePhase.copied v pos).advance w copied = some (.published v pos, stored) ∧
      (WritePhase.published v pos).advance w stored = some (.returned (.ok pos), t) := by
  have entering (checked : Ring) :
      (WritePhase.entered v).advance w ring = some (.checked v pos, checked) ↔
        w.check v ring = (.ok pos, checked) := by
    simp only [WritePhase.advance]
    split <;> simp_all
  have copying (checked copied : Ring) :
      (WritePhase.checked v pos).advance w checked = some (.copied v pos, copied) ↔
        copyEntry v pos checked = (.ok (), copied) := by
    simp only [WritePhase.advance]
    split <;> simp_all
  rw [write]
  simp only [entering, copying, Method.bind_ok, Method.pure_ok, Method.modify_ok]
  simp only [WritePhase.advance, Option.some.injEq, Prod.mk.injEq, true_and]
  constructor
  · rintro ⟨_, checked, passed, _, copied, done, _, _, rfl, _, _, rfl, rfl, rfl⟩
    exact ⟨checked, copied, _, passed, done, rfl, rfl⟩
  · rintro ⟨checked, copied, _, passed, done, rfl, rfl⟩
    exact ⟨pos, checked, passed, (), copied, done, (), _, rfl, (), _, rfl, rfl, rfl⟩

theorem countP_set {α : Type} (test : α → Bool) {as : List α} {i : Nat} {old : α}
    (here : as[i]? = some old) (new : α) :
    (as.set i new).countP test + (test old).toNat = as.countP test + (test new).toNat := by
  induction as generalizing i with
  | nil => simp at here
  | cons a rest ih =>
    cases i with
    | zero =>
      cases Option.some.inj here
      simp only [List.set_cons_zero, List.countP_cons]
      cases test old <;> cases test new <;> simp
    | succ i =>
      have tail := ih (i := i) (by simpa using here)
      simp only [List.set_cons_succ, List.countP_cons]
      omega

theorem flatMap_set_perm {α β : Type} (f : α → List β) {as : List α} {i : Nat} {old : α}
    (here : as[i]? = some old) (new : α) :
    ((as.set i new).flatMap f ++ f old).Perm (as.flatMap f ++ f new) := by
  induction as generalizing i with
  | nil => simp at here
  | cons a rest ih =>
    cases i with
    | zero =>
      cases Option.some.inj here
      simp only [List.set_cons_zero, List.flatMap_cons]
      rw [List.append_assoc (f old)]
      exact List.perm_append_comm.trans (List.perm_append_comm.append_left (f old))
    | succ i =>
      have tail := ih (i := i) (by simpa using here)
      simp only [List.set_cons_succ, List.flatMap_cons, List.append_assoc]
      exact tail.append_left (f a)

namespace RingSystem

def Alone (s : RingSystem) (i : Nat) : Prop :=
  ∀ j p, j ≠ i → s.threads[j]? = some p → ¬ p.InFlight

/-- Where the accepted writes are: all published, or all but the last one,
which one thread is writing behind the published ones. -/
inductive Flight (s : RingSystem) (done : List RingEntryView) : Prop where
  | none : (∀ i, s.Alone i) → s.accepted = done → Flight s done
  | checked (i : Nat) (v : RingEntryView) : s.Alone i → s.accepted = done ++ [v] → v.Small →
      s.threads[i]? = some (.checked v s.ring.header.writePos) → Flight s done
  | copied (i : Nat) (v : RingEntryView) : s.Alone i → s.accepted = done ++ [v] → v.Small →
      s.threads[i]? = some (.copied v s.ring.header.writePos) →
      s.ring.Covers s.ring.header.writePos v.bytes.length →
      Laid s.ring.area s.ring.header.writePos v.bytes → Flight s done

structure Coherent (s : RingSystem) (done : List RingEntryView) : Prop where
  held : s.ring.Holds done
  flight : Flight s done
  cursor : s.reader.readPos = (span s.views).length
  seen : s.views <+: done
  counted : s.ring.header.entryCount + s.threads.countP WritePhase.isPublished = done.length

/-- The call that passes its checks in this step. -/
def takesOff (s : RingSystem) : RingAction → Option (Nat × RingEntryView)
  | .advance i => match s.threads[i]? with
    | some (.entered v) =>
      if (s.writer.check v s.ring).1 = .ok s.ring.header.writePos then some (i, v) else none
    | _ => none
  | _ => none

/-- The condition on a step: a write that passes its checks fits the size
field, and no other write is between its load and its store. -/
def Exclusive (s : RingSystem) (a : RingAction) (_ : RingSystem) : Prop :=
  ∀ call ∈ s.takesOff a, call.2.Small ∧ s.Alone call.1

instance (s : RingSystem) (i : Nat) : Decidable (s.Alone i) :=
  decidable_of_iff (∀ j < s.threads.length, j ≠ i → ∀ p ∈ s.threads[j]?, ¬ p.InFlight) (by
    constructor
    · intro h j p other here
      exact h j (List.getElem?_eq_some_iff.mp here).1 other p here
    · intro h j _ other p here
      exact h j p other here)

instance (s t : RingSystem) (a : RingAction) : Decidable (Exclusive s a t) :=
  inferInstanceAs (Decidable (∀ call ∈ s.takesOff a, call.2.Small ∧ s.Alone call.1))

theorem start_coherent (capacity threads : Nat) : Coherent (start capacity threads) [] where
  held := holds_created capacity
  flight := .none (by
    intro i j p _ here
    have idle : p = .idle := List.eq_of_mem_replicate (List.mem_of_getElem? here)
    simp [idle, WritePhase.InFlight]) rfl
  cursor := rfl
  seen := List.prefix_refl []
  counted := by
    have none : (List.replicate threads WritePhase.idle).countP WritePhase.isPublished = 0 := by
      rw [List.countP_eq_zero]
      intro p member
      simp [List.eq_of_mem_replicate member, WritePhase.isPublished]
    simpa [start, created] using none

theorem not_inFlight_of_alone {s : RingSystem} (alone : ∀ i, s.Alone i) {j : Nat} {p : WritePhase}
    (here : s.threads[j]? = some p) : ¬ p.InFlight :=
  alone (j + 1) j p (by omega) here

/-- Nobody but the thread the others leave alone is in flight. -/
theorem Alone.only {s : RingSystem} {i j : Nat} {p q : WritePhase} (alone : s.Alone i)
    (there : s.threads[i]? = some p) (here : s.threads[j]? = some q) (flies : q.InFlight) :
    j = i ∧ q = p := by
  by_cases same : j = i
  · subst same
    rw [there] at here
    exact ⟨rfl, (Option.some.inj here).symm⟩
  · exact absurd flies (alone j q same here)

theorem Flight.at_checked {s : RingSystem} {done : List RingEntryView} {i pos : Nat}
    {v : RingEntryView} (flight : Flight s done) (here : s.threads[i]? = some (.checked v pos)) :
    s.Alone i ∧ s.accepted = done ++ [v] ∧ v.Small ∧ s.ring.header.writePos = pos := by
  cases flight with
  | none alone _ => exact absurd trivial (not_inFlight_of_alone alone here)
  | checked j u alone all small there =>
    obtain ⟨rfl, same⟩ := alone.only there here trivial
    cases same
    exact ⟨alone, all, small, rfl⟩
  | copied j u alone all small there _ _ =>
    obtain ⟨_, impossible⟩ := alone.only there here trivial
    cases impossible

theorem Flight.at_copied {s : RingSystem} {done : List RingEntryView} {i pos : Nat}
    {v : RingEntryView} (flight : Flight s done) (here : s.threads[i]? = some (.copied v pos)) :
    s.Alone i ∧ s.accepted = done ++ [v] ∧ v.Small ∧ s.ring.header.writePos = pos ∧
      s.ring.Covers pos v.bytes.length ∧ Laid s.ring.area pos v.bytes := by
  cases flight with
  | none alone _ => exact absurd trivial (not_inFlight_of_alone alone here)
  | checked j u alone all small there =>
    obtain ⟨_, impossible⟩ := alone.only there here trivial
    cases impossible
  | copied j u alone all small there covers laid =>
    obtain ⟨rfl, same⟩ := alone.only there here trivial
    cases same
    exact ⟨alone, all, small, rfl, covers, laid⟩

theorem Alone.set {s t : RingSystem} {i j : Nat} {q : WritePhase} (alone : s.Alone i)
    (threads : t.threads = s.threads.set j q) (quiet : j = i ∨ ¬ q.InFlight) : t.Alone i := by
  intro k p other here
  rw [threads, List.getElem?_set] at here
  split at here
  · rename_i same
    split at here
    · cases here
      rcases quiet with self | quiet
      · exact absurd (same.symm.trans self) other
      · exact quiet
    · cases here
  · exact alone k p other here

/-- With the same threads in flight over the same published bytes, the write
in flight is where it was. -/
theorem Flight.carry {s t : RingSystem} {done : List RingEntryView} (flight : Flight s done)
    (flying : ∀ (j : Nat) (r : WritePhase), r.InFlight →
      (t.threads[j]? = some r ↔ s.threads[j]? = some r))
    (accepted : t.accepted = s.accepted) (area : t.ring.area = s.ring.area)
    (writePos : t.ring.header.writePos = s.ring.header.writePos)
    (mapped : t.ring.mapped = s.ring.mapped) : Flight t done := by
  have kept {i : Nat} (alone : s.Alone i) : t.Alone i := by
    intro j r other there flies
    exact alone j r other ((flying j r flies).mp there) flies
  cases flight with
  | none alone all => exact .none (fun j => kept (alone j)) (accepted.trans all)
  | checked j v alone all small there =>
    rw [← writePos] at there
    exact .checked j v (kept alone) (accepted.trans all) small
      ((flying j (.checked v _) trivial).mpr there)
  | copied j v alone all small there covers laid =>
    unfold Ring.Covers at covers
    rw [← writePos] at there covers laid
    rw [← mapped] at covers
    exact .copied j v (kept alone) (accepted.trans all) small
      ((flying j (.copied v _) trivial).mpr there) covers (by rw [area]; exact laid)

theorem Flight.quiet {s t : RingSystem} {done : List RingEntryView} {i : Nat} {p q : WritePhase}
    (flight : Flight s done) (here : s.threads[i]? = some p) (before : ¬ p.InFlight)
    (after : ¬ q.InFlight) (threads : t.threads = s.threads.set i q)
    (accepted : t.accepted = s.accepted) (area : t.ring.area = s.ring.area)
    (writePos : t.ring.header.writePos = s.ring.header.writePos)
    (mapped : t.ring.mapped = s.ring.mapped) : Flight t done := by
  refine flight.carry ?_ accepted area writePos mapped
  intro j r flies
  rw [threads]
  by_cases same : i = j
  · subst same
    rw [List.getElem?_set_self (List.getElem?_eq_some_iff.mp here).1, here]
    constructor
    · rintro ⟨⟩
      exact absurd flies after
    · rintro ⟨⟩
      exact absurd flies before
  · rw [List.getElem?_set_ne same]

theorem Coherent.recount {s : RingSystem} {done : List RingEntryView} {i : Nat} {p q : WritePhase}
    (h : Coherent s done) (here : s.threads[i]? = some p) (before : p.isPublished = false)
    (after : q.isPublished = false) :
    s.ring.header.entryCount + (s.threads.set i q).countP WritePhase.isPublished = done.length := by
  have same := countP_set WritePhase.isPublished here q
  simp only [before, after, Bool.toNat_false, Nat.add_zero] at same
  rw [same]
  exact h.counted

theorem coherent_enter {s : RingSystem} {done : List RingEntryView} {i : Nat} {p : WritePhase}
    (h : Coherent s done) (here : s.threads[i]? = some p) (rest : p.Resting) (v : RingEntryView) :
    Coherent { s with threads := s.threads.set i (.entered v) } done where
  held := h.held
  flight := by
    have before : ¬ p.InFlight := by cases p <;> simp_all [WritePhase.Resting, WritePhase.InFlight]
    have after : ¬ (WritePhase.entered v).InFlight := fun flies => flies
    exact h.flight.quiet here before after rfl rfl rfl rfl rfl
  cursor := h.cursor
  seen := h.seen
  counted := by
    have before : p.isPublished = false := by
      cases p <;> simp_all [WritePhase.Resting, WritePhase.isPublished]
    exact h.recount here before rfl

theorem coherent_rejected {s : RingSystem} {done : List RingEntryView} {i : Nat}
    {v : RingEntryView} (h : Coherent s done) (here : s.threads[i]? = some (.entered v))
    (e : RingBufferError) :
    Coherent { s with threads := s.threads.set i (.returned (.error e)) } done where
  held := h.held
  flight := by
    have before : ¬ (WritePhase.entered v).InFlight := fun flies => flies
    have after : ¬ (WritePhase.returned (.error e)).InFlight := fun flies => flies
    exact h.flight.quiet here before after rfl rfl rfl rfl rfl
  cursor := h.cursor
  seen := h.seen
  counted := h.recount here rfl rfl

theorem coherent_accepted {s : RingSystem} {done : List RingEntryView} {i : Nat}
    {v : RingEntryView} (h : Coherent s done) (here : s.threads[i]? = some (.entered v))
    (small : v.Small) (alone : s.Alone i) :
    Coherent { s with
      threads := s.threads.set i (.checked v s.ring.header.writePos)
      accepted := s.accepted ++ [v] } done where
  held := h.held
  flight := by
    have inside := List.getElem?_eq_some_iff.mp here
    have all : s.accepted = done := by
      cases h.flight with
      | none _ all => exact all
      | checked j u _ _ _ there =>
        obtain ⟨_, impossible⟩ := alone.only here there trivial
        cases impossible
      | copied j u _ _ _ there _ _ =>
        obtain ⟨_, impossible⟩ := alone.only here there trivial
        cases impossible
    refine .checked i v (alone.set rfl (.inl rfl)) (congrArg (· ++ [v]) all) small ?_
    simp [inside.1]
  cursor := h.cursor
  seen := h.seen
  counted := h.recount here rfl rfl

theorem coherent_copied {s : RingSystem} {done : List RingEntryView} {i pos : Nat}
    {v : RingEntryView} {after : Ring} (h : Coherent s done)
    (here : s.threads[i]? = some (.checked v pos)) (copy : copyEntry v pos s.ring = (.ok (), after)) :
    Coherent { s with ring := after, threads := s.threads.set i (.copied v pos) } done := by
  obtain ⟨alone, all, small, rfl⟩ := h.flight.at_checked here
  obtain ⟨covers, rfl⟩ := copyEntry_ok.mp copy
  have inside := List.getElem?_eq_some_iff.mp here
  constructor
  · have before : Laid s.ring.area 0 (span done) := h.held.laid
    refine ⟨?_, h.held.ends, h.held.small, h.held.inside⟩
    exact (laid_before_copied _ _ (by rw [h.held.ends]; omega)).mpr before
  · exact .copied i v (alone.set rfl (.inl rfl)) all small (by simp [inside.1]) covers
      (laid_copied _ _ _)
  · exact h.cursor
  · exact h.seen
  · exact h.recount here rfl rfl

theorem coherent_published {s : RingSystem} {done : List RingEntryView} {i pos : Nat}
    {v : RingEntryView} (h : Coherent s done) (here : s.threads[i]? = some (.copied v pos)) :
    Coherent { s with
      ring := storeWritePos (pos + (entrySize v.data).toNat) s.ring
      threads := s.threads.set i (.published v pos) } (done ++ [v]) := by
  obtain ⟨alone, all, small, rfl, covers, laid⟩ := h.flight.at_copied here
  constructor
  · exact h.held.publish small covers h.held.laid laid (by simp [storeWritePos, small.entrySize_eq]) rfl
  · refine .none (fun j k p other there => ?_) all
    by_cases self : k = i
    · subst self
      have inside := List.getElem?_eq_some_iff.mp here
      simp only [List.getElem?_set_self inside.1] at there
      cases there
      exact fun flies => flies
    · exact (alone.set rfl (.inl rfl) : Alone { s with threads := s.threads.set i (.published v _) } i)
        k p self there
  · exact h.cursor
  · exact h.seen.trans (List.prefix_append done [v])
  · have more := countP_set WritePhase.isPublished here (.published v s.ring.header.writePos)
    simp only [WritePhase.isPublished, Bool.toNat_false, Bool.toNat_true, Nat.add_zero] at more
    simp only [more, storeWritePos, List.length_append, List.length_singleton, ← h.counted]
    omega

theorem coherent_counted {s : RingSystem} {done : List RingEntryView} {i pos : Nat}
    {v : RingEntryView} (h : Coherent s done) (here : s.threads[i]? = some (.published v pos)) :
    Coherent { s with
      ring := addEntryCount s.ring
      threads := s.threads.set i (.returned (.ok pos)) } done where
  held := h.held.congr rfl rfl rfl
  flight := by
    have before : ¬ (WritePhase.published v pos).InFlight := fun flies => flies
    have after : ¬ (WritePhase.returned (.ok pos)).InFlight := fun flies => flies
    exact h.flight.quiet here before after rfl rfl rfl rfl rfl
  cursor := h.cursor
  seen := h.seen
  counted := by
    have fewer := countP_set WritePhase.isPublished here (.returned (.ok pos))
    simp only [WritePhase.isPublished, Bool.toNat_false, Bool.toNat_true, Nat.add_zero] at fewer
    have counted := h.counted
    simp only [addEntryCount]
    omega

theorem coherent_close {s : RingSystem} {done : List RingEntryView} (h : Coherent s done) :
    Coherent { s with ring := RingBufferWriter.close s.ring } done where
  held := h.held.congr rfl rfl rfl
  flight := h.flight.carry (fun _ _ _ => Iff.rfl) rfl rfl rfl rfl
  cursor := h.cursor
  seen := h.seen
  counted := h.counted

/-- The reader finds the end or the next write it has not seen, never a
corrupted entry. -/
theorem Coherent.read {s : RingSystem} {done : List RingEntryView} (h : Coherent s done) :
    (readNext s.ring s.reader = (.ok none, s.reader) ∧ s.views = done) ∨
      ∃ v rest, done = s.views ++ v :: rest ∧
        readNext s.ring s.reader = (.ok (some v), ⟨(span (s.views ++ [v])).length⟩) := by
  have cursor : s.reader = ⟨(span s.views).length⟩ := congrArg RingBufferReader.mk h.cursor
  rw [cursor]
  exact readNext_behind h.held h.seen

theorem coherent_read {s t : RingSystem} {done : List RingEntryView} (h : Coherent s done)
    (taken : s.step .read = some t) : Coherent t done := by
  rcases h.read with ⟨none, _⟩ | ⟨v, rest, split, some⟩
  · simp only [step, none, Option.some.injEq] at taken
    exact taken ▸ h
  · simp only [step, some, Option.some.injEq] at taken
    subst taken
    have flight : Flight { s with
        reader := ⟨(span (s.views ++ [v])).length⟩
        views := s.views ++ [v] } done :=
      h.flight.carry (fun _ _ _ => Iff.rfl) rfl rfl rfl rfl
    exact ⟨h.held, flight, rfl, ⟨rest, by simp [split]⟩, h.counted⟩

/-- What one step of a thread does to the ring, the guard of each step included. -/
theorem advance_cases {w : RingBufferWriter} {p q : WritePhase} {ring after : Ring}
    (taken : p.advance w ring = some (q, after)) :
    (∃ v e, p = .entered v ∧ q = .returned (.error e) ∧ after = ring) ∨
    (∃ v, p = .entered v ∧ (w.check v ring).1 = .ok ring.header.writePos ∧
      q = .checked v ring.header.writePos ∧ after = ring) ∨
    (∃ v pos, p = .checked v pos ∧ q = .copied v pos ∧ copyEntry v pos ring = (.ok (), after)) ∨
    (∃ v pos, p = .copied v pos ∧ q = .published v pos ∧
      after = storeWritePos (pos + (entrySize v.data).toNat) ring) ∨
    (∃ v pos, p = .published v pos ∧ q = .returned (.ok pos) ∧ after = addEntryCount ring) := by
  cases p with
  | idle => cases taken
  | returned result => cases taken
  | entered v =>
    simp only [WritePhase.advance] at taken
    have keeps := check_keeps w v ring
    split at taken
    · rename_i pos kept passed
      cases taken
      obtain ⟨_, _, rfl, rfl⟩ := check_ok.mp passed
      exact .inr (.inl ⟨v, rfl, by rw [passed], rfl, rfl⟩)
    · rename_i e kept failed
      cases taken
      rw [failed] at keeps
      exact .inl ⟨v, e, rfl, rfl, keeps⟩
    · cases taken
  | checked v pos =>
    simp only [WritePhase.advance] at taken
    split at taken
    · rename_i copied
      cases taken
      exact .inr (.inr (.inl ⟨v, pos, rfl, rfl, copied⟩))
    · cases taken
  | copied v pos =>
    cases taken
    exact .inr (.inr (.inr (.inl ⟨v, pos, rfl, rfl, rfl⟩)))
  | published v pos =>
    cases taken
    exact .inr (.inr (.inr (.inr ⟨v, pos, rfl, rfl, rfl⟩)))

theorem step_advance {s t : RingSystem} {i : Nat} (taken : s.step (.advance i) = some t) :
    ∃ p q after, s.threads[i]? = some p ∧ p.advance s.writer s.ring = some (q, after) ∧
      t = { s with
        ring := after
        threads := s.threads.set i q
        accepted := s.accepted ++ q.accepts } := by
  simp only [step] at taken
  split at taken
  · rename_i p here
    split at taken
    · rename_i q after moved
      exact ⟨p, q, after, here, moved, (Option.some.inj taken).symm⟩
    · cases taken
  · cases taken

theorem step_enter {s t : RingSystem} {i : Nat} {v : RingEntryView}
    (taken : s.step (.enter i v) = some t) :
    ∃ p, s.threads[i]? = some p ∧ p.Resting ∧
      t = { s with threads := s.threads.set i (.entered v) } := by
  simp only [step] at taken
  split at taken
  · rename_i p here
    split at taken
    · rename_i rest
      exact ⟨p, here, rest, (Option.some.inj taken).symm⟩
    · cases taken
  · cases taken

theorem returning_advance {s t : RingSystem} {i : Nat} {p q : WritePhase}
    (here : s.threads[i]? = some p) (there : t.threads[i]? = some q) :
    s.returning (.advance i) t = match p.call, q with
      | some v, .returned result => [(v, result)]
      | _, _ => [] := by
  simp only [returning, here, there, Option.bind_some]
  cases p.call <;> cases q <;> rfl

/-- The accepted writes are those that returned Ok and those still under way,
whatever the interleaving. -/
def Accounted (s : RingSystem) (calls : List (RingEntryView × Outcome RingBufferError Nat)) : Prop :=
  s.accepted.Perm ((okReturns calls).map Prod.fst ++ s.threads.flatMap WritePhase.passed)

theorem start_accounted (capacity threads : Nat) : (start capacity threads).Accounted [] := by
  have none : (List.replicate threads WritePhase.idle).flatMap WritePhase.passed = [] := by
    rw [List.flatMap_eq_nil_iff]
    intro p member
    rw [List.eq_of_mem_replicate member]
    rfl
  simp [Accounted, start, none]

theorem Accounted.quiet {s t : RingSystem} {calls : List (RingEntryView × Outcome RingBufferError Nat)}
    {i : Nat} {p q : WritePhase} (h : s.Accounted calls) (here : s.threads[i]? = some p)
    (same : p.passed = q.passed) (threads : t.threads = s.threads.set i q)
    (accepted : t.accepted = s.accepted) : t.Accounted calls := by
  have moved := flatMap_set_perm WritePhase.passed here q
  rw [same, List.perm_append_right_iff] at moved
  unfold Accounted
  rw [accepted, threads]
  exact h.trans (moved.symm.append_left _)

theorem Accounted.rejected {s : RingSystem} {calls : List (RingEntryView × Outcome RingBufferError Nat)}
    (h : s.Accounted calls) (v : RingEntryView) (e : RingBufferError) :
    s.Accounted (calls ++ [(v, .error e)]) := by
  rw [Accounted, okReturns_append, okReturns_error, List.append_nil]
  exact h

theorem accounted_step {s t : RingSystem} {a : RingAction}
    {calls : List (RingEntryView × Outcome RingBufferError Nat)} (h : s.Accounted calls)
    (taken : s.step a = some t) : t.Accounted (calls ++ s.returning a t) := by
  cases a with
  | enter i v =>
    obtain ⟨p, here, rest, rfl⟩ := step_enter taken
    have idle : p.passed = (WritePhase.entered v).passed := by
      cases p <;> simp_all [WritePhase.Resting, WritePhase.passed]
    simp only [returning, List.append_nil]
    exact h.quiet here idle rfl rfl
  | read =>
    simp only [returning, List.append_nil]
    simp only [step] at taken
    split at taken <;> cases taken <;> exact h
  | close =>
    cases taken
    simp only [returning, List.append_nil]
    exact h
  | advance i =>
    obtain ⟨p, q, after, here, moved, rfl⟩ := step_advance taken
    have inside := List.getElem?_eq_some_iff.mp here
    have set := flatMap_set_perm WritePhase.passed here q
    rw [returning_advance here (List.getElem?_set_self inside.1)]
    rcases advance_cases moved with ⟨v, e, rfl, rfl, rfl⟩ | ⟨v, rfl, passed, rfl, rfl⟩ |
      ⟨v, pos, rfl, rfl, copied⟩ | ⟨v, pos, rfl, rfl, rfl⟩ | ⟨v, pos, rfl, rfl, rfl⟩
    · simp only [WritePhase.call, WritePhase.accepts, List.append_nil]
      apply Accounted.rejected
      exact h.quiet (q := .returned (.error e)) here rfl rfl rfl
    · simp only [WritePhase.passed, List.append_nil] at set
      simp only [Accounted, WritePhase.call, WritePhase.accepts, List.append_nil]
      calc (s.accepted ++ [v])
          |>.Perm ((okReturns calls).map Prod.fst ++ s.threads.flatMap WritePhase.passed ++ [v]) :=
            h.append_right [v]
        _ = (okReturns calls).map Prod.fst ++ (s.threads.flatMap WritePhase.passed ++ [v]) :=
            List.append_assoc ..
        _ |>.Perm _ := set.symm.append_left _
    · simp only [WritePhase.call, WritePhase.accepts, List.append_nil]
      exact h.quiet (q := .copied v pos) here rfl rfl rfl
    · simp only [WritePhase.call, WritePhase.accepts, List.append_nil]
      exact h.quiet (q := .published v pos) here rfl rfl rfl
    · -- The entry leaves the calls under way and joins those that returned Ok.
      simp only [WritePhase.passed, List.append_nil] at set
      simp only [Accounted, WritePhase.call, WritePhase.accepts, okReturns_append, okReturns_ok,
        List.append_nil, List.map_append, List.map_cons, List.map_nil, List.append_assoc]
      refine h.trans (List.Perm.append_left _ ?_)
      exact set.symm.trans List.perm_append_comm

theorem Accounted.settled {s : RingSystem} {calls : List (RingEntryView × Outcome RingBufferError Nat)}
    (h : s.Accounted calls) (resting : ∀ p ∈ s.threads, p.Resting) :
    s.accepted.Perm ((okReturns calls).map Prod.fst) := by
  have none : s.threads.flatMap WritePhase.passed = [] := by
    rw [List.flatMap_eq_nil_iff]
    intro p member
    have rest := resting p member
    cases p <;> simp_all [WritePhase.Resting, WritePhase.passed]
  rw [Accounted, none, List.append_nil] at h
  exact h

theorem coherent_step {s t : RingSystem} {a : RingAction} (h : ∃ done, Coherent s done)
    (taken : s.step a = some t) (exclusive : Exclusive s a t) : ∃ done, Coherent t done := by
  obtain ⟨done, h⟩ := h
  cases a with
  | enter i v =>
    obtain ⟨p, here, rest, rfl⟩ := step_enter taken
    exact ⟨done, coherent_enter h here rest v⟩
  | read => exact ⟨done, coherent_read h taken⟩
  | close =>
    cases taken
    exact ⟨done, coherent_close h⟩
  | advance i =>
    obtain ⟨p, q, after, here, moved, rfl⟩ := step_advance taken
    rcases advance_cases moved with ⟨v, e, rfl, rfl, rfl⟩ | ⟨v, rfl, passed, rfl, rfl⟩ |
      ⟨v, pos, rfl, rfl, copied⟩ | ⟨v, pos, rfl, rfl, rfl⟩ | ⟨v, pos, rfl, rfl, rfl⟩
    · simp only [WritePhase.accepts, List.append_nil]
      exact ⟨done, coherent_rejected h here e⟩
    · -- Passing the checks is the only step that needs the condition.
      obtain ⟨small, alone⟩ := exclusive (i, v) (by simp [takesOff, here, passed])
      exact ⟨done, coherent_accepted h here small alone⟩
    · simp only [WritePhase.accepts, List.append_nil]
      exact ⟨done, coherent_copied h here copied⟩
    · simp only [WritePhase.accepts, List.append_nil]
      exact ⟨done ++ [v], coherent_published h here⟩
    · simp only [WritePhase.accepts, List.append_nil]
      exact ⟨done, coherent_counted h here⟩

theorem Flight.landed {s : RingSystem} {done : List RingEntryView} (flight : Flight s done)
    (landed : ∀ p ∈ s.threads, ¬ p.InFlight) : s.accepted = done := by
  cases flight with
  | none _ all => exact all
  | checked i v _ _ _ there => exact absurd trivial (landed _ (List.mem_of_getElem? there))
  | copied i v _ _ _ there _ _ => exact absurd trivial (landed _ (List.mem_of_getElem? there))

theorem Flight.extends {s : RingSystem} {done : List RingEntryView} (flight : Flight s done) :
    done <+: s.accepted := by
  cases flight with
  | none _ all => exact all ▸ List.prefix_refl done
  | checked i v _ all _ _ => exact ⟨[v], all.symm⟩
  | copied i v _ all _ _ _ _ => exact ⟨[v], all.symm⟩

theorem Coherent.settled {s : RingSystem} {done : List RingEntryView} (h : Coherent s done)
    (resting : ∀ p ∈ s.threads, p.Resting) :
    s.ring.Holds s.accepted ∧ s.ring.header.entryCount = s.accepted.length := by
  have all : s.accepted = done := by
    apply h.flight.landed
    intro p member
    have rest := resting p member
    cases p <;> simp_all [WritePhase.Resting, WritePhase.InFlight]
  have none : s.threads.countP WritePhase.isPublished = 0 := by
    rw [List.countP_eq_zero]
    intro p member
    have rest := resting p member
    cases p <;> simp_all [WritePhase.Resting, WritePhase.isPublished]
  have counted := h.counted
  rw [none] at counted
  exact ⟨all ▸ h.held, all ▸ counted⟩

end RingSystem

end Hyperplane
