import Hyperplane.Ring.Interleaving

/-! One producer and one reader. With a single thread no other write is ever
between the load and the store, so every interleaving keeps the ring coherent. -/
namespace Hyperplane
open Bytes Transition RingBufferReader

/-- The write position a call has loaded. -/
def WritePhase.position : WritePhase → Option Nat
  | .checked _ pos | .copied _ pos | .published _ pos => some pos
  | _ => none

/-- The entry of a call that has published it and has not returned. -/
def WritePhase.stored : WritePhase → List RingEntryView
  | .published v _ => [v]
  | _ => []

namespace RingSystem

def OneSmall (s : RingSystem) : Prop :=
  ∃ p, s.threads = [p] ∧ ∀ v, p = .entered v → v.Small

theorem only_thread {s : RingSystem} {p q : WritePhase} {i : Nat} (threads : s.threads = [p])
    (here : s.threads[i]? = some q) : i = 0 ∧ q = p := by
  rw [threads] at here
  cases i with
  | zero => exact ⟨rfl, (Option.some.inj here).symm⟩
  | succ i => cases here

theorem oneSmall_step {s t : RingSystem} {a : RingAction} (one : OneSmall s)
    (taken : s.step a = some t) (small : ∀ i v, a = .enter i v → v.Small) : OneSmall t := by
  obtain ⟨p, threads, entered⟩ := one
  cases a with
  | enter i v =>
    obtain ⟨r, here, _, rfl⟩ := step_enter taken
    obtain ⟨rfl, rfl⟩ := only_thread threads here
    refine ⟨.entered v, by simp [threads], ?_⟩
    intro u same
    cases same
    exact small 0 v rfl
  | advance i =>
    obtain ⟨r, q, after, here, moved, rfl⟩ := step_advance taken
    obtain ⟨rfl, rfl⟩ := only_thread threads here
    refine ⟨q, by simp [threads], ?_⟩
    rintro v rfl
    rcases advance_cases moved with ⟨_, _, _, no, _⟩ | ⟨_, _, _, no, _⟩ | ⟨_, _, _, no, _⟩ |
      ⟨_, _, _, no, _⟩ | ⟨_, _, _, no, _⟩ <;> cases no
  | read =>
    refine ⟨p, ?_, entered⟩
    simp only [step] at taken
    split at taken <;> cases taken <;> exact threads
  | close =>
    cases taken
    exact ⟨p, threads, entered⟩

theorem exclusive_of_oneSmall {s : RingSystem} (one : OneSmall s) (a : RingAction) (t : RingSystem) :
    Exclusive s a t := by
  obtain ⟨p, threads, entered⟩ := one
  intro call takes
  cases a with
  | enter i v => cases takes
  | read => cases takes
  | close => cases takes
  | advance i =>
    simp only [takesOff, threads] at takes
    cases i with
    | succ i => cases takes
    | zero =>
      cases p with
      | entered v =>
        simp only [List.getElem?_cons_zero] at takes
        split at takes
        · cases takes
          refine ⟨entered v rfl, ?_⟩
          intro j q other there
          rw [threads] at there
          cases j with
          | zero => exact absurd rfl other
          | succ j => cases there
        · cases takes
      | idle => cases takes
      | checked v pos => cases takes
      | copied v pos => cases takes
      | published v pos => cases takes
      | returned result => cases takes

/-- The accepted writes are, in their order, those that returned Ok and the one under
way; each was given the position where the ones before it end. -/
structure Recorded (s : RingSystem) (oks : List (RingEntryView × Nat)) : Prop where
  accepted : s.accepted = oks.map Prod.fst ++ s.threads.flatMap WritePhase.passed
  position : ∀ p ∈ s.threads, ∀ pos ∈ p.position, pos = (span (oks.map Prod.fst)).length
  offsets : ∀ k v pos, oks[k]? = some (v, pos) → pos = (span ((oks.map Prod.fst).take k)).length

theorem start_recorded (capacity : Nat) : Recorded (start capacity 1) [] where
  accepted := rfl
  position := by simp [start, WritePhase.position]
  offsets := by simp

theorem offsets_snoc {oks : List (RingEntryView × Nat)} {u : RingEntryView} {last : Nat}
    (offsets : ∀ k v pos, oks[k]? = some (v, pos) → pos = (span ((oks.map Prod.fst).take k)).length)
    (ends : last = (span (oks.map Prod.fst)).length) (k : Nat) (v : RingEntryView) (pos : Nat)
    (there : (oks ++ [(u, last)])[k]? = some (v, pos)) :
    pos = (span (((oks ++ [(u, last)]).map Prod.fst).take k)).length := by
  rw [List.map_append]
  rcases Nat.lt_trichotomy k oks.length with early | rfl | behind
  · rw [List.getElem?_append_left early] at there
    rw [List.take_append_of_le_length (by simpa using early.le)]
    exact offsets k v pos there
  · rw [List.getElem?_append_right (Nat.le_refl _), Nat.sub_self] at there
    cases there
    rw [List.take_append_of_le_length (by simp), List.take_of_length_le (by simp), ends]
  · rw [List.getElem?_eq_none (by simp; omega)] at there
    cases there

theorem recorded_step {s t : RingSystem} {a : RingAction} {done : List RingEntryView}
    {calls : List (RingEntryView × Outcome RingBufferError Nat)} (coherent : Coherent s done)
    (one : OneSmall s) (h : Recorded s (okReturns calls)) (taken : s.step a = some t) :
    Recorded t (okReturns (calls ++ s.returning a t)) := by
  obtain ⟨p, threads, _⟩ := one
  have accepted := h.accepted
  have position := h.position
  simp only [threads, List.flatMap_singleton, List.mem_singleton, forall_eq] at accepted position
  cases a with
  | enter i v =>
    obtain ⟨r, here, rest, rfl⟩ := step_enter taken
    obtain ⟨rfl, rfl⟩ := only_thread threads here
    have idle : r.passed = [] := by cases r <;> simp_all [WritePhase.Resting, WritePhase.passed]
    simp only [returning, List.append_nil]
    refine ⟨?_, ?_, h.offsets⟩
    · rw [idle, List.append_nil] at accepted
      simpa [threads, WritePhase.passed] using accepted
    · simp [threads, WritePhase.position]
  | read =>
    simp only [returning, List.append_nil]
    simp only [step] at taken
    split at taken <;> cases taken <;> exact ⟨h.accepted, h.position, h.offsets⟩
  | close =>
    cases taken
    simp only [returning, List.append_nil]
    exact ⟨h.accepted, h.position, h.offsets⟩
  | advance i =>
    obtain ⟨r, q, after, here, moved, rfl⟩ := step_advance taken
    obtain ⟨rfl, rfl⟩ := only_thread threads here
    rw [returning_advance (q := q) here (by simp [threads])]
    rcases advance_cases moved with ⟨v, e, rfl, rfl, rfl⟩ | ⟨v, rfl, passed, rfl, rfl⟩ |
      ⟨v, pos, rfl, rfl, copied⟩ | ⟨v, pos, rfl, rfl, rfl⟩ | ⟨v, pos, rfl, rfl, rfl⟩
    all_goals
      simp only [WritePhase.call, WritePhase.accepts, okReturns_append, okReturns_error, okReturns_ok,
        List.append_nil]
      simp only [WritePhase.passed, WritePhase.position] at accepted position
    · exact ⟨by simpa [threads, WritePhase.passed] using accepted, by simp [threads, WritePhase.position],
        h.offsets⟩
    · -- The position just loaded is where the entries published so far end.
      have landed : s.accepted = done := by
        apply coherent.flight.landed
        rw [threads]
        rintro p member flies
        cases List.mem_singleton.mp member
        exact flies
      have ends := coherent.held.ends
      rw [← landed, accepted, List.append_nil] at ends
      refine ⟨?_, ?_, h.offsets⟩
      · simpa [threads, WritePhase.passed] using accepted
      · simpa [threads, WritePhase.position] using ends
    · exact ⟨by simpa [threads, WritePhase.passed] using accepted,
        by simpa [threads, WritePhase.position] using position, h.offsets⟩
    · exact ⟨by simpa [threads, WritePhase.passed] using accepted,
        by simpa [threads, WritePhase.position] using position, h.offsets⟩
    · refine ⟨by simpa [threads, WritePhase.passed] using accepted, by simp [threads, WritePhase.position], ?_⟩
      exact offsets_snoc h.offsets (position pos rfl)

theorem run_recorded {capacity : Nat} {acts : List RingAction} {s : RingSystem}
    (ran : Run (ofPartial step) (start capacity 1) acts s)
    (small : ∀ i v, .enter i v ∈ acts → v.Small) :
    (∃ done, Coherent s done) ∧ OneSmall s ∧
      Recorded s (okReturns (observed step returning (start capacity 1) acts)) := by
  have labels : Along (ofPartial step) (fun _ a _ => ∀ i v, a = .enter i v → v.Small)
      (start capacity 1) acts := by
    apply along_labels
    rintro a member i v rfl
    exact small i v member
  have initial : (∃ done, Coherent (start capacity 1) done) ∧ OneSmall (start capacity 1) ∧
      Recorded (start capacity 1) (okReturns []) :=
    ⟨⟨[], start_coherent capacity 1⟩, ⟨.idle, rfl, fun _ no => nomatch no⟩, start_recorded capacity⟩
  refine run_observed_along (fun s calls => (∃ done, Coherent s done) ∧ OneSmall s ∧
    Recorded s (okReturns calls)) _ ?_ initial labels ran
  rintro s a t calls ⟨⟨done, coherent⟩, one, recorded⟩ taken given
  exact ⟨coherent_step ⟨done, coherent⟩ taken (exclusive_of_oneSmall one a t), oneSmall_step one taken given,
    recorded_step coherent one recorded taken⟩

/-- What the calls that returned Ok have left in the ring: their entries, each at the
position it returned, one behind the other up to the write position (an entry just
published by the call under way behind them), and the count. -/
structure Published (s : RingSystem) (oks : List (RingEntryView × Nat)) : Prop where
  offsets : ∀ k v pos, oks[k]? = some (v, pos) → pos = (span ((oks.map Prod.fst).take k)).length
  laid : ∀ call ∈ oks, Laid s.ring.area call.2 call.1.bytes
  ends : s.ring.header.writePos = (span (oks.map Prod.fst ++ s.threads.flatMap WritePhase.stored)).length
  counted : s.ring.header.entryCount = oks.length

theorem Recorded.done_eq {s : RingSystem} {oks : List (RingEntryView × Nat)} {done : List RingEntryView}
    (h : Recorded s oks) (coherent : Coherent s done) (one : OneSmall s) :
    done = oks.map Prod.fst ++ s.threads.flatMap WritePhase.stored := by
  obtain ⟨p, threads, _⟩ := one
  have accepted := h.accepted
  simp only [threads, List.flatMap_singleton] at accepted ⊢
  by_cases flies : p.InFlight
  · have pending : ∃ v, p.passed = [v] ∧ p.stored = [] ∧ s.accepted = done ++ [v] := by
      cases p with
      | checked v pos => exact ⟨v, rfl, rfl, (coherent.flight.at_checked (i := 0) (by rw [threads]; rfl)).2.1⟩
      | copied v pos => exact ⟨v, rfl, rfl, (coherent.flight.at_copied (i := 0) (by rw [threads]; rfl)).2.1⟩
      | idle => cases flies
      | entered v => cases flies
      | published v pos => cases flies
      | returned result => cases flies
    obtain ⟨v, passed, stored, all⟩ := pending
    rw [all, passed] at accepted
    rw [stored, List.append_nil]
    exact List.append_cancel_right accepted
  · have landed : s.accepted = done := by
      apply coherent.flight.landed
      rw [threads]
      rintro r member
      cases List.mem_singleton.mp member
      exact flies
    have same : p.passed = p.stored := by
      cases p <;> simp_all [WritePhase.InFlight, WritePhase.passed, WritePhase.stored]
    rw [← landed, accepted, same]

theorem Recorded.published {s : RingSystem} {oks : List (RingEntryView × Nat)} {done : List RingEntryView}
    (h : Recorded s oks) (coherent : Coherent s done) (one : OneSmall s) : Published s oks := by
  have all := h.done_eq coherent one
  have laid := coherent.held.laid
  have counted := coherent.counted
  have stored : s.threads.countP WritePhase.isPublished = (s.threads.flatMap WritePhase.stored).length := by
    obtain ⟨p, threads, _⟩ := one
    rw [threads]
    cases p <;> rfl
  rw [all] at laid
  rw [all, stored, List.length_append, List.length_map] at counted
  constructor
  · exact h.offsets
  · rintro ⟨v, pos⟩ member
    obtain ⟨k, there⟩ := List.getElem?_of_mem member
    have inside := (List.getElem?_eq_some_iff.mp there).1
    have entry : (oks.map Prod.fst ++ s.threads.flatMap WritePhase.stored)[k]? = some v := by
      rw [List.getElem?_append_left (by simpa using inside), List.getElem?_map, there]
      rfl
    have found := laid_span_at laid entry
    rw [List.take_append_of_le_length (by simpa using inside.le)] at found
    rw [h.offsets k v pos there]
    exact found
  · rw [← all]
    exact coherent.held.ends
  · omega

/-- A write is rejected only by a ring that is not active or has no room, and changes nothing. -/
theorem step_rejected {s t : RingSystem} {i : Nat} {v : RingEntryView} {e : RingBufferError}
    (here : s.threads[i]? = some (.entered v)) (taken : s.step (.advance i) = some t)
    (rejected : t.threads[i]? = some (.returned (.error e))) :
    t.ring = s.ring ∧ t.accepted = s.accepted ∧
      ((e = .notActive ∧ s.ring.header.state ≠ RingBufferState.active.code) ∨
        (e = .bufferFull ∧ s.writer.capacity < s.ring.header.writePos + (entrySize v.data).toNat)) := by
  obtain ⟨p, q, after, there, moved, rfl⟩ := step_advance taken
  cases here.symm.trans there
  have inside := (List.getElem?_eq_some_iff.mp here).1
  simp only [List.getElem?_set_self inside] at rejected
  cases rejected
  have refused : (s.writer.check v s.ring).1 = .error e := by
    simp only [WritePhase.advance] at moved
    split at moved <;> cases moved
    rename_i failed
    rw [failed]
  rcases advance_cases moved with ⟨_, _, _, _, kept⟩ | ⟨_, _, _, no, _⟩ | ⟨_, _, _, no, _⟩ |
    ⟨_, _, _, no, _⟩ | ⟨_, _, _, no, _⟩
  · exact ⟨kept, List.append_nil _, RingBufferWriter.check_error refused⟩
  all_goals cases no

/-- At every moment of every interleaving the reader has seen a prefix of the
accepted writes and its next call succeeds; once no write is under way,
reading on yields the rest; a rejected write changes nothing. The accepted
writes are those whose calls returned Ok and the one under way, and what
returned Ok lies in the ring. -/
theorem reader_reads_accepted_writes (capacity : Nat) (acts : List RingAction) (s : RingSystem)
    (ran : Run (ofPartial step) (start capacity 1) acts s)
    (small : ∀ i v, .enter i v ∈ acts → v.data.length < 2 ^ 32 - 64) :
    let oks := okReturns (observed step returning (start capacity 1) acts)
    s.views <+: s.accepted ∧
    (∃ found after, readNext s.ring s.reader = (.ok found, after)) ∧
    ((∀ p ∈ s.threads, ¬ p.InFlight) →
      ∃ rest, Reads s.ring s.reader rest ∧ s.views ++ rest = s.accepted) ∧
    (∀ i v e t, s.threads[i]? = some (.entered v) → s.step (.advance i) = some t →
      t.threads[i]? = some (.returned (.error e)) → t.ring = s.ring ∧ t.accepted = s.accepted ∧
        ((e = .notActive ∧ s.ring.header.state ≠ RingBufferState.active.code) ∨
          (e = .bufferFull ∧ s.writer.capacity < s.ring.header.writePos + (entrySize v.data).toNat))) ∧
    s.accepted = oks.map Prod.fst ++ s.threads.flatMap WritePhase.passed ∧ Published s oks := by
  intro oks
  have fits (i : Nat) (v : RingEntryView) (member : RingAction.enter i v ∈ acts) : v.Small := by
    have short := small i v member
    unfold RingEntryView.Small RingEntry.headerSize
    omega
  obtain ⟨⟨done, h⟩, one, recorded⟩ := run_recorded ran fits
  refine ⟨h.seen.trans h.flight.extends, ?_, ?_, fun i v e t => step_rejected, recorded.accepted,
    recorded.published h one⟩
  · rcases h.read with ⟨none, _⟩ | ⟨v, _, _, some⟩
    · exact ⟨_, _, none⟩
    · exact ⟨_, _, some⟩
  · intro landed
    have all := h.flight.landed landed
    obtain ⟨rest, split⟩ := h.seen
    have cursor : s.reader = ⟨(span s.views).length⟩ := congrArg RingBufferReader.mk h.cursor
    refine ⟨rest, ?_, split.trans all.symm⟩
    rw [cursor]
    exact reads_held (split ▸ h.held)

/-- Two writes that are read, with one between them that finds the ring full. -/
theorem two_writes_read :
    let v : RingEntryView := ⟨7, 1, Vector.replicate 32 9, [5, 6]⟩
    let long : RingEntryView := ⟨8, 2, Vector.replicate 32 9, List.replicate 200 0⟩
    let u : RingEntryView := ⟨9, 3, Vector.replicate 32 9, [7]⟩
    let acts : List RingAction :=
      [.enter 0 v, .advance 0, .read, .advance 0, .advance 0, .read, .advance 0, .enter 0 long, .advance 0,
        .enter 0 u, .advance 0, .advance 0, .read, .advance 0, .advance 0, .read]
    ∃ s, Run (ofPartial step) (start 270 1) acts s ∧ s.views = [v, u] ∧ s.views <+: s.accepted ∧
      Published s [(v, 0), (u, 66)] := by
  intro v long u acts
  have ends : (acts.foldlM step (start 270 1)).map (·.views) = some [v, u] := by decide +kernel
  obtain ⟨s, ran, views⟩ := Option.map_eq_some_iff.mp ends
  have ran := (run_ofPartial _ _ _ _).mpr ran
  have oks : okReturns (observed step returning (start 270 1) acts) = [(v, 0), (u, 66)] := by decide +kernel
  obtain ⟨read, _, _, _, _, published⟩ := reader_reads_accepted_writes 270 acts s ran (by
    intro i w member
    simp [acts] at member
    rcases member with ⟨rfl, rfl⟩ | ⟨rfl, rfl⟩ | ⟨rfl, rfl⟩ <;> decide +kernel)
  exact ⟨s, ran, views, read, oks ▸ published⟩

end RingSystem

end Hyperplane
