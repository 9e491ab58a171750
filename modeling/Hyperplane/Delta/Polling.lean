import Hyperplane.Lib.Transition
import Hyperplane.Delta.Consumer
import Hyperplane.Ring.Layout

/-! The consumer polling a ring that grows. Each call of process_updates opens
a reader of its own; writes fall between any two of its reads. -/
namespace Hyperplane
open Transition RingBufferReader DeltaConsumer

namespace DeltaConsumer

variable {crc32 : List UInt8 → UInt32}

/-- The entries appended so far, without the places they went to. -/
def appendedEntries (c : DeltaConsumer) : List RingEntryView := c.appended.map (·.entry)

theorem openSegment_ok {slot : UInt64} {c t : DeltaConsumer} {u : Unit}
    (opened : openSegment crc32 slot c = (.ok u, t)) : t.state.currentSegment.isSome ∧
      t.appendedEntries = c.appendedEntries ∧ t.state.totalProcessed = c.state.totalProcessed := by
  unfold openSegment at opened
  split at opened
  · rename_i segment present
    cases opened
    simp [present]
  · split at opened
    · cases opened
      simp [appendedEntries]
    · cases opened
    · cases opened

theorem appendEntry_ok {v : RingEntryView} {c t : DeltaConsumer} {u : Unit}
    (open_ : c.state.currentSegment.isSome) (done : appendEntry v c = (.ok u, t)) :
    t.appendedEntries = c.appendedEntries ++ [v] ∧
      t.state.totalProcessed = c.state.totalProcessed := by
  unfold appendEntry at done
  split at done
  · rename_i absent
    rw [absent] at open_
    cases open_
  · split at done
    · cases done
      simp [appendedEntries]
    · cases done
    · cases done

theorem processEntry_ok {v : RingEntryView} {c t : DeltaConsumer} {u : Unit}
    (done : processEntry crc32 v c = (.ok u, t)) : t.appendedEntries = c.appendedEntries ++ [v] ∧
      t.state.totalProcessed = c.state.totalProcessed := by
  have valid := (Pubkey.tryFrom_eq_some v.pubkey.toList v.pubkey).mpr rfl
  simp only [processEntry, valid, writeToSegment, Method.bind_ok, Method.modify_ok] at done
  obtain ⟨_, reduced, rfl, _, m, opened, appended⟩ := done
  obtain ⟨present, kept, total⟩ := openSegment_ok opened
  obtain ⟨more, same⟩ := appendEntry_ok present appended
  exact ⟨by rw [more, kept]; rfl, same.trans total⟩

theorem maybeFlushSegment_ok {c t : DeltaConsumer} {u : Unit}
    (done : maybeFlushSegment crc32 c = (.ok u, t)) : t.appendedEntries = c.appendedEntries ∧
      t.state.totalProcessed = c.state.totalProcessed := by
  unfold maybeFlushSegment at done
  split at done
  · split at done
    · cases done
      exact ⟨rfl, rfl⟩
    · split at done <;> cases done
      exact ⟨rfl, rfl⟩
  · cases done
    exact ⟨rfl, rfl⟩

theorem finishUpdates_ok {processed n : Nat} {c t : DeltaConsumer}
    (done : finishUpdates crc32 processed c = (.ok n, t)) : n = processed ∧
      t.appendedEntries = c.appendedEntries ∧
        t.state.totalProcessed = c.state.totalProcessed + processed := by
  simp only [finishUpdates, Method.bind_ok, Method.modify_ok, Method.pure_ok] at done
  obtain ⟨_, counted, rfl, _, m, flushed, rfl, rfl⟩ := done
  obtain ⟨kept, total⟩ := maybeFlushSegment_ok flushed
  exact ⟨rfl, kept, total⟩

/-- What the loop does with the entries it reads, in order. -/
def processAll (crc32 : List UInt8 → UInt32) :
    List RingEntryView → Method DeltaConsumer DeltaConsumerError Unit
  | [] => pure ()
  | v :: rest => do
    processEntry crc32 v
    processAll crc32 rest

/-- The loop returns exactly if the ring can be read to its end, every entry is
processed and the end is reached without an error. The fuel is the number of
bytes left and one more, and every entry takes at least one. -/
theorem processLoop_ok_iff {ring : Ring} {fuel processed n : Nat} {reader : RingBufferReader}
    {c t : DeltaConsumer} (enough : ring.header.writePos - reader.readPos < fuel) :
    processLoop crc32 ring fuel reader processed c = (.ok n, t) ↔
      ∃ vs m u, Reads ring reader vs ∧ processAll crc32 vs c = (.ok u, m) ∧
        finishUpdates crc32 (processed + vs.length) m = (.ok n, t) := by
  induction fuel generalizing reader processed c with
  | zero => omega
  | succ fuel ih =>
    constructor
    · intro done
      cases read : readNext ring reader with
      | mk result after =>
        simp only [processLoop, read] at done
        cases result with
        | error e => cases done
        | fault => cases done
        | ok found =>
          cases found with
          | none =>
            obtain ⟨_, rfl⟩ := readNext_none_iff.mp read
            exact ⟨[], c, (), .done read, rfl, done⟩
          | some v =>
            obtain ⟨_, m, first, rest⟩ := (Method.bind_ok _ _ _ _ _).mp done
            have moves := readNext_moves read
            obtain ⟨vs, k, u, reads, all, finished⟩ := (ih (by omega)).mp rest
            refine ⟨v :: vs, k, u, .next read reads,
              (Method.bind_ok _ _ _ _ _).mpr ⟨_, m, first, all⟩, ?_⟩
            rw [List.length_cons, Nat.add_comm vs.length 1, ← Nat.add_assoc]
            exact finished
    · rintro ⟨vs, m, u, reads, all, finished⟩
      cases reads with
      | done none =>
        simp only [processLoop, none]
        cases all
        exact finished
      | @next reader after v rest some tail =>
        simp only [processLoop, some]
        obtain ⟨_, k, first, others⟩ := (Method.bind_ok _ _ _ _ _).mp all
        have moves := readNext_moves some
        refine (Method.bind_ok _ _ _ _ _).mpr
          ⟨_, k, first, (ih (by omega)).mpr ⟨rest, m, u, tail, others, ?_⟩⟩
        rw [List.length_cons, Nat.add_comm rest.length 1, ← Nat.add_assoc] at finished
        exact finished

theorem processUpdates_ok_iff {ring : Ring} {n : Nat} {c t : DeltaConsumer} :
    processUpdates crc32 ring c = (.ok n, t) ↔ openFile ring = .ok fresh ∧
      ∃ vs m u, Reads ring fresh vs ∧ processAll crc32 vs c = (.ok u, m) ∧
        finishUpdates crc32 vs.length m = (.ok n, t) := by
  unfold processUpdates
  by_cases short : ring.mapped < ringHeaderSize
  · simp [openFile, short, Method.fail]
  · simp only [openFile, if_neg short, true_and]
    rw [processLoop_ok_iff (by simp [fresh])]
    simp only [Nat.zero_add]

end DeltaConsumer

/-- The ring, the consumer and, during a call of process_updates, its reader
and its count. -/
structure PollSystem where
  writer : RingBufferWriter
  ring : Ring
  consumer : DeltaConsumer
  polling : Option (RingBufferReader × Nat)
  written : List RingEntryView

inductive PollAction where
  | write (v : RingEntryView)
  | openRing
  | next
  deriving DecidableEq

namespace PollSystem

variable (crc32 : List UInt8 → UInt32)

def start (capacity : Nat) (config : DeltaConsumerConfig) (locator : DeltaLocator) (disk : Disk) :
    PollSystem where
  writer := ⟨capacity⟩
  ring := RingBufferWriter.created capacity
  consumer := DeltaConsumer.new config locator disk
  polling := none
  written := []

/-- Writes that succeed, and process_updates taken apart into its reads. A call
that fails has no successor. -/
def step (s : PollSystem) : PollAction → Option PollSystem
  | .write v => match s.writer.write v s.ring with
    | (.ok _, after) => some { s with ring := after, written := s.written ++ [v] }
    | _ => none
  | .openRing => match s.polling, openFile s.ring with
    | none, .ok reader => some { s with polling := some (reader, 0) }
    | _, _ => none
  | .next => match s.polling with
    | none => none
    | some (reader, processed) => match readNext s.ring reader with
      | (.ok (some v), after) => match processEntry crc32 v s.consumer with
        | (.ok _, c) => some { s with consumer := c, polling := some (after, processed + 1) }
        | _ => none
      | (.ok none, _) => match finishUpdates crc32 processed s.consumer with
        | (.ok _, c) => some { s with consumer := c, polling := none }
        | _ => none
      | _ => none

theorem step_write {s t : PollSystem} {v : RingEntryView} (taken : s.step crc32 (.write v) = some t) :
    ∃ pos after, s.writer.write v s.ring = (.ok pos, after) ∧
      t = { s with ring := after, written := s.written ++ [v] } := by
  simp only [step] at taken
  split at taken
  · rename_i pos after wrote
    exact ⟨pos, after, wrote, (Option.some.inj taken).symm⟩
  · cases taken

theorem step_openRing {s t : PollSystem} (taken : s.step crc32 .openRing = some t) :
    s.polling = none ∧ t = { s with polling := some (fresh, 0) } := by
  simp only [step] at taken
  split at taken
  · rename_i reader idle opened
    by_cases short : s.ring.mapped < ringHeaderSize
    · simp [openFile, short] at opened
    · simp only [openFile, if_neg short, Outcome.ok.injEq] at opened
      exact ⟨idle, opened ▸ (Option.some.inj taken).symm⟩
  · cases taken

theorem step_next {s t : PollSystem} (taken : s.step crc32 .next = some t) :
    ∃ reader processed, s.polling = some (reader, processed) ∧
      ((∃ v after u c, readNext s.ring reader = (.ok (some v), after) ∧
          processEntry crc32 v s.consumer = (.ok u, c) ∧
            t = { s with consumer := c, polling := some (after, processed + 1) }) ∨
        (∃ after n c, readNext s.ring reader = (.ok none, after) ∧
          finishUpdates crc32 processed s.consumer = (.ok n, c) ∧
            t = { s with consumer := c, polling := none })) := by
  simp only [step] at taken
  split at taken
  · cases taken
  · rename_i reader processed polling
    refine ⟨reader, processed, polling, ?_⟩
    split at taken
    · rename_i v after read
      split at taken
      · rename_i u c done
        exact .inl ⟨v, after, u, c, read, done, (Option.some.inj taken).symm⟩
      · cases taken
    · rename_i after read
      split at taken
      · rename_i n c done
        exact .inr ⟨after, n, c, read, done, (Option.some.inj taken).symm⟩
      · cases taken
    · cases taken

theorem run_processAll {s : PollSystem} {reader : RingBufferReader} {vs : List RingEntryView}
    {processed n : Nat} {m c : DeltaConsumer} {u : Unit} (polling : s.polling = some (reader, processed))
    (reads : Reads s.ring reader vs) (all : processAll crc32 vs s.consumer = (.ok u, m))
    (finished : finishUpdates crc32 (processed + vs.length) m = (.ok n, c)) :
    Run (ofPartial (step crc32)) s (List.replicate (vs.length + 1) .next)
      { s with consumer := c, polling := none } := by
  induction vs generalizing s reader processed with
  | nil =>
    cases reads with
    | done none =>
      cases all
      simp only [List.length_nil, Nat.add_zero] at finished
      exact ⟨_, by simp only [ofPartial, step, polling, none, finished], rfl⟩
  | cons v rest ih =>
    cases reads with
    | @next _ after _ _ found tail =>
      obtain ⟨_, k, first, others⟩ := (Method.bind_ok _ _ _ _ _).mp all
      rw [List.length_cons, Nat.add_comm rest.length 1, ← Nat.add_assoc] at finished
      refine ⟨{ s with consumer := k, polling := some (after, processed + 1) }, ?_, ?_⟩
      · simp only [ofPartial, step, polling, found, first]
      · exact ih rfl tail others finished

theorem run_processUpdates {s : PollSystem} {n : Nat} {c : DeltaConsumer} (idle : s.polling = none)
    (done : processUpdates crc32 s.ring s.consumer = (.ok n, c)) :
    Run (ofPartial (step crc32)) s (.openRing :: List.replicate (n + 1) .next)
      { s with consumer := c } := by
  obtain ⟨opened, vs, m, u, reads, all, finished⟩ := processUpdates_ok_iff.mp done
  obtain ⟨rfl, _, _⟩ := finishUpdates_ok finished
  have same : { s with consumer := c } = { s with consumer := c, polling := none } := by rw [← idle]
  refine ⟨{ s with polling := some (fresh, 0) }, ?_, ?_⟩
  · simp only [ofPartial, step, idle, opened]
  · rw [same]
    exact @run_processAll _ { s with polling := some (fresh, 0) } _ _ 0 _ m c u rfl reads all
      (by rw [Nat.zero_add]; exact finished)

/-- Every published entry is appended once, in order, and counted once. -/
structure Exact (s : PollSystem) : Prop where
  reads : Reads s.ring fresh s.consumer.appendedEntries
  same : s.consumer.appendedEntries = s.written
  total : s.consumer.state.totalProcessed = s.written.length

def ExactOnReturn (_ : PollSystem) (a : PollAction) (t : PollSystem) : Prop :=
  a = .next → t.polling = none → Exact t

/-- A call of process_updates returns only if no earlier one has read an entry. -/
def FirstRead (s : PollSystem) (a : PollAction) (t : PollSystem) : Prop :=
  a = .next → t.polling = none → s.consumer.state.totalProcessed = 0

instance (s t : PollSystem) (a : PollAction) : Decidable (FirstRead s a t) :=
  inferInstanceAs (Decidable (_ → _ → _))

/-- The appended entries are those of earlier calls and those the reader of the
current call has read, which are the first ones of the ring again. -/
structure Polled (s : PollSystem) (older taken : List RingEntryView) : Prop where
  held : s.ring.Holds s.written
  appended : s.consumer.appendedEntries = older ++ taken
  total : s.consumer.state.totalProcessed = older.length
  seen : taken <+: s.written
  cursor : ∀ reader processed, s.polling = some (reader, processed) →
    reader = ⟨(span taken).length⟩ ∧ processed = taken.length
  idle : s.polling = none → taken = []

theorem start_polled (capacity : Nat) (config : DeltaConsumerConfig) (locator : DeltaLocator)
    (disk : Disk) : Polled (start capacity config locator disk) [] [] where
  held := holds_created capacity
  appended := rfl
  total := rfl
  seen := List.prefix_refl []
  cursor _ _ none := nomatch none
  idle _ := rfl

theorem Polled.finish {s : PollSystem} {older taken : List RingEntryView} (h : Polled s older taken)
    {reader after : RingBufferReader} {processed : Nat} (polling : s.polling = some (reader, processed))
    (none : readNext s.ring reader = (.ok none, after)) :
    taken = s.written ∧ processed = s.written.length := by
  obtain ⟨rfl, rfl⟩ := h.cursor reader processed polling
  rcases readNext_behind h.held h.seen with ⟨_, all⟩ | ⟨v, rest, _, some⟩
  · exact ⟨all, congrArg List.length all⟩
  · rw [some] at none
    cases none

theorem Polled.next {s : PollSystem} {older taken : List RingEntryView} (h : Polled s older taken)
    {reader after : RingBufferReader} {processed : Nat} {v : RingEntryView}
    (polling : s.polling = some (reader, processed))
    (some : readNext s.ring reader = (.ok (some v), after)) :
    after = ⟨(span (taken ++ [v])).length⟩ ∧ processed = taken.length ∧ taken ++ [v] <+: s.written := by
  obtain ⟨rfl, rfl⟩ := h.cursor reader processed polling
  rcases readNext_behind h.held h.seen with ⟨none, _⟩ | ⟨u, rest, split, again⟩
  · rw [none] at some
    cases some
  · rw [again] at some
    cases some
    exact ⟨rfl, rfl, rest, by rw [split, List.append_assoc, List.singleton_append]⟩

theorem polled_step {s t : PollSystem} {a : PollAction} (h : ∃ older taken, Polled s older taken)
    (small : ∀ v, a = .write v → v.Small) (taken : s.step crc32 a = some t) :
    ∃ older taken, Polled t older taken := by
  obtain ⟨older, read, h⟩ := h
  cases a with
  | write v =>
    obtain ⟨pos, after, wrote, rfl⟩ := step_write crc32 taken
    exact ⟨older, read, holds_write h.held (small v rfl) wrote, h.appended, h.total,
      h.seen.trans (List.prefix_append _ _), h.cursor, h.idle⟩
  | openRing =>
    obtain ⟨idle, rfl⟩ := step_openRing crc32 taken
    have none := h.idle idle
    subst none
    refine ⟨older, [], h.held, h.appended, h.total, List.nil_prefix, ?_, ?_⟩
    · rintro reader processed ⟨⟩
      exact ⟨rfl, rfl⟩
    · intro impossible
      cases impossible
  | next =>
    obtain ⟨reader, processed, polling, ⟨v, after, u, c, found, done, rfl⟩ |
      ⟨after, n, c, none, done, rfl⟩⟩ := step_next crc32 taken
    · obtain ⟨more, same⟩ := processEntry_ok done
      obtain ⟨rfl, rfl, seen⟩ := h.next polling found
      -- The reader of this call started over: what it reads extends its own part.
      refine ⟨older, read ++ [v], h.held, ?_, same.trans h.total, seen, ?_, ?_⟩
      · rw [more, h.appended, List.append_assoc]
      · rintro reader processed ⟨⟩
        exact ⟨rfl, by simp⟩
      · intro impossible
        cases impossible
    · obtain ⟨rfl, kept, total⟩ := finishUpdates_ok done
      obtain ⟨all, count⟩ := h.finish polling none
      refine ⟨older ++ read, [], h.held, ?_, ?_, List.nil_prefix, ?_, fun _ => rfl⟩
      · rw [kept, h.appended, List.append_nil]
      · rw [total, h.total, count, all, List.length_append]
      · intro reader processed impossible
        cases impossible

theorem exact_iff_firstRead {s t : PollSystem} {a : PollAction}
    (h : ∃ older taken, Polled s older taken) (taken : s.step crc32 a = some t) :
    ExactOnReturn s a t ↔ FirstRead s a t := by
  obtain ⟨older, read, h⟩ := h
  unfold ExactOnReturn FirstRead
  apply imp_congr_right
  rintro rfl
  apply imp_congr_right
  intro returned
  obtain ⟨reader, processed, polling, ⟨v, after, u, c, found, done, rfl⟩ |
    ⟨after, n, c, none, done, rfl⟩⟩ := step_next crc32 taken
  · cases returned
  · obtain ⟨rfl, kept, total⟩ := finishUpdates_ok done
    obtain ⟨all, count⟩ := h.finish polling none
    constructor
    · -- This call has read every entry, so the total is right only if no earlier one read any.
      intro exact
      have length := exact.total
      simp only [total, count] at length
      omega
    · intro first
      have older_nil : older = [] := List.eq_nil_of_length_eq_zero (h.total.symm.trans first)
      have same : c.appendedEntries = s.written := by
        rw [kept, h.appended, older_nil, List.nil_append, all]
      refine ⟨?_, same, ?_⟩
      · simp only [same]
        exact reads_all h.held
      · simp only [total, first, count, Nat.zero_add]

/-- Along any interleaving the segments hold every published entry exactly once
after each call if and only if only the first call to read anything returns. -/
theorem exact_polls_iff (capacity : Nat) (config : DeltaConsumerConfig) (locator : DeltaLocator)
    (disk : Disk) (acts : List PollAction) (small : ∀ v, .write v ∈ acts → v.Small) :
    Along (ofPartial (step crc32)) ExactOnReturn (start capacity config locator disk) acts ↔
      Along (ofPartial (step crc32)) FirstRead (start capacity config locator disk) acts := by
  apply along_iff (fun s => ∃ older taken, Polled s older taken) (fun a => ∀ v, a = .write v → v.Small)
  · intro s a t h _ taken
    exact exact_iff_firstRead crc32 h taken
  · intro s a t h small taken _
    exact polled_step crc32 h small taken
  · exact ⟨[], [], start_polled capacity config locator disk⟩
  · rintro a member v rfl
    exact small v member

theorem first_poll_exact :
    let v : RingEntryView := ⟨7, 1, Vector.replicate 32 9, [5, 6]⟩
    Along (ofPartial (step fun _ => 0)) ExactOnReturn (start 1024 ⟨"delta", 1000⟩ {} .empty)
      [.write v, .openRing, .next, .next] := by
  intro v
  refine (exact_polls_iff _ 1024 ⟨"delta", 1000⟩ {} .empty _ ?_).mpr (by decide)
  intro u member
  simp at member
  subst member
  decide

/-- One write and two calls: the second reads the entry again. -/
theorem second_poll_appends_again :
    let v : RingEntryView := ⟨7, 1, Vector.replicate 32 9, [5, 6]⟩
    ¬ Along (ofPartial (step fun _ => 0)) ExactOnReturn (start 1024 ⟨"delta", 1000⟩ {} .empty)
      [.write v, .openRing, .next, .next, .openRing, .next, .next] := by
  intro v exact
  have counts := along_mono (Q := fun _ a t => a = .next → t.polling = none →
    t.consumer.state.totalProcessed = t.written.length)
    (fun _ _ _ point last returned => (point last returned).total) exact
  exact absurd counts (by decide)

end PollSystem

end Hyperplane
