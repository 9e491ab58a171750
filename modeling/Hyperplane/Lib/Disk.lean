import Hyperplane.Lib.Method

/-! Files written through a buffer, on a disk whose operations can fail. A
failing write leaves a prefix of its bytes in the file. -/

inductive IoError where
  | failed
  deriving DecidableEq, Repr

/-- The contents of each path, and the result of each coming operation: none
lets it succeed, a number lets it fail after that many bytes. -/
structure Disk where
  files : String → Option (List UInt8)
  results : List (Option Nat)

namespace Disk

def empty : Disk := ⟨fun _ => none, []⟩

/-- Bytes written into old contents at a position, zeros filling a gap. -/
def overwrite (old : List UInt8) (pos : Nat) (bs : List UInt8) : List UInt8 :=
  old.take pos ++ (List.replicate (pos - old.length) 0 ++ (bs ++ old.drop (pos + bs.length)))

def put (path : String) (pos : Nat) (bs : List UInt8) (d : Disk) : Disk :=
  { d with files := fun p =>
      if p = path then some (overwrite ((d.files path).getD []) pos bs) else d.files p }

def next (d : Disk) : Option Nat × Disk :=
  match d.results with
  | [] => (none, d)
  | result :: rest => (result, { d with results := rest })

def attempt : Method Disk IoError Unit := fun d =>
  match d.next with
  | (none, after) => (.ok (), after)
  | (some _, after) => (.error .failed, after)

def openTruncated (path : String) : Method Disk IoError Unit := do
  attempt
  Method.modify fun d => { d with files := fun p => if p = path then some [] else d.files p }

def fill (path : String) (bs : List UInt8) : Method Disk IoError Unit := fun d =>
  match d.next with
  | (none, after) => (.ok (), after.put path 0 bs)
  | (some n, after) => (.error .failed, after.put path 0 (bs.take n))

/-- A whole file is written at once. -/
def write (path : String) (bs : List UInt8) : Method Disk IoError Unit := do
  openTruncated path
  if bs = [] then pure () else fill path bs

/-- What a whole file reads as, if it can be read. -/
def readable (path : String) (d : Disk) : Option (List UInt8) :=
  if d.next.1 = none then d.files path else none

def read (path : String) : Method Disk IoError (List UInt8) := do
  attempt
  let d ← Method.get
  match d.files path with
  | some bs => pure bs
  | none => Method.fail .failed

def remove (path : String) : Method Disk IoError Unit := do
  attempt
  let d ← Method.get
  if d.files path = none then Method.fail .failed
  else Method.modify fun d => { d with files := fun p => if p = path then none else d.files p }

/-- The first bytes of a file that has as many. -/
def readExact (path : String) (n : Nat) : Method Disk IoError (List UInt8) := do
  attempt
  let d ← Method.get
  match d.files path with
  | some bs => if bs.length < n then Method.fail .failed else pure (bs.take n)
  | none => Method.fail .failed

/-- The file has these contents, or is not there. -/
def set (path : String) (contents : Option (List UInt8)) (d : Disk) : Disk :=
  { d with files := fun p => if p = path then contents else d.files p }

/-- None of the coming n operations fails. -/
def Ready (n : Nat) (d : Disk) : Prop := ∀ r ∈ d.results.take n, r = none

theorem ready_add {d t : Disk} {m : Nat} (later : t.results = d.results.drop m) (n : Nat) :
    d.Ready (m + n) ↔ d.Ready m ∧ t.Ready n := by
  unfold Ready
  rw [List.take_add, later, List.forall_mem_append]

/-- No operation fails any more. -/
def Sound (d : Disk) : Prop := d.results = []

section sound

variable {d : Disk} {path : String}

theorem Sound.set (h : d.Sound) (path : String) (contents : Option (List UInt8)) :
    (d.set path contents).Sound := h

theorem Sound.ready (h : d.Sound) (n : Nat) : d.Ready n := by
  unfold Disk.Ready
  rw [show d.results = [] from h, List.take_nil]
  nofun

theorem Sound.next (h : d.Sound) : d.next = (none, d) := by
  unfold Disk.next
  rw [show d.results = [] from h]

theorem Sound.attempt (h : d.Sound) : Disk.attempt d = (.ok (), d) := by
  unfold Disk.attempt
  rw [h.next]

theorem Sound.readable (h : d.Sound) (path : String) : d.readable path = d.files path := by
  unfold Disk.readable
  rw [h.next, if_pos rfl]

theorem put_set (d : Disk) (path : String) (bs : List UInt8) :
    (d.set path (some [])).put path 0 bs = d.set path (some bs) := by
  unfold put set
  congr 1
  funext p
  by_cases same : p = path <;> simp [same, overwrite]

theorem Sound.write (h : d.Sound) (path : String) (bs : List UInt8) :
    Disk.write path bs d = (.ok (), d.set path (some bs)) := by
  have opened : Disk.openTruncated path d = (.ok (), d.set path (some [])) :=
    Method.bind_run h.attempt _
  refine (Method.bind_run opened _).trans ?_
  by_cases empty : bs = []
  · rw [if_pos empty, empty]
    rfl
  · rw [if_neg empty, fill, (h.set path (some [])).next]
    exact congrArg _ (put_set d path bs)

theorem Sound.read_some (h : d.Sound) {bs : List UInt8} (file : d.files path = some bs) :
    Disk.read path d = (.ok bs, d) := by
  refine (Method.bind_run h.attempt _).trans ((Method.bind_run rfl _).trans ?_)
  rw [file]
  rfl

theorem Sound.readExact (h : d.Sound) {bs : List UInt8} {n : Nat} (file : d.files path = some bs)
    (long : n ≤ bs.length) : Disk.readExact path n d = (.ok (bs.take n), d) := by
  refine (Method.bind_run h.attempt _).trans ((Method.bind_run rfl _).trans ?_)
  simp only [file, if_neg (Nat.not_lt.mpr long)]
  rfl

theorem Sound.read_none (h : d.Sound) (absent : d.files path = none) :
    Disk.read path d = (.error .failed, d) := by
  refine (Method.bind_run h.attempt _).trans ((Method.bind_run rfl _).trans ?_)
  rw [absent]
  rfl

theorem Sound.remove (h : d.Sound) (path : String) : (Disk.remove path d).2 = d.set path none := by
  have ran : Disk.remove path d = _ := (Method.bind_run h.attempt _).trans (Method.bind_run rfl _)
  rw [ran]
  split
  · rename_i absent
    have same : (fun p => if p = path then none else d.files p) = d.files := by
      funext p
      by_cases here : p = path
      · rw [if_pos here, here, absent]
      · rw [if_neg here]
    exact (congrArg (Disk.mk · d.results) same).symm
  · rfl

end sound

end Disk

/-- A file handle with the bytes that have not reached the file yet. -/
structure BufWriter where
  path : String
  pos : Nat
  buffer : List UInt8

namespace BufWriter

def capacity : Nat := 8192

def writeThrough (bs : List UInt8) : Method (Disk × BufWriter) IoError Unit := fun (disk, w) =>
  match disk.next with
  | (none, after) => (.ok (), after.put w.path w.pos bs, { w with pos := w.pos + bs.length })
  | (some n, after) => (.error .failed, after.put w.path w.pos (bs.take n),
      { w with pos := w.pos + (bs.take n).length })

/-- A failed flush keeps the bytes that were not written. -/
def flush : Method (Disk × BufWriter) IoError Unit := fun (disk, w) =>
  if w.buffer = [] then (.ok (), disk, w)
  else match writeThrough w.buffer (disk, w) with
    | (.ok _, after, v) => (.ok (), after, { v with buffer := [] })
    | (result, after, v) => (result, after, { v with buffer := w.buffer.drop (v.pos - w.pos) })

def push (bs : List UInt8) : Method (Disk × BufWriter) IoError Unit :=
  Method.modify fun (disk, w) => (disk, { w with buffer := w.buffer ++ bs })

def writeAll (bs : List UInt8) : Method (Disk × BufWriter) IoError Unit := do
  let (_, w) ← Method.get
  if bs.length < capacity - w.buffer.length then push bs
  else do
    if capacity - w.buffer.length < bs.length then flush
    if capacity ≤ bs.length then writeThrough bs else push bs

def seekStart (pos : Nat) : Method (Disk × BufWriter) IoError Unit := do
  flush
  Method.zoom Prod.fst (fun s disk => (disk, s.2)) id Disk.attempt
  Method.modify fun (disk, w) => (disk, { w with pos := pos })

/-- No file but the handle's own was touched. -/
structure Frame (s t : Disk × BufWriter) : Prop where
  path : t.2.path = s.2.path
  others : ∀ p, p ≠ s.2.path → t.1.files p = s.1.files p

/-- Bytes went to the file at the handle's position, whatever became of the buffer. -/
structure Wrote (s t : Disk × BufWriter) (front : List UInt8) : Prop extends Frame s t where
  pos : t.2.pos = s.2.pos + front.length
  body : ∀ contents, s.1.files s.2.path = some contents → s.2.pos ≤ contents.length →
    t.1.files s.2.path = some (Disk.overwrite contents s.2.pos front)

/-- The handle stands at the end of its file. -/
structure AtEnd (s : Disk × BufWriter) (contents : List UInt8) : Prop where
  file : s.1.files s.2.path = some contents
  pos : s.2.pos = contents.length

/-- What was in the buffer and what was added went to the end of the file, except
for what is in the buffer now. -/
structure Grows (s t : Disk × BufWriter) (added : List UInt8) : Prop extends Frame s t where
  body : ∀ contents, AtEnd s contents → ∃ more, AtEnd t (contents ++ more) ∧
    more ++ t.2.buffer = s.2.buffer ++ added

theorem overwrite_end (old bs : List UInt8) : Disk.overwrite old old.length bs = old ++ bs := by
  simp [Disk.overwrite]

theorem overwrite_start (old bs : List UInt8) : Disk.overwrite old 0 bs = bs ++ old.drop bs.length := by
  simp [Disk.overwrite]

theorem overwrite_drop {old bs : List UInt8} {pos n : Nat} (below : pos + bs.length ≤ n) :
    (Disk.overwrite old pos bs).drop n = old.drop n := by
  have front : (old.take pos ++ List.replicate (pos - old.length) 0).length = pos := by simp; omega
  have split : n = pos + (bs.length + (n - (pos + bs.length))) := by omega
  unfold Disk.overwrite
  rw [← List.append_assoc, split, ← List.drop_drop, List.drop_append_of_le_length (by omega),
    List.drop_of_length_le (Nat.le_of_eq front), List.nil_append, ← List.drop_drop,
    List.drop_left, List.drop_drop, ← Nat.add_assoc]

theorem Frame.refl (s : Disk × BufWriter) : Frame s s where
  path := rfl
  others _ _ := rfl

theorem Frame.trans {s m t : Disk × BufWriter} (first : Frame s m) (second : Frame m t) :
    Frame s t where
  path := second.path.trans first.path
  others p other := by
    rw [second.others p (by rwa [first.path]), first.others p other]

theorem Grows.refl (s : Disk × BufWriter) : Grows s s [] where
  toFrame := .refl s
  body contents atEnd := ⟨[], by rwa [List.append_nil], by simp⟩

theorem Grows.trans {s m t : Disk × BufWriter} {front rest : List UInt8} (first : Grows s m front)
    (second : Grows m t rest) : Grows s t (front ++ rest) where
  toFrame := first.toFrame.trans second.toFrame
  body contents atEnd := by
    obtain ⟨more, here, split⟩ := first.body contents atEnd
    obtain ⟨further, there, again⟩ := second.body _ here
    refine ⟨more ++ further, by rwa [← List.append_assoc], ?_⟩
    rw [List.append_assoc, again, ← List.append_assoc, split, List.append_assoc]

theorem Wrote.atEnd {s t : Disk × BufWriter} {front contents : List UInt8} (wrote : Wrote s t front)
    (atEnd : AtEnd s contents) : AtEnd t (contents ++ front) where
  file := by
    rw [wrote.path, wrote.body contents atEnd.file (Nat.le_of_eq atEnd.pos), atEnd.pos, overwrite_end]
  pos := by rw [wrote.pos, atEnd.pos, List.length_append]

theorem Wrote.flushed {s t : Disk × BufWriter} {front : List UInt8} (wrote : Wrote s t front)
    (split : front ++ t.2.buffer = s.2.buffer) : Grows s t [] where
  toFrame := wrote.toFrame
  body _ atEnd := ⟨front, wrote.atEnd atEnd, by rw [split, List.append_nil]⟩

theorem Wrote.through {s t : Disk × BufWriter} {front : List UInt8} (wrote : Wrote s t front)
    (before : s.2.buffer = []) (after : t.2.buffer = []) : Grows s t front where
  toFrame := wrote.toFrame
  body _ atEnd := ⟨front, wrote.atEnd atEnd, by rw [before, after, List.append_nil, List.nil_append]⟩

theorem wrote_put {s : Disk × BufWriter} {after : Disk} (same : after.files = s.1.files)
    (front buffer : List UInt8) : Wrote s (after.put s.2.path s.2.pos front,
      ⟨s.2.path, s.2.pos + front.length, buffer⟩) front where
  path := rfl
  pos := rfl
  others p other := by simp [Disk.put, other, same]
  body contents file _ := by simp [Disk.put, file, same]

theorem next_files (d : Disk) : d.next.2.files = d.files := by
  unfold Disk.next
  split <;> rfl

theorem attempt_ends (d : Disk) : Method.Ends Disk.attempt d
    (fun _ t => d.next.1 = none ∧ t.files = d.files) (fun t => d.next.1 ≠ none ∧ t.files = d.files) := by
  have same := next_files d
  unfold Method.Ends Disk.attempt
  cases ran : d.next with
  | mk result after =>
    rw [ran] at same
    cases result with
    | none => exact ⟨rfl, same⟩
    | some n => exact ⟨nofun, same⟩

theorem openTruncated_ends (path : String) (d : Disk) : Method.Ends (Disk.openTruncated path) d
    (fun _ t => d.next.1 = none ∧ t.files path = some [] ∧ ∀ p, p ≠ path → t.files p = d.files p)
    (fun t => d.next.1 ≠ none ∧ t.files = d.files) := by
  unfold Disk.openTruncated
  simp only [Method.ends_bind, Method.ends_modify]
  refine (attempt_ends d).mono ?_ (fun _ failed => failed)
  rintro _ t ⟨ready, same⟩
  refine ⟨ready, by simp, ?_⟩
  intro p other
  simp only [if_neg other, same]

theorem writeThrough_ends (bs : List UInt8) (s : Disk × BufWriter) : Method.Ends (writeThrough bs) s
    (fun _ t => Wrote s t bs ∧ t.2.buffer = s.2.buffer)
    (fun t => ∃ front, front <+: bs ∧ Wrote s t front ∧ t.2.buffer = s.2.buffer) := by
  have same := next_files s.1
  obtain ⟨disk, w⟩ := s
  unfold Method.Ends writeThrough
  cases ran : disk.next with
  | mk result after =>
    simp only [ran] at same ⊢
    cases result with
    | none => exact ⟨wrote_put same bs _, rfl⟩
    | some n => exact ⟨bs.take n, List.take_prefix n bs, wrote_put same (bs.take n) _, rfl⟩

theorem flush_ends (s : Disk × BufWriter) : Method.Ends flush s
    (fun _ t => ∃ front, Wrote s t front ∧ front ++ t.2.buffer = s.2.buffer ∧ t.2.buffer = [])
    (fun t => ∃ front, Wrote s t front ∧ front ++ t.2.buffer = s.2.buffer) := by
  have through := writeThrough_ends s.2.buffer s
  obtain ⟨disk, w⟩ := s
  unfold Method.Ends flush
  by_cases empty : w.buffer = []
  · simp only [if_pos empty]
    refine ⟨[], ⟨.refl _, rfl, ?_⟩, rfl, empty⟩
    intro contents file inside
    refine file.trans (congrArg some ?_)
    simp [Disk.overwrite, show w.pos - contents.length = 0 from Nat.sub_eq_zero_of_le inside]
  · unfold Method.Ends at through
    simp only [if_neg empty]
    cases ran : writeThrough w.buffer (disk, w) with
    | mk result t =>
      simp only [ran] at through ⊢
      cases result with
      | ok u =>
        refine ⟨w.buffer, ?_, List.append_nil _, rfl⟩
        exact ⟨⟨through.1.path, through.1.others⟩, through.1.pos, through.1.body⟩
      | error e =>
        -- The buffer keeps what is behind the bytes that got through.
        obtain ⟨front, ⟨rest, split⟩, wrote, _⟩ := through
        have pos : t.2.pos = w.pos + front.length := wrote.pos
        refine ⟨front, ⟨⟨wrote.path, wrote.others⟩, wrote.pos, wrote.body⟩, ?_⟩
        simp only [pos, Nat.add_sub_cancel_left, ← split, List.drop_left]
      | fault => exact through

theorem flush_grows (s : Disk × BufWriter) : Method.Ends flush s
    (fun _ t => Grows s t [] ∧ t.2.buffer = []) (fun t => Grows s t []) :=
  (flush_ends s).mono (fun _ _ ⟨_, wrote, split, empty⟩ => ⟨wrote.flushed split, empty⟩)
    (fun _ ⟨_, wrote, split⟩ => wrote.flushed split)

theorem push_grows (bs : List UInt8) (s : Disk × BufWriter) :
    Grows s (s.1, { s.2 with buffer := s.2.buffer ++ bs }) bs where
  path := rfl
  others _ _ := rfl
  body contents atEnd := by
    refine ⟨[], ⟨?_, ?_⟩, rfl⟩
    · rw [List.append_nil]
      exact atEnd.file
    · rw [List.append_nil]
      exact atEnd.pos

theorem writeAll_grows (bs : List UInt8) (s : Disk × BufWriter) : Method.Ends (writeAll bs) s
    (fun _ t => Grows s t bs) (fun t => ∃ added, Grows s t added) := by
  unfold writeAll
  simp only [Method.ends_bind, Method.ends_get]
  split
  · exact push_grows bs s
  · rename_i full
    have last : ∀ m, Grows s m [] → (capacity ≤ bs.length → m.2.buffer = []) →
        Method.Ends (if capacity ≤ bs.length then writeThrough bs else push bs) m
          (fun _ t => Grows s t bs) (fun t => ∃ added, Grows s t added) := by
      intro m grown empty
      split
      · rename_i long
        refine (writeThrough_ends bs m).mono ?_ ?_
        · rintro _ t ⟨wrote, same⟩
          exact grown.trans (wrote.through (empty long) (same.trans (empty long)))
        · rintro t ⟨front, _, wrote, same⟩
          exact ⟨[] ++ front, grown.trans (wrote.through (empty long) (same.trans (empty long)))⟩
      · exact grown.trans (push_grows bs m)
    split
    · rw [Method.ends_bind]
      refine (flush_grows s).mono ?_ ?_
      · rintro _ m ⟨grown, empty⟩
        exact last m grown fun _ => empty
      · intro t grown
        exact ⟨[], grown⟩
    · rename_i fits
      refine last s (.refl s) fun long => List.eq_nil_of_length_eq_zero ?_
      have cap : capacity = 8192 := rfl
      omega

theorem writeAll_fits {bs : List UInt8} {s : Disk × BufWriter} (fits : bs.length < capacity - s.2.buffer.length)
    (Q : Unit → Disk × BufWriter → Prop) (J : Disk × BufWriter → Prop) :
    Method.Ends (writeAll bs) s Q J ↔ Q () (s.1, { s.2 with buffer := s.2.buffer ++ bs }) := by
  unfold writeAll
  simp only [Method.ends_bind, Method.ends_get, if_pos fits]
  rfl

/-- After a seek the buffer is empty; a seek that fails may have flushed a part of it. -/
theorem seekStart_ends (pos : Nat) (s : Disk × BufWriter) : Method.Ends (seekStart pos) s
    (fun _ t => ∃ m, Grows s m [] ∧ m.2.buffer = [] ∧ t.1.files = m.1.files ∧
      t.2 = { m.2 with pos := pos })
    (fun t => Grows s t []) := by
  unfold seekStart
  simp only [Method.ends_bind, Method.ends_zoom, Method.ends_modify]
  refine (flush_grows s).mono ?_ (fun _ grown => grown)
  rintro _ m ⟨grown, empty⟩
  refine (attempt_ends m.1).mono ?_ ?_
  · rintro _ t ⟨_, same⟩
    exact ⟨m, grown, empty, same, rfl⟩
  · rintro t ⟨_, same⟩
    refine ⟨⟨grown.path, ?_⟩, ?_⟩
    · intro p other
      exact (congrFun same p).trans (grown.others p other)
    · intro contents atEnd
      obtain ⟨more, after, split⟩ := grown.body contents atEnd
      exact ⟨more, ⟨(congrFun same _).trans after.file, after.pos⟩, split⟩

section results

variable {s : Disk × BufWriter}

theorem writeThrough_ready (bs : List UInt8) (s : Disk × BufWriter) : Method.Ends (writeThrough bs) s
    (fun _ t => s.1.Ready 1 ∧ t.1.results = s.1.results.drop 1) (fun _ => ¬ s.1.Ready 1) := by
  obtain ⟨⟨files, results⟩, w⟩ := s
  cases results with
  | nil => exact ⟨nofun, rfl⟩
  | cons result rest =>
    cases result with
    | none => exact ⟨fun r member => List.mem_singleton.mp member, rfl⟩
    | some n => exact fun ready => nomatch ready (some n) (List.mem_singleton.mpr rfl)

theorem flush_ready (pending : s.2.buffer ≠ []) : Method.Ends flush s
    (fun _ t => s.1.Ready 1 ∧ t.1.results = s.1.results.drop 1) (fun _ => ¬ s.1.Ready 1) := by
  have through := writeThrough_ready s.2.buffer s
  obtain ⟨disk, w⟩ := s
  unfold Method.Ends flush at *
  simp only [if_neg pending]
  cases ran : writeThrough w.buffer (disk, w) with
  | mk result t =>
    simp only [ran] at through ⊢
    cases result with
    | ok u => exact through
    | error e => exact through
    | fault => exact through

/-- How many operations it takes to write bytes behind this many buffered ones and flush them. -/
def operations (buffered added : Nat) : Nat := if buffered + added ≤ capacity then 1 else 2

theorem writeAll_flush_ready (bs : List UInt8) (pending : s.2.buffer ≠ []) (short : s.2.buffer.length ≤ capacity) :
    Method.Ends (writeAll bs) s
      (fun _ m => Method.Ends flush m (fun _ _ => s.1.Ready (operations s.2.buffer.length bs.length))
        (fun _ => ¬ s.1.Ready (operations s.2.buffer.length bs.length)))
      (fun _ => ¬ s.1.Ready (operations s.2.buffer.length bs.length)) := by
  have positive := List.length_pos_iff.mpr pending
  -- Bytes that are pushed onto what is buffered are flushed with it.
  have pushed (m : Disk × BufWriter) (buffered : m.2.buffer ++ bs ≠ []) :
      Method.Ends flush (m.1, { m.2 with buffer := m.2.buffer ++ bs })
        (fun _ _ => m.1.Ready 1) (fun _ => ¬ m.1.Ready 1) :=
    (flush_ready (s := (m.1, { m.2 with buffer := m.2.buffer ++ bs })) buffered).mono
      (fun _ _ after => after.1) (fun _ failed => failed)
  by_cases fits : s.2.buffer.length + bs.length ≤ capacity
  · have once : operations s.2.buffer.length bs.length = 1 := if_pos fits
    rw [once]
    unfold writeAll
    simp only [Method.ends_bind, Method.ends_get]
    split
    · exact pushed s (by simp [pending])
    · rw [if_neg (by omega), if_neg (by omega)]
      exact pushed s (by simp [pending])
  · have twice : operations s.2.buffer.length bs.length = 2 := if_neg fits
    rw [twice]
    unfold writeAll
    simp only [Method.ends_bind, Method.ends_get]
    rw [if_neg (by omega), if_pos (by omega), Method.ends_bind]
    refine ((flush_ready pending).and (flush_grows s)).mono ?_ ?_
    · rintro _ m ⟨⟨first, later⟩, _, empty⟩
      have both : s.1.Ready 2 ↔ m.1.Ready 1 :=
        (Disk.ready_add later 1).trans (and_iff_right first)
      rw [both]
      split
      · refine (writeThrough_ready bs m).and (writeThrough_ends bs m) |>.mono ?_ (fun _ failed => failed.1)
        rintro _ t ⟨⟨second, _⟩, _, same⟩
        exact Method.ends_of_run (if_pos (same.trans empty) : flush t = (.ok (), t)) _ second
      · have some : bs ≠ [] := by
          rintro rfl
          simp only [List.length_nil] at fits
          omega
        exact pushed m (by simp [some])
    · rintro t ⟨failed, _⟩ ready
      exact failed ((Disk.ready_add (m := 1) (t := ⟨s.1.files, s.1.results.drop 1⟩) rfl 1).mp ready).1

theorem writeThrough_sound (h : s.1.Sound) (bs : List UInt8) :
    Method.Ends (writeThrough bs) s (fun _ t => t.1.Sound) (fun _ => False) :=
  (writeThrough_ready bs s).mono (fun _ _ after => after.2.trans (by rw [show s.1.results = [] from h]; rfl))
    (fun _ failed => failed (h.ready 1))

theorem flush_sound (h : s.1.Sound) : Method.Ends flush s (fun _ t => t.1.Sound) (fun _ => False) := by
  by_cases empty : s.2.buffer = []
  · exact Method.ends_of_run (if_pos empty : flush s = (.ok (), s)) _ h
  · exact (flush_ready empty).mono
      (fun _ _ after => after.2.trans (by rw [show s.1.results = [] from h]; rfl))
      (fun _ failed => failed (h.ready 1))

theorem writeAll_sound (h : s.1.Sound) (bs : List UInt8) :
    Method.Ends (writeAll bs) s (fun _ t => t.1.Sound) (fun _ => False) := by
  unfold writeAll
  simp only [Method.ends_bind, Method.ends_get]
  have last : ∀ m : Disk × BufWriter, m.1.Sound →
      Method.Ends (if capacity ≤ bs.length then writeThrough bs else push bs) m
        (fun _ t => t.1.Sound) (fun _ => False) := by
    intro m sound
    split
    · exact writeThrough_sound sound bs
    · exact sound
  split
  · exact h
  · split
    · rw [Method.ends_bind]
      exact (flush_sound h).mono (fun _ m sound => last m sound) (fun _ none => none)
    · exact last s h

theorem seekStart_sound (h : s.1.Sound) (pos : Nat) :
    Method.Ends (seekStart pos) s (fun _ t => t.1.Sound) (fun _ => False) := by
  unfold seekStart
  simp only [Method.ends_bind, Method.ends_zoom, Method.ends_modify]
  refine (flush_sound h).mono (fun _ m sound => ?_) (fun _ none => none)
  exact Method.ends_of_run sound.attempt _ sound

end results

/-- What the handle has yet to write ends before a bound; the file from the bound
on is the tail. -/
structure Below (n : Nat) (s : Disk × BufWriter) (tail : List UInt8) : Prop where
  ends : s.2.pos + s.2.buffer.length ≤ n
  file : ∃ contents, s.1.files s.2.path = some contents ∧ s.2.pos ≤ contents.length ∧
    contents.drop n = tail

theorem Wrote.below {n : Nat} {s t : Disk × BufWriter} {tail front : List UInt8}
    (wrote : Wrote s t front) (split : front ++ t.2.buffer = s.2.buffer) (below : Below n s tail) :
    Below n t tail := by
  obtain ⟨contents, file, inside, rest⟩ := below.file
  have ends := below.ends
  rw [← split, List.length_append] at ends
  constructor
  · rw [wrote.pos]
    omega
  · rw [wrote.path, wrote.pos]
    refine ⟨_, wrote.body contents file inside, ?_, ?_⟩
    · simp only [Disk.overwrite, List.length_append, List.length_take, List.length_replicate]
      omega
    · rw [overwrite_drop (by omega), rest]

end BufWriter

theorem Disk.read_ends (path : String) (d : Disk) : Method.Ends (Disk.read path) d
    (fun bs _ => d.readable path = some bs) (fun _ => d.readable path = none) := by
  unfold Disk.read
  simp only [Method.ends_bind, Method.ends_get]
  refine (BufWriter.attempt_ends d).mono ?_ ?_
  · rintro _ t ⟨ready, same⟩
    unfold Disk.readable
    rw [if_pos ready, same]
    cases d.files path with
    | none => exact rfl
    | some bs => exact rfl
  · rintro t ⟨failed, _⟩
    exact if_neg failed
