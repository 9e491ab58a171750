import Hyperplane.Delta.SegmentLayout
import Hyperplane.Lib.Crc32

/-! Segments in which appends may fail. What a failed append has left in the file or the
buffer is behind the writer's position, and later entries are placed behind it. -/
namespace Hyperplane
open Bytes BufWriter Transition

/-- The entries cut by their size fields, when they are all there is. -/
def walk : Nat → List UInt8 → Option (List (List UInt8))
  | 0, bs => if bs = [] then some [] else none
  | n + 1, bs =>
    if bs = [] then some []
    else
      let size := ofLE (bs.take 4)
      if DeltaEntry.headerSize ≤ size ∧ size ≤ bs.length then (walk n (bs.drop size)).map (bs.take size :: ·)
      else none

theorem flatten_of_walk {n : Nat} {bs : List UInt8} {entries : List (List UInt8)}
    (walked : walk n bs = some entries) : entries.flatten = bs := by
  induction n generalizing bs entries with
  | zero =>
    unfold walk at walked
    split at walked
    · rename_i none
      cases walked
      exact none.symm
    · cases walked
  | succ n ih =>
    unfold walk at walked
    split at walked
    · rename_i none
      cases walked
      exact none.symm
    · dsimp only at walked
      split at walked
      · obtain ⟨later, found, rfl⟩ := Option.map_eq_some_iff.mp walked
        rw [List.flatten_cons, ih found, List.take_append_drop]
      · cases walked

/-- Entries with their own lengths in front are walked one by one. -/
theorem walk_flatten {n : Nat} {entries : List (List UInt8)} (enough : entries.length ≤ n)
    (sized : ∀ e ∈ entries, DeltaEntry.headerSize ≤ e.length ∧ ofLE (e.take 4) = e.length) :
    walk n entries.flatten = some entries := by
  induction entries generalizing n with
  | nil => cases n <;> rfl
  | cons e rest ih =>
    obtain ⟨long, size⟩ := sized e List.mem_cons_self
    have header : DeltaEntry.headerSize = 64 := rfl
    cases n with
    | zero => cases enough
    | succ n =>
      have later := ih (Nat.le_of_succ_le_succ enough) fun f member => sized f (List.mem_cons_of_mem e member)
      have front : (e ++ rest.flatten).take 4 = e.take 4 := List.take_append_of_le_length (by omega)
      have some : ¬ e ++ rest.flatten = [] := by
        intro none
        rw [(List.append_eq_nil_iff.mp none).1] at long
        cases long
      rw [List.flatten_cons, walk, if_neg some]
      dsimp only
      rw [front, size, if_pos ⟨long, by simp⟩, List.drop_left, List.take_left, later]
      rfl

/-- Every append that returned an offset has its entry there. -/
def Located (updates : List SegmentUpdate) (results : List (Outcome SegmentError UInt64))
    (contents : List UInt8) : Prop :=
  ∀ (i : Nat) (u : SegmentUpdate) (offset : UInt64), updates[i]? = some u → results[i]? = some (.ok offset) →
    ∃ front bs rest, contents = front ++ (bs ++ rest) ∧ front.length = offset.toNat ∧ u.IsEntry bs

/-- The header counts the entries found behind it, and their bytes. -/
def Described (contents : List UInt8) : Prop :=
  ∃ entries, walk contents.length (contents.drop SegmentHeader.size) = some entries ∧
    entries.length = (SegmentHeader.ofBytes contents).entryCount.toNat ∧
    entries.flatten.length = (SegmentHeader.ofBytes contents).dataSize.toNat

section located

variable {updates : List SegmentUpdate} {contents : List UInt8}

open SegmentWriter (entriesOf entriesOf_append entriesOf_singleton length_entriesOf)

theorem entriesOf_split {i : Nat} {u : SegmentUpdate} (found : updates[i]? = some u) :
    entriesOf updates = entriesOf (updates.take i) ++ (u.entry ++ entriesOf (updates.drop (i + 1))) := by
  obtain ⟨below, rfl⟩ := List.getElem?_eq_some_iff.mp found
  have split : updates = updates.take i ++ ([updates[i]] ++ updates.drop (i + 1)) := by
    rw [List.singleton_append, ← List.drop_eq_getElem_cons below, List.take_append_drop]
  rw [← entriesOf_singleton, ← entriesOf_append, ← entriesOf_append, ← split]

/-- There are fewer entries than bytes of them. -/
theorem length_le_entriesOf (updates : List SegmentUpdate) : updates.length ≤ (entriesOf updates).length := by
  induction updates with
  | nil => exact Nat.le_refl 0
  | cons u rest ih =>
    have front : entriesOf (u :: rest) = u.entry ++ entriesOf rest := rfl
    rw [front, List.length_append, u.length_entry, List.length_cons]
    omega

theorem located (body : contents.drop SegmentHeader.size = entriesOf updates)
    (room : (entriesOf updates).length < 2 ^ 64) {results : List (Outcome SegmentError UInt64)}
    (returned : ∀ i, i < updates.length →
      results[i]? = some (.ok (.ofNat (SegmentHeader.size + (entriesOf (updates.take i)).length)))) :
    Located updates results contents := by
  intro i u offset found ran
  have below := (List.getElem?_eq_some_iff.mp found).1
  rw [returned i below] at ran
  cases ran
  have split := entriesOf_split found
  have total := congrArg List.length split
  have size : SegmentHeader.size = 48 := rfl
  have entry := u.length_entry
  simp only [List.length_append] at total
  have long := congrArg List.length body
  rw [List.length_drop] at long
  refine ⟨contents.take SegmentHeader.size ++ entriesOf (updates.take i), u.entry,
    entriesOf (updates.drop (i + 1)), ?_, ?_, u.isEntry_entry⟩
  · rw [List.append_assoc, ← split, ← body, List.take_append_drop]
  · rw [List.length_append, List.length_take, UInt64.toNat_ofNat']
    omega

/-- The entries are found again if their sizes are not cut off. -/
theorem walk_entriesOf (fits : ∀ u ∈ updates, u.Fits) {n : Nat} (enough : updates.length ≤ n) :
    walk n (entriesOf updates) = some (updates.map SegmentUpdate.entry) := by
  refine walk_flatten (by rwa [List.length_map]) fun e member => ?_
  obtain ⟨u, given, rfl⟩ := List.mem_map.mp member
  have small : u.data.length < 2 ^ 32 - 64 := fits u given
  obtain ⟨padding, _, layout⟩ := u.isEntry_entry
  have size : u.entry.take 4 = toLE 4 (64 + u.data.length) := by
    rw [layout]
    exact List.take_left' (length_toLE 4 _)
  rw [size, ofLE_toLE_of_lt (by omega), u.length_entry]
  exact ⟨Nat.le_add_right 64 _, rfl⟩

theorem SegmentUpdate.IsEntry.slot {u : SegmentUpdate} {bs : List UInt8} (entry : u.IsEntry bs)
    (rest : List UInt8) : ((bs ++ rest).drop 8).take 8 = toLE 8 u.slot.toNat := by
  obtain ⟨padding, width, rfl⟩ := entry
  have front : (toLE 4 (64 + u.data.length) ++ padding).length = 8 := by
    rw [List.length_append, length_toLE, width]
  simp only [List.append_assoc]
  rw [← List.append_assoc, List.drop_left' front, List.take_left' (length_toLE 8 _)]

end located

instance decidableDescribed (contents : List UInt8) : Decidable (Described contents) :=
  inferInstanceAs (Decidable (∃ entries ∈ walk contents.length (contents.drop SegmentHeader.size),
    entries.length = (SegmentHeader.ofBytes contents).entryCount.toNat ∧
      entries.flatten.length = (SegmentHeader.ofBytes contents).dataSize.toNat))

namespace SegmentWriter

variable {crc32 : List UInt8 → UInt32}

/-- The file and what is buffered exceed what was counted by at least so many bytes. -/
def Exceeds (n : Nat) (s : Disk × SegmentWriter) : Prop := ∃ contents, AtEnd (handle s) contents ∧
  SegmentHeader.size + s.2.header.dataSize.toNat + n ≤ (contents ++ s.2.file.buffer).length

theorem Exceeds.grow {n : Nat} {s t : Disk × SegmentWriter} (h : Exceeds n s) {added : List UInt8}
    (grows : Grows (handle s) (handle t) added) (counted more : Nat)
    (size : t.2.header.dataSize.toNat ≤ s.2.header.dataSize.toNat + counted)
    (long : counted + more ≤ added.length) : Exceeds (n + more) t := by
  obtain ⟨contents, atEnd, exceeds⟩ := h
  obtain ⟨written, after, split⟩ := grows.body contents atEnd
  refine ⟨contents ++ written, after, ?_⟩
  have total := congrArg List.length split
  simp only [handle, List.length_append] at total exceeds ⊢
  omega

theorem dataSize_appended {u : SegmentUpdate} {s t : Disk × SegmentWriter} {offset : UInt64}
    (appended : Appended u.slot u.writeVersion u.pubkey u.data s offset t) :
    t.2.header.dataSize.toNat ≤ s.2.header.dataSize.toNat + u.entry.length % 2 ^ 32 := by
  rw [appended.header, u.length_entry]
  simp only [UInt64.toNat_add, UInt32.toNat_toUInt64, entrySize, UInt32.toNat_ofNat', DeltaEntry.headerSize]
  exact Nat.mod_le _ _

theorem Exceeds.afterAppend {n : Nat} {s : Disk × SegmentWriter} (h : Exceeds n s) (u : SegmentUpdate) :
    Exceeds n (afterAppend s u) := by
  have ends : Method.Ends (appendUpdate u) s (fun _ t => Exceeds n t) (Exceeds n) := by
    refine (append_exact u.slot u.writeVersion u.pubkey u.data s).mono ?_ ?_
    · intro _ t appended
      have cut : u.entry.length % 2 ^ 32 + 0 ≤ u.entry.length := Nat.mod_le u.entry.length (2 ^ 32)
      exact h.grow appended.grows _ 0 (dataSize_appended appended) cut
    · rintro t ⟨added, failed⟩
      exact h.grow failed.grows 0 0 (by rw [failed.header]; exact Nat.le_refl _) (Nat.zero_le _)
  exact ends.state fun _ _ exceeds => exceeds

section placed

variable {path : String} {startSlot : UInt64} {updates : List SegmentUpdate} {s : Disk × SegmentWriter}

theorem Placed.exceeds (h : Placed path startSlot updates s) : Exceeds 0 s := by
  obtain ⟨contents, front, atEnd, length, split⟩ := h.file
  refine ⟨contents, atEnd, ?_⟩
  have counted : s.2.header.dataSize.toNat ≤ (entriesOf updates).length := by
    rw [h.header]
    exact (UInt64.toNat_ofNat' ..).trans_le (Nat.mod_le _ _)
  rw [split, List.length_append, length]
  omega

/-- A failed append leaves bytes that are not counted, and so does a data length that is
too much for the size field. -/
theorem Placed.breaks (h : Placed path startSlot updates s) {u : SegmentUpdate}
    (wrong : ¬ (Writes s u ∧ u.Fits)) : Exceeds 1 (SegmentWriter.afterAppend s u) := by
  have ends : Method.Ends (appendUpdate u) s (fun _ t => Exceeds 1 t) (Exceeds 1) := by
    refine ((append_exact u.slot u.writeVersion u.pubkey u.data s).and (append_ready u h.buffered)).mono ?_ ?_
    · rintro _ t ⟨appended, writes⟩
      have tooLong : ¬ u.data.length < 2 ^ 32 - 64 := fun fits => wrong ⟨writes, fits⟩
      have length := u.length_entry
      have cut : u.entry.length % 2 ^ 32 + 1 ≤ u.entry.length := by
        have below := Nat.mod_lt u.entry.length (by decide : 0 < 2 ^ 32)
        omega
      exact h.exceeds.grow appended.grows _ 1 (dataSize_appended appended) cut
    · rintro t ⟨_, _, added, long, failed⟩
      have some : 0 + 1 ≤ added.length := Nat.le_trans (by decide) long
      exact h.exceeds.grow failed.grows 0 1 (by rw [failed.header]; exact Nat.le_refl _) some
  exact ends.state fun _ _ exceeds => exceeds

/-- Either everything is written and counted, or the file is longer than what was counted. -/
theorem Placed.writes_or_exceeds (h : Placed path startSlot updates s) (rest : List SegmentUpdate) :
    (AllWrite s rest ∧ ∀ u ∈ rest, u.Fits) ∨ Exceeds 1 (SegmentWriter.appends rest s).2 := by
  induction rest generalizing updates s with
  | nil => exact .inl ⟨trivial, nofun⟩
  | cons u rest ih =>
    by_cases good : Writes s u ∧ u.Fits
    · obtain ⟨t, ran, placed⟩ := h.append_writes good.2 good.1
      have next : SegmentWriter.afterAppend s u = t := congrArg Prod.snd ran
      rcases ih placed with ⟨writes, fits⟩ | exceeds
      · refine .inl ⟨?_, List.forall_mem_cons.mpr ⟨good.2, fits⟩⟩
        rintro _ rfl
        exact ⟨good.1, next ▸ writes⟩
      · refine .inr ?_
        rw [← next] at exceeds
        exact exceeds
    · refine .inr ?_
      rw [appends_state, List.foldl_cons]
      exact foldl_invariant _ (fun _ u exceeds => exceeds.afterAppend u) (h.breaks good) rest

end placed

/-- Nothing fails and nothing is cut off: neither the size of an entry nor their sum. -/
structure Undisturbed (s : Disk × SegmentWriter) (updates : List SegmentUpdate) : Prop where
  writes : AllWrite s updates
  fits : ∀ u ∈ updates, u.data.length < 2 ^ 32 - 64
  room : (updates.map fun u => 64 + u.data.length).sum < 2 ^ 64

theorem Placed.disturbed_exceeds {path : String} {startSlot : UInt64} {updates : List SegmentUpdate}
    {s : Disk × SegmentWriter} (h : Placed path startSlot [] s) (disturbed : ¬ Undisturbed s updates) :
    Exceeds 1 (SegmentWriter.appends updates s).2 := by
  rcases h.writes_or_exceeds updates with ⟨writes, fits⟩ | exceeds
  · -- The entries are all counted, in a sum that does not hold their number.
    obtain ⟨last, _⟩ := h.appends fits writes
    rw [List.nil_append] at last
    obtain ⟨contents, front, atEnd, length, split⟩ := last.file
    have full : ¬ (entriesOf updates).length < 2 ^ 64 := by
      rw [length_entriesOf]
      exact fun room => disturbed ⟨writes, fits, room⟩
    have small := (SegmentWriter.appends updates s).2.2.header.dataSize.toNat_lt
    refine ⟨contents, atEnd, ?_⟩
    rw [split, List.length_append, length]
    omega
  · exact exceeds

theorem path_afterAppend (s : Disk × SegmentWriter) (u : SegmentUpdate) :
    (afterAppend s u).2.file.path = s.2.file.path := by
  have ends : Method.Ends (appendUpdate u) s (fun _ t => t.2.file.path = s.2.file.path)
      (fun t => t.2.file.path = s.2.file.path) :=
    (append_exact u.slot u.writeVersion u.pubkey u.data s).mono (fun _ _ appended => appended.grows.path)
      (fun _ ⟨_, failed⟩ => failed.grows.path)
  exact ends.state fun _ _ same => same

/-- A header and the entries that it was written for describe each other. -/
theorem described {startSlot : UInt64} {updates : List SegmentUpdate} {h : SegmentHeader}
    (header : h = { headerOf startSlot updates with checksum := h.checksum })
    (fits : ∀ u ∈ updates, u.Fits) (room : (entriesOf updates).length < 2 ^ 64) :
    Described (h.bytes ++ entriesOf updates) := by
  refine ⟨updates.map SegmentUpdate.entry, ?_, ?_, ?_⟩
  · rw [← length_header h, List.drop_left, List.length_append]
    exact walk_entriesOf fits (Nat.le_trans (length_le_entriesOf updates) (Nat.le_add_left _ _))
  · rw [h.ofBytes_bytes, header, List.length_map]
    exact (UInt64.toNat_ofNat_of_lt' (Nat.lt_of_le_of_lt (length_le_entriesOf updates) room)).symm
  · rw [h.ofBytes_bytes, header]
    exact (UInt64.toNat_ofNat_of_lt' room).symm

/-- A header that counts fewer bytes than stand behind it describes nothing. -/
theorem not_described {h : SegmentHeader} {body : List UInt8} (more : h.dataSize.toNat < body.length) :
    ¬ Described (h.bytes ++ body) := by
  rintro ⟨entries, walked, _, bytes⟩
  rw [← length_header h, List.drop_left] at walked
  rw [h.ofBytes_bytes, flatten_of_walk walked] at bytes
  omega

section finalized

variable {path : String} {startSlot : UInt64} {updates : List SegmentUpdate} {s : Disk × SegmentWriter}

theorem Placed.located (h : Placed path startSlot [] s) (same : Undisturbed s updates) {contents : List UInt8}
    (body : contents.drop SegmentHeader.size = entriesOf updates) :
    Located updates (SegmentWriter.appends updates s).1 contents := by
  obtain ⟨_, _, returned⟩ := h.appends same.fits same.writes
  exact Hyperplane.located body (length_entriesOf updates ▸ same.room) returned

theorem Placed.finalize_undisturbed (h : Placed path startSlot [] s) (same : Undisturbed s updates) :
    Method.Ends (finalize crc32) (SegmentWriter.appends updates s).2
      (fun _ t => ∃ contents, t.1.files path = some contents ∧
        Located updates (SegmentWriter.appends updates s).1 contents ∧ Described contents)
      (fun _ => True) := by
  obtain ⟨last, _⟩ := h.appends same.fits same.writes
  rw [List.nil_append] at last
  obtain ⟨contents, atEnd, _, body⟩ := last.drop
  refine (finalize_exact atEnd).mono ?_ (fun _ _ => trivial)
  rintro _ t ⟨_, file⟩
  rw [last.path, body] at file
  have header : checksummed crc32 (SegmentWriter.appends updates s).2.2.header = { headerOf startSlot updates with
      checksum := (checksummed crc32 (SegmentWriter.appends updates s).2.2.header).checksum } := by
    rw [checksummed, last.header]
  refine ⟨_, file, h.located same ?_, described header same.fits ?_⟩
  · rw [← length_header, List.drop_left]
  · exact length_entriesOf updates ▸ same.room

theorem Placed.finalize_disturbed (h : Placed path startSlot [] s) (disturbed : ¬ Undisturbed s updates) :
    Method.Ends (finalize crc32) (SegmentWriter.appends updates s).2
      (fun _ t => ∃ contents, t.1.files path = some contents ∧ ¬ Described contents) (fun _ => True) := by
  obtain ⟨contents, atEnd, more⟩ := h.disturbed_exceeds disturbed
  have samePath : (SegmentWriter.appends updates s).2.2.file.path = path := by
    rw [appends_state]
    exact foldl_invariant (fun s : Disk × SegmentWriter => s.2.file.path = path)
      (fun s u kept => (path_afterAppend s u).trans kept) h.path updates
  refine (finalize_exact atEnd).mono ?_ (fun _ _ => trivial)
  rintro _ t ⟨_, file⟩
  refine ⟨_, samePath ▸ file, not_described ?_⟩
  have counted : (checksummed crc32 (SegmentWriter.appends updates s).2.2.header).dataSize =
    (SegmentWriter.appends updates s).2.2.header.dataSize := rfl
  rw [counted, List.length_drop]
  omega

end finalized

/-- A finalized segment has its entries where the appends said, and a header that
describes them, exactly if nothing disturbed the appends. Then the entries are in their
places before it is finalized, too. -/
theorem finalized_described_iff (crc32 : List UInt8 → UInt32) (path : String) (startSlot : UInt64)
    (updates : List SegmentUpdate) (d : Disk) :
    Method.Ends (create crc32 path startSlot) d
      (fun w d₁ =>
        (Undisturbed (d₁, w) updates → ∃ contents, (appends updates (d₁, w)).2.1.files path = some contents ∧
          Located updates (appends updates (d₁, w)).1 contents) ∧
        Method.Ends (finalize crc32) (appends updates (d₁, w)).2
          (fun _ t => ∃ contents, t.1.files path = some contents ∧
            (Located updates (appends updates (d₁, w)).1 contents ∧ Described contents ↔
              Undisturbed (d₁, w) updates))
          (fun _ => True))
      (fun _ => True) := by
  refine (create_exact path startSlot d).mono ?_ (fun _ _ => trivial)
  rintro w d₁ ⟨placed, _⟩
  constructor
  · intro same
    obtain ⟨last, _⟩ := placed.appends same.fits same.writes
    obtain ⟨contents, atEnd, body, _⟩ := last.drop
    exact ⟨contents, last.path ▸ atEnd.file, placed.located same body⟩
  · by_cases same : Undisturbed (d₁, w) updates
    · refine (placed.finalize_undisturbed same).mono ?_ (fun _ _ => trivial)
      rintro _ t ⟨contents, file, both⟩
      exact ⟨contents, file, iff_of_true both same⟩
    · refine (placed.finalize_disturbed same).mono ?_ (fun _ _ => trivial)
      rintro _ t ⟨contents, file, wrong⟩
      exact ⟨contents, file, iff_of_false (fun both => wrong both.2) same⟩

/-- Nothing is written of the first entry, which stays in the buffer. The offset returned
for the second one is where the first one stands then, and the header counts one entry. -/
theorem failed_append_displaces :
    let updates : List SegmentUpdate := [⟨100, 1, Vector.replicate 32 1, [1]⟩, ⟨101, 2, Vector.replicate 32 2, [2]⟩]
    Method.Ends (create Crc32.hash "a" 100) ⟨fun _ => none, [none, none, some 0]⟩
      (fun w d₁ => (appends updates (d₁, w)).1 = [.error (.io .failed), .ok 48] ∧
        Method.Ends (finalize Crc32.hash) (appends updates (d₁, w)).2
          (fun info t => info.entryCount = 1 ∧ ∃ contents, t.1.files "a" = some contents ∧
            ¬ Located updates (appends updates (d₁, w)).1 contents ∧ ¬ Described contents)
          (fun _ => False))
      (fun _ => False) := by
  intro updates
  have ran : Method.Ends (create Crc32.hash "a" 100) ⟨fun _ => none, [none, none, some 0]⟩
      (fun w d₁ => (appends updates (d₁, w)).1 = [.error (.io .failed), .ok 48] ∧
        Method.Ends (finalize Crc32.hash) (appends updates (d₁, w)).2
          (fun info t => info.entryCount = 1 ∧ ∃ contents ∈ t.1.files "a",
            ((contents.drop 48).drop 8).take 8 = toLE 8 100 ∧ ¬ Described contents)
          (fun _ => False))
      (fun _ => False) := by decide +kernel
  refine ran.mono ?_ (fun _ none => none)
  rintro w d₁ ⟨results, finalized⟩
  refine ⟨results, finalized.mono ?_ (fun _ none => none)⟩
  rintro info t ⟨counted, contents, file, first, wrong⟩
  refine ⟨counted, contents, file, fun located => ?_, wrong⟩
  obtain ⟨front, bs, rest, rfl, length, entry⟩ := located 1 _ 48 rfl (by rw [results]; rfl)
  have length : front.length = 48 := length
  rw [List.drop_left' length, entry.slot] at first
  exact absurd first (by decide)

end SegmentWriter

end Hyperplane
