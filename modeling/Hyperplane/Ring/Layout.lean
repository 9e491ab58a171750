import Hyperplane.Ring.Buffer

/-! The byte layout of a ring: entries lie one after the other from the start
of the area, and only summing the sizes of all earlier ones finds an entry. -/
namespace Hyperplane
open Bytes

namespace RingEntry

@[simp] theorem length_bytes (e : RingEntry) : e.bytes.length = headerSize := by
  simp [bytes, headerSize]

theorem load_bytes {m : Area} {pos : Nat} {e : RingEntry} (stored : Laid m pos e.bytes) :
    load m pos = e := by
  simp only [bytes, laid_append, length_toLE, List.length_cons, List.length_nil,
    Vector.length_toList, Nat.add_assoc, Nat.reduceAdd] at stored
  obtain ⟨size, _, slot, version, key, len, rest⟩ := stored
  simp only [Laid, length_toLE, Vector.length_toList] at size slot version key len rest
  cases e with
  | mk s sl wv pk dl r =>
    simp only [load, size, slot, version, key, len, rest, u32_round, u64_round, mk.injEq, true_and,
      and_true]
    exact Vector.toArray_inj.mp (by simp [Vector.toList])

end RingEntry

namespace RingEntryView

def bytes (v : RingEntryView) : List UInt8 := v.entry.bytes ++ v.data

/-- The entry's length fits the 32 bits of its size field. -/
def Small (v : RingEntryView) : Prop := RingEntry.headerSize + v.data.length < 2 ^ 32

instance (v : RingEntryView) : Decidable v.Small := inferInstanceAs (Decidable (_ < _))

@[simp] theorem length_bytes (v : RingEntryView) :
    v.bytes.length = RingEntry.headerSize + v.data.length := by
  simp [bytes]

theorem Small.entrySize_eq {v : RingEntryView} (small : v.Small) :
    (entrySize v.data).toNat = v.bytes.length := by
  rw [length_bytes]
  exact UInt32.toNat_ofNat_of_lt small

theorem Small.dataLen_eq {v : RingEntryView} (small : v.Small) :
    v.entry.dataLen.toNat = v.data.length := by
  have below : v.data.length < 2 ^ 32 := by unfold Small at small; omega
  exact UInt32.toNat_ofNat_of_lt below

end RingEntryView

namespace RingBufferWriter

theorem check_ok {w : RingBufferWriter} {v : RingEntryView} {ring t : Ring} {pos : Nat} :
    w.check v ring = (.ok pos, t) ↔ ring.header.state = RingBufferState.active.code ∧
      ring.header.writePos + (entrySize v.data).toNat ≤ w.capacity ∧
      ring.header.writePos = pos ∧ ring = t := by
  unfold check
  split
  · rename_i inactive
    simp [inactive]
  · rename_i active
    split
    · rename_i full
      simp only [Prod.mk.injEq, reduceCtorEq, false_and, false_iff, not_and]
      intro _ room
      omega
    · rename_i room
      simp only [Prod.mk.injEq, Outcome.ok.injEq]
      have active := not_not.mp active
      have room := Nat.le_of_not_gt room
      simp [active, room]

theorem check_keeps (w : RingBufferWriter) (v : RingEntryView) (ring : Ring) :
    (w.check v ring).2 = ring := by
  unfold check
  split
  · rfl
  · split <;> rfl

theorem check_error {w : RingBufferWriter} {v : RingEntryView} {ring : Ring} {e : RingBufferError}
    (refused : (w.check v ring).1 = .error e) :
    (e = .notActive ∧ ring.header.state ≠ RingBufferState.active.code) ∨
      (e = .bufferFull ∧ w.capacity < ring.header.writePos + (entrySize v.data).toNat) := by
  unfold check at refused
  split at refused
  · rename_i inactive
    cases refused
    exact .inl ⟨rfl, inactive⟩
  · split at refused
    · rename_i full
      cases refused
      exact .inr ⟨rfl, full⟩
    · cases refused

theorem check_passes {w : RingBufferWriter} {v : RingEntryView} {ring : Ring} {pos : Nat} :
    (w.check v ring).1 = .ok pos ↔ ring.header.state = RingBufferState.active.code ∧
      ring.header.writePos + (entrySize v.data).toNat ≤ w.capacity ∧ ring.header.writePos = pos := by
  have pair : (w.check v ring).1 = .ok pos ↔ w.check v ring = (.ok pos, ring) :=
    ⟨fun h => Prod.ext h (check_keeps w v ring), fun h => by rw [h]⟩
  rw [pair, check_ok, and_iff_left rfl]

theorem copyEntry_ok {v : RingEntryView} {pos : Nat} {ring t : Ring} {u : Unit} :
    copyEntry v pos ring = (.ok u, t) ↔ ring.Covers pos v.bytes.length ∧
      { ring with
        area := store (store ring.area pos v.entry.bytes) (pos + RingEntry.headerSize) v.data } = t := by
  unfold copyEntry
  rw [RingEntryView.length_bytes]
  split <;> simp_all

theorem laid_copied (m : Area) (v : RingEntryView) (pos : Nat) :
    Laid (store (store m pos v.entry.bytes) (pos + RingEntry.headerSize) v.data) pos v.bytes := by
  rw [RingEntryView.bytes, laid_append, RingEntry.length_bytes]
  constructor
  · rw [laid_store_below _ _ (by simp)]
    exact laid_store _ _ _
  · exact laid_store _ _ _

theorem laid_before_copied (m : Area) (v : RingEntryView) {pos p : Nat} {bs : List UInt8}
    (before : p + bs.length ≤ pos) :
    Laid (store (store m pos v.entry.bytes) (pos + RingEntry.headerSize) v.data) p bs ↔
      Laid m p bs := by
  rw [laid_store_below _ _ (by omega), laid_store_below _ _ before]

theorem write_ok {w : RingBufferWriter} {v : RingEntryView} {ring t : Ring} {pos : Nat} :
    w.write v ring = (.ok pos, t) ↔ ring.header.state = RingBufferState.active.code ∧
      ring.header.writePos + (entrySize v.data).toNat ≤ w.capacity ∧
      ring.header.writePos = pos ∧ ring.Covers pos v.bytes.length ∧
      t = { ring with
        header := { ring.header with
          writePos := pos + (entrySize v.data).toNat
          entryCount := ring.header.entryCount + 1 }
        area := store (store ring.area pos v.entry.bytes) (pos + RingEntry.headerSize) v.data } := by
  simp only [write, Method.bind_ok, check_ok, copyEntry_ok, storeWritePos, addEntryCount,
    Method.modify_ok, Method.pure_ok]
  constructor
  · rintro ⟨_, _, ⟨active, room, rfl, rfl⟩, _, _, ⟨covers, rfl⟩, _, _, rfl, _, _, rfl, rfl, rfl⟩
    exact ⟨active, room, rfl, covers, rfl⟩
  · rintro ⟨active, room, rfl, covers, rfl⟩
    exact ⟨_, _, ⟨active, room, rfl, rfl⟩, (), _, ⟨covers, rfl⟩, (), _, rfl, (), _, rfl, rfl, rfl⟩

theorem write_error {w : RingBufferWriter} {v : RingEntryView} {ring t : Ring} {e : RingBufferError}
    (rejected : w.write v ring = (.error e, t)) : t = ring := by
  have keeps := check_keeps w v ring
  simp only [write, bind, Method.bind] at rejected
  cases checked : w.check v ring with
  | mk result after =>
    rw [checked] at rejected keeps
    cases result with
    | ok pos =>
      by_cases covers : after.Covers pos (RingEntry.headerSize + v.data.length)
      · simp only [copyEntry, if_pos covers] at rejected
        cases rejected
      · simp only [copyEntry, if_neg covers] at rejected
        cases rejected
    | error e =>
      cases rejected
      exact keeps
    | fault => cases rejected

end RingBufferWriter

def span (vs : List RingEntryView) : List UInt8 := vs.flatMap RingEntryView.bytes

theorem span_append (us vs : List RingEntryView) : span (us ++ vs) = span us ++ span vs := by
  simp [span]

theorem span_singleton (v : RingEntryView) : span [v] = v.bytes := by
  simp [span]

/-- An entry lies where the entries before it end. -/
theorem laid_span_at {m : Area} {vs : List RingEntryView} {k : Nat} {v : RingEntryView}
    (laid : Laid m 0 (span vs)) (there : vs[k]? = some v) : Laid m (span (vs.take k)).length v.bytes := by
  obtain ⟨inside, rfl⟩ := List.getElem?_eq_some_iff.mp there
  have split : span vs = span (vs.take k) ++ (vs[k].bytes ++ span (vs.drop (k + 1))) := by
    calc span vs = span (vs.take k ++ vs.drop k) := by rw [List.take_append_drop]
      _ = span (vs.take k) ++ span (vs[k] :: vs.drop (k + 1)) := by
        rw [span_append, List.drop_eq_getElem_cons inside]
  rw [split, laid_append, laid_append, Nat.zero_add] at laid
  exact laid.2.1

/-- The published part of the ring is exactly these entries. -/
structure Ring.Holds (ring : Ring) (vs : List RingEntryView) : Prop where
  laid : Laid ring.area 0 (span vs)
  ends : ring.header.writePos = (span vs).length
  small : ∀ v ∈ vs, v.Small
  inside : vs ≠ [] → ring.Covers 0 (span vs).length

theorem holds_created (capacity : Nat) : (RingBufferWriter.created capacity).Holds [] where
  laid := rfl
  ends := rfl
  small := by simp
  inside := by simp

theorem Ring.Holds.congr {ring t : Ring} {vs : List RingEntryView} (held : ring.Holds vs)
    (area : t.area = ring.area) (writePos : t.header.writePos = ring.header.writePos)
    (mapped : t.mapped = ring.mapped) : t.Holds vs where
  laid := area ▸ held.laid
  ends := writePos.trans held.ends
  small := held.small
  inside some := by
    have covers := held.inside some
    unfold Ring.Covers at covers ⊢
    rw [mapped]
    exact covers

/-- Moving the write position over an entry already laid out publishes it. -/
theorem Ring.Holds.publish {ring t : Ring} {vs : List RingEntryView} {v : RingEntryView}
    (held : ring.Holds vs) (small : v.Small) (covers : ring.Covers ring.header.writePos v.bytes.length)
    (before : Laid t.area 0 (span vs)) (entry : Laid t.area ring.header.writePos v.bytes)
    (ends : t.header.writePos = ring.header.writePos + v.bytes.length)
    (mapped : t.mapped = ring.mapped) : t.Holds (vs ++ [v]) := by
  have len : (span (vs ++ [v])).length = (span vs).length + v.bytes.length := by
    rw [span_append, span_singleton, List.length_append]
  constructor
  · rw [span_append, span_singleton, laid_append, Nat.zero_add, ← held.ends]
    exact ⟨before, entry⟩
  · rw [len, ends, held.ends]
  · intro u member
    rcases List.mem_append.mp member with old | new
    · exact held.small u old
    · cases List.mem_singleton.mp new
      exact small
  · intro _
    have covers : ringHeaderSize + ring.header.writePos + v.bytes.length ≤ ring.mapped := covers
    show ringHeaderSize + 0 + (span (vs ++ [v])).length ≤ t.mapped
    rw [len, ← held.ends, mapped]
    omega

theorem holds_write {w : RingBufferWriter} {ring t : Ring} {vs : List RingEntryView}
    {v : RingEntryView} {pos : Nat} (held : ring.Holds vs) (small : v.Small)
    (wrote : w.write v ring = (.ok pos, t)) : t.Holds (vs ++ [v]) := by
  obtain ⟨_, _, rfl, covers, rfl⟩ := RingBufferWriter.write_ok.mp wrote
  apply held.publish small covers
  · rw [RingBufferWriter.laid_before_copied _ _ (by rw [held.ends]; omega)]
    exact held.laid
  · exact RingBufferWriter.laid_copied _ _ _
  · simp only [small.entrySize_eq]
  · rfl

namespace RingBufferReader

theorem readNext_end {ring : Ring} {reader : RingBufferReader}
    (done : ring.header.writePos ≤ reader.readPos) : readNext ring reader = (.ok none, reader) := by
  simp [readNext, done]

theorem readNext_none_iff {ring : Ring} {reader after : RingBufferReader} :
    readNext ring reader = (.ok none, after) ↔
      ring.header.writePos ≤ reader.readPos ∧ reader = after := by
  constructor
  · intro none
    by_cases done : ring.header.writePos ≤ reader.readPos
    · rw [readNext_end done] at none
      cases none
      exact ⟨done, rfl⟩
    · simp only [readNext, if_neg done] at none
      grind
  · rintro ⟨done, rfl⟩
    exact readNext_end done

theorem readNext_moves {ring : Ring} {reader after : RingBufferReader} {v : RingEntryView}
    (read : readNext ring reader = (.ok (some v), after)) :
    reader.readPos < after.readPos ∧ after.readPos ≤ ring.header.writePos := by
  by_cases done : ring.header.writePos ≤ reader.readPos
  · rw [readNext_end done] at read
    cases read
  · have positive (size : UInt32) (nonzero : size ≠ 0) : size.toNat ≠ 0 :=
      fun zero => nonzero (UInt32.toNat_inj.mp zero)
    simp only [readNext, if_neg done] at read
    grind

theorem readNext_laid {ring : Ring} {reader : RingBufferReader} {v : RingEntryView}
    (small : v.Small) (laid : Laid ring.area reader.readPos v.bytes)
    (published : reader.readPos + v.bytes.length ≤ ring.header.writePos)
    (covers : ring.Covers reader.readPos v.bytes.length) :
    readNext ring reader = (.ok (some v), ⟨reader.readPos + v.bytes.length⟩) := by
  rw [RingEntryView.bytes, laid_append, RingEntry.length_bytes] at laid
  have entry := RingEntry.load_bytes laid.1
  have size : v.entry.size.toNat = v.bytes.length := small.entrySize_eq
  have len := small.dataLen_eq
  have long := v.length_bytes
  have headerLong : RingEntry.headerSize = 64 := rfl
  have more : ¬ ring.header.writePos ≤ reader.readPos := by omega
  have headerIn : ring.Covers reader.readPos RingEntry.headerSize := by
    unfold Ring.Covers at covers ⊢; omega
  have nonzero : v.entry.size ≠ 0 := by
    intro zero
    rw [zero] at size
    simp at size
    omega
  have valid : ¬ (v.entry.size = 0 ∨ ring.header.writePos < reader.readPos + v.bytes.length) :=
    not_or.mpr ⟨nonzero, by omega⟩
  have dataIn : ring.Covers reader.readPos (RingEntry.headerSize + v.entry.dataLen.toNat) := by
    rw [len, ← long]; exact covers
  have data : Bytes.load ring.area (reader.readPos + RingEntry.headerSize)
      v.entry.dataLen.toNat = v.data := by
    rw [len]; exact laid.2
  simp only [readNext, if_neg more, entry, if_neg (not_not.mpr headerIn), size, if_neg valid,
    if_neg (not_not.mpr dataIn), data]
  rfl

theorem readNext_held {ring : Ring} {seen rest : List RingEntryView} {v : RingEntryView}
    (held : ring.Holds (seen ++ v :: rest)) :
    readNext ring ⟨(span seen).length⟩ = (.ok (some v), ⟨(span (seen ++ [v])).length⟩) := by
  have laid := held.laid
  have ends := held.ends
  have inside : ringHeaderSize + 0 + _ ≤ ring.mapped := held.inside (by simp)
  have split : span (seen ++ v :: rest) = span seen ++ (v.bytes ++ span rest) := by
    simp [span]
  rw [split] at laid ends inside
  rw [laid_append, laid_append, Nat.zero_add] at laid
  simp only [List.length_append] at ends inside
  rw [readNext_laid (held.small v (by simp)) laid.2.1 (by simp only; omega)
    (by unfold Ring.Covers; simp only; omega), span_append, span_singleton, List.length_append]

theorem reads_held {ring : Ring} {seen rest : List RingEntryView}
    (held : ring.Holds (seen ++ rest)) : Reads ring ⟨(span seen).length⟩ rest := by
  induction rest generalizing seen with
  | nil =>
    rw [List.append_nil] at held
    exact .done (readNext_end (Nat.le_of_eq held.ends))
  | cons v rest ih =>
    have more : ring.Holds ((seen ++ [v]) ++ rest) := by
      rw [List.append_assoc]; exact held
    exact .next (readNext_held held) (ih more)

theorem reads_all {ring : Ring} {vs : List RingEntryView} (held : ring.Holds vs) :
    Reads ring ⟨0⟩ vs := @reads_held ring [] vs held

theorem readNext_behind {ring : Ring} {seen vs : List RingEntryView} (held : ring.Holds vs)
    (behind : seen <+: vs) :
    (readNext ring ⟨(span seen).length⟩ = (.ok none, ⟨(span seen).length⟩) ∧ seen = vs) ∨
      ∃ v rest, vs = seen ++ v :: rest ∧
        readNext ring ⟨(span seen).length⟩ = (.ok (some v), ⟨(span (seen ++ [v])).length⟩) := by
  obtain ⟨rest, rfl⟩ := behind
  cases rest with
  | nil =>
    rw [List.append_nil] at held ⊢
    exact .inl ⟨readNext_end (Nat.le_of_eq held.ends), rfl⟩
  | cons v rest => exact .inr ⟨v, rest, rfl, readNext_held held⟩

theorem reads_unique {ring : Ring} {reader : RingBufferReader} {us vs : List RingEntryView}
    (first : Reads ring reader us) (second : Reads ring reader vs) : us = vs := by
  induction first generalizing vs with
  | done none =>
    cases second with
    | done _ => rfl
    | next some _ => rw [none] at some; simp at some
  | next some _ ih =>
    cases second with
    | done none => rw [none] at some; simp at some
    | next again tail =>
      rw [some] at again
      cases again
      rw [ih tail]

def readAll (ring : Ring) : Nat → RingBufferReader → Option (List RingEntryView)
  | 0, _ => none
  | fuel + 1, reader => match readNext ring reader with
    | (.ok none, _) => some []
    | (.ok (some v), after) => (readAll ring fuel after).map (v :: ·)
    | _ => none

theorem readAll_reads {ring : Ring} {fuel : Nat} {reader : RingBufferReader}
    {vs : List RingEntryView} (all : readAll ring fuel reader = some vs) : Reads ring reader vs := by
  induction fuel generalizing reader vs with
  | zero => simp [readAll] at all
  | succ fuel ih =>
    unfold readAll at all
    split at all
    · rename_i after none
      cases Option.some.inj all
      obtain ⟨_, rfl⟩ := readNext_none_iff.mp none
      exact .done none
    · rename_i v after some
      obtain ⟨rest, tail, rfl⟩ := Option.map_eq_some_iff.mp all
      exact .next some (ih tail)
    · contradiction

end RingBufferReader

end Hyperplane
