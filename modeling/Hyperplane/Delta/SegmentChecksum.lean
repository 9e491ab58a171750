import Hyperplane.Delta.SegmentLayout
import Hyperplane.Lib.Crc32

/-! The checksum of a segment header, as it is written and as it is read. -/
namespace Hyperplane
open Bytes BufWriter Transition

namespace SegmentHeader

/-- The forty bytes before the checksum. -/
def fields (h : SegmentHeader) : List UInt8 :=
  toLE 4 h.magic.toNat ++ (toLE 4 h.version.toNat ++ (toLE 8 h.startSlot.toNat ++
    (toLE 8 h.endSlot.toNat ++ (toLE 8 h.entryCount.toNat ++ toLE 8 h.dataSize.toNat))))

theorem length_fields (h : SegmentHeader) : h.fields.length = 40 := by
  simp [fields]

theorem bytes_eq (h : SegmentHeader) : h.bytes = h.fields ++ (toLE 4 h.checksum.toNat ++ [0, 0, 0, 0]) := by
  simp only [bytes, fields, List.append_assoc]

theorem fields_checksummed (crc32 : List UInt8 → UInt32) (h : SegmentHeader) :
    (SegmentWriter.checksummed crc32 h).fields = h.fields := rfl

/-- What is hashed holds the checksum field as well. -/
theorem take_checksum (h : SegmentHeader) :
    h.bytes.take (size - 4) = h.fields ++ toLE 4 h.checksum.toNat := by
  have length : (h.fields ++ toLE 4 h.checksum.toNat).length = size - 4 := by
    rw [List.length_append, length_fields, length_toLE]
    rfl
  rw [bytes_eq, ← List.append_assoc, ← length, List.take_left]

/-- The checksum is the hash of the bytes before it. -/
def Recomputes (crc32 : List UInt8 → UInt32) (contents : List UInt8) : Prop :=
  (ofBytes contents).checksum = crc32 (contents.take 40)

/-- A header in its file recomputes exactly if the old checksum, which is hashed with the
fields, does not change the hash. -/
theorem recomputes_iff (crc32 : List UInt8 → UInt32) (h : SegmentHeader) (rest : List UInt8) :
    Recomputes crc32 ((SegmentWriter.checksummed crc32 h).bytes ++ rest) ↔
      crc32 (h.fields ++ toLE 4 h.checksum.toNat) = crc32 h.fields := by
  have front : ((SegmentWriter.checksummed crc32 h).bytes ++ rest).take 40 = h.fields := by
    rw [bytes_eq, List.append_assoc]
    exact List.take_left' h.length_fields
  rw [Recomputes, ofBytes_bytes, front, SegmentWriter.checksummed, take_checksum]

end SegmentHeader

namespace SegmentWriter

variable {crc32 : List UInt8 → UInt32}

/-- The writer stands at the end of the file and has this checksum in its header. -/
structure Stands (path : String) (checksum : UInt32) (s : Disk × SegmentWriter) : Prop where
  path : s.2.file.path = path
  file : ∃ contents, AtEnd (handle s) contents
  checksum : s.2.header.checksum = checksum

theorem Stands.afterAppend {path : String} {checksum : UInt32} {s : Disk × SegmentWriter}
    (h : Stands path checksum s) (u : SegmentUpdate) : Stands path checksum (afterAppend s u) := by
  have grown {t : Disk × SegmentWriter} {added : List UInt8} (grows : Grows (handle s) (handle t) added) :
      ∃ contents, AtEnd (handle t) contents := by
    obtain ⟨contents, atEnd⟩ := h.file
    obtain ⟨more, after, _⟩ := grows.body contents atEnd
    exact ⟨contents ++ more, after⟩
  have ends : Method.Ends (appendUpdate u) s (fun _ t => Stands path checksum t) (Stands path checksum) := by
    refine (append_exact u.slot u.writeVersion u.pubkey u.data s).mono ?_ ?_
    · intro _ t appended
      exact ⟨appended.grows.path.trans h.path, grown appended.grows, by rw [appended.header]; exact h.checksum⟩
    · rintro t ⟨added, failed⟩
      exact ⟨failed.grows.path.trans h.path, grown failed.grows, by rw [failed.header]; exact h.checksum⟩
  exact ends.state fun _ _ stands => stands

/-- The checksum that a segment has from its creation. -/
def firstChecksum (crc32 : List UInt8 → UInt32) (startSlot : UInt64) : UInt32 :=
  crc32 ((SegmentHeader.new startSlot).bytes.take (SegmentHeader.size - 4))

theorem checksum_new (crc32 : List UInt8 → UInt32) (startSlot : UInt64) :
    (checksummed crc32 (.new startSlot)).checksum = firstChecksum crc32 startSlot := rfl

/-- Whatever appends succeeded, a finalized segment has a checksum that its file recomputes
exactly if the checksum from its creation does not change the hash of the fields. -/
theorem finalized_recomputes_iff (crc32 : List UInt8 → UInt32) (path : String) (startSlot : UInt64)
    (updates : List SegmentUpdate) (d : Disk) :
    Method.Ends (create crc32 path startSlot) d
      (fun w d₁ => Method.Ends (finalize crc32) (appends updates (d₁, w)).2
        (fun _ t => ∃ contents, t.1.files path = some contents ∧
          (SegmentHeader.Recomputes crc32 contents ↔
            crc32 ((appends updates (d₁, w)).2.2.header.fields ++ toLE 4 (firstChecksum crc32 startSlot).toNat) =
              crc32 (appends updates (d₁, w)).2.2.header.fields))
        (fun _ => True))
      (fun _ => True) := by
  refine (create_exact path startSlot d).mono ?_ (fun _ _ => trivial)
  rintro w d₁ ⟨placed, header⟩
  have created : Stands path (firstChecksum crc32 startSlot) (d₁, w) := by
    obtain ⟨contents, _, atEnd, _⟩ := placed.file
    exact ⟨placed.path, ⟨contents, atEnd⟩, (congrArg SegmentHeader.checksum header).trans (checksum_new ..)⟩
  have last : Stands path (firstChecksum crc32 startSlot) (appends updates (d₁, w)).2 := by
    rw [appends_state]
    exact foldl_invariant _ (fun _ u h => h.afterAppend u) created updates
  obtain ⟨contents, atEnd⟩ := last.file
  refine (finalize_exact atEnd).mono ?_ (fun _ _ => trivial)
  rintro _ t ⟨_, file⟩
  refine ⟨_, last.path ▸ file, ?_⟩
  rw [SegmentHeader.recomputes_iff, last.checksum]

/-- A segment of slot 100 without updates has a checksum that its file does not recompute. -/
theorem finalized_not_recomputed : Method.Ends (create Crc32.hash "a" 100) .empty
    (fun w d₁ => Method.Ends (finalize Crc32.hash) (appends [] (d₁, w)).2
      (fun _ t => ∃ contents, t.1.files "a" = some contents ∧ ¬ SegmentHeader.Recomputes Crc32.hash contents)
      (fun _ => False))
    (fun _ => False) := by
  have sound : Disk.empty.Sound := rfl
  refine ((create_sound sound "a" 100).and (create_exact "a" 100 _)).mono ?_ (fun _ none => none.1)
  rintro w d₁ ⟨soundW, placed, header⟩
  obtain ⟨contents, _, atEnd, _⟩ := placed.file
  have finalized := @finalize_sound Crc32.hash (d₁, w) soundW
  refine (finalized.and (finalize_exact atEnd)).mono ?_ (fun _ none => none.1)
  rintro _ t ⟨_, _, file⟩
  refine ⟨_, placed.path ▸ file, ?_⟩
  have different : Crc32.hash ((SegmentHeader.new 100).fields ++ toLE 4 (firstChecksum Crc32.hash 100).toNat) ≠
      Crc32.hash (SegmentHeader.new 100).fields := by decide +kernel
  have fields : w.header.fields = (SegmentHeader.new 100).fields :=
    (congrArg SegmentHeader.fields header).trans (SegmentHeader.fields_checksummed ..)
  have old : w.header.checksum = firstChecksum Crc32.hash 100 :=
    (congrArg SegmentHeader.checksum header).trans (checksum_new ..)
  rw [SegmentHeader.recomputes_iff]
  change ¬ Crc32.hash (w.header.fields ++ toLE 4 w.header.checksum.toNat) = Crc32.hash w.header.fields
  rw [fields, old]
  exact different

end SegmentWriter

namespace SegmentReader

/-- The checksum written with the fields of a header that had this one before. -/
def rewritten (crc32 : List UInt8 → UInt32) (old : UInt32) (h : SegmentHeader) : UInt32 :=
  (SegmentWriter.checksummed crc32 { h with checksum := old }).checksum

theorem validate_ends (h : SegmentHeader) (d : Disk) : Method.Ends h.validate d
    (fun _ _ => h.magic = SegmentHeader.MAGIC ∧ h.version = SegmentHeader.VERSION) (fun _ => True) := by
  unfold SegmentHeader.validate
  split
  · trivial
  · rename_i magic
    split
    · trivial
    · rename_i version
      exact ⟨not_not.mp magic, not_not.mp version⟩

theorem openFile_ends (path : String) (d : Disk) : Method.Ends (openFile path) d
    (fun _ _ => ∃ contents, d.files path = some contents ∧ SegmentHeader.size ≤ contents.length ∧
      (SegmentHeader.ofBytes contents).magic = SegmentHeader.MAGIC ∧
      (SegmentHeader.ofBytes contents).version = SegmentHeader.VERSION)
    (fun _ => True) := by
  unfold openFile Disk.readExact
  simp only [Method.ends_bind, Method.ends_zoom, Method.ends_get, Method.ends_pure, id]
  refine (attempt_ends d).mono ?_ (fun _ _ => trivial)
  rintro _ m ⟨_, same⟩
  rw [same]
  cases file : d.files path with
  | none => trivial
  | some contents =>
    dsimp only
    split
    · trivial
    · rename_i long
      refine (validate_ends _ _).mono ?_ (fun _ _ => trivial)
      rintro _ t ⟨magic, version⟩
      rw [SegmentHeader.ofBytes_take] at magic version
      exact ⟨contents, rfl, Nat.not_lt.mp long, magic, version⟩

/-- A file that opens has the checksum that the writer computes exactly when it happens to:
it is too short, it has another magic or version, or its checksum is right. -/
theorem opened_checksum_iff (crc32 : List UInt8 → UInt32) (old : UInt32) (contents : List UInt8) :
    (∀ (path : String) (d t : Disk) (reader : SegmentReader), d.files path = some contents →
      openFile path d = (.ok reader, t) →
        (SegmentHeader.ofBytes contents).checksum = rewritten crc32 old (.ofBytes contents)) ↔
      contents.length < SegmentHeader.size ∨
      (SegmentHeader.ofBytes contents).magic ≠ SegmentHeader.MAGIC ∨
      (SegmentHeader.ofBytes contents).version ≠ SegmentHeader.VERSION ∨
      (SegmentHeader.ofBytes contents).checksum = rewritten crc32 old (.ofBytes contents) := by
  constructor
  · intro checked
    by_contra accepted
    simp only [not_or, Nat.not_lt, not_not] at accepted
    obtain ⟨long, magic, version, wrong⟩ := accepted
    let d : Disk := Disk.empty.set "a" (some contents)
    have sound : d.Sound := (rfl : Disk.empty.results = [])
    have file : d.files "a" = some contents := by simp [d, Disk.set]
    exact wrong (checked "a" d d _ file (openFile_ok sound file long magic version))
  · intro condition path d t reader file opened
    obtain ⟨found, same, long, magic, version⟩ := (openFile_ends path d).ok opened
    cases file.symm.trans same
    rcases condition with short | otherMagic | otherVersion | right
    · omega
    · exact absurd magic otherMagic
    · exact absurd version otherVersion
    · exact right

/-- A header of slot 100 with a checksum of zero opens, and neither of the checksums that
the writer could compute for it is zero. -/
theorem wrong_checksum_opens :
    let contents := (SegmentHeader.new 100).bytes
    let d : Disk := Disk.empty.set "a" (some contents)
    openFile "a" d = (.ok ⟨"a", .ofBytes contents⟩, d) ∧
      ∀ old ∈ [0, SegmentWriter.firstChecksum Crc32.hash 100],
        (SegmentHeader.ofBytes contents).checksum ≠ rewritten Crc32.hash old (.ofBytes contents) := by
  intro contents d
  have sound : d.Sound := (rfl : Disk.empty.results = [])
  have file : d.files "a" = some contents := by simp [d, Disk.set]
  refine ⟨openFile_ok sound file (by decide) (by decide) (by decide), ?_⟩
  refine List.forall_mem_cons.mpr ⟨?_, List.forall_mem_singleton.mpr ?_⟩
  · decide +kernel
  · decide +kernel

end SegmentReader

end Hyperplane
