import Hyperplane.Lib.Transition
import Hyperplane.Lib.Bytes
import Hyperplane.Lib.Checked

/-! The shared memory region of query results. The payload starts at a constant of
the default header, and the header is as large as its fields are. -/
namespace Hyperplane
open Transition Bytes

def sharedMemMagic : UInt32 := 0x53484D45
def sharedMemVersion : UInt32 := 1

structure SharedMemHeader where
  magic : UInt32
  version : UInt32
  entryCount : UInt64
  dataOffset : UInt64
  totalSize : UInt64
  createdAt : UInt64
  slot : UInt64
  reserved : Vector UInt64 4
  deriving DecidableEq

namespace SharedMemHeader

def default : SharedMemHeader := ⟨sharedMemMagic, sharedMemVersion, 0, 64, 64, 0, 0, Vector.replicate 4 0⟩

/-- The C layout, which has no padding. -/
def bytes (header : SharedMemHeader) : List UInt8 :=
  toLE 4 header.magic.toNat ++ (toLE 4 header.version.toNat ++ (toLE 8 header.entryCount.toNat ++
    (toLE 8 header.dataOffset.toNat ++ (toLE 8 header.totalSize.toNat ++
    (toLE 8 header.createdAt.toNat ++ (toLE 8 header.slot.toNat ++
    (toLE 8 header.reserved[0].toNat ++ (toLE 8 header.reserved[1].toNat ++
    (toLE 8 header.reserved[2].toNat ++ toLE 8 header.reserved[3].toNat)))))))))

/-- Its size, not the 64 bytes of the data offset. -/
def size : Nat := 80

def load (m : Area) : SharedMemHeader where
  magic := UInt32.ofNat (ofLE (Bytes.load m 0 4))
  version := UInt32.ofNat (ofLE (Bytes.load m 4 4))
  entryCount := UInt64.ofNat (ofLE (Bytes.load m 8 8))
  dataOffset := UInt64.ofNat (ofLE (Bytes.load m 16 8))
  totalSize := UInt64.ofNat (ofLE (Bytes.load m 24 8))
  createdAt := UInt64.ofNat (ofLE (Bytes.load m 32 8))
  slot := UInt64.ofNat (ofLE (Bytes.load m 40 8))
  reserved := #v[UInt64.ofNat (ofLE (Bytes.load m 48 8)), UInt64.ofNat (ofLE (Bytes.load m 56 8)),
    UInt64.ofNat (ofLE (Bytes.load m 64 8)), UInt64.ofNat (ofLE (Bytes.load m 72 8))]

@[simp] theorem length_bytes (header : SharedMemHeader) : header.bytes.length = size := by
  simp [bytes, size]

theorem load_bytes {m : Area} {header : SharedMemHeader} (laid : Laid m 0 header.bytes) :
    load m = header := by
  simp only [bytes, laid_append, length_toLE, Nat.reduceAdd] at laid
  obtain ⟨magic, version, entryCount, dataOffset, totalSize, createdAt, slot, r0, r1, r2, r3⟩ := laid
  simp only [Laid, length_toLE] at magic version entryCount dataOffset totalSize createdAt slot r0 r1 r2 r3
  cases header with
  | mk g v e d t c s reserved =>
    simp only [load, magic, version, entryCount, dataOffset, totalSize, createdAt, slot, r0, r1, r2, r3,
      u32_round, u64_round, mk.injEq, true_and]
    refine Vector.ext fun i below => ?_
    match i, below with
    | 0, _ => rfl
    | 1, _ => rfl
    | 2, _ => rfl
    | 3, _ => rfl

/-- Only the bytes of a header are read as that header. -/
theorem laid_of_load {m : Area} {header : SharedMemHeader} (loaded : load m = header) :
    Laid m 0 header.bytes := by
  subst loaded
  simp only [bytes, laid_append, length_toLE, Nat.reduceAdd]
  have word (p : Nat) : Laid m p (toLE 4 (UInt32.ofNat (ofLE (Bytes.load m p 4))).toNat) := by
    rw [toLE_u32 (length_load m p 4), Laid, length_load]
  have long (p : Nat) : Laid m p (toLE 8 (UInt64.ofNat (ofLE (Bytes.load m p 8))).toNat) := by
    rw [toLE_u64 (length_load m p 8), Laid, length_load]
  exact ⟨word 0, word 4, long 8, long 16, long 24, long 32, long 40, long 48, long 56, long 64, long 72⟩

end SharedMemHeader

/-- The mapped file: its bytes, its length and the header as this process has it. -/
structure SharedMemoryRegion where
  mmap : Area
  len : UInt64
  header : SharedMemHeader

namespace SharedMemoryRegion

def writeHeader (region : SharedMemoryRegion) : SharedMemoryRegion :=
  { region with mmap := store region.mmap 0 region.header.bytes }

/-- A new file holds zeros. Nothing checks that the header fits into it. -/
def create (capacity createdAt : UInt64) : Outcome String SharedMemoryRegion :=
  if SharedMemHeader.size ≤ capacity.toNat then
    .ok (writeHeader ⟨fun _ => 0, capacity, { SharedMemHeader.default with totalSize := capacity, createdAt }⟩)
  else .fault

def openFile (mmap : Area) (len : UInt64) : Outcome String SharedMemoryRegion :=
  if SharedMemHeader.size ≤ len.toNat then
    let header := SharedMemHeader.load mmap
    if header.magic ≠ sharedMemMagic then .error "Invalid shared memory magic" else .ok ⟨mmap, len, header⟩
  else .fault

/-- Sums wrap, as they do where overflow is not checked. -/
def address (region : SharedMemoryRegion) (offset : UInt64) : UInt64 := region.header.dataOffset + offset

def writeData (region : SharedMemoryRegion) (offset : UInt64) (data : Slice) :
    Outcome String SharedMemoryRegion :=
  let start := region.address offset
  let stop := start + UInt64.ofNat data.bytes.length
  if stop > region.len then .error "Shared memory capacity exceeded"
  else if start ≤ stop then .ok { region with mmap := store region.mmap start.toNat data.bytes }
  else .fault

def readData (region : SharedMemoryRegion) (offset len : UInt64) : Outcome String (List UInt8) :=
  let start := region.address offset
  let stop := start + len
  if start ≤ stop ∧ stop ≤ region.len then .ok (load region.mmap start.toNat len.toNat) else .fault

def updateHeader (region : SharedMemoryRegion) (entryCount slot : UInt64) : SharedMemoryRegion :=
  writeHeader { region with header := { region.header with entryCount, slot } }

end SharedMemoryRegion

inductive RegionCall where
  | writeData (offset : UInt64) (data : Slice)
  | updateHeader (entryCount slot : UInt64)

/-- A region, the bytes that write_data put last at the places of the file, and the
last values given to update_header. -/
structure RegionHistory where
  region : SharedMemoryRegion
  written : Nat → Option UInt8
  updated : UInt64 × UInt64

namespace RegionHistory

def start (created : SharedMemoryRegion) : RegionHistory := ⟨created, fun _ => none, (0, 0)⟩

/-- The calls that succeed. -/
def call (s : RegionHistory) : RegionCall → Option RegionHistory
  | .writeData offset data =>
    match s.region.writeData offset data with
    | .ok region =>
      let first := (s.region.address offset).toNat
      some { s with
        region
        written := fun i => if first ≤ i then (data.bytes[i - first]?).or (s.written i) else s.written i }
    | _ => none
  | .updateHeader entryCount slot =>
    some { s with region := s.region.updateHeader entryCount slot, updated := (entryCount, slot) }

/-- Reads give back what was written, and a new process finds the header of create
with the values of the last update. -/
def Separate (created : SharedMemHeader) (s : RegionHistory) : Prop :=
  (∀ offset len bytes, s.region.readData offset len = .ok bytes → ∀ i b, i < len.toNat →
    s.written ((s.region.address offset).toNat + i) = some b → bytes[i]? = some b) ∧
  ∃ region, SharedMemoryRegion.openFile s.region.mmap s.region.len = .ok region ∧
    region.header = { created with entryCount := s.updated.1, slot := s.updated.2 }

/-- A call puts no byte where the header has a different one. -/
def Spares (s : RegionHistory) : RegionCall → Prop
  | .writeData offset data => ∀ i b h, data.bytes[i]? = some b →
    s.region.header.bytes[(s.region.address offset).toNat + i]? = some h → b = h
  | .updateHeader entryCount slot => ∀ i b h, s.written i = some b →
    ({ s.region.header with entryCount, slot } : SharedMemHeader).bytes[i]? = some h → b = h

/-- What every call keeps, whatever it overwrites. -/
structure Shaped (created : SharedMemHeader) (s : RegionHistory) : Prop where
  header : s.region.header = { created with entryCount := s.updated.1, slot := s.updated.2 }
  room : SharedMemHeader.size ≤ s.region.len.toNat
  inside : ∀ i b, s.written i = some b → i < s.region.len.toNat

structure Intact (s : RegionHistory) : Prop where
  laid : Laid s.region.mmap 0 s.region.header.bytes
  kept : ∀ i b, s.written i = some b → s.region.mmap i = b

theorem read_one {region : SharedMemoryRegion} {i : Nat} (inside : i < region.len.toNat) :
    ∃ offset, (region.address offset).toNat = i ∧
      region.readData offset 1 = .ok [region.mmap i] := by
  have small := region.len.toNat_lt
  have place : (region.address (UInt64.ofNat i - region.header.dataOffset)).toNat = i := by
    rw [SharedMemoryRegion.address, UInt64.add_comm, UInt64.sub_add_cancel,
      UInt64.toNat_ofNat_of_lt' (Nat.lt_trans inside small)]
  refine ⟨_, place, ?_⟩
  have next : (region.address (UInt64.ofNat i - region.header.dataOffset) + 1).toNat = i + 1 := by
    rw [UInt64.toNat_add, place]
    exact Nat.mod_eq_of_lt (Nat.lt_of_le_of_lt inside small)
  unfold SharedMemoryRegion.readData
  rw [if_pos, place]
  · rfl
  · rw [UInt64.le_iff_toNat_le, UInt64.le_iff_toNat_le, place, next]
    omega

theorem separate_iff {created : SharedMemHeader} {s : RegionHistory} (magic : created.magic = sharedMemMagic)
    (shaped : Shaped created s) : Separate created s ↔ Intact s := by
  constructor
  · rintro ⟨reads, region, opened, header⟩
    refine ⟨?_, fun i b wrote => ?_⟩
    · rw [shaped.header, ← header]
      unfold SharedMemoryRegion.openFile at opened
      rw [if_pos shaped.room] at opened
      dsimp only at opened
      split at opened
      · cases opened
      · cases opened
        exact SharedMemHeader.laid_of_load rfl
    · obtain ⟨offset, place, read⟩ := read_one (shaped.inside i b wrote)
      have found := reads offset 1 _ read 0 b (by decide) (by rw [place]; exact wrote)
      exact Option.some.inj found
  · rintro ⟨laid, kept⟩
    refine ⟨fun offset len bytes read i b below wrote => ?_, ?_⟩
    · unfold SharedMemoryRegion.readData at read
      dsimp only at read
      split at read
      · cases read
        rw [getElem?_load, if_pos below, kept _ b wrote]
      · cases read
    · have loaded := SharedMemHeader.load_bytes laid
      refine ⟨⟨s.region.mmap, s.region.len, s.region.header⟩, ?_, shaped.header⟩
      have same : s.region.header.magic = sharedMemMagic := by rw [shaped.header, magic]
      unfold SharedMemoryRegion.openFile
      rw [if_pos shaped.room, loaded, if_neg (not_not.mpr same)]

theorem writeData_ok {region after : SharedMemoryRegion} {offset : UInt64} {data : Slice}
    (wrote : region.writeData offset data = .ok after) :
    (region.address offset).toNat + data.bytes.length ≤ region.len.toNat ∧
    after = { region with mmap := store region.mmap (region.address offset).toNat data.bytes } := by
  have short := data.short
  unfold SharedMemoryRegion.writeData at wrote
  dsimp only at wrote
  split at wrote
  · cases wrote
  · rename_i fits
    split at wrote
    · rename_i ordered
      cases wrote
      refine ⟨?_, rfl⟩
      rw [gt_iff_lt, UInt64.lt_iff_toNat_lt, UInt64.toNat_add, UInt64.toNat_ofNat'] at fits
      rw [UInt64.le_iff_toNat_le, UInt64.toNat_add, UInt64.toNat_ofNat'] at ordered
      have bound := (region.address offset).toNat_lt
      omega
    · cases wrote

/-- What a write leaves: the bytes at its places, and their record. -/
theorem call_writeData {s t : RegionHistory} {offset : UInt64} {data : Slice}
    (called : s.call (.writeData offset data) = some t) :
    let first := (s.region.address offset).toNat
    first + data.bytes.length ≤ s.region.len.toNat ∧
    t.region = { s.region with mmap := store s.region.mmap first data.bytes } ∧ t.updated = s.updated ∧
    (∀ i b, data.bytes[i]? = some b → t.written (first + i) = some b) ∧
    ∀ i, (∀ j, i = first + j → data.bytes[j]? = none) → t.written i = s.written i := by
  unfold call at called
  dsimp only at called
  cases wrote : s.region.writeData offset data with
  | ok region =>
    obtain ⟨fits, after⟩ := writeData_ok wrote
    rw [wrote] at called
    cases called
    refine ⟨fits, after, rfl, fun i b found => ?_, fun i outside => ?_⟩
    · dsimp only
      rw [if_pos (Nat.le_add_right _ i), Nat.add_sub_cancel_left, found]
      rfl
    · dsimp only
      split
      · rename_i later
        rw [outside _ (Nat.add_sub_of_le later).symm]
        rfl
      · rfl
  | error e =>
    rw [wrote] at called
    cases called
  | fault =>
    rw [wrote] at called
    cases called

theorem shaped_call {created : SharedMemHeader} {s t : RegionHistory} {c : RegionCall}
    (shaped : Shaped created s) (called : s.call c = some t) : Shaped created t := by
  cases c with
  | writeData offset data =>
    obtain ⟨fits, region, updated, inside, outside⟩ := call_writeData called
    refine ⟨?_, ?_, fun i b wrote => ?_⟩
    · rw [region, updated, ← shaped.header]
    · rw [region]
      exact shaped.room
    · rw [region]
      rcases store_cases s.region.mmap (s.region.address offset).toNat data.bytes i with
        ⟨j, _, rfl, found, _⟩ | ⟨missed, _⟩
      · have below := (List.getElem?_eq_some_iff.mp found).1
        show _ < s.region.len.toNat
        omega
      · rw [outside i missed] at wrote
        exact shaped.inside i b wrote
  | updateHeader entryCount slot =>
    cases called
    refine ⟨?_, shaped.room, shaped.inside⟩
    show { s.region.header with entryCount, slot } = _
    rw [shaped.header]

theorem intact_call_iff {s t : RegionHistory} {c : RegionCall} (intact : Intact s)
    (called : s.call c = some t) : Intact t ↔ Spares s c := by
  cases c with
  | writeData offset data =>
    obtain ⟨-, region, -, inside, outside⟩ := call_writeData called
    have header : t.region.header = s.region.header := by rw [region]
    have mmap : t.region.mmap = store s.region.mmap (s.region.address offset).toNat data.bytes := by rw [region]
    constructor
    · rintro ⟨laid, -⟩ i b h found place
      rw [header, mmap, laid_iff] at laid
      have put := laid _ h place
      rw [Nat.zero_add, store_of_some _ found] at put
      exact put
    · intro spares
      refine ⟨?_, fun i b wrote => ?_⟩
      · rw [header, mmap, laid_iff]
        intro i h place
        rw [Nat.zero_add]
        rcases store_cases s.region.mmap (s.region.address offset).toNat data.bytes i with
          ⟨j, b, rfl, found, put⟩ | ⟨-, left⟩
        · rw [put, spares j b h found place]
        · have before := (laid_iff _ _ _).mp intact.laid i h place
          rw [left, ← before, Nat.zero_add]
      · rw [mmap]
        rcases store_cases s.region.mmap (s.region.address offset).toNat data.bytes i with
          ⟨j, b', rfl, found, put⟩ | ⟨missed, left⟩
        · rw [inside j b' found] at wrote
          rw [put, Option.some.inj wrote]
        · rw [outside i missed] at wrote
          rw [left, intact.kept i b wrote]
  | updateHeader entryCount slot =>
    cases called
    have laid := laid_store s.region.mmap 0 ({ s.region.header with entryCount, slot } : SharedMemHeader).bytes
    constructor
    · rintro ⟨-, kept⟩ i b h wrote place
      have put := (laid_iff _ _ _).mp laid i h place
      rw [Nat.zero_add] at put
      exact (kept i b wrote).symm.trans put
    · intro spares
      refine ⟨laid, fun i b wrote => ?_⟩
      rcases store_cases s.region.mmap 0 ({ s.region.header with entryCount, slot } : SharedMemHeader).bytes i with
        ⟨j, h, rfl, place, put⟩ | ⟨-, left⟩
      · rw [Nat.zero_add] at wrote
        exact put.trans (spares j b h wrote place).symm
      · exact left.trans (intact.kept i b wrote)

theorem create_ok {capacity createdAt : UInt64} {created : SharedMemoryRegion}
    (made : SharedMemoryRegion.create capacity createdAt = .ok created) :
    created.header = { SharedMemHeader.default with totalSize := capacity, createdAt } ∧
    Shaped created.header (start created) ∧ Intact (start created) := by
  unfold SharedMemoryRegion.create at made
  split at made
  · rename_i room
    cases made
    exact ⟨rfl, ⟨rfl, room, fun _ _ wrote => nomatch wrote⟩, laid_store (fun _ => 0) 0 _,
      fun _ _ wrote => nomatch wrote⟩
  · cases made

/-- Header and payload stay apart in a whole run exactly when no call overwrites a
byte of the other with a different one. -/
theorem separate_along_iff {capacity createdAt : UInt64} {created : SharedMemoryRegion}
    (made : SharedMemoryRegion.create capacity createdAt = .ok created) (calls : List RegionCall) :
    Separate created.header (start created) ∧
    (Along (ofPartial call) (fun _ _ t => Separate created.header t) (start created) calls ↔
      Along (ofPartial call) (fun s c _ => Spares s c) (start created) calls) := by
  obtain ⟨header, shaped, intact⟩ := create_ok made
  have magic : created.header.magic = sharedMemMagic := by rw [header]; rfl
  refine ⟨(separate_iff magic shaped).mpr intact, ?_⟩
  refine along_step_iff (fun s => Shaped created.header s ∧ Intact s) ?_ ?_ ⟨shaped, intact⟩ calls
  · rintro s c t ⟨shaped, intact⟩ called
    rw [separate_iff magic (shaped_call shaped called), intact_call_iff intact called]
  · rintro s c t ⟨shaped, intact⟩ called spares
    exact ⟨shaped_call shaped called, (intact_call_iff intact called).mpr spares⟩

/-- Payload that starts behind the whole header is never in its way. -/
theorem spares_of_behind {created : SharedMemoryRegion} {calls : List RegionCall}
    (behind : ∀ offset data, RegionCall.writeData offset data ∈ calls →
      SharedMemHeader.size ≤ (created.address offset).toNat) :
    Along (ofPartial call) (fun s c _ => Spares s c) (start created) calls := by
  have labels : ∀ c ∈ calls, ∀ offset data, c = .writeData offset data →
      SharedMemHeader.size ≤ (created.address offset).toNat :=
    fun c member offset data same => behind offset data (same ▸ member)
  refine along_of_invariant
    (fun s => s.region.header.dataOffset = created.header.dataOffset ∧
      ∀ i b, s.written i = some b → SharedMemHeader.size ≤ i)
    _ _ ?_ ⟨rfl, fun _ _ wrote => nomatch wrote⟩ (along_labels _ labels _)
  rintro s c t ⟨dataOffset, payload⟩ called label
  have short (header : SharedMemHeader) {i : Nat} {h : UInt8} (place : header.bytes[i]? = some h) :
      i < SharedMemHeader.size := header.length_bytes ▸ (List.getElem?_eq_some_iff.mp place).1
  cases c with
  | writeData offset data =>
    have far := label offset data rfl
    have same : s.region.address offset = created.address offset := by
      rw [SharedMemoryRegion.address, dataOffset, SharedMemoryRegion.address]
    obtain ⟨-, region, -, -, outside⟩ := call_writeData called
    refine ⟨⟨?_, fun i b wrote => ?_⟩, fun i b h _ place => ?_⟩
    · rw [region, ← dataOffset]
    · rcases store_cases s.region.mmap (s.region.address offset).toNat data.bytes i with
        ⟨j, _, rfl, _, _⟩ | ⟨missed, _⟩
      · rw [same]
        omega
      · rw [outside i missed] at wrote
        exact payload i b wrote
    · have before := short _ place
      rw [same] at before
      omega
  | updateHeader entryCount slot =>
    cases called
    refine ⟨⟨dataOffset, payload⟩, fun i b h wrote place => ?_⟩
    have before := short _ place
    have after := payload i b wrote
    omega

theorem separate_along_hello : ∃ created, SharedMemoryRegion.create 1048576 0 = .ok created ∧
    Along (ofPartial call) (fun _ _ t => Separate created.header t) (start created)
      [.writeData 16 ⟨[72, 101, 108, 108, 111], by decide⟩, .updateHeader 1 1000] := by
  refine ⟨_, rfl, (@separate_along_iff 1048576 0 _ rfl _).2.mpr (spares_of_behind ?_)⟩
  intro offset data member
  obtain ⟨rfl, -⟩ : offset = 16 ∧ data = ⟨[72, 101, 108, 108, 111], by decide⟩ := by simpa using member
  decide

/-- Sixteen bytes of the greeting are zero once the header is updated. -/
theorem hello_overwritten : ∃ created s, SharedMemoryRegion.create 1048576 0 = .ok created ∧
    Run (ofPartial call) (start created)
      [.writeData 0 ⟨[72, 101, 108, 108, 111, 44, 32, 83, 104, 97, 114, 101, 100, 32, 77, 101, 109, 111,
        114, 121, 33], by decide⟩, .updateHeader 1 1000] s ∧
    s.region.readData 0 21 = .ok (List.replicate 16 0 ++ [109, 111, 114, 121, 33]) ∧
    ¬ Separate created.header s := by
  refine ⟨_, _, rfl, (run_ofPartial call _ _ _).mpr rfl, by decide +kernel, fun separate => ?_⟩
  have first := separate.1 0 21 _ rfl 0 72 (by decide) (by decide +kernel)
  exact absurd first (by decide +kernel)

end RegionHistory

end Hyperplane
