import Hyperplane.Lib.Bytes
import Hyperplane.Lib.Disk
import Hyperplane.Types.Account

/-! Append-only segment files of account updates. -/
namespace Hyperplane
open Bytes

structure SegmentHeader where
  magic : UInt32
  version : UInt32
  startSlot : UInt64
  endSlot : UInt64
  entryCount : UInt64
  dataSize : UInt64
  checksum : UInt32
  deriving DecidableEq

namespace SegmentHeader

def MAGIC : UInt32 := 0x5345474D

def VERSION : UInt32 := 1

def size : Nat := 48

def new (startSlot : UInt64) : SegmentHeader where
  magic := MAGIC
  version := VERSION
  startSlot := startSlot
  endSlot := 0
  entryCount := 0
  dataSize := 0
  checksum := 0

/-- The C layout, with four bytes of padding at the end. -/
def bytes (h : SegmentHeader) : List UInt8 :=
  toLE 4 h.magic.toNat ++ (toLE 4 h.version.toNat ++ (toLE 8 h.startSlot.toNat ++
    (toLE 8 h.endSlot.toNat ++ (toLE 8 h.entryCount.toNat ++ (toLE 8 h.dataSize.toNat ++
      (toLE 4 h.checksum.toNat ++ [0, 0, 0, 0]))))))

end SegmentHeader

inductive SegmentError where
  | io (e : IoError)
  | invalidMagic (magic : UInt32)
  | unsupportedVersion (version : UInt32)
  | checksumMismatch
  deriving DecidableEq, Repr

structure DeltaEntry where
  size : UInt32
  slot : UInt64
  writeVersion : UInt64
  pubkey : Pubkey
  dataLen : UInt32
  reserved : UInt32

def DeltaEntry.headerSize : Nat := 64

def DeltaEntry.bytes (e : DeltaEntry) : List UInt8 :=
  toLE 4 e.size.toNat ++ ([0, 0, 0, 0] ++ (toLE 8 e.slot.toNat ++ (toLE 8 e.writeVersion.toNat ++
    (e.pubkey.toList ++ (toLE 4 e.dataLen.toNat ++ toLE 4 e.reserved.toNat)))))

structure SegmentWriter where
  file : BufWriter
  header : SegmentHeader
  currentPos : UInt64

structure SegmentInfo where
  startSlot : UInt64
  endSlot : UInt64
  entryCount : UInt64
  dataSize : UInt64
  deriving DecidableEq

namespace SegmentWriter

variable (crc32 : List UInt8 → UInt32)

def onFile {α : Type} (x : Method (Disk × BufWriter) IoError α) :
    Method (Disk × SegmentWriter) SegmentError α :=
  Method.zoom (fun s => (s.1, s.2.file)) (fun s part => (part.1, { s.2 with file := part.2 })) .io x

def setHeader (f : SegmentHeader → SegmentHeader) : Method (Disk × SegmentWriter) SegmentError Unit :=
  Method.modify fun (disk, w) => (disk, { w with header := f w.header })

/-- The hashed bytes end before the last four of the struct, so they hold the
checksum field itself. -/
def writeHeader : Method (Disk × SegmentWriter) SegmentError Unit := do
  setHeader fun h => { h with checksum := crc32 (h.bytes.take (SegmentHeader.size - 4)) }
  onFile (BufWriter.seekStart 0)
  let (_, w) ← Method.get
  onFile (BufWriter.writeAll w.header.bytes)

def create (path : String) (startSlot : UInt64) : Method Disk SegmentError SegmentWriter := fun disk =>
  match Disk.openTruncated path disk with
  | (.ok _, opened) =>
    match writeHeader crc32 (opened, ⟨⟨path, 0, []⟩, .new startSlot, .ofNat SegmentHeader.size⟩) with
    | (.ok _, after, w) => (.ok w, after)
    | (.error e, after, _) => (.error e, after)
    | (.fault, after, _) => (.fault, after)
  | (.error e, after) => (.error (.io e), after)
  | (.fault, after) => (.fault, after)

def append (slot writeVersion : UInt64) (pubkey : Pubkey) (data : List UInt8) :
    Method (Disk × SegmentWriter) SegmentError UInt64 := do
  let entry : DeltaEntry := {
    size := UInt32.ofNat (DeltaEntry.headerSize + data.length)
    slot := slot
    writeVersion := writeVersion
    pubkey := pubkey
    dataLen := UInt32.ofNat data.length
    reserved := 0 }
  let (_, w) ← Method.get
  onFile (BufWriter.writeAll entry.bytes)
  onFile (BufWriter.writeAll data)
  onFile BufWriter.flush
  Method.modify fun (disk, w) => (disk, { w with
    currentPos := w.currentPos + entry.size.toUInt64
    header := { w.header with
      entryCount := w.header.entryCount + 1
      dataSize := w.header.dataSize + entry.size.toUInt64
      endSlot := max w.header.endSlot slot } })
  return w.currentPos

/-- The writer goes out of scope on return, and its buffer is flushed then if it
has not been before. -/
def finalize : Method (Disk × SegmentWriter) SegmentError SegmentInfo :=
  Method.thenDrop (fun s => (onFile BufWriter.flush s).2) do
    writeHeader crc32
    onFile BufWriter.flush
    let (_, w) ← Method.get
    return ⟨w.header.startSlot, w.header.endSlot, w.header.entryCount, w.header.dataSize⟩

end SegmentWriter

namespace SegmentHeader

/-- The first 48 bytes as a header; the padding is dropped. -/
def ofBytes (bs : List UInt8) : SegmentHeader where
  magic := .ofNat (ofLE (bs.take 4))
  version := .ofNat (ofLE ((bs.drop 4).take 4))
  startSlot := .ofNat (ofLE ((bs.drop 8).take 8))
  endSlot := .ofNat (ofLE ((bs.drop 16).take 8))
  entryCount := .ofNat (ofLE ((bs.drop 24).take 8))
  dataSize := .ofNat (ofLE ((bs.drop 32).take 8))
  checksum := .ofNat (ofLE ((bs.drop 40).take 4))

def validate (h : SegmentHeader) : Method Disk SegmentError Unit :=
  if h.magic ≠ MAGIC then Method.fail (.invalidMagic h.magic)
  else if h.version ≠ VERSION then Method.fail (.unsupportedVersion h.version)
  else pure ()

def info (h : SegmentHeader) : SegmentInfo := ⟨h.startSlot, h.endSlot, h.entryCount, h.dataSize⟩

/-- What a header is written as is read as the header, whatever follows. -/
theorem ofBytes_bytes (h : SegmentHeader) (rest : List UInt8) : ofBytes (h.bytes ++ rest) = h := by
  have fields : ofBytes (h.bytes ++ rest) = ⟨.ofNat (ofLE (toLE 4 h.magic.toNat)),
      .ofNat (ofLE (toLE 4 h.version.toNat)), .ofNat (ofLE (toLE 8 h.startSlot.toNat)),
      .ofNat (ofLE (toLE 8 h.endSlot.toNat)), .ofNat (ofLE (toLE 8 h.entryCount.toNat)),
      .ofNat (ofLE (toLE 8 h.dataSize.toNat)), .ofNat (ofLE (toLE 4 h.checksum.toNat))⟩ := rfl
  rw [fields]
  simp only [u32_round, u64_round]

end SegmentHeader

structure SegmentReader where
  path : String
  header : SegmentHeader

namespace SegmentReader

/-- Magic and version are all that is checked of the header. -/
def openFile (path : String) : Method Disk SegmentError SegmentReader := do
  let bs ← Method.zoom id (fun _ disk => disk) .io (Disk.readExact path SegmentHeader.size)
  let header := SegmentHeader.ofBytes bs
  header.validate
  return ⟨path, header⟩

def info (reader : SegmentReader) : SegmentInfo := reader.header.info

end SegmentReader

end Hyperplane
