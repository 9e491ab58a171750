import Hyperplane.Lib.Bytes
import Hyperplane.Lib.Method
import Hyperplane.Types.Account

/-! The shared memory ring buffer between the Geyser plugin and its readers. -/
namespace Hyperplane
open Bytes

inductive RingBufferState where
  | uninitialized
  | active
  | draining
  | stopped
  deriving DecidableEq, Repr

def RingBufferState.code : RingBufferState → UInt8
  | .uninitialized => 0
  | .active => 1
  | .draining => 2
  | .stopped => 3

structure RingBufferHeader where
  writePos : Nat
  readPos : Nat
  capacity : Nat
  entryCount : Nat
  state : UInt8

/-- Size of the header: 80 bytes of fields, aligned to 64. -/
def ringHeaderSize : Nat := 128

/-- The mapped file. The area holds the bytes after the header; an access is
defined only below the length of the mapping. Mappings are shorter than 2^63
bytes, so positions inside one never wrap. -/
structure Ring where
  header : RingBufferHeader
  area : Area
  mapped : Nat

def Ring.Covers (ring : Ring) (pos len : Nat) : Prop := ringHeaderSize + pos + len ≤ ring.mapped

instance (ring : Ring) (pos len : Nat) : Decidable (ring.Covers pos len) :=
  inferInstanceAs (Decidable (_ ≤ _))

structure RingEntry where
  size : UInt32
  slot : UInt64
  writeVersion : UInt64
  pubkey : Pubkey
  dataLen : UInt32
  reserved : UInt32
  deriving DecidableEq

def RingEntry.headerSize : Nat := 64

/-- The C layout. Nothing reads the four padding bytes after the size, which
the language leaves unspecified; here they are zero. -/
def RingEntry.bytes (e : RingEntry) : List UInt8 :=
  toLE 4 e.size.toNat ++ ([0, 0, 0, 0] ++ (toLE 8 e.slot.toNat ++ (toLE 8 e.writeVersion.toNat ++
    (e.pubkey.toList ++ (toLE 4 e.dataLen.toNat ++ toLE 4 e.reserved.toNat)))))

def RingEntry.load (m : Area) (pos : Nat) : RingEntry where
  size := UInt32.ofNat (ofLE (Bytes.load m pos 4))
  slot := UInt64.ofNat (ofLE (Bytes.load m (pos + 8) 8))
  writeVersion := UInt64.ofNat (ofLE (Bytes.load m (pos + 16) 8))
  pubkey := ⟨(Bytes.load m (pos + 24) 32).toArray, by simp⟩
  dataLen := UInt32.ofNat (ofLE (Bytes.load m (pos + 56) 4))
  reserved := UInt32.ofNat (ofLE (Bytes.load m (pos + 60) 4))

/-- What a write is given and what a reader is handed. -/
structure RingEntryView where
  slot : UInt64
  writeVersion : UInt64
  pubkey : Pubkey
  data : List UInt8
  deriving DecidableEq

def entrySize (data : List UInt8) : UInt32 := UInt32.ofNat (RingEntry.headerSize + data.length)

def RingEntryView.entry (v : RingEntryView) : RingEntry where
  size := entrySize v.data
  slot := v.slot
  writeVersion := v.writeVersion
  pubkey := v.pubkey
  dataLen := UInt32.ofNat v.data.length
  reserved := 0

inductive RingBufferError where
  | io
  | notActive
  | bufferFull
  | invalidSize
  | corruptedEntry
  deriving DecidableEq, Repr

structure RingBufferWriter where
  capacity : Nat

namespace RingBufferWriter

/-- A ring as create leaves it: the whole file is the capacity. -/
def created (capacity : Nat) : Ring where
  header := ⟨0, 0, capacity, 0, RingBufferState.active.code⟩
  area := fun _ => 0
  mapped := capacity

/-- The header is written without comparing its size with the file's. -/
def create (capacity : Nat) : Outcome RingBufferError (RingBufferWriter × Ring) :=
  if ringHeaderSize ≤ capacity then .ok (⟨capacity⟩, created capacity) else .fault

def check (w : RingBufferWriter) (v : RingEntryView) : Method Ring RingBufferError Nat := fun ring =>
  if ring.header.state ≠ RingBufferState.active.code then (.error .notActive, ring)
  else if w.capacity < ring.header.writePos + (entrySize v.data).toNat then (.error .bufferFull, ring)
  else (.ok ring.header.writePos, ring)

def copyEntry (v : RingEntryView) (pos : Nat) : Method Ring RingBufferError Unit := fun ring =>
  if ring.Covers pos (RingEntry.headerSize + v.data.length) then
    (.ok (), { ring with
      area := store (store ring.area pos v.entry.bytes) (pos + RingEntry.headerSize) v.data })
  else (.fault, ring)

def storeWritePos (newPos : Nat) (ring : Ring) : Ring :=
  { ring with header := { ring.header with writePos := newPos } }

def addEntryCount (ring : Ring) : Ring :=
  { ring with header := { ring.header with entryCount := ring.header.entryCount + 1 } }

def write (w : RingBufferWriter) (v : RingEntryView) : Method Ring RingBufferError Nat := do
  let writePos ← w.check v
  copyEntry v writePos
  Method.modify (storeWritePos (writePos + (entrySize v.data).toNat))
  Method.modify addEntryCount
  return writePos

def entryCount (ring : Ring) : Nat := ring.header.entryCount

def close (ring : Ring) : Ring :=
  { ring with header := { ring.header with state := RingBufferState.stopped.code } }

end RingBufferWriter

structure RingBufferReader where
  readPos : Nat
  deriving DecidableEq

namespace RingBufferReader

/-- Every reader starts at the first entry. -/
def fresh : RingBufferReader := ⟨0⟩

def openFile (ring : Ring) : Outcome RingBufferError RingBufferReader :=
  if ring.mapped < ringHeaderSize then .error .invalidSize else .ok fresh

def readNext (ring : Ring) : Method RingBufferReader RingBufferError (Option RingEntryView) := fun reader =>
  if ring.header.writePos ≤ reader.readPos then (.ok none, reader)
  else if ¬ ring.Covers reader.readPos RingEntry.headerSize then (.fault, reader)
  else
    let entry := RingEntry.load ring.area reader.readPos
    if entry.size = 0 ∨ ring.header.writePos < reader.readPos + entry.size.toNat then
      (.error .corruptedEntry, reader)
    else if ¬ ring.Covers reader.readPos (RingEntry.headerSize + entry.dataLen.toNat) then (.fault, reader)
    else
      let data := Bytes.load ring.area (reader.readPos + RingEntry.headerSize) entry.dataLen.toNat
      (.ok (some ⟨entry.slot, entry.writeVersion, entry.pubkey, data⟩),
        ⟨reader.readPos + entry.size.toNat⟩)

/-- Reading until nothing is left hands out exactly the listed views. -/
inductive Reads (ring : Ring) : RingBufferReader → List RingEntryView → Prop where
  | done {reader : RingBufferReader} : readNext ring reader = (.ok none, reader) → Reads ring reader []
  | next {reader after : RingBufferReader} {v : RingEntryView} {rest : List RingEntryView} :
      readNext ring reader = (.ok (some v), after) → Reads ring after rest →
        Reads ring reader (v :: rest)

end RingBufferReader

end Hyperplane
