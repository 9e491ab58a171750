import Hyperplane.Delta.Locator
import Hyperplane.Delta.Reducer
import Hyperplane.Delta.Segment
import Hyperplane.Ring.Buffer

/-! The consumer that moves entries from the ring to delta segments. -/
namespace Hyperplane
open RingBufferReader

structure DeltaConsumerConfig where
  deltaPath : String
  flushBatchSize : Nat

def DeltaConsumerConfig.segmentPath (config : DeltaConsumerConfig) (slot : UInt64) : String :=
  config.deltaPath ++ "/segment_" ++ toString slot ++ ".bin"

structure DeltaConsumerState where
  running : Bool := false
  currentSegment : Option SegmentWriter := none
  currentSegmentStartSlot : Option UInt64 := none
  currentSegmentEntries : Nat := 0
  totalProcessed : Nat := 0

inductive DeltaConsumerError where
  | io (e : IoError)
  | ringBuffer (e : RingBufferError)
  | segmentWriter (e : SegmentError)
  | alreadyRunning
  | invalidPubkey
  deriving DecidableEq, Repr

/-- A call of append that returned: the file, the offset and the entry. -/
structure SegmentAppend where
  path : String
  offset : UInt64
  entry : RingEntryView

/-- A segment that was opened: the entries appended to it and what it was
registered as, if it was. -/
structure SegmentRecord where
  path : String
  startSlot : UInt64
  entries : List RingEntryView
  registered : Option DeltaSegmentMeta

/-- The consumer with the disk it writes to. The last two fields record every
append and, newest first, every segment; no operation reads them. -/
structure DeltaConsumer where
  config : DeltaConsumerConfig
  state : DeltaConsumerState
  deltaLocator : DeltaLocator
  updateReducer : UpdateReducer
  disk : Disk
  appended : List SegmentAppend
  segments : List SegmentRecord

namespace DeltaConsumer

variable (crc32 : List UInt8 → UInt32)

def new (config : DeltaConsumerConfig) (locator : DeltaLocator) (disk : Disk) : DeltaConsumer where
  config := config
  state := {}
  deltaLocator := locator
  updateReducer := {}
  disk := disk
  appended := []
  segments := []

def setState (f : DeltaConsumerState → DeltaConsumerState) (c : DeltaConsumer) : DeltaConsumer :=
  { c with state := f c.state }

def start : Method DeltaConsumer DeltaConsumerError Unit := do
  let c ← Method.get
  if c.state.running then Method.fail .alreadyRunning
  else do
    Method.modify (setState fun state => { state with running := true })
    -- The directory of the segments is created; the model's paths need none.
    Method.zoom disk (fun c disk => { c with disk := disk }) .io Disk.attempt

/-- The result of finalize is only logged. -/
def stop (c : DeltaConsumer) : DeltaConsumer :=
  match c.state.currentSegment with
  | none => { c with state := { c.state with running := false } }
  | some segment => { c with
      disk := (SegmentWriter.finalize crc32 (c.disk, segment)).2.1
      state := { c.state with
        running := false
        currentSegment := none } }

def entryLocation (v : RingEntryView) : AccountLocation where
  fileId := 0
  offset := 0
  storedSize := UInt32.ofNat v.data.length
  dataOffset := 0
  dataLen := UInt32.ofNat v.data.length
  slot := v.slot
  writeVersion := v.writeVersion
  storageType := .delta

def reduce (pubkey : Pubkey) (v : RingEntryView) (c : DeltaConsumer) : DeltaConsumer :=
  { c with updateReducer := (c.updateReducer.addUpdate pubkey v.slot v.writeVersion (entryLocation v)).2 }

def openSegment (slot : UInt64) : Method DeltaConsumer DeltaConsumerError Unit := fun c =>
  match c.state.currentSegment with
  | some _ => (.ok (), c)
  | none => match SegmentWriter.create crc32 (c.config.segmentPath slot) slot c.disk with
    | (.ok writer, disk) => (.ok (), { c with
        disk := disk
        state := { c.state with
          currentSegment := some writer
          currentSegmentStartSlot := some slot
          currentSegmentEntries := 0 }
        segments := ⟨c.config.segmentPath slot, slot, [], none⟩ :: c.segments })
    | (.error e, disk) => (.error (.segmentWriter e), { c with disk := disk })
    | (.fault, disk) => (.fault, { c with disk := disk })

def appendEntry (v : RingEntryView) : Method DeltaConsumer DeltaConsumerError Unit := fun c =>
  match c.state.currentSegment with
  | none => (.ok (), c)
  | some segment =>
    match SegmentWriter.append v.slot v.writeVersion v.pubkey v.data (c.disk, segment) with
    | (.ok offset, disk, segment) => (.ok (), { c with
        disk := disk
        state := { c.state with
          currentSegment := some segment
          currentSegmentEntries := c.state.currentSegmentEntries + 1 }
        appended := c.appended ++ [⟨segment.file.path, offset, v⟩]
        segments := c.segments.modifyHead fun r => { r with entries := r.entries ++ [v] } })
    | (.error e, disk, segment) => (.error (.segmentWriter e), { c with
        disk := disk
        state := { c.state with currentSegment := some segment } })
    | (.fault, disk, _) => (.fault, { c with disk := disk })

def writeToSegment (v : RingEntryView) : Method DeltaConsumer DeltaConsumerError Unit := do
  openSegment crc32 v.slot
  appendEntry v

/-- The writer leaves the state before it is known whether finalize succeeds. -/
def maybeFlushSegment : Method DeltaConsumer DeltaConsumerError Unit := fun c =>
  if c.config.flushBatchSize ≤ c.state.currentSegmentEntries then
    match c.state.currentSegment with
    | none => (.ok (), c)
    | some segment => match SegmentWriter.finalize crc32 (c.disk, segment) with
      | (.ok info, disk, _) =>
        let segmentMeta : DeltaSegmentMeta := {
          path := c.config.segmentPath (c.state.currentSegmentStartSlot.getD 0)
          startSlot := info.startSlot
          endSlot := info.endSlot
          entryCount := info.entryCount
          dataSize := info.dataSize }
        (.ok (), { c with
          disk := disk
          deltaLocator := c.deltaLocator.registerSegment segmentMeta
          state := { c.state with
            currentSegment := none
            currentSegmentStartSlot := none
            currentSegmentEntries := 0 }
          segments := c.segments.modifyHead fun r => { r with registered := some segmentMeta } })
      | (.error e, disk, _) => (.error (.segmentWriter e), { c with
          disk := disk
          state := { c.state with currentSegment := none } })
      | (.fault, disk, _) => (.fault, { c with disk := disk })
  else (.ok (), c)

def processEntry (v : RingEntryView) : Method DeltaConsumer DeltaConsumerError Unit :=
  match Pubkey.tryFrom v.pubkey.toList with
  | none => Method.fail .invalidPubkey
  | some pubkey => do
    Method.modify (reduce pubkey v)
    writeToSegment crc32 v

def finishUpdates (processed : Nat) : Method DeltaConsumer DeltaConsumerError Nat := do
  Method.modify (setState fun state => { state with totalProcessed := state.totalProcessed + processed })
  maybeFlushSegment crc32
  return processed

def processLoop (ring : Ring) :
    Nat → RingBufferReader → Nat → Method DeltaConsumer DeltaConsumerError Nat
  | 0, _, _ => fun c => (.fault, c)
  | fuel + 1, reader, processed => match readNext ring reader with
    | (.ok none, _) => finishUpdates crc32 processed
    | (.ok (some v), after) => do
      processEntry crc32 v
      processLoop ring fuel after (processed + 1)
    | (.error e, _) => Method.fail (.ringBuffer e)
    | (.fault, _) => fun c => (.fault, c)

/-- A reader of its own, opened at the start of the ring in every call. -/
def processUpdates (ring : Ring) : Method DeltaConsumer DeltaConsumerError Nat :=
  match openFile ring with
  | .ok reader => processLoop crc32 ring (ring.header.writePos + 1) reader 0
  | .error e => Method.fail (.ringBuffer e)
  | .fault => fun c => (.fault, c)

end DeltaConsumer

end Hyperplane
