import PacketCraftr.Capture.Writer
import PacketCraftr.Foundation.Reorder

/-!
# Merging captures

The merge of `capture_file/merge.rs`. The arrays of sources, of their states, of their next frames
and of their frame counts are one list of lanes. A heap is a list from which the least element is
taken out; the heap of a chronological merge holds the times of the next frames of the lanes, and is
read off them. The text that `serde_json` makes of the origin of an interface is a parameter.
-/

namespace PacketCraftr.Capture

inductive MergeOrder
  | chronological
  | append
  deriving DecidableEq, Repr

structure MergeLimits where
  streams : Limits
  maxSources : ℕ
  maxInterfaces : ℕ
  order : MergeOrder
  maxReorderFrames : ℕ
  deriving DecidableEq, Repr

def maxMergeSources : ℕ := 64

def maxSourceNameBytes : ℕ := 4096

def maxReorderFrames : ℕ := 65536

def MergeLimits.validate (limits : MergeLimits) : Except Error Unit := do
  limits.streams.validate
  .rejectIf (limits.maxSources < 1 ∨ limits.maxSources > maxMergeSources)
    (.mergeSources maxMergeSources)
  .rejectIf (limits.maxReorderFrames > Capture.maxReorderFrames)
    (.mergeOption "the reorder window exceeds the supported maximum")
  .rejectIf (limits.order = .append ∧ limits.maxReorderFrames > 0)
    (.mergeOption "append order keeps timestamps verbatim and cannot reorder frames")

structure MergeSource where
  name : String
  reader : Reader

/-- The origin of an interface of the output. -/
structure MergedInterface where
  source : ℕ
  sourceName : String
  sectionIndex : Option ℕ
  localInterface : Option ℕ
  globalInterface : UInt32
  outputInterface : UInt32
  deriving DecidableEq, Repr

structure MergeReport where
  frames : ℕ
  capturedBytes : ℕ
  sourceFrames : List ℕ
  interfaces : List MergedInterface
  sourceMetadataRecords : ℕ
  deriving DecidableEq, Repr

/-- A frame that was read, with its position in its source, counted from one. -/
structure Pending where
  frame : Frame
  number : ℕ
  time : SystemTime
  description : Interface
  sectionIndex : Option ℕ
  localInterface : Option ℕ
  globalInterface : UInt32

/-- A source while it is merged. -/
structure Lane where
  name : String
  reader : Reader
  frames : ℕ
  previous : Option SystemTime
  window : List Pending
  exhausted : Bool
  interfaces : ℕ
  endianness : Endianness
  pending : Option Pending

/-- What the sources share. -/
structure MergeCounts where
  interfaces : ℕ
  metadataRecords : ℕ
  budget : Budget

structure MergeState where
  lanes : List Lane
  counts : MergeCounts
  mappings : List ((ℕ × UInt32) × UInt32)
  interfaces : List MergedInterface
  output : Writer

def declaredFcs : String := "declared frame check sequence"

/-! ### Reading -/

def validateRewritablePacketFlags (options : List PcapNgOption) (e : Endianness)
    (malformedReason : String) : Except String Unit :=
  (options.filter (·.code = optionEpbFlags)).forM fun o => do
    .rejectIf (o.value.length ≠ 4) malformedReason
    let flags := field e o.value 0 4
    .rejectIf (flags / 4 ≠ 0) "extended packet flags"
    .rejectIf (flags = 3) "undefined packet direction"

/-- The lane after a record that carries no packet. -/
def Lane.skip (lane : Lane) (index : ℕ) (kind : MetadataBlockKind) : Except Error Lane :=
  match kind with
  | .newSection s => .ok { lane with endianness := s.endianness }
  | .interfaceDescription .. =>
    if lane.reader.declaresFcs then .error (.mergeMetadata index declaredFcs) else .ok lane
  | _ => .ok lane

def Lane.packet (lane : Lane) (index next : ℕ) (counts : MergeCounts) (record : CaptureRecord)
    (sectionIndex localInterface : Option ℕ) (options : List PcapNgOption) :
    Except Error (Pending × Lane × MergeCounts) := do
  (validateRewritablePacketFlags options lane.endianness "packet flags").mapError
    (.mergeMetadata index)
  let frame ← .okOr record.frame
    (.invalidData lane.reader.header.format "packet record has no frame")
  let time ← .okOr frame.timestamp (.mergeSource index next (.timestampUnavailable .pcapNg))
  let budget ← counts.budget.after frame.capturedLength
  let globalInterface := frame.interface.getD 0
  let description ← .okOr lane.reader.interfaces[globalInterface.toNat]?
    (.undefinedInterface globalInterface.toNat lane.reader.interfaces.length)
  pure (⟨frame, next, time, description, sectionIndex, localInterface, globalInterface⟩,
    { lane with frames := next }, { counts with budget })

/-- Read records up to the next frame. A record takes at least one byte of the input, so there are
no more of them than bytes. -/
def readFrameLoop (index next : ℕ) (limits : MergeLimits) :
    ℕ → Lane → MergeCounts → Except Error (Option Pending × Lane × MergeCounts)
  | 0, lane, counts =>
    match lane.reader.nextRecord with
    | (.error e, _) => .error (.mergeSource index next e)
    | (.ok _, reader) => .ok (none, { lane with reader }, counts)
  | fuel + 1, lane, counts =>
    match lane.reader.nextRecord with
    | (.error e, _) => .error (.mergeSource index next e)
    | (.ok none, reader) => .ok (none, { lane with reader }, counts)
    | (.ok (some record), reader) => do
      let count := reader.interfaces.length
      let interfaces ← .okOr ((checkedAdd counts.interfaces (count - lane.interfaces)).filter
        (· ≤ limits.maxInterfaces)) (.totalInterfaceLimit limits.maxInterfaces)
      let lane := { lane with reader, interfaces := count }
      let counts := { counts with interfaces }
      match record.kind with
      | .metadata kind => do
        let metadataRecords ← .okOr (checkedAdd counts.metadataRecords 1)
          (.metadataBlockLimit (wordLimit - 1))
        let lane ← lane.skip index kind
        readFrameLoop index next limits fuel lane { counts with metadataRecords }
      | .packet _ sectionIndex localInterface options => do
        let (pending, lane, counts) ←
          lane.packet index next counts record sectionIndex localInterface options
        pure (some pending, lane, counts)

def readFrame (index : ℕ) (limits : MergeLimits) (lane : Lane) (counts : MergeCounts) :
    Except Error (Option Pending × Lane × MergeCounts) := do
  let next ← .okOr (checkedAdd lane.frames 1)
    (.frameLimitExceeded (wordLimit - 1) limits.streams.maxFrames)
  readFrameLoop index next limits lane.reader.rest.length lane counts

/-! ### The window of a source -/

/-- Windows are ordered by time, and by position when the times are equal. -/
def Pending.key (p : Pending) : ℤ ×ₗ ℕ :=
  Reorder.key (fun p : Pending => p.time.nanos) Pending.number p

/-- Fill the window, which has room for a number of frames. -/
def fillWindow (index : ℕ) (limits : MergeLimits) :
    ℕ → Lane → MergeCounts → Except Error (Lane × MergeCounts)
  | 0, lane, counts => .ok (lane, counts)
  | room + 1, lane, counts =>
    if lane.exhausted then .ok (lane, counts)
    else do
      match ← readFrame index limits lane counts with
      | (some pending, lane, counts) =>
        fillWindow index limits room { lane with window := lane.window ++ [pending] } counts
      | (none, lane, counts) => .ok ({ lane with exhausted := true }, counts)

def MergeLimits.window (limits : MergeLimits) : ℕ := max limits.maxReorderFrames 1

/-- The next frame of a source: the earliest of its window, which is filled first. -/
def advance (index : ℕ) (limits : MergeLimits) (lane : Lane) (counts : MergeCounts) :
    Except Error (Lane × MergeCounts) := do
  let (lane, counts) ←
    fillWindow index limits (limits.window - lane.window.length) lane counts
  match Reorder.popMin Pending.key lane.window with
  | none => pure ({ lane with pending := none }, counts)
  | some (next, window) => do
    .rejectIf (limits.order = .chronological ∧ lane.previous.any (next.time.nanos < ·.nanos))
      (.mergeClockRegression index next.number)
    pure ({ lane with window, previous := some next.time, pending := some next }, counts)

def advanceAll (limits : MergeLimits) (index : ℕ) :
    List Lane → MergeCounts → Except Error (List Lane × MergeCounts)
  | [], counts => .ok ([], counts)
  | lane :: lanes, counts => do
    let (lane, counts) ← advance index limits lane counts
    let (lanes, counts) ← advanceAll limits (index + 1) lanes counts
    pure (lane :: lanes, counts)

/-! ### Merging -/

def heads (lanes : List Lane) : List (ℤ × ℕ) :=
  lanes.zipIdx.filterMap fun (lane, index) => lane.pending.map fun p => (p.time.nanos, index)

/-- The lane whose next frame is written. -/
def takeNext (order : MergeOrder) (lanes : List Lane) : Option ℕ :=
  match order with
  | .chronological => (Reorder.popMin toLex (heads lanes)).map (·.1.2)
  | .append => lanes.findIdx? (·.pending.isSome)

section Provenance

variable (provenance : MergedInterface → Bytes)

/-- The interface of the output for a frame. A new one is described by its origin. -/
def outputInterface (state : MergeState) (index : ℕ) (name : String) (current : Pending) :
    Except Error (UInt32 × MergeState) :=
  match state.mappings.lookup (index, current.globalInterface) with
  | some id => .ok (id, state)
  | none => do
    let mapping : MergedInterface := ⟨index, name, current.sectionIndex, current.localInterface,
      current.globalInterface, 0⟩
    let (id, output) ← state.output.addInterfaceDescriptionWithOptions current.description
      [⟨optionComment, provenance mapping⟩]
    let id := UInt32.ofNat id
    pure (id, { state with
      output
      mappings := ((index, current.globalInterface), id) :: state.mappings
      interfaces := state.interfaces ++ [{ mapping with outputInterface := id }] })

/-- Write the next frame of a lane, and advance the lane. -/
def mergeStep (limits : MergeLimits) (state : MergeState) (index : ℕ) (lane : Lane)
    (current : Pending) : Except Error MergeState := do
  let (id, state) ← outputInterface provenance state index lane.name current
  let output ← state.output.writeFrame { current.frame with interface := some id }
  let (lane, counts) ← advance index limits lane state.counts
  pure { state with lanes := state.lanes.set index lane, counts, output }

/-- Write frames until no lane has one. Each of them was read from a byte of an input at least. -/
def mergeLoop (limits : MergeLimits) : ℕ → MergeState → Except Error MergeState
  | 0, state => .ok state
  | fuel + 1, state =>
    match takeNext limits.order state.lanes with
    | none => .ok state
    | some index =>
      match state.lanes[index]? with
      | none => .ok state
      | some lane =>
        match lane.pending with
        | none => .ok state
        | some current => do
          let state ← mergeStep provenance limits state index lane current
          mergeLoop limits fuel state

/-- The lanes of sources, none of which may declare a frame check sequence. -/
def startLanes (limits : MergeLimits) (index interfaces : ℕ) :
    List MergeSource → Except Error (List Lane × ℕ)
  | [] => .ok ([], interfaces)
  | source :: sources => do
    .rejectIf source.reader.declaresFcs (.mergeMetadata index declaredFcs)
    let interfaces ← .okOr (checkedAdd interfaces source.reader.interfaces.length)
      (.totalInterfaceLimit limits.maxInterfaces)
    let endianness := match source.reader.header with
      | .pcap header => header.endianness
      | .pcapNg section₀ => section₀.endianness
    let (lanes, total) ← startLanes limits (index + 1) interfaces sources
    pure (⟨source.name, source.reader, 0, none, [], false, source.reader.interfaces.length,
      endianness, none⟩ :: lanes, total)

def Writer.format (w : Writer) : Format :=
  match w.state with
  | .pcap .. => .pcap
  | .pcapNg .. => .pcapNg

def merge (sources : List MergeSource) (output : Writer) (limits : MergeLimits) :
    Except Error (MergeReport × Writer) := do
  limits.validate
  let budget ← Budget.new limits.streams
  .rejectIf (sources = [] ∨ sources.length > limits.maxSources ∨
      sources.any fun source => source.name.utf8ByteSize > maxSourceNameBytes)
    (.mergeSources limits.maxSources)
  .rejectIf (output.format ≠ .pcapNg) (.wrongWriterFormat .pcapNg output.format)
  let (lanes, interfaces) ← startLanes limits 0 0 sources
  .rejectIf (interfaces > limits.maxInterfaces) (.totalInterfaceLimit limits.maxInterfaces)
  let (lanes, counts) ← advanceAll limits 0 lanes ⟨interfaces, 0, budget⟩
  let bytes := (sources.map fun source => source.reader.rest.length).sum
  let state ← mergeLoop provenance limits bytes ⟨lanes, counts, [], [], output⟩
  pure (⟨state.counts.budget.frames, state.counts.budget.capturedBytes,
    state.lanes.map Lane.frames, state.interfaces, state.counts.metadataRecords⟩, state.output)

end Provenance

end PacketCraftr.Capture
