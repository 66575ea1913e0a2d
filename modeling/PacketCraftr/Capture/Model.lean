import PacketCraftr.Foundation.Endian
import PacketCraftr.Foundation.Word

/-!
# Capture files: frames, interfaces, records, errors and limits

The types of `frame.rs` and of `capture_file/{format,header,record,limits,error}.rs`. A system time
is a number of nanoseconds since the Unix epoch whose whole seconds are a signed 64-bit word. The
lengths of a frame are constrained as its constructor constrains them, so that a frame with
inconsistent lengths cannot be built.
-/

namespace PacketCraftr.Capture

abbrev Endianness := Endian.Order

inductive Format
  | pcap
  | pcapNg
  deriving DecidableEq, Repr

inductive TimestampResolution
  | decimal (exponent : UInt8)
  | binary (exponent : UInt8)
  deriving DecidableEq, Repr

inductive TimestampPrecision
  | microseconds
  | nanoseconds
  deriving DecidableEq, Repr

/-! ### Times -/

/-- A number of nanoseconds since the Unix epoch. -/
structure SystemTime where
  nanos : ℤ
  low : -(2 ^ 63 * 1000000000) ≤ nanos
  high : nanos < 2 ^ 63 * 1000000000
  deriving DecidableEq, Repr

/-- The time of a number of nanoseconds since the Unix epoch, if it can be represented. -/
def SystemTime.ofNanos? (nanos : ℤ) : Option SystemTime :=
  if h : -(2 ^ 63 * 1000000000) ≤ nanos ∧ nanos < 2 ^ 63 * 1000000000 then
    some ⟨nanos, h.1, h.2⟩
  else none

/-- Whole Unix seconds, floored, and the nanoseconds past that second. -/
def SystemTime.unixFloor (time : SystemTime) : ℤ × ℕ :=
  (time.nanos / 1000000000, (time.nanos % 1000000000).toNat)

/-! ### Frames -/

inductive Direction
  | inbound
  | outbound
  | unknown
  deriving DecidableEq, Repr

inductive FrameError
  | capturedLengthMismatch (declared actual : ℕ)
  | originalLengthTooSmall (captured original : ℕ)
  deriving DecidableEq, Repr

structure Frame where
  timestamp : Option SystemTime
  originalLength : ℕ
  linkType : UInt32
  interface : Option UInt32
  direction : Option Direction
  bytes : Bytes
  captured_le : bytes.length ≤ originalLength
  original_lt : originalLength < 2 ^ 32
  deriving DecidableEq

namespace Frame

def capturedLength (f : Frame) : ℕ := f.bytes.length

theorem captured_lt (f : Frame) : f.bytes.length < 2 ^ 32 := f.captured_le.trans_lt f.original_lt

/-- A frame of no interface and no direction, whose original length is a 32-bit word. -/
def tryNew (timestamp : Option SystemTime) (linkType : UInt32) (captured : ℕ) (original : UInt32)
    (bytes : Bytes) : Except FrameError Frame :=
  if h : captured ≠ bytes.length then .error (.capturedLengthMismatch captured bytes.length)
  else if h' : original.toNat < captured then
    .error (.originalLengthTooSmall captured original.toNat)
  else .ok
    { timestamp
      originalLength := original.toNat
      linkType
      interface := none
      direction := none
      bytes
      captured_le := by omega
      original_lt := original.toNat_lt }

end Frame

/-! ### Headers -/

structure Interface where
  linkType : UInt32
  snapLen : UInt32
  timestampResolution : TimestampResolution
  timestampOffset : Int64
  deriving DecidableEq

structure PcapNgOption where
  code : UInt16
  value : Bytes
  deriving DecidableEq, Repr

def optionEnd : UInt16 := 0

def optionComment : UInt16 := 1

def optionEpbFlags : UInt16 := 2

def optionIfTsresol : UInt16 := 9

def optionIfFcslen : UInt16 := 13

def optionIfTsoffset : UInt16 := 14

/-- A length of zero bits declares no frame check sequence, any other value declares one. -/
def PcapNgOption.declaresFcs (o : PcapNgOption) : Bool := o.code = optionIfFcslen ∧ o.value ≠ [0]

structure PcapHeader where
  endianness : Endianness
  timestampResolution : TimestampResolution
  snapLen : UInt32
  network : UInt32
  raw : Bytes
  deriving DecidableEq

/-- The flag for a frame check sequence and its length, above the link type. -/
def PcapHeader.declaresFcs (h : PcapHeader) : Bool :=
  h.network &&& 0x04000000 ≠ 0 ∧ h.network &&& 0xf0000000 ≠ 0

structure Section where
  index : ℕ
  endianness : Endianness
  major : UInt16
  minor : UInt16
  length : Option ℕ
  options : List PcapNgOption
  raw : Bytes
  deriving DecidableEq

inductive CaptureHeader
  | pcap (header : PcapHeader)
  | pcapNg (section₀ : Section)
  deriving DecidableEq

namespace CaptureHeader

def format : CaptureHeader → Format
  | pcap _ => .pcap
  | pcapNg _ => .pcapNg

def raw : CaptureHeader → Bytes
  | pcap header => header.raw
  | pcapNg section₀ => section₀.raw

end CaptureHeader

/-! ### Records -/

inductive PacketBlockKind
  | classic
  | enhanced
  | simple
  | obsolete
  deriving DecidableEq, Repr

inductive MetadataBlockKind
  | newSection (s : Section)
  | interfaceDescription (sectionIndex localId globalId : ℕ) (interface : Interface)
      (options : List PcapNgOption)
  | nameResolution (sectionIndex : ℕ)
  | interfaceStatistics (sectionIndex interfaceId : ℕ)
  | custom (sectionIndex blockType : ℕ)
  | unknown (sectionIndex blockType : ℕ)
  deriving DecidableEq

inductive RecordKind
  | packet (block : PacketBlockKind) (sectionIndex : Option ℕ) (interfaceId : Option ℕ)
      (options : List PcapNgOption)
  | metadata (kind : MetadataBlockKind)
  deriving DecidableEq

structure CaptureRecord where
  kind : RecordKind
  frame : Option Frame
  format : Format
  raw : Bytes
  deriving DecidableEq

/-! ### Errors -/

inductive Error
  | frame (e : FrameError)
  | emptyInput
  | unrecognizedFormat (magic : Bytes)
  | truncated (context : String) (expected actual : ℕ)
  | unsupportedVersion (format : Format) (major minor : UInt16)
  | invalidData (format : Format) (reason : String)
  | sizeLimitExceeded (kind : String) (declared limit : ℕ)
  | invalidBlockLength (length : ℕ)
  | blockLengthMismatch (leading trailing : ℕ)
  | blockCrossesSectionBoundary (blockLength remaining : ℕ)
  | sectionEndedEarly (remaining : ℕ)
  | sectionHeaderBeforeBoundary (remaining : ℕ)
  | sectionRemainderTooSmall (remaining : ℕ)
  | timestampOutOfRange (format : Format)
  | timestampUnavailable (format : Format)
  | invalidTimestampFraction (fraction denominator : ℕ)
  | linkTypeOutOfRange (linkType : UInt32)
  | undefinedInterface (interface available : ℕ)
  | interfaceLimit (limit : ℕ)
  | totalInterfaceLimit (limit : ℕ)
  | metadataBlockLimit (limit : ℕ)
  | metadataByteLimit (limit : ℕ)
  | optionLimit (limit : ℕ)
  | interfaceLinkTypeMismatch (interface : ℕ) (expected actual : UInt32)
  | ambiguousInterface (linkType : UInt32)
  | metadataNotRepresentable (format : Format) (field : String)
  | wrongWriterFormat (expected actual : Format)
  | frameLimitExceeded (actual limit : ℕ)
  | streamByteLimitExceeded (actual limit : ℕ)
  | invalidLimit (field : String) (value : ℕ)
  | invalidTimestampResolution (base : ℕ) (exponent : UInt8)
  | mergeSources (maximum : ℕ)
  | mergeOption (reason : String)
  | mergeSource (input frame : ℕ) (source : Error)
  | mergeMetadata (input : ℕ) (field : String)
  | mergeClockRegression (input frame : ℕ)
  deriving DecidableEq

/-! ### Limits -/

structure Limits where
  maxFrames : ℕ
  maxBytes : ℕ
  deriving DecidableEq, Repr

def Limits.validate (l : Limits) : Except Error Unit :=
  if l.maxFrames = 0 then .error (.invalidLimit "max_frames" l.maxFrames)
  else if l.maxBytes = 0 then .error (.invalidLimit "max_bytes" l.maxBytes)
  else .ok ()

structure Budget where
  limits : Limits
  frames : ℕ
  capturedBytes : ℕ
  deriving DecidableEq, Repr

namespace Budget

def new (limits : Limits) : Except Error Budget := do
  limits.validate
  pure ⟨limits, 0, 0⟩

/-- The budget after one more frame. -/
def after (b : Budget) (frameBytes : ℕ) : Except Error Budget :=
  match checkedAdd b.frames 1 with
  | none => .error (.frameLimitExceeded (wordLimit - 1) b.limits.maxFrames)
  | some frames =>
    if frames > b.limits.maxFrames then .error (.frameLimitExceeded frames b.limits.maxFrames)
    else
      match checkedAdd b.capturedBytes frameBytes with
      | none => .error (.streamByteLimitExceeded (wordLimit - 1) b.limits.maxBytes)
      | some capturedBytes =>
        if capturedBytes > b.limits.maxBytes then
          .error (.streamByteLimitExceeded capturedBytes b.limits.maxBytes)
        else .ok { b with frames, capturedBytes }

end Budget

structure ReaderLimits where
  maxSize : ℕ
  maxInterfacesPerSection : ℕ
  maxTotalInterfaces : ℕ
  maxMetadataBlocksPerFrame : ℕ
  maxMetadataBytesPerFrame : ℕ
  maxOptionsPerBlock : ℕ
  deriving DecidableEq, Repr

end PacketCraftr.Capture
