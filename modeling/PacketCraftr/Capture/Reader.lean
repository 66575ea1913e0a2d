import PacketCraftr.Capture.Wire

/-!
# The capture reader

The reader of `capture_file/reader.rs`, with the decoders of `classic/decode.rs` and of
`pcapng/{section,options,interface,packet,decode}.rs`. Each reading function takes the bytes that
are left of the input and returns those that are left after it. Allocation and the caller's
interruption are not modelled.
-/

open UInt32

namespace PacketCraftr.Capture

/-! ### Classic files -/

structure PcapState where
  endianness : Endianness
  precision : TimestampPrecision
  snapLen : UInt32
  linkType : UInt32
  deriving DecidableEq

namespace TimestampPrecision

def resolution : TimestampPrecision → TimestampResolution
  | microseconds => .decimal 6
  | nanoseconds => .decimal 9

def denominator : TimestampPrecision → ℕ
  | microseconds => 1000000
  | nanoseconds => 1000000000

/-- The nanoseconds of one tick. -/
def scale : TimestampPrecision → ℕ
  | microseconds => 1000
  | nanoseconds => 1

end TimestampPrecision

def PcapState.interface (s : PcapState) : Interface :=
  ⟨s.linkType, s.snapLen, s.precision.resolution, 0⟩

def magic : Endianness → TimestampPrecision → Bytes
  | .little, .microseconds => [0xd4, 0xc3, 0xb2, 0xa1]
  | .big, .microseconds => [0xa1, 0xb2, 0xc3, 0xd4]
  | .little, .nanoseconds => [0x4d, 0x3c, 0xb2, 0xa1]
  | .big, .nanoseconds => [0xa1, 0xb2, 0x3c, 0x4d]

def pcapLayout (bytes : Bytes) : Option (Endianness × TimestampPrecision) :=
  [(.little, .microseconds), (.little, .nanoseconds), (.big, .microseconds), (.big, .nanoseconds)].find?
    fun (endianness, precision) => magic endianness precision = bytes

def readPcapHeader (input magicBytes : Bytes) (e : Endianness) (precision : TimestampPrecision) :
    Except Error (PcapState × PcapHeader × Bytes) := do
  let (remaining, rest) ← readExactCounted input 20 "pcap global header"
  let major := UInt16.ofNat (field e remaining 0 2)
  let minor := UInt16.ofNat (field e remaining 2 2)
  .rejectIf ((major, minor) ≠ (2, 4)) (.unsupportedVersion .pcap major minor)
  let snapLen := ofNat (field e remaining 12 4)
  .rejectIf (snapLen = 0) (.invalidData .pcap "snapshot length must be non-zero")
  let network := ofNat (field e remaining 16 4)
  pure (⟨e, precision, snapLen, network &&& 0xffff⟩,
    ⟨e, precision.resolution, snapLen, network, magicBytes ++ remaining⟩, rest)

def readNextPcapRecord (input : Bytes) (state : PcapState) (maxSize : ℕ) :
    Except Error (Option (CaptureRecord × Bytes)) := do
  match ← readExactOrEof input 16 "pcap packet header" with
  | none => pure none
  | some (header, rest) =>
    let e := state.endianness
    let seconds := field e header 0 4
    let fraction := field e header 4 4
    let captured := field e header 8 4
    let original := field e header 12 4
    .rejectIf (fraction ≥ state.precision.denominator)
      (.invalidTimestampFraction fraction state.precision.denominator)
    validateDeclaredLengths captured original maxSize "pcap packet"
    .rejectIf (captured > state.snapLen.toNat)
      (.invalidData .pcap "captured packet exceeds the file snap length")
    let (data, rest) ← readExactAppend rest captured "pcap packet data"
    let timestamp ← .okOr
      (SystemTime.ofNanos? (seconds * 1000000000 + fraction * state.precision.scale))
      (.timestampOutOfRange .pcap)
    let frame ← (Frame.tryNew (some timestamp) state.linkType captured (ofNat original)
      data).mapError .frame
    pure (some (⟨.packet .classic none none [], some frame, .pcap, header ++ data⟩, rest))

/-! ### Options -/

def optionsLoop (e : Endianness) (context : String) (maxOptions : ℕ) (options : Bytes) :
    ℕ → ℕ → List PcapNgOption → Except Error (List PcapNgOption)
  | 0, _, parsed => .ok parsed
  | fuel + 1, offset, parsed =>
    if offset < options.length then
      let start := offset + 4
      if start > options.length then .error (.truncated context start options.length)
      else
        let code := UInt16.ofNat (field e options offset 2)
        let length := field e options (offset + 2) 2
        if code = optionEnd then
          if length ≠ 0 then
            .error (.invalidData .pcapNg "end-of-options marker has a non-zero length")
          else if (options.drop start).any (· ≠ 0) then
            .error (.invalidData .pcapNg "non-zero bytes follow the end-of-options marker")
          else .ok parsed
        else
          let stop := start + align4 length
          if stop > options.length then .error (.truncated context stop options.length)
          else if parsed.length ≥ maxOptions then .error (.optionLimit maxOptions)
          else
            optionsLoop e context maxOptions options fuel stop
              (parsed ++ [⟨code, (options.drop start).take length⟩])
    else .ok parsed

/-- The options of a block. Each of them takes up at least four bytes. -/
def parseOptions (options : Bytes) (e : Endianness) (context : String) (maxOptions : ℕ) :
    Except Error (List PcapNgOption) :=
  optionsLoop e context maxOptions options options.length 0 []

def uniqueOption (options : List PcapNgOption) (code : UInt16) (duplicate : String) :
    Except Error (Option Bytes) :=
  match options.filter (·.code = code) with
  | [] => .ok none
  | [o] => .ok (some o.value)
  | _ => .error (.invalidData .pcapNg duplicate)

/-! ### Sections -/

def sectionHeaderMagic : Bytes := [0x0a, 0x0d, 0x0d, 0x0a]

structure SectionHeader where
  endianness : Endianness
  major : UInt16
  minor : UInt16
  length : Option ℕ
  options : List PcapNgOption
  blockLength : ℕ
  raw : Bytes

def validatePcapngBlockLength (length maxSize : ℕ) : Except Error Unit := do
  .rejectIf (length < 12 ∨ length % 4 ≠ 0) (.invalidBlockLength length)
  .rejectIf (length > maxSize) (.sizeLimitExceeded "pcapng block" length maxSize)

def sectionEndianness (bom : Bytes) : Except Error Endianness :=
  if bom = [0x4d, 0x3c, 0x2b, 0x1a] then .ok .little
  else if bom = [0x1a, 0x2b, 0x3c, 0x4d] then .ok .big
  else .error (.invalidData .pcapNg "invalid section byte-order magic")

/-- The metadata bytes that a section header would take, against their limit. -/
def checkMetadataBudget (budget : Option (ℕ × ℕ)) (blockLength : ℕ) : Except Error Unit :=
  match budget with
  | none => .ok ()
  | some (consumed, limit) =>
    .rejectIf ((checkedAdd consumed blockLength).all (· > limit)) (.metadataByteLimit limit)

/-- The fields of a section header after its byte-order magic. -/
def sectionFields (e : Endianness) (fields : Bytes) (maxOptions : ℕ) :
    Except Error (UInt16 × UInt16 × Option ℕ × List PcapNgOption) := do
  let major := UInt16.ofNat (field e fields 0 2)
  let minor := UInt16.ofNat (field e fields 2 2)
  .rejectIf (major ≠ 1 ∨ (minor ≠ 0 ∧ minor ≠ 2)) (.unsupportedVersion .pcapNg major minor)
  let length := (decodeI64 e fields 4).toInt
  .rejectIf (length < -1)
    (.invalidData .pcapNg "section length is negative but is not the unknown-length sentinel")
  .rejectIf (length ≥ 0 ∧ length % 4 ≠ 0)
    (.invalidData .pcapNg "section length is not a multiple of four")
  let options ← parseOptions (fields.drop 12) e "pcapng section options" maxOptions
  pure (major, minor, if length ≥ 0 then some length.toNat else none, options)

def readSectionHeaderWithLength (input rawLength : Bytes) (maxSize maxOptions : ℕ)
    (budget : Option (ℕ × ℕ)) : Except Error (SectionHeader × Bytes) := do
  let (bom, rest) ← readExactCounted input 4 "pcapng byte-order magic"
  let e ← sectionEndianness bom
  let blockLength := field e rawLength 0 4
  validatePcapngBlockLength blockLength maxSize
  checkMetadataBudget budget blockLength
  .rejectIf (blockLength < 28) (.invalidBlockLength blockLength)
  let (scratch, rest) ← readExactAppend rest (blockLength - 12) "pcapng section header"
  let trailing := field e scratch (scratch.length - 4) 4
  .rejectIf (trailing ≠ blockLength) (.blockLengthMismatch blockLength trailing)
  let (major, minor, length, options) ←
    sectionFields e (scratch.take (scratch.length - 4)) maxOptions
  pure (⟨e, major, minor, length, options, blockLength,
    sectionHeaderMagic ++ (rawLength ++ (bom ++ scratch))⟩, rest)

def readSectionHeaderAfterType (input : Bytes) (maxSize maxOptions : ℕ) :
    Except Error (SectionHeader × Bytes) := do
  let (length, rest) ← readExactCounted input 4 "pcapng section header length"
  readSectionHeaderWithLength rest length maxSize maxOptions none

/-! ### Interfaces -/

def defaultTimestampResolution : TimestampResolution := .decimal 6

def interfaceResolution (options : List PcapNgOption) : Except Error TimestampResolution := do
  match ← uniqueOption options optionIfTsresol "if_tsresol option appears more than once" with
  | none => pure defaultTimestampResolution
  | some [tsresol] => pure (.fromTsresol tsresol)
  | some _ => .error (.invalidData .pcapNg "if_tsresol option must contain one byte")

def interfaceOffset (e : Endianness) (options : List PcapNgOption) : Except Error Int64 := do
  match ← uniqueOption options optionIfTsoffset "if_tsoffset option appears more than once" with
  | none => pure 0
  | some value =>
    if value.length = 8 then pure (decodeI64 e value 0)
    else .error (.invalidData .pcapNg "if_tsoffset option must contain eight bytes")

def parseInterfaceDescription (body : Bytes) (e : Endianness) (maxOptions : ℕ) :
    Except Error (Interface × List PcapNgOption) := do
  .rejectIf (body.length < 8)
    (.invalidData .pcapNg "interface description block is shorter than 8 bytes")
  let options ← parseOptions (body.drop 8) e "pcapng interface options" maxOptions
  let resolution ← interfaceResolution options
  let offset ← interfaceOffset e options
  pure (⟨ofNat (field e body 0 2), ofNat (field e body 4 4), resolution, offset⟩,
    options)

/-! ### Packets -/

structure ParsedPacket where
  frame : Frame
  interfaceId : ℕ
  options : List PcapNgOption

def packetDirection (options : List PcapNgOption) (e : Endianness) :
    Except Error (Option Direction) := do
  match ← uniqueOption options optionEpbFlags "packet flags option appears more than once" with
  | none => pure none
  | some flags =>
    if flags.length ≠ 4 then
      .error (.invalidData .pcapNg "epb_flags option must contain four bytes")
    else
      match field e flags 0 4 % 4 with
      | 1 => pure (some .inbound)
      | 2 => pure (some .outbound)
      | _ => pure (some .unknown)

/-- An enhanced packet block, or a packet block of the obsolete layout. -/
def parsePacket (body : Bytes) (e : Endianness) (interfaces : List Interface)
    (interfaceBase maxSize maxOptions : ℕ) (obsoleteLayout : Bool) : Except Error ParsedPacket := do
  .rejectIf (body.length < 20) (.invalidData .pcapNg (if obsoleteLayout then
    "packet block is shorter than 20 bytes" else "enhanced packet block is shorter than 20 bytes"))
  let interfaceId := field e body 0 (if obsoleteLayout then 2 else 4)
  let ticks := field e body 4 4 * 2 ^ 32 + field e body 8 4
  let captured := field e body 12 4
  let original := field e body 16 4
  validateDeclaredLengths captured original maxSize "pcapng packet"
  let interface ← .okOr interfaces[interfaceId]?
    (.undefinedInterface interfaceId interfaces.length)
  .rejectIf (interface.snapLen ≠ 0 ∧ captured > interface.snapLen.toNat)
    (.invalidData .pcapNg "captured packet exceeds its interface snap length")
  let dataEnd := 20 + align4 captured
  .rejectIf (dataEnd > body.length) (.truncated "pcapng packet data" dataEnd body.length)
  let options ← parseOptions (body.drop dataEnd) e "pcapng packet options" maxOptions
  let direction ← packetDirection options e
  let timestamp ←
    timestampFromTicks ticks interface.timestampResolution interface.timestampOffset
  .rejectIf (interfaceBase + interfaceId ≥ 2 ^ 32) (.interfaceLimit (wordLimit - 1))
  let frame ← (Frame.tryNew (some timestamp) interface.linkType captured (ofNat original)
    ((body.drop 20).take captured)).mapError .frame
  pure ⟨{ frame with
    interface := some (ofNat (interfaceBase + interfaceId))
    direction }, interfaceId, options⟩

def parseSimplePacket (body : Bytes) (e : Endianness) (interfaces : List Interface)
    (interfaceBase maxSize : ℕ) : Except Error ParsedPacket := do
  .rejectIf (body.length < 4)
    (.invalidData .pcapNg "simple packet block is shorter than four bytes")
  let interface ← .okOr interfaces.head? (.undefinedInterface 0 0)
  let original := field e body 0 4
  let captured :=
    if interface.snapLen = 0 then original else min original interface.snapLen.toNat
  validateDeclaredLengths captured original maxSize "pcapng simple packet"
  .rejectIf (body.length ≠ 4 + align4 captured)
    (.invalidData .pcapNg "simple packet block length does not match its packet length")
  let frame ← (Frame.tryNew none interface.linkType captured (ofNat original)
    ((body.drop 4).take captured)).mapError .frame
  pure ⟨{ frame with interface := some (ofNat interfaceBase) }, 0, []⟩

/-! ### Blocks -/

structure PcapNgState where
  endianness : Endianness
  interfaceBase : ℕ
  sectionIndex : ℕ
  remainingInSection : Option ℕ
  metadataBlocks : ℕ
  metadataBytes : ℕ
  deriving DecidableEq

def blockTypeInterface : ℕ := 1

def blockTypePacket : ℕ := 2

def blockTypeSimplePacket : ℕ := 3

def blockTypeNameResolution : ℕ := 4

def blockTypeInterfaceStatistics : ℕ := 5

def blockTypeEnhancedPacket : ℕ := 6

def blockTypeCustom : ℕ := 0xbad

def blockTypeCustomNoCopy : ℕ := 0x40000bad

def packetBlockKind (blockType : ℕ) : Option PacketBlockKind :=
  if blockType = blockTypeEnhancedPacket then some .enhanced
  else if blockType = blockTypePacket then some .obsolete
  else if blockType = blockTypeSimplePacket then some .simple
  else none

namespace PcapNgState

def new (header : SectionHeader) : PcapNgState := ⟨header.endianness, 0, 0, header.length, 0, 0⟩

variable (s : PcapNgState)

def sectionInterfaces (all : List Interface) : List Interface :=
  all.drop s.interfaceBase

def startSection (header : SectionHeader) (all : List Interface)
    (maxInterfaces : ℕ) : Except Error PcapNgState := do
  .rejectIf (all.length ≥ 2 ^ 32) (.interfaceLimit maxInterfaces)
  let sectionIndex ← .okOr (checkedAdd s.sectionIndex 1) (.interfaceLimit maxInterfaces)
  pure { s with
    interfaceBase := all.length
    sectionIndex
    endianness := header.endianness
    remainingInSection := header.length }

def commitBlock (blockLength : ℕ) : PcapNgState :=
  { s with remainingInSection := s.remainingInSection.map (· - blockLength) }

def accountMetadata (length : ℕ) (limits : ReaderLimits) :
    Except Error PcapNgState := do
  let metadataBlocks := saturatingAdd s.metadataBlocks 1
  .rejectIf (metadataBlocks > limits.maxMetadataBlocksPerFrame)
    (.metadataBlockLimit limits.maxMetadataBlocksPerFrame)
  let metadataBytes ← .okOr ((checkedAdd s.metadataBytes length).filter
    (· ≤ limits.maxMetadataBytesPerFrame)) (.metadataByteLimit limits.maxMetadataBytesPerFrame)
  pure { s with metadataBlocks, metadataBytes }

/-- Blocks that carry no packet are metadata. -/
def accountBlock (blockType blockLength : ℕ) (limits : ReaderLimits) :
    Except Error PcapNgState :=
  if (packetBlockKind blockType).isNone then s.accountMetadata blockLength limits else .ok s

def resetMetadata : PcapNgState :=
  { s with metadataBlocks := 0, metadataBytes := 0 }

/-- The identifier of a new interface. -/
def addInterface (all : List Interface) (limits : ReaderLimits) :
    Except Error ℕ := do
  .rejectIf ((s.sectionInterfaces all).length ≥ limits.maxInterfacesPerSection)
    (.interfaceLimit limits.maxInterfacesPerSection)
  .rejectIf (all.length ≥ limits.maxTotalInterfaces)
    (.totalInterfaceLimit limits.maxTotalInterfaces)
  .rejectIf (all.length ≥ 2 ^ 32) (.totalInterfaceLimit limits.maxTotalInterfaces)
  pure all.length

end PcapNgState

structure FramedBlock where
  blockType : ℕ
  body : Bytes
  raw : Bytes

/-- A block that is not a section header, after the eight bytes of its header. -/
def readBlock (input rawHeader : Bytes) (s : PcapNgState) (limits : ReaderLimits) :
    Except Error (FramedBlock × PcapNgState × Bytes) := do
  let blockType := field s.endianness rawHeader 0 4
  let blockLength := field s.endianness rawHeader 4 4
  validatePcapngBlockLength blockLength limits.maxSize
  .rejectIf (s.remainingInSection.any (blockLength > ·))
    (.blockCrossesSectionBoundary blockLength (s.remainingInSection.getD 0))
  let s ← s.accountBlock blockType blockLength limits
  let (data, rest) ← readExactAppend input (blockLength - 8) "pcapng block"
  let trailing := field s.endianness data (data.length - 4) 4
  .rejectIf (trailing ≠ blockLength) (.blockLengthMismatch blockLength trailing)
  pure (⟨blockType, data.take (data.length - 4), rawHeader ++ data⟩, s.commitBlock blockLength, rest)

def decodeInterface (block : FramedBlock) (s : PcapNgState) (all : List Interface)
    (limits : ReaderLimits) : Except Error (CaptureRecord × PcapNgState × List Interface) := do
  let (description, options) ←
    parseInterfaceDescription block.body s.endianness limits.maxOptionsPerBlock
  let localId := (s.sectionInterfaces all).length
  .rejectIf (localId ≥ 2 ^ 32) (.interfaceLimit limits.maxInterfacesPerSection)
  let globalId ← s.addInterface all limits
  pure (⟨.metadata (.interfaceDescription s.sectionIndex localId globalId description options), none,
    .pcapNg, block.raw⟩, s, all ++ [description])

/-- The packet of a block. A record of a classic file never reaches this decoder. -/
def parseKind (kind : PacketBlockKind) (body : Bytes) (s : PcapNgState) (all : List Interface)
    (limits : ReaderLimits) : Except Error ParsedPacket :=
  let interfaces := s.sectionInterfaces all
  match kind with
  | .enhanced =>
    parsePacket body s.endianness interfaces s.interfaceBase limits.maxSize
      limits.maxOptionsPerBlock false
  | .obsolete =>
    parsePacket body s.endianness interfaces s.interfaceBase limits.maxSize
      limits.maxOptionsPerBlock true
  | .simple | .classic =>
    parseSimplePacket body s.endianness interfaces s.interfaceBase limits.maxSize

def decodePacket (kind : PacketBlockKind) (block : FramedBlock) (s : PcapNgState)
    (all : List Interface) (limits : ReaderLimits) :
    Except Error (CaptureRecord × PcapNgState × List Interface) := do
  let parsed ← parseKind kind block.body s all limits
  pure (⟨.packet kind (some s.sectionIndex) (some parsed.interfaceId) parsed.options,
    some parsed.frame, .pcapNg, block.raw⟩, s.resetMetadata, all)

def metadataKind (block : FramedBlock) (s : PcapNgState) (all : List Interface) :
    Except Error MetadataBlockKind :=
  if block.blockType = blockTypeNameResolution then .ok (.nameResolution s.sectionIndex)
  else if block.blockType = blockTypeInterfaceStatistics then do
    .rejectIf (block.body.length < 4)
      (.invalidData .pcapNg "interface statistics block is shorter than four bytes")
    let interfaceId := field s.endianness block.body 0 4
    let available := (s.sectionInterfaces all).length
    .rejectIf (interfaceId ≥ available) (.undefinedInterface interfaceId available)
    pure (.interfaceStatistics s.sectionIndex interfaceId)
  else if block.blockType = blockTypeCustom ∨ block.blockType = blockTypeCustomNoCopy then
    .ok (.custom s.sectionIndex block.blockType)
  else .ok (.unknown s.sectionIndex block.blockType)

def decodeBlock (block : FramedBlock) (s : PcapNgState) (all : List Interface)
    (limits : ReaderLimits) : Except Error (CaptureRecord × PcapNgState × List Interface) :=
  if block.blockType = blockTypeInterface then decodeInterface block s all limits
  else
    match packetBlockKind block.blockType with
    | some kind => decodePacket kind block s all limits
    | none => do
      let kind ← metadataKind block s all
      pure (⟨.metadata kind, none, .pcapNg, block.raw⟩, s, all)

def readSectionRecord (input rawHeader : Bytes) (s : PcapNgState) (all : List Interface)
    (limits : ReaderLimits) : Except Error (CaptureRecord × PcapNgState × Bytes) := do
  .rejectIf (s.remainingInSection.any (· ≠ 0))
    (.sectionHeaderBeforeBoundary (s.remainingInSection.getD 0))
  let (header, rest) ← readSectionHeaderWithLength input (rawHeader.drop 4) limits.maxSize
    limits.maxOptionsPerBlock (some (s.metadataBytes, limits.maxMetadataBytesPerFrame))
  let s ← s.accountMetadata header.blockLength limits
  let s ← s.startSection header all limits.maxInterfacesPerSection
  pure (⟨.metadata (.newSection ⟨s.sectionIndex, header.endianness, header.major, header.minor,
    header.length, header.options, header.raw⟩), none, .pcapNg, header.raw⟩, s, rest)

def readNextPcapngRecord (input : Bytes) (s : PcapNgState) (all : List Interface)
    (limits : ReaderLimits) :
    Except Error (Option (CaptureRecord × PcapNgState × List Interface × Bytes)) := do
  .rejectIf (s.remainingInSection.any fun remaining => remaining ≠ 0 ∧ remaining < 12)
    (.sectionRemainderTooSmall (s.remainingInSection.getD 0))
  match ← readExactOrEof input 8 "pcapng block header" with
  | none =>
    .rejectIf (s.remainingInSection.any (· ≠ 0))
      (.sectionEndedEarly (s.remainingInSection.getD 0))
    pure none
  | some (rawHeader, rest) =>
    if rawHeader.take 4 = sectionHeaderMagic then do
      let (record, s, rest) ← readSectionRecord rest rawHeader s all limits
      pure (some (record, s, all, rest))
    else do
      let (block, s, rest) ← readBlock rest rawHeader s limits
      let (record, s, all) ← decodeBlock block s all limits
      pure (some (record, s, all, rest))

/-! ### The reader -/

inductive ReaderState
  | pcap (state : PcapState)
  | pcapNg (state : PcapNgState)

/-- A reader, with the bytes of its input that it has not read. -/
structure Reader where
  rest : Bytes
  state : ReaderState
  header : CaptureHeader
  interfaces : List Interface
  declaresFcs : Bool
  limits : ReaderLimits
  finished : Bool

/-- Whether a record declares a frame check sequence. -/
def CaptureRecord.declaresFcs (record : CaptureRecord) : Bool :=
  match record.kind with
  | .metadata (.interfaceDescription _ _ _ _ options) => options.any PcapNgOption.declaresFcs
  | _ => false

namespace Reader

/-- Open a reader on an input: only the header of the file is read. -/
def withLimits (input : Bytes) (limits : ReaderLimits) : Except Error Reader := do
  match ← readExactOrEof input 4 "capture magic" with
  | none => .error .emptyInput
  | some (magicBytes, rest) =>
    if magicBytes = sectionHeaderMagic then do
      let (header, rest) ←
        readSectionHeaderAfterType rest limits.maxSize limits.maxOptionsPerBlock
      pure
        { rest
          state := .pcapNg (.new header)
          header := .pcapNg ⟨0, header.endianness, header.major, header.minor, header.length,
            header.options, header.raw⟩
          interfaces := []
          declaresFcs := false
          limits
          finished := false }
    else
      match pcapLayout magicBytes with
      | none => .error (.unrecognizedFormat magicBytes)
      | some (endianness, precision) => do
        let (state, header, rest) ← readPcapHeader rest magicBytes endianness precision
        .rejectIf (1 > limits.maxTotalInterfaces) (.totalInterfaceLimit limits.maxTotalInterfaces)
        pure
          { rest
            state := .pcap state
            header := .pcap header
            interfaces := [state.interface]
            declaresFcs := header.declaresFcs
            limits
            finished := false }

def readRecord (r : Reader) : Except Error (Option (CaptureRecord × Reader)) :=
  match r.state with
  | .pcap state => do
    match ← readNextPcapRecord r.rest state r.limits.maxSize with
    | none => pure none
    | some (record, rest) => pure (some (record, { r with rest }))
  | .pcapNg state => do
    match ← readNextPcapngRecord r.rest state r.interfaces r.limits with
    | none => pure none
    | some (record, state, interfaces, rest) =>
      pure (some (record, { r with
        rest
        state := .pcapNg state
        interfaces
        declaresFcs := r.declaresFcs || record.declaresFcs }))

def nextRecord (r : Reader) : Except Error (Option CaptureRecord) × Reader :=
  if r.finished then (.ok none, r)
  else
    match r.readRecord with
    | .ok (some (record, r)) => (.ok (some record), r)
    | .ok none => (.ok none, { r with finished := true })
    | .error e => (.error e, { r with finished := true })

/-- What a number of calls return, and the reader after them. -/
def calls : ℕ → Reader → List (Except Error (Option CaptureRecord)) × Reader
  | 0, r => ([], r)
  | n + 1, r =>
    let (result, r) := r.nextRecord
    let (results, r) := calls n r
    (result :: results, r)

end Reader

end PacketCraftr.Capture
