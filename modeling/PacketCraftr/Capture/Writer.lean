import PacketCraftr.Capture.Reader

/-!
# The capture writer

The writer of `capture_file/writer.rs`, with the encoders of `classic/encode.rs` and
`pcapng/encode.rs`. The output is a byte string, to which writing never fails.
-/

namespace PacketCraftr.Capture

def usizeToU32Limit (value : ℕ) : Except Error UInt32 :=
  if value < 2 ^ 32 then .ok (UInt32.ofNat value)
  else .error (.sizeLimitExceeded "capture size" value (2 ^ 32 - 1))

/-! ### Encoders -/

section Encode

variable (e : Endianness)

def u16 (n : ℕ) : Bytes := Endian.encode e 2 n

def u32 (n : ℕ) : Bytes := Endian.encode e 4 n

def writePcapHeader (precision : TimestampPrecision) (snapLen linkType : UInt32) : Bytes :=
  magic e precision ++ (u16 e 2 ++ (u16 e 4 ++ (u32 e 0 ++ (u32 e 0 ++
    (u32 e snapLen.toNat ++ u32 e linkType.toNat)))))

def writePcapFrame (seconds fraction : ℕ) (frame : Frame) : Bytes :=
  u32 e seconds ++ (u32 e fraction ++ (u32 e frame.capturedLength ++
    (u32 e frame.originalLength ++ frame.bytes)))

def writeSectionHeader : Bytes :=
  u32 e 0x0a0d0d0a ++ (u32 e 28 ++ (u32 e 0x1a2b3c4d ++ (u16 e 1 ++ (u16 e 0 ++
    (encodeI64 e (-1) ++ u32 e 28)))))

/-- The zeros that fill up a length to a multiple of four. -/
def padding (length : ℕ) : Bytes := List.replicate (align4 length - length) 0

def writeOption (o : PcapNgOption) : Bytes :=
  u16 e o.code.toNat ++ (u16 e o.value.length ++ (o.value ++ padding o.value.length))

def endOfOptions : Bytes := u16 e optionEnd.toNat ++ u16 e 0

end Encode

def interfaceDescriptionBaseLength (timestampOffset : Int64) : ℕ :=
  if timestampOffset = 0 then 32 else 44

/-- The length of an interface description with custom options. -/
def interfaceDescriptionLength (timestampOffset : Int64) (options : List PcapNgOption) : ℕ :=
  interfaceDescriptionBaseLength timestampOffset +
    (options.map fun o => 4 + (o.value.length + 3) / 4 * 4).sum

/-- The options that describe the timestamps of an interface. -/
def timestampOptions (e : Endianness) (tsresol : UInt8) (timestampOffset : Int64) :
    List PcapNgOption :=
  ⟨optionIfTsresol, [tsresol]⟩ ::
    if timestampOffset ≠ 0 then [⟨optionIfTsoffset, encodeI64 e timestampOffset⟩] else []

def writeInterfaceDescription (e : Endianness) (description : Interface)
    (options : List PcapNgOption) : Except Error Bytes := do
  let length := interfaceDescriptionLength description.timestampOffset options
  .rejectIf (length ≥ wordLimit) (.invalidData .pcapNg "interface option length overflow")
  let blockLength ← usizeToU32Limit length
  let tsresol ← description.timestampResolution.toTsresol
  pure (u32 e blockTypeInterface ++ (u32 e blockLength.toNat ++
    (u16 e description.linkType.toNat ++ (u16 e 0 ++ (u32 e description.snapLen.toNat ++
      ((timestampOptions e tsresol description.timestampOffset ++ options).flatMap (writeOption e) ++
        (endOfOptions e ++ u32 e blockLength.toNat)))))))

def directionFlags : Direction → ℕ
  | .unknown => 0
  | .inbound => 1
  | .outbound => 2

/-- The options of a packet: its direction. -/
def directionOptions (e : Endianness) (direction : Option Direction) : Bytes :=
  match direction with
  | none => []
  | some direction =>
    writeOption e ⟨optionEpbFlags, u32 e (directionFlags direction)⟩ ++ endOfOptions e

def writeEnhancedPacket (e : Endianness) (interfaceId timestamp blockLength : ℕ) (frame : Frame) :
    Bytes :=
  u32 e blockTypeEnhancedPacket ++ (u32 e blockLength ++ (u32 e interfaceId ++
    (u32 e (timestamp / 2 ^ 32) ++ (u32 e (timestamp % 2 ^ 32) ++ (u32 e frame.capturedLength ++
      (u32 e frame.originalLength ++ (frame.bytes ++ (padding frame.capturedLength ++
        (directionOptions e frame.direction ++ u32 e blockLength)))))))))

/-! ### Interfaces -/

structure InterfacePlan where
  id : ℕ
  description : Interface
  requiresDescriptionBlock : Bool

def InterfacePlan.descriptionBlockLength (p : InterfacePlan) : ℕ :=
  if p.requiresDescriptionBlock then
    interfaceDescriptionBaseLength p.description.timestampOffset
  else 0

def validateNewInterface (description : Interface) (existing : List Interface)
    (maxSize maxInterfaces : ℕ) : Except Error ℕ := do
  let _ ← description.timestampResolution.toTsresol
  let blockLength := interfaceDescriptionBaseLength description.timestampOffset
  .rejectIf (maxSize < blockLength)
    (.sizeLimitExceeded "pcapng interface description" blockLength maxSize)
  .rejectIf (existing.length + 1 > maxInterfaces) (.interfaceLimit maxInterfaces)
  .rejectIf (existing.length ≥ 2 ^ 32) (.interfaceLimit (min maxInterfaces (2 ^ 32 - 1)))
  .rejectIf (description.linkType.toNat > 0xffff) (.linkTypeOutOfRange description.linkType)
  pure existing.length

def writerTimestampResolution : TimestampResolution := .decimal 9

def selectInterface (frame : Frame) (interfaces : List Interface) (maxSize maxInterfaces : ℕ) :
    Except Error InterfacePlan :=
  match frame.interface with
  | some id => do
    let interface ← .okOr interfaces[id.toNat]? (.undefinedInterface id.toNat interfaces.length)
    .rejectIf (interface.linkType ≠ frame.linkType)
      (.interfaceLinkTypeMismatch id.toNat interface.linkType frame.linkType)
    pure ⟨id.toNat, interface, false⟩
  | none =>
    match interfaces.zipIdx.filter (·.1.linkType = frame.linkType) with
    | [] => do
      let snapLen ← usizeToU32Limit maxSize
      let description : Interface := ⟨frame.linkType, snapLen, writerTimestampResolution, 0⟩
      let id ← validateNewInterface description interfaces maxSize maxInterfaces
      pure ⟨id, description, true⟩
    | [(description, index)] => .ok ⟨index % 2 ^ 32, description, false⟩
    | _ => .error (.ambiguousInterface frame.linkType)

/-! ### The writer -/

inductive WriterState
  | pcap (endianness : Endianness) (precision : TimestampPrecision) (snapLen linkType : UInt32)
  | pcapNg (endianness : Endianness) (interfaces : List Interface)

structure Writer where
  output : Bytes
  state : WriterState
  maxSize : ℕ
  maxInterfaces : ℕ
  budget : Budget

inductive FrameEncoding
  | pcap (seconds fraction : ℕ)
  | pcapNg (interfaceId timestamp blockLength : ℕ) (newInterface : Option Interface)

structure FramePlan where
  encoding : FrameEncoding
  encodedSize : ℕ
  budget : Budget

def validatePcapFrame (frame : Frame) (precision : TimestampPrecision) (snapLen linkType : UInt32) :
    Except Error (ℕ × ℕ) := do
  .rejectIf frame.interface.isSome (.metadataNotRepresentable .pcap "interface")
  .rejectIf frame.direction.isSome (.metadataNotRepresentable .pcap "direction")
  .rejectIf (frame.linkType ≠ linkType) (.interfaceLinkTypeMismatch 0 linkType frame.linkType)
  .rejectIf (frame.capturedLength > snapLen.toNat)
    (.sizeLimitExceeded "pcap captured packet" frame.capturedLength snapLen.toNat)
  let timestamp ← .okOr frame.timestamp (.timestampUnavailable .pcap)
  .rejectIf (timestamp.nanos < 0) (.timestampOutOfRange .pcap)
  let (seconds, nanoseconds) := timestamp.unixFloor
  .rejectIf (seconds ≥ 2 ^ 32) (.timestampOutOfRange .pcap)
  .rejectIf (nanoseconds % precision.scale ≠ 0)
    (.metadataNotRepresentable .pcap "microsecond timestamp precision")
  pure (seconds.toNat, nanoseconds / precision.scale)

/-- The plan of a frame for a classic file. -/
def preparePcapFrame (frame : Frame) (precision : TimestampPrecision) (snapLen linkType : UInt32)
    (budget : Budget) : Except Error FramePlan := do
  let (seconds, fraction) ← validatePcapFrame frame precision snapLen linkType
  pure ⟨.pcap seconds fraction, frame.bytes.length + 16, budget⟩

/-- The plan of a frame for an interface of a section. -/
def preparePcapNgFrame (frame : Frame) (plan : InterfacePlan) (maxSize : ℕ) (budget : Budget) :
    Except Error FramePlan := do
  .rejectIf (plan.description.snapLen ≠ 0 ∧ frame.capturedLength > plan.description.snapLen.toNat)
    (.sizeLimitExceeded "pcapng captured packet" frame.capturedLength
      plan.description.snapLen.toNat)
  let capturedTime ← .okOr frame.timestamp (.timestampUnavailable .pcapNg)
  let timestamp ← timestampToTicks capturedTime plan.description.timestampResolution
    plan.description.timestampOffset
  .rejectIf (frame.capturedLength + 3 ≥ 2 ^ 32) (.invalidBlockLength frame.capturedLength)
  let blockLength :=
    32 + align4 frame.capturedLength + if frame.direction.isSome then 12 else 0
  .rejectIf (blockLength ≥ 2 ^ 32) (.invalidBlockLength (2 ^ 32 - 1))
  .rejectIf (blockLength > maxSize)
    (.sizeLimitExceeded "pcapng enhanced packet block" blockLength maxSize)
  pure ⟨.pcapNg plan.id timestamp blockLength
    (if plan.requiresDescriptionBlock then some plan.description else none),
    blockLength + plan.descriptionBlockLength, budget⟩

/-- Classic files have timestamps in microseconds or in nanoseconds. -/
def classicPrecision : TimestampResolution → Except Error TimestampPrecision
  | .decimal exponent =>
    if exponent = 6 then .ok .microseconds
    else if exponent = 9 then .ok .nanoseconds
    else .error (.invalidTimestampResolution 10 exponent)
  | .binary exponent => .error (.invalidTimestampResolution 2 exponent)

namespace Writer

def pcapWithOptions (linkType : UInt32) (endianness : Endianness)
    (timestampResolution : TimestampResolution) (snapLen maxSize : ℕ) (streamLimits : Limits) :
    Except Error Writer := do
  let budget ← Budget.new streamLimits
  .rejectIf (linkType.toNat > 0xffff) (.linkTypeOutOfRange linkType)
  let precision ← classicPrecision timestampResolution
  let snapLen ← usizeToU32Limit snapLen
  .rejectIf (snapLen = 0) (.invalidData .pcap "snapshot length must be non-zero")
  pure ⟨writePcapHeader endianness precision snapLen linkType,
    .pcap endianness precision snapLen linkType, maxSize, 4096, budget⟩

def pcapngWithOptions (endianness : Endianness) (maxSize maxInterfaces : ℕ)
    (streamLimits : Limits) : Except Error Writer := do
  let budget ← Budget.new streamLimits
  .rejectIf (maxSize < 28) (.sizeLimitExceeded "pcapng section header" 28 maxSize)
  pure ⟨writeSectionHeader endianness, .pcapNg endianness [], maxSize, maxInterfaces, budget⟩

variable (w : Writer)

/-- Write the description of an interface, and add it to those of the section. -/
def writeInterface (endianness : Endianness) (interfaces : List Interface)
    (description : Interface) (options : List PcapNgOption) : Except Error Writer := do
  let bytes ← writeInterfaceDescription endianness description options
  pure { w with
    output := w.output ++ bytes
    state := .pcapNg endianness (interfaces ++ [description]) }

/-- Codes and lengths that a custom option may not have. -/
def optionRefused (o : PcapNgOption) : Bool :=
  o.code = optionEnd ∨ o.code = optionIfTsresol ∨ o.code = optionIfTsoffset ∨
    o.value.length > 0xffff

def addInterfaceDescriptionWithOptions (description : Interface)
    (options : List PcapNgOption) : Except Error (ℕ × Writer) := do
  .rejectIf (options.any optionRefused) (.invalidData .pcapNg
    "custom interface options conflict with generated metadata or exceed wire length")
  let length := min (interfaceDescriptionLength description.timestampOffset options) (wordLimit - 1)
  .rejectIf (options ≠ [] ∧ length > w.maxSize)
    (.sizeLimitExceeded "interface description" length w.maxSize)
  match w.state with
  | .pcap .. => .error (.wrongWriterFormat .pcapNg .pcap)
  | .pcapNg endianness interfaces =>
    let id ← validateNewInterface description interfaces w.maxSize w.maxInterfaces
    let w ← w.writeInterface endianness interfaces description options
    pure (id, w)

def addInterface (linkType : UInt32) : Except Error (ℕ × Writer) := do
  let snapLen ← usizeToU32Limit w.maxSize
  w.addInterfaceDescriptionWithOptions ⟨linkType, snapLen, writerTimestampResolution, 0⟩ []

def prepareFrame (frame : Frame) : Except Error FramePlan := do
  .rejectIf (frame.capturedLength > w.maxSize)
    (.sizeLimitExceeded "captured packet" frame.capturedLength w.maxSize)
  let budget ← w.budget.after frame.capturedLength
  match w.state with
  | .pcap _ precision snapLen linkType => preparePcapFrame frame precision snapLen linkType budget
  | .pcapNg _ interfaces =>
    let plan ← selectInterface frame interfaces w.maxSize w.maxInterfaces
    preparePcapNgFrame frame plan w.maxSize budget

/-- Write the description that a plan asks for. -/
def writeNewInterface (endianness : Endianness) (interfaces : List Interface)
    (newInterface : Option Interface) : Except Error Writer :=
  match newInterface with
  | none => .ok w
  | some description => w.writeInterface endianness interfaces description []

def writeFrame (frame : Frame) : Except Error Writer := do
  let plan ← w.prepareFrame frame
  match w.state, plan.encoding with
  | .pcap endianness .., .pcap seconds fraction =>
    pure { w with
      output := w.output ++ writePcapFrame endianness seconds fraction frame
      budget := plan.budget }
  | .pcapNg endianness interfaces, .pcapNg interfaceId timestamp blockLength newInterface =>
    let w ← w.writeNewInterface endianness interfaces newInterface
    pure { w with
      output := w.output ++ writeEnhancedPacket endianness interfaceId timestamp blockLength frame
      budget := plan.budget }
  | _, _ => pure w

end Writer

end PacketCraftr.Capture
