import PacketCraftr.Foundation.Outcome
import PacketCraftr.Foundation.Tiling
import PacketCraftr.Protocol.Layers
import Mathlib.Data.List.Sort

/-!
# The dissection of a frame

`decode.rs` and `decode/session.rs`: starting from the protocol of the link type, the codec of the
current protocol decodes a header from the bytes of the cursor and says how long its payload is and
which protocols may follow. The bytes behind the declared payload are set aside; the payload is the
next cursor. The loop ends when a header says so, when no codec fits or when no bytes remain, and
then the bytes set aside are appended as padding.

Nothing is assumed about the codecs: what they return is checked before it is used. The type of the
layers, of the discriminators and of the network envelope that codecs hand on are arbitrary.
-/

namespace PacketCraftr

open BuiltinProtocol

/-- Protocols whose messages follow each other in a TCP stream. -/
def BuiltinProtocol.streamDecode : BuiltinProtocol → Bool
  | .amqp | .bgp | .dnp3 | .ethernetIp | .iec104 | .ipfix | .ldap | .memcached | .modbusTcp | .mqtt
  | .opcuaTcp | .resp | .rtsp | .sip | .stun => true
  | _ => false

def BuiltinProtocol.preservesOpaqueBytes : BuiltinProtocol → Bool
  | .raw | .padding | .malformed => true
  | _ => false

namespace Decode

/-! ### Codecs and the registry -/

abbrev ByteRange := Span

inductive Severity
  | info
  | warning
  | error
deriving DecidableEq, Repr

structure Diagnostic where
  severity : Severity
  code : String
  message : String
  layer : Option ℕ := none

def Diagnostic.atLayer (d : Diagnostic) (index : ℕ) : Diagnostic := { d with layer := some index }

/-- Where a field of a layer lies. -/
structure FieldLayout where
  index : ℕ
  range : ByteRange

/-- What a codec returns: a layer, how many bytes it took, and what is behind it. -/
structure Decoded (L D N : Type) where
  layer : L
  consumed : ℕ
  payloadLen : ℕ
  next : List D
  fields : List FieldLayout
  diagnostics : List Diagnostic
  stop : Bool
  network : Option N

structure DecodeContext (D N : Type) where
  parent : Option String
  network : Option N
  hopLimit : Option ℕ
  discriminator : Option D

structure Codec (L D N : Type) where
  acceptsDecodedProtocol : String → Bool
  decode : Bytes → DecodeContext D N → Except String (Decoded L D N)

/-- What is read of a layer. -/
structure LayerKind (L : Type) where
  protocolId : L → String
  validateRequiredFields : L → Except String Unit
  hopLimit : L → Option ℕ

structure Registry (L D N : Type) where
  codec : String → Option (Codec L D N)
  rootForLinkType : ℕ → Option String
  firstChildFor : String → List D → Option (D × String)
  allowsTrailingPadding : String → Bool

structure Limits where
  maxLayers : ℕ
  maxPacketSize : ℕ

inductive Error
  | packetSizeLimit (actual limit : ℕ)
  | layerLimit (limit : ℕ)
  | missingRootCodec (protocol : String)
  | invalidCodecCursor (protocol : String)
  | invalidCodecLayout (protocol : String)
  | codecLayerMismatch (protocol actual : String)
  | invalidLayer (protocol source : String)

/-! ### Layers and layouts -/

/-- A layer of the packet: what a codec returned, or bytes that the dissection preserved. -/
inductive Piece (L D N : Type)
  | header (decoded : Decoded L D N)
  | raw (bytes : Bytes)
  | malformed (intended : String) (bytes : Bytes) (reason : String)
  | padding (bytes : Bytes) (outsideLayer : ℕ)

structure LayerLayout where
  index : ℕ
  protocol : String
  range : ByteRange
  fields : List FieldLayout

/-- A layer with its layout; the two are always appended together. -/
structure Record (L D N : Type) where
  piece : Piece L D N
  layout : LayerLayout

/-- Bytes behind the declared payload of a layer. -/
structure TrailingBytes where
  offset : ℕ
  bytes : Bytes
  outsideLayer : ℕ

def TrailingBytes.range (t : TrailingBytes) : ByteRange := ⟨t.offset, t.offset + t.bytes.length⟩

structure Session (L D N : Type) where
  records : List (Record L D N) := []
  diagnostics : List Diagnostic := []
  trailing : List TrailingBytes := []
  allowTrailingPadding : Bool
  network : Option N := none
  lastHopLimit : Option ℕ := none

structure Cursor (D : Type) where
  protocol : String
  discriminator : Option D
  bytes : ByteRange

structure DecodedPacket (L D N : Type) where
  records : List (Record L D N)
  encodedPayloadLengths : List (Option ℕ)
  diagnostics : List Diagnostic

/-- The layout of a layer that holds the bytes of its whole range in one field. -/
def bytesLayerLayout (index : ℕ) (protocol : BuiltinProtocol) (offset length : ℕ) : LayerLayout :=
  ⟨index, protocol.asStr, ⟨offset, offset + length⟩, [⟨0, ⟨offset, offset + length⟩⟩]⟩

def sliceOriginal (original : Bytes) (offset length : ℕ) : Bytes :=
  if offset + length ≤ original.length then (original.drop offset).take length else []

variable {L D N : Type}

def Piece.protocolId (kind : LayerKind L) : Piece L D N → String
  | .header decoded => kind.protocolId decoded.layer
  | .raw _ => BuiltinProtocol.raw.asStr
  | .malformed _ _ _ => BuiltinProtocol.malformed.asStr
  | .padding _ _ => BuiltinProtocol.padding.asStr

namespace Session

variable (s : Session L D N)

def appendPadding (bytes : Bytes) (offset outsideLayer : ℕ) : Session L D N :=
  { s with records := s.records ++ [⟨.padding bytes outsideLayer,
      bytesLayerLayout s.records.length .padding offset bytes.length⟩] }

def appendRaw (bytes : Bytes) (offset : ℕ) : Session L D N :=
  { s with records := s.records ++ [⟨.raw bytes,
      bytesLayerLayout s.records.length .raw offset bytes.length⟩] }

def appendMalformed (intended : String) (bytes : Bytes) (reason : String)
    (offset : ℕ) : Session L D N :=
  { s with records := s.records ++ [⟨.malformed intended bytes reason,
      ⟨s.records.length, BuiltinProtocol.malformed.asStr, ⟨offset, offset + bytes.length⟩, []⟩⟩] }

def diagnose (diagnostic : Diagnostic) : Session L D N :=
  { s with diagnostics := s.diagnostics ++ [diagnostic] }

def ensureLayerCapacity (maxLayers : ℕ) : Except Error Unit :=
  Except.rejectIf (maxLayers ≤ s.records.length) (.layerLimit maxLayers)

def preserveRaw (frame : Bytes) (offset length : ℕ) (diagnostic : Diagnostic) :
    Session L D N :=
  (s.appendRaw (sliceOriginal frame offset length) offset).diagnose diagnostic

def preserveMissingCodec (frame : Bytes) (cursor : Cursor D) :
    Except Error (Session L D N) := do
  Except.rejectIf s.records.isEmpty (.missingRootCodec cursor.protocol)
  let diagnostic : Diagnostic :=
    ⟨.warning, "decode.missing_codec", "no codec registered for " ++ cursor.protocol, none⟩
  .ok (s.preserveRaw frame cursor.bytes.start (cursor.bytes.stop - cursor.bytes.start)
    (diagnostic.atLayer s.records.length))

def preserveMalformedLayer (frame : Bytes) (cursor : Cursor D)
    (message : String) : Session L D N :=
  (s.appendMalformed cursor.protocol
    (sliceOriginal frame cursor.bytes.start (cursor.bytes.stop - cursor.bytes.start)) message
    cursor.bytes.start).diagnose ⟨.error, "decode.malformed_layer", message, some s.records.length⟩

end Session

/-! ### One turn of the loop -/

/-- A decoded layer whose lengths and field ranges were checked. -/
structure ValidatedLayer (L D N : Type) where
  decoded : Decoded L D N
  protocol : String
  layerEnd : ℕ
  payloadEnd : ℕ

def FieldLayout.shift (field : FieldLayout) (amount : ℕ) : FieldLayout :=
  { field with range := ⟨field.range.start + amount, field.range.stop + amount⟩ }

def validateLayer (kind : LayerKind L) (codec : Codec L D N) (cursor : Cursor D)
    (decoded : Decoded L D N) : Except Error (ValidatedLayer L D N) := do
  let actual := kind.protocolId decoded.layer
  Except.rejectIf (!codec.acceptsDecodedProtocol actual) (.codecLayerMismatch cursor.protocol actual)
  (kind.validateRequiredFields decoded.layer).mapError (.invalidLayer actual)
  let inputLen := cursor.bytes.stop - cursor.bytes.start
  Except.rejectIf (inputLen < decoded.consumed ∨ (!decoded.stop ∧ decoded.consumed = 0))
    (.invalidCodecCursor cursor.protocol)
  Except.rejectIf (inputLen < decoded.consumed + decoded.payloadLen)
    (.invalidCodecCursor cursor.protocol)
  Except.rejectIf (decoded.fields.any fun field =>
      field.range.stop < field.range.start || decoded.consumed < field.range.stop)
    (.invalidCodecLayout cursor.protocol)
  .ok { decoded := { decoded with
          fields := decoded.fields.map fun field => field.shift cursor.bytes.start }
        protocol := actual
        layerEnd := cursor.bytes.start + decoded.consumed
        payloadEnd := cursor.bytes.start + (decoded.consumed + decoded.payloadLen) }

namespace Session

variable (s : Session L D N)

def allowsCurrentLinkPadding : Bool :=
  s.allowTrailingPadding && s.network.isNone

def preserveTrailingBytes (frame : Bytes) (cursor : Cursor D)
    (layer : ValidatedLayer L D N) : Session L D N :=
  if layer.payloadEnd = cursor.bytes.stop then s
  else
    let byteCount := cursor.bytes.stop - layer.payloadEnd
    let message := "preserved " ++ toString byteCount ++
      " byte(s) outside the declared length of " ++ cursor.protocol
    let diagnostic : Diagnostic :=
      if s.allowsCurrentLinkPadding then ⟨.info, "decode.trailing_padding", message, none⟩
      else ⟨.warning, "decode.trailing_malformed", message, none⟩
    let kept : TrailingBytes :=
      ⟨layer.payloadEnd, sliceOriginal frame layer.payloadEnd byteCount, s.records.length⟩
    diagnose { s with trailing := s.trailing ++ [kept] } (diagnostic.atLayer s.records.length)

variable (registry : Registry L D N)

/-- The state of the traversal behind a header. -/
def enterChild (parent : String)
    (child : Option String) : Session L D N :=
  if ((fromName parent).map isEncapsulationBoundary).getD false then
    { s with
      network := none
      allowTrailingPadding := (child.map registry.allowsTrailingPadding).getD false }
  else s

variable (kind : LayerKind L)

/-- Append a validated layer and take over what it says about the traversal. -/
def acceptLayer (cursor : Cursor D) (layer : ValidatedLayer L D N) (child : Option (D × String)) :
    Session L D N :=
  let index := s.records.length
  let decoded := layer.decoded
  let s : Session L D N := { s with
    records := s.records ++ [⟨.header decoded,
      ⟨index, layer.protocol, ⟨cursor.bytes.start, layer.layerEnd⟩, decoded.fields⟩⟩]
    lastHopLimit := (kind.hopLimit decoded.layer).or s.lastHopLimit
    network := decoded.network.or s.network }
  let s := s.enterChild registry layer.protocol (child.map Prod.snd)
  { s with diagnostics := s.diagnostics ++ decoded.diagnostics.map fun d =>
      { d with layer := d.layer.or (some index) } }

/-- The child that must follow, if the discriminator names one that needs bytes of its own. -/
def requiredChild (child : Option (D × String)) : Option String :=
  (child.map Prod.snd).filter fun protocol =>
    !((fromName protocol).map preservesOpaqueBytes).getD false

def preserveMissingRequiredChild (maxLayers parentIndex : ℕ)
    (parent : String) (child : Option (D × String)) (offset : ℕ) :
    Except Error (Session L D N) :=
  match requiredChild child with
  | none => .ok s
  | some required => do
    s.ensureLayerCapacity maxLayers
    .ok ((s.appendMalformed required [] "required child header is absent" offset).diagnose
      ⟨.error, "decode.missing_required_child",
        parent ++ " discriminator requires " ++ required ++ ", but no bytes remain",
        some parentIndex⟩)

def preserveTerminalPayload (maxLayers : ℕ) (frame : Bytes)
    (parentIndex : ℕ) (protocol : String) (offset payloadLen : ℕ) :
    Except Error (Session L D N) := do
  s.ensureLayerCapacity maxLayers
  .ok (s.preserveRaw frame offset payloadLen ⟨.warning, "decode.terminal_payload",
    "codec for " ++ protocol ++ " stopped with " ++ toString payloadLen ++
      " unconsumed payload byte(s); preserved as Raw", some parentIndex⟩)

def preserveUnknownChild (maxLayers : ℕ) (frame : Bytes)
    (parentIndex : ℕ) (parent : String) (offset payloadLen : ℕ) :
    Except Error (Session L D N) := do
  s.ensureLayerCapacity maxLayers
  .ok (s.preserveRaw frame offset payloadLen ⟨.warning, "decode.unknown_binding",
    "unknown child discriminator after " ++ parent, some parentIndex⟩)

/-- Append a layer, and what must follow it if the loop ends here; otherwise the next cursor. -/
def commitLayer (maxLayers : ℕ) (frame : Bytes) (cursor : Cursor D) (layer : ValidatedLayer L D N)
    (child : Option (D × String)) : Except Error (Session L D N × Option (Cursor D)) :=
  let index := s.records.length
  let decoded := layer.decoded
  let s := s.acceptLayer registry kind cursor layer child
  if decoded.payloadLen = 0 then do
    let s ← s.preserveMissingRequiredChild maxLayers index layer.protocol child layer.layerEnd
    .ok (s, none)
  else if decoded.stop then do
    let s ← s.preserveTerminalPayload maxLayers frame index cursor.protocol layer.layerEnd
      decoded.payloadLen
    .ok (s, none)
  else
    match child with
    | none => do
      let s ← s.preserveUnknownChild maxLayers frame index layer.protocol layer.layerEnd
        decoded.payloadLen
      .ok (s, none)
    | some (discriminator, protocol) =>
      .ok (s, some ⟨protocol, some discriminator, ⟨layer.layerEnd, layer.payloadEnd⟩⟩)

/-- Another message of the same stream protocol would not fit the layer budget. -/
def messageLimit (maxLayers : ℕ) (protocol : String)
    (child : Option (D × String)) : Bool :=
  child.map Prod.snd == some protocol &&
    ((fromName protocol).map streamDecode).getD false &&
    decide (maxLayers < s.records.length + s.trailing.length + 2)

/-- What a turn does with what the codec returned. -/
def acceptDecoded (maxLayers : ℕ) (frame : Bytes) (cursor : Cursor D) (codec : Codec L D N)
    (decoded : Decoded L D N) : Except Error (Session L D N × Option (Cursor D)) := do
  let layer ← validateLayer kind codec cursor decoded
  let child := registry.firstChildFor layer.protocol layer.decoded.next
  if s.messageLimit maxLayers layer.protocol child then
    .ok (s.preserveRaw frame cursor.bytes.start (cursor.bytes.stop - cursor.bytes.start)
      ⟨.info, "decode.message_limit", "remaining coalesced messages preserved as Raw", none⟩, none)
  else
    (s.preserveTrailingBytes frame cursor layer).commitLayer registry kind maxLayers frame cursor
      layer child

/-- What a codec is told about the layers in front. -/
def context (cursor : Cursor D) : DecodeContext D N where
  parent := s.records.getLast?.map fun r => Piece.protocolId kind r.piece
  network := s.network
  hopLimit := s.network.bind fun _ => s.lastHopLimit
  discriminator := cursor.discriminator

def turn (maxLayers : ℕ)
    (frame : Bytes) (cursor : Cursor D) : Except Error (Session L D N × Option (Cursor D)) := do
  s.ensureLayerCapacity maxLayers
  match registry.codec cursor.protocol with
  | none =>
    let s ← s.preserveMissingCodec frame cursor
    .ok (s, none)
  | some codec =>
    let input := (frame.drop cursor.bytes.start).take (cursor.bytes.stop - cursor.bytes.start)
    match codec.decode input (s.context kind cursor) with
    | .error source => .ok (s.preserveMalformedLayer frame cursor source, none)
    | .ok decoded => s.acceptDecoded registry kind maxLayers frame cursor codec decoded

end Session

/-! ### The dissection -/

/-- The loop, for at most some number of turns. -/
def loop (registry : Registry L D N) (kind : LayerKind L) (maxLayers : ℕ) (frame : Bytes) :
    ℕ → Session L D N → Cursor D → Option (Except Error (Session L D N))
  | 0, _, _ => none
  | turns + 1, s, cursor =>
    match s.turn registry kind maxLayers frame cursor with
    | .error e => some (.error e)
    | .ok (s, none) => some (.ok s)
    | .ok (s, some cursor) => loop registry kind maxLayers frame turns s cursor

/-- Append the bytes set aside, in the order of the frame. -/
def finish (maxLayers : ℕ) (frame : Bytes) (s : Session L D N) :
    Except Error (DecodedPacket L D N) := do
  let trailing := s.trailing.insertionSort fun a b => a.offset ≤ b.offset
  let s ← trailing.foldlM (fun s t => do
    s.ensureLayerCapacity maxLayers
    .ok (s.appendPadding t.bytes t.offset t.outsideLayer)) { s with trailing := [] }
  .ok { records := s.records
        encodedPayloadLengths := s.records.map fun r =>
          if r.layout.range.stop ≤ frame.length then some (frame.length - r.layout.range.stop)
          else none
        diagnostics := s.diagnostics }

/-- A frame whose link type has no root protocol. -/
def rawDecodedFrame (frame : Bytes) (linkType : ℕ) : DecodedPacket L D N where
  records := [⟨.raw frame, bytesLayerLayout 0 .raw 0 frame.length⟩]
  encodedPayloadLengths := [some 0]
  diagnostics := [⟨.warning, "decode.unsupported_link_type",
    "no root binding for link type " ++ toString linkType, none⟩]

/-- Dissect a frame. Every turn of the loop but the last takes a byte of the frame, so that one turn
more than the frame has bytes is enough (`decode_tiles`). -/
def decode (registry : Registry L D N) (kind : LayerKind L) (limits : Limits) (linkType : ℕ)
    (frame : Bytes) : Option (Except Error (DecodedPacket L D N)) :=
  if limits.maxLayers = 0 then some (.error (.layerLimit 0))
  else if limits.maxPacketSize < frame.length then
    some (.error (.packetSizeLimit frame.length limits.maxPacketSize))
  else
    match registry.rootForLinkType linkType with
    | none => some (.ok (rawDecodedFrame frame linkType))
    | some root =>
      (loop registry kind limits.maxLayers frame (frame.length + 1)
        { allowTrailingPadding := registry.allowsTrailingPadding root }
        ⟨root, none, ⟨0, frame.length⟩⟩).map fun result => result >>= finish limits.maxLayers frame

end Decode

end PacketCraftr
