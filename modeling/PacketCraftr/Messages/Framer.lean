import PacketCraftr.Messages.TextMessage
import PacketCraftr.Decode.Session

/-!
# Framers

`protocol/framing.rs`: where a message of a protocol ends, found from the bytes of the stream that
have arrived. A framer is asked again with a longer front of the stream, and keeps what it has
found out: the length of the message, how far it has searched for the end of a head, or how far it
is into a nested value.
-/

namespace PacketCraftr

namespace Messages

inductive Framing
  | datagram
  | control
  | lacp
  | mqtt
  | amqp
  | bgp
  | ber
  | resp
  | sip
  | rtsp
  | memcached
  | ipfix
  | radius
  | stun
  | modbusTcp
  | dnp3
  | ethernetIp
  | iec104
  | opcuaTcp
  deriving DecidableEq, Repr

end Messages

def BuiltinProtocol.framing : BuiltinProtocol → Messages.Framing
  | .amqp => .amqp
  | .bgp => .bgp
  | .dnp3 => .dnp3
  | .eap | .pppIpcp | .pppIpv6cp | .pppLcp => .control
  | .ethernetIp => .ethernetIp
  | .iec104 => .iec104
  | .ipfix => .ipfix
  | .lacp => .lacp
  | .ldap => .ber
  | .memcached => .memcached
  | .modbusTcp => .modbusTcp
  | .mqtt => .mqtt
  | .opcuaTcp => .opcuaTcp
  | .radius => .radius
  | .resp => .resp
  | .rtsp => .rtsp
  | .sip => .sip
  | .stun => .stun
  | _ => .datagram

namespace Messages

inductive Error
  | codec (error : CodecError)
  | bufferLimit (limit : ℕ)
  deriving DecidableEq, Repr

inductive Progress
  | incomplete
  | skip (length : ℕ)
  | message (length : ℕ)
  deriving DecidableEq, Repr

/-! ### Lengths in a prefix of the message -/

/-- A length that is read off the first `n` bytes, when they are there. -/
def whenHeld (n : ℕ) (b : Bytes) (read : Bytes → Except CodecError ℕ) :
    Except CodecError (Option ℕ) :=
  if b.length < n then .ok none else (read (b.take n)).map some

/-- A byte at a place that is there. -/
def byteAt (b : Bytes) (i : ℕ) : UInt8 := b.getD i 0

/-- `u16::from_be_bytes`. -/
def be16At (b : Bytes) (i : ℕ) : ℕ := Wire.be16 (byteAt b i) (byteAt b (i + 1))

/-- `u16::from_le_bytes`. -/
def le16At (b : Bytes) (i : ℕ) : ℕ := Wire.be16 (byteAt b (i + 1)) (byteAt b i)

/-- `u32::from_be_bytes`. -/
def be32At (b : Bytes) (i : ℕ) : ℕ := be16At b i * 65536 + be16At b (i + 2)

/-- `u32::from_le_bytes`. -/
def le32At (b : Bytes) (i : ℕ) : ℕ := le16At b i + le16At b (i + 2) * 65536

/-- A length, or the error that it is not between two bounds. -/
def within (low high length : ℕ) (error : CodecError) : Except CodecError ℕ :=
  if low ≤ length ∧ length ≤ high then .ok length else .error error

/-- The loop over the bytes of an MQTT remaining length. -/
def remainingLength (name : String) : ℕ → ℕ → Bytes → Except CodecError (Option ℕ)
  | 0, _, _ => .error (.invalid name "remaining length exceeds four bytes")
  | _ + 1, _, [] => .ok none
  | left + 1, length, v :: rest =>
    let i := 3 - left
    let length := length + (v &&& 127).toNat * 2 ^ (7 * i)
    if v &&& 128 = 0 then
      if 0 < i ∧ v = 0 then .error (.unsupported name "noncanonical remaining length")
      else .ok (some (length + i + 2))
    else remainingLength name left length rest

def berLength (name : String) (b : Bytes) : Except CodecError (Option ℕ) :=
  if b.length < 2 then .ok none
  else if byteAt b 0 &&& 31 = 31 then
    .error (.unsupported name "high-tag-number BER is not supported")
  else if byteAt b 1 < 128 then .ok (some (2 + (byteAt b 1).toNat))
  else
    let count := (byteAt b 1 &&& 127).toNat
    if count = 0 then .error (.unsupported name "indefinite BER length")
    else if 4 < count then .error (.invalid name "BER length is too wide")
    else if b.length < count + 2 then .ok none
    else
      let len := (slice b 2 (2 + count)).foldl (fun n v => n * 256 + v.toNat) 0
      if byteAt b 2 = 0 ∨ len < 128 then .error (.unsupported name "noncanonical BER length")
      else .ok (some (count + 2 + len))

/-- `PREFACE` of AMQP. -/
def amqpPreface : Bytes := [65, 77, 81, 80, 0, 0, 9, 1]

/-- Whether a binary Memcached message starts with this byte. -/
def isMemcachedMagic (v : UInt8) : Bool := v == 0x80 || v == 0x81

/-- The arms of `Framer::progress` that only look for a length: the whole length of the message at
the front of the stream, when enough of it is there. -/
def lengthOf (kind : Framing) (name : String) (b : Bytes) : Except CodecError (Option ℕ) :=
  match kind with
  | .control => whenHeld 4 b fun head =>
    if be16At head 2 < 4 then .error (.invalid name "short control message")
    else .ok (be16At head 2)
  | .lacp =>
    match b with
    | [] => .ok none
    | subtype :: rest =>
      if subtype ≠ 1 ∨ rest.head?.any (· != 1) then
        .error (.unsupported name "unsupported Slow Protocol subtype or LACP version")
      else .ok (some 110)
  | .mqtt => if b.length < 2 then .ok none else remainingLength name 4 0 (b.drop 1)
  | .amqp =>
    if amqpPreface.take 4 <+: b then .ok (some amqpPreface.length)
    else whenHeld 7 b fun head => .ok (be32At head 3 + 8)
  | .bgp => whenHeld 19 b fun head =>
    within 19 4096 (be16At head 16) (.invalid name "BGP length outside 19..4096")
  | .ber => berLength name b
  | .memcached =>
    if b.head?.any fun v => !isMemcachedMagic v then
      .error (.unsupported name "not Memcached binary framing")
    else whenHeld 24 b fun head => .ok (be32At head 8 + 24)
  | .ipfix => whenHeld 4 b fun head =>
    if be16At head 2 < 16 then .error (.invalid name "short IPFIX header") else .ok (be16At head 2)
  | .radius => whenHeld 4 b fun head =>
    within 20 4096 (be16At head 2) (.invalid name "RADIUS length outside 20..4096")
  | .stun => whenHeld 20 b fun head => .ok (20 + be16At head 2)
  | .modbusTcp => whenHeld 7 b fun head => do
    let l ← within 2 254 (be16At head 4) (.invalid name "invalid MBAP length")
    pure (6 + l)
  | .dnp3 => whenHeld 3 b fun head =>
    if byteAt head 0 ≠ 5 ∨ byteAt head 1 ≠ 100 ∨ byteAt head 2 < 5 then
      .error (.invalid name "invalid DNP3 link prefix")
    else
      let payload := (byteAt head 2).toNat - 5
      .ok (10 + payload + (payload + 15) / 16 * 2)
  | .ethernetIp => whenHeld 24 b fun head => .ok (24 + le16At head 2)
  | .iec104 => whenHeld 2 b fun head =>
    if byteAt head 0 ≠ 0x68 ∨ byteAt head 1 < 4 ∨ 253 < byteAt head 1 then
      .error (.invalid name "invalid APDU length")
    else .ok (2 + (byteAt head 1).toNat)
  | .opcuaTcp => whenHeld 8 b fun head =>
    if le32At head 4 < 8 then .error (.invalid name "short UACP message") else .ok (le32At head 4)
  -- the other kinds have arms of their own
  | .datagram | .resp | .sip | .rtsp => .ok none

/-! ### Nested values -/

def maxNesting : ℕ := 16

def maxRecords : ℕ := 4096

/-- `Resp`, with the innermost of the open arrays first. -/
structure Resp where
  pos : ℕ := 0
  scan : ℕ := 0
  remaining : List ℕ := []
  bulkEnd : Option ℕ := none
  nodes : ℕ := 0
  deriving DecidableEq, Repr

/-- The decimal digits of a number. -/
def decimalDigits (n : ℕ) : Bytes := (Nat.toDigits 10 n).map fun c => UInt8.ofNat c.toNat

/-- `i64::to_string`, as bytes. -/
def integerText : ℤ → Bytes
  | .ofNat n => decimalDigits n
  | .negSucc n => 45 :: decimalDigits (n + 1)

/-- A string of decimal digits as a number. -/
def parseDigits (digits : Bytes) : Option ℕ :=
  if !digits.isEmpty && digits.all isAsciiDigit then some (decimal digits) else none

/-- `str::parse::<i64>`: a sign, if there is one, and digits. -/
def parseInteger (text : Bytes) : Option ℤ :=
  let value : Option ℤ :=
    match text with
    | 45 :: digits => (parseDigits digits).map fun n => -(n : ℤ)
    | 43 :: digits => (parseDigits digits).map Int.ofNat
    | digits => (parseDigits digits).map Int.ofNat
  value.filter fun n => -(2 ^ 63 : ℤ) ≤ n ∧ n < 2 ^ 63

/-- `Resp::done`: a value is complete, and with it every array it is the last element of. -/
def countDown : List ℕ → Bool × List ℕ
  | [] => (true, [])
  | left :: rest => if left - 1 ≠ 0 then (false, (left - 1) :: rest) else countDown rest

/-- The bytes that start a value: `+`, `-`, `:`, `$` and `*`. -/
def respKinds : Bytes := [43, 45, 58, 36, 42]

/-- What the line of a value calls for. -/
inductive RespLine
  /-- A bulk string of this many bytes. -/
  | bulk (count : ℕ)
  /-- An array of this many elements. -/
  | array (count : ℕ)
  /-- Nothing: the value is complete. -/
  | complete
  deriving DecidableEq, Repr

/-- What `Resp::progress` makes of the line of a value, in an array of this depth. -/
def respLine (name : String) (kind : UInt8) (value : Bytes) (depth : ℕ) :
    Except CodecError RespLine :=
  if kind = 36 ∨ kind = 42 then do
    let count ← Except.okOr (parseInteger value) (.invalid name "invalid length")
    Except.rejectIf (integerText count ≠ value) (.unsupported name "noncanonical number")
    Except.rejectIf (count < -1) (.invalid name "invalid negative length")
    if 0 ≤ count ∧ kind = 36 then pure (.bulk count.toNat)
    else if 0 < count ∧ kind = 42 then do
      Except.rejectIf (maxNesting ≤ depth ∨ (maxRecords : ℤ) < count)
        (.invalid name "array exceeds nesting/item limit")
      pure (.array count.toNat)
    else pure .complete
  else if kind = 58 then do
    let number ← Except.okOr (parseInteger value) (.invalid name "invalid integer")
    Except.rejectIf (integerText number ≠ value) (.unsupported name "noncanonical number")
    pure .complete
  else pure .complete

/-- What one turn of the loop of `Resp::progress` comes to. -/
inductive RespTurn
  | next (resp : Resp)
  | message (length : ℕ)
  | wait (resp : Resp)
  | fail (error : Error)
  deriving DecidableEq, Repr

namespace Resp

/-- A value is complete at `pos`. -/
def complete (resp : Resp) : Bool × Resp :=
  ((countDown resp.remaining).1, { resp with remaining := (countDown resp.remaining).2 })

/-- What a line calls for, with `pos` behind it. -/
def applyLine (resp : Resp) : RespLine → RespTurn
  | .bulk count => .next { resp with bulkEnd := some (resp.pos + count + 2) }
  | .array count => .next { resp with remaining := count :: resp.remaining }
  | .complete => if resp.complete.1 then .message resp.pos else .next resp.complete.2

/-- The part of a turn that looks for the line of a value. -/
def lineTurn (resp : Resp) (b : Bytes) (name : String) : RespTurn :=
  match b[resp.pos]? with
  | none => .wait resp
  | some kind =>
    if kind ∉ respKinds then .fail (.codec (.unsupported name "not RESP2 framing"))
    else
      let start := max resp.scan (resp.pos + 1)
      match Search.position crlf (b.drop start) with
      | none => .wait { resp with scan := b.length - 1 }
      | some i =>
        let stop := start + i
        let value := slice b (resp.pos + 1) stop
        let resp : Resp :=
          { resp with pos := stop + 2, scan := stop + 2, nodes := resp.nodes + 1 }
        if maxNesting ≤ resp.remaining.length then
          .fail (.codec (.invalid name "value exceeds nesting limit"))
        else if maxRecords < resp.nodes then .fail (.codec (.invalid name "too many values"))
        else
          match respLine name kind value resp.remaining.length with
          | .error error => .fail (.codec error)
          | .ok line => resp.applyLine line

/-- One turn of the loop: the end of a bulk string that was open, then the line of a value. -/
def turn (resp : Resp) (b : Bytes) (maximum : ℕ) (name : String) : RespTurn :=
  match resp.bulkEnd with
  | none => resp.lineTurn b name
  | some stop =>
    if maximum < stop then .fail (.bufferLimit maximum)
    else if b.length < stop then .wait resp
    else if slice b (stop - 2) stop ≠ crlf then
      .fail (.codec (.invalid name "bulk string lacks CRLF"))
    else
      let resp : Resp := { resp with pos := stop, scan := stop, bulkEnd := none }
      if resp.complete.1 then .message stop else resp.complete.2.lineTurn b name

def loop (b : Bytes) (maximum : ℕ) (name : String) : ℕ → Resp → Except Error (Progress × Resp)
  | 0, resp => .ok (.incomplete, resp)
  | fuel + 1, resp =>
    match resp.turn b maximum name with
    | .next resp => loop b maximum name fuel resp
    | .message length => .ok (.message length, resp)
    | .wait resp => .ok (.incomplete, resp)
    | .fail error => .error error

/-- `Resp::progress`. Every turn takes a line, so that there are fewer turns than bytes. -/
def progress (resp : Resp) (b : Bytes) (maximum : ℕ) (name : String) :
    Except Error (Progress × Resp) :=
  loop b maximum name (b.length + 1) resp

end Resp

/-! ### Framers -/

structure Framer where
  kind : Framing
  name : String
  expected : Option ℕ := none
  scan : ℕ := 0
  resp : Resp := {}
  deriving DecidableEq, Repr

def ready (b : Bytes) (len max : ℕ) : Except Error Progress :=
  if max < len then .error (.bufferLimit max)
  else .ok (if len ≤ b.length then .message len else .incomplete)

/-- What a head says of the length of its message. -/
def textLength (kind : Framing) (name : String) (head : Bytes) : Except CodecError ℕ := do
  let length ← contentLength name head
  Except.rejectIf (kind = .sip ∧ length.isNone)
    (.invalid name "SIP over TCP requires Content-Length")
  Except.rejectIf (usizeBound ≤ head.length + length.getD 0) (.invalid name "length overflow")
  pure (head.length + length.getD 0)

namespace Framer

/-- `Framer::new`, for a protocol. -/
def new (kind : Framing) (name : String) : Framer := { kind, name }

/-- The length is found: it is kept. -/
def settle (framer : Framer) (b : Bytes) (len maximum : ℕ) : Except Error (Progress × Framer) :=
  (ready b len maximum).map fun progress => (progress, { framer with expected := some len })

/-- The arm of `Framer::progress` for SIP and RTSP. -/
def textProgress (framer : Framer) (b : Bytes) (maximum : ℕ) : Except Error (Progress × Framer) :=
  if framer.kind = .sip ∧ crlf <+: b then .ok (.skip 2, framer)
  else if framer.kind = .rtsp ∧ b.head? = some 36 then
    if b.length < 4 then .ok (.incomplete, framer) else framer.settle b (4 + be16At b 2) maximum
  else
    let start := framer.scan - 3
    match Search.position crlfCrlf (b.drop start) with
    | none =>
      if 65536 < b.length then
        .error (.codec (.invalid framer.name "header exceeds 65536 bytes"))
      else .ok (.incomplete, { framer with scan := b.length })
    | some offset =>
      match textLength framer.kind framer.name (b.take (start + offset + 4)) with
      | .error error => .error (.codec error)
      | .ok len => framer.settle b len maximum

def progress (framer : Framer) (b : Bytes) (maximum : ℕ) : Except Error (Progress × Framer) :=
  match framer.expected with
  | some stop => (ready b stop maximum).map fun progress => (progress, framer)
  | none =>
    match framer.kind with
    | .resp =>
      (framer.resp.progress b maximum framer.name).map fun r => (r.1, { framer with resp := r.2 })
    | .sip | .rtsp => framer.textProgress b maximum
    | .datagram => .ok (.message b.length, framer)
    | kind =>
      match lengthOf kind framer.name b with
      | .error error => .error (.codec error)
      | .ok none => .ok (.incomplete, framer)
      | .ok (some len) => framer.settle b len maximum

end Framer

end Messages

end PacketCraftr
