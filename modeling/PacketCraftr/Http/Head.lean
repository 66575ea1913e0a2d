import PacketCraftr.Messages.TextMessage

/-!
# The head of an HTTP/1 message

`parse_head` and `Head::body` of `protocol/application/http/codec.rs`: a start line and headers,
each ended by CR LF, and an empty line; and how the body of the message is delimited, which follows from
the status, the method of the request that is answered and the `Content-Length` and
`Transfer-Encoding` headers.

Names, methods and versions are texts of ASCII characters, and stand here as their bytes.
-/

open Except

namespace PacketCraftr.Http

open Messages

def maxHeaderBytes : ℕ := 65536

def maxHeaders : ℕ := 256

def maxStartLine : ℕ := 8192

inductive Limit
  | startLine
  | headerBytes
  | headerCount
  | chunkLine
  | bodyBytes
  | trailerBytes
  deriving DecidableEq, Repr

inductive Error
  | invalid (message : String)
  | limit (limit : Limit)
  deriving DecidableEq, Repr

structure Header where
  name : Bytes
  value : Bytes
  deriving DecidableEq, Repr

inductive StartLine
  | request (method target version : Bytes)
  | response (version : Bytes) (status : ℕ) (reason : Bytes)
  deriving DecidableEq, Repr

structure Head where
  start : StartLine
  headers : List Header
  wire : Bytes
  deriving DecidableEq, Repr

/-- `Body`: how a body is delimited. -/
inductive Body
  | none
  | length (length : ℕ)
  | chunked
  | close
  | tunnel
  deriving DecidableEq, Repr

namespace Head

def status (head : Head) : Option ℕ :=
  match head.start with
  | .response _ status _ => some status
  | .request _ _ _ => none

def values (head : Head) (name : String) : List Bytes :=
  (head.headers.filter fun h => eqIgnoreAsciiCase h.name (ascii name)).map Header.value

end Head

/-! ### Lines -/

def token (c : UInt8) : Bool :=
  isAsciiAlphanumeric c || (ascii "!#$%&'*+-.^_`|~").contains c

section

variable (b : Bytes)

def ows : Bytes := b.dropWhile isBlank

def trim : Bytes := trimEnd isBlank (ows b)

/-- A digit added to a number of type `u64`, unless it overflows. -/
def checkedDigit (base n digit : ℕ) : Option ℕ :=
  if n * base + digit < 2 ^ 64 then some (n * base + digit) else none

/-- What stands before the first separator, and what stands behind it. -/
def splitOnce (separator : UInt8) : Bytes → Bytes × Option Bytes
  | [] => ([], none)
  | c :: rest =>
    if c = separator then ([], some rest)
    else
      let (part, behind) := splitOnce separator rest
      (c :: part, behind)

def split (separator : UInt8) : Bytes → List Bytes
  | [] => [[]]
  | c :: rest =>
    if c = separator then [] :: split separator rest
    else
      match split separator rest with
      | [] => [[c]]
      | part :: parts => (c :: part) :: parts

/-- Whether some CR is not followed by LF, or some LF does not follow CR, behind `previous`. -/
def hasBareEnding (previous : Option UInt8) : Bytes → Bool
  | [] => false
  | c :: rest =>
    (c == lf && previous != some cr) || (c == cr && rest.head?.any (· != lf)) ||
      hasBareEnding (some c) rest

def validateLineEndings : Except Error Unit :=
  rejectIf (hasBareEnding none b) (.invalid "uses a bare CR or LF")

def version : Except Error Bytes :=
  if b = ascii "HTTP/1.0" ∨ b = ascii "HTTP/1.1" then .ok b
  else .error (.invalid "version is not HTTP/1.0 or HTTP/1.1")

/-- A control byte, which a value may not contain. -/
def isControl (c : UInt8) : Bool := (c < 32 && c != 9) || c == 127

def parseStatusLine : Except Error StartLine := do
  let (first, rest) := splitOnce 32 b
  let version ← version first
  let (status, reason) := splitOnce 32 (rest.getD [])
  let reason ← okOr reason (.invalid "status line lacks a reason separator")
  rejectIf (status.length ≠ 3 ∨ !status.all isAsciiDigit)
    (.invalid "status code is not three digits")
  let code := decimal status
  rejectIf (¬ (100 ≤ code ∧ code < 600) ∨ reason.any isControl)
    (.invalid "status line contains an invalid value")
  pure (.response version code reason)

def parseRequestLine : Except Error StartLine := do
  let parts := split 32 b
  let method := parts.getD 0 []
  let target := parts.getD 1 []
  let protocol := parts.getD 2 []
  rejectIf
    (3 < parts.length ∨ method.isEmpty ∨ !method.all token ∨ target.isEmpty ∨
      target.any fun c => c ≤ 32 || c == 127)
    (.invalid "request line is malformed")
  let version ← version protocol
  pure (.request method target version)

def parseStart : Except Error StartLine :=
  if ascii "HTTP/" <+: b then parseStatusLine b else parseRequestLine b

end

/-- The loop of `parse_headers`. -/
def headersLoop : ℕ → Bytes → List Header → Except Error (List Header)
  | 0, _, headers => .ok headers
  | fuel + 1, b, headers =>
    if b = [] then .ok headers
    else do
      let stop ← okOr (Search.position crlf b) (.invalid "has an incomplete header line")
      rejectIf (stop = 0) (.invalid "has an unexpected empty header line")
      rejectIf (maxHeaders ≤ headers.length) (.limit .headerCount)
      let line := b.take stop
      let colon ← okOr (Search.position [58] line) (.invalid "header has no colon")
      let name := line.take colon
      let value := trim (line.drop (colon + 1))
      rejectIf (name.isEmpty ∨ !name.all token)
        (.invalid "header name is not a token (folding is unsupported)")
      rejectIf (value.any isControl) (.invalid "header value contains a control byte")
      headersLoop fuel (b.drop (stop + 2)) (headers ++ [⟨name, value⟩])

/-- `parse_headers`. Every turn of its loop takes a line, so that there are fewer turns than
bytes. -/
def parseHeaders (b : Bytes) : Except Error (List Header) := headersLoop (b.length + 1) b []

/-- The last place where a pattern stands. -/
def lastPosition (pattern b : Bytes) : Option ℕ :=
  ((List.range (b.length + 1)).filter fun i => pattern <+: b.drop i).getLast?

/-- `parse_head` of a block without an empty line: it may still become a head. -/
def parseOpenHead (b : Bytes) : Except Error (Option (Head × ℕ)) := do
  rejectIf (maxHeaderBytes ≤ b.length) (.limit .headerBytes)
  rejectIf (lf ∉ b ∧ maxStartLine < b.length) (.limit .startLine)
  validateLineEndings b
  match Search.position crlf b with
  | none => pure none
  | some first => do
    rejectIf (maxStartLine < first) (.limit .startLine)
    let _ ← parseStart (b.take first)
    let last := (lastPosition crlf b).getD first
    let _ ← parseHeaders (slice b (first + 2) (last + 2))
    pure none

/-- `parse_head` of a block whose first empty line ends at `stop`. -/
def parseClosedHead (b : Bytes) (stop : ℕ) : Except Error (Option (Head × ℕ)) := do
  rejectIf (maxHeaderBytes < stop) (.limit .headerBytes)
  validateLineEndings (b.take stop)
  let first ← okOr (Search.position crlf (b.take stop)) (.invalid "lacks a start line")
  rejectIf (maxStartLine < first) (.limit .startLine)
  let start ← parseStart (b.take first)
  let headers ← parseHeaders (slice b (first + 2) (stop - 2))
  pure (some (⟨start, headers, b.take stop⟩, stop))

def parseHead (b : Bytes) : Except Error (Option (Head × ℕ)) :=
  match Search.position crlfCrlf (b.take maxHeaderBytes) with
  | none => parseOpenHead b
  | some offset => parseClosedHead b (offset + 4)

/-! ### How the body is delimited -/

def takeToken (b : Bytes) : Bytes × Bytes := b.span token

/-- `quoted_string`, behind the opening quote. -/
def quotedString : Bytes → Except Error Bytes
  | [] => .error (.invalid "has an unterminated transfer coding parameter")
  | [c] =>
    if c = 34 then .ok [] else .error (.invalid "has an unterminated transfer coding parameter")
  | c :: d :: rest =>
    if c = 92 then quotedString rest
    else if c = 34 then .ok (d :: rest)
    else quotedString (d :: rest)

/-- The parameters behind a transfer coding. -/
def codingParameters : ℕ → Bytes → Except Error Bytes
  | 0, b => .ok b
  | fuel + 1, b =>
    if b.head? = some 59 then do
      let (name, b) := takeToken (ows (b.drop 1))
      rejectIf name.isEmpty (.invalid "has an invalid transfer coding parameter")
      let b := ows b
      rejectIf (b.head? ≠ some 61) (.invalid "has an invalid transfer coding parameter")
      let b := ows (b.drop 1)
      let b ←
        if b.head? = some 34 then quotedString (b.drop 1)
        else do
          let (value, b) := takeToken b
          rejectIf value.isEmpty (.invalid "has an invalid transfer coding parameter")
          pure b
      codingParameters fuel (ows b)
    else .ok b

/-- The loop of `transfer_codings`. -/
def codingsLoop : ℕ → Bytes → List Bytes → Except Error (List Bytes)
  | 0, _, codings => .ok codings
  | fuel + 1, b, codings => do
    let (name, b) := takeToken (ows b)
    rejectIf name.isEmpty (.invalid "has an invalid transfer coding")
    let codings := codings ++ [name.map toAsciiLowercase]
    let b ← codingParameters b.length (ows b)
    match b with
    | [] => pure codings
    | c :: rest =>
      if c = 44 then codingsLoop fuel rest codings
      else .error (.invalid "has an invalid transfer coding")

/-- `transfer_codings`. Every turn of its loops takes at least one byte. -/
def transferCodings (b : Bytes) (codings : List Bytes) : Except Error (List Bytes) :=
  codingsLoop (b.length + 1) b codings

/-- The body of a message with transfer codings. -/
def codedBody (isResponse : Bool) (codings : List Bytes) : Except Error Body := do
  let chunks := codings.count (ascii "chunked")
  rejectIf (1 < chunks ∨ (chunks = 1 ∧ codings.getLast? ≠ some (ascii "chunked")))
    (.invalid "has nonfinal or repeated chunked coding")
  if chunks = 1 then pure .chunked
  else if isResponse then pure .close
  else .error (.invalid "request transfer coding is not chunked")

/-- One item of a `Content-Length` header, after the items before it. -/
def contentLengthItem (length : Option ℕ) (item : Bytes) : Except Error (Option ℕ) := do
  let item := trim item
  rejectIf (item.isEmpty ∨ !item.all isAsciiDigit) (.invalid "has an invalid Content-Length")
  let parsed ← okOr (item.foldlM (fun n d => checkedDigit 10 n (d.toNat - 48)) 0)
    (.invalid "Content-Length overflows")
  rejectIf (length.any (· != parsed)) (.invalid "has conflicting Content-Length values")
  pure (some parsed)

/-- Whether the message has no body, or is the last of its connection, whatever its headers say. -/
def bodyOfStatus (status : Option ℕ) (requestMethod : Option Bytes) : Option Body :=
  match status with
  | none => none
  | some status =>
    if status = 101 ∨
        (requestMethod = some (ascii "CONNECT") ∧ 200 ≤ status ∧ status < 300) then
      some .tunnel
    else if requestMethod = some (ascii "HEAD") ∨ (100 ≤ status ∧ status < 200) ∨ status = 204 ∨
        status = 304 then
      some .none
    else none

def Head.body (head : Head) (requestMethod : Option Bytes) : Except Error Body :=
  match bodyOfStatus head.status requestMethod with
  | some body => .ok body
  | none => do
    let lengths := head.values "content-length"
    let encodings := head.values "transfer-encoding"
    rejectIf (!lengths.isEmpty ∧ !encodings.isEmpty)
      (.invalid "has both Transfer-Encoding and Content-Length")
    if !encodings.isEmpty then do
      let codings ← encodings.foldlM (fun codings value => transferCodings value codings) []
      codedBody head.status.isSome codings
    else do
      let length ← (lengths.flatMap (split 44)).foldlM contentLengthItem none
      pure (length.elim (if head.status.isSome then .close else .none) .length)

/-- A block that ends with an empty line, within the bound on its length, is a head or is
refused. -/
theorem parseHead_ne_none {b : Bytes} (hl : b.length ≤ maxHeaderBytes)
    (hend : crlfCrlf <:+ b) : parseHead b ≠ .ok none := by
  obtain ⟨front, rfl⟩ := hend
  rw [parseHead, List.take_of_length_le hl]
  cases hf : Search.position crlfCrlf (front ++ crlfCrlf) with
  | none =>
    have hnot := Search.not_prefix_of_position_eq_none hf front.length
    rw [List.drop_left] at hnot
    exact absurd List.prefix_rfl hnot
  | some o =>
    intro h
    dsimp only at h
    obtain ⟨-, -, h⟩ := bind_eq_ok.mp h
    obtain ⟨-, -, h⟩ := bind_eq_ok.mp h
    obtain ⟨first, -, h⟩ := bind_eq_ok.mp h
    obtain ⟨-, -, h⟩ := bind_eq_ok.mp h
    obtain ⟨start, -, h⟩ := bind_eq_ok.mp h
    obtain ⟨headers, -, h⟩ := bind_eq_ok.mp h
    cases h

end PacketCraftr.Http
