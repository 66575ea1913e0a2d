import PacketCraftr.Foundation.Wire
import PacketCraftr.Foundation.Outcome
import PacketCraftr.Foundation.Search

/-!
# The head of a text message

`parse_head` and `content_length` of `protocol/application/text_message.rs`: a start line and
headers, each ended by CR LF, and an empty line. A header may be folded over several lines. The
length of the body is read off the `Content-Length` headers, which must agree.
-/

open Except

namespace PacketCraftr.Messages

/-- `codec::Error`, as far as framing makes it. -/
inductive CodecError
  | invalid (protocol message : String)
  | unsupported (protocol message : String)
  deriving DecidableEq, Repr

def cr : UInt8 := 13

def lf : UInt8 := 10

def crlf : Bytes := [cr, lf]

/-- The end of a head. -/
def crlfCrlf : Bytes := [cr, lf, cr, lf]

def slice (b : Bytes) (i j : ℕ) : Bytes := (b.take j).drop i

def isBlank (c : UInt8) : Bool := c == 32 || c == 9

def isAsciiWhitespace (c : UInt8) : Bool := c == 32 || c == 9 || c == 10 || c == 12 || c == 13

def isAsciiDigit (c : UInt8) : Bool := 48 ≤ c && c ≤ 57

def isAsciiAlphanumeric (c : UInt8) : Bool :=
  isAsciiDigit c || (65 ≤ c && c ≤ 90) || (97 ≤ c && c ≤ 122)

def toAsciiLowercase (c : UInt8) : UInt8 := if 65 ≤ c && c ≤ 90 then c + 32 else c

def eqIgnoreAsciiCase (a b : Bytes) : Bool := a.map toAsciiLowercase == b.map toAsciiLowercase

/-- The bytes without those at the end that satisfy a predicate. -/
def trimEnd (p : UInt8 → Bool) (b : Bytes) : Bytes := (b.reverse.dropWhile p).reverse

/-- The bytes of a text of ASCII characters. -/
def ascii (text : String) : Bytes := text.toList.map fun c => UInt8.ofNat c.toNat

/-- The name of `BuiltinProtocol::Sip`. -/
def sipName : String := "sip"

def isToken (protocol : String) (value : Bytes) : Bool :=
  let punctuation := ascii (if protocol = sipName then "-.!%*_+`'~" else "!#$%&'*+-.^_`|~")
  !value.isEmpty && value.all fun c => isAsciiAlphanumeric c || punctuation.contains c

def validateStartLine (name : String) (start : Bytes) : Except CodecError Unit :=
  rejectIf (start.isEmpty || start.any fun c => c == cr || c == lf)
    (.invalid name "invalid start line")

def validName (protocol : String) (key : Bytes) : Bool :=
  let name := trimEnd isAsciiWhitespace key
  isToken protocol name && (key.drop name.length).all isBlank

/-- `valid_value`: an end of line only where a blank follows it. -/
def validValue : Bytes → Bool
  | [] => true
  | [a] => a != cr && a != lf
  | [a, b] => a != cr && a != lf && b != cr && b != lf
  | a :: b :: c :: rest =>
    if a == cr then b == lf && isBlank c && validValue (c :: rest)
    else a != lf && validValue (b :: c :: rest)

/-- A value with every end of line replaced by a space. -/
def unfolded : Bytes → Bytes
  | [] => []
  | [a] => [a]
  | a :: b :: rest => if a = cr ∧ b = lf then 32 :: unfolded rest else a :: unfolded (b :: rest)

/-- The number of a string of decimal digits. -/
def decimal (digits : Bytes) : ℕ := digits.foldl (fun n d => n * 10 + (d.toNat - 48)) 0

def usizeBound : ℕ := 2 ^ 64

/-- The `Content-Length` of a header value. -/
def parseContentLength (name : String) (value : Bytes) : Except CodecError ℕ :=
  let digits := trimEnd isBlank ((unfolded value).dropWhile isBlank)
  if digits.isEmpty || !digits.all isAsciiDigit || usizeBound ≤ decimal digits then
    .error (.invalid name "invalid Content-Length")
  else .ok (decimal digits)

structure Head where
  start : Bytes
  headers : List (Bytes × Bytes)
  length : Option ℕ
  stop : ℕ
  deriving DecidableEq, Repr

/-- The loop over the continuation lines of a header, with where the header's value ends. -/
def continuations (name : String) (b : Bytes) (stop : ℕ) :
    ℕ → ℕ → ℕ → Except CodecError (ℕ × ℕ)
  | 0, pos, valueEnd => .ok (pos, valueEnd)
  | fuel + 1, pos, valueEnd =>
    if pos < stop - 2 ∧ isBlank (b.getD pos 0) then do
      let len ← okOr (Search.position crlf (slice b pos stop))
        (.invalid name "unterminated continuation")
      continuations name b stop fuel (pos + len + 2) (pos + len)
    else .ok (pos, valueEnd)

/-- Whether a header gives the length of the body. -/
def isContentLength (name : String) (key : Bytes) : Bool :=
  let keyName := trimEnd isAsciiWhitespace key
  eqIgnoreAsciiCase keyName (ascii "content-length") ||
    (name == sipName && eqIgnoreAsciiCase keyName (ascii "l"))

def headerLoop (name : String) (b : Bytes) (stop : ℕ) :
    ℕ → ℕ → List (Bytes × Bytes) → Option ℕ → Except CodecError (List (Bytes × Bytes) × Option ℕ)
  | 0, _, headers, length => .ok (headers, length)
  | fuel + 1, pos, headers, length =>
    if pos < stop - 2 then do
      let len ← okOr (Search.position crlf (slice b pos stop))
        (.invalid name "unterminated header")
      let line := slice b pos (pos + len)
      let colon ← okOr (Search.position [58] line) (.invalid name "header lacks colon")
      let key := line.take colon
      let valueStart := pos + colon + 1
      let (pos, valueEnd) ← continuations name b stop fuel (pos + len + 2) (pos + len)
      let value := slice b valueStart valueEnd
      rejectIf (!validName name key || !validValue value) (.invalid name "invalid header")
      let length ←
        if isContentLength name key then do
          let n ← parseContentLength name value
          rejectIf (length.any (· != n)) (.invalid name "conflicting Content-Length")
          pure (some n)
        else pure length
      rejectIf (headers.length == 256) (.invalid name "too many headers")
      headerLoop name b stop fuel pos (headers ++ [(key, value)]) length
    else .ok (headers, length)

/-- `parse_head`. Every turn of its loops takes a line, so that there are fewer turns than bytes. -/
def parseHead (name : String) (b : Bytes) : Except CodecError Head := do
  let offset ← okOr (Search.position crlfCrlf b) (.invalid name "incomplete headers")
  let stop := offset + 4
  rejectIf (65536 < stop) (.invalid name "headers too large")
  let first ← okOr (Search.position crlf (b.take stop)) (.invalid name "missing start line")
  validateStartLine name (b.take first)
  let (headers, length) ← headerLoop name b stop stop (first + 2) [] none
  pure ⟨b.take first, headers, length, stop⟩

def contentLength (name : String) (head : Bytes) : Except CodecError (Option ℕ) := do
  let head ← parseHead name head
  pure head.length

/-- A head that is too long has no length. -/
theorem contentLength_of_too_large (name : String) {b : Bytes} {o : ℕ}
    (h : Search.position crlfCrlf b = some o) (hl : 65536 < o + 4) :
    ∃ e, contentLength name b = .error e := by
  refine ⟨.invalid name "headers too large", ?_⟩
  simp [contentLength, parseHead, h, okOr, rejectIf, hl, bind, Except.bind]

end PacketCraftr.Messages
