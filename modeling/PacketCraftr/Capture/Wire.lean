import PacketCraftr.Capture.Model
import PacketCraftr.Foundation.Outcome

/-!
# Capture files: reading bytes and timestamps

The functions of `capture_file/wire/{primitives,timestamp}.rs`. An input is a byte string, and a
read returns the bytes that it takes and those that are left. A field of a byte string is read at an
offset; every field that is read lies within its string.
-/

namespace PacketCraftr.Capture

/-! ### Reading -/

/-- Read `n` bytes, or nothing at the end of the input. -/
def readExactOrEof (input : Bytes) (n : ℕ) (context : String) :
    Except Error (Option (Bytes × Bytes)) :=
  if n ≤ input.length then .ok (some (input.take n, input.drop n))
  else if input = [] then .ok none
  else .error (.truncated context n input.length)

def readExactCounted (input : Bytes) (n : ℕ) (context : String) : Except Error (Bytes × Bytes) := do
  match ← readExactOrEof input n context with
  | some result => pure result
  | none => .error (.truncated context n 0)

def readExactAppend (input : Bytes) (n : ℕ) (context : String) : Except Error (Bytes × Bytes) :=
  if n ≤ input.length then .ok (input.take n, input.drop n)
  else .error (.truncated context n input.length)

/-- The word of `width` bytes at an offset. -/
def field (e : Endianness) (bytes : Bytes) (offset width : ℕ) : ℕ :=
  Endian.decode e ((bytes.drop offset).take width)

def decodeI64 (e : Endianness) (bytes : Bytes) (offset : ℕ) : Int64 :=
  Int64.ofNat (field e bytes offset 8)

def encodeI64 (e : Endianness) (value : Int64) : Bytes := Endian.encode e 8 value.toUInt64.toNat

def align4 (n : ℕ) : ℕ := (n + 3) / 4 * 4

def validateDeclaredLengths (captured original maxSize : ℕ) (kind : String) :
    Except Error Unit := do
  .rejectIf (original < captured) (.frame (.originalLengthTooSmall captured original))
  .rejectIf (captured > maxSize) (.sizeLimitExceeded kind captured maxSize)

/-! ### Timestamps -/

namespace TimestampResolution

/-- The ticks of a second, when they fit in 128 bits. -/
def ticksPerSecond : TimestampResolution → Option ℕ
  | decimal exponent => if 10 ^ exponent.toNat < 2 ^ 128 then some (10 ^ exponent.toNat) else none
  | binary exponent => if exponent.toNat < 128 then some (2 ^ exponent.toNat) else none

def toTsresol : TimestampResolution → Except Error UInt8
  | decimal exponent =>
    if exponent.toNat < 128 then .ok exponent
    else .error (.invalidTimestampResolution 10 exponent)
  | binary exponent =>
    if exponent.toNat < 128 then .ok (exponent + 128)
    else .error (.invalidTimestampResolution 2 exponent)

def fromTsresol (tsresol : UInt8) : TimestampResolution :=
  if tsresol.toNat < 128 then decimal tsresol else binary (tsresol - 128)

end TimestampResolution

def systemTimeFromSignedUnix (seconds : ℤ) (nanoseconds : ℕ) : Except Error SystemTime :=
  .okOr (SystemTime.ofNanos? (seconds * 1000000000 + nanoseconds)) (.timestampOutOfRange .pcapNg)

/-- The whole seconds and the nanoseconds of a number of ticks. -/
def secondsOfTicks (ticks : ℕ) (resolution : TimestampResolution) : Except Error (ℕ × ℕ) :=
  match resolution.ticksPerSecond with
  | some ticksPerSecond =>
    let scaled := ticks % ticksPerSecond * 1000000000
    if scaled % ticksPerSecond ≠ 0 then
      .error (.metadataNotRepresentable .pcapNg "sub-nanosecond timestamp")
    else .ok (ticks / ticksPerSecond, scaled / ticksPerSecond)
  | none =>
    if ticks ≠ 0 then .error (.metadataNotRepresentable .pcapNg "sub-nanosecond timestamp")
    else .ok (0, 0)

def timestampFromTicks (ticks : ℕ) (resolution : TimestampResolution) (offset : Int64) :
    Except Error SystemTime := do
  let (seconds, nanoseconds) ← secondsOfTicks ticks resolution
  systemTimeFromSignedUnix (seconds + offset.toInt) nanoseconds

/-- The ticks of a time that is `seconds` and `nanoseconds` after the offset, when they are
whole. Products are 128-bit words, and ticks are 64-bit words. -/
def ticksOfSeconds (seconds nanoseconds : ℕ) (resolution : TimestampResolution) :
    Except Error ℕ := do
  let ticksPerSecond ← .okOr resolution.ticksPerSecond (.timestampOutOfRange .pcapNg)
  .rejectIf (nanoseconds * ticksPerSecond ≥ 2 ^ 128) (.timestampOutOfRange .pcapNg)
  .rejectIf (nanoseconds * ticksPerSecond % 1000000000 ≠ 0)
    (.metadataNotRepresentable .pcapNg "timestamp resolution")
  let ticks := seconds * ticksPerSecond + nanoseconds * ticksPerSecond / 1000000000
  .rejectIf (ticks ≥ 2 ^ 128) (.timestampOutOfRange .pcapNg)
  .rejectIf (ticks ≥ 2 ^ 64) (.timestampOutOfRange .pcapNg)
  pure ticks

def timestampToTicks (timestamp : SystemTime) (resolution : TimestampResolution) (offset : Int64) :
    Except Error ℕ :=
  let (unixSeconds, nanoseconds) := timestamp.unixFloor
  let relativeSeconds := unixSeconds - offset.toInt
  if relativeSeconds < 0 then .error (.timestampOutOfRange .pcapNg)
  else if relativeSeconds = 0 ∧ nanoseconds = 0 then .ok 0
  else ticksOfSeconds relativeSeconds.toNat nanoseconds resolution

end PacketCraftr.Capture
