import PacketCraftr.Foundation.Wire
import PacketCraftr.Foundation.Framing

/-!
# TLS records and handshake messages

`parse_record` and `parse_handshake` of `protocol/application/tls/codec/parse`. A record is a
header of five bytes and a body; a handshake message is a header of four bytes and a body, and
stands in the concatenated bodies of the handshake records, so that it may span several of them.

What the two hellos hold is a function of their bodies; the model is over any such functions, with
summaries of any types.
-/

open List

namespace PacketCraftr.Tls

inductive Outcome (T : Type*)
  | complete (consumed : ℕ) (value : T)
  /-- The total length of input needed, with the bytes already there. -/
  | needMore (minimum : ℕ)
  | malformed (message : String)
  deriving DecidableEq, Repr

structure Record where
  contentType : UInt8
  legacyVersion : ℕ
  body : Bytes
  deriving DecidableEq, Repr

def recordHeaderLen : ℕ := 5

def handshakeHeaderLen : ℕ := 4

def maxRecordBody : ℕ := 16384 + 256

def maxHandshakeBody : ℕ := 128 * 1024

def contentTypeChangeCipherSpec : UInt8 := 20

def contentTypeAlert : UInt8 := 21

def contentTypeHandshake : UInt8 := 22

def contentTypeApplicationData : UInt8 := 23

def minLegacyVersion : ℕ := 0x0300

def maxLegacyVersion : ℕ := 0x0304

def handshakeClientHello : UInt8 := 1

def handshakeServerHello : UInt8 := 2

/-- A word as `{:#06x}` prints it. -/
def hexWord (n : ℕ) : String :=
  let digits := Nat.toDigits 16 n
  "0x" ++ String.ofList (List.replicate (4 - digits.length) '0' ++ digits)

structure RecordHeader where
  contentType : UInt8
  legacyVersion : ℕ
  length : ℕ
  deriving DecidableEq, Repr

def recordHeader (b₀ b₁ b₂ b₃ b₄ : UInt8) : Except String RecordHeader :=
  let legacyVersion := Wire.be16 b₁ b₂
  let length := Wire.be16 b₃ b₄
  if b₀ < contentTypeChangeCipherSpec ∨ contentTypeApplicationData < b₀ then
    .error s!"record content type {b₀} is outside 20..=23"
  else if legacyVersion < minLegacyVersion ∨ maxLegacyVersion < legacyVersion then
    .error ("record version " ++ hexWord legacyVersion ++ " is outside " ++
      hexWord minLegacyVersion ++ "..=" ++ hexWord maxLegacyVersion)
  else if length = 0 then
    .error "record body length is zero"
  else if maxRecordBody < length then
    .error s!"record body of {length} bytes exceeds the limit of {maxRecordBody}"
  else
    .ok ⟨b₀, legacyVersion, length⟩

def parseRecord : Bytes → Outcome Record
  | b₀ :: b₁ :: b₂ :: b₃ :: b₄ :: rest =>
    match recordHeader b₀ b₁ b₂ b₃ b₄ with
    | .error message => .malformed message
    | .ok header =>
      if header.length ≤ rest.length then
        .complete (recordHeaderLen + header.length)
          ⟨header.contentType, header.legacyVersion, rest.take header.length⟩
      else
        .needMore (recordHeaderLen + header.length)
  | _ => .needMore recordHeaderLen

/-- What the bodies of the two hellos hold: `parse_client_hello` with `ClientSummary::new`, and
`parse_server_hello` with `ServerSummary::new` and whether it is a HelloRetryRequest. -/
structure Hellos (C S : Type*) where
  parseClientHello : Bytes → Except String C
  parseServerHello : Bytes → Except String (S × Bool)

inductive Handshake (C S : Type*)
  | clientHello (summary : C)
  | serverHello (summary : S) (isHelloRetryRequest : Bool)
  | other (kind : UInt8) (len : ℕ)
  deriving DecidableEq, Repr

def parseHandshake {C S : Type*} (hellos : Hellos C S) : Bytes → Outcome (Handshake C S)
  | kind :: l₁ :: l₂ :: l₃ :: rest =>
    let length := l₁.toNat * 65536 + l₂.toNat * 256 + l₃.toNat
    if maxHandshakeBody < length then
      .malformed s!"handshake body of {length} bytes exceeds the limit of {maxHandshakeBody}"
    else if rest.length < length then
      .needMore (handshakeHeaderLen + length)
    else
      let body := rest.take length
      let value : Except String (Handshake C S) :=
        if kind = handshakeClientHello then (hellos.parseClientHello body).map .clientHello
        else if kind = handshakeServerHello then
          (hellos.parseServerHello body).map fun hello => .serverHello hello.1 hello.2
        else .ok (.other kind length)
      match value with
      | .ok value => .complete (handshakeHeaderLen + length) value
      | .error message => .malformed message
  | _ => .needMore handshakeHeaderLen

/-! ### The record parser on a longer input -/

theorem recordHeader_length_pos {b₀ b₁ b₂ b₃ b₄ : UInt8} {header : RecordHeader}
    (h : recordHeader b₀ b₁ b₂ b₃ b₄ = .ok header) : 0 < header.length := by
  unfold recordHeader at h
  dsimp only at h
  split_ifs at h with _ _ hz
  cases h
  exact Nat.pos_of_ne_zero hz

variable {x : Bytes} {record : Record}

/-- An input is shorter than a header, or parses as its header says, whatever follows it. -/
theorem parseRecord_cases (x : Bytes) :
    (x.length < recordHeaderLen ∧ parseRecord x = .needMore recordHeaderLen) ∨
      (∃ message, ∀ y, parseRecord (x ++ y) = .malformed message) ∨
      ∃ (header : RecordHeader) (rest : Bytes), 0 < header.length ∧
        x.length = recordHeaderLen + rest.length ∧ ∀ y, parseRecord (x ++ y) =
          if header.length ≤ (rest ++ y).length then
            .complete (recordHeaderLen + header.length)
              ⟨header.contentType, header.legacyVersion, (rest ++ y).take header.length⟩
          else .needMore (recordHeaderLen + header.length) := by
  match x with
  | [] | [_] | [_, _] | [_, _, _] | [_, _, _, _] => exact .inl ⟨by simp [recordHeaderLen], rfl⟩
  | b₀ :: b₁ :: b₂ :: b₃ :: b₄ :: rest =>
    right
    simp only [cons_append, parseRecord]
    cases hh : recordHeader b₀ b₁ b₂ b₃ b₄ with
    | error message => exact .inl ⟨message, fun _ => rfl⟩
    | ok header =>
      refine .inr ⟨header, rest, recordHeader_length_pos hh, ?_, fun _ => rfl⟩
      simp only [length_cons, recordHeaderLen]
      omega

/-- What a complete record says of the input, and what a longer input then holds. -/
theorem parseRecord_complete {n : ℕ} (h : parseRecord x = .complete n record) :
    recordHeaderLen < n ∧ n ≤ x.length ∧ ∀ y, parseRecord (x ++ y) = .complete n record := by
  obtain ⟨-, hx⟩ | ⟨message, hp⟩ | ⟨header, rest, hpos, hl, hp⟩ := parseRecord_cases x
  · cases hx.symm.trans h
  · rw [← append_nil x, hp] at h
    cases h
  · have h₀ := hp []
    rw [append_nil, append_nil, h] at h₀
    split_ifs at h₀ with hle
    cases h₀
    refine ⟨by omega, by omega, fun y => ?_⟩
    rw [hp, if_pos (hle.trans (by simp)), take_append_of_le_length hle]

theorem parseRecord_complete_append {n : ℕ} (h : parseRecord x = .complete n record) (y : Bytes) :
    parseRecord (x ++ y) = .complete n record :=
  (parseRecord_complete h).2.2 y

theorem parseRecord_malformed_append {message : String} (h : parseRecord x = .malformed message)
    (y : Bytes) :
    parseRecord (x ++ y) = .malformed message := by
  obtain ⟨-, hx⟩ | ⟨_, hp⟩ | ⟨header, rest, -, -, hp⟩ := parseRecord_cases x
  · cases hx.symm.trans h
  · rw [← append_nil x, hp] at h
    rw [hp, h]
  · rw [← append_nil x, hp] at h
    split_ifs at h

/-- The parser asks for more than is there, and for no more than the record that comes of it. -/
theorem parseRecord_needMore {m : ℕ} (h : parseRecord x = .needMore m) : x.length < m ∧
      ∀ y n record, parseRecord (x ++ y) = .complete n record → m ≤ n := by
  obtain ⟨hs, hx⟩ | ⟨_, hp⟩ | ⟨header, rest, -, hl, hp⟩ := parseRecord_cases x
  · cases hx.symm.trans h
    exact ⟨hs, fun y n record hy => Nat.le_of_lt (parseRecord_complete hy).1⟩
  · rw [← append_nil x, hp] at h
    cases h
  · have h₀ := hp []
    rw [append_nil, append_nil, h] at h₀
    split_ifs at h₀ with hle
    cases h₀
    refine ⟨by omega, fun y n record hy => ?_⟩
    rw [hp] at hy
    split_ifs at hy
    cases hy
    exact Nat.le_refl _

/-- What the record parser says of the front of a stream of records. -/
def recordFront (x : Bytes) : Framing.Front Record String :=
  match parseRecord x with
  | .complete n record => .frame n record
  | .needMore _ => .more
  | .malformed message => .fail message

theorem recordFront_eq_frame {n : ℕ} :
    recordFront x = .frame n record ↔ parseRecord x = .complete n record := by
  rw [recordFront]
  cases parseRecord x <;> simp

theorem recordFront_eq_fail {message : String} :
    recordFront x = .fail message ↔ parseRecord x = .malformed message := by
  rw [recordFront]
  cases parseRecord x <;> simp

theorem recordFront_eq_more : recordFront x = .more ↔ ∃ m, parseRecord x = .needMore m := by
  rw [recordFront]
  cases parseRecord x <;> simp

end PacketCraftr.Tls
