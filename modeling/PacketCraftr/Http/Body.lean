import PacketCraftr.Foundation.Bulk
import PacketCraftr.Http.Head

/-!
# The body of an HTTP/1 message

`BodyDecoder` of `protocol/application/http/codec/body.rs`. A body of known length and the data of a
chunk are taken as far as the input goes; the lines of a chunked body, its trailers among them, are
read byte by byte. The decoder keeps what it changed before an error.
-/

namespace PacketCraftr.Http

open Messages List

inductive BodyState
  | done
  | length (remaining : ℕ)
  | close
  | chunkLine
  | chunk (remaining : ℕ)
  | chunkCr
  | chunkLf
  | trailers
  deriving DecidableEq, Repr

structure BodyDecoder where
  state : BodyState
  line : Bytes := []
  trailerLines : Bytes := []
  trailers : List Header := []
  bytes : ℕ := 0
  maximum : ℕ
  deriving DecidableEq, Repr

structure Progress where
  consumed : ℕ
  complete : Bool
  deriving DecidableEq, Repr

/-! ### Chunk sizes -/

def isAsciiHexdigit (c : UInt8) : Bool :=
  isAsciiDigit c || (65 ≤ c && c ≤ 70) || (97 ≤ c && c ≤ 102)

/-- The number of a hexadecimal digit. -/
def hexDigit (c : UInt8) : ℕ :=
  if isAsciiDigit c then c.toNat - 48
  else if 97 ≤ c && c ≤ 102 then c.toNat - 97 + 10
  else c.toNat - 65 + 10

/-- A chunk extension, with whether it is within a quoted string and behind a backslash there. -/
def validateExtension : Bool → Bool → Bytes → Except Error Unit
  | quoted, escaped, [] =>
    Except.rejectIf (quoted || escaped) (.invalid "chunk extension has an unterminated quote")
  | quoted, escaped, c :: rest =>
    if isControl c then .error (.invalid "chunk extension contains a control byte")
    else if escaped then validateExtension quoted false rest
    else if quoted && c == 92 then validateExtension quoted true rest
    else validateExtension (if c = 34 then !quoted else quoted) false rest

def parseSize (b : Bytes) : Except Error ℕ := do
  let (before, behind) := splitOnce 59 b
  let size := if behind.isSome then trimEnd isBlank before else before
  Except.rejectIf (size.isEmpty ∨ 16 < size.length ∨ !size.all isAsciiHexdigit)
    (.invalid "chunk size is not bounded hexadecimal")
  validateExtension false false (behind.getD [])
  Except.okOr (size.foldlM (fun n d => checkedDigit 16 n (hexDigit d)) 0)
    (.invalid "chunk size overflows")

/-! ### The decoder -/

/-- A trailer that would change how the message is delimited or where it goes. -/
def isFramingTrailer (h : Header) : Bool :=
  ["content-length", "transfer-encoding", "host"].any fun name =>
    eqIgnoreAsciiCase h.name (ascii name)

namespace BodyDecoder

def new (body : Body) (maxBodyBytes : ℕ) : BodyDecoder :=
  { state :=
      match body with
      | .none | .tunnel => .done
      | .length n => if n = 0 then .done else .length n
      | .close => .close
      | .chunked => .chunkLine
    maximum := maxBodyBytes }

variable (b : BodyDecoder)

def bufferedBytes : ℕ :=
  b.line.length + b.trailerLines.length +
    (b.trailers.map fun h => h.name.length + h.value.length).sum

def complete : Bool := b.state = .done

def additionalBufferBound (input : ℕ) : ℕ :=
  match b.state with
  | .done | .length _ | .close => 0
  | _ => min input (maxHeaderBytes + maxStartLine)

def close : BodyDecoder :=
  if b.state = .close then { b with state := .done } else b

/-- A decoder, with the error it has come to, if it has. -/
abbrev Result := BodyDecoder × Option Error

/-- `BodyDecoder::add`, for bytes after which the decoder is in the state `next`. -/
def takeData (take : ℕ) (next : BodyState) : Result × ℕ :=
  if b.bytes + take ≤ b.maximum then
    (({ b with bytes := b.bytes + take, state := next }, none), take)
  else ((b, some (.limit .bodyBytes)), 0)

/-- Data of which `remaining` bytes are left: as much as the input has of it is taken. -/
def takeUpTo (input : Bytes) (remaining : ℕ) (last : BodyState)
    (more : ℕ → BodyState) : Result × ℕ :=
  let take := min remaining input.length
  b.takeData take (if remaining - take = 0 then last else more (remaining - take))

/-- One of the two bytes behind the data of a chunk. -/
def expect (input : Bytes) (byte : UInt8) (next : BodyState) : Result × ℕ :=
  if input.head? = some byte then (({ b with state := next }, none), 1)
  else ((b, some (.invalid "chunk data lacks CRLF")), 0)

/-- The line of a chunk size is complete. -/
def endChunkLine : Result :=
  match parseSize (b.line.take (b.line.length - 2)) with
  | .error e => (b, some e)
  | .ok length =>
    let b := { b with line := [], state := if length = 0 then .trailers else .chunk length }
    (b, if b.maximum - b.bytes < length then some (.limit .bodyBytes) else none)

/-- The empty line behind the trailers is complete. -/
def endTrailers : Result :=
  match parseHeaders b.trailerLines with
  | .error e => (b, some e)
  | .ok trailers =>
    let b := { b with trailers }
    if trailers.any isFramingTrailer then
      (b, some (.invalid "trailer changes framing or routing"))
    else ({ b with line := [], trailerLines := [], state := .done }, none)

/-- The line of a trailer is complete. -/
def endTrailerLine : Result :=
  if maxHeaderBytes < b.trailerLines.length + b.line.length then
    (b, some (.limit .trailerBytes))
  else ({ b with trailerLines := b.trailerLines ++ b.line, line := [] }, none)

/-- Whether a byte behind a line is a CR or LF without the other, or stands behind such a CR. -/
def isBare (previous : Option UInt8) (byte : UInt8) : Bool :=
  (previous == some cr && byte != lf) || (byte == lf && previous != some cr)

/-- A byte of the line of a chunk size or a trailer. -/
def lineByte (byte : UInt8) : Result :=
  if maxStartLine ≤ b.line.length then (b, some (.limit .chunkLine))
  else if isBare b.line.getLast? byte then
    (b, some (.invalid "chunk or trailer line uses bare CR/LF"))
  else
    let b := { b with line := b.line ++ [byte] }
    if crlf <:+ b.line then
      if b.state = .chunkLine then b.endChunkLine
      else if b.line.length = 2 then b.endTrailers
      else b.endTrailerLine
    else (b, none)

/-- The loop body of `BodyDecoder::consume`, and how much of the input it takes. -/
def turn (input : Bytes) : Result × ℕ :=
  match b.state with
  | .done => ((b, none), 0)
  | .length remaining => b.takeUpTo input remaining .done .length
  | .chunk remaining => b.takeUpTo input remaining .chunkCr .chunk
  | .close => b.takeData input.length .close
  | .chunkCr => b.expect input cr .chunkLf
  | .chunkLf => b.expect input lf .chunkLine
  | .chunkLine | .trailers => (b.lineByte (input.headD 0), 1)

end BodyDecoder

/-- The loop of `BodyDecoder::consume`, which ends at an error. -/
def bodyReader : Bulk.Reader UInt8 BodyDecoder.Result where
  halted s := s.1.complete || s.2.isSome
  turn s input := s.1.turn input

/-- `BodyDecoder::consume`, with the decoder that it leaves. -/
def BodyDecoder.consume (b : BodyDecoder) (input : Bytes) :
    BodyDecoder × Except Error Progress :=
  let (s, consumed) := bodyReader.drive (b, none) input
  (s.1, match s.2 with | some e => .error e | none => .ok ⟨consumed, s.1.complete⟩)

theorem BodyDecoder.consume_eq (b : BodyDecoder) (i : Bytes) :
    b.consume i = ((bodyReader.drive (b, none) i).1.1, match (bodyReader.drive (b, none) i).1.2 with
      | some e => .error e
      | none =>
        .ok ⟨(bodyReader.drive (b, none) i).2, (bodyReader.drive (b, none) i).1.1.complete⟩) := rfl

/-! ### Splitting a turn -/

namespace BodyDecoder

variable {b b' : BodyDecoder} {x : Bytes} {a : UInt8}

/-- Data that is left to take is within the limit of the body. -/
def Sound (b : BodyDecoder) : Prop :=
  match b.state with
  | .length remaining | .chunk remaining => 0 < remaining ∧ b.bytes + remaining ≤ b.maximum
  | _ => True

/-- The decoder is sound as long as it has come to no error. -/
def Result.Sound (s : Result) : Prop := s.2 = none → s.1.Sound

/-- The decoder has come to an error. -/
def Result.Failed (s : Result) : Prop := s.2.isSome = true

/-- The limit of the body is reached. -/
def Result.Full (s : Result) : Prop := s.2 = some (.limit .bodyBytes)

theorem takeData_of_le {take : ℕ} {next : BodyState} (h : b.bytes + take ≤ b.maximum) :
    b.takeData take next = (({ b with bytes := b.bytes + take, state := next }, none), take) := by
  rw [takeData, if_pos h]

theorem sound_endChunkLine : Result.Sound b.endChunkLine := by
  unfold endChunkLine
  split
  · exact nofun
  · rename_i length _
    intro ho
    have hr : ¬ b.maximum - b.bytes < length := by
      intro hf
      dsimp only at ho
      rw [if_pos hf] at ho
      cases ho
    dsimp only
    by_cases hz : length = 0
    · rw [if_pos hz]
      trivial
    · rw [if_neg hz]
      show 0 < length ∧ b.bytes + length ≤ b.maximum
      omega

theorem sound_lineByte (hb : b.state = .chunkLine ∨ b.state = .trailers) (byte : UInt8) :
    Result.Sound (b.lineByte byte) := by
  have hk : ∀ {c : BodyDecoder}, c.state = b.state → c.Sound := by
    intro c hc
    unfold Sound
    rcases hb with hb | hb <;> rw [hc, hb] <;> trivial
  unfold lineByte
  split_ifs
  · exact nofun
  · exact nofun
  · dsimp only
    split_ifs
    · exact sound_endChunkLine
    · unfold endTrailers
      split
      · exact nofun
      · dsimp only
        split_ifs
        · exact nofun
        · exact fun _ => trivial
    · unfold endTrailerLine
      split_ifs
      · exact nofun
      · exact fun _ => hk rfl
    · exact fun _ => hk rfl

/-- A turn keeps the decoder sound. It takes something of the input, or comes to an error. -/
theorem turn_spec (hb : b.Sound) (hon : b.complete = false) (hx : x ≠ []) :
    (b.turn x).1.Sound ∧ (0 < (b.turn x).2 ∧ (b.turn x).2 ≤ x.length ∨
      (b.turn x).1.2.isSome = true) := by
  have hl : 0 < x.length := length_pos_iff.mpr hx
  unfold Sound at hb
  unfold turn
  cases hs : b.state with
  | done => rw [complete, hs] at hon; cases hon
  | length remaining | chunk remaining =>
    rw [hs] at hb
    dsimp only at hb ⊢
    rw [takeUpTo, takeData_of_le (by omega)]
    refine ⟨fun _ => ?_, .inl ⟨show 0 < min remaining x.length by omega, Nat.min_le_right _ _⟩⟩
    dsimp only
    split_ifs with hls
    · trivial
    · show 0 < remaining - _ ∧ b.bytes + _ + (remaining - _) ≤ b.maximum
      omega
  | close =>
    dsimp only
    unfold takeData
    split_ifs
    · exact ⟨fun _ => trivial, .inl ⟨hl, Nat.le_refl _⟩⟩
    · exact ⟨nofun, .inr rfl⟩
  | chunkCr | chunkLf =>
    dsimp only
    unfold expect
    split_ifs
    · exact ⟨fun _ => trivial, .inl ⟨Nat.one_pos, hl⟩⟩
    · exact ⟨nofun, .inr rfl⟩
  | chunkLine => exact ⟨sound_lineByte (.inl hs) _, .inl ⟨Nat.one_pos, hl⟩⟩
  | trailers => exact ⟨sound_lineByte (.inr hs) _, .inl ⟨Nat.one_pos, hl⟩⟩

theorem takeData_succ {k : ℕ} {next mid : BodyState} (h : b.bytes + (k + 1) ≤ b.maximum) :
    b.takeData (k + 1) next = (({ b with bytes := b.bytes + 1, state := mid }.takeData k next).1,
        ({ b with bytes := b.bytes + 1, state := mid }.takeData k next).2 + 1) := by
  rw [takeData_of_le h, takeData_of_le (show b.bytes + 1 + k ≤ b.maximum by omega)]
  simp only [Nat.add_assoc, Nat.add_comm 1 k]

/-- A decoder that has taken one byte of data. -/
def afterByte (b : BodyDecoder) (next : BodyState) : BodyDecoder :=
  { b with bytes := b.bytes + 1, state := next }

/-- The last byte of the data is taken, or it is taken and then the rest. -/
theorem takeUpTo_cons {remaining : ℕ} {last : BodyState} {more : ℕ → BodyState} (a : UInt8)
    (x : Bytes) (hp : 0 < remaining) (hle : b.bytes + remaining ≤ b.maximum) :
    b.takeUpTo (a :: x) remaining last more = b.takeUpTo [a] remaining last more ∨
      ∃ r, b.takeUpTo [a] remaining last more = ((b.afterByte (more r), none), 1) ∧
        b.takeUpTo (a :: x) remaining last more =
          (((b.afterByte (more r)).takeUpTo x r last more).1,
            ((b.afterByte (more r)).takeUpTo x r last more).2 + 1) := by
  obtain ⟨r, rfl⟩ : ∃ r, remaining = r + 1 := ⟨remaining - 1, by omega⟩
  have hf : min (r + 1) [a].length = 1 := Nat.min_eq_right (Nat.le_add_left 1 r)
  have hm : min (r + 1) (a :: x).length = min r x.length + 1 := by
    rw [length_cons]
    omega
  by_cases hl : r = 0
  · left
    rw [takeUpTo, takeUpTo, hm, hl, Nat.zero_min]
    rfl
  · refine .inr ⟨r, ?_, ?_⟩
    · rw [takeUpTo, hf, takeData_of_le (by omega), Nat.add_sub_cancel, if_neg hl]
      rfl
    · rw [takeUpTo, takeUpTo, hm, Nat.add_sub_add_right]
      exact takeData_succ (by omega)

theorem turn_singleton (hb : b.Sound) (hon : b.complete = false) (a : UInt8) :
    (b.turn [a]).1.2.isSome = true ∨ (b.turn [a]).2 = 1 := by
  rcases (turn_spec hb hon (cons_ne_nil a [])).2 with ⟨hp, hle⟩ | hf
  · rw [length_singleton] at hle
    exact .inr (Nat.le_antisymm hle hp)
  · exact .inl hf

/-- What a turn does over an input is what it does over the first byte, or it takes more of the
input, and that is what it does then. -/
theorem turn_cons (hb : b.Sound) (hon : b.complete = false) (a : UInt8) {x : Bytes}
    (hg : ¬ Result.Full (b.turn (a :: x)).1) :
    b.turn (a :: x) = b.turn [a] ∨ ∃ b', b.turn [a] = ((b', none), 1) ∧ b'.complete = false ∧
        b.turn (a :: x) = ((b'.turn x).1, (b'.turn x).2 + 1) := by
  unfold Sound at hb
  unfold turn at hg ⊢
  cases hs : b.state with
  | done => rw [complete, hs] at hon; cases hon
  | length remaining | chunk remaining =>
    rw [hs] at hb
    refine (takeUpTo_cons a x hb.1 hb.2).imp_right ?_
    rintro ⟨r, ho, hrs⟩
    exact ⟨_, ho, rfl, hrs⟩
  | close =>
    rw [hs] at hg
    have hr : b.bytes + (a :: x).length ≤ b.maximum := by
      by_contra hf
      rw [takeData, if_neg hf] at hg
      exact hg rfl
    rw [length_cons] at hr
    refine .inr ⟨b.afterByte .close, takeData_of_le ?_, rfl, takeData_succ hr⟩
    rw [length_singleton]
    omega
  | chunkCr | chunkLf | chunkLine | trailers => exact .inl rfl

end BodyDecoder

/-- The loop goes on as long as the body is not complete and there is no error. -/
theorem bodyReader_halted_eq_false {s : BodyDecoder.Result} :
    bodyReader.halted s = false ↔ s.1.complete = false ∧ s.2 = none := by
  show (s.1.complete || s.2.isSome) = false ↔ _
  rw [Bool.or_eq_false_iff, Option.isSome_eq_false_iff, Option.isNone_iff_eq_none]

theorem bodyReader_halted_of_error {s : BodyDecoder.Result} (h : s.2.isSome = true) :
    bodyReader.halted s = true := by
  show (s.1.complete || s.2.isSome) = true
  rw [h, Bool.or_true]

open BodyDecoder in
/-- A turn can be split after its first byte, unless the limit of the body is reached. -/
theorem splits_bodyReader : bodyReader.Splits Result.Sound Result.Full Result.Failed where
  invariant := by
    intro s x hs hon hx
    obtain ⟨hc, hn⟩ := bodyReader_halted_eq_false.mp hon
    exact (turn_spec (hs hn) hc hx).1
  progress := by
    intro s x hs hon hx
    obtain ⟨hc, hn⟩ := bodyReader_halted_eq_false.mp hon
    exact (turn_spec (hs hn) hc hx).2.imp And.left bodyReader_halted_of_error
  halted_of_bad := by
    intro s _ hf
    exact bodyReader_halted_of_error (by rw [hf]; rfl)
  halted_of_over := by
    intro s _ hfl
    exact bodyReader_halted_of_error hfl
  split := by
    intro s a x hs hon hg
    obtain ⟨hc, hn⟩ := bodyReader_halted_eq_false.mp hon
    have ho := (turn_singleton (hs hn) hc a).imp_left bodyReader_halted_of_error
    by_cases hx : x = []
    · subst hx
      exact .inl ⟨rfl, ho⟩
    rcases turn_cons (hs hn) hc a hg with hsm | ⟨b', htk, hm, hr⟩
    · exact .inl ⟨hsm, ho⟩
    · have ht : bodyReader.turn s [a] = ((b', none), 1) := htk
      have ht' : bodyReader.turn s (a :: x) = ((b'.turn x).1, (b'.turn x).2 + 1) := hr
      rw [ht, ht']
      exact .inr ⟨hx, bodyReader_halted_eq_false.mpr ⟨hm, rfl⟩, rfl, rfl, .inr (Nat.add_comm _ _)⟩

namespace BodyDecoder

variable {b b' : BodyDecoder} {a : UInt8} {x : Bytes}

/-- An input is consumed as its first byte and then, unless that completes the body or is an error,
the rest. -/
theorem consume_cons (hb : b.Sound) (hon : b.complete = false)
    (hg : (b.consume (a :: x)).2 ≠ .error (.limit .bodyBytes)) :
    (∃ b' e, b.consume [a] = (b', .error e) ∧ b.consume (a :: x) = (b', .error e)) ∨
      (∃ b', b'.complete = true ∧ b.consume [a] = (b', .ok ⟨1, true⟩) ∧
        b.consume (a :: x) = (b', .ok ⟨1, true⟩)) ∨
      ∃ b', b'.complete = false ∧ b'.Sound ∧ b.consume [a] = (b', .ok ⟨1, false⟩) ∧
        b.consume (a :: x) = ((b'.consume x).1,
            (b'.consume x).2.map fun p => { p with consumed := p.consumed + 1 }) := by
  have ho : bodyReader.halted (b, none) = false := bodyReader_halted_eq_false.mpr ⟨hon, rfl⟩
  have hsn : Result.Sound (b, none) := fun _ => hb
  have hr : ¬ Result.Full (bodyReader.drive (b, none) (a :: x)).1 := by
    intro hf
    refine hg ?_
    show (match (bodyReader.drive (b, none) (a :: x)).1.2 with
      | some e => .error e
      | none => .ok _) = Except.error (Error.limit .bodyBytes)
    rw [hf]
  have hone := splits_bodyReader.drive_singleton (a := a) hsn ho
  obtain ⟨hs, hc⟩ := splits_bodyReader.drive_cons hsn ho hr
  have ht := turn_singleton hb hon a
  have hk := (turn_spec hb hon (cons_ne_nil a [])).1
  rw [consume_eq, consume_eq, hone]
  rw [show bodyReader.turn (b, none) [a] = b.turn [a] from rfl] at hs hc ⊢
  generalize b.turn [a] = first at ht hk hs hc ⊢
  generalize bodyReader.drive (b, none) (a :: x) = all at hs hc ⊢
  obtain ⟨⟨b', error⟩, n⟩ := first
  obtain ⟨s, consumed⟩ := all
  subst hs
  cases error with
  | some e =>
    rw [Bulk.Reader.drive_of_halted (bodyReader_halted_of_error rfl)]
    exact .inl ⟨b', e, rfl, rfl⟩
  | none =>
    obtain rfl : n = 1 := ht.resolve_left Bool.false_ne_true
    by_cases hcm : b'.complete = true
    · rw [Bulk.Reader.drive_of_halted (by exact Bool.or_eq_true_iff.mpr (.inl hcm))] at hc ⊢
      obtain rfl : consumed = 1 := hc.resolve_left Bool.false_ne_true
      refine .inr (.inl ⟨b', hcm, ?_, ?_⟩) <;> rw [← hcm]
    · have hm := eq_false_of_ne_true hcm
      refine .inr (.inr ⟨b', hm, hk rfl, by rw [← hm], ?_⟩)
      rw [consume_eq]
      cases he : (bodyReader.drive (b', none) x).1.2 with
      | some e => rfl
      | none =>
        have ho' : ¬ Result.Failed (bodyReader.drive (b', none) x).1 := by
          unfold Result.Failed
          rw [he]
          exact Bool.false_ne_true
        rw [hc.resolve_left ho', Nat.add_comm]
        rfl

theorem consume_ok (hb : b.Sound) (hon : b.complete = false) (hx : x ≠ []) {p : Progress}
    (h : b.consume x = (b', .ok p)) : b'.Sound ∧ p.complete = b'.complete ∧ 0 < p.consumed := by
  have ho : bodyReader.halted (b, none) = false := bodyReader_halted_eq_false.mpr ⟨hon, rfl⟩
  have hs : Result.Sound (b, none) := fun _ => hb
  have hk := splits_bodyReader.drive_invariant (x := x) hs
  have hd := splits_bodyReader.drive_turn hs ho hx
  have hp := (turn_spec hb hon hx).2
  rw [consume_eq] at h
  cases he : (bodyReader.drive (b, none) x).1.2 with
  | some e =>
    rw [he] at h
    cases h
  | none =>
    rw [he] at h
    cases h
    refine ⟨hk he, rfl, ?_⟩
    rcases hp with ⟨hpos, -⟩ | hf
    · show 0 < (bodyReader.drive (b, none) x).2
      rw [hd]
      exact Nat.lt_of_lt_of_le hpos (Nat.le_add_right _ _)
    · have hh : bodyReader.halted (bodyReader.turn (b, none) x).1 = true :=
        bodyReader_halted_of_error hf
      rw [hd, Bulk.Reader.drive_of_halted hh] at he
      rw [show (b.turn x).1.2 = none from he] at hf
      cases hf

end BodyDecoder

end PacketCraftr.Http
