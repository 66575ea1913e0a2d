import PacketCraftr.Messages.Limits
import PacketCraftr.Messages.Resumption

/-!
# Messages out of one direction of a stream

`Collector::data` of `analysis/messages.rs`, for one direction of one connection: each delivery is
appended to a buffer, and the framer takes messages from the front of it. Bytes that were taken
stay in the buffer until it has no room for a delivery; then it is compacted. A framing failure
emits what is in the buffer and disables the direction. An AMQP protocol header of another version
makes the rest of the connection opaque.

What the codec makes of a message, its sources and the selection of the protocol are left out, and
the other directions with them: their buffers would count against the same limits.
-/

open List

namespace PacketCraftr.Messages

/-- What is emitted: a message that was framed, or what was in the buffer at a framing failure. -/
inductive Output
  | message (wire : Bytes)
  | failure (error : CodecError) (wire : Bytes)
  deriving DecidableEq, Repr

/-- `Collector` and its `Direction`, for one direction. -/
structure Collector where
  limits : Limits
  protocol : BuiltinProtocol
  buffer : Bytes := []
  offset : ℕ := 0
  /-- `Vec::capacity` of the buffer. -/
  capacity : ℕ := 0
  framer : Framer
  disabled : Bool := false
  /-- `Connection::unsupported_amqp`. -/
  unsupportedAmqp : Bool := false
  buffered : ℕ := 0
  retained : ℕ := 0
  messages : ℕ := 0
  output : List Output := []
  deriving DecidableEq, Repr

def newFramer (protocol : BuiltinProtocol) : Framer := .new protocol.framing protocol.asStr

/-- An AMQP protocol header of another version. -/
def isUnsupportedPreface (protocol : BuiltinProtocol) (wire : Bytes) : Bool :=
  protocol = .amqp && decide (amqpPreface.take 4 <+: wire) && decide (wire ≠ amqpPreface)

namespace Collector

/-- A direction that has received nothing. -/
def new (limits : Limits) (protocol : BuiltinProtocol) : Collector :=
  { limits, protocol, framer := newFramer protocol }

section

variable (c : Collector)

def compactBuffer : Collector :=
  { c with buffer := c.buffer.drop c.offset, offset := 0 }

def reserveBuffer (additional : ℕ) : Except LimitError Collector :=
  if additional ≤ c.capacity - c.buffer.length then .ok c
  else
    let c := c.compactBuffer
    let needed := c.buffer.length + additional
    if needed ≤ c.capacity then .ok c
    else do
      c.limits.checkBuffer needed
      let target := max needed (min (c.capacity * 2) c.limits.maxBufferBytes)
      c.limits.checkBuffer target
      pure { c with capacity := target }

def emit (wire : Bytes) (output : Output) : Except LimitError Collector := do
  c.limits.checkMessages c.messages
  let retained := c.retained + Limits.decodedCharge wire.length
  c.limits.checkRetained retained
  pure { c with retained, messages := c.messages + 1, output := c.output ++ [output] }

/-- `Collector::decode`, as far as framing depends on it. -/
def decode (wire : Bytes) : Collector :=
  if isUnsupportedPreface c.protocol wire then { c with unsupportedAmqp := true } else c

/-- `n` bytes are taken from the front of the buffer. -/
def advance (n : ℕ) : Collector :=
  { c with
    offset := c.offset + n
    buffered := c.buffered - n
    framer := newFramer c.protocol }

/-- `Collector::flush` at a framing failure, which disables the direction. -/
def fail (error : CodecError) : Except LimitError Collector := do
  let wire := c.buffer.drop c.offset
  let c ← c.emit wire (.failure error wire)
  pure
    { c with
      buffered := c.buffered - wire.length
      capacity := 0
      buffer := []
      offset := 0
      disabled := true }

end

/-- The loop of `Collector::data`. -/
def frameLoop : ℕ → Collector → Except LimitError Collector
  | 0, c => .ok c
  | fuel + 1, c =>
    if c.offset < c.buffer.length ∧ c.disabled = false ∧ c.unsupportedAmqp = false then
      match c.framer.progress (c.buffer.drop c.offset) c.limits.maxBufferBytes with
      | .ok (.skip skipped, _) => frameLoop fuel (c.advance skipped)
      | .ok (.message len, _) =>
        if len = 0 then .error ⟨"zero_length_message", 0⟩
        else do
          let wire := slice c.buffer c.offset (c.offset + len)
          let c ← (c.decode wire).emit wire (.message wire)
          frameLoop fuel (c.advance len)
      | .ok (.incomplete, framer) => .ok { c with framer }
      | .error (.bufferLimit limit) => .error ⟨"max_buffer_bytes", limit⟩
      | .error (.codec error) => c.fail error
    else .ok c

variable (c : Collector)

/-- A buffer of which everything was taken is cleared. -/
def clearTaken : Collector :=
  if c.offset = c.buffer.length then { c with buffer := [], offset := 0 } else c

/-- `Collector::data`. Every turn of its loop takes at least one byte. -/
def data (bytes : Bytes) : Except LimitError Collector :=
  if c.disabled then .ok c
  else do
    c.limits.checkBuffer (c.buffered + bytes.length)
    let c ← c.reserveBuffer bytes.length
    let c : Collector :=
      { c with buffer := c.buffer ++ bytes, buffered := c.buffered + bytes.length }
    let c ← c.frameLoop (c.buffer.length + 1)
    pure c.clearTaken

/-- The deliveries of a stream, one after the other. -/
def collect (deliveries : List Bytes) : Except LimitError Collector :=
  deliveries.foldlM data c

/-- The messages that were framed. -/
def wires : List Bytes :=
  c.output.filterMap fun
    | .message wire => some wire
    | .failure _ _ => none

end Collector

/-! ### The machine of a stream -/

/-- What has been taken from a stream. -/
structure Seen where
  pieces : List Piece := []
  opaqueRest : Bool := false
  failed : Bool := false
  deriving DecidableEq, Repr

/-- The messages among the pieces. -/
def Seen.messages (s : Seen) : List Bytes := (s.pieces.filter Piece.isMessage).map Piece.bytes

/-- The framing of a stream: pieces are taken until one fails or makes the rest opaque. -/
def streamMachine (protocol : BuiltinProtocol) : Framing.Machine UInt8 Piece Unit Seen where
  parse _ := front protocol.framing protocol.asStr
  halted s := s.opaqueRest || s.failed
  apply s p :=
    { s with
      pieces := s.pieces ++ [p]
      opaqueRest := s.opaqueRest || (p.isMessage && isUnsupportedPreface protocol p.bytes) }
  fail s _ := { s with failed := true }
  frame_pos h := (front_frame h).1
  frame_le h := (front_frame h).2.1
  frame_append h := (front_frame h).2.2.2
  fail_append h := front_fail h
  halted_fail s _ := Bool.or_true s.opaqueRest

theorem framing_of_streamDecode {protocol : BuiltinProtocol} (h : protocol.streamDecode = true) :
    protocol.framing ≠ .datagram ∧ protocol.framing ≠ .lacp := by
  revert h
  cases protocol <;> decide

/-- The collector has taken the pieces that the machine has, and holds the bytes it has left. -/
structure Collector.Follows (c : Collector) (protocol : BuiltinProtocol) (s : Seen)
    (held : Bytes) : Prop where
  protocol_eq : c.protocol = protocol
  unsupportedAmqp : c.unsupportedAmqp = s.opaqueRest
  disabled : c.disabled = s.failed
  wires : c.wires = s.messages
  buffer_eq : s.failed = false → c.offset ≤ c.buffer.length ∧ c.buffer.drop c.offset = held
  framer : s.failed = false →
    ∃ seen, seen <+: held ∧ c.framer.Resumes protocol.framing protocol.asStr seen

namespace Collector

variable {p : BuiltinProtocol} {c c' : Collector} {s : Seen} {held : Bytes}

theorem emit_ok {wire : Bytes} {output : Output} (h : c.emit wire output = .ok c') :
    ∃ retained, c' = { c with
      retained := retained, messages := c.messages + 1, output := c.output ++ [output] } := by
  obtain ⟨-, -, h⟩ := Except.bind_eq_ok.mp h
  obtain ⟨-, -, h⟩ := Except.bind_eq_ok.mp h
  cases h
  exact ⟨_, rfl⟩

theorem wires_append (c : Collector) (output : Output) :
    wires { c with output := c.output ++ [output] } =
      c.wires ++ (match output with | .message wire => [wire] | .failure _ _ => []) := by
  unfold wires
  rw [filterMap_append]
  cases output <;> rfl

theorem Follows.halted_iff (h : c.Follows p s held) :
    (streamMachine p).halted s = false ↔ c.disabled = false ∧ c.unsupportedAmqp = false := by
  show (s.opaqueRest || s.failed) = false ↔ _
  rw [h.disabled, h.unsupportedAmqp, Bool.or_eq_false_iff, and_comm]

section

variable {n : ℕ} (h : c.Follows p s held) (hs : s.failed = false) (hn : n ≤ held.length)
include h hs hn

theorem Follows.advance {s' : Seen} (hf : s'.failed = s.failed)
    (hbl : c'.unsupportedAmqp = s'.opaqueRest) (hw : c'.wires = s'.messages)
    (hp : c'.protocol = c.protocol) (hd : c'.disabled = c.disabled)
    (hb : c'.buffer = c.buffer) (ho : c'.offset = c.offset) :
    (c'.advance n).Follows p s' (held.drop n) := by
  obtain ⟨hle, hh⟩ := h.buffer_eq hs
  have hl : held.length = c.buffer.length - c.offset := by rw [← hh, length_drop]
  refine ⟨hp.trans h.protocol_eq, hbl, ?_, hw, fun _ => ⟨?_, ?_⟩, fun _ => ?_⟩
  · exact hd.trans (h.disabled.trans hf.symm)
  · show c'.offset + n ≤ c'.buffer.length
    rw [hb, ho]
    omega
  · show c'.buffer.drop (c'.offset + n) = held.drop n
    rw [hb, ho, ← hh, drop_drop]
  · refine ⟨[], nil_prefix, ?_⟩
    show (newFramer c'.protocol).Resumes _ _ []
    rw [hp, h.protocol_eq]
    exact Framer.resumes_new _ _

theorem Follows.skip : (c.advance n).Follows p ((streamMachine p).apply s ⟨false, held.take n⟩)
      (held.drop n) := by
  have hb : c.unsupportedAmqp = (s.opaqueRest || false) := by
    rw [Bool.or_false, h.unsupportedAmqp]
  have hw : c.wires = ((streamMachine p).apply s ⟨false, held.take n⟩).messages := by
    refine h.wires.trans ?_
    show s.messages =
      ((s.pieces ++ [Piece.mk false (held.take n)]).filter Piece.isMessage).map Piece.bytes
    rw [filter_append, map_append]
    exact (append_nil _).symm
  exact h.advance hs hn rfl hb hw rfl rfl rfl rfl

theorem Follows.message {d : Collector}
    (he : (c.decode (held.take n)).emit (held.take n) (.message (held.take n)) = .ok d) :
    (d.advance n).Follows p ((streamMachine p).apply s ⟨true, held.take n⟩) (held.drop n) := by
  obtain ⟨r, rfl⟩ := emit_ok he
  obtain ⟨u, hd, hu⟩ : ∃ u, c.decode (held.take n) = { c with unsupportedAmqp := u } ∧
      u = (s.opaqueRest || isUnsupportedPreface p (held.take n)) := by
    unfold decode
    rw [← h.protocol_eq, ← h.unsupportedAmqp]
    split_ifs with hp
    · exact ⟨true, rfl, by rw [hp, Bool.or_true]⟩
    · exact ⟨c.unsupportedAmqp, rfl, by rw [eq_false_of_ne_true hp, Bool.or_false]⟩
  rw [hd]
  have hw : c.wires ++ [held.take n] =
      ((streamMachine p).apply s ⟨true, held.take n⟩).messages := by
    rw [h.wires]
    show s.messages ++ [held.take n] =
      ((s.pieces ++ [Piece.mk true (held.take n)]).filter Piece.isMessage).map Piece.bytes
    rw [filter_append, map_append]
    rfl
  exact h.advance hs hn rfl hu ((wires_append c _).trans hw) rfl rfl rfl rfl

end

theorem Follows.fail (h : c.Follows p s held) {error : CodecError} (hf : c.fail error = .ok c') :
    c'.Follows p { s with failed := true } held := by
  obtain ⟨d, he, hf⟩ := Except.bind_eq_ok.mp hf
  obtain ⟨r, rfl⟩ := emit_ok he
  cases hf
  refine ⟨h.protocol_eq, h.unsupportedAmqp, rfl, ?_, nofun, nofun⟩
  exact (wires_append c _).trans ((append_nil _).trans h.wires)

/-- The loop is a run of the machine. -/
theorem frameLoop_follows (hst : p.streamDecode = true) {fuel : ℕ}
    (h : c.Follows p s held) (hfu : held.length < fuel)
    (hl : c.frameLoop fuel = .ok c') :
    c'.Follows p ((streamMachine p).run s held).1 ((streamMachine p).run s held).2 := by
  obtain ⟨hd, hlc⟩ := framing_of_streamDecode hst
  induction fuel generalizing c s held with
  | zero => exact absurd hfu (Nat.not_lt_zero _)
  | succ fuel ih =>
    rw [frameLoop] at hl
    by_cases hh : (streamMachine p).halted s = true
    · have hsp : ¬ (c.offset < c.buffer.length ∧ c.disabled = false ∧
          c.unsupportedAmqp = false) := by
        rintro ⟨-, hon⟩
        rw [h.halted_iff.mpr hon] at hh
        cases hh
      rw [if_neg hsp] at hl
      cases hl
      rwa [Framing.Machine.run_of_halted hh]
    replace hh := eq_false_of_ne_true hh
    have hfl : s.failed = false := (Bool.or_eq_false_iff.mp hh).2
    obtain ⟨hle, hhd⟩ := h.buffer_eq hfl
    have hlen : held.length = c.buffer.length - c.offset := by rw [← hhd, length_drop]
    by_cases he : held = []
    · have hmr : (streamMachine p).parse s held = .more := by
        rw [he]
        exact front_nil _ _
      rw [if_neg (by rw [he, length_nil] at hlen; omega)] at hl
      cases hl
      rwa [Framing.Machine.run_of_more hmr]
    have hp := length_pos_iff.mpr he
    rw [if_pos ⟨by omega, h.halted_iff.mp hh⟩, hhd] at hl
    obtain ⟨seen, ⟨rest, rfl⟩, hr⟩ := h.framer hfl
    have hm := Framer.progress_meets hd hlc hr rest c.limits.maxBufferBytes
    generalize c.framer.progress (seen ++ rest) c.limits.maxBufferBytes = result at hm hl
    match result with
    | .error (.bufferLimit limit) => cases hl
    | .error (.codec error) =>
      have hfa : (streamMachine p).parse s (seen ++ rest) = .fail () := hm
      rw [Framing.Machine.run_of_fail hh hfa]
      exact h.fail hl
    | .ok (.incomplete, framer) =>
      have hmr : (streamMachine p).parse s (seen ++ rest) = .more := hm.1
      cases hl
      rw [Framing.Machine.run_of_more hmr]
      exact { h with framer := fun _ => ⟨_, prefix_rfl, hm.2⟩ }
    | .ok (.skip n, framer) =>
      have hf : (streamMachine p).parse s (seen ++ rest) =
        .frame n ⟨false, (seen ++ rest).take n⟩ := hm
      have hlt := Framing.Machine.length_drop_lt hf
      rw [Framing.Machine.run_of_frame hh hf]
      exact ih (h.skip hfl (front_frame hm).2.1) (by omega) hl
    | .ok (.message n, framer) =>
      have hf : (streamMachine p).parse s (seen ++ rest) =
        .frame n ⟨true, (seen ++ rest).take n⟩ := hm
      have hlt := Framing.Machine.length_drop_lt hf
      have hw : slice c.buffer c.offset (c.offset + n) = (seen ++ rest).take n := by
        rw [slice, ← hhd, take_drop]
      rw [Framing.Machine.run_of_frame hh hf]
      dsimp only at hl
      rw [if_neg (front_frame hm).1.ne', hw] at hl
      obtain ⟨d, hem, hl⟩ := Except.bind_eq_ok.mp hl
      exact ih (h.message hfl (front_frame hm).2.1 hem) (by omega) hl

theorem reserveBuffer_ok {a : ℕ} (h : c.reserveBuffer a = .ok c') :
    ∃ buffer offset capacity, c' = { c with buffer, offset, capacity } ∧
      buffer.drop offset = c.buffer.drop c.offset ∧
      (c.offset ≤ c.buffer.length → offset ≤ buffer.length) := by
  unfold reserveBuffer at h
  dsimp only at h
  split_ifs at h
  · cases h
    exact ⟨_, _, _, rfl, rfl, id⟩
  · cases h
    exact ⟨_, _, _, rfl, rfl, fun _ => Nat.zero_le _⟩
  · obtain ⟨-, -, h⟩ := Except.bind_eq_ok.mp h
    obtain ⟨-, -, h⟩ := Except.bind_eq_ok.mp h
    cases h
    exact ⟨_, _, _, rfl, rfl, fun _ => Nat.zero_le _⟩

theorem Follows.clearTaken (h : c.Follows p s held) : c.clearTaken.Follows p s held := by
  unfold Collector.clearTaken
  split_ifs with ht
  · refine { h with buffer_eq := fun hs => ⟨le_rfl, ?_⟩ }
    rw [← (h.buffer_eq hs).2, ht, drop_length]
    rfl
  · exact h

theorem data_follows (hst : p.streamDecode = true) {bytes : Bytes}
    (h : c.Follows p s held) (hd : c.data bytes = .ok c') :
    c'.Follows p ((streamMachine p).run s (held ++ bytes)).1
      ((streamMachine p).run s (held ++ bytes)).2 := by
  unfold data at hd
  split_ifs at hd with hds
  · cases hd
    have hf : s.failed = true := h.disabled.symm.trans hds
    have hhl : (streamMachine p).halted s = true := by
      show (s.opaqueRest || s.failed) = true
      rw [hf, Bool.or_true]
    rw [Framing.Machine.run_of_halted hhl]
    have ho : s.failed ≠ false := by rw [hf]; exact nofun
    exact { h with
      buffer_eq := fun hs => absurd hs ho
      framer := fun hs => absurd hs ho }
  have hf : s.failed = false := h.disabled.symm.trans (eq_false_of_ne_true hds)
  obtain ⟨-, -, hd⟩ := Except.bind_eq_ok.mp hd
  obtain ⟨d, hr, hd⟩ := Except.bind_eq_ok.mp hd
  obtain ⟨b, offset, capacity, rfl, hdr, hle⟩ := reserveBuffer_ok hr
  obtain ⟨e, hl, hc⟩ := Except.bind_eq_ok.mp hd
  cases hc
  obtain ⟨hof, hh⟩ := h.buffer_eq hf
  refine Follows.clearTaken (frameLoop_follows hst ?_ ?_ hl)
  · refine { h with buffer_eq := fun _ => ⟨?_, ?_⟩, framer := fun hs => ?_ }
    · show offset ≤ (b ++ bytes).length
      rw [length_append]
      exact (hle hof).trans (Nat.le_add_right _ _)
    · rw [drop_append_of_le_length (hle hof), hdr, hh]
    · obtain ⟨seen, hsn, hrm⟩ := h.framer hs
      exact ⟨seen, hsn.trans (prefix_append _ _), hrm⟩
  · have hlen : held.length = b.length - offset := by
      rw [← hh, ← hdr, length_drop]
    show (held ++ bytes).length < (b ++ bytes).length + 1
    rw [length_append, length_append]
    omega

theorem follows_new (limits : Limits) (p : BuiltinProtocol) : (new limits p).Follows p {} [] where
  protocol_eq := rfl
  unsupportedAmqp := rfl
  disabled := rfl
  wires := rfl
  buffer_eq _ := ⟨le_rfl, rfl⟩
  framer _ := ⟨[], prefix_rfl, Framer.resumes_new _ _⟩

/-- The deliveries of a stream are one run of the machine over the whole of it. -/
theorem collect_follows (hst : p.streamDecode = true) {x : Bytes} {dels : List Bytes}
    (h : c.Follows p ((streamMachine p).run s x).1 ((streamMachine p).run s x).2)
    (hc : c.collect dels = .ok c') :
    c'.Follows p ((streamMachine p).run s (x ++ dels.flatten)).1
      ((streamMachine p).run s (x ++ dels.flatten)).2 := by
  induction dels generalizing c x with
  | nil =>
    cases hc
    rwa [flatten_nil, append_nil]
  | cons bytes dels ih =>
    obtain ⟨d, hd, hc⟩ := Except.bind_eq_ok.mp (foldlM_cons.symm.trans hc)
    have hnx := data_follows hst h hd
    rw [← Framing.Machine.run_append] at hnx
    rw [flatten_cons, ← append_assoc]
    exact ih hnx hc

end Collector

/-! ### Segmentation -/

/-- The pieces and what is left are the stream, and what is skipped is an end of line. -/
def Seen.Covers (x : Bytes) (s : Seen) (held : Bytes) : Prop :=
  (s.pieces.map Piece.bytes).flatten ++ held = x ∧
    ∀ p ∈ s.pieces, p.isMessage = false → p.bytes = crlf

theorem covers_run (protocol : BuiltinProtocol) (x : Bytes) :
    ((streamMachine protocol).run {} x).1.Covers x ((streamMachine protocol).run {} x).2 := by
  refine Framing.Machine.run_invariant (Seen.Covers x) ?_ (fun s y e _ _ h => h) ⟨rfl, nofun⟩
  rintro s y n p - hf ⟨hst, hsk⟩
  refine ⟨?_, fun q hq hm => ?_⟩
  · show ((s.pieces ++ [p]).map Piece.bytes).flatten ++ y.drop n = x
    rw [map_append, flatten_append, append_assoc, map_singleton,
      flatten_singleton, (front_frame hf).2.2.1, take_append_drop, hst]
  · rcases mem_append.mp hq with hq | hq
    · exact hsk q hq hm
    · rw [mem_singleton.mp hq] at hm ⊢
      exact front_skip hf hm

/-- Framing does not depend on segmentation: when one stream is delivered in two ways and no limit
is reached, the same messages are framed, and framing fails in both or in neither. The messages are
pieces of the stream, as it is delivered, from its start, and between them stand ends of line. -/
theorem collect_eq_of_cut (limits : Limits) {protocol : BuiltinProtocol}
    (hstream : protocol.streamDecode = true) {deliveries others : List Bytes}
    (hcut : deliveries.flatten = others.flatten) {c d : Collector}
    (hc : (Collector.new limits protocol).collect deliveries = .ok c)
    (hd : (Collector.new limits protocol).collect others = .ok d) :
    c.wires = d.wires ∧ c.disabled = d.disabled ∧
      ∃ pieces : List Piece,
        c.wires = (pieces.filter Piece.isMessage).map Piece.bytes ∧
          (∀ p ∈ pieces, p.isMessage = false → p.bytes = crlf) ∧
          (pieces.map Piece.bytes).flatten <+: deliveries.flatten := by
  have hnew := Collector.follows_new limits protocol
  have hst : (Collector.new limits protocol).Follows protocol
      ((streamMachine protocol).run {} []).1 ((streamMachine protocol).run {} []).2 := by
    rwa [Framing.Machine.run_of_more (front_nil _ _)]
  have hf := Collector.collect_follows hstream hst hc
  have hsc := Collector.collect_follows hstream hst hd
  rw [← hcut] at hsc
  obtain ⟨hp, hsk⟩ := covers_run protocol deliveries.flatten
  refine ⟨hf.wires.trans hsc.wires.symm, hf.disabled.trans hsc.disabled.symm, _, hf.wires, hsk, ?_⟩
  exact ⟨_, hp⟩

/-- A RESP array and the start of a string behind it, cut within the end of a line. -/
theorem collect_eq_of_cut_in_line :
    ∃ c d,
      (Collector.new ⟨4, 64, 65536⟩ .resp).collect [[42, 49, 13, 10, 58, 55, 13, 10, 43]] = .ok c ∧
        (Collector.new ⟨4, 64, 65536⟩ .resp).collect [[42, 49, 13], [10, 58, 55, 13, 10, 43]] =
          .ok d ∧
        c.wires = d.wires ∧ d.wires = [[42, 49, 13, 10, 58, 55, 13, 10]] := by
  have hst : BuiltinProtocol.streamDecode .resp = true := rfl
  have hc : List.flatten [([42, 49, 13, 10, 58, 55, 13, 10, 43] : Bytes)] =
      List.flatten [[42, 49, 13], [10, 58, 55, 13, 10, 43]] := rfl
  exact ⟨_, _, rfl, rfl, (collect_eq_of_cut ⟨4, 64, 65536⟩ hst hc rfl rfl).1, by decide⟩

end PacketCraftr.Messages
