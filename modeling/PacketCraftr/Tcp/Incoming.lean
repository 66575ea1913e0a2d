import PacketCraftr.Foundation.FirstArrival
import PacketCraftr.Tcp.State

/-!
# The new part of a segment

The first step of planning a push in `tcp/pending.rs`: the payload is placed in the stream by the
signed distance of its sequence number from the next expected one, what was already delivered is
compared with the history and dropped, and the rest must fit the window of the flow and the end
that a FIN gave it.

`IncomingPayload.Fits` says where the rest of the payload is in the stream: a byte of the segment
is kept exactly when its offset is not below the next expected one, and the first one kept is
then the one at `offset`.
-/

open List Exec FirstArrival

namespace PacketCraftr.Tcp

variable {K : Type}

/-- The part of a segment that the flow has not delivered yet, at its offset. -/
structure IncomingPayload where
  sequence : UInt32
  finOffset : Option ℕ
  payload : Bytes
  payloadStart : ℕ
  offset : ℕ
  remainingEnd : ℕ
  retransmitted : ℕ
  conflicting : Bool

section

variable (state : TcpFlowState)

/-- The sequence number the flow expects next. -/
def TcpFlowState.nextSequence : UInt32 :=
  state.baseSequence + UInt32.ofNat state.nextOffset

variable (segment : Segment K)

/-- The offset of the first payload byte of a segment, negative before the base. -/
def absoluteOffset : ℤ :=
  state.nextOffset + serialOffset segment.firstPayloadSequence state.nextSequence

/-- A FIN fixes the length of the stream. -/
def segmentFinOffset : Option ℕ :=
  if segment.fin then wordOfInt (absoluteOffset state segment + segment.payload.length) else none

/-- A keep-alive probe may carry one arbitrary byte just before the next expected one. -/
def isKeepAliveProbe (offset : ℕ) : Bool :=
  segment.payload.length == 1 && saturatingAdd offset 1 == state.nextOffset &&
    !(segment.syn || segment.fin || segment.rst)

/-- Whether the repeated bytes of a segment that is not a probe conflict with the history. -/
def repeatedConflicts (offset : ℕ)
    (overlap : Bytes) : Exec Error Bool :=
  if isKeepAliveProbe state segment offset then pure false
  else emittedHistoryConflicts state offset overlap

end

section

variable (limits : Limits)

variable (state : TcpFlowState)

def validateSequenceBounds (offset : ℕ)
    (payload : Bytes) (finOffset : Option ℕ) : Exec Error ℕ := do
  let windowEnd ← okOr (checkedAdd state.nextOffset limits.maxBytesPerFlow)
    limits.flowByteError
  let remainingEnd ← okOr (checkedAdd offset payload.length) limits.flowByteError
  whenSome state.finOffset fun finalOffset => do
    whenSome finOffset fun newOffset =>
      rejectIf (newOffset ≠ finalOffset)
        (.malformed (.conflictingFinalSequence finalOffset newOffset))
    rejectIf (remainingEnd > finalOffset) (.malformed (.beyondFinalSequence finalOffset))
  whenSome finOffset fun finalOffset =>
    rejectIf (state.nextOffset > finalOffset) (.malformed (.beyondFinalSequence finalOffset))
  rejectIf (offset > windowEnd ∨ remainingEnd > windowEnd) limits.flowByteError
  pure remainingEnd

/-- The part of a payload at `offset` that was not delivered yet, with where it starts in the
segment, its offset, the number of repeated bytes, and whether one of them differs. -/
def skipEmitted (segment : Segment K)
    (payload : Bytes) (payloadStart offset : ℕ) : Exec Error (Bytes × ℕ × ℕ × ℕ × Bool) :=
  if offset < state.nextOffset then do
    let consumed := min (state.nextOffset - offset) payload.length
    let (overlap, rest) ← splitAt payload (min consumed payload.length)
    let conflicting ← repeatedConflicts state segment offset overlap
    let restStart ← okOr (checkedAdd payloadStart consumed) limits.flowByteError
    pure (rest, restStart, state.nextOffset, saturatingAdd payloadStart consumed, conflicting)
  else pure (payload, payloadStart, offset, payloadStart, false)

/-- Place a segment in the stream and drop what was already delivered. -/
def normalizePayload (segment : Segment K) :
    Exec Error IncomingPayload := do
  let absolute := absoluteOffset state segment
  let finOffset := segmentFinOffset state segment
  let beforeBase :=
    if absolute < 0 then min (-absolute).toNat segment.payload.length else 0
  let payload ← slice segment.payload beforeBase segment.payload.length
  let offset ← okOr (wordOfInt (max absolute 0)) limits.flowByteError
  let (payload, payloadStart, offset, retransmitted, conflicting) ←
    skipEmitted limits state segment payload beforeBase offset
  let remainingEnd ← validateSequenceBounds limits state offset payload finOffset
  pure
    { sequence := segment.firstPayloadSequence, finOffset, payload, payloadStart, offset,
      remainingEnd, retransmitted, conflicting }

/-! ### Where the new part is -/

/-- The rest of the payload is at its offset, not below the next expected one and inside the
window of the flow. -/
structure IncomingPayload.Fits (segment : Segment K)
    (incoming : IncomingPayload) : Prop where
  payload_eq : incoming.payload = segment.payload.drop incoming.payloadStart
  start_le : incoming.payloadStart ≤ segment.payload.length
  next_le : state.nextOffset ≤ incoming.offset
  end_eq : incoming.remainingEnd = incoming.offset + incoming.payload.length
  end_le : incoming.remainingEnd ≤ state.nextOffset + limits.maxBytesPerFlow
  window_lt : state.nextOffset + limits.maxBytesPerFlow < wordLimit
  start_le_iff : ∀ i < segment.payload.length,
    incoming.payloadStart ≤ i ↔ (state.nextOffset : ℤ) ≤ absoluteOffset state segment + i
  offset_eq : incoming.payload ≠ [] →
    (incoming.offset : ℤ) = absoluteOffset state segment + incoming.payloadStart
  finOffset_eq : incoming.finOffset = segmentFinOffset state segment
  sequence_eq : incoming.sequence = segment.firstPayloadSequence

theorem validateSequenceBounds_spec (o : ℕ) (payload : Bytes) (fo : Option ℕ) :
    (validateSequenceBounds limits state o payload fo).Ensures fun stop =>
      stop = o + payload.length ∧ stop ≤ state.nextOffset + limits.maxBytesPerFlow ∧
      state.nextOffset + limits.maxBytesPerFlow < wordLimit ∧
      (∀ f, state.finOffset = some f → stop ≤ f ∧ ∀ new, fo = some new → new = f) ∧
      ∀ f, fo = some f → state.nextOffset ≤ f := by
  refine ensures_okOr_bind fun w hw => ?_
  refine ensures_okOr_bind fun stop hs => ?_
  obtain ⟨hwlt, rfl⟩ := checkedAdd_eq_some.mp hw
  obtain ⟨-, rfl⟩ := checkedAdd_eq_some.mp hs
  refine EnsuresUnless.bind (ensures_whenSome (P := fun f =>
    o + payload.length ≤ f ∧ ∀ new, fo = some new → new = f) fun f _ => ?_)
    fun _ hf => ?_
  · refine (ensures_whenSome fun new _ => ensures_rejectIf fun hne => not_not.mp hne).bind
      fun _ hnew => ensures_rejectIf fun hle => ⟨not_lt.mp hle, hnew⟩
  refine (ensures_whenSome fun f _ => ensures_rejectIf fun hle => not_lt.mp hle).bind fun _ hn => ?_
  refine ensures_rejectIf_bind fun hwin => ?_
  exact ensures_pure ⟨rfl, by omega, hwlt, hf, hn⟩

end

/-- The byte that a segment has at an offset of the stream. -/
def segmentByte (state : TcpFlowState) (segment : Segment K) (x : ℕ) : Option UInt8 :=
  pieceAt (absoluteOffset state segment, segment.payload) x

/-- The delivered byte of an offset, while the history holds it. -/
def TcpFlowState.historyByte (state : TcpFlowState) (x : ℕ) : Option UInt8 :=
  if state.historyStartOffset ≤ x then
    state.emittedHistory.contents[x - state.historyStartOffset]?
  else none

/-- The two give an offset different bytes. -/
def Clash (held given : ℕ → Option UInt8) : Prop :=
  ∃ x a b, held x = some a ∧ given x = some b ∧ a ≠ b

/-- One byte just before the next expected one, without any flag that changes the stream. -/
def IsKeepAlive (state : TcpFlowState) (segment : Segment K) : Prop :=
  segment.payload.length = 1 ∧ absoluteOffset state segment + 1 = state.nextOffset ∧
    segment.syn = false ∧ segment.fin = false ∧ segment.rst = false

/-! ### The place of a segment -/

section Place

variable {state : TcpFlowState} {segment : Segment K} {x : ℕ} {b : UInt8}

theorem segmentByte_eq_some : segmentByte state segment x = some b ↔
    ∃ i, (x : ℤ) = absoluteOffset state segment + (i : ℕ) ∧ segment.payload[i]? = some b := by
  unfold segmentByte pieceAt
  constructor
  · intro h
    split_ifs at h with hle
    exact ⟨_, by omega, h⟩
  · rintro ⟨i, hx, hi⟩
    rw [if_pos (by omega), ← hi]
    congr 1
    omega

theorem TcpFlowState.Inv.historyByte_eq_some {limits : Limits} (hin : state.Inv limits) :
    state.historyByte x = some b ↔ state.historyStartOffset ≤ x ∧ x < state.nextOffset ∧
      state.emittedHistory.contents[x - state.historyStartOffset]? = some b := by
  have hl := History.length_contents hin.history_valid
  have hend := hin.history_end
  unfold TcpFlowState.historyByte
  constructor
  · intro h
    split_ifs at h with hle
    have hlt := (List.getElem?_eq_some_iff.mp h).1
    exact ⟨hle, by omega, h⟩
  · rintro ⟨hle, -, h⟩
    rw [if_pos hle, h]

end Place

/-! ### The repeated part of a segment -/

/-- What normalizing a segment reports. A keep-alive probe is not compared with the history. -/
structure IncomingPayload.Reports (state : TcpFlowState) (segment : Segment K)
    (incoming : IncomingPayload) : Prop where
  retransmitted_eq : incoming.retransmitted = incoming.payloadStart
  conflicting_iff : incoming.conflicting = true ↔
    ¬ IsKeepAlive state segment ∧ Clash state.historyByte (segmentByte state segment)
  end_le_final : ∀ final, state.finOffset = some final → incoming.remainingEnd ≤ final
  fin_agrees : ∀ final fin, state.finOffset = some final → incoming.finOffset = some fin →
    fin = final
  next_le_fin : ∀ fin, incoming.finOffset = some fin → state.nextOffset ≤ fin

/-! ### Normalizing -/

section Normalize

variable {limits : Limits} {state : TcpFlowState} {segment : Segment K}

/-- A part of a segment at an offset that is no probe differs from the history. -/
def RepeatsDiffer (state : TcpFlowState) (segment : Segment K) (payload : Bytes) (offset : ℕ) :
    Prop :=
  isKeepAliveProbe state segment offset = false ∧ ∃ i < payload.length,
    state.historyStartOffset ≤ offset + i ∧ offset + i < state.nextOffset ∧
    state.emittedHistory.contents[offset + i - state.historyStartOffset]? ≠ payload[i]?

variable (hin : state.Inv limits)
include hin

/-- Dropping what was delivered keeps the bytes at offsets not below the next expected one. The
others are counted, and compared with the history. -/
private theorem skipEmitted_spec (payload : Bytes) (ps o : ℕ) :
    (skipEmitted limits state segment payload ps o).Ensures
      fun (rest, restStart, restOffset, retransmitted, conflicting) =>
        (rest = payload.drop (restStart - ps) ∧ ps ≤ restStart ∧
        restStart ≤ ps + payload.length ∧ state.nextOffset ≤ restOffset ∧
        (∀ i < payload.length, restStart ≤ ps + i ↔ state.nextOffset ≤ o + i) ∧
        (rest ≠ [] → restOffset = o + (restStart - ps))) ∧
        retransmitted = restStart ∧
        (conflicting = true ↔ RepeatsDiffer state segment payload o) := by
  unfold skipEmitted
  by_cases hlt : o < state.nextOffset
  · rw [if_pos hlt]
    set consumed := min (state.nextOffset - o) payload.length with hcs
    dsimp only
    rw [splitAt_eq (min_le_right _ _), ok_bind]
    dsimp only
    have hm : min consumed payload.length = consumed := min_eq_left (min_le_right _ _)
    rw [hm]
    refine EnsuresUnless.bind (P := fun c => c = true ↔ RepeatsDiffer state segment payload o) ?_
      fun conflicting hc => ?_
    · unfold repeatedConflicts
      split_ifs with hp
      · exact ensures_pure (by simp [RepeatsDiffer, hp])
      · have hn := hin.next_lt
        have hend := hin.history_end
        have ht : (payload.take consumed).length = consumed := by rw [length_take, hm]
        refine (emittedHistoryConflicts_spec hin.history_valid (by omega)
          (by omega)).ensuresUnless.mono fun _ hiff => hiff.trans ?_
        rw [ht]
        constructor
        · rintro ⟨i, hi, hle, hlt, hne⟩
          rw [getElem?_take_of_lt hi] at hne
          exact ⟨Bool.not_eq_true _ ▸ hp, i, by omega, hle, by omega, hne⟩
        · rintro ⟨-, i, hi, hle, hlt, hne⟩
          have hi' : i < consumed := by omega
          refine ⟨i, hi', hle, by omega, ?_⟩
          rwa [getElem?_take_of_lt hi']
    · refine ensures_okOr_bind fun restStart hs => ?_
      obtain ⟨hw, rfl⟩ := checkedAdd_eq_some.mp hs
      refine ensures_pure ⟨?_, saturatingAdd_eq hw, hc⟩
      dsimp only
      refine ⟨?_, by omega, by omega, le_rfl, fun i hi => by omega, fun hne => ?_⟩
      · rw [Nat.add_sub_cancel_left]
      · have hpos := length_pos_iff.mpr hne
        rw [length_drop] at hpos
        omega
  · rw [if_neg hlt]
    refine ensures_pure ⟨?_, rfl, iff_of_false Bool.false_ne_true ?_⟩
    · refine ⟨?_, le_rfl, by omega, by omega, fun i hi => by omega, fun _ => ?_⟩
      · rw [Nat.sub_self, drop_zero]
      · omega
    · rintro ⟨-, i, -, -, hlt', -⟩
      omega

/-- A segment that starts inside what was delivered is a probe when it is one byte just before the
next expected one. -/
private theorem isKeepAliveProbe_eq_true {o : ℕ}
    (ho : (o : ℤ) = absoluteOffset state segment) (hlt : o < state.nextOffset) :
    isKeepAliveProbe state segment o = true ↔ IsKeepAlive state segment := by
  have hn := hin.next_lt
  have ha : saturatingAdd o 1 = o + 1 := saturatingAdd_eq (by omega)
  have hc : (o : ℤ) + 1 = state.nextOffset ↔ o + 1 = state.nextOffset := by omega
  simp only [isKeepAliveProbe, IsKeepAlive, Bool.and_eq_true, beq_iff_eq, Bool.not_eq_true',
    Bool.or_eq_false_iff, ha, ← ho, hc, and_assoc]

/-- The comparison of the part of a segment from its byte `beforeBase` on, which is at `offset`,
is that of the whole segment. -/
private theorem clash_history_iff {bb o : ℕ}
    (hpl : absoluteOffset state segment < 0 ∧ bb = min (-absoluteOffset state
      segment).toNat segment.payload.length ∧ o = 0 ∨ bb = 0 ∧ (o : ℤ) =
      absoluteOffset state segment) :
    RepeatsDiffer state segment (segment.payload.drop bb) o ↔
      ¬ IsKeepAlive state segment ∧ Clash state.historyByte (segmentByte state segment) := by
  have hl := History.length_contents hin.history_valid
  have hend := hin.history_end
  constructor
  · rintro ⟨hp, i, hi, hle, hlt, hne⟩
    rw [length_drop] at hi
    rw [getElem?_drop] at hne
    refine ⟨fun hk => ?_, o + i, state.emittedHistory.contents[o + i -
      state.historyStartOffset], segment.payload[bb + i], ?_, ?_, ?_⟩
    · rcases hpl with ⟨hn, hbf, rfl⟩ | ⟨rfl, ho⟩
      · have hone := hk.1
        omega
      · rw [(isKeepAliveProbe_eq_true hin ho (by omega)).mpr hk] at hp
        cases hp
    · exact hin.historyByte_eq_some.mpr ⟨hle, hlt, getElem?_eq_getElem (by omega)⟩
    · refine segmentByte_eq_some.mpr ⟨bb + i, ?_, getElem?_eq_getElem (by omega)⟩
      omega
    · rwa [getElem?_eq_getElem (by omega), getElem?_eq_getElem (by omega), ne_eq,
        Option.some_inj] at hne
  · rintro ⟨hk, x, a, b, hh, hs, hne⟩
    obtain ⟨hle, hlt, ha⟩ := hin.historyByte_eq_some.mp hh
    obtain ⟨i, hx, hb⟩ := segmentByte_eq_some.mp hs
    have hi := (List.getElem?_eq_some_iff.mp hb).1
    refine ⟨?_, x - o, ?_, by omega, by omega, ?_⟩
    · rcases hpl with ⟨hn, hbf, rfl⟩ | ⟨rfl, ho⟩
      · -- A single byte that reaches offset zero is not before the base.
        rw [← Bool.not_eq_true]
        intro hp
        have hone : segment.payload.length = 1 := by
          simp only [isKeepAliveProbe, Bool.and_eq_true, beq_iff_eq] at hp
          exact hp.1.1
        omega
      · rwa [← Bool.not_eq_true, isKeepAliveProbe_eq_true hin ho (by omega)]
    · rw [length_drop]
      omega
    · rw [getElem?_drop, show o + (x - o) = x by omega, ha,
        show bb + (x - o) = i by omega, hb, ne_eq, Option.some_inj]
      exact hne

theorem normalizePayload_spec (segment : Segment K) :
    (normalizePayload limits state segment).Ensures fun incoming =>
      incoming.Fits limits state segment ∧ incoming.Reports state segment := by
  unfold normalizePayload
  set absolute := absoluteOffset state segment with ha
  set beforeBase := if absolute < 0 then min (-absolute).toNat segment.payload.length else 0 with hb
  have hle : beforeBase ≤ segment.payload.length := by
    rw [hb]
    split_ifs <;> omega
  have hp : absolute < 0 ∧ beforeBase = min (-absolute).toNat segment.payload.length ∧
      (max absolute 0).toNat = 0 ∨
        beforeBase = 0 ∧ (((max absolute 0).toNat : ℕ) : ℤ) = absolute := by
    rw [hb]
    split_ifs with hn
    · exact Or.inl ⟨hn, rfl, by omega⟩
    · exact Or.inr ⟨rfl, by omega⟩
  dsimp only
  rw [← hb, slice_eq hle le_rfl, ok_bind, take_length]
  refine ensures_okOr_bind fun o ho => ?_
  obtain ⟨-, -, rfl⟩ := wordOfInt_eq_some.mp ho
  refine (skipEmitted_spec hin _ _ _).bind ?_
  rintro ⟨rest, restStart, restOffset, retransmitted, conflicting⟩
    ⟨⟨hr, hsr, hs, hnx, hiff, hrs⟩, hrt, hc⟩
  rw [length_drop] at hs hiff
  refine (validateSequenceBounds_spec _ _ _ _ _).bind fun stop hbn => ?_
  obtain ⟨hst, hsp, hw, hfn, hfin⟩ := hbn
  refine ensures_pure ⟨
    { payload_eq := ?_, start_le := by dsimp only; omega, next_le := hnx, end_eq := hst,
      end_le := hsp, window_lt := hw, start_le_iff := fun i hi => ?_,
      offset_eq := fun hne => ?_, finOffset_eq := rfl, sequence_eq := rfl },
    { retransmitted_eq := hrt
      conflicting_iff := hc.trans (clash_history_iff hin hp)
      end_le_final := fun f hf => (hfn f hf).1
      fin_agrees := fun f fin hf hnew => (hfn f hf).2 fin hnew
      next_le_fin := hfin }⟩
  · dsimp only
    rw [hr, drop_drop]
    congr 1
    omega
  · dsimp only
    by_cases hi' : beforeBase ≤ i
    · have := hiff (i - beforeBase) (by omega)
      omega
    · omega
  · dsimp only at hne ⊢
    rw [hrs hne, ← ha]
    have hpos := length_pos_iff.mpr hne
    rw [hr, length_drop, length_drop] at hpos
    omega

end Normalize

end PacketCraftr.Tcp
