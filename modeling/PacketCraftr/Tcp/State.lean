import PacketCraftr.Tcp.History
import PacketCraftr.Tcp.Pages

/-!
# The state of one flow

`tcp/state.rs`: what the reassembler keeps for a flow generation, its charges, and the operations
on the history of emitted bytes. Offsets count the payload bytes of the stream from its base
sequence number on; the history is the end of what was delivered, up to `nextOffset`.

The specifications speak about `History.contents`: trimming drops a prefix of it, appending adds
the output and drops what exceeds the capacity, and the conflict test compares the bytes of the
offsets that a payload shares with it.
-/

open List

namespace PacketCraftr.Tcp

open History Exec

def pendingSegmentMetadataCharge : ℕ := 64

def tcpFlowStateMetadataCharge : ℕ := 256

/-- What the reassembler keeps for one flow generation. -/
structure TcpFlowState where
  baseSequence : UInt32
  nextOffset : ℕ
  historyStartOffset : ℕ
  emittedHistory : History
  /-- The pending intervals, from their start to their end. -/
  pending : SortedMap ℕ ℕ
  pages : PageStore
  pendingBytes : ℕ
  finOffset : Option ℕ
  lastUpdate : ℕ
  deadline : Option ℕ

variable {ε : Type}

def TcpFlowState.new (baseSequence : UInt32) (now : ℕ) (deadline : Option ℕ) : TcpFlowState where
  baseSequence
  nextOffset := 0
  historyStartOffset := 0
  emittedHistory := .default
  pending := .empty
  pages := .empty
  pendingBytes := 0
  finOffset := none
  lastUpdate := now
  deadline

section

variable (state : TcpFlowState)

def retainedBytes : Option ℕ :=
  checkedAdd state.pendingBytes state.emittedHistory.len

def memoryChargeParts (pendingStorageCharge segmentCount historyCapacity : ℕ) (flowState : Bool) :
    Option ℕ := do
  let metadata ← checkedMul segmentCount pendingSegmentMetadataCharge
  let charge ← checkedAdd pendingStorageCharge metadata
  let buffers ← checkedAdd charge historyCapacity
  if flowState then checkedAdd buffers tcpFlowStateMetadataCharge else some buffers

def flowMemoryCharge : Option ℕ := do
  let pages ← checkedMul state.pages.size pageCharge
  memoryChargeParts pages state.pending.size state.emittedHistory.capacity true

def plannedHistoryAllocation (current required limit : ℕ) : ℕ :=
  if required ≤ current then current else min (max (saturatingMul current 2) required) limit

/-- Whether a payload at `offset` differs from the emitted bytes of the offsets it repeats. -/
def emittedHistoryConflicts (offset : ℕ) (payload : Bytes) :
    Exec ε Bool :=
  match checkedAdd offset payload.length with
  | none => pure true
  | some payloadEnd => do
    let historyEnd := saturatingAdd state.historyStartOffset state.emittedHistory.len
    let overlapStart := max offset state.historyStartOffset
    let overlapEnd := min payloadEnd historyEnd
    if overlapStart ≥ overlapEnd then pure false
    else
      let payloadStart := overlapStart - offset
      let historyStart := overlapStart - state.historyStartOffset
      let length := overlapEnd - overlapStart
      let historyEnd := saturatingAdd historyStart length
      if payload.length < payloadStart + length then pure true
      else
        let payloadOverlap := (payload.drop payloadStart).take length
        let (head, tail) ← state.emittedHistory.slices historyStart historyEnd
        let (payloadHead, payloadTail) ← splitAt payloadOverlap head.length
        pure (head != payloadHead || tail != payloadTail)

def trimEmittedHistory (capacity : ℕ) : Exec ε TcpFlowState :=
  if state.emittedHistory.len > capacity then do
    let remove := state.emittedHistory.len - capacity
    let historyStartOffset := saturatingAdd state.historyStartOffset remove
    let (history, drained) ← state.emittedHistory.drainPrefix remove
    let history := if drained then history else history.clear
    pure { state with historyStartOffset, emittedHistory := history }
  else pure state

end

def prepareEmittedHistory (granted : Bool) (state : TcpFlowState)
    (retainedCapacity capacity : ℕ) : Exec Error (Option History) :=
  if state.emittedHistory.capacity = capacity then pure none
  else do
    let resized ← History.new granted capacity
    let skip := state.emittedHistory.len - retainedCapacity
    let (head, tail) ← state.emittedHistory.slices skip state.emittedHistory.len
    let resized ← resized.extend head
    let resized ← resized.extend tail
    pure (some resized)

/-- The part of the history from `historyStartOffset` on, when the output does not reach it. -/
def keepHistory (state : TcpFlowState) (historyStartOffset outputStart : ℕ) : Exec ε History :=
  if !state.emittedHistory.isEmpty && decide (historyStartOffset < outputStart) then do
    let oldStart := historyStartOffset - state.historyStartOffset
    let (history, drained) ← state.emittedHistory.drainPrefix oldStart
    pure (if drained then history else history.clear)
  else pure state.emittedHistory.clear

def appendEmittedHistory (state : TcpFlowState) (outputStart : ℕ) (output : Bytes)
    (capacity : ℕ) : Exec ε TcpFlowState :=
  let outputEnd := saturatingAdd outputStart output.length
  if capacity = 0 then
    pure { state with historyStartOffset := outputEnd, emittedHistory := state.emittedHistory.clear }
  else do
    let oldEnd := saturatingAdd state.historyStartOffset state.emittedHistory.len
    assert (state.emittedHistory.isEmpty ∨ oldEnd = outputStart)
    let keep := min (saturatingAdd state.emittedHistory.len output.length) capacity
    let historyStartOffset := outputEnd - keep
    let history ← keepHistory state historyStartOffset outputStart
    let outputSkip := historyStartOffset - outputStart
    let history ← history.extend (output.drop outputSkip)
    pure { state with historyStartOffset, emittedHistory := history }

/-! ### Charges -/

/-- What the buffers and the state of a flow are charged. -/
def chargeOf (pages segments historyCapacity : ℕ) : ℕ :=
  pages * pageCharge + segments * pendingSegmentMetadataCharge + historyCapacity

theorem memoryChargeParts_eq_some {st s capacity n : ℕ} {f : Bool} :
    memoryChargeParts st s capacity f = some n ↔
      n < wordLimit ∧ n = st + s * pendingSegmentMetadataCharge + capacity +
        if f then tcpFlowStateMetadataCharge else 0 := by
  have hs : memoryChargeParts st s capacity f = some n ↔
      ∃ m, checkedMul s pendingSegmentMetadataCharge = some m ∧
        ∃ c, checkedAdd st m = some c ∧ ∃ b, checkedAdd c capacity = some b ∧
          (if f then checkedAdd b tcpFlowStateMetadataCharge else some b) = some n := by
    simp only [memoryChargeParts, Option.bind_eq_bind, Option.bind_eq_some_iff]
  rw [hs]
  cases f <;>
    simp only [checkedMul_eq_some, checkedAdd_eq_some, Bool.false_eq_true, if_true, if_false,
      Option.some.injEq] <;>
    constructor
  · rintro ⟨m, ⟨-, rfl⟩, c, ⟨-, rfl⟩, b, ⟨hb, rfl⟩, rfl⟩
    exact ⟨hb, rfl⟩
  · rintro ⟨hn, rfl⟩
    exact ⟨_, ⟨by omega, rfl⟩, _, ⟨by omega, rfl⟩, _, ⟨hn, rfl⟩, rfl⟩
  · rintro ⟨m, ⟨-, rfl⟩, c, ⟨-, rfl⟩, b, ⟨-, rfl⟩, hn, rfl⟩
    exact ⟨hn, rfl⟩
  · rintro ⟨hn, rfl⟩
    exact ⟨_, ⟨by omega, rfl⟩, _, ⟨by omega, rfl⟩, _, ⟨by omega, rfl⟩, hn, rfl⟩

/-- The charge of a flow, over its actual pages, intervals and history allocation. -/
def TcpFlowState.charge (state : TcpFlowState) : ℕ :=
  chargeOf state.pages.size state.pending.size state.emittedHistory.capacity +
    tcpFlowStateMetadataCharge

theorem flowMemoryCharge_eq_some {state : TcpFlowState} {n : ℕ} :
    flowMemoryCharge state = some n ↔ n < wordLimit ∧ n = state.charge := by
  have hs : flowMemoryCharge state = some n ↔ ∃ p, checkedMul state.pages.size pageCharge = some p ∧
        memoryChargeParts p state.pending.size state.emittedHistory.capacity true = some n := by
    simp only [flowMemoryCharge, Option.bind_eq_bind, Option.bind_eq_some_iff]
  rw [hs]
  simp only [checkedMul_eq_some, memoryChargeParts_eq_some, if_true]
  constructor
  · rintro ⟨p, ⟨-, rfl⟩, hn, rfl⟩
    exact ⟨hn, rfl⟩
  · rintro ⟨hn, rfl⟩
    rw [TcpFlowState.charge, chargeOf] at hn ⊢
    exact ⟨_, ⟨by omega, rfl⟩, hn, rfl⟩

theorem le_plannedHistoryAllocation {c required l : ℕ} (h : required ≤ l) :
    required ≤ plannedHistoryAllocation c required l := by
  unfold plannedHistoryAllocation
  split_ifs <;> omega

theorem plannedHistoryAllocation_le (c required l : ℕ) :
    plannedHistoryAllocation c required l ≤ max c l := by
  unfold plannedHistoryAllocation
  split_ifs <;> omega

/-! ### The history of emitted bytes -/

section History

variable {state : TcpFlowState}

section

variable (hv : state.emittedHistory.Valid)
include hv

/-- Trimming drops the oldest bytes that exceed the capacity. -/
theorem trimEmittedHistory_spec
    (hend : state.historyStartOffset + state.emittedHistory.len < wordLimit) (capacity : ℕ) :
    (trimEmittedHistory state capacity : Exec ε _).Returns fun state' =>
      ∃ start history, state' = { state with historyStartOffset := start, emittedHistory := history } ∧
        history.Valid ∧ history.capacity = state.emittedHistory.capacity ∧
        history.contents = state.emittedHistory.contents.drop (state.emittedHistory.len - capacity) ∧
        start + history.len = state.historyStartOffset + state.emittedHistory.len := by
  unfold trimEmittedHistory
  split_ifs with hlt
  · obtain ⟨⟨history, drained⟩, hd, rfl, hv', hcap, hc⟩ :=
      drainPrefix_spec (ε := ε) hv (Nat.sub_le state.emittedHistory.len capacity)
    dsimp only
    rw [hd]
    refine ⟨_, rfl, _, _, rfl, hv', hcap, hc, ?_⟩
    have hl := congrArg length hc
    rw [length_drop, length_contents hv, length_contents hv'] at hl
    simp only [saturatingAdd, if_true]
    omega
  · refine ⟨state, rfl, _, _, rfl, hv, rfl, ?_, rfl⟩
    rw [Nat.sub_eq_zero_of_le (not_lt.mp hlt), drop_zero]

/-- A replacement of the history has the new capacity and keeps the newest bytes. -/
theorem prepareEmittedHistory_spec {g : Bool} {r capacity : ℕ}
    (hcap : capacity < 2 ^ 63) (hr : min state.emittedHistory.len r ≤ capacity) :
    (prepareEmittedHistory g state r capacity).Ensures fun rp =>
      (rp = none → state.emittedHistory.capacity = capacity) ∧
      ∀ history, rp = some history → history.Valid ∧ history.capacity = capacity ∧
        history.contents = state.emittedHistory.contents.drop (state.emittedHistory.len - r) := by
  unfold prepareEmittedHistory
  split_ifs with heq
  · exact ensures_pure ⟨fun _ => heq, nofun⟩
  · refine EnsuresUnless.bind (P := fun rs => rs = ⟨replicate capacity 0, 0, 0⟩) ?_ ?_
    · unfold new
      split_ifs with ha
      · exact ensures_pure rfl
      · exact ensures_fail _ _ _
    rintro _ rfl
    have he : Valid ⟨replicate capacity 0, 0, 0⟩ := valid_empty (by rwa [length_replicate])
    have hempty_cap : History.capacity ⟨List.replicate capacity 0, 0, 0⟩ = capacity :=
      length_replicate
    obtain ⟨⟨head, tail⟩, hs, hp⟩ := slices_spec (ε := Error) hv
      (Nat.sub_le state.emittedHistory.len r) le_rfl
    rw [← length_contents hv, take_length, length_contents hv] at hp
    have hl := congrArg length hp
    rw [length_append, length_drop, length_contents hv] at hl
    dsimp only
    rw [hs, ok_bind]
    obtain ⟨h₁, heq₁, hv₁, hcap₁, hc₁⟩ := extend_spec (ε := Error) he head
      (by rw [hempty_cap]; change 0 + head.length ≤ capacity; omega)
    rw [heq₁, ok_bind]
    have hl₁ : h₁.len = head.length := by
      rw [← length_contents hv₁, hc₁]
      rfl
    obtain ⟨h₂, heq₂, hv₂, hcap₂, hc₂⟩ := extend_spec (ε := Error) hv₁ tail
      (by rw [hcap₁, hempty_cap]; omega)
    rw [heq₂, ok_bind]
    refine ensures_pure ⟨nofun, ?_⟩
    rintro _ ⟨⟩
    refine ⟨hv₂, by rw [hcap₂, hcap₁, hempty_cap], ?_⟩
    rw [hc₂, hc₁, ← hp]
    rfl

private theorem keepHistory_spec {start stop : ℕ}
    (hsp : stop = state.historyStartOffset + state.emittedHistory.len)
    (hst : state.historyStartOffset ≤ start) :
    (keepHistory state start stop : Exec ε _).Returns fun kept =>
      kept.Valid ∧ kept.capacity = state.emittedHistory.capacity ∧
      kept.contents = state.emittedHistory.contents.drop (start - state.historyStartOffset) := by
  have hl := length_contents hv
  unfold keepHistory
  by_cases hs : state.emittedHistory.len ≠ 0 ∧ start < stop
  · rw [if_pos (by simpa [History.isEmpty] using hs)]
    obtain ⟨⟨kept, drained⟩, hd, rfl, hv', hcap, hc⟩ := drainPrefix_spec (ε := ε) hv
        (show start - state.historyStartOffset ≤ state.emittedHistory.len by omega)
    dsimp only
    rw [hd]
    exact ⟨_, rfl, hv', hcap, hc⟩
  · rw [if_neg (by simpa [History.isEmpty] using hs)]
    refine ⟨_, rfl, hv.clear, rfl, ?_⟩
    exact (drop_eq_nil_of_le (by rw [hl]; omega)).symm

/-- Appending adds the output and drops the oldest bytes that exceed the capacity. -/
theorem appendEmittedHistory_spec (o : Bytes) (start capacity : ℕ)
    (hs : start = state.historyStartOffset + state.emittedHistory.len)
    (hend : start + o.length < wordLimit)
    (hr : min (state.emittedHistory.len + o.length) capacity ≤ state.emittedHistory.capacity) :
    (appendEmittedHistory state start o capacity : Exec ε _).Returns fun state' =>
      ∃ from' history, state' = { state with historyStartOffset := from', emittedHistory := history } ∧
        history.Valid ∧ history.capacity = state.emittedHistory.capacity ∧
        history.contents = (state.emittedHistory.contents ++ o).drop
          (state.emittedHistory.len + o.length - capacity) ∧
        from' + history.len = start + o.length := by
  have hl := length_contents hv
  unfold appendEmittedHistory
  rw [saturatingAdd_eq hend]
  dsimp only
  by_cases hz : capacity = 0
  · rw [if_pos hz]
    refine ⟨_, rfl, _, _, rfl, hv.clear, rfl, ?_, rfl⟩
    exact (drop_eq_nil_of_le (by rw [length_append, hl]; omega)).symm
  rw [if_neg hz, saturatingAdd_eq (by omega), saturatingAdd_eq (by omega),
    assert_eq (Or.inr hs.symm), ok_bind]
  set keep := min (state.emittedHistory.len + o.length) capacity with hke
  obtain ⟨kept, hk, hv', hcap, hc⟩ := keepHistory_spec (ε := ε) hv hs
    (show state.historyStartOffset ≤ start + o.length - keep by omega)
  rw [hk, ok_bind]
  have hkp := congrArg length hc
  rw [length_contents hv', length_drop, hl] at hkp
  obtain ⟨f, hfl, hv'', hcap'', hc''⟩ := extend_spec (ε := ε) hv'
    (o.drop (start + o.length - keep - start))
    (by rw [hcap, length_drop]; omega)
  rw [hfl, ok_bind]
  have hf : f.contents = (state.emittedHistory.contents ++ o).drop
      (state.emittedHistory.len + o.length - capacity) := by
    rw [hc'', hc, drop_append, hl]
    congr 2 <;> omega
  refine ⟨_, rfl, _, _, rfl, hv'', hcap''.trans hcap, hf, ?_⟩
  have hfi := congrArg length hf
  rw [length_contents hv'', length_drop, length_append, hl] at hfi
  omega

end

private theorem pieces_ne_iff (a b l : Bytes) :
    (a != l.take a.length || b != l.drop a.length) = true ↔ a ++ b ≠ l := by
  rw [Bool.or_eq_true, bne_iff_ne, bne_iff_ne, ← not_and_or, ne_eq, not_iff_not]
  constructor
  · rintro ⟨ha, hb⟩
    rw [hb]
    exact (congrArg (· ++ l.drop a.length) ha).trans (take_append_drop _ _)
  · rintro rfl
    exact ⟨take_left.symm, drop_left.symm⟩

/-- A payload conflicts with the history exactly when it differs from an emitted byte that the
history still holds. -/
theorem emittedHistoryConflicts_spec {o : ℕ} {payload : Bytes} (hv : state.emittedHistory.Valid)
    (hend : state.historyStartOffset + state.emittedHistory.len < wordLimit)
    (hpy : o + payload.length < wordLimit) :
    (emittedHistoryConflicts state o payload : Exec ε _).Returns fun c =>
      c = true ↔ ∃ i < payload.length, state.historyStartOffset ≤ o + i ∧
        o + i < state.historyStartOffset + state.emittedHistory.len ∧
        state.emittedHistory.contents[o + i - state.historyStartOffset]? ≠ payload[i]? := by
  set h := state.emittedHistory with hh
  set base := state.historyStartOffset with hbs
  unfold emittedHistoryConflicts
  rw [checkedAdd_eq_some.mpr ⟨hpy, rfl⟩]
  dsimp only
  rw [← hh, ← hbs, saturatingAdd_eq hend]
  by_cases ho : max o base ≥ min (o + payload.length) (base + h.len)
  · rw [if_pos ho]
    refine ⟨_, rfl, iff_of_false Bool.false_ne_true ?_⟩
    rintro ⟨i, hi, h₁, h₂, -⟩
    omega
  rw [if_neg ho]
  set first := max o base with hf
  set length := min (o + payload.length) (base + h.len) - first with hl
  rw [saturatingAdd_eq (by omega), if_neg (by omega)]
  set overlap := (payload.drop (first - o)).take length with hov
  have hor : overlap.length = length := by
    rw [hov, length_take, length_drop]
    omega
  obtain ⟨⟨head, tail⟩, hs, hp⟩ := slices_spec (ε := ε) hv
    (Nat.le_add_right (first - base) length) (by omega)
  have hps := congrArg List.length hp
  rw [length_append, length_drop, length_take, length_contents hv, min_eq_left (by omega)] at hps
  rw [hs, ok_bind]
  dsimp only
  rw [splitAt_eq (by omega), ok_bind]
  refine ⟨_, rfl, (pieces_ne_iff head tail overlap).trans ?_⟩
  have hhl : ∀ j < length, (head ++ tail)[j]? = h.contents[first - base + j]? := by
    intro j hj
    rw [hp, getElem?_drop, getElem?_take_of_lt (by omega)]
  have hg : ∀ j < length, overlap[j]? = payload[first - o + j]? := by
    intro j hj
    rw [hov, getElem?_take_of_lt hj, getElem?_drop]
  rw [ne_eq, ← not_iff_not, not_not]
  push Not
  constructor
  · intro heq i hi h₁ h₂
    have hb := (hhl (o + i - first) (by omega)).symm.trans (heq ▸ hg (o + i - first) (by omega))
    rwa [show first - base + (o + i - first) = o + i - base by omega,
      show first - o + (o + i - first) = i by omega] at hb
  · intro ha
    refine ext_getElem? fun j => ?_
    by_cases hj : j < length
    · have hb := ha (first - o + j) (by omega) (by omega) (by omega)
      rw [hhl j hj, hg j hj, ← hb]
      congr 1
      omega
    · rw [getElem?_eq_none (by rw [length_append]; omega), getElem?_eq_none (by omega)]

end History

/-! ### The invariant of a flow -/

/-- The offsets whose bytes are pending. -/
def TcpFlowState.held (state : TcpFlowState) : Finset ℕ := Intervals.cover state.pending.entries

/-- The pending byte of an offset. -/
def TcpFlowState.heldByte (state : TcpFlowState) (x : ℕ) : Option UInt8 :=
  if x ∈ state.held then Pages.byteAt state.pages x else none

/-- What holds of a flow between two pushes. The intervals lie strictly after what was delivered,
the pages hold exactly their bytes, the history is the end of what was delivered, and the flow
keeps within its limits. -/
structure TcpFlowState.Inv (limits : Limits) (state : TcpFlowState) : Prop where
  separated : Intervals.Separated state.pending.entries
  next_lt_start : ∀ a ∈ state.pending.entries, state.nextOffset < a.1
  end_lt : ∀ a ∈ state.pending.entries, a.2 < wordLimit
  next_lt : state.nextOffset < wordLimit
  pages_exact : Pages.Exact state.pages state.held
  pendingBytes_eq : state.pendingBytes = state.held.card
  history_valid : state.emittedHistory.Valid
  history_end : state.historyStartOffset + state.emittedHistory.len = state.nextOffset
  capacity_le : state.emittedHistory.capacity ≤ limits.maxBytesPerFlow
  retained_le : state.pendingBytes + state.emittedHistory.len ≤ limits.maxBytesPerFlow
  segments_le : state.pending.size ≤ limits.maxSegmentsPerFlow

namespace TcpFlowState

variable {limits : Limits} {state : TcpFlowState}

theorem inv_new (limits : Limits) (base : UInt32) (now : ℕ) (deadline : Option ℕ) :
    (new base now deadline).Inv limits where
  separated := Intervals.Separated.nil
  next_lt_start := nofun
  end_lt := nofun
  next_lt := show 0 < wordLimit by decide
  pages_exact := Pages.exact_empty
  pendingBytes_eq := rfl
  history_valid := valid_default
  history_end := rfl
  capacity_le := Nat.zero_le _
  retained_le := Nat.zero_le _
  segments_le := Nat.zero_le _

theorem Inv.with_deadline (h : state.Inv limits) (deadline : Option ℕ) :
    Inv limits { state with deadline } :=
  { h with }

theorem mem_held {x : ℕ} : x ∈ state.held ↔ ∃ a ∈ state.pending.entries, a.1 ≤ x ∧ x < a.2 :=
  Intervals.mem_cover

theorem Inv.next_lt_of_mem (h : state.Inv limits) {x : ℕ} (hx : x ∈ state.held) :
    state.nextOffset < x := by
  obtain ⟨a, ha, hax, -⟩ := mem_held.mp hx
  exact (h.next_lt_start a ha).trans_le hax

theorem Inv.heldByte_next (h : state.Inv limits) : state.heldByte state.nextOffset = none :=
  if_neg fun hmem => (h.next_lt_of_mem hmem).false

end TcpFlowState

end PacketCraftr.Tcp
