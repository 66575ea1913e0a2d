import PacketCraftr.Tcp.Accounting

/-!
# Panics and the representation of a flow

A push panics only when it overflows the last block of the offset space
(`Tcp.Reassembler.Overflows`): counting the pages that remain adds the size of a page to the first
offset of the last block, which is the size of the offset space.

The second part of the file drives a flow to that point. Segments of four bytes, each of them
delivered at once, bring it to eight bytes before the end of the offset space; a byte that is kept
pending and a byte that is delivered then make the next push panic.
-/

namespace PacketCraftr.Tcp

open TcpFlowState Exec SortedMap PendingMergePlan

variable {K : Type} [LinearOrder K]

/-- The representation of a flow. -/
structure TcpFlowState.Represented (state : TcpFlowState) : Prop where
  intervals_nonempty : ∀ a ∈ state.pending.entries, a.1 < a.2
  intervals_apart : state.pending.entries.Pairwise fun a b => a.2 < b.1
  next_lt_start : ∀ a ∈ state.pending.entries, state.nextOffset < a.1
  page_iff : ∀ block, (∃ page, state.pages.find? block = some page) ↔
    ∃ x ∈ state.held, x / pageBytes = block
  live_eq : ∀ block page, state.pages.find? block = some page →
    page.live = (state.held.filter fun x => x / pageBytes = block).card
  pendingBytes_eq : state.pendingBytes = (state.pending.entries.map fun a => a.2 - a.1).sum
  history_end : state.historyStartOffset + state.emittedHistory.len = state.nextOffset

theorem TcpFlowState.Inv.represented {limits : Limits} {state : TcpFlowState}
    (h : state.Inv limits) : state.Represented where
  intervals_nonempty := h.separated.nonempty
  intervals_apart := h.separated.apart
  next_lt_start := h.next_lt_start
  page_iff block := h.pages_exact.find?_iff.trans Finset.mem_image
  live_eq block page hp := by
    rw [h.pages_exact.live_eq block page hp]
    congr 1
    ext x
    rw [Finset.mem_inter, Finset.mem_filter, Pages.mem_block]
  pendingBytes_eq := h.pendingBytes_eq.trans h.separated.card_cover
  history_end := h.history_end

namespace Reassembler

/-- A push panics only when it overflows the last block. -/
theorem Inv.push_ne_panic {r : Reassembler K} (hinv : r.Inv) {segment : Segment K}
    (h : ¬ r.Overflows segment) (a : Allocator) (now : ℕ) (p : Panic) :
    (r.push a segment now).1 ≠ .error (.panic p) := by
  have ho := push_outcome a hinv segment now
  generalize r.push a segment now = out at ho ⊢
  cases ho with
  | ignored _ => nofun
  | failed e he =>
    intro heq
    exact h (he p (Except.error.inj heq))
  | carried _ _ => nofun

/-- Whatever the operations were, every flow is represented as it should be, and no further push
panics that does not overflow the last block. -/
theorem safe_of_run {clock : ℕ} {limits : Limits} {r₀ : Reassembler K}
    (hnew : Reassembler.new clock limits = .ok r₀) (ops : List (Op K)) :
    (∀ key state, (r₀.run ops).flows.find? key = some state → state.Represented) ∧
    ∀ segment, ¬ (r₀.run ops).Overflows segment → ∀ alloc now p,
      ((r₀.run ops).push alloc segment now).1 ≠ .error (.panic p) := by
  obtain ⟨hinv, -⟩ := inv_run hnew ops
  refine ⟨?_, ?_⟩
  · intro key state hf
    exact (hinv.flow key state hf).represented
  · intro segment hs alloc now p
    exact hinv.push_ne_panic hs alloc now p

/-- A byte is delivered and another one stays pending after a gap. The byte that fills the gap does
not panic. -/
theorem safe_of_run_gap :
    let grant : Allocator := ⟨fun _ => true, true, true⟩
    let r₀ : Reassembler ℕ := ⟨.default, .empty, .empty, 0, 0⟩
    let r := r₀.run [.push grant ⟨0, 7, [1], false, false, false⟩ 0,
      .push grant ⟨0, 9, [3], false, false, false⟩ 0]
    Reassembler.new 0 .default = .ok r₀ ∧
      (∃ state, r.flows.find? 0 = some state ∧ state.pending.entries = [(2, 3)] ∧
        state.Represented) ∧
      ∀ alloc now p, (r.push alloc ⟨0, 8, [2], false, false, false⟩ now).1 ≠ .error (.panic p) := by
  intro grant r₀ r
  have hr : (r.flows.find? 0).map (fun state =>
      (state.pending.entries, state.pages.contains Pages.lastBlock)) = some ([(2, 3)], false) := by
    decide +kernel
  obtain ⟨state, hs, he⟩ := Option.map_eq_some_iff.mp hr
  obtain ⟨hpe, hpg⟩ := Prod.mk.inj he
  obtain ⟨hf, hp⟩ := safe_of_run (show Reassembler.new 0 .default = .ok r₀ from rfl)
    [.push grant ⟨0, 7, [1], false, false, false⟩ 0, .push grant ⟨0, 9, [3], false, false, false⟩ 0]
  refine ⟨rfl, ⟨state, hs, hpe, hf 0 state hs⟩, hp _ ?_⟩
  rintro ⟨state', hs', -, incoming, ho⟩
  cases hs.symm.trans hs'
  exact Bool.false_ne_true (hpg.symm.trans ho.page)

end Reassembler

/-! ### A run that panics -/

namespace LastBlock

/-- Limits that keep four bytes of one flow. -/
def limits : Limits where
  maxFlows := 1
  maxBytesPerFlow := 4
  maxAggregateBytes := 16384
  maxSegmentsPerFlow := 1
  idleExpiry := 1

def grant : Allocator := ⟨fun _ => true, true, true⟩

/-- Some zeros of a stream that starts with sequence number zero. -/
def segment (offset length : ℕ) : Segment ℕ where
  flow := 0
  sequence := UInt32.ofNat offset
  payload := List.replicate length 0
  syn := false
  fin := false
  rst := false

/-- The flow after `n + 1` segments of four bytes. -/
def flow (n : ℕ) : TcpFlowState :=
  { new 0 0 (some 1) with
    nextOffset := 4 * n + 4
    historyStartOffset := 4 * n
    emittedHistory := ⟨[0, 0, 0, 0], 0, 4⟩ }

/-- The reassembler after `n + 1` segments of four bytes. -/
def table (n : ℕ) : Reassembler ℕ where
  limits
  flows := empty.insert 0 (flow n)
  expiry := ExpiryIndex.empty.insert (some 1) 0
  aggregateBytes := 4
  aggregateMemoryCharge := 260

/-- The new part of the next segment: all of it. -/
def incoming (n : ℕ) : IncomingPayload where
  sequence := UInt32.ofNat (4 * n + 4)
  finOffset := none
  payload := [0, 0, 0, 0]
  payloadStart := 0
  offset := 4 * n + 4
  remainingEnd := 4 * n + 8
  retransmitted := 0
  conflicting := false

/-- The next segment is delivered at once. -/
def planned (n : ℕ) : PlannedMerge where
  merge :=
    { initial (flow n) (4 * n + 4) [0, 0, 0, 0] 0 with
      segmentCount := 1
      emittedSegmentBytes := 4
      directOutput := true }
  pendingBytes := 4
  initialHistoryCapacity := 0
  historyAllocation := 4
  missingPages := 0
  closed := false
  aggregateBytes := 4
  aggregateMemoryCharge := 260

/-- The plan of the next segment. -/
def plan (n : ℕ) : PushPlan where
  payloadSequence := UInt32.ofNat (4 * n + 4)
  incomingFinOffset := none
  retransmitted := 0
  conflicting := false
  merge := (planned n).merge
  directPayload := some (0, 4)
  pendingBytes := 4
  initialHistoryCapacity := 0
  historyReplacement := none
  closed := false
  aggregateBytes := 4
  aggregateMemoryCharge := 260

section Step

variable {n : ℕ}

private theorem absoluteOffset_eq (n : ℕ) :
    absoluteOffset (flow n) (segment (4 * n + 4) 4) = (4 * n + 4 : ℕ) := by
  have hs : (flow n).nextSequence = (segment (4 * n + 4) 4).firstPayloadSequence := by
    exact UInt32.add_comm _ _
  rw [absoluteOffset, hs, serialOffset, UInt32.sub_self]
  rfl

section

variable (h : 4 * n + 8 < wordLimit)
include h

private theorem normalizePayload_eq :
    normalizePayload limits (flow n) (segment (4 * n + 4) 4) = .ok (incoming n) := by
  have hend : checkedAdd (4 * n + 4) 4 = some (4 * n + 8) := if_pos h
  have hw : wordOfInt ((4 * n + 4 : ℕ) : ℤ) = some (4 * n + 4) := wordOfInt_eq_some.mpr (by omega)
  unfold normalizePayload
  dsimp only
  rw [absoluteOffset_eq, if_neg (by omega), max_eq_left (by omega), hw]
  simp [incoming, segment, flow, limits, hend, segmentFinOffset, skipEmitted, validateSequenceBounds,
    Segment.firstPayloadSequence, new, slice, okOr, whenSome,
    rejectIf, List.replicate]

private theorem planPendingMerge_eq :
    planPendingMerge (flow n) (4 * n + 4) [0, 0, 0, 0] 0 (4 * n + 4) = .ok (planned n).merge := by
  have hend : checkedAdd (4 * n + 4) 4 = some (4 * n + 8) := if_pos h
  have hl : emittedLength (4 * n + 4) (4 * n + 4) (4 * n + 4 + 4) = .ok 4 := by
    rw [emittedLength, if_pos rfl, sub_eq (Nat.le_add_right _ _), Nat.add_sub_cancel_left]
  simp [planPendingMerge, hend, okOr, initial, hl, planned, flow,
    new, empty, lastBelow, between, size]
  rfl

private theorem plannedPages_eq :
    plannedPages limits (flow n) (incoming n) (planned n).merge = .ok (0, 0) := by
  have hk : Pages.pageKeys (4 * n + 4) (4 * n + 8) = [(4 * n + 4) / pageBytes] := by
    have hl : Pages.divCeil (4 * n + 8) pageBytes - (4 * n + 4) / pageBytes = 1 := by
      simp only [Pages.divCeil, pageBytes]
      omega
    simp only [Pages.pageKeys]
    rw [if_neg (by omega), hl]
    rfl
  have hb : (4 * n + 4) / pageBytes * pageBytes < wordLimit :=
    (Nat.div_mul_le_self _ _).trans_lt (by omega)
  simp [plannedPages, planned, initial, flow, Pages.remainingCount, hk, new]
  rw [mul_eq hb]
  rfl

private theorem planMergeAndAccounting_eq :
    planMergeAndAccounting limits (flow n) 0 0 (segment (4 * n + 4) 4) (incoming n) =
      .ok (planned n) := by
  have hend : checkedAdd (4 * n + 4) 4 = some (4 * n + 8) := if_pos h
  have hc : planPushAccounting limits (flow n) 4 0 4 1 0 0 true = .ok ⟨0, 4, 4, 260⟩ := by
    simp [planPushAccounting, limits, flow, History.capacity, memoryChargeParts,
      prospectiveHistory, plannedHistoryAllocation, checkedAdd, checkedMul, wordOf, wordLimit,
      saturatingAdd, okOr, rejectIf, pendingSegmentMetadataCharge,
      tcpFlowStateMetadataCharge]
  have hp : (checkedAdd (flow n).pendingBytes (planned n).merge.addedBytes).filter
      (fun bytes => decide (bytes ≤ limits.maxBytesPerFlow)) = some 4 := rfl
  have hm := planPendingMerge_eq h
  have hpg := plannedPages_eq h
  unfold planMergeAndAccounting
  simp only [show (flow n).nextOffset = 4 * n + 4 from rfl, show (incoming n).offset = 4 * n + 4 from rfl,
    show (incoming n).payload = [0, 0, 0, 0] from rfl, show (incoming n).payloadStart = 0 from rfl,
    show (planned n).merge.emittedSegmentBytes = 4 from rfl, hm, hpg, hp, hend,
    mapError, okOr, ok_bind, show checkedMul 0 pageCharge = some 0 from rfl]
  rw [show (planned n).merge.segmentCount = 1 from rfl,
    show closesFlow (flow n) (segment (4 * n + 4) 4) (incoming n) (4 * n + 8) = false from rfl,
    Bool.not_false, hc]
  rfl

private theorem plan_eq : (table n).plan grant (segment (4 * n + 4) 4) 0 = .ok (plan n) := by
  have ho : (table n).aggregatesWithout (some (flow n)) = .ok (0, 0) := by
    simp [Reassembler.aggregatesWithout, table, flow, new, retainedBytes,
      flowMemoryCharge, memoryChargeParts, empty, size, okOr, checkedAdd,
      checkedMul, checkedSub, wordOf, wordLimit, pageCharge, History.capacity,
      pendingSegmentMetadataCharge, tcpFlowStateMetadataCharge]
  have hp : transientPeak limits (flow n) 260 (planned n) = .ok 260 := by
    simp [transientPeak, flow, planned, History.capacity, new, empty,
      size, okOr, checkedAdd, checkedMul, wordOf, wordLimit,
      pendingSegmentMetadataCharge]
  have hf : (table n).flows.find? (segment (4 * n + 4) 4).flow = some (flow n) := rfl
  have hs : changesGeneration (some (flow n)) (segment (4 * n + 4) 4) = false := rfl
  have hst : (table n).planningState (segment (4 * n + 4) 4) 0 = .ok (flow n) := rfl
  unfold Reassembler.plan
  dsimp only
  rw [hf, ho, hs, hst]
  simp only [ok_bind, planPush, show (table n).limits = limits from rfl,
    show (table n).aggregateMemoryCharge = 260 from rfl, normalizePayload_eq h,
    planMergeAndAccounting_eq h, hp]
  rfl

end

/-- The flow while the next segment is carried out: its history makes room. -/
def drained (n : ℕ) : TcpFlowState :=
  { flow n with
    historyStartOffset := 4 * n + 4
    emittedHistory := ⟨[0, 0, 0, 0], 0, 0⟩
    pendingBytes := 4 }

private theorem mergeIntoFlow_eq (h : 4 * n + 8 < wordLimit) :
    mergeIntoFlow (flow n) 0 (plan n) [0, 0, 0, 0] = .ok (drained n, none) := by
  have hs : saturatingAdd (4 * n) 4 = 4 * n + 4 := saturatingAdd_eq (by omega)
  simp [mergeIntoFlow, trimEmittedHistory, History.drainPrefix, applyPendingMerge, applyMerge, plan,
    planned, drained, flow, hs, new, initial]

private theorem emitDirect_eq (h : 4 * n + 8 < wordLimit) :
    emitDirect (drained n) 0 (some [0, 0, 0, 0]) 4 =
      .ok (flow (n + 1), [.data 0 (flow n).nextSequence [0, 0, 0, 0]]) := by
  have hend : checkedAdd (4 * n + 4) 4 = some (4 * n + 8) := if_pos h
  have hs : saturatingAdd (4 * n + 4) 0 = 4 * n + 4 := saturatingAdd_eq (by omega)
  have hsp : saturatingAdd (4 * n + 4) 4 = 4 * n + 8 := saturatingAdd_eq h
  have hk : saturatingAdd 0 4 = 4 := rfl
  simp [emitDirect, emitData, drained, flow, appendEmittedHistory, hend, hs, hsp, hk,
    keepHistory, History.extend, History.clear, History.capacity, History.isEmpty, History.wrap,
    unwrap, assert, sub, add, overwrite, overwriteFrom, wordLimit]
  exact ⟨⟨by omega, rfl⟩, rfl⟩

/-- The next segment is delivered at once. -/
theorem push_eq (h : 4 * n + 8 < wordLimit) : (table n).push grant (segment (4 * n + 4) 4) 0 =
      (.ok [.data 0 (flow n).nextSequence [0, 0, 0, 0]], table (n + 1)) := by
  have hk : (table n).ignores (segment (4 * n + 4) 4) = false := rfl
  have hs : (table n).commitState (segment (4 * n + 4) 4) 0 = .ok (flow n) := rfl
  have hc : commitFlowPush (flow n) (segment (4 * n + 4) 4).flow 0
      (table n).limits.maxBytesPerFlow (plan n) ((plan n).directPayload.bind fun range =>
        checkedSlice (segment (4 * n + 4) 4).payload range.1 range.2)
      (segment (4 * n + 4) 4).payload =
        .ok (flow (n + 1), [.data 0 (flow n).nextSequence [0, 0, 0, 0]]) := by
    change commitFlowPush (flow n) 0 0 4 (plan n) (some [0, 0, 0, 0]) [0, 0, 0, 0] = _
    rw [commitFlowPush, mergeIntoFlow_eq h, ok_bind]
    dsimp only
    rw [emitDirect_eq h]
    rfl
  unfold Reassembler.push Reassembler.commitPush
  simp only [hk, plan_eq h, hs, hc, ok_bind]
  rfl

end Step

/-- The first `n` segments of four bytes. -/
def pushes (n : ℕ) : List (Op ℕ) :=
  (List.range n).map fun i => .push grant (segment (4 * i) 4) 0

/-- The reassembler before the first segment. -/
def start : Reassembler ℕ := ⟨limits, .empty, .empty, 0, 0⟩

/-- Segments in order are delivered one by one. -/
theorem run_pushes {n : ℕ} (h : 4 * n + 4 < wordLimit) : start.run (pushes (n + 1)) = table n := by
  induction n with
  | zero => rfl
  | succ n ih =>
    rw [pushes, List.range_succ, List.map_append, Reassembler.run_append]
    change ((start.run (pushes (n + 1))).push grant (segment (4 * (n + 1)) 4) 0).2 = table (n + 1)
    rw [ih (by omega)]
    exact congrArg Prod.snd (push_eq h)

/-- Eight bytes before the end of the offset space, one byte is pending after a gap. The byte
before the gap then makes the push panic. -/
theorem push_panics :
    Reassembler.new 0 limits = .ok start ∧
    ((start.run (pushes 4611686018427387902 ++
      [.push grant (segment 18446744073709551610 1) 0])).push grant
        (segment 18446744073709551608 1) 0).1 = .error (.panic .overflow) := by
  have hr : start.run (pushes 4611686018427387902) = table 4611686018427387901 :=
    run_pushes (by decide)
  refine ⟨rfl, ?_⟩
  rw [Reassembler.run_append, hr]
  decide +kernel

end LastBlock

end PacketCraftr.Tcp
