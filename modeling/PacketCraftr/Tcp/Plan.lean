import PacketCraftr.Tcp.Merge

/-!
# Planning a push

The last steps of planning in `tcp/pending.rs` and `tcp/pending/accounting.rs`: the charges that a
push leaves behind are computed and admitted before anything is allocated, and everything the
commit needs is allocated before anything changes.

`PushPlan.Sound` collects what a plan promises to the commit. The held offsets it leaves are
`plannedHeld`, and its page, segment and history counts are those of that set. Planning aborts only
when the delivery reaches the last block of the offset space (`OverflowsLastBlock`).
-/

open Finset Exec

namespace PacketCraftr.Tcp

variable {K : Type}

/-- The admitted charges of a push. -/
structure PushAccountingPlan where
  initialHistoryCapacity : ℕ
  historyAllocation : ℕ
  aggregateBytes : ℕ
  aggregateMemoryCharge : ℕ

section

variable (limits : Limits)

/-- The number of history bytes a push leaves behind. -/
def prospectiveHistory (state : TcpFlowState)
    (pendingBytes emittedSegmentBytes : ℕ) : ℕ :=
  min (saturatingAdd (min state.emittedHistory.len (limits.maxBytesPerFlow - pendingBytes))
    emittedSegmentBytes) (limits.maxBytesPerFlow - (pendingBytes - emittedSegmentBytes))

def planPushAccounting (state : TcpFlowState)
    (pendingBytes storageBytes emittedSegmentBytes segmentCount aggregateBaseBytes
      aggregateBaseMemoryCharge : ℕ) (retainsFlowState : Bool) : Exec Error PushAccountingPlan := do
  let initialHistoryCapacity := limits.maxBytesPerFlow - pendingBytes
  let finalPendingBytes := pendingBytes - emittedSegmentBytes
  let finalPendingSegments := segmentCount - if emittedSegmentBytes ≠ 0 then 1 else 0
  rejectIf (finalPendingSegments > limits.maxSegmentsPerFlow)
    (.resource (.segmentLimit limits.maxSegmentsPerFlow))
  let finalHistoryCapacity := limits.maxBytesPerFlow - finalPendingBytes
  let prospective := prospectiveHistory limits state pendingBytes emittedSegmentBytes
  let historyAllocation :=
    plannedHistoryAllocation state.emittedHistory.capacity prospective finalHistoryCapacity
  let prospectiveRetained ← okOr (checkedAdd finalPendingBytes prospective)
    limits.aggregateByteError
  -- A closed generation never enters the flow table, but its buffers remain budgeted.
  let prospectiveMemory ← okOr (memoryChargeParts storageBytes finalPendingSegments
    historyAllocation retainsFlowState) limits.aggregateByteError
  let prospectiveAggregateBytes ← okOr (checkedAdd aggregateBaseBytes prospectiveRetained)
    limits.aggregateByteError
  let prospectiveAggregateMemory ← okOr
    (checkedAdd aggregateBaseMemoryCharge prospectiveMemory) limits.aggregateByteError
  rejectIf (prospectiveAggregateBytes > limits.maxAggregateBytes ∨
    prospectiveAggregateMemory > limits.maxAggregateBytes) limits.aggregateByteError
  pure
    { initialHistoryCapacity, historyAllocation
      aggregateBytes := if retainsFlowState then prospectiveAggregateBytes else aggregateBaseBytes
      aggregateMemoryCharge :=
        if retainsFlowState then prospectiveAggregateMemory else aggregateBaseMemoryCharge }

structure PlannedMerge where
  merge : PendingMergePlan
  pendingBytes : ℕ
  initialHistoryCapacity : ℕ
  historyAllocation : ℕ
  missingPages : ℕ
  closed : Bool
  aggregateBytes : ℕ
  aggregateMemoryCharge : ℕ

section

variable (state : TcpFlowState)

/-- Pending data must not lie beyond the end that a FIN gives the stream. -/
def validatePendingFinalOffset (incoming : IncomingPayload) :
    Exec Error Unit :=
  whenSome incoming.finOffset fun finalOffset =>
    rejectIf ((state.pending.entries.getLast?.any fun last => decide (last.2 > finalOffset)) ∨
      incoming.remainingEnd > finalOffset) (.malformed (.beyondFinalSequence finalOffset))

/-- The number of pages to allocate, and the number of pages that the push leaves. -/
def plannedPages (incoming : IncomingPayload)
    (merge : PendingMergePlan) : Exec Error (ℕ × ℕ) :=
  if merge.emittedSegmentBytes ≠ 0 then do
    let count ← Pages.remainingCount state.pages state.pending merge.unionStart merge.unionEnd
    pure (0, count)
  else do
    let missing := (Pages.pageKeys incoming.offset incoming.remainingEnd).countP fun key =>
      !state.pages.contains key
    let count ← okOr (checkedAdd state.pages.size missing) limits.aggregateByteError
    pure (missing, count)

/-- Whether a push ends the generation. -/
def closesFlow (segment : Segment K) (incoming : IncomingPayload)
    (finalNextOffset : ℕ) : Bool :=
  segment.rst ||
    (state.finOffset.or incoming.finOffset).any fun offset => decide (finalNextOffset ≥ offset)

def planMergeAndAccounting (aggregateBaseBytes aggregateBaseMemoryCharge : ℕ) (segment : Segment K)
    (incoming : IncomingPayload) : Exec Error PlannedMerge := do
  let merge ← (planPendingMerge state incoming.offset incoming.payload incoming.payloadStart
    state.nextOffset).mapError fun _ => limits.flowByteError
  let pendingBytes ← okOr ((checkedAdd state.pendingBytes merge.addedBytes).filter
    fun bytes => decide (bytes ≤ limits.maxBytesPerFlow)) limits.flowByteError
  validatePendingFinalOffset state incoming
  let finalNextOffset ← okOr (checkedAdd state.nextOffset merge.emittedSegmentBytes)
    limits.flowByteError
  let closed := closesFlow state segment incoming finalNextOffset
  let (missingPages, finalPageCount) ← plannedPages limits state incoming merge
  let storageBytes ← okOr (checkedMul finalPageCount pageCharge) limits.aggregateByteError
  let accounting ← planPushAccounting limits state pendingBytes storageBytes
    merge.emittedSegmentBytes merge.segmentCount aggregateBaseBytes aggregateBaseMemoryCharge
    (!closed)
  pure
    { merge, pendingBytes
      initialHistoryCapacity := accounting.initialHistoryCapacity
      historyAllocation := accounting.historyAllocation
      missingPages, closed
      aggregateBytes := accounting.aggregateBytes
      aggregateMemoryCharge := accounting.aggregateMemoryCharge }

/-- Everything a push changes, allocated and admitted. -/
structure PushPlan where
  payloadSequence : UInt32
  incomingFinOffset : Option ℕ
  retransmitted : ℕ
  conflicting : Bool
  merge : PendingMergePlan
  directPayload : Option (ℕ × ℕ)
  pendingBytes : ℕ
  initialHistoryCapacity : ℕ
  historyReplacement : Option History
  closed : Bool
  aggregateBytes : ℕ
  aggregateMemoryCharge : ℕ

/-- The largest charge while the plan is carried out: the flow, its new pages, the output and the
new history, or the new segment descriptors, exist side by side. -/
def transientPeak (transientBaseMemoryCharge : ℕ)
    (planned : PlannedMerge) : Exec Error ℕ := do
  let history :=
    if state.emittedHistory.capacity ≠ planned.historyAllocation then planned.historyAllocation
    else 0
  let descriptors ← okOr (checkedMul (planned.merge.segmentCount - state.pending.size)
    pendingSegmentMetadataCharge) limits.aggregateByteError
  let pages ← okOr (checkedMul planned.missingPages pageCharge) limits.aggregateByteError
  let peak ← okOr (checkedAdd transientBaseMemoryCharge pages) limits.aggregateByteError
  let peak ← okOr (checkedAdd peak (if planned.merge.directOutput then 0
    else planned.merge.emittedSegmentBytes)) limits.aggregateByteError
  let peak ← okOr (checkedAdd peak history) limits.aggregateByteError
  okOr (checkedAdd peak (if planned.merge.emittedSegmentBytes = 0 then descriptors else 0))
    limits.aggregateByteError

end

/-- The part of the segment that is delivered without a copy. -/
def directRange (incoming : IncomingPayload) (merge : PendingMergePlan) :
    Exec Error (Option (ℕ × ℕ)) :=
  if merge.directOutput then do
    let stop ← okOr (checkedAdd incoming.payloadStart incoming.payload.length)
      limits.flowByteError
    pure (some (incoming.payloadStart, stop))
  else pure none

end

def planPush (alloc : Allocator) (limits : Limits) (state : TcpFlowState)
    (aggregateBaseBytes aggregateBaseMemoryCharge transientBaseMemoryCharge : ℕ)
    (segment : Segment K) : Exec Error PushPlan := do
  let incoming ← normalizePayload limits state segment
  let planned ← planMergeAndAccounting limits state aggregateBaseBytes aggregateBaseMemoryCharge
    segment incoming
  let peak ← transientPeak limits state transientBaseMemoryCharge planned
  rejectIf (peak > limits.maxAggregateBytes) limits.aggregateByteError
  let merge ← materializePendingMerge alloc state incoming.offset incoming.payload planned.merge
  let historyReplacement ← prepareEmittedHistory alloc.history state
    planned.initialHistoryCapacity planned.historyAllocation
  let directPayload ← directRange limits incoming planned.merge
  pure
    { payloadSequence := incoming.sequence
      incomingFinOffset := incoming.finOffset
      retransmitted := incoming.retransmitted
      conflicting := incoming.conflicting
      merge, directPayload
      pendingBytes := planned.pendingBytes
      initialHistoryCapacity := planned.initialHistoryCapacity
      historyReplacement
      closed := planned.closed
      aggregateBytes := planned.aggregateBytes
      aggregateMemoryCharge := planned.aggregateMemoryCharge }

/-! ### What a plan promises -/

/-- The offsets that a plan leaves pending. -/
def plannedHeld (state : TcpFlowState) (incoming : IncomingPayload) (merge : PendingMergePlan) :
    Finset ℕ :=
  if merge.emittedSegmentBytes ≠ 0 then state.held \ Ico merge.unionStart merge.unionEnd
  else state.held ∪ Ico incoming.offset incoming.remainingEnd

/-- The number of intervals that a plan leaves pending. -/
def PendingMergePlan.finalSegments (merge : PendingMergePlan) : ℕ :=
  merge.segmentCount - if merge.emittedSegmentBytes ≠ 0 then 1 else 0

/-- The history allocation that a plan leaves. -/
def plannedAllocation (limits : Limits) (state : TcpFlowState)
    (pendingBytes emittedSegmentBytes : ℕ) : ℕ :=
  plannedHistoryAllocation state.emittedHistory.capacity
    (prospectiveHistory limits state pendingBytes emittedSegmentBytes)
    (limits.maxBytesPerFlow - (pendingBytes - emittedSegmentBytes))

/-- The merge of a plan: none for an empty payload, otherwise the one with the touched
intervals. -/
structure PlansMerge (state : TcpFlowState) (incoming : IncomingPayload)
    (merge : PendingMergePlan) : Prop where
  of_nil : incoming.payload = [] → merge = PendingMergePlan.initial state incoming.offset
    incoming.payload incoming.payloadStart
  of_cons : incoming.payload ≠ [] →
    merge.Merges state incoming.offset incoming.payload incoming.payloadStart

/-- The charges of a plan are those of the state it leaves: `bytes` and `charge` are what the
other flows are charged. -/
structure ChargesPlanned (limits : Limits) (state : TcpFlowState) (bytes charge : ℕ)
    (incoming : IncomingPayload) (merge : PendingMergePlan) (pendingBytes : ℕ) (closed : Bool)
    (aggregateBytes aggregateMemoryCharge : ℕ) : Prop where
  bytes_le : bytes + (pendingBytes - merge.emittedSegmentBytes +
    prospectiveHistory limits state pendingBytes merge.emittedSegmentBytes) ≤
      limits.maxAggregateBytes
  charge_lt : chargeOf ((plannedHeld state incoming merge).image (· / pageBytes)).card
    merge.finalSegments (plannedAllocation limits state pendingBytes merge.emittedSegmentBytes) +
      (if closed then 0 else tcpFlowStateMetadataCharge) < wordLimit
  charge_le : charge + (chargeOf ((plannedHeld state incoming merge).image (· / pageBytes)).card
    merge.finalSegments (plannedAllocation limits state pendingBytes merge.emittedSegmentBytes) +
      if closed then 0 else tcpFlowStateMetadataCharge) ≤ limits.maxAggregateBytes
  bytes_eq : aggregateBytes = bytes + if closed then 0 else
    pendingBytes - merge.emittedSegmentBytes +
      prospectiveHistory limits state pendingBytes merge.emittedSegmentBytes
  charge_eq : aggregateMemoryCharge = charge + if closed then 0 else
    chargeOf ((plannedHeld state incoming merge).image (· / pageBytes)).card merge.finalSegments
      (plannedAllocation limits state pendingBytes merge.emittedSegmentBytes) +
      tcpFlowStateMetadataCharge

/-- The merge and the charges of a push are planned. -/
structure PlannedMerge.Sound (limits : Limits) (state : TcpFlowState) (bytes charge : ℕ)
    (segment : Segment K) (incoming : IncomingPayload) (planned : PlannedMerge) : Prop where
  merge : PlansMerge state incoming planned.merge
  pendingBytes_eq : planned.pendingBytes = state.pendingBytes + planned.merge.addedBytes
  pendingBytes_le : planned.pendingBytes ≤ limits.maxBytesPerFlow
  segments_le : planned.merge.finalSegments ≤ limits.maxSegmentsPerFlow
  capacity_eq : planned.initialHistoryCapacity = limits.maxBytesPerFlow - planned.pendingBytes
  allocation_eq : planned.historyAllocation = plannedAllocation limits state planned.pendingBytes
    planned.merge.emittedSegmentBytes
  next_lt : state.nextOffset + planned.merge.emittedSegmentBytes < wordLimit
  closed_eq : planned.closed = closesFlow state segment incoming
    (state.nextOffset + planned.merge.emittedSegmentBytes)
  fin_le : ∀ fin, incoming.finOffset = some fin →
    incoming.remainingEnd ≤ fin ∧ ∀ x ∈ state.held, x < fin
  charges : ChargesPlanned limits state bytes charge incoming planned.merge planned.pendingBytes
    planned.closed planned.aggregateBytes planned.aggregateMemoryCharge

namespace PlansMerge

variable {limits : Limits} {state : TcpFlowState} {segment : Segment K} {incoming : IncomingPayload}
  {merge : PendingMergePlan}

variable (h : PlansMerge state incoming merge)
include h

theorem payload_ne_nil (he : merge.emittedSegmentBytes ≠ 0) : incoming.payload ≠ [] := by
  intro hn
  rw [h.of_nil hn] at he
  exact he rfl

/-- A delivered payload is at the next expected offset, and the delivery is the union. -/
theorem of_emitted (hinv : state.Inv limits) (he : merge.emittedSegmentBytes ≠ 0) :
    incoming.offset = state.nextOffset ∧ merge.unionStart = state.nextOffset ∧
      merge.unionEnd = state.nextOffset + merge.emittedSegmentBytes := by
  have hne := h.payload_ne_nil he
  have hm := h.of_cons hne
  have heq := (hm.emitted_ne_zero_iff hne).mp he
  have hend := hm.end_le_unionEnd
  refine ⟨heq, hm.unionStart_eq_next hinv heq, ?_⟩
  rw [hm.emitted, if_pos heq]
  omega

/-- A payload that is not delivered lies beyond the next expected offset. -/
theorem next_lt_of_mem (hf : incoming.Fits limits state segment)
    (hz : merge.emittedSegmentBytes = 0) {x : ℕ}
    (hx : x ∈ Ico incoming.offset incoming.remainingEnd) : state.nextOffset < x := by
  rw [hf.end_eq, mem_Ico] at hx
  have hne : incoming.payload ≠ [] := by
    intro hn
    rw [hn, List.length_nil] at hx
    omega
  have ho : incoming.offset ≠ state.nextOffset := fun heq =>
    ((h.of_cons hne).emitted_ne_zero_iff hne).mpr heq hz
  have hnx := hf.next_le
  omega

theorem card_union (hinv : state.Inv limits) (hf : incoming.Fits limits state segment) :
    (state.held ∪ Ico incoming.offset incoming.remainingEnd).card =
      state.pendingBytes + merge.addedBytes := by
  by_cases hn : incoming.payload = []
  · rw [h.of_nil hn, hf.end_eq, hn, List.length_nil, Nat.add_zero, Ico_self, union_empty,
      hinv.pendingBytes_eq]
    rfl
  · rw [(h.of_cons hn).added_eq, hf.end_eq, hinv.pendingBytes_eq, union_comm,
      ← card_sdiff_add_card, Nat.add_comm]

theorem card_plannedHeld (hinv : state.Inv limits) (hf : incoming.Fits limits state segment) :
    (plannedHeld state incoming merge).card + merge.emittedSegmentBytes =
      state.pendingBytes + merge.addedBytes := by
  rw [← h.card_union hinv hf, plannedHeld]
  split_ifs with he
  · obtain ⟨-, hst, hend⟩ := h.of_emitted hinv he
    have hm := h.of_cons (h.payload_ne_nil he)
    have hp := hm.Ico_union hinv
    have hh := hm.held_inter_union hinv
    have hs : Ico merge.unionStart merge.unionEnd ⊆
        state.held ∪ Ico incoming.offset incoming.remainingEnd := by
      rw [hp, ← hh, hf.end_eq, union_comm]
      exact union_subset_union_left inter_subset_left
    have hemp : Ico incoming.offset incoming.remainingEnd \
        Ico merge.unionStart merge.unionEnd = ∅ := by
      rw [sdiff_eq_empty_iff_subset, hp, hf.end_eq]
      exact subset_union_left
    have hsd : state.held \ Ico merge.unionStart merge.unionEnd =
        (state.held ∪ Ico incoming.offset incoming.remainingEnd) \
          Ico merge.unionStart merge.unionEnd := by
      rw [union_sdiff_distrib, hemp, union_empty]
    have hc : (Ico merge.unionStart merge.unionEnd).card = merge.emittedSegmentBytes := by
      rw [Nat.card_Ico]
      omega
    rw [hsd, ← hc, card_sdiff_add_card_eq_card hs]
  · rw [not_not.mp he, Nat.add_zero]

end PlansMerge

/-- The offset belongs to the payload of the segment. -/
def SegmentCovers (state : TcpFlowState) (segment : Segment K) (x : ℕ) : Prop :=
  absoluteOffset state segment ≤ x ∧ (x : ℤ) < absoluteOffset state segment + segment.payload.length

/-- The segment gets as far as the count of the pages that its delivery leaves: it is well formed,
its bytes fit into the flow and agree with the end of the stream, if it carries one. It continues
the stream and makes it contiguous up to some offset of the last block, of which the flow holds a
page, and pending bytes remain behind the gap that begins there. -/
structure OverflowsLastBlock (limits : Limits) (state : TcpFlowState) (segment : Segment K)
    (incoming : IncomingPayload) : Prop where
  normalized : normalizePayload limits state segment = .ok incoming
  card_le : (state.held ∪ Ico incoming.offset incoming.remainingEnd).card ≤ limits.maxBytesPerFlow
  fin_le : ∀ fin, incoming.finOffset = some fin →
    incoming.remainingEnd ≤ fin ∧ ∀ x ∈ state.held, x < fin
  page : state.pages.contains Pages.lastBlock
  covers_next : SegmentCovers state segment state.nextOffset
  gap : ∃ stop, Pages.lastBlock * pageBytes < stop ∧
    (∀ x, state.nextOffset ≤ x → x < stop → x ∈ state.held ∨ SegmentCovers state segment x) ∧
    stop ∉ state.held ∧ ¬ SegmentCovers state segment stop ∧ ∃ y ∈ state.held, stop < y

section Planning

variable {limits : Limits} {state : TcpFlowState} {segment : Segment K} {incoming : IncomingPayload}
  {merge : PendingMergePlan} {bytes charge : ℕ}

/-- The new part of a payload is what its segment has from the next expected offset on. -/
theorem IncomingPayload.Fits.segmentCovers_iff (hf : incoming.Fits limits state segment)
    (hne : incoming.payload ≠ []) {x : ℕ} (hx : incoming.offset ≤ x) :
    SegmentCovers state segment x ↔ x < incoming.remainingEnd := by
  have ho := hf.offset_eq hne
  have hl := congrArg List.length hf.payload_eq
  have hs := hf.start_le
  rw [List.length_drop] at hl
  rw [hf.end_eq, SegmentCovers]
  omega

theorem IncomingPayload.Fits.segmentCovers (hf : incoming.Fits limits state segment) {x : ℕ}
    (hx : x ∈ Ico incoming.offset incoming.remainingEnd) : SegmentCovers state segment x := by
  obtain ⟨ho, hlt⟩ := mem_Ico.mp hx
  have hne : incoming.payload ≠ [] := by
    intro hn
    rw [hf.end_eq, hn, List.length_nil] at hlt
    omega
  exact (hf.segmentCovers_iff hne ho).mpr hlt

private theorem plannedPages_spec (hinv : state.Inv limits)
    (hf : incoming.Fits limits state segment) (hmg : PlansMerge state incoming merge)
    (hn : normalizePayload limits state segment = .ok incoming)
    (hle : state.pendingBytes + merge.addedBytes ≤ limits.maxBytesPerFlow)
    (hfin : ∀ fin, incoming.finOffset = some fin →
      incoming.remainingEnd ≤ fin ∧ ∀ x ∈ state.held, x < fin) :
    (plannedPages limits state incoming merge).EnsuresUnless
      (OverflowsLastBlock limits state segment incoming)
      fun (_, count) => count = ((plannedHeld state incoming merge).image (· / pageBytes)).card := by
  have hw := hf.window_lt
  have hend := hf.end_le
  have hen := hf.end_eq
  unfold plannedPages plannedHeld
  by_cases he : merge.emittedSegmentBytes ≠ 0
  · have hne := hmg.payload_ne_nil he
    have hm := hmg.of_cons hne
    obtain ⟨heq, hs, -⟩ := hmg.of_emitted hinv he
    have hp := List.length_pos_iff.mpr hne
    rw [if_pos he, if_pos he]
    have hc := Pages.remainingCount_spec (ε := Error) hinv.pages_exact
      hinv.separated.nonempty (fun a ha => hs ▸ (hinv.next_lt_start a ha).le)
      (fun a ha hlt => ?_) (hm.unionEnd_lt hinv (by omega))
    · refine EnsuresUnless.bind (hc.weaken ?_) fun count hc =>
        ensures_pure hc
      rintro ⟨hl, hr, a, ha, haf⟩
      have hh : a.1 ∈ state.held :=
        TcpFlowState.mem_held.mpr ⟨a, ha, le_rfl, hinv.separated.nonempty a ha⟩
      have hu := hm.unionEnd_notMem_held hinv
      have hue := hm.end_le_unionEnd
      refine ⟨hn, hmg.card_union hinv hf ▸ hle, hfin, hl,
        hf.segmentCovers (mem_Ico.mpr ⟨heq.le, by omega⟩), merge.unionEnd, hr, fun x hx hlt => ?_, hu,
        ?_, a.1, hh, lt_of_le_of_ne haf fun heq => hu (heq ▸ hh)⟩
      · have hx' : x ∈ Ico merge.unionStart merge.unionEnd := mem_Ico.mpr ⟨hs ▸ hx, hlt⟩
        rw [hm.Ico_union hinv, ← hen, ← hm.held_inter_union hinv, mem_union, mem_inter] at hx'
        exact hx'.elim (fun h => Or.inr (hf.segmentCovers h)) fun h => Or.inl h.1
      · rw [hf.segmentCovers_iff hne (by omega)]
        omega
    · by_cases hmem : a ∈ state.touched incoming.offset incoming.payload
      · rw [hm.unionEnd_eq]
        exact Intervals.le_hull_snd_of_mem hmem
      · have hap := hm.apart_of_notMem hinv ha hmem
        have hn := hinv.next_lt_start a ha
        omega
  · rw [if_neg he, if_neg he]
    dsimp only
    refine ensures_okOr_bind fun count hc => ensures_pure ?_
    obtain ⟨-, rfl⟩ := checkedAdd_eq_some.mp hc
    exact hinv.pages_exact.size_add_missing _ _

/-- Pending data does not lie beyond the end that the segment gives the stream. -/
private theorem validatePendingFinalOffset_spec {B : Prop} (hinv : state.Inv limits) :
    (validatePendingFinalOffset state incoming).EnsuresUnless B fun _ =>
      ∀ fin, incoming.finOffset = some fin →
        incoming.remainingEnd ≤ fin ∧ ∀ x ∈ state.held, x < fin := by
  refine ensures_whenSome fun fin _ => ensures_rejectIf fun hb => ?_
  rw [not_or, Bool.not_eq_true, Option.any_eq_false] at hb
  refine ⟨not_lt.mp hb.2, fun x hx => ?_⟩
  have hs : x + 1 ≤ (state.pending.entries.getLast?.map Prod.snd).getD 0 :=
    (le_sup (f := (· + 1)) hx).trans_eq hinv.separated.sup_cover
  cases hl : state.pending.entries.getLast? with
  | none =>
    rw [hl] at hs
    cases hs
  | some last =>
    have hlast_le := hb.1 last hl
    rw [hl, Option.map_some, Option.getD_some] at hs
    rw [decide_eq_false_iff_not] at hlast_le
    omega

private theorem planMergeAndAccounting_spec (hinv : state.Inv limits)
    (hf : incoming.Fits limits state segment)
    (hn : normalizePayload limits state segment = .ok incoming) :
    (planMergeAndAccounting limits state bytes charge segment incoming).EnsuresUnless
      (OverflowsLastBlock limits state segment incoming)
      (PlannedMerge.Sound limits state bytes charge segment incoming) := by
  refine ((planPendingMerge_spec hinv).mapError.weaken False.elim).bind fun merge hp => ?_
  have hm : PlansMerge state incoming merge := ⟨hp.1, hp.2⟩
  refine ensures_okOr_bind fun p hpn => ?_
  rw [Option.filter_eq_some_iff, checkedAdd_eq_some, decide_eq_true_eq] at hpn
  obtain ⟨⟨-, rfl⟩, hpd⟩ := hpn
  refine (validatePendingFinalOffset_spec hinv).bind fun _ hfin => ?_
  refine ensures_okOr_bind fun f hnf => ?_
  obtain ⟨hnx, rfl⟩ := checkedAdd_eq_some.mp hnf
  refine (plannedPages_spec hinv hf hm hn hpd hfin).bind ?_
  rintro ⟨m, count⟩ hcn
  dsimp only at hcn ⊢
  refine ensures_okOr_bind fun s hs => ?_
  obtain ⟨-, rfl⟩ := checkedMul_eq_some.mp hs
  simp only [planPushAccounting, bind_assoc]
  refine ensures_rejectIf_bind fun hsg => ?_
  refine ensures_okOr_bind fun r hr => ?_
  refine ensures_okOr_bind fun mm hmm => ?_
  refine ensures_okOr_bind fun total ht => ?_
  refine ensures_okOr_bind fun t htl => ?_
  obtain ⟨-, rfl⟩ := checkedAdd_eq_some.mp hr
  obtain ⟨hlt, rfl⟩ := memoryChargeParts_eq_some.mp hmm
  obtain ⟨-, rfl⟩ := checkedAdd_eq_some.mp ht
  obtain ⟨-, rfl⟩ := checkedAdd_eq_some.mp htl
  refine ensures_rejectIf_bind fun hl => ?_
  rw [not_or, not_lt, not_lt] at hl
  obtain ⟨hb, hc⟩ := hl
  rw [hcn] at hlt hc ⊢
  generalize hcl : closesFlow state segment incoming
    (state.nextOffset + merge.emittedSegmentBytes) = closed at hlt hc ⊢
  refine ensures_pure
    { merge := hm, pendingBytes_eq := rfl, pendingBytes_le := hpd
      segments_le := not_lt.mp hsg, capacity_eq := rfl, allocation_eq := rfl
      next_lt := hnx, closed_eq := hcl.symm, fin_le := hfin, charges := ?_ }
  cases closed <;> exact ⟨hb, hlt, hc, rfl, rfl⟩

end Planning

/-- Everything the commit of a push relies on. -/
structure PushPlan.Sound (limits : Limits) (state : TcpFlowState) (bytes charge : ℕ)
    (segment : Segment K) (incoming : IncomingPayload) (planned : PlannedMerge) (plan : PushPlan) :
    Prop where
  fits : incoming.Fits limits state segment
  normalized : incoming.Reports state segment
  sound : planned.Sound limits state bytes charge segment incoming
  merge_of_nil : incoming.payload = [] → plan.merge = planned.merge
  merge_of_cons : incoming.payload ≠ [] →
    planned.merge.Materialized state incoming.offset incoming.payload plan.merge
  direct_eq : plan.directPayload = if planned.merge.directOutput then
    some (incoming.payloadStart, incoming.payloadStart + incoming.payload.length) else none
  replacement_of_none : plan.historyReplacement = none →
    state.emittedHistory.capacity = planned.historyAllocation
  replacement_of_some : ∀ history, plan.historyReplacement = some history → history.Valid ∧
    history.capacity = planned.historyAllocation ∧ history.contents =
      state.emittedHistory.contents.drop
        (state.emittedHistory.len - planned.initialHistoryCapacity)
  sequence_eq : plan.payloadSequence = incoming.sequence
  finOffset_eq : plan.incomingFinOffset = incoming.finOffset
  retransmitted_eq : plan.retransmitted = incoming.retransmitted
  conflicting_eq : plan.conflicting = incoming.conflicting
  pendingBytes_eq : plan.pendingBytes = planned.pendingBytes
  capacity_eq : plan.initialHistoryCapacity = planned.initialHistoryCapacity
  closed_eq : plan.closed = planned.closed
  aggregateBytes_eq : plan.aggregateBytes = planned.aggregateBytes
  aggregateMemoryCharge_eq : plan.aggregateMemoryCharge = planned.aggregateMemoryCharge

section PlanPush

variable {limits : Limits} {state : TcpFlowState}

theorem prospectiveHistory_eq (hl : limits.maxBytesPerFlow ≤ Tcp.maxBytesPerFlow)
    (state : TcpFlowState) (p emitted : ℕ) :
    prospectiveHistory limits state p emitted =
      min (min state.emittedHistory.len (limits.maxBytesPerFlow - p) + emitted)
        (limits.maxBytesPerFlow - (p - emitted)) := by
  simp only [prospectiveHistory, saturatingAdd, wordLimit, Tcp.maxBytesPerFlow, serialHalf] at *
  omega

theorem prospectiveHistory_le_plannedAllocation (limits : Limits) (state : TcpFlowState)
    (p emitted : ℕ) :
    prospectiveHistory limits state p emitted ≤ plannedAllocation limits state p emitted :=
  le_plannedHistoryAllocation (min_le_right _ _)

theorem plannedAllocation_le (hinv : state.Inv limits) (p emitted : ℕ) :
    plannedAllocation limits state p emitted ≤ limits.maxBytesPerFlow :=
  (plannedHistoryAllocation_le _ _ _).trans (max_le hinv.capacity_le (Nat.sub_le _ _))

/-- A plan is sound. Planning aborts only when the delivery reaches the last block. -/
theorem planPush_spec (a : Allocator) (hinv : state.Inv limits)
    (hl : limits.maxBytesPerFlow ≤ Tcp.maxBytesPerFlow) (bytes charge t : ℕ)
    (segment : Segment K) :
    (planPush a limits state bytes charge t segment).EnsuresUnless
      (∃ incoming, OverflowsLastBlock limits state segment incoming) fun plan =>
        ∃ incoming planned, plan.Sound limits state bytes charge segment incoming planned := by
  have hns := normalizePayload_spec hinv segment
  refine EnsuresUnless.bind (P := fun incoming => normalizePayload limits state segment = .ok incoming)
    ⟨id, fun hx => (hns.of_eq_panic hx).elim⟩ fun incoming hn => ?_
  obtain ⟨hf, hrr⟩ := hns.of_eq_ok hn
  refine ((planMergeAndAccounting_spec hinv hf hn).weaken fun h => ⟨incoming, h⟩).bind
    fun planned hp => ?_
  refine EnsuresUnless.bind (P := fun _ => True) ?_ fun peak _ => ?_
  · unfold transientPeak
    refine ensures_okOr_bind fun _ _ => ensures_okOr_bind fun _ _ => ?_
    refine ensures_okOr_bind fun _ _ => ensures_okOr_bind fun _ _ => ?_
    exact ensures_okOr_bind fun _ _ => ensures_okOr fun _ _ => trivial
  refine ensures_rejectIf_bind fun _ => ?_
  refine EnsuresUnless.bind (P := fun merge =>
    (incoming.payload = [] → merge = planned.merge) ∧ (incoming.payload ≠ [] →
      planned.merge.Materialized state incoming.offset incoming.payload merge)) ?_ fun merge hm => ?_
  · by_cases hn : incoming.payload = []
    · have hz : planned.merge.addedBytes = 0 := by
        rw [hp.merge.of_nil hn, PendingMergePlan.initial, hn]
        rfl
      rw [materializePendingMerge, if_pos (Or.inl hz)]
      exact ensures_pure ⟨fun _ => rfl, fun hne => absurd hn hne⟩
    · have hend := hf.end_le
      have hw := hf.window_lt
      rw [hf.end_eq] at hend
      exact ((materializePendingMerge_spec a hinv (by omega) hn
        (hp.merge.of_cons hn)).weaken False.elim).mono
        fun merge hm => ⟨fun h => absurd h hn, fun _ => hm⟩
  have ha := plannedAllocation_le hinv planned.pendingBytes planned.merge.emittedSegmentBytes
  have hfit := prospectiveHistory_le_plannedAllocation limits state planned.pendingBytes
    planned.merge.emittedSegmentBytes
  rw [← hp.allocation_eq] at ha hfit
  have hrm : min state.emittedHistory.len planned.initialHistoryCapacity ≤
      planned.historyAllocation := by
    rw [prospectiveHistory_eq hl] at hfit
    rw [hp.capacity_eq]
    omega
  have hs : planned.historyAllocation < 2 ^ 63 := by
    simp only [Tcp.maxBytesPerFlow, serialHalf] at hl
    omega
  refine ((prepareEmittedHistory_spec hinv.history_valid hs hrm).weaken False.elim).bind
    fun r hr => ?_
  refine EnsuresUnless.bind (P := fun d => d = if planned.merge.directOutput then
    some (incoming.payloadStart, incoming.payloadStart + incoming.payload.length) else none) ?_
    fun d hd => ?_
  · unfold directRange
    split_ifs
    · refine ensures_okOr_bind fun stop hst => ensures_pure ?_
      rw [(checkedAdd_eq_some.mp hst).2]
    · exact ensures_pure rfl
  exact ensures_pure ⟨incoming, planned,
    { fits := hf, normalized := hrr, sound := hp, merge_of_nil := hm.1, merge_of_cons := hm.2
      direct_eq := hd, replacement_of_none := hr.1
      replacement_of_some := hr.2, sequence_eq := rfl, finOffset_eq := rfl
      retransmitted_eq := rfl, conflicting_eq := rfl, pendingBytes_eq := rfl, capacity_eq := rfl
      closed_eq := rfl, aggregateBytes_eq := rfl, aggregateMemoryCharge_eq := rfl }⟩

theorem planPush_times (a : Allocator) (limits : Limits) (state : TcpFlowState)
    (bytes charge t : ℕ) (segment : Segment K) (lastUpdate : ℕ) (deadline : Option ℕ) :
    planPush a limits { state with lastUpdate, deadline } bytes charge t segment =
      planPush a limits state bytes charge t segment := rfl

/-- A new generation holds nothing yet. -/
theorem not_overflowsLastBlock_new (segment : Segment K) (base : UInt32) (t : ℕ)
    (deadline : Option ℕ) :
    ¬ ∃ incoming, OverflowsLastBlock limits (.new base t deadline) segment incoming :=
  fun ⟨_, h⟩ => Bool.false_ne_true h.page

end PlanPush

end PacketCraftr.Tcp
