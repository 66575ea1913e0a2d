import PacketCraftr.Tcp.Transcript

/-!
# TCP reassembly loses and duplicates no byte

Every byte of an accepted segment is delivered, stays pending, or is reported as a repetition, and
it is only one of these. Repeated bytes are counted in two places: the first bytes of the segment,
up to the next expected offset, and the overlaps with each pending interval. The ranges of a report
name both on the wire; here they are measured from the first payload byte of the segment.
-/

open List hiding Ico

namespace PacketCraftr.Tcp

variable {K : Type}

/-- The bytes that an event delivers. -/
def Event.dataBytes : Event K → ℕ
  | .data _ _ bytes => bytes.length
  | _ => 0

/-- The bytes that an event reports as repeated. -/
def Event.repeatedBytes : Event K → ℕ
  | .retransmission _ _ bytes _ _ => bytes
  | _ => 0

def pushedBytes (l : List (Accepted K)) : ℕ := (l.map fun p => p.segment.payload.length).sum

def dataBytes (l : List (Accepted K)) : ℕ :=
  (l.map fun p => (p.events.map Event.dataBytes).sum).sum

def repeatedBytes (l : List (Accepted K)) : ℕ :=
  (l.map fun p => (p.events.map Event.repeatedBytes).sum).sum

/-- The number of bytes from the first payload byte of a segment to a sequence number. -/
def Segment.distance (segment : Segment K) (sequence : UInt32) : ℕ :=
  (sequence - segment.firstPayloadSequence).toNat

/-- The ranges are disjoint parts of the segment, in order, and have so many bytes together. -/
structure Segment.Locates (segment : Segment K) (bytes : ℕ) (ranges : List (UInt32 × UInt32)) :
    Prop where
  ordered : ranges.Pairwise fun a b => segment.distance a.2 ≤ segment.distance b.1
  inside : ∀ range ∈ ranges, segment.distance range.1 < segment.distance range.2 ∧
    segment.distance range.2 ≤ segment.payload.length
  total : (ranges.map fun range => segment.distance range.2 - segment.distance range.1).sum = bytes

/-! ### Sequence numbers and offsets -/

section Distance

variable {state : TcpFlowState} {segment : Segment K}

/-- A segment starts at most half the sequence space before the next expected byte. -/
theorem le_absoluteOffset (state : TcpFlowState) (segment : Segment K) :
    (state.nextOffset : ℤ) ≤ absoluteOffset state segment + 2 ^ 31 := by
  have hle : (-2 ^ 31 : ℤ) ≤
      (segment.firstPayloadSequence - state.nextSequence).toBitVec.toInt := BitVec.le_toInt _
  unfold absoluteOffset serialOffset
  omega

theorem distance_offset {x n : ℕ} (hx : (x : ℤ) = absoluteOffset state segment + n)
    (hn : n < 2 ^ 32) :
    segment.distance (state.baseSequence + UInt32.ofNat x) = n := by
  have hf := segment.firstPayloadSequence.toNat_lt
  unfold absoluteOffset serialOffset TcpFlowState.nextSequence at hx
  rw [BitVec.toInt_eq_toNat_cond, UInt32.toNat_toBitVec, UInt32.toNat_sub, UInt32.toNat_add,
    UInt32.toNat_ofNat'] at hx
  rw [Segment.distance, UInt32.toNat_sub, UInt32.toNat_add, UInt32.toNat_ofNat']
  split_ifs at hx <;> omega

theorem distance_add {n : ℕ} (hn : n < 2 ^ 32) :
    segment.distance (segment.firstPayloadSequence + UInt32.ofNat n) = n := by
  rw [Segment.distance, UInt32.add_comm, UInt32.add_sub_cancel, UInt32.toNat_ofNat',
    Nat.mod_eq_of_lt hn]

end Distance

theorem sum_overlaps (lo hi : ℕ) (l : List (ℕ × ℕ)) :
    ((overlaps lo hi l).map fun a => a.2 - a.1).sum =
      (l.map fun a => min a.2 hi - max a.1 lo).sum := by
  unfold overlaps
  induction l with
  | nil => rfl
  | cons a l ih =>
    rw [List.map_cons, List.filter_cons, List.map_cons, List.sum_cons, ← ih]
    split_ifs with hlt
    · rw [List.map_cons, List.sum_cons]
    · rw [decide_eq_true_eq] at hlt
      omega

/-! ### One push -/

namespace Accepted.CarriedOut

variable {limits : Limits} {p : Accepted K} {incoming : IncomingPayload} {planned : PlannedMerge}
  {plan : PushPlan} {delivered : Bytes}

section

variable (h : p.CarriedOut limits incoming planned plan delivered)
include h

/-- The new part of a segment is added or repeats pending bytes. -/
theorem added_add_overlapping :
    planned.merge.addedBytes + planned.merge.overlappingBytes = incoming.payload.length := by
  by_cases hn : incoming.payload = []
  · rw [h.merge.of_nil hn]
    rfl
  · exact (h.merge.of_cons hn).added

theorem retransmitted_le : plan.retransmitted ≤ 2 ^ 31 := by
  have hp := le_absoluteOffset p.before p.segment
  by_contra hlt
  have hl := h.reports.retransmitted_le
  exact hlt ((h.reports.retransmitted_le_iff (2 ^ 31) (by omega)).mpr (by omega))

theorem length_incoming_le : incoming.payload.length ≤ limits.maxBytesPerFlow := by
  have hs := h.fits.end_eq
  have hn := h.fits.next_le
  have hle := h.fits.end_le
  omega

end

theorem saturatingAdd_retransmitted (hlim : limits.maxBytesPerFlow ≤ Tcp.maxBytesPerFlow)
    (h : p.CarriedOut limits incoming planned plan delivered) :
    saturatingAdd plan.retransmitted plan.merge.overlappingBytes =
      plan.retransmitted + planned.merge.overlappingBytes := by
  have hr := h.retransmitted_le
  have ha := h.added_add_overlapping
  have hl := h.length_incoming_le
  rw [h.merge_eq.1]
  refine saturatingAdd_eq ?_
  simp only [Tcp.maxBytesPerFlow, serialHalf, wordLimit] at *
  omega

theorem sum_dataBytes (h : p.CarriedOut limits incoming planned plan delivered) :
    (p.events.map Event.dataBytes).sum = delivered.length := by
  have hr : ((retransmissionEvents p.before p.segment.flow plan).map Event.dataBytes).sum =
      0 := by
    unfold retransmissionEvents
    dsimp only
    split_ifs <;> rfl
  have hc : ((if plan.closed then [Event.closed p.segment.flow p.segment.rst]
      else []).map Event.dataBytes).sum = 0 := by
    split_ifs <;> rfl
  rw [h.events_eq, map_append, map_append, sum_append, sum_append, hr,
    hc, Nat.zero_add, Nat.add_zero, dataEvents]
  split_ifs with hn
  · rw [hn]
    rfl
  · exact Nat.add_zero _

theorem sum_repeatedBytes (hlim : limits.maxBytesPerFlow ≤ Tcp.maxBytesPerFlow)
    (h : p.CarriedOut limits incoming planned plan delivered) :
    (p.events.map Event.repeatedBytes).sum =
      plan.retransmitted + planned.merge.overlappingBytes := by
  have hd : ((dataEvents p.segment.flow p.before.nextSequence delivered).map
      Event.repeatedBytes).sum = 0 := by
    unfold dataEvents
    split_ifs <;> rfl
  have hc : ((if plan.closed then [Event.closed p.segment.flow p.segment.rst]
      else []).map Event.repeatedBytes).sum = 0 := by
    split_ifs <;> rfl
  rw [h.events_eq, map_append, map_append, sum_append, sum_append, hd,
    hc, Nat.add_zero, ← h.saturatingAdd_retransmitted hlim]
  unfold retransmissionEvents
  dsimp only
  split_ifs with hr
  · exact Nat.add_zero _
  · exact (not_not.mp (not_or.mp hr).1).symm

/-- The overlaps with pending data are inside the new part of the segment, in order, and have as
many bytes as were counted. -/
theorem overlaps_spec (h : p.CarriedOut limits incoming planned plan delivered) :
    plan.merge.overlappingRanges.Pairwise (fun a b => a.2 ≤ b.1) ∧
      (∀ a ∈ plan.merge.overlappingRanges, incoming.payload ≠ [] ∧ incoming.offset ≤ a.1 ∧
        a.1 < a.2 ∧ a.2 ≤ incoming.offset + incoming.payload.length) ∧
      (plan.merge.overlappingRanges.map fun a => a.2 - a.1).sum =
        planned.merge.overlappingBytes := by
  rw [h.merge_eq.2.1]
  by_cases hn : incoming.payload = []
  · rw [h.merge.of_nil hn]
    exact ⟨Pairwise.nil, nofun, rfl⟩
  have hm := h.merge.of_cons hn
  have hs : Intervals.Separated (p.before.touched incoming.offset incoming.payload) :=
    h.inv.separated.filter _
  rw [hm.ranges]
  refine ⟨?_, ?_, ?_⟩
  · unfold overlaps
    refine (pairwise_map.mpr (hs.apart.imp ?_)).filter _
    intro a b hlt
    omega
  · intro a ha
    obtain ⟨hmem, hlt⟩ := mem_filter.mp ha
    obtain ⟨b, -, rfl⟩ := mem_map.mp hmem
    rw [decide_eq_true_eq] at hlt
    dsimp only at hlt ⊢
    exact ⟨hn, by omega, hlt, by omega⟩
  · rw [sum_overlaps, hs.sum_overlap, hm.overlapping, TcpFlowState.touched,
      Intervals.cover_touching_inter]
    rfl

variable (hlim : limits.maxBytesPerFlow ≤ Tcp.maxBytesPerFlow)
  (h : p.CarriedOut limits incoming planned plan delivered)
include hlim h

theorem distance_new (hne : incoming.payload ≠ []) {x : ℕ} (hle : incoming.offset ≤ x)
    (hx : x ≤ incoming.offset + incoming.payload.length) :
    p.segment.distance (p.before.baseSequence + UInt32.ofNat x) =
      plan.retransmitted + (x - incoming.offset) := by
  have ho := h.fits.offset_eq hne
  rw [h.payloadStart_eq] at ho
  have hr := h.retransmitted_le
  have hl := h.length_incoming_le
  refine distance_offset (by push_cast [hle]; omega) ?_
  simp only [Tcp.maxBytesPerFlow, serialHalf] at hlim
  omega

/-- The reported ranges are the repeated bytes of the segment. -/
theorem locates : p.segment.Locates (plan.retransmitted + planned.merge.overlappingBytes)
      (retransmittedRanges p.before plan) := by
  obtain ⟨ho, hi, ht⟩ := h.overlaps_spec
  have hsq : plan.payloadSequence = p.segment.firstPayloadSequence := by
    obtain ⟨_, _, hsn⟩ := h.sound
    rw [hsn.sequence_eq, hsn.fits.sequence_eq]
  have hl := h.length_payload
  have hrt := h.retransmitted_le
  have hst : p.segment.distance p.segment.firstPayloadSequence = 0 := by
    rw [Segment.distance, UInt32.sub_self]
    rfl
  have hs : p.segment.distance
      (p.segment.firstPayloadSequence + UInt32.ofNat plan.retransmitted) = plan.retransmitted :=
    distance_add (by omega)
  have hr : ∀ a ∈ plan.merge.overlappingRanges,
      p.segment.distance (p.before.baseSequence + UInt32.ofNat a.1) =
        plan.retransmitted + (a.1 - incoming.offset) ∧
      p.segment.distance (p.before.baseSequence + UInt32.ofNat a.2) =
        plan.retransmitted + (a.2 - incoming.offset) := by
    intro a ha
    obtain ⟨hne, hle, hlt, hend⟩ := hi a ha
    exact ⟨h.distance_new hlim hne hle (by omega), h.distance_new hlim hne (by omega) hend⟩
  unfold retransmittedRanges
  rw [hsq]
  constructor
  case ordered =>
    refine pairwise_append.mpr ⟨?_, ?_, ?_⟩
    · split_ifs
      · exact pairwise_singleton _ _
      · exact Pairwise.nil
    · refine pairwise_map.mpr (ho.imp_of_mem ?_)
      intro a b ha hb hle
      rw [(hr a ha).2, (hr b hb).1]
      omega
    · intro a ha b hb
      obtain ⟨c, hc, rfl⟩ := mem_map.mp hb
      split_ifs at ha
      · rw [List.mem_singleton.mp ha, hs, (hr c hc).1]
        omega
      · cases ha
  case inside =>
    intro range hmem
    rcases mem_append.mp hmem with hmem | hmem
    · split_ifs at hmem with hz
      · rw [List.mem_singleton.mp hmem, hst, hs]
        omega
      · cases hmem
    · obtain ⟨a, ha, rfl⟩ := mem_map.mp hmem
      obtain ⟨-, hle, hlt, hend⟩ := hi a ha
      rw [(hr a ha).1, (hr a ha).2]
      omega
  case total =>
    rw [map_append, sum_append]
    congr 1
    · split_ifs with hz
      · rw [List.map_singleton, List.sum_singleton, hst, hs, Nat.sub_zero]
      · exact (not_not.mp hz).symm
    · rw [List.map_map, ← ht]
      congr 1
      refine map_congr_left fun a ha => ?_
      obtain ⟨-, hle, hlt, -⟩ := hi a ha
      simp only [Function.comp_apply, hr a ha]
      omega

end Accepted.CarriedOut

/-! ### Transcripts -/

section Conservation

variable {limits : Limits} {l : List (Accepted K)} {p : Accepted K}

theorem pushedBytes_concat : pushedBytes (l ++ [p]) = pushedBytes l + p.segment.payload.length := by
  simp [pushedBytes]

theorem dataBytes_concat :
    dataBytes (l ++ [p]) = dataBytes l + (p.events.map Event.dataBytes).sum := by
  simp [dataBytes]

theorem repeatedBytes_concat :
    repeatedBytes (l ++ [p]) = repeatedBytes l + (p.events.map Event.repeatedBytes).sum := by
  simp [repeatedBytes]

/-- What was pushed is delivered, pending or reported as repeated. -/
def Conserved (state : TcpFlowState) (l : List (Accepted K)) : Prop :=
  pushedBytes l = dataBytes l + state.pendingBytes + repeatedBytes l

variable (hlim : limits.maxBytesPerFlow ≤ Tcp.maxBytesPerFlow)
include hlim

/-- A push keeps the balance: its payload is repeated, added or overlapping. -/
theorem Conserved.push (hv : p.Valid limits) (h : Conserved p.before l) :
    Conserved p.after (l ++ [p]) := by
  obtain ⟨incoming, planned, plan, delivered, hc⟩ := hv
  have hp := hc.pendingBytes_after
  have ha := hc.added_add_overlapping
  have hl := hc.length_payload
  unfold Conserved at h ⊢
  rw [pushedBytes_concat, dataBytes_concat, repeatedBytes_concat, hc.sum_dataBytes,
    hc.sum_repeatedBytes hlim]
  omega

theorem kept_conserved : Kept (K := K) limits Conserved where
  new _ _ _ := rfl
  with_deadline _ _ _ h := h
  step _ _ hv _ h := h.push hlim hv

theorem Accepted.Valid.locates (h : p.Valid limits) {flow : K} {s : UInt32} {bytes : ℕ}
    {conflicting : Bool} {r : List (UInt32 × UInt32)}
    (hmem : Event.retransmission flow s bytes conflicting r ∈ p.events) :
    p.segment.Locates bytes r := by
  obtain ⟨incoming, planned, plan, delivered, hc⟩ := h
  have hl := hc.locates hlim
  rw [← hc.saturatingAdd_retransmitted hlim] at hl
  rw [hc.events_eq, append_assoc, mem_append] at hmem
  rcases hmem with hmem | hmem
  · unfold retransmissionEvents at hmem
    dsimp only at hmem
    split_ifs at hmem
    · cases List.mem_singleton.mp hmem
      exact hl
    · cases hmem
  · unfold dataEvents at hmem
    split_ifs at hmem <;> simp at hmem

end Conservation

/-- **Conservation of payload bytes.** Let a generation of a flow be transcribed along any run of a
reassembler with accepted limits.
* After every accepted segment, the payload bytes pushed so far are the bytes of the data events,
  the bytes that the segment leaves pending and the bytes reported as repeated; a flow in the table
  has the bytes pending that its last segment left.
* The ranges of every report are disjoint, in stream order and inside its segment, and they have
  together the reported number of bytes. -/
theorem conservation_of_run [LinearOrder K] {clock : ℕ} {limits : Limits} {r₀ : Reassembler K}
    (hnew : Reassembler.new clock limits = .ok r₀) (key : K) (ops : List (Op K)) :
    let l := transcriptRun key r₀ [] ops
    (∀ done p rest, l = done ++ p :: rest → pushedBytes (done ++ [p]) =
      dataBytes (done ++ [p]) + p.after.pendingBytes + repeatedBytes (done ++ [p])) ∧
    (∀ state, (r₀.run ops).flows.find? key = some state →
      pushedBytes l = dataBytes l + state.pendingBytes + repeatedBytes l) ∧
    ∀ p ∈ l, ∀ flow sequence bytes conflicting ranges,
      .retransmission flow sequence bytes conflicting ranges ∈ p.events →
        ranges.Pairwise (fun a b => p.segment.distance a.2 ≤ p.segment.distance b.1) ∧
        (∀ range ∈ ranges, p.segment.distance range.1 < p.segment.distance range.2 ∧
          p.segment.distance range.2 ≤ p.segment.payload.length) ∧
        (ranges.map fun range => p.segment.distance range.2 - p.segment.distance range.1).sum =
          bytes := by
  intro l
  obtain ⟨ht, -, hlv⟩ := transcribed_of_run hnew key ops
  have hlim : limits.maxBytesPerFlow ≤ Tcp.maxBytesPerFlow :=
    Limits.maxBytesPerFlow_le_of_validate (Reassembler.new_eq hnew).1
  refine ⟨?_, ?_, ?_⟩
  · intro done p rest hl
    have hv := ht.valid p (by rw [show transcriptRun key r₀ [] ops = _ from hl]; simp)
    exact (ht.before (kept_conserved hlim) hl).push hlim hv
  · intro state hf
    obtain ⟨l', p, deadline, hl, ho, rfl⟩ := hlv state hf
    change Conserved p.after (transcriptRun key r₀ [] ops)
    rw [hl] at ht ⊢
    exact ht.after (kept_conserved hlim) ho
  · intro p hp flow sequence bytes conflicting ranges hmem
    have h := (ht.valid p hp).locates hlim hmem
    exact ⟨h.ordered, h.inside, h.total⟩

/-- Two bytes are delivered, one stays pending, and a segment that repeats one of each brings three
more: it is delivered together with the pending byte. -/
theorem conservation_of_run_overlap :
    let grant : Allocator := ⟨fun _ => true, true, true⟩
    let r₀ : Reassembler ℕ := ⟨.default, .empty, .empty, 0, 0⟩
    let ops : List (Op ℕ) := [.push grant ⟨0, 7, [1, 2], false, false, false⟩ 0,
      .push grant ⟨0, 11, [5], false, false, false⟩ 0,
      .push grant ⟨0, 8, [2, 3, 4, 5, 6], false, false, false⟩ 0]
    let l := transcriptRun 0 r₀ [] ops
    Reassembler.new 0 .default = .ok r₀ ∧ pushedBytes l = 8 ∧ dataBytes l = 6 ∧
      repeatedBytes l = 2 ∧
      ∀ done p rest, l = done ++ p :: rest → pushedBytes (done ++ [p]) =
        dataBytes (done ++ [p]) + p.after.pendingBytes + repeatedBytes (done ++ [p]) := by
  intro grant r₀ ops l
  exact ⟨rfl, by decide +kernel, by decide +kernel, by decide +kernel,
    (conservation_of_run (show Reassembler.new 0 .default = .ok r₀ from rfl) 0 ops).1⟩

end PacketCraftr.Tcp
