import PacketCraftr.Tcp.Transcript

/-!
# TCP conflict detection is exact over what is retained

The emitted history of a flow is a ring that is trimmed as pending data grows, replaced when its
allocation changes and extended by what is delivered. Whatever happened to it, it holds the end of
the delivered stream, so that the comparison of a segment with the history is one with the stream.
-/

open List

namespace PacketCraftr.Tcp

variable {K : Type}

def Event.delivered : Event K → Bytes
  | .data _ _ bytes => bytes
  | _ => []

/-- The delivered stream of a transcript. -/
def deliveredBytes (l : List (Accepted K)) : Bytes :=
  l.flatMap fun p => p.events.flatMap Event.delivered

/-- The history of the flow is the end of the delivered stream. -/
structure HoldsEnd (state : TcpFlowState) (l : List (Accepted K)) : Prop where
  next_eq : state.nextOffset = (deliveredBytes l).length
  contents_eq : state.emittedHistory.contents =
    (deliveredBytes l).drop ((deliveredBytes l).length - state.emittedHistory.len)

/-- The segment differs from a pending byte, or from a byte of the history unless it is a
keep-alive probe. -/
def Accepted.Conflicts (p : Accepted K) : Prop :=
  Clash p.before.heldByte (segmentByte p.before p.segment) ∨
    ¬ IsKeepAlive p.before p.segment ∧
      Clash p.before.historyByte (segmentByte p.before p.segment)

/-! ### The history -/

section History

variable {limits : Limits} {state : TcpFlowState} {l : List (Accepted K)} {p : Accepted K}

theorem HoldsEnd.historyByte_eq (h : HoldsEnd state l) (hinv : state.Inv limits) (x : ℕ) :
    state.historyByte x =
      if (deliveredBytes l).length - state.emittedHistory.len ≤ x then (deliveredBytes l)[x]?
      else none := by
  have hend := hinv.history_end
  have hs : state.historyStartOffset = (deliveredBytes l).length - state.emittedHistory.len := by
    rw [← h.next_eq]
    omega
  rw [TcpFlowState.historyByte, hs]
  split_ifs with hle
  · rw [h.contents_eq, getElem?_drop, Nat.add_sub_cancel' hle]
  · rfl

theorem Accepted.CarriedOut.flatMap_delivered {incoming : IncomingPayload} {planned : PlannedMerge}
    {plan : PushPlan} {delivered : Bytes}
    (h : p.CarriedOut limits incoming planned plan delivered) :
    p.events.flatMap Event.delivered = delivered := by
  have hr : (retransmissionEvents p.before p.segment.flow plan).flatMap Event.delivered = [] := by
    unfold retransmissionEvents
    dsimp only
    split_ifs <;> rfl
  have hc : (if plan.closed then [Event.closed p.segment.flow p.segment.rst]
      else []).flatMap Event.delivered = [] := by
    split_ifs <;> rfl
  rw [h.events_eq, flatMap_append, flatMap_append, hr, hc, nil_append, append_nil, dataEvents]
  split_ifs with hn
  · exact hn.symm
  · exact append_nil _

/-- The history after a push is the end of what was kept and of what the push delivers. -/
theorem HoldsEnd.push (hv : p.Valid limits) (h : HoldsEnd p.before l) :
    HoldsEnd p.after (l ++ [p]) := by
  obtain ⟨incoming, planned, plan, delivered, hc⟩ := hv
  obtain ⟨_, _, hcm⟩ := hc.committed
  have hs : deliveredBytes (l ++ [p]) = deliveredBytes l ++ delivered := by
    rw [deliveredBytes, flatMap_append, flatMap_singleton, hc.flatMap_delivered]
    rfl
  have hl : (deliveredBytes (l ++ [p])).length = (deliveredBytes l).length + delivered.length := by
    rw [hs, length_append]
  -- The history is no longer than what was delivered.
  have hend := hc.inv.history_end
  rw [h.next_eq] at hend
  have hk := congrArg List.length hcm.history_eq
  rw [History.length_contents hc.inv_after.history_valid, length_drop,
    length_append, History.length_contents hc.inv.history_valid] at hk
  constructor
  case next_eq => rw [hc.next_eq, hl, h.next_eq]
  case contents_eq =>
    calc p.after.emittedHistory.contents
        = (p.before.emittedHistory.contents ++ delivered).drop (p.before.emittedHistory.len +
            delivered.length - p.after.emittedHistory.len) := hcm.history_eq
      _ = ((deliveredBytes l ++ delivered).drop
            ((deliveredBytes l).length - p.before.emittedHistory.len)).drop
              (p.before.emittedHistory.len + delivered.length - p.after.emittedHistory.len) := by
          rw [h.contents_eq, drop_append_of_le_length (Nat.sub_le _ _)]
      _ = _ := by
          rw [drop_drop, hs, length_append]
          congr 1
          omega

theorem kept_holdsEnd : Kept (K := K) limits HoldsEnd where
  new _ _ _ := ⟨rfl, rfl⟩
  with_deadline _ _ _ h := ⟨h.next_eq, h.contents_eq⟩
  step _ _ hv _ h := h.push hv

end History

/-! ### The report -/

section Report

variable {limits : Limits} {p : Accepted K} {incoming : IncomingPayload} {planned : PlannedMerge}
  {plan : PushPlan} {delivered : Bytes}

/-- The overlaps with pending data conflict when a byte of the segment differs from a pending
one. -/
theorem Accepted.CarriedOut.overlap_conflicts_iff
    (h : p.CarriedOut limits incoming planned plan delivered) :
    plan.merge.hasConflictingOverlap = true ↔
      Clash p.before.heldByte (segmentByte p.before p.segment) := by
  have hinv := h.inv
  -- Pending offsets lie beyond the next expected one, where the segment is its new part.
  have hby : ∀ x ∈ p.before.held, segmentByte p.before p.segment x =
      if incoming.offset ≤ x then incoming.payload[x - incoming.offset]? else none := fun x hx =>
    h.fits.pieceAt_eq (hinv.next_lt_of_mem hx).le
  have hc : Clash p.before.heldByte (segmentByte p.before p.segment) ↔
      ∃ x ∈ p.before.held, incoming.offset ≤ x ∧ x < incoming.offset + incoming.payload.length ∧
        Pages.byteAt p.before.pages x ≠ incoming.payload[x - incoming.offset]? := by
    constructor
    · rintro ⟨x, a, b, ha, hb, hne⟩
      have hx : x ∈ p.before.held := hinv.mem_held_iff.mpr (by rw [ha]; rfl)
      rw [hby x hx] at hb
      split_ifs at hb with hle
      rw [TcpFlowState.heldByte, if_pos hx] at ha
      have hlt := (List.getElem?_eq_some_iff.mp hb).1
      refine ⟨x, hx, hle, by omega, ?_⟩
      rwa [ha, hb, ne_eq, Option.some_inj]
    · rintro ⟨x, hx, hle, hlt, hne⟩
      obtain ⟨a, ha⟩ := hinv.pages_exact.exists_byteAt hx
      have hb := getElem?_eq_getElem (show x - incoming.offset < incoming.payload.length by
        omega)
      rw [ha, hb, ne_eq, Option.some_inj] at hne
      refine ⟨x, a, _, ?_, ?_, hne⟩
      · rw [TcpFlowState.heldByte, if_pos hx, ha]
      · rw [hby x hx, if_pos hle, hb]
  rw [hc, h.merge_eq.2.2]
  by_cases hn : incoming.payload = []
  · rw [h.merge.of_nil hn, hn]
    refine iff_of_false Bool.false_ne_true ?_
    rintro ⟨x, -, hle, hlt, -⟩
    exact absurd hlt (not_lt.mpr hle)
  · exact (h.merge.of_cons hn).conflicting

theorem Accepted.CarriedOut.conflicts_iff
    (h : p.CarriedOut limits incoming planned plan delivered) :
    (plan.conflicting || plan.merge.hasConflictingOverlap) = true ↔ p.Conflicts := by
  rw [Bool.or_eq_true, h.reports.conflicting_iff, h.overlap_conflicts_iff, or_comm]
  rfl

/-- The flag of a report is whether the segment conflicts, and a conflict is reported. -/
theorem Accepted.Valid.conflicts_iff (h : p.Valid limits) : (∀ flow s bytes conflicting r,
      .retransmission flow s bytes conflicting r ∈ p.events → (conflicting = true ↔ p.Conflicts)) ∧
    (p.Conflicts → ∃ flow s bytes r, .retransmission flow s bytes true r ∈ p.events) := by
  obtain ⟨incoming, planned, plan, delivered, hc⟩ := h
  have hi := hc.conflicts_iff
  rw [hc.events_eq, append_assoc]
  constructor
  · intro flow s bytes conflicting r hmem
    rcases mem_append.mp hmem with hmem | hmem
    · unfold retransmissionEvents at hmem
      dsimp only at hmem
      split_ifs at hmem
      · cases mem_singleton.mp hmem
        exact hi
      · cases hmem
    · unfold dataEvents at hmem
      split_ifs at hmem <;> simp at hmem
  · intro hcn
    have ht := hi.mpr hcn
    refine ⟨p.segment.flow, plan.payloadSequence,
      saturatingAdd plan.retransmitted plan.merge.overlappingBytes,
      retransmittedRanges p.before plan, mem_append_left _ ?_⟩
    unfold retransmissionEvents
    rw [if_pos (Or.inr ht), ht]
    exact mem_singleton_self _

end Report

/-- **Conflict detection is exact.** Let a generation of a flow be transcribed along any run of a
reassembler with accepted limits.
* The history of a flow in the table holds the last bytes of the delivered stream, as many as it
  has.
* Before every push the history gives the bytes of the delivered stream at their offsets, and the
  flow expects the byte after that stream.
* The flag of every report is set exactly when a byte of the segment differs from the retained
  byte of the same offset, pending or in the history, where the byte of a keep-alive probe is not
  compared with the history; and a push with such a byte makes a report. -/
theorem conflicts_of_run [LinearOrder K] {clock : ℕ} {limits : Limits} {r₀ : Reassembler K}
    (hnew : Reassembler.new clock limits = .ok r₀) (key : K) (ops : List (Op K)) :
    let l := transcriptRun key r₀ [] ops
    (∀ state, (r₀.run ops).flows.find? key = some state → state.emittedHistory.contents =
      (deliveredBytes l).drop ((deliveredBytes l).length - state.emittedHistory.len) ∧
        state.emittedHistory.contents.length = state.emittedHistory.len) ∧
    (∀ done p rest, l = done ++ p :: rest →
      p.before.nextOffset = (deliveredBytes done).length ∧
      ∀ x, p.before.historyByte x =
        if (deliveredBytes done).length - p.before.emittedHistory.len ≤ x then
          (deliveredBytes done)[x]?
        else none) ∧
    ∀ p ∈ l,
      (∀ flow sequence bytes conflicting ranges,
        .retransmission flow sequence bytes conflicting ranges ∈ p.events →
          (conflicting = true ↔
            (∃ x a b, p.before.heldByte x = some a ∧ segmentByte p.before p.segment x = some b ∧
              a ≠ b) ∨
            ¬ IsKeepAlive p.before p.segment ∧
              ∃ x a b, p.before.historyByte x = some a ∧
                segmentByte p.before p.segment x = some b ∧ a ≠ b)) ∧
      (p.Conflicts → ∃ flow sequence bytes ranges,
        .retransmission flow sequence bytes true ranges ∈ p.events) := by
  intro l
  obtain ⟨ht, -, hlv⟩ := transcribed_of_run hnew key ops
  refine ⟨?_, ?_, ?_⟩
  · intro state hf
    have hinv := (Reassembler.inv_run hnew ops).1.flow key state hf
    refine ⟨?_, History.length_contents hinv.history_valid⟩
    obtain ⟨l', p, deadline, hl, ho, rfl⟩ := hlv state hf
    change _ = (deliveredBytes (transcriptRun key r₀ [] ops)).drop
      ((deliveredBytes (transcriptRun key r₀ [] ops)).length - _)
    rw [hl] at ht ⊢
    exact (ht.after kept_holdsEnd ho).contents_eq
  · intro done p rest hl
    obtain ⟨_, _, _, _, hc⟩ :=
      ht.valid p (by rw [show transcriptRun key r₀ [] ops = _ from hl]; simp)
    have h := ht.before kept_holdsEnd hl
    exact ⟨h.next_eq, h.historyByte_eq hc.inv⟩
  · intro p hp
    exact (ht.valid p hp).conflicts_iff

/-- After three bytes, a probe with another third byte is no conflict, and a segment with another
second byte is one. -/
theorem conflicts_of_run_probe :
    let grant : Allocator := ⟨fun _ => true, true, true⟩
    let r₀ : Reassembler ℕ := ⟨.default, .empty, .empty, 0, 0⟩
    let ops : List (Op ℕ) := [.push grant ⟨0, 7, [1, 2, 3], false, false, false⟩ 0,
      .push grant ⟨0, 9, [8], false, false, false⟩ 0,
      .push grant ⟨0, 8, [8], false, false, false⟩ 0]
    let l := transcriptRun 0 r₀ [] ops
    Reassembler.new 0 .default = .ok r₀ ∧
      (l.map fun p => p.events) = [[.data 0 7 [1, 2, 3]],
        [.retransmission 0 9 1 false [(9, 10)]], [.retransmission 0 8 1 true [(8, 9)]]] ∧
      ∀ p ∈ l, p.Conflicts → ∃ flow sequence bytes ranges,
        .retransmission flow sequence bytes true ranges ∈ p.events := by
  intro grant r₀ ops l
  have h := conflicts_of_run (show Reassembler.new 0 .default = .ok r₀ from rfl) 0 ops
  exact ⟨rfl, by decide +kernel, fun p hp => (h.2.2 p hp).2⟩

end PacketCraftr.Tcp
