import PacketCraftr.Tcp.Engine

/-!
# Exact accounting of TCP reassembly

The charges are computed when a push is planned and stored without looking at the flows again, so
that their exactness is a statement about planning as well: what a plan predicts is what carrying it
out leaves.
-/

namespace PacketCraftr.Tcp.Reassembler

variable {K : Type} [LinearOrder K]

/-- The charges of a reassembler are those of its flows, and everything is within the limits. -/
structure Accounted (limits : Limits) (r : Reassembler K) : Prop where
  bytes_eq : r.aggregateBytes =
    r.flows.sum fun state => state.pendingBytes + state.emittedHistory.len
  flow_charge_eq : ∀ key state, r.flows.find? key = some state →
    flowMemoryCharge state = some state.charge
  charge_eq : r.aggregateMemoryCharge = r.flows.sum TcpFlowState.charge
  bytes_le : r.aggregateBytes ≤ limits.maxAggregateBytes
  charge_le : r.aggregateMemoryCharge ≤ limits.maxAggregateBytes
  flow_bytes_le : ∀ key state, r.flows.find? key = some state →
    state.pendingBytes + state.emittedHistory.len ≤ limits.maxBytesPerFlow
  segments_le : ∀ key state, r.flows.find? key = some state →
    state.pending.size ≤ limits.maxSegmentsPerFlow
  flows_le : r.flows.size ≤ limits.maxFlows

variable {r : Reassembler K} {segment : Segment K}

theorem Inv.accounted (h : r.Inv) : r.Accounted r.limits where
  bytes_eq := h.bytes_eq
  flow_charge_eq _ _ hf := h.flowMemoryCharge_eq hf
  charge_eq := h.charge_eq
  bytes_le := h.bytes_le
  charge_le := h.charge_le
  flow_bytes_le key state hf := (h.flow key state hf).retained_le
  segments_le key state hf := (h.flow key state hf).segments_le
  flows_le := h.flows_le

/-! ### The limits never change -/

theorem limits_store (r : Reassembler K) (segment : Segment K) (now : ℕ) (plan : PushPlan)
    (state : TcpFlowState) (events : List (Event K)) :
    (r.store segment now plan state events).2.limits = r.limits := by
  unfold store
  split_ifs <;> rfl

theorem limits_removeFlow (r : Reassembler K) (key : K) : (r.removeFlow key).2.limits = r.limits := by
  unfold removeFlow
  cases r.flows.find? key <;> rfl

theorem limits_removeFlows (r : Reassembler K) (keys : List K) :
    (r.removeFlows keys).2.limits = r.limits :=
  removeFlows_induction (P := fun r' => r'.limits = r.limits)
    (fun r' key h => (limits_removeFlow r' key).trans h) keys rfl

theorem find?_of_removeFlows {keys : List K} {key : K} {state : TcpFlowState} :
    (r.removeFlows keys).2.flows.find? key = some state → r.flows.find? key = some state := by
  refine removeFlows_induction (P := fun r' => r'.flows.find? key = some state →
    r.flows.find? key = some state) (fun r' key' hr' hf => hr' ?_) keys id
  unfold removeFlow at hf
  cases ho : r'.flows.find? key' with
  | none => rwa [ho] at hf
  | some other =>
    rw [ho] at hf
    rw [SortedMap.find?_erase] at hf
    split_ifs at hf
    exact hf

theorem limits_step (hinv : r.Inv) (op : Op K) : (r.step op).limits = r.limits := by
  cases op with
  | push a segment now =>
    have ho := push_outcome a hinv segment now
    change (r.push a segment now).2.limits = r.limits
    generalize r.push a segment now = out at ho ⊢
    cases ho with
    | ignored _ => rfl
    | failed _ _ => rfl
    | carried _ _ => exact limits_store ..
  | expire now => exact limits_removeFlows ..
  | flush => exact limits_removeFlows ..
  | evictFlow flow => exact limits_removeFlows ..

theorem inv_run {c : ℕ} {limits : Limits} {r₀ : Reassembler K}
    (hnew : Reassembler.new c limits = .ok r₀) (ops : List (Op K)) :
    (r₀.run ops).Inv ∧ (r₀.run ops).limits = limits :=
  run_induction (P := fun r => r.Inv ∧ r.limits = limits)
    (fun _ op h => ⟨h.1.step op, (limits_step h.1 op).trans h.2⟩) ops (inv_new hnew)

/-! ### Planned and actual charges -/

/-- Carrying out a plan returns, and leaves flows with the charges of the plan. -/
theorem plan_charges (hinv : r.Inv) {a : Allocator} {now : ℕ} {plan : PushPlan}
    (hp : r.plan a segment now = .ok plan) :
    ∃ events r', r.commitPush segment now plan = .ok (events, r') ∧ plan.aggregateBytes =
        (r'.flows.sum fun state => state.pendingBytes + state.emittedHistory.len) ∧
      plan.aggregateMemoryCharge = r'.flows.sum TcpFlowState.charge := by
  obtain ⟨state, incoming, planned, hs, hsn, hr, hsd⟩ := (plan_spec a hinv).of_eq_ok hp
  obtain ⟨⟨events, r'⟩, hcm, delivered, state', events', hcr, hsr⟩ :=
    commitPush_spec hinv hs hsn hr hsd
  have hinv' := hcr.inv_store hinv
  obtain ⟨hb, hc⟩ := aggregates_store r segment now plan state' events'
  rw [← hsr] at hinv' hb hc
  exact ⟨events, r', hcm, hb.symm.trans hinv'.bytes_eq, hc.symm.trans hinv'.charge_eq⟩

theorem plan_eq_error_of_push (hinv : r.Inv) {a : Allocator} {now : ℕ} {e : Failure Error}
    (h : (r.push a segment now).1 = .error e) :
    r.plan a segment now = .error e ∧ (r.push a segment now).2 = r := by
  unfold push at h ⊢
  split_ifs at h ⊢ with hi
  cases hp : r.plan a segment now with
  | error e' =>
    rw [hp] at h
    obtain rfl : e' = e := Except.error.inj h
    exact ⟨rfl, rfl⟩
  | ok plan =>
    obtain ⟨events, r', hc, -⟩ := plan_charges hinv hp
    rw [hp, Exec.ok_bind, hc] at h
    cases h

/-- **Exact accounting.** Whatever the operations were, the reassembler charges exactly its flows
and keeps within its limits; the charges of a plan are those of the flows that carrying it out
leaves; and a push that is rejected changes nothing. -/
theorem accounting_of_run {clock : ℕ} {limits : Limits} {r₀ : Reassembler K}
    (hnew : Reassembler.new clock limits = .ok r₀) (ops : List (Op K)) :
    (r₀.run ops).Accounted limits ∧
    (∀ alloc segment now plan, (r₀.run ops).plan alloc segment now = .ok plan →
      ∃ events r', (r₀.run ops).commitPush segment now plan = .ok (events, r') ∧
        plan.aggregateBytes =
          (r'.flows.sum fun state => state.pendingBytes + state.emittedHistory.len) ∧
        plan.aggregateMemoryCharge = r'.flows.sum TcpFlowState.charge) ∧
    ∀ alloc segment now e, ((r₀.run ops).push alloc segment now).1 = .error e →
      (r₀.run ops).plan alloc segment now = .error e ∧
        ((r₀.run ops).push alloc segment now).2 = r₀.run ops := by
  obtain ⟨hinv, hl⟩ := inv_run hnew ops
  refine ⟨hl ▸ hinv.accounted, ?_, ?_⟩
  · intro alloc segment now plan hp
    exact plan_charges hinv hp
  · intro alloc segment now e he
    exact plan_eq_error_of_push hinv he

/-- A first byte of a flow is delivered, a byte after a gap stays pending, and a flow that does not
exist is evicted: the two bytes and the flow are accounted for. -/
theorem accounting_of_run_pending :
    let grant : Allocator := ⟨fun _ => true, true, true⟩
    let r₀ : Reassembler ℕ := ⟨.default, .empty, .empty, 0, 0⟩
    let ops : List (Op ℕ) := [.push grant ⟨0, 7, [1], false, false, false⟩ 0,
      .push grant ⟨0, 9, [3], false, false, false⟩ 0, .evictFlow 1]
    Reassembler.new 0 .default = .ok r₀ ∧ (r₀.run ops).Accounted .default ∧
      (r₀.run ops).aggregateBytes = 2 :=
  ⟨rfl, (accounting_of_run (show Reassembler.new 0 .default = .ok _ from rfl) _).1, by decide +kernel⟩

end PacketCraftr.Tcp.Reassembler
