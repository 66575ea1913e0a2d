import PacketCraftr.Tcp.Commit

/-!
# The TCP reassembler

`tcp/engine.rs` and the flow-table part of `tcp/pending/commit.rs`: the table of flows with its
deadlines and its aggregate charges. An operation returns its result together with the
reassembler it leaves; an operation that fails leaves the reassembler as it was.
-/

open SortedMap

namespace PacketCraftr.Tcp

open Exec

variable {K : Type} [LinearOrder K]

/-- The table of flows, their deadlines, and what they are charged together. -/
structure Reassembler (K : Type) [LinearOrder K] where
  limits : Limits
  flows : SortedMap K TcpFlowState
  expiry : ExpiryIndex K
  aggregateBytes : ℕ
  aggregateMemoryCharge : ℕ

/-- Whether a segment starts a new generation of its flow. -/
def changesGeneration (existing : Option TcpFlowState) (segment : Segment K) : Bool :=
  (segment.syn || existing.isNone) &&
    existing.all fun state => state.baseSequence != segment.firstPayloadSequence

namespace Reassembler

def new (clock : ℕ) (limits : Limits) : Except InvalidLimit (Reassembler K) := do
  limits.validate clock
  pure ⟨limits, .empty, .empty, 0, 0⟩

/-- The charges of the other flows. -/
def aggregatesWithout (r : Reassembler K) (existing : Option TcpFlowState) :
    Exec Error (ℕ × ℕ) := do
  let oldRetainedBytes ← okOr (existing.elim (some 0) retainedBytes)
    r.limits.aggregateByteError
  let oldMemoryCharge ← okOr (existing.elim (some 0) flowMemoryCharge)
    r.limits.aggregateByteError
  let aggregateBytes ← okOr (checkedSub r.aggregateBytes oldRetainedBytes)
    r.limits.aggregateByteError
  let aggregateMemoryCharge ← okOr (checkedSub r.aggregateMemoryCharge oldMemoryCharge)
    r.limits.aggregateByteError
  pure (aggregateBytes, aggregateMemoryCharge)

/-- The state a push is planned on: that of the flow, or an empty one for a new generation. -/
def planningState (r : Reassembler K) (segment : Segment K) (now : ℕ) : Exec Error TcpFlowState :=
  if changesGeneration (r.flows.find? segment.flow) segment then
    pure (.new segment.firstPayloadSequence now (checkedAddInstant now r.limits.idleExpiry))
  else unwrap (r.flows.find? segment.flow)

/-- Plan a push, without changing anything. -/
def plan (alloc : Allocator) (r : Reassembler K) (segment : Segment K) (now : ℕ) :
    Exec Error PushPlan := do
  let existing := r.flows.find? segment.flow
  rejectIf (changesGeneration existing segment ∧
    r.flows.size - (if existing.isSome then 1 else 0) ≥ r.limits.maxFlows)
    (.resource (.flowLimit r.limits.maxFlows))
  let (aggregateBytes, aggregateMemoryCharge) ← r.aggregatesWithout existing
  let state ← r.planningState segment now
  planPush alloc r.limits state aggregateBytes aggregateMemoryCharge r.aggregateMemoryCharge segment

section

variable (r : Reassembler K)

variable (segment : Segment K)

/-- The last update of the flow of a segment, when it is pushed. -/
def lastUpdate (now : ℕ) : ℕ :=
  (r.flows.find? segment.flow).elim now fun state => max state.lastUpdate now

def deadline (now : ℕ) : Option ℕ :=
  checkedAddInstant (r.lastUpdate segment now) r.limits.idleExpiry

/-- The state a plan is carried out on. -/
def commitState (now : ℕ) : Exec Error TcpFlowState :=
  if changesGeneration (r.flows.find? segment.flow) segment then
    pure (.new segment.firstPayloadSequence (r.lastUpdate segment now) (r.deadline segment now))
  else unwrap (r.flows.find? segment.flow)

/-- Put the state of a pushed flow into the table, or drop it when the push closed the flow. -/
def store (now : ℕ) (plan : PushPlan)
    (state : TcpFlowState) (events : List (Event K)) : List (Event K) × Reassembler K :=
  let flow := segment.flow
  let previousDeadline := (r.flows.find? flow).bind TcpFlowState.deadline
  let deadline := r.deadline segment now
  if plan.closed then
    (events ++ [.closed flow segment.rst],
      { r with
        flows := r.flows.erase flow
        expiry := r.expiry.remove previousDeadline flow
        aggregateBytes := plan.aggregateBytes
        aggregateMemoryCharge := plan.aggregateMemoryCharge })
  else
    (events,
      { r with
        flows := r.flows.insert flow { state with deadline }
        expiry :=
          if previousDeadline ≠ deadline then
            (r.expiry.remove previousDeadline flow).insert deadline flow
          else r.expiry
        aggregateBytes := plan.aggregateBytes
        aggregateMemoryCharge := plan.aggregateMemoryCharge })

theorem aggregates_store (now : ℕ) (plan : PushPlan)
    (state : TcpFlowState) (events : List (Event K)) :
    (r.store segment now plan state events).2.aggregateBytes = plan.aggregateBytes ∧
      (r.store segment now plan state events).2.aggregateMemoryCharge =
        plan.aggregateMemoryCharge := by
  unfold store
  split_ifs <;> exact ⟨rfl, rfl⟩

/-- Carry out the plan of a push. -/
def commitPush (now : ℕ) (plan : PushPlan) :
    Exec Error (List (Event K) × Reassembler K) := do
  let directPayload := plan.directPayload.bind fun range =>
    checkedSlice segment.payload range.1 range.2
  let state ← r.commitState segment now
  let (state, events) ← commitFlowPush state segment.flow now r.limits.maxBytesPerFlow plan
    directPayload segment.payload
  pure (r.store segment now plan state events)

/-- Whether a segment says nothing about a flow that is not known. -/
def ignores : Bool :=
  segment.payload.isEmpty && !segment.syn && !segment.fin && !segment.rst &&
    !r.flows.contains segment.flow

end

def push (alloc : Allocator) (r : Reassembler K) (segment : Segment K) (now : ℕ) :
    Exec Error (List (Event K)) × Reassembler K :=
  if r.ignores segment then (.ok [], r)
  else
    match r.plan alloc segment now >>= r.commitPush segment now with
    | .ok (events, r') => (.ok events, r')
    | .error e => (.error e, r)

variable (r : Reassembler K)

/-- Drop one flow, reporting the gap before its pending data. -/
def removeFlow (key : K) : List (Event K) × Reassembler K :=
  match r.flows.find? key with
  | none => ([], r)
  | some state =>
    let gap := match state.pending.entries.head? with
      | some (next, _) =>
        if next > state.nextOffset then
          [.gap key state.nextSequence (state.baseSequence + UInt32.ofNat next)]
        else []
      | none => []
    (gap ++ [.evicted key state.pendingBytes],
      { r with
        flows := r.flows.erase key
        expiry := r.expiry.remove state.deadline key
        aggregateBytes := r.aggregateBytes - (retainedBytes state).getD 0
        aggregateMemoryCharge := r.aggregateMemoryCharge - (flowMemoryCharge state).getD 0 })

/-- Drop flows, in the order of their keys. -/
def removeFlows (keys : List K) : List (Event K) × Reassembler K :=
  (keys.mergeSort fun a b => decide (a ≤ b)).foldl (fun (events, r) key =>
    let (removed, r') := r.removeFlow key
    (events ++ removed, r')) ([], r)

def expire (now : ℕ) : List (Event K) × Reassembler K :=
  let (keys, expiry) := r.expiry.takeExpired now
  removeFlows { r with expiry } keys

def flush : List (Event K) × Reassembler K := r.removeFlows r.flows.keys

def evictFlow (flow : K) : List (Event K) × Reassembler K :=
  r.removeFlows [flow]

end Reassembler

inductive Op (K : Type)
  | push (alloc : Allocator) (segment : Segment K) (now : ℕ)
  | expire (now : ℕ)
  | flush
  | evictFlow (flow : K)

namespace Reassembler

def step (r : Reassembler K) : Op K → Reassembler K
  | .push alloc segment now => (r.push alloc segment now).2
  | .expire now => (r.expire now).2
  | .flush => r.flush.2
  | .evictFlow flow => (r.evictFlow flow).2

def run (r : Reassembler K) (ops : List (Op K)) : Reassembler K := ops.foldl step r

theorem run_append (r : Reassembler K) (ops ops' : List (Op K)) :
    r.run (ops ++ ops') = (r.run ops).run ops' :=
  List.foldl_append

variable {P : Reassembler K → Prop} {r : Reassembler K}

theorem run_induction (hs : ∀ r op, P r → P (r.step op)) (ops : List (Op K)) (h : P r) :
    P (r.run ops) := by
  induction ops generalizing r with
  | nil => exact h
  | cons op ops ih => exact ih (hs r op h)

/-- What dropping one flow keeps, dropping several flows keeps. -/
theorem removeFlows_induction (hs : ∀ r key, P r → P (r.removeFlow key).2) (keys : List K)
    (h : P r) :
    P (r.removeFlows keys).2 := by
  suffices ∀ (l : List K) (acc : List (Event K) × Reassembler K), P acc.2 →
      P (l.foldl (fun x key => (x.1 ++ (x.2.removeFlow key).1, (x.2.removeFlow key).2)) acc).2
    from this _ _ h
  intro l
  induction l with
  | nil => exact fun _ h => h
  | cons key l ih => exact fun acc h => ih _ (hs acc.2 key h)

/-! ### The invariant of the table -/

/-- What holds of a reassembler between two operations. -/
structure Inv (r : Reassembler K) : Prop where
  limits_le : r.limits.maxBytesPerFlow ≤ Tcp.maxBytesPerFlow
  flow : ∀ key state, r.flows.find? key = some state → state.Inv r.limits
  charge_lt : ∀ key state, r.flows.find? key = some state → state.charge < wordLimit
  bytes_eq : r.aggregateBytes =
    r.flows.sum fun state => state.pendingBytes + state.emittedHistory.len
  charge_eq : r.aggregateMemoryCharge = r.flows.sum TcpFlowState.charge
  bytes_le : r.aggregateBytes ≤ r.limits.maxAggregateBytes
  charge_le : r.aggregateMemoryCharge ≤ r.limits.maxAggregateBytes
  flows_le : r.flows.size ≤ r.limits.maxFlows

theorem new_eq {c : ℕ} {limits : Limits} (h : Reassembler.new c limits = .ok r) :
    limits.validate c = .ok () ∧ r = ⟨limits, .empty, .empty, 0, 0⟩ := by
  unfold Reassembler.new at h
  cases hv : limits.validate c with
  | error e =>
    rw [hv] at h
    cases h
  | ok u =>
    rw [hv] at h
    cases h
    exact ⟨rfl, rfl⟩

theorem inv_new {c : ℕ} {limits : Limits} (h : Reassembler.new c limits = .ok r) :
    r.Inv ∧ r.limits = limits := by
  obtain ⟨hv, rfl⟩ := new_eq h
  exact ⟨
    { limits_le := Limits.maxBytesPerFlow_le_of_validate hv
      flow := nofun
      charge_lt := nofun
      bytes_eq := rfl
      charge_eq := rfl
      bytes_le := Nat.zero_le _
      charge_le := Nat.zero_le _
      flows_le := Nat.zero_le _ }, rfl⟩

/-! ### What a push does -/

section Push

variable {r : Reassembler K} {segment : Segment K} {now : ℕ}

/-- What the other flows than that of the segment hold. -/
def otherBytes (r : Reassembler K) (segment : Segment K) : ℕ :=
  (r.flows.erase segment.flow).sum fun state => state.pendingBytes + state.emittedHistory.len

/-- What the other flows than that of the segment are charged. -/
def otherCharge (r : Reassembler K) (segment : Segment K) : ℕ :=
  (r.flows.erase segment.flow).sum TcpFlowState.charge

/-- Planning the push aborts: see `OverflowsLastBlock`. -/
def Overflows (r : Reassembler K) (segment : Segment K) : Prop :=
  ∃ state, r.flows.find? segment.flow = some state ∧
    changesGeneration (some state) segment = false ∧
      ∃ incoming, OverflowsLastBlock r.limits state segment incoming

/-- The push continues `state`, is planned as `plan`, delivers `delivered`, and leaves
`state'`. -/
structure Carried (r : Reassembler K) (segment : Segment K) (now : ℕ) (state : TcpFlowState)
    (incoming : IncomingPayload) (planned : PlannedMerge) (plan : PushPlan) (delivered : Bytes)
    (state' : TcpFlowState) (events : List (Event K)) : Prop where
  state_eq : r.commitState segment now = .ok state
  room : changesGeneration (r.flows.find? segment.flow) segment →
    (r.flows.erase segment.flow).size < r.limits.maxFlows
  sound : plan.Sound r.limits state (r.otherBytes segment) (r.otherCharge segment) segment incoming
    planned
  committed : Committed r.limits state segment.flow now incoming planned plan delivered state' events

inductive PushOutcome (r : Reassembler K) (segment : Segment K) (now : ℕ) :
    Exec Error (List (Event K)) × Reassembler K → Prop
  | ignored (h : r.ignores segment) : PushOutcome r segment now (.ok [], r)
  | failed (e : Failure Error) (h : ∀ p, e = .panic p → r.Overflows segment) :
    PushOutcome r segment now (.error e, r)
  | carried {state incoming planned plan delivered state' events}
    (hknown : r.ignores segment = false)
    (h : r.Carried segment now state incoming planned plan delivered state' events) :
    PushOutcome r segment now
      (.ok (r.store segment now plan state' events).1, (r.store segment now plan state' events).2)

variable {state : TcpFlowState}

theorem Inv.retainedBytes_eq (hinv : r.Inv) {key : K} (h : r.flows.find? key = some state) :
    retainedBytes state = some (state.pendingBytes + state.emittedHistory.len) := by
  have hle := (hinv.flow key state h).retained_le
  have hl := hinv.limits_le
  rw [retainedBytes, checkedAdd_eq_some]
  refine ⟨?_, rfl⟩
  simp only [Tcp.maxBytesPerFlow, serialHalf, wordLimit] at *
  omega

theorem Inv.flowMemoryCharge_eq (hinv : r.Inv) {key : K} (h : r.flows.find? key = some state) :
    flowMemoryCharge state = some state.charge :=
  flowMemoryCharge_eq_some.mpr ⟨hinv.charge_lt key state h, rfl⟩

theorem aggregatesWithout_eq (hinv : r.Inv) : r.aggregatesWithout (r.flows.find? segment.flow) =
      .ok (r.otherBytes segment, r.otherCharge segment) := by
  unfold aggregatesWithout
  rw [hinv.bytes_eq, hinv.charge_eq]
  cases h : r.flows.find? segment.flow with
  | none =>
    rw [otherBytes, otherCharge, erase_of_find?_eq_none h]
    rfl
  | some state =>
    rw [Option.elim_some, Option.elim_some, hinv.retainedBytes_eq h, hinv.flowMemoryCharge_eq h,
      sum_erase h, sum_erase h]
    simp only [okOr, checkedSub, ok_bind, Nat.le_add_right, if_true, Nat.add_sub_cancel_left]
    rfl

private theorem size_sub_known (r : Reassembler K) (key : K) :
    r.flows.size - (if (r.flows.find? key).isSome then 1 else 0) = (r.flows.erase key).size := by
  cases h : r.flows.find? key with
  | none => rw [erase_of_find?_eq_none h]; rfl
  | some state => rw [size_erase h]; rfl

omit [LinearOrder K] in
/-- A segment that starts no new generation belongs to a known flow. -/
theorem exists_of_not_changesGeneration {e : Option TcpFlowState}
    (h : changesGeneration e segment = false) : ∃ state, e = some state := by
  cases e with
  | none => simp [changesGeneration] at h
  | some state => exact ⟨state, rfl⟩

/-- A plan is sound for the state it is then carried out on. -/
theorem plan_spec (a : Allocator) (hinv : r.Inv) :
    (r.plan a segment now).EnsuresUnless (r.Overflows segment) fun plan =>
      ∃ state incoming planned, r.commitState segment now = .ok state ∧ state.Inv r.limits ∧
        (changesGeneration (r.flows.find? segment.flow) segment →
          (r.flows.erase segment.flow).size < r.limits.maxFlows) ∧
        plan.Sound r.limits state (r.otherBytes segment) (r.otherCharge segment) segment incoming
          planned := by
  unfold plan
  dsimp only
  rw [size_sub_known, aggregatesWithout_eq hinv]
  refine ensures_rejectIf_bind fun hr => ?_
  rw [ok_bind]
  have hr' : changesGeneration (r.flows.find? segment.flow) segment →
      (r.flows.erase segment.flow).size < r.limits.maxFlows := by
    intro hc
    exact not_le.mp fun hle => hr ⟨hc, hle⟩
  unfold planningState commitState
  cases hc : changesGeneration (r.flows.find? segment.flow) segment with
  | true =>
    rw [if_pos rfl, if_pos rfl, pure_bind, ← planPush_times _ _ _ _ _ _ _
      (r.lastUpdate segment now) (r.deadline segment now)]
    have hs := TcpFlowState.inv_new r.limits segment.firstPayloadSequence (r.lastUpdate segment now)
      (r.deadline segment now)
    refine ((planPush_spec a hs hinv.limits_le _ _ _ segment).weaken
      fun h => (not_overflowsLastBlock_new _ _ _ _ h).elim).mono ?_
    rintro plan ⟨incoming, planned, hsn⟩
    exact ⟨_, incoming, planned, rfl, hs, hc ▸ hr', hsn⟩
  | false =>
    obtain ⟨state, hf⟩ := exists_of_not_changesGeneration hc
    rw [if_neg Bool.false_ne_true, if_neg Bool.false_ne_true, unwrap_eq hf, ok_bind]
    have hs := hinv.flow _ _ hf
    refine ((planPush_spec a hs hinv.limits_le _ _ _ segment).weaken
      fun h => ⟨state, hf, hf ▸ hc, h⟩).mono ?_
    rintro plan ⟨incoming, planned, hsn⟩
    exact ⟨state, incoming, planned, rfl, hs, nofun, hsn⟩

theorem commitPush_spec (hinv : r.Inv) {incoming : IncomingPayload} {planned : PlannedMerge}
    {plan : PushPlan} (hs : r.commitState segment now = .ok state)
    (hsv : state.Inv r.limits)
    (hr : changesGeneration (r.flows.find? segment.flow) segment → (r.flows.erase
      segment.flow).size < r.limits.maxFlows)
    (hsn : plan.Sound r.limits state (r.otherBytes segment) (r.otherCharge segment) segment
      incoming planned) :
    (r.commitPush segment now plan).Returns fun out => ∃ delivered state' events,
      r.Carried segment now state incoming planned plan delivered state' events ∧
        out = r.store segment now plan state' events := by
  obtain ⟨⟨state', events⟩, hc, delivered, hct⟩ :=
    commitFlowPush_spec segment.flow now hsv hinv.limits_le hsn
  unfold commitPush
  rw [hs, ok_bind, hc, ok_bind]
  exact ⟨_, rfl, delivered, state', events, ⟨hs, hr, hsn, hct⟩, rfl⟩

theorem push_outcome (a : Allocator) (hinv : r.Inv) (segment : Segment K) (now : ℕ) :
    r.PushOutcome segment now (r.push a segment now) := by
  unfold push
  split_ifs with hi
  · exact .ignored hi
  have hs : (r.plan a segment now >>= r.commitPush segment now).EnsuresUnless
      (r.Overflows segment) fun out => ∃ state incoming planned plan delivered state' events,
        r.Carried segment now state incoming planned plan delivered state' events ∧
          out = r.store segment now plan state' events := by
    refine (plan_spec a hinv).bind ?_
    rintro plan ⟨state, incoming, planned, hst, hsn, hr, hsd⟩
    exact ((commitPush_spec hinv hst hsn hr hsd).mono fun out ho =>
      ⟨state, incoming, planned, plan, ho⟩).ensuresUnless
  cases ho : r.plan a segment now >>= r.commitPush segment now with
  | error e => exact .failed e fun p he => hs.of_eq_panic (he ▸ ho)
  | ok out =>
    obtain ⟨state, incoming, planned, plan, delivered, state', events, hc, rfl⟩ := hs.of_eq_ok ho
    exact .carried (Bool.not_eq_true _ ▸ hi) hc

/-! ### Every operation keeps the invariant -/

private theorem inv_of_erase (hinv : r.Inv) (key : K) (expiry : ExpiryIndex K) {bytes charge : ℕ}
    (hb : bytes = (r.flows.erase key).sum fun s => s.pendingBytes + s.emittedHistory.len)
    (hc : charge = (r.flows.erase key).sum TcpFlowState.charge)
    (hbytes_le : bytes ≤ r.limits.maxAggregateBytes)
    (hcharge_le : charge ≤ r.limits.maxAggregateBytes) :
    Inv ⟨r.limits, r.flows.erase key, expiry, bytes, charge⟩ := by
  have hf : ∀ key' state, (r.flows.erase key).find? key' = some state →
      r.flows.find? key' = some state := by
    intro key' state h
    rw [find?_erase] at h
    split_ifs at h
    exact h
  exact
    { limits_le := hinv.limits_le
      flow := fun key' state h => hinv.flow key' state (hf key' state h)
      charge_lt := fun key' state h => hinv.charge_lt key' state (hf key' state h)
      bytes_eq := hb
      charge_eq := hc
      bytes_le := hbytes_le
      charge_le := hcharge_le
      flows_le := (r.flows.size_erase_le key).trans hinv.flows_le }

/-- A table with a new state of a flow, when what is charged is what the others are charged and
what that state is. -/
private theorem inv_of_insert (hinv : r.Inv) (key : K) (expiry : ExpiryIndex K) {bytes charge : ℕ}
    (hs : state.Inv r.limits) (hlt : state.charge < wordLimit)
    (hr : (r.flows.erase key).size < r.limits.maxFlows)
    (hb : bytes = ((r.flows.erase key).sum fun s => s.pendingBytes + s.emittedHistory.len) +
      (state.pendingBytes + state.emittedHistory.len))
    (hc : charge = (r.flows.erase key).sum TcpFlowState.charge + state.charge)
    (hbytes_le : bytes ≤ r.limits.maxAggregateBytes)
    (hcharge_le : charge ≤ r.limits.maxAggregateBytes) :
    Inv ⟨r.limits, r.flows.insert key state, expiry, bytes, charge⟩ := by
  have hf : ∀ key' s, (r.flows.insert key state).find? key' = some s →
      s = state ∨ r.flows.find? key' = some s := by
    intro key' s h
    rw [find?_insert] at h
    split_ifs at h
    · exact Or.inl (Option.some.inj h).symm
    · exact Or.inr h
  constructor
  case limits_le => exact hinv.limits_le
  case flow =>
    intro key' s h
    rcases hf key' s h with rfl | h
    · exact hs
    · exact hinv.flow key' s h
  case charge_lt =>
    intro key' s h
    rcases hf key' s h with rfl | h
    · exact hlt
    · exact hinv.charge_lt key' s h
  case bytes_eq => rw [hb, sum_insert, Nat.add_comm]
  case charge_eq => rw [hc, sum_insert, Nat.add_comm]
  case bytes_le => exact hbytes_le
  case charge_le => exact hcharge_le
  case flows_le => exact (size_insert ..).trans_le (Nat.succ_le_of_lt hr)

section

variable {incoming planned plan delivered state' events}
  (h : r.Carried segment now state incoming planned plan delivered state' events) (hinv : r.Inv)
include h hinv

theorem Carried.room_le : (r.flows.erase segment.flow).size < r.limits.maxFlows := by
  cases hc : changesGeneration (r.flows.find? segment.flow) segment with
  | true => exact h.room hc
  | false =>
    obtain ⟨state, hf⟩ := exists_of_not_changesGeneration hc
    have hs := size_erase hf
    have hle := hinv.flows_le
    omega

/-- The table after a push: the planned charges are those of the flows it leaves. -/
theorem Carried.inv_store : (r.store segment now plan state' events).2.Inv := by
  have hc := h.sound.sound.charges
  have hb := h.sound.aggregateBytes_eq.trans hc.bytes_eq
  have hcr := h.sound.aggregateMemoryCharge_eq.trans hc.charge_eq
  have hbytes_le := hc.bytes_le
  have hcharge_le := hc.charge_le
  have hcharge_lt := hc.charge_lt
  rw [← h.committed.retained_eq] at hb hbytes_le
  unfold store
  rw [h.sound.closed_eq]
  cases hcl : planned.closed with
  | true =>
    rw [hcl, if_pos rfl, Nat.add_zero] at hb hcr
    rw [hb, hcr]
    exact inv_of_erase hinv segment.flow _ rfl rfl ((Nat.le_add_right _ _).trans hbytes_le)
      ((Nat.le_add_right _ _).trans hcharge_le)
  | false =>
    rw [hcl, if_neg Bool.false_ne_true, ← h.committed.charge_eq] at hcr hcharge_lt hcharge_le
    rw [hcl, if_neg Bool.false_ne_true] at hb
    have hf := h.committed.inv.with_deadline (r.deadline segment now)
    rw [if_neg Bool.false_ne_true]
    exact inv_of_insert hinv segment.flow _ hf hcharge_lt (h.room_le hinv) hb hcr
      (hb.trans_le hbytes_le) (hcr.trans_le hcharge_le)

end

theorem Inv.push (hinv : r.Inv) (a : Allocator) (segment : Segment K) (now : ℕ) :
    (r.push a segment now).2.Inv := by
  have ho := push_outcome a hinv segment now
  generalize r.push a segment now = out at ho ⊢
  cases ho with
  | ignored _ => exact hinv
  | failed _ _ => exact hinv
  | carried _ h => exact h.inv_store hinv

theorem Inv.removeFlow (hinv : r.Inv) (key : K) : (r.removeFlow key).2.Inv := by
  unfold Reassembler.removeFlow
  cases h : r.flows.find? key with
  | none => exact hinv
  | some state =>
    have hb := hinv.bytes_eq
    have hc := hinv.charge_eq
    rw [sum_erase h] at hb hc
    refine inv_of_erase hinv key _ ?_ ?_ ((Nat.sub_le _ _).trans hinv.bytes_le)
      ((Nat.sub_le _ _).trans hinv.charge_le)
    · rw [hinv.retainedBytes_eq h, hb, Option.getD_some, Nat.add_sub_cancel_left]
    · rw [hinv.flowMemoryCharge_eq h, hc, Option.getD_some, Nat.add_sub_cancel_left]

theorem Inv.removeFlows (hinv : r.Inv) (keys : List K) : (r.removeFlows keys).2.Inv :=
  removeFlows_induction (fun _ key h => h.removeFlow key) keys hinv

theorem Inv.with_expiry (hinv : r.Inv) (expiry : ExpiryIndex K) : Inv { r with expiry } :=
  { hinv with }

theorem Inv.step (hinv : r.Inv) (op : Op K) : (r.step op).Inv := by
  cases op with
  | push a segment now => exact hinv.push a segment now
  | expire now => exact (hinv.with_expiry _).removeFlows _
  | flush => exact hinv.removeFlows _
  | evictFlow flow => exact hinv.removeFlows _

end Push

end Reassembler

end PacketCraftr.Tcp
