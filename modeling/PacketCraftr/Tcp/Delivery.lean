import PacketCraftr.Tcp.Accounting

/-!
# TCP reassembly delivers the first-arrival-wins stream

A `Generation` records what a flow was given and what it delivered since it started: the payload
of every accepted segment, placed by the signed distance of its sequence number from the next
expected one, and the data events. The record is kept beside a run of the reassembler. It reads the
segments, the results of their pushes, and of the table whether a segment is ignored or starts a new
generation.
-/

open List

namespace PacketCraftr.Tcp

open FirstArrival Reassembler

variable {K : Type} [LinearOrder K]

/-- What a flow was given and what it delivered since it started. -/
structure Generation where
  base : UInt32
  accepted : List (ℤ × Bytes)
  data : List (UInt32 × Bytes)
  deriving DecidableEq, Repr

namespace Generation

variable (g : Generation)

def delivered : Bytes := (g.data.map Prod.snd).flatten

/-- The place of a segment: the signed distance of its first byte from the next expected one. -/
def place (segment : Segment K) : ℤ :=
  g.delivered.length +
    serialOffset segment.firstPayloadSequence (g.base + UInt32.ofNat g.delivered.length)

def accept (segment : Segment K) : Generation :=
  { g with accepted := g.accepted ++ [(g.place segment, segment.payload)] }

def emit (data : List (UInt32 × Bytes)) : Generation :=
  { g with data := g.data ++ data }

end Generation

/-- The deliveries to a flow. -/
def dataOf (key : K) (events : List (Event K)) : List (UInt32 × Bytes) :=
  events.filterMap fun
    | .data flow sequence bytes => if flow = key then some (sequence, bytes) else none
    | _ => none

/-- The record of a flow when a segment is accepted. -/
def recordAccepted (key : K) (r : Reassembler K) (segment : Segment K) (g : Option Generation) :
    Option Generation :=
  if segment.flow = key ∧ r.ignores segment = false then
    (if changesGeneration (r.flows.find? key) segment then
      some ⟨segment.firstPayloadSequence, [], []⟩ else g).map fun g => g.accept segment
  else g

/-- The record of a flow after an operation. Only pushes deliver data. -/
def recordStep (key : K) (r : Reassembler K) (g : Option Generation) : Op K → Option Generation
  | .push alloc segment now =>
    match (r.push alloc segment now).1 with
    | .ok events => (recordAccepted key r segment g).map fun g => g.emit (dataOf key events)
    | .error _ => g
  | _ => g

/-- The record of a flow along a run. -/
def recordRun (key : K) (r : Reassembler K) (g : Option Generation) : List (Op K) → Option Generation
  | [] => g
  | op :: ops => recordRun key (r.step op) (recordStep key r g op) ops

/-! ### One generation -/

/-- Each data event carries the sequence number of its first byte: the base plus the lengths of
the earlier events, modulo the size of the sequence space. -/
def Generation.Sequenced (base : UInt32) (data : List (UInt32 × Bytes)) : Prop :=
  ∀ k event, data[k]? = some event →
    event.1 = base + UInt32.ofNat ((data.take k).map fun e => e.2.length).sum

/-- What was delivered is the complete prefix of what was accepted, and the data events carry
their sequence numbers. -/
structure Generation.Faithful (g : Generation) : Prop where
  complete : Complete g.accepted g.delivered
  sequenced : Sequenced g.base g.data

/-- The state of a flow holds what its generation has accepted and not delivered. -/
structure Linked (state : TcpFlowState) (g : Generation) : Prop where
  base_eq : state.baseSequence = g.base
  next_eq : state.nextOffset = g.delivered.length
  delivered_eq : ∀ i < g.delivered.length, g.delivered[i]? = first g.accepted i
  heldByte_eq : ∀ x, state.nextOffset ≤ x → state.heldByte x = first g.accepted x
  sequenced : Generation.Sequenced g.base g.data

variable {state : TcpFlowState} {g : Generation}

theorem Linked.faithful {limits : Limits} (h : Linked state g) (hinv : state.Inv limits) :
    g.Faithful where
  complete :=
    { getElem?_eq := h.delivered_eq
      stop := by rw [← h.next_eq, ← h.heldByte_eq _ le_rfl, hinv.heldByte_next] }
  sequenced := h.sequenced

theorem linked_new (base : UInt32) (now : ℕ) (deadline : Option ℕ) :
    Linked (.new base now deadline) ⟨base, [], []⟩ where
  base_eq := rfl
  next_eq := rfl
  delivered_eq := nofun
  heldByte_eq _ _ := rfl
  sequenced := nofun

theorem Linked.with_deadline (h : Linked state g) (deadline : Option ℕ) :
    Linked { state with deadline } g :=
  ⟨h.base_eq, h.next_eq, h.delivered_eq, h.heldByte_eq, h.sequenced⟩

theorem Generation.delivered_emit (g : Generation) (data : List (UInt32 × Bytes)) :
    (g.emit data).delivered = g.delivered ++ (data.map Prod.snd).flatten := by
  rw [delivered, emit, map_append, flatten_append]
  rfl

/-- One more data event is in sequence when it carries the number after what was delivered. -/
theorem Generation.Sequenced.concat {base : UInt32} {data : List (UInt32 × Bytes)}
    (h : Sequenced base data) {ev : UInt32 × Bytes}
    (hev : ev.1 = base + UInt32.ofNat ((data.map Prod.snd).flatten).length) :
    Sequenced base (data ++ [ev]) := by
  intro k e he
  by_cases hk : k < data.length
  · rw [getElem?_append_left hk] at he
    rw [h k e he, take_append_of_le_length hk.le]
  · rw [getElem?_append_right (not_lt.mp hk), getElem?_singleton] at he
    split_ifs at he with hz
    cases he
    rw [hev, take_append_of_le_length (by omega), take_of_length_le (by omega),
      length_flatten, map_map]
    rfl

/-! ### One push -/

section Push

variable {F : Type} {limits : Limits} {state : TcpFlowState} {segment : Segment F}
  {incoming : IncomingPayload} {g : Generation}

theorem Linked.place_eq (h : Linked state g) (segment : Segment F) :
    g.place segment = absoluteOffset state segment := by
  rw [Generation.place, absoluteOffset, TcpFlowState.nextSequence, h.base_eq, h.next_eq]

/-- From the next expected offset on, the new part of a payload is the payload where it was
placed. -/
theorem IncomingPayload.Fits.pieceAt_eq (h : incoming.Fits limits state segment) {x : ℕ}
    (hx : state.nextOffset ≤ x) :
    pieceAt (absoluteOffset state segment, segment.payload) x =
      if incoming.offset ≤ x then incoming.payload[x - incoming.offset]? else none := by
  have hl := congrArg List.length h.payload_eq
  have hs := h.start_le
  rw [length_drop] at hl
  -- A position of the payload that is not below the next expected offset is in its new part.
  have hnew : ∀ i : ℕ, i < segment.payload.length → (x : ℤ) = absoluteOffset state segment + i →
      incoming.payloadStart ≤ i := fun i hi hxi => (h.start_le_iff i hi).mpr (by omega)
  unfold pieceAt
  dsimp only
  by_cases hn : incoming.payload = []
  · have hnn : ∀ i, incoming.payload[i]? = none := fun i => by rw [hn, getElem?_nil]
    rw [hnn, ite_self]
    rw [hn, length_nil] at hl
    split_ifs with hle
    · rw [List.getElem?_eq_none_iff]
      by_contra hlt
      have := hnew _ (not_le.mp hlt) (by omega)
      omega
    · rfl
  have ho := h.offset_eq hn
  by_cases hle : incoming.offset ≤ x
  · rw [if_pos hle, if_pos (by omega), h.payload_eq, getElem?_drop]
    congr 1
    omega
  · rw [if_neg hle]
    split_ifs with ha
    · have := hnew (x - absoluteOffset state segment).toNat (by omega) (by omega)
      omega
    · rfl

/-- From the next expected offset on, a merged byte is that of the first accepted segment. -/
theorem Linked.mergedByte_eq (h : Linked state g) (hf : incoming.Fits limits state segment)
    {x : ℕ} (hx : state.nextOffset ≤ x) :
    state.mergedByte incoming.offset incoming.payload x = first (g.accept segment).accepted x := by
  rw [TcpFlowState.mergedByte, h.heldByte_eq x hx, Generation.accept, first_concat,
    h.place_eq, hf.pieceAt_eq hx]

end Push

theorem dataOf_push (state : TcpFlowState) (key : K) (plan : PushPlan) (delivered : Bytes) :
    dataOf key (retransmissionEvents state key plan ++ dataEvents key state.nextSequence delivered) =
      if delivered = [] then [] else [(state.nextSequence, delivered)] := by
  have hn : dataOf key (retransmissionEvents state key plan) = [] := by
    unfold retransmissionEvents
    dsimp only
    split_ifs <;> rfl
  rw [dataOf, filterMap_append]
  change dataOf key _ ++ dataOf key _ = _
  rw [hn, nil_append, dataEvents]
  split_ifs with hnil
  · rfl
  · simp [dataOf]

/-- Carrying out a push keeps the record and the state of its flow linked. -/
theorem Linked.commit {limits : Limits} {state' : TcpFlowState} {segment : Segment K} {now : ℕ}
    {incoming : IncomingPayload} {planned : PlannedMerge} {plan : PushPlan} {delivered : Bytes}
    {events : List (Event K)} (h : Linked state g) (hf : incoming.Fits limits state segment)
    (hc : Committed limits state segment.flow now incoming planned plan delivered state' events) :
    Linked state' ((g.accept segment).emit (dataOf segment.flow events)) := by
  have hd := dataOf_push state segment.flow plan delivered
  rw [← hc.events_eq] at hd
  have hdl : ((g.accept segment).emit (dataOf segment.flow events)).delivered =
      g.delivered ++ delivered := by
    rw [Generation.delivered_emit, hd]
    congr 1
    split_ifs with hn
    · rw [hn]
      rfl
    · exact append_nil _
  have hnx : state'.nextOffset = state.nextOffset + delivered.length := hc.next_eq
  constructor
  case base_eq => exact hc.base_eq.trans h.base_eq
  case next_eq => rw [hdl, length_append, hnx, h.next_eq]
  case delivered_eq =>
    intro i hi
    rw [hdl] at hi ⊢
    by_cases hlt : i < g.delivered.length
    · rw [getElem?_append_left hlt]
      change _ = first (g.accept segment).accepted i
      rw [Generation.accept, first_concat, ← h.delivered_eq i hlt, getElem?_eq_getElem hlt,
        Option.some_or]
    · rw [length_append] at hi
      rw [getElem?_append_right (not_lt.mp hlt), hc.delivered_eq _ (by omega),
        h.next_eq, Nat.add_sub_cancel' (not_lt.mp hlt)]
      exact h.mergedByte_eq hf (h.next_eq ▸ not_lt.mp hlt)
  case heldByte_eq =>
    intro x hx
    rw [hc.heldByte_eq x hx]
    exact h.mergedByte_eq hf (by omega)
  case sequenced =>
    change Generation.Sequenced g.base (g.data ++ dataOf segment.flow events)
    rw [hd]
    split_ifs with hn
    · rw [append_nil]
      exact h.sequenced
    · refine h.sequenced.concat ?_
      change state.nextSequence = g.base + UInt32.ofNat g.delivered.length
      rw [TcpFlowState.nextSequence, h.base_eq, h.next_eq]

/-! ### Runs -/

/-- The record of a flow is faithful, and linked to the state of the flow while there is one. -/
structure Tracks (key : K) (r : Reassembler K) (g : Option Generation) : Prop where
  faithful : ∀ g', g = some g' → g'.Faithful
  linked : ∀ state, r.flows.find? key = some state → ∃ g', g = some g' ∧ Linked state g'

section Tracks

variable {key : K} {r : Reassembler K} {g : Option Generation}

theorem Tracks.of_find? (h : Tracks key r g) {r' : Reassembler K}
    (hr' : ∀ state, r'.flows.find? key = some state → r.flows.find? key = some state) :
    Tracks key r' g :=
  ⟨h.faithful, fun state hf => h.linked state (hr' state hf)⟩

theorem dataOf_of_ne {state : TcpFlowState} {flow : K} {plan : PushPlan} {delivered : Bytes}
    (hne : flow ≠ key) :
    dataOf key (retransmissionEvents state flow plan ++
      dataEvents flow state.nextSequence delivered) = [] := by
  rw [dataOf, filterMap_eq_nil_iff]
  intro e he
  rcases mem_append.mp he with hmem | hmem
  · unfold retransmissionEvents at hmem
    dsimp only at hmem
    split_ifs at hmem
    · rw [mem_singleton.mp hmem]
    · cases hmem
  · unfold dataEvents at hmem
    split_ifs at hmem
    · cases hmem
    · rw [mem_singleton.mp hmem]
      exact if_neg hne

section

variable (segment : Segment K) (now : ℕ) (plan : PushPlan) (state : TcpFlowState)
  (events : List (Event K))

theorem dataOf_store :
    dataOf key (r.store segment now plan state events).1 = dataOf key events := by
  unfold store
  cases plan.closed with
  | true => exact filterMap_append.trans (append_nil _)
  | false => rfl

theorem find?_store :
    (r.store segment now plan state events).2.flows.find? key = if key = segment.flow then
        if plan.closed then none else some { state with deadline := r.deadline segment now }
      else r.flows.find? key := by
  unfold store
  cases plan.closed with
  | true => exact SortedMap.find?_erase ..
  | false => exact SortedMap.find?_insert ..

end

theorem map_emit_nil (g : Option Generation) : (g.map fun g => g.emit []) = g := by
  cases g with
  | none => rfl
  | some g => rw [Option.map_some, Generation.emit, append_nil]

theorem Tracks.carried {segment : Segment K} {now : ℕ}
    {state incoming planned plan delivered state' events} (h : Tracks key r g)
    (hkn : r.ignores segment = false)
    (hc : r.Carried segment now state incoming planned plan delivered state' events) :
    Tracks key (r.store segment now plan state' events).2
      ((recordAccepted key r segment g).map fun g =>
        g.emit (dataOf key (r.store segment now plan state' events).1)) := by
  rw [dataOf_store]
  by_cases hk : segment.flow = key
  · subst hk
    -- The record and the state that the push continues are linked.
    obtain ⟨g₀, hg₀, hl⟩ : ∃ g₀, (if changesGeneration (r.flows.find? segment.flow) segment then
        some ⟨segment.firstPayloadSequence, [], []⟩ else g) = some g₀ ∧ Linked state g₀ := by
      have hs := hc.state_eq
      unfold commitState at hs
      split_ifs at hs ⊢ with hch
      · cases hs
        exact ⟨_, rfl, linked_new ..⟩
      · obtain ⟨e, hf⟩ := exists_of_not_changesGeneration (Bool.not_eq_true _ ▸ hch)
        rw [Exec.unwrap_eq hf] at hs
        cases hs
        exact h.linked _ hf
    have hcm := hl.commit hc.sound.fits hc.committed
    rw [recordAccepted, if_pos ⟨rfl, hkn⟩, hg₀]
    refine ⟨?_, ?_⟩
    · rintro g' ⟨⟩
      exact hcm.faithful hc.committed.inv
    · intro s hf
      rw [find?_store, if_pos rfl] at hf
      split_ifs at hf
      cases hf
      exact ⟨_, rfl, hcm.with_deadline _⟩
  · have hd : dataOf key events = [] := by
      rw [hc.committed.events_eq]
      exact dataOf_of_ne hk
    rw [recordAccepted, if_neg fun ha => hk ha.1, hd, map_emit_nil]
    refine h.of_find? fun s hf => ?_
    rwa [find?_store, if_neg (Ne.symm hk)] at hf

theorem Tracks.step (h : Tracks key r g) (hinv : r.Inv) (op : Op K) :
    Tracks key (r.step op) (recordStep key r g op) := by
  cases op with
  | push a segment now =>
    have ho := push_outcome a hinv segment now
    unfold recordStep Reassembler.step
    dsimp only
    generalize r.push a segment now = out at ho ⊢
    cases ho with
    | ignored hi =>
      dsimp only
      rw [recordAccepted, if_neg fun ha => Bool.false_ne_true (ha.2.symm.trans hi),
        show dataOf key [] = [] from rfl,
        map_emit_nil]
      exact h
    | failed e he => exact h
    | carried hk hc => exact h.carried hk hc
  | expire now =>
    exact h.of_find? fun _ hf => find?_of_removeFlows
      (r := { r with expiry := (r.expiry.takeExpired now).2 }) hf
  | flush => exact h.of_find? fun _ hf => find?_of_removeFlows hf
  | evictFlow flow => exact h.of_find? fun _ hf => find?_of_removeFlows hf

theorem Tracks.run (h : Tracks key r g) (hinv : r.Inv) (ops : List (Op K)) :
    Tracks key (r.run ops) (recordRun key r g ops) := by
  induction ops generalizing r g with
  | nil => exact h
  | cons op ops ih => exact ih (h.step hinv op) (hinv.step op)

end Tracks

/-- **Delivery refines the first-arrival-wins stream.** Let a generation of a flow be recorded
along any run of a reassembler with accepted limits.
* What it delivered is, at each offset, the byte of the first accepted segment that covers the
  offset, and it ends at the first offset that no accepted segment covers.
* Each data event carries the base plus the lengths of the earlier ones, modulo `2 ^ 32`.
* For segments cut from one stream, what was delivered is that of the stream, and any other run
  that accepted the same segments delivered the same. -/
theorem delivery_of_run {clock : ℕ} {limits : Limits} {r₀ : Reassembler K}
    (hnew : new clock limits = .ok r₀) (key : K) (ops : List (Op K)) (g : Generation)
    (hg : recordRun key r₀ none ops = some g) :
    (∀ i < g.delivered.length, g.delivered[i]? = first g.accepted i) ∧
    first g.accepted g.delivered.length = none ∧
    (∀ k sequence bytes, g.data[k]? = some (sequence, bytes) →
      sequence = g.base + UInt32.ofNat ((g.data.take k).map fun e => e.2.length).sum) ∧
    ∀ stream : ℕ → UInt8, CutFrom stream g.accepted →
      (∀ i < g.delivered.length, g.delivered[i]? = some (stream i)) ∧
      ∀ (clock' : ℕ) (limits' : Limits) (r₀' : Reassembler K) (ops' : List (Op K)) (g' : Generation),
        new clock' limits' = .ok r₀' → recordRun key r₀' none ops' = some g' →
        (∀ a, a ∈ g.accepted ↔ a ∈ g'.accepted) → g.delivered = g'.delivered := by
  have hf : ∀ {clock limits} {r₀ : Reassembler K} {ops g},
      new clock limits = .ok r₀ → recordRun key r₀ none ops = some g → g.Faithful := by
    intro clock limits r₀ ops g hnew hg
    have hs : Tracks key r₀ none := by
      obtain ⟨-, rfl⟩ := new_eq hnew
      exact ⟨nofun, nofun⟩
    exact (hs.run (inv_new hnew).1 ops).faithful g hg
  have h := hf hnew hg
  refine ⟨h.complete.getElem?_eq, h.complete.stop, ?_, ?_⟩
  · intro k sequence bytes hk
    exact h.sequenced k _ hk
  · intro stream hc
    refine ⟨fun i hi => h.complete.getElem?_of_cutFrom hc hi, ?_⟩
    intro clock' limits' r₀' ops' g' hnew' hg' hmem
    exact h.complete.eq_of_cutFrom (hf hnew' hg').complete hmem hc

/-- The middle of three bytes arrives last, with a copy of the third byte that comes too late. -/
theorem delivery_of_run_conflict :
    let grant : Allocator := ⟨fun _ => true, true, true⟩
    let r₀ : Reassembler ℕ := ⟨.default, .empty, .empty, 0, 0⟩
    let ops : List (Op ℕ) := [.push grant ⟨0, 7, [1], false, false, false⟩ 0,
      .push grant ⟨0, 9, [3], false, false, false⟩ 0, .push grant ⟨0, 8, [2, 9], false, false, false⟩ 0]
    let g : Generation := ⟨7, [(0, [1]), (2, [3]), (1, [2, 9])], [(7, [1]), (8, [2, 3])]⟩
    new 0 .default = .ok r₀ ∧ recordRun 0 r₀ none ops = some g ∧
      ∀ i < 3, g.delivered[i]? = first g.accepted i := by
  intro grant r₀ ops g
  have hg : recordRun 0 r₀ none ops = some g := by decide +kernel
  exact ⟨rfl, hg, (delivery_of_run (show new 0 .default = .ok r₀ from rfl) 0 ops g hg).1⟩

end PacketCraftr.Tcp
