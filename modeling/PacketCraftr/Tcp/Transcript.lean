import PacketCraftr.Tcp.Delivery

/-!
# Transcripts of a flow generation

A transcript lists the accepted segments of one generation of a flow, each with the state of the
flow before and after its push and with the events of the push. It is kept beside a run of the
reassembler: a segment that starts a new generation starts a new transcript, and a push that closes
the flow is the last one of its transcript.

`Kept` is the rule by which a property of flow states and transcripts is proved of all runs: it
holds of a new flow and every push keeps it. The state after a push is the one that is then put
into the table, or that is dropped when the push closes the flow.
-/

open Finset
open List hiding Ico

namespace PacketCraftr.Tcp

/-! ### What a push reports

Beside the merge, planning a push decides how many bytes of the segment were delivered before,
whether one of them differs from the history, and whether the segment agrees with the end that a FIN
gives the stream. `PushPlan.Reports` says what these decisions are about the stream alone: the bytes
of the segment at their offsets (`segmentByte`), the delivered bytes that the history still holds
(`TcpFlowState.historyByte`) and the pending ones. -/

section Report

variable {K : Type}

/-- The number of delivered bytes that a segment repeats, whether they differ from the history,
and that the segment agrees with the end of the stream. -/
structure PushPlan.Reports (state : TcpFlowState) (segment : Segment K) (plan : PushPlan) :
    Prop where
  retransmitted_le : plan.retransmitted ≤ segment.payload.length
  retransmitted_le_iff : ∀ i < segment.payload.length, plan.retransmitted ≤ i ↔
    (state.nextOffset : ℤ) ≤ absoluteOffset state segment + i
  conflicting_iff : plan.conflicting = true ↔
    ¬ IsKeepAlive state segment ∧ Clash state.historyByte (segmentByte state segment)
  lt_final : ∀ final, state.finOffset.or (segmentFinOffset state segment) = some final →
    ∀ x, state.nextOffset ≤ x → SegmentCovers state segment x → x < final
  fin_agrees : ∀ final fin, state.finOffset = some final →
    segmentFinOffset state segment = some fin → fin = final
  next_le_fin : ∀ fin, segmentFinOffset state segment = some fin → state.nextOffset ≤ fin
  held_lt_fin : ∀ fin, segmentFinOffset state segment = some fin → ∀ x ∈ state.held, x < fin

theorem PushPlan.Sound.reports {limits : Limits} {state : TcpFlowState} {segment : Segment K}
    {bytes charge : ℕ} {incoming : IncomingPayload} {planned : PlannedMerge} {plan : PushPlan}
    (h : plan.Sound limits state bytes charge segment incoming planned) :
    plan.Reports state segment := by
  have hf := h.fits
  have hr := h.normalized
  have hv := h.sound.fin_le
  have hfn := hr.end_le_final
  have ha := hr.fin_agrees
  have hn := hr.next_le_fin
  rw [hf.finOffset_eq] at hv ha hn
  have hrt := h.retransmitted_eq.trans hr.retransmitted_eq
  constructor
  case retransmitted_le => exact hrt.trans_le hf.start_le
  case retransmitted_le_iff =>
    rw [hrt]
    exact hf.start_le_iff
  case conflicting_iff =>
    rw [h.conflicting_eq]
    exact hr.conflicting_iff
  case lt_final =>
    intro f ho x hx hc
    have hend : incoming.remainingEnd ≤ f := by
      rcases Option.or_eq_some_iff.mp ho with hold | ⟨-, hnew⟩
      · exact hfn f hold
      · exact (hv f hnew).1
    -- The byte at `x` is in the new part of the segment.
    have hnew := (hf.start_le_iff (x - absoluteOffset state segment).toNat
      (by unfold SegmentCovers at hc; omega)).mpr (by unfold SegmentCovers at hc; omega)
    have hlen := congrArg List.length hf.payload_eq
    rw [length_drop] at hlen
    unfold SegmentCovers at hc
    have hne : incoming.payload ≠ [] := ne_nil_of_length_pos (by omega)
    have hof := hf.offset_eq hne
    have hs := hf.end_eq
    omega
  case fin_agrees => exact ha
  case next_le_fin => exact hn
  case held_lt_fin => exact fun fin hfin => (hv fin hfin).2

end Report

/-! ### Accepted segments -/

/-- An accepted segment, with the flow before and after its push and the events of the push. -/
structure Accepted (K : Type) where
  before : TcpFlowState
  segment : Segment K
  events : List (Event K)
  after : TcpFlowState

section Record

variable {K : Type} [LinearOrder K]

/-- The flow before and after a push. The second one is not stored when the push closes the
flow. -/
def Reassembler.pushStates (alloc : Allocator) (r : Reassembler K) (segment : Segment K) (now : ℕ) :
    Exec Error (TcpFlowState × TcpFlowState) := do
  let plan ← r.plan alloc segment now
  let directPayload := plan.directPayload.bind fun range =>
    checkedSlice segment.payload range.1 range.2
  let before ← r.commitState segment now
  let (after, _) ← commitFlowPush before segment.flow now r.limits.maxBytesPerFlow plan
    directPayload segment.payload
  pure (before, after)

/-- The transcript of a flow after an operation. -/
def transcriptStep (key : K) (r : Reassembler K) (l : List (Accepted K)) : Op K → List (Accepted K)
  | .push alloc segment now =>
    if segment.flow = key ∧ r.ignores segment = false then
      match (r.push alloc segment now).1, r.pushStates alloc segment now with
      | .ok events, .ok (before, after) =>
        (if changesGeneration (r.flows.find? key) segment then [] else l) ++
          [⟨before, segment, events, after⟩]
      | _, _ => l
    else l
  | _ => l

def transcriptRun (key : K) (r : Reassembler K) (l : List (Accepted K)) :
    List (Op K) → List (Accepted K)
  | [] => l
  | op :: ops => transcriptRun key (r.step op) (transcriptStep key r l op) ops

end Record

/-! ### What one push does -/

variable {K : Type}

theorem TcpFlowState.Inv.mem_held_iff {limits : Limits} {state : TcpFlowState}
    (h : state.Inv limits) {x : ℕ} : x ∈ state.held ↔ (state.heldByte x).isSome := by
  unfold TcpFlowState.heldByte
  constructor
  · intro hx
    obtain ⟨b, hb⟩ := h.pages_exact.exists_byteAt hx
    rw [if_pos hx, hb]
    rfl
  · intro hx
    by_contra hnot
    rw [if_neg hnot] at hx
    cases hx

/-- A push of a transcript was planned and carried out. -/
structure Accepted.CarriedOut (limits : Limits) (p : Accepted K) (incoming : IncomingPayload)
    (planned : PlannedMerge) (plan : PushPlan) (delivered : Bytes) : Prop where
  inv : p.before.Inv limits
  sound : ∃ bytes charge, plan.Sound limits p.before bytes charge p.segment incoming planned
  reports : plan.Reports p.before p.segment
  committed : ∃ now events,
    Committed limits p.before p.segment.flow now incoming planned plan delivered p.after events
  events_eq : p.events = retransmissionEvents p.before p.segment.flow plan ++
    dataEvents p.segment.flow p.before.nextSequence delivered ++
      if plan.closed then [.closed p.segment.flow p.segment.rst] else []

/-- Some plan was carried out. -/
def Accepted.Valid (limits : Limits) (p : Accepted K) : Prop :=
  ∃ incoming planned plan delivered, p.CarriedOut limits incoming planned plan delivered

/-- The push reports the end of its flow. -/
def Accepted.Closes (p : Accepted K) : Prop :=
  ∃ reset, Event.closed p.segment.flow reset ∈ p.events

namespace Accepted.CarriedOut

variable {limits : Limits} {p : Accepted K} {incoming : IncomingPayload} {planned : PlannedMerge}
  {plan : PushPlan} {delivered : Bytes}

variable (h : p.CarriedOut limits incoming planned plan delivered)
include h

theorem closed_mem_events (flow : K) (rs : Bool) : Event.closed flow rs ∈ p.events ↔
      plan.closed = true ∧ flow = p.segment.flow ∧ rs = p.segment.rst := by
  have hr : Event.closed flow rs ∉ retransmissionEvents p.before p.segment.flow plan := by
    unfold retransmissionEvents
    dsimp only
    split_ifs <;> simp
  have hd : Event.closed flow rs ∉ dataEvents p.segment.flow p.before.nextSequence delivered := by
    unfold dataEvents
    split_ifs <;> simp
  rw [h.events_eq, mem_append, mem_append, or_iff_right (not_or.mpr ⟨hr, hd⟩)]
  cases plan.closed <;> simp

theorem closes_iff : p.Closes ↔ plan.closed = true := by
  unfold Closes
  simp only [h.closed_mem_events, true_and, exists_eq_right]

theorem inv_after : p.after.Inv limits := by
  obtain ⟨_, _, hc⟩ := h.committed
  exact hc.inv

theorem fits : incoming.Fits limits p.before p.segment := by
  obtain ⟨_, _, hs⟩ := h.sound
  exact hs.fits

theorem merge : PlansMerge p.before incoming planned.merge := by
  obtain ⟨_, _, hs⟩ := h.sound
  exact hs.sound.merge

theorem next_eq : p.after.nextOffset = p.before.nextOffset + delivered.length := by
  obtain ⟨_, _, hc⟩ := h.committed
  exact hc.next_eq

theorem delivered_length : delivered.length = planned.merge.emittedSegmentBytes := by
  obtain ⟨_, _, hc⟩ := h.committed
  exact hc.delivered_length

theorem finOffset_eq :
    p.after.finOffset = p.before.finOffset.or (segmentFinOffset p.before p.segment) := by
  obtain ⟨_, _, hc⟩ := h.committed
  rw [hc.finOffset_eq, h.fits.finOffset_eq]

theorem merge_eq : plan.merge.overlappingBytes = planned.merge.overlappingBytes ∧
      plan.merge.overlappingRanges = planned.merge.overlappingRanges ∧
      plan.merge.hasConflictingOverlap = planned.merge.hasConflictingOverlap := by
  obtain ⟨_, _, hs⟩ := h.sound
  by_cases hn : incoming.payload = []
  · rw [hs.merge_of_nil hn]
    exact ⟨rfl, rfl, rfl⟩
  · rw [(hs.merge_of_cons hn).plan_eq]
    exact ⟨rfl, rfl, rfl⟩

theorem payloadStart_eq : incoming.payloadStart = plan.retransmitted := by
  have hs := h.fits.start_le
  have hle := h.reports.retransmitted_le
  -- Both are the first index whose byte is not below the next expected offset.
  have hiff : ∀ i < p.segment.payload.length,
      incoming.payloadStart ≤ i ↔ plan.retransmitted ≤ i := fun i hi =>
    (h.fits.start_le_iff i hi).trans (h.reports.retransmitted_le_iff i hi).symm
  rcases lt_trichotomy incoming.payloadStart plan.retransmitted with hlt | heq | hlt
  · have := (hiff incoming.payloadStart (by omega)).mp le_rfl
    omega
  · exact heq
  · have := (hiff plan.retransmitted (by omega)).mpr le_rfl
    omega

theorem length_payload :
    p.segment.payload.length = plan.retransmitted + incoming.payload.length := by
  have hlen := congrArg List.length h.fits.payload_eq
  have hs := h.fits.start_le
  rw [length_drop, h.payloadStart_eq] at hlen
  rw [h.payloadStart_eq] at hs
  omega

/-- What stays pending is what was planned: the pending offsets and those of the new part, without
the delivered ones. -/
theorem held_after : p.after.held = plannedHeld p.before incoming planned.merge := by
  obtain ⟨_, _, hc⟩ := h.committed
  have hin := h.inv
  have hn := h.next_eq
  rw [h.delivered_length] at hn
  have hs := h.fits.end_eq
  have hmem : ∀ x, p.after.nextOffset ≤ x → (x ∈ p.after.held ↔
      x ∈ p.before.held ∨ x ∈ Ico incoming.offset incoming.remainingEnd) := by
    intro x hx
    rw [hc.inv.mem_held_iff, hc.heldByte_eq x hx, TcpFlowState.mergedByte,
      Option.isSome_or, Bool.or_eq_true, ← hin.mem_held_iff, mem_Ico, hs]
    refine or_congr_right ?_
    split_ifs with hle
    · rw [← Option.ne_none_iff_isSome, ne_eq, List.getElem?_eq_none_iff]
      omega
    · simp only [Option.isSome_none, Bool.false_eq_true, false_iff]
      omega
  ext x
  have hlt : x ∈ p.after.held → p.after.nextOffset ≤ x := fun hx =>
    (hc.inv.next_lt_of_mem hx).le
  have hh : x ∈ p.before.held → p.before.nextOffset < x := fun hx => hin.next_lt_of_mem hx
  unfold plannedHeld
  split_ifs with he
  · obtain ⟨heq, hst, hend⟩ := h.merge.of_emitted hin he
    have hu := (h.merge.of_cons (h.merge.payload_ne_nil he)).end_le_unionEnd
    rw [mem_sdiff, mem_Ico]
    constructor
    · intro hx
      rcases (hmem x (hlt hx)).mp hx with hb | hnew
      · exact ⟨hb, fun ha => by have := hlt hx; omega⟩
      · have := hlt hx
        rw [mem_Ico] at hnew
        omega
    · rintro ⟨hb, hnot⟩
      exact (hmem x (by have := hh hb; omega)).mpr (Or.inl hb)
  · rw [not_not.mp he, Nat.add_zero] at hn
    rw [mem_union]
    constructor
    · exact fun hx => (hmem x (hlt hx)).mp hx
    · intro hx
      refine (hmem x ?_).mpr hx
      rcases hx with hb | hnew
      · have := hh hb
        omega
      · have := h.fits.next_le
        rw [mem_Ico] at hnew
        omega

/-- No byte is lost between what is pending, what is new and what is delivered. -/
theorem pendingBytes_after : p.after.pendingBytes + delivered.length =
      p.before.pendingBytes + planned.merge.addedBytes := by
  rw [h.inv_after.pendingBytes_eq, h.held_after, h.delivered_length]
  exact h.merge.card_plannedHeld h.inv h.fits

end Accepted.CarriedOut

/-! ### Transcripts -/

/-- A push continues a transcript: the first one starts a flow, a later one takes the flow as the
last push left it. -/
def Accepted.Continues (l : List (Accepted K)) (q : Accepted K) : Prop :=
  match l.getLast? with
  | none => ∃ now deadline, q.before = .new q.segment.firstPayloadSequence now deadline
  | some p => ¬ p.Closes ∧ ∃ deadline, q.before = { p.after with deadline }

/-- The accepted segments of one generation. -/
inductive Transcript (limits : Limits) : List (Accepted K) → Prop
  | nil : Transcript limits []
  | concat {l : List (Accepted K)} {q : Accepted K} (hl : Transcript limits l)
      (hcontinues : q.Continues l) (hvalid : q.Valid limits) : Transcript limits (l ++ [q])

/-- A property of the state of a flow and of its transcript that holds of a new flow and that every
push keeps, as long as the flow is not closed. -/
structure Kept (limits : Limits) (P : TcpFlowState → List (Accepted K) → Prop) : Prop where
  new : ∀ base now deadline, P (.new base now deadline) []
  with_deadline : ∀ state l deadline, P state l → P { state with deadline } l
  step : ∀ q l, q.Valid limits → ¬ q.Closes → P q.before l → P q.after (l ++ [q])

theorem Transcript.valid {limits : Limits} {l : List (Accepted K)} (h : Transcript limits l) :
    ∀ p ∈ l, p.Valid limits := by
  induction h with
  | nil => nofun
  | concat hl _ hvalid ih =>
    intro p hp
    rcases mem_append.mp hp with hp | hp
    · exact ih p hp
    · rwa [List.mem_singleton.mp hp]

section Kept

variable {limits : Limits} {P : TcpFlowState → List (Accepted K) → Prop}

variable {l : List (Accepted K)}

/-- What every push keeps holds before every push of a transcript. -/
theorem Transcript.before (hP : Kept limits P) (h : Transcript limits l) :
    ∀ {done : List (Accepted K)} {q : Accepted K} {rest : List (Accepted K)},
      l = done ++ q :: rest → P q.before done := by
  induction h with
  | nil =>
    intro done q rest heq
    cases done <;> cases heq
  | @concat l last hl hcontinues hvalid ih =>
    intro done q rest heq
    rcases eq_nil_or_concat' rest with rfl | ⟨rest, last', rfl⟩
    · obtain ⟨rfl, hls⟩ := append_inj' heq rfl
      cases hls
      rcases eq_nil_or_concat' l with rfl | ⟨l, p, rfl⟩
      · obtain ⟨now, deadline, hb⟩ := hcontinues
        rw [hb]
        exact hP.new ..
      · unfold Accepted.Continues at hcontinues
        rw [getLast?_concat] at hcontinues
        obtain ⟨ho, deadline, hb⟩ := hcontinues
        rw [hb]
        refine hP.with_deadline _ _ _ (hP.step p l ?_ ho (ih rfl))
        exact hl.valid p (mem_concat_self ..)
    · rw [← cons_append, ← append_assoc] at heq
      exact ih (append_inj' heq rfl).1

/-- What every push keeps holds after the last push of a transcript, unless it closes the flow. -/
theorem Transcript.after (hP : Kept limits P) {p : Accepted K} (h : Transcript limits (l ++ [p]))
    (ho : ¬ p.Closes) : P p.after (l ++ [p]) :=
  hP.step p l (h.valid p (mem_concat_self ..)) ho (h.before hP rfl)

end Kept

/-! ### Runs -/

/-- The transcript of a flow is one of its generation, and a flow in the table is as the last push
left it. -/
structure Transcribed [LinearOrder K] (limits : Limits) (key : K) (r : Reassembler K)
    (l : List (Accepted K)) : Prop where
  transcript : Transcript limits l
  flow_eq : ∀ p ∈ l, p.segment.flow = key
  live : ∀ state, r.flows.find? key = some state → ∃ l' p deadline, l = l' ++ [p] ∧ ¬ p.Closes ∧
    state = { p.after with deadline }

section Runs

variable [LinearOrder K] {limits : Limits} {key : K} {r : Reassembler K} {l : List (Accepted K)}

theorem Transcribed.of_find? (h : Transcribed limits key r l) {r' : Reassembler K}
    (hr' : ∀ state, r'.flows.find? key = some state → r.flows.find? key = some state) :
    Transcribed limits key r' l :=
  ⟨h.transcript, h.flow_eq, fun state hf => h.live state (hr' state hf)⟩

variable {segment : Segment K} {now : ℕ} {before : TcpFlowState}

theorem carriedOut_of_push (hin : r.Inv) {a : Allocator} {events : List (Event K)}
    (hk : r.ignores segment = false) (hp : (r.push a segment now).1 = .ok events) :
    ∃ before after plan events', r.pushStates a segment now = .ok (before, after) ∧
      r.commitState segment now = .ok before ∧
      (∃ incoming planned delivered, Accepted.CarriedOut r.limits ⟨before, segment, events, after⟩
        incoming planned plan delivered) ∧
      r.push a segment now = (.ok events, (r.store segment now plan after events').2) := by
  unfold Reassembler.push at hp ⊢
  rw [if_neg (Bool.eq_false_iff.mp hk)] at hp ⊢
  cases hpl : r.plan a segment now with
  | error e =>
    rw [hpl] at hp
    cases hp
  | ok plan =>
    obtain ⟨before, incoming, planned, hb, hst, hr, hs⟩ :=
      (Reassembler.plan_spec a hin).of_eq_ok hpl
    obtain ⟨⟨after, events'⟩, hc, delivered, hct⟩ :=
      commitFlowPush_spec segment.flow now hst hin.limits_le hs
    have hsr : r.commitPush segment now plan = .ok (r.store segment now plan after events') := by
      unfold Reassembler.commitPush
      rw [hb, Exec.ok_bind, hc, Exec.ok_bind]
      rfl
    rw [hpl, Exec.ok_bind, hsr] at hp
    obtain rfl : (r.store segment now plan after events').1 = events := Except.ok.inj hp
    refine ⟨before, after, plan, events', ?_, hb, ⟨incoming, planned, delivered, ?_⟩, ?_⟩
    · unfold Reassembler.pushStates
      dsimp only
      rw [hpl, Exec.ok_bind, hb, Exec.ok_bind, hc, Exec.ok_bind]
      rfl
    · refine ⟨hst, ⟨_, _, hs⟩, hs.reports, ⟨_, _, hct⟩, ?_⟩
      rw [← hct.events_eq]
      unfold Reassembler.store
      cases plan.closed with
      | true => rfl
      | false => exact (append_nil _).symm
    · rw [Exec.ok_bind, hsr]

/-- A push continues the transcript of its flow, or an empty one for a new generation. -/
theorem Transcribed.continues (h : Transcribed limits segment.flow r l)
    (hb : r.commitState segment now = .ok before) (events : List (Event K))
    (after : TcpFlowState) :
    let started := if changesGeneration (r.flows.find? segment.flow) segment then [] else l
    Transcript limits started ∧ (∀ p ∈ started, p.segment.flow = segment.flow) ∧
      Accepted.Continues started ⟨before, segment, events, after⟩ := by
  unfold Reassembler.commitState at hb
  split_ifs at hb ⊢ with hc
  · cases hb
    exact ⟨.nil, nofun, _, _, rfl⟩
  · obtain ⟨state, hf⟩ := Reassembler.exists_of_not_changesGeneration (Bool.not_eq_true _ ▸ hc)
    rw [Exec.unwrap_eq hf] at hb
    cases hb
    obtain ⟨l', p, deadline, rfl, ho, hs⟩ := h.live _ hf
    refine ⟨h.transcript, h.flow_eq, ?_⟩
    unfold Accepted.Continues
    rw [getLast?_concat]
    exact ⟨ho, deadline, hs⟩

section

variable (h : Transcribed r.limits key r l) (hin : r.Inv)
include h hin

theorem Transcribed.push (a : Allocator) (segment : Segment K) (now : ℕ) :
    Transcribed r.limits key (r.push a segment now).2
      (transcriptStep key r l (.push a segment now)) := by
  unfold transcriptStep
  dsimp only
  by_cases hk : r.ignores segment = false
  swap
  · rw [if_neg fun ha => hk ha.2, Reassembler.push, if_pos (Bool.not_eq_false _ ▸ hk)]
    exact h
  cases hps : (r.push a segment now).1 with
  | error e =>
    obtain ⟨-, hs⟩ := Reassembler.plan_eq_error_of_push hin hps
    rw [hs]
    split_ifs <;> exact h
  | ok events =>
    obtain ⟨before, after, plan, events', hst, hb, ⟨_, _, _, hc⟩, ho⟩ :=
      carriedOut_of_push hin hk hps
    rw [hst, ho]
    by_cases hkey : segment.flow = key
    swap
    · rw [if_neg fun ha => hkey ha.1]
      refine h.of_find? fun state hf => ?_
      rwa [find?_store, if_neg (Ne.symm hkey)] at hf
    subst hkey
    rw [if_pos ⟨rfl, hk⟩]
    obtain ⟨ht, hfl, hcontinues⟩ := h.continues hb events after
    refine ⟨ht.concat hcontinues ⟨_, _, _, _, hc⟩, ?_, ?_⟩
    · intro p hp
      rcases mem_append.mp hp with hp | hp
      · exact hfl p hp
      · rw [List.mem_singleton.mp hp]
    · intro state hf
      rw [find?_store, if_pos rfl] at hf
      split_ifs at hf with hcl
      cases hf
      exact ⟨_, _, _, rfl, fun hcs => hcl (hc.closes_iff.mp hcs), rfl⟩

theorem Transcribed.step (op : Op K) :
    Transcribed r.limits key (r.step op) (transcriptStep key r l op) := by
  cases op with
  | push a segment now => exact h.push hin a segment now
  | expire now =>
    exact h.of_find? fun _ hf => Reassembler.find?_of_removeFlows
      (r := { r with expiry := (r.expiry.takeExpired now).2 }) hf
  | flush => exact h.of_find? fun _ hf => Reassembler.find?_of_removeFlows hf
  | evictFlow flow => exact h.of_find? fun _ hf => Reassembler.find?_of_removeFlows hf

theorem Transcribed.run (ops : List (Op K)) :
    Transcribed r.limits key (r.run ops) (transcriptRun key r l ops) := by
  induction ops generalizing r l with
  | nil => exact h
  | cons op ops ih =>
    have hlim := Reassembler.limits_step hin op
    rw [← hlim]
    exact ih (hlim ▸ h.step hin op) (hin.step op)

end

theorem transcribed_of_run {c : ℕ} {r₀ : Reassembler K}
    (hnew : Reassembler.new c limits = .ok r₀) (key : K) (ops : List (Op K)) :
    Transcribed limits key (r₀.run ops) (transcriptRun key r₀ [] ops) := by
  have hs : Transcribed r₀.limits key r₀ [] := by
    obtain ⟨-, rfl⟩ := Reassembler.new_eq hnew
    exact ⟨.nil, nofun, nofun⟩
  obtain ⟨hin, hlim⟩ := Reassembler.inv_new hnew
  exact hlim ▸ hs.run hin ops

end Runs

end PacketCraftr.Tcp
