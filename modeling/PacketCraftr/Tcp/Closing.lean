import PacketCraftr.Tcp.Conflicts

/-!
# The end of a TCP stream

A FIN fixes the length of the stream of its generation. It may come before, between or after the
data that it bounds, so that the bound is checked against the pending data when the FIN comes and
against every segment from then on. The stream is delivered up to that length at most, and the push
that delivers the last byte, or that brings the FIN behind it, closes the flow.
-/

open Finset Option
open List hiding Ico

namespace PacketCraftr.Tcp

variable {K : Type}

/-- The length that the first FIN of a transcript gives the stream. A FIN that ends before the base
of the flow gives none. -/
def finalOffset (l : List (Accepted K)) : Option ℕ :=
  l.findSome? fun p => segmentFinOffset p.before p.segment

theorem finalOffset_concat (l : List (Accepted K)) (p : Accepted K) :
    finalOffset (l ++ [p]) = (finalOffset l).or (segmentFinOffset p.before p.segment) := by
  rw [finalOffset, findSome?_append, findSome?_singleton]
  rfl

/-- The events that an operation returns. -/
def Reassembler.emitted [LinearOrder K] (r : Reassembler K) : Op K → List (Event K)
  | .push alloc segment now =>
    match (r.push alloc segment now).1 with
    | .ok events => events
    | .error _ => []
  | .expire now => (r.expire now).1
  | .flush => r.flush.1
  | .evictFlow flow => (r.evictFlow flow).1

/-- What holds of a flow while it is open: the final offset is that of its FINs, and everything
that was delivered or is pending lies before it. -/
structure Bounded (state : TcpFlowState) (l : List (Accepted K)) : Prop where
  fin_eq : state.finOffset = finalOffset l
  agree : ∀ p ∈ l, ∀ fin, segmentFinOffset p.before p.segment = some fin →
    finalOffset l = some fin
  next_lt : ∀ final, finalOffset l = some final → state.nextOffset < final
  held_lt : ∀ final, finalOffset l = some final → ∀ x ∈ state.held, x < final

/-! ### One push -/

section Push

variable {limits : Limits} {l : List (Accepted K)} {p : Accepted K} {incoming : IncomingPayload}
  {planned : PlannedMerge} {plan : PushPlan} {delivered : Bytes}

section

variable (h : Bounded p.before l) (hcr : p.CarriedOut limits incoming planned plan delivered)
include h hcr

theorem Bounded.fin_after : p.after.finOffset = finalOffset (l ++ [p]) := by
  rw [hcr.finOffset_eq, h.fin_eq, finalOffset_concat]

theorem Bounded.agree_after :
    ∀ q ∈ l ++ [p], ∀ fin, segmentFinOffset q.before q.segment = some fin →
      finalOffset (l ++ [p]) = some fin := by
  intro q hq fin hf
  rw [finalOffset_concat]
  rcases mem_append.mp hq with hq | hq
  · rw [h.agree q hq fin hf, some_or]
  · rw [List.mem_singleton.mp hq] at hf
    cases hfn : finalOffset l with
    | none => rw [none_or, hf]
    | some f =>
      rw [some_or, hcr.reports.fin_agrees f fin (h.fin_eq.trans hfn) hf]

/-- What was pending and what a segment adds lies before the final offset. -/
theorem Bounded.lt_final {f : ℕ} (hf : finalOffset (l ++ [p]) = some f) {x : ℕ}
    (hx : x ∈ p.before.held ∨ x ∈ Ico incoming.offset incoming.remainingEnd) : x < f := by
  rw [finalOffset_concat] at hf
  rcases hx with hx | hx
  · rcases or_eq_some_iff.mp hf with hold | ⟨-, hnew⟩
    · exact h.held_lt f hold x hx
    · exact hcr.reports.held_lt_fin f hnew x hx
  · rw [← h.fin_eq] at hf
    have hn := hcr.fits.next_le
    exact hcr.reports.lt_final f hf x (hn.trans (mem_Ico.mp hx).1) (hcr.fits.segmentCovers hx)

/-- A push delivers nothing at or beyond the final offset, and leaves nothing pending there. -/
theorem Bounded.push_le {f : ℕ} (hf : finalOffset (l ++ [p]) = some f) :
    p.after.nextOffset ≤ f ∧ ∀ x ∈ p.after.held, x < f := by
  constructor
  · rw [hcr.next_eq, hcr.delivered_length]
    by_cases hz : planned.merge.emittedSegmentBytes = 0
    · rw [finalOffset_concat] at hf
      rw [hz, Nat.add_zero]
      rcases or_eq_some_iff.mp hf with hold | ⟨-, hnew⟩
      · exact (h.next_lt f hold).le
      · exact hcr.reports.next_le_fin f hnew
    · -- The last delivered byte was pending or is new.
      obtain ⟨-, hs, hend⟩ := hcr.merge.of_emitted hcr.inv hz
      have hm := hcr.merge.of_cons (hcr.merge.payload_ne_nil hz)
      have hls : p.before.nextOffset + planned.merge.emittedSegmentBytes - 1 ∈
          Ico planned.merge.unionStart planned.merge.unionEnd := mem_Ico.mpr (by omega)
      rw [hm.Ico_union hcr.inv, ← hcr.fits.end_eq,
        ← hm.held_inter_union hcr.inv, mem_union, mem_inter] at hls
      have hlt := h.lt_final hcr hf (hls.symm.imp_left And.left)
      omega
  · intro x hx
    rw [hcr.held_after, plannedHeld] at hx
    refine h.lt_final hcr hf ?_
    split_ifs at hx
    · exact Or.inl (mem_sdiff.mp hx).1
    · exact mem_union.mp hx

/-- A segment without RST closes its flow when everything before the final offset is delivered. -/
theorem Bounded.closes_iff (hrst : p.segment.rst = false) :
    plan.closed = true ↔ finalOffset (l ++ [p]) = some p.after.nextOffset := by
  obtain ⟨_, _, hs⟩ := hcr.sound
  have hf : p.before.finOffset.or incoming.finOffset = finalOffset (l ++ [p]) := by
    rw [hs.fits.finOffset_eq, h.fin_eq, finalOffset_concat]
  rw [hs.closed_eq, hs.sound.closed_eq, closesFlow, hrst, Bool.false_or, hf,
    ← hcr.delivered_length, ← hcr.next_eq]
  cases hfn : finalOffset (l ++ [p]) with
  | none => simp
  | some f =>
    have hle := (h.push_le hcr hfn).1
    rw [any_some, decide_eq_true_eq, some_inj]
    omega

end

theorem kept_bounded : Kept (K := K) limits Bounded where
  new _ _ _ := ⟨rfl, nofun, nofun, nofun⟩
  with_deadline _ _ _ h := ⟨h.fin_eq, h.agree, h.next_lt, h.held_lt⟩
  step q l hv ho h := by
    obtain ⟨incoming, planned, plan, delivered, hcr⟩ := hv
    rw [hcr.closes_iff] at ho
    have hrst : q.segment.rst = false := by
      obtain ⟨_, _, hs⟩ := hcr.sound
      rw [hs.closed_eq, hs.sound.closed_eq, closesFlow, Bool.or_eq_true, not_or] at ho
      exact Bool.not_eq_true _ ▸ ho.1
    rw [h.closes_iff hcr hrst] at ho
    constructor
    case fin_eq => exact h.fin_after hcr
    case agree => exact h.agree_after hcr
    case next_lt =>
      intro f hf
      refine lt_of_le_of_ne (h.push_le hcr hf).1 ?_
      rintro rfl
      exact ho hf
    case held_lt => exact fun f hf => (h.push_le hcr hf).2

end Push

/-! ### The push that closes a flow -/

section Transcripts

variable {limits : Limits} {l done rest : List (Accepted K)} {p : Accepted K}

theorem Transcript.rest_eq_nil (h : Transcript limits l) :
    ∀ {rest : List (Accepted K)}, l = done ++ p :: rest → p.Closes → rest = [] := by
  induction h with
  | nil =>
    intro rest hl
    cases done <;> cases hl
  | @concat l last _ hc _ ih =>
    intro rest hl hcl
    rcases eq_nil_or_concat' rest with rfl | ⟨rest, last', rfl⟩
    · rfl
    · rw [← cons_append, ← append_assoc] at hl
      obtain ⟨hl, -⟩ := append_inj' hl rfl
      obtain rfl := ih hl hcl
      unfold Accepted.Continues at hc
      rw [hl, getLast?_concat] at hc
      exact absurd hcl hc.1

/-- The events of a push report the end of its flow at most once. -/
theorem Accepted.CarriedOut.count_closed [DecidableEq K] {incoming : IncomingPayload}
    {planned : PlannedMerge} {plan : PushPlan} {delivered : Bytes}
    (h : p.CarriedOut limits incoming planned plan delivered) :
    p.events.count (.closed p.segment.flow p.segment.rst) = if plan.closed then 1 else 0 := by
  have hr : (retransmissionEvents p.before p.segment.flow plan).count
      (.closed p.segment.flow p.segment.rst) = 0 := by
    unfold retransmissionEvents
    dsimp only
    split_ifs <;> simp
  have hd : (dataEvents p.segment.flow p.before.nextSequence delivered).count
      (.closed p.segment.flow p.segment.rst) = 0 := by
    unfold dataEvents
    split_ifs <;> simp
  rw [h.events_eq, count_append, count_append, hr, hd]
  split_ifs <;> simp

section

variable (h : Transcript limits l) (hl : l = done ++ p :: rest) (hrst : p.segment.rst = false)
include h hl hrst

theorem Transcript.closing : p.after.finOffset = finalOffset (done ++ [p]) ∧
    (∀ q ∈ done ++ [p], ∀ fin, segmentFinOffset q.before q.segment = some fin →
      finalOffset (done ++ [p]) = some fin) ∧
    (∀ f, finalOffset (done ++ [p]) = some f →
      (deliveredBytes (done ++ [p])).length ≤ f ∧ ∀ x ∈ p.after.held, x < f) ∧
    (p.Closes ↔ finalOffset (done ++ [p]) = some (deliveredBytes (done ++ [p])).length) := by
  have hv := h.valid p (by rw [hl]; simp)
  have hs := ((h.before kept_holdsEnd hl).push hv).next_eq
  have hb := h.before kept_bounded hl
  obtain ⟨incoming, planned, plan, delivered, hcr⟩ := hv
  rw [← hs, hcr.closes_iff]
  exact ⟨hb.fin_after hcr, hb.agree_after hcr,
    fun f hf => hb.push_le hcr hf, hb.closes_iff hcr hrst⟩

theorem Transcript.pendingBytes_eq_zero (hc : p.Closes) : p.after.pendingBytes = 0 := by
  have hv := h.valid p (by rw [hl]; simp)
  have hs := ((h.before kept_holdsEnd hl).push hv).next_eq
  obtain ⟨-, -, hb, hi⟩ := h.closing hl hrst
  obtain ⟨_, _, _, _, hcr⟩ := hv
  have hinv := hcr.inv_after
  rw [hinv.pendingBytes_eq, card_eq_zero, eq_empty_iff_forall_notMem]
  intro x hx
  have hlt := (hb _ (hi.mp hc)).2 x hx
  have hn := hinv.next_lt_of_mem hx
  omega

end

/-- The end of a flow is reported once if its stream is complete, and otherwise not at all. -/
theorem Transcript.count_closed [DecidableEq K] {key : K} (h : Transcript limits l)
    (hf : ∀ p ∈ l, p.segment.flow = key) (hrst : ∀ p ∈ l, p.segment.rst = false) :
    (l.flatMap fun p => p.events).count (.closed key false) =
      if finalOffset l = some (deliveredBytes l).length then 1 else 0 := by
  -- Every push reports the end of its flow once if it closes it.
  have hcn : ∀ p ∈ l, p.events.count (.closed key false) = 0 ∨
      p.Closes ∧ p.events.count (.closed key false) = 1 := by
    intro p hp
    obtain ⟨_, _, plan, _, hcr⟩ := h.valid p hp
    rw [← hf p hp, ← hrst p hp, hcr.count_closed, hcr.closes_iff]
    cases plan.closed with
    | true => exact Or.inr ⟨rfl, rfl⟩
    | false => exact Or.inl rfl
  rcases eq_nil_or_concat' l with rfl | ⟨done, p, rfl⟩
  · rfl
  have hp : p ∈ done ++ [p] := mem_concat_self ..
  obtain ⟨-, -, -, hi⟩ := h.closing rfl (hrst p hp)
  have hd : (done.flatMap fun p => p.events).count (.closed key false) = 0 := by
    rw [count_eq_zero, mem_flatMap]
    rintro ⟨q, hq, hmem⟩
    obtain ⟨before, after, rfl⟩ := append_of_mem hq
    have hc : q.Closes := ⟨false, hf q (by simp) ▸ hmem⟩
    have hn := h.rest_eq_nil (by rw [append_assoc, cons_append]) hc
    simp at hn
  rw [flatMap_append, count_append, hd, Nat.zero_add, flatMap_singleton]
  by_cases hc : p.Closes
  · rw [if_pos (hi.mp hc)]
    rcases hcn p hp with hz | ho
    · obtain ⟨rs, hmem⟩ := hc
      obtain ⟨_, _, _, _, hcr⟩ := h.valid p hp
      obtain ⟨-, -, hr⟩ := (hcr.closed_mem_events _ _).mp hmem
      rw [hf p hp, hr, hrst p hp] at hmem
      exact absurd hmem (count_eq_zero.mp hz)
    · exact ho.2
  · rw [if_neg fun hfn => hc (hi.mpr hfn)]
    exact (hcn p hp).resolve_right fun ho => hc ho.1

end Transcripts

/-! ### Runs -/

section Runs

variable [LinearOrder K] {r : Reassembler K} {key : K}

theorem closed_notMem_removeFlows (r : Reassembler K) (keys : List K) (rs : Bool) :
    Event.closed key rs ∉ (r.removeFlows keys).1 := by
  have ho : ∀ (r : Reassembler K) (key' : K), Event.closed key rs ∉ (r.removeFlow key').1 := by
    intro r key'
    unfold Reassembler.removeFlow
    cases r.flows.find? key' with
    | none => exact not_mem_nil
    | some state =>
      dsimp only
      cases state.pending.entries.head? with
      | none => simp
      | some first =>
        dsimp only
        split_ifs <;> simp
  unfold Reassembler.removeFlows
  generalize keys.mergeSort _ = keys
  suffices ∀ (acc : List (Event K) × Reassembler K), Event.closed key rs ∉ acc.1 →
      Event.closed key rs ∉ (keys.foldl (fun x key =>
        (x.1 ++ (x.2.removeFlow key).1, (x.2.removeFlow key).2)) acc).1
    from this ([], r) not_mem_nil
  induction keys with
  | nil => exact fun _ h => h
  | cons key' keys ih =>
    intro acc h
    refine ih _ ?_
    rw [mem_append, not_or]
    exact ⟨h, ho _ _⟩

/-- Only an accepted segment of a flow reports the end of the flow. -/
theorem Reassembler.Inv.push_of_closed_mem (hinv : r.Inv) {op : Op K} {rs : Bool}
    (h : Event.closed key rs ∈ r.emitted op) :
    ∃ a segment now, op = .push a segment now ∧ segment.flow = key ∧ r.ignores segment = false := by
  cases op with
  | push a segment now =>
    unfold Reassembler.emitted at h
    dsimp only at h
    cases hp : (r.push a segment now).1 with
    | error e =>
      rw [hp] at h
      cases h
    | ok events =>
      rw [hp] at h
      by_cases hk : r.ignores segment = false
      · obtain ⟨_, _, _, _, -, -, ⟨_, _, _, hcr⟩, -⟩ := carriedOut_of_push hinv hk hp
        exact ⟨a, segment, now, rfl, ((hcr.closed_mem_events _ _).mp h).2.1.symm, hk⟩
      · rw [Reassembler.push, if_pos (Bool.not_eq_false _ ▸ hk)] at hp
        cases hp
        cases h
  | expire now => exact absurd h (closed_notMem_removeFlows _ _ rs)
  | flush => exact absurd h (closed_notMem_removeFlows _ _ rs)
  | evictFlow flow => exact absurd h (closed_notMem_removeFlows _ _ rs)

/-- **The end of a stream is respected.** Let a generation of a flow be transcribed along any run of
a reassembler with accepted limits, and let none of its segments carry RST.
* Every FIN of the generation gives the same final offset, and after every push the flow keeps that
  of the FINs so far.
* After every push, what was delivered is no longer than the final offset, and every pending
  interval ends there at the latest.
* A push reports that the flow is closed without reset exactly when what was delivered is as long
  as the final offset. Then nothing is pending and no further segment belongs to the generation.
* The report is made once if the stream is complete, and not at all otherwise; no other operation
  makes it. Once it was made the table has no state of the flow, and its charges are those of the
  flows it has. -/
theorem closing_of_run {clock : ℕ} {limits : Limits} {r₀ : Reassembler K}
    (hnew : Reassembler.new clock limits = .ok r₀) (key : K) (ops : List (Op K))
    (hrst : ∀ p ∈ transcriptRun key r₀ [] ops, p.segment.rst = false) :
    let l := transcriptRun key r₀ [] ops
    let r := r₀.run ops
    (∀ p ∈ l, ∀ fin, segmentFinOffset p.before p.segment = some fin → finalOffset l = some fin) ∧
    (∀ done p rest, l = done ++ p :: rest →
      p.after.finOffset = finalOffset (done ++ [p]) ∧
      (∀ final, finalOffset (done ++ [p]) = some final →
        (deliveredBytes (done ++ [p])).length ≤ final ∧
          ∀ a ∈ p.after.pending.entries, a.2 ≤ final) ∧
      (.closed key false ∈ p.events ↔
        finalOffset (done ++ [p]) = some (deliveredBytes (done ++ [p])).length) ∧
      (.closed key false ∈ p.events → p.after.pendingBytes = 0 ∧ rest = [])) ∧
    ((l.flatMap fun p => p.events).count (.closed key false) =
      if finalOffset l = some (deliveredBytes l).length then 1 else 0) ∧
    (∀ op, .closed key false ∈ r.emitted op → ∃ alloc segment now,
      op = .push alloc segment now ∧ segment.flow = key ∧ r.ignores segment = false) ∧
    (finalOffset l = some (deliveredBytes l).length → r.flows.find? key = none ∧
      r.aggregateBytes = (r.flows.sum fun state => state.pendingBytes + state.emittedHistory.len) ∧
      r.aggregateMemoryCharge = r.flows.sum TcpFlowState.charge) := by
  intro l r
  obtain ⟨ht, hfl, hlv⟩ := transcribed_of_run hnew key ops
  have hinv : r.Inv := (Reassembler.inv_run hnew ops).1
  -- The reported end is the end of the flow of the transcript.
  have hc : ∀ p ∈ l, .closed key false ∈ p.events ↔ p.Closes := by
    intro p hp
    obtain ⟨_, _, _, _, hcr⟩ := ht.valid p hp
    rw [hcr.closes_iff, hcr.closed_mem_events, hfl p hp, hrst p hp]
    simp
  refine ⟨?_, ?_, ht.count_closed hfl hrst, fun op => hinv.push_of_closed_mem, ?_⟩
  · intro p hp fin hfin
    rcases eq_nil_or_concat' l with hn | ⟨done, last, hl⟩
    · rw [hn] at hp
      cases hp
    · have hls : last ∈ l := by rw [hl]; exact mem_concat_self ..
      rw [hl] at hp ⊢
      exact (ht.closing hl (hrst last hls)).2.1 p hp fin hfin
  · intro done p rest hl
    have hp : p ∈ l := by rw [hl]; simp
    obtain ⟨hfin, -, hb, hi⟩ := ht.closing hl (hrst p hp)
    rw [hc p hp]
    refine ⟨hfin, fun final hf => ⟨(hb final hf).1, fun a ha => ?_⟩, hi,
      fun h => ⟨ht.pendingBytes_eq_zero hl (hrst p hp) h, ht.rest_eq_nil hl h⟩⟩
    obtain ⟨_, _, _, _, hcr⟩ := ht.valid p hp
    have hnn := hcr.inv_after.separated.nonempty a ha
    have hlt := (hb final hf).2 (a.2 - 1) (TcpFlowState.mem_held.mpr ⟨a, ha, by omega, by omega⟩)
    omega
  · intro hf
    refine ⟨?_, hinv.bytes_eq, hinv.charge_eq⟩
    rw [← not_isSome_iff_eq_none, isSome_iff_exists]
    rintro ⟨state, hfd⟩
    obtain ⟨done, p, -, hl, ho, -⟩ := hlv state hfd
    have hp : p ∈ l := by
      rw [show l = _ from hl]
      exact mem_concat_self ..
    rw [show l = _ from hl] at hf
    exact ho ((ht.closing hl (hrst p hp)).2.2.2.mpr hf)

/-- The FIN comes before the middle of three bytes, which then closes the flow. -/
theorem closing_of_run_early_fin :
    let grant : Allocator := ⟨fun _ => true, true, true⟩
    let r₀ : Reassembler ℕ := ⟨.default, .empty, .empty, 0, 0⟩
    let ops : List (Op ℕ) := [.push grant ⟨0, 7, [1], false, false, false⟩ 0,
      .push grant ⟨0, 9, [3], false, true, false⟩ 0, .push grant ⟨0, 8, [2], false, false, false⟩ 0]
    let l := transcriptRun 0 r₀ [] ops
    Reassembler.new 0 .default = .ok r₀ ∧ (∀ p ∈ l, p.segment.rst = false) ∧
      (l.map fun p => p.events) = [[.data 0 7 [1]], [], [.data 0 8 [2, 3], .closed 0 false]] ∧
      finalOffset l = some 3 ∧
      (l.flatMap fun p => p.events).count (.closed 0 false) =
        if finalOffset l = some (deliveredBytes l).length then 1 else 0 := by
  intro grant r₀ ops l
  have hrst : ∀ p ∈ transcriptRun 0 r₀ [] ops, p.segment.rst = false := by decide +kernel
  exact ⟨rfl, hrst, by decide +kernel, by decide +kernel,
    (closing_of_run (show Reassembler.new 0 .default = .ok r₀ from rfl) 0 ops hrst).2.2.1⟩

end Runs

end PacketCraftr.Tcp
