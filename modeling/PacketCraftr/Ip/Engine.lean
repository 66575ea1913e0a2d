import PacketCraftr.Ip.Admission

/-!
# The IP reassembler

`ip/engine.rs`: pushing a fragment, expiring idle datagrams and flushing the table. An operation
returns its result together with the reassembler it leaves. A push reads the reassembler until its
plan is made; the ranges of a retained datagram are then updated in place, so that what a failed
update left would be seen.
-/

open Finset Option SortedMap Nat

namespace PacketCraftr.Ip

open Intervals Exec

/-! ### Outcomes -/

def disposition (policy : OverlapPolicy) (x : Examined) : FragmentDisposition :=
  if x.merge.kind = .unchanged then .duplicate x.incoming.payload.length
  else if x.merge.conflictingBytes ≠ 0 then
    .overlapResolved policy x.merge.conflictingBytes x.merge.addedBytes
  else .accepted x.merge.addedBytes

def fragmentOutcome (policy : OverlapPolicy) (x : Examined) (uniqueBytes : ℕ) : FragmentOutcome :=
  ⟨x.incoming.key, disposition policy x, x.fragmentCount, uniqueBytes, x.finalLength⟩

/-- The largest end of a non-final fragment, after a fragment. -/
def maxNonFinalEnd (established : Option ℕ) (incoming : Incoming) : Option ℕ :=
  if incoming.moreFragments then some (established.elim incoming.stop (max · incoming.stop))
  else established

/-- The complete payload, read without storing it. -/
def payloadParts (ranges : List RetainedRange) (update : RangeUpdate) (incoming : Incoming) :
    Exec Error (List Bytes) :=
  let retained := ranges.head?.map RetainedRange.bytes
  match update with
  | .unchanged => do
    let bytes ← okOr retained incompleteReconstruction
    pure [bytes]
  | .append => do
    let bytes ← okOr retained incompleteReconstruction
    pure [bytes, incoming.payload]
  | .prepend => do
    let bytes ← okOr retained incompleteReconstruction
    pure [incoming.payload, bytes]
  | .replace range => pure [range.bytes]

namespace RetiredDatagrams

def default : RetiredDatagrams := ⟨[], 0, 0⟩

def omitOne (d : RetiredDatagrams) : Family → RetiredDatagrams
  | .ipv4 => { d with omittedIpv4 := saturatingAdd d.omittedIpv4 1 }
  | .ipv6 => { d with omittedIpv6 := saturatingAdd d.omittedIpv6 1 }

def push (d : RetiredDatagrams) (outcome : IncompleteDatagram) (limit : ℕ) : RetiredDatagrams :=
  if d.outcomes.length < limit then { d with outcomes := d.outcomes ++ [outcome] }
  else d.omitOne outcome.key.family

end RetiredDatagrams

def incompleteDatagram (reason : IncompleteReason) (key : DatagramKey) (state : DatagramState) :
    IncompleteDatagram :=
  ⟨key, reason, state.fragmentCount, state.uniqueBytes, state.finalLength,
    state.duplicateFragments, state.overlapBytes⟩

/-- The order in which the datagram table iterates over its keys. -/
structure IterationOrder where
  order : List DatagramKey → List DatagramKey
  perm : ∀ keys, (order keys).Perm keys

/-- One step of the selection of the smallest keys, which are kept in increasing order. -/
def selectSmallest (limit : ℕ) (smallest : List DatagramKey) (key : DatagramKey) :
    List DatagramKey :=
  if smallest.length < limit then smallest.orderedInsert (· ≤ ·) key
  else if smallest.getLast?.any (key < ·) then smallest.dropLast.orderedInsert (· ≤ ·) key
  else smallest

namespace Reassembler

def new (clock : ℕ) (limits : Limits) (overlapPolicy : OverlapPolicy) :
    Except InvalidLimit Reassembler := do
  limits.validate clock
  pure ⟨limits, overlapPolicy, .empty, .empty, ⟨0, 0, 0⟩⟩

/-! ### Pushing a fragment -/

/-- Everything a push finds out before it changes the reassembler. -/
def plan (alloc : Allocator) (r : Reassembler) (fragment : Fragment) (now externalCharge : ℕ) :
    Exec Error (Examined × Provision) := do
  let x ← r.examine fragment
  let p ← r.provision alloc x now externalCharge
  pure (x, p)

/-- The reassembler without a datagram that completed. -/
def remove (r : Reassembler) (key : DatagramKey) : Exec Error Reassembler :=
  let expiry := r.expiry.remove ((r.datagrams.find? key).bind DatagramState.deadline) key
  match r.datagrams.find? key with
  | none => pure { r with expiry }
  | some state => do
    let retained ← r.retained.release state
    pure { r with expiry, datagrams := r.datagrams.erase key, retained }

def complete (alloc : Allocator) (r : Reassembler) (x : Examined) (p : Provision) :
    Exec Error (PushOutcome × Reassembler) := do
  let finalLength := x.merge.unionEnd
  let datagramCharge ← reconstructedLength p.reconstruction finalLength
  let _ ← okOr ((checkedAdd p.charges.replacementPeakCharge datagramCharge).filter
    (· ≤ r.limits.maxAggregateBytes)) r.aggregateLimit
  let payload ← payloadParts (rangesOf (r.datagrams.find? x.incoming.key)) p.update x.incoming
  let bytes ← reconstructBytes alloc p.reconstruction payload
  let r' ← r.remove x.incoming.key
  pure (.completed (fragmentOutcome r.overlapPolicy x p.charges.uniqueBytes)
    ⟨x.incoming.key, bytes, x.fragmentCount, p.charges.uniqueBytes, finalLength,
      p.charges.duplicateFragments, p.charges.overlapBytes⟩, r')

/-- The table with the ranges of a datagram changed in place. The ranges of a datagram that is not
in the table are not part of it yet. -/
def withRanges (r : Reassembler) (key : DatagramKey) (ranges : List RetainedRange) : Reassembler :=
  match r.datagrams.find? key with
  | none => r
  | some state => { r with datagrams := r.datagrams.insert key { state with ranges } }

/-- The state of a datagram that is retained after a fragment. -/
def retainedState (r : Reassembler) (x : Examined) (p : Provision) (ranges : List RetainedRange) :
    DatagramState where
  ranges := ranges
  uniqueBytes := p.charges.uniqueBytes
  fragmentCount := x.fragmentCount
  duplicateFragments := p.charges.duplicateFragments
  overlapBytes := p.charges.overlapBytes
  finalLength := x.finalLength
  maxNonFinalEnd := maxNonFinalEnd
    ((r.datagrams.find? x.incoming.key).bind DatagramState.maxNonFinalEnd) x.incoming
  reconstruction := p.reconstruction
  lastUpdate := p.charges.lastUpdate
  deadline := p.charges.deadline
  memoryCharge := p.charges.prospectiveCharge

/-- The reassembler after the ranges of the datagram were updated. -/
def store (r : Reassembler) (x : Examined) (p : Provision) (ranges : List RetainedRange) :
    Reassembler :=
  let key := x.incoming.key
  let previousDeadline := (r.datagrams.find? key).bind DatagramState.deadline
  { r with
    datagrams := r.datagrams.insert key (r.retainedState x p ranges)
    expiry :=
      if previousDeadline ≠ p.charges.deadline then
        (r.expiry.remove previousDeadline key).insert p.charges.deadline key
      else r.expiry
    retained :=
      ⟨p.charges.aggregatePayloadBytes, p.charges.aggregateMemoryCharge,
        if p.charges.newSlotCharge ≠ 0 then saturatingAdd r.retained.datagramSlots 1
        else r.retained.datagramSlots⟩ }

def retain (alloc : Allocator) (r : Reassembler) (x : Examined) (p : Provision) :
    Exec Error PushOutcome × Reassembler :=
  let key := x.incoming.key
  if (r.datagrams.find? key).isNone ∧ alloc.tableSlot = false then
    (fail (.resource (.allocationFailed p.charges.prospectiveCharge)), r)
  else
    match applyRangeUpdate alloc (rangesOf (r.datagrams.find? key)) p.update x.incoming x.merge with
    | (.error e, ranges) => (.error e, r.withRanges key ranges)
    | (.ok (), ranges) =>
      (.ok (.accepted (fragmentOutcome r.overlapPolicy x p.charges.uniqueBytes)), r.store x p ranges)

/-- Push a fragment, while `externalCharge` bytes of the budget are used elsewhere. -/
def push (alloc : Allocator) (r : Reassembler) (fragment : Fragment) (now externalCharge : ℕ) :
    Exec Error PushOutcome × Reassembler :=
  match r.plan alloc fragment now externalCharge with
  | .error e => (.error e, r)
  | .ok (x, p) =>
    if completes x.finalLength x.merge then
      match r.complete alloc x p with
      | .error e => (.error e, r)
      | .ok (outcome, r') => (.ok outcome, r')
    else r.retain alloc x p

/-! ### Retiring datagrams -/

/-- Take a datagram out of the table and record it. -/
def retire (record : RetiredDatagrams → DatagramKey → DatagramState → RetiredDatagrams)
    (acc : RetiredDatagrams × Reassembler) (key : DatagramKey) :
    Exec Error (RetiredDatagrams × Reassembler) :=
  match acc.2.datagrams.find? key with
  | none => pure acc
  | some state => do
    let retained ← acc.2.retained.release state
    pure (record acc.1 key state, { acc.2 with datagrams := acc.2.datagrams.erase key, retained })

def expire (r : Reassembler) (now : ℕ) : Exec Error (RetiredDatagrams × Reassembler) :=
  let (keys, expiry) := r.expiry.takeExpired now
  keys.foldlM (retire fun retired key state =>
    retired.push (incompleteDatagram .idleExpired key state) r.limits.maxRetainedOutcomes)
    (.default, { r with expiry })

def flush (order : IterationOrder) (r : Reassembler) :
    Exec Error (RetiredDatagrams × Reassembler) := do
  let retainLimit := min r.limits.maxRetainedOutcomes r.datagrams.size
  let retainedKeys := (order.order r.datagrams.keys).foldl (selectSmallest retainLimit) []
  let reported ← retainedKeys.foldlM (retire fun retired key state =>
    { retired with outcomes :=
      retired.outcomes ++ [incompleteDatagram .endOfCapture key state] }) (.default, r)
  let drained ← reported.2.datagrams.keys.foldlM
    (retire fun retired key _ => retired.omitOne key.family) reported
  pure (drained.1, { drained.2 with expiry := .empty })

end Reassembler

/-! ### Runs -/

inductive Op
  | push (alloc : Allocator) (fragment : Fragment) (now externalCharge : ℕ)
  | expire (now : ℕ)
  | flush (order : IterationOrder)

namespace Reassembler

def step (r : Reassembler) : Op → Reassembler
  | .push alloc fragment now externalCharge => (r.push alloc fragment now externalCharge).2
  | .expire now =>
    match r.expire now with
    | .ok (_, r') => r'
    | .error _ => r
  | .flush order =>
    match r.flush order with
    | .ok (_, r') => r'
    | .error _ => r

def run (r : Reassembler) (ops : List Op) : Reassembler := ops.foldl step r

theorem run_induction {P : Reassembler → Prop} (hs : ∀ r op, P r → P (r.step op))
    (ops : List Op) {r : Reassembler} (h : P r) : P (r.run ops) := by
  induction ops generalizing r with
  | nil => exact h
  | cons op ops ih => exact ih (hs r op h)

/-! ### The completed datagram -/

section Complete

variable {r : Reassembler} {x : Examined} {b t a : List RetainedRange} {now : ℕ}

/-- The ranges after an examined fragment. -/
abbrev updated (r : Reassembler) (x : Examined) (update : RangeUpdate) : List RetainedRange :=
  updatedRanges (rangesOf (r.datagrams.find? x.incoming.key)) x.incoming x.merge update

theorem header_ne_none (hi : r.Inv) (h : x.Sound r b t a)
    (hz : 0 ∈ cover (intervals (rangesOf (r.datagrams.find? x.incoming.key))) ∪
      Ico x.incoming.offset x.incoming.stop) (ecn : Ecn) : r.header x ≠ .ipv4 none ecn := by
  intro heq
  have ha := h.family.aligned
  have hd := hi.datagram x.incoming.key
  unfold header nextReconstruction at heq
  generalize r.datagrams.find? x.incoming.key = existing at *
  generalize x.incoming.reconstruction = incoming at ha heq
  generalize hr : existing.map DatagramState.reconstruction = retained at ha heq
  rw [mem_union, mem_Ico] at hz
  cases ha with
  | newIpv4 =>
    obtain rfl := map_eq_none_iff.mp hr
    simp only [Reconstruction.ipv4.injEq] at heq
    rcases hz with hmem | hmem
    · cases hmem
    · rw [if_pos (le_zero.mp hmem.1)] at heq
      cases heq.1
  | newIpv6 => cases heq
  | ipv4 fh ecn' =>
    obtain ⟨state, rfl, hs⟩ := map_eq_some_iff.mp hr
    cases fh with
    | some e => cases heq
    | none =>
      simp only [Reconstruction.ipv4.injEq] at heq
      rcases hz with hmem | hmem
      · exact (hd state rfl).zero hmem ecn' hs
      · rw [if_pos ⟨rfl, le_zero.mp hmem.1⟩] at heq
        cases heq.1
  | ipv6 =>
    dsimp only at heq
    split_ifs at heq

variable {u : RangeUpdate}

section

variable (h : x.Sound r b t a) (hu : CarriesOut r.overlapPolicy h.merge u)
include h hu

theorem intervals_updated : intervals (r.updated x u) =
      intervals b ++ (x.merge.unionStart, x.merge.unionEnd) :: intervals a := by
  rw [(merged_updatedRanges h.ranges h.valid h.merge hu).intervals_eq, Intervals.merge,
    ← h.merge.split.before, ← h.merge.split.after, ← h.merge.split.touching, h.merge.union_eq]

/-- When the datagram is complete, a single range holds its payload. -/
theorem updated_of_completes (hcompletes : completes x.finalLength x.merge = true) :
    x.finalLength = some x.merge.unionEnd ∧ b = [] ∧ a = [] ∧
      ∃ range, r.updated x u = [range] ∧ range.interval = (0, x.merge.unionEnd) := by
  obtain ⟨length, hf, hc⟩ := (any_eq_true _ _).mp hcompletes
  simp only [Bool.and_eq_true, beq_iff_eq] at hc
  obtain ⟨⟨hcn, hs⟩, hend⟩ := hc
  rw [h.merge.result_eq] at hcn
  obtain rfl : b = [] := List.eq_nil_of_length_eq_zero (by omega)
  obtain rfl : a = [] := List.eq_nil_of_length_eq_zero (by omega)
  have hm := intervals_updated h hu
  obtain ⟨range, hrange, hinterval⟩ := List.map_eq_singleton_iff.mp hm
  refine ⟨by rw [hf, hend], rfl, rfl, range, hrange, ?_⟩
  rw [hinterval, hs]

end

/-- The payload is read from the ranges and the fragment as it would be stored. -/
theorem payloadParts_spec {rn : List RetainedRange} {incoming : Incoming} {merge : MergePlan}
    {p : OverlapPolicy} (hr : Ranges rn) (h : merge.Sound rn incoming [] t [])
    (hu : CarriesOut p h u) {range : RetainedRange}
    (hrange : updatedRanges rn incoming merge u = [range]) :
    (payloadParts rn u incoming).Returns fun pr => pr.flatten = range.bytes := by
  have heq : rn = t := by
    rw [h.split.eq, List.nil_append, List.append_nil]
  cases hu with
  | unchanged hk =>
    rw [updatedRanges] at hrange
    rw [hrange]
    exact ⟨_, rfl, by simp⟩
  | append hk =>
    obtain ⟨r', rfl, -⟩ := h.of_append hr hk
    rw [updatedRanges, h.modify_eq, List.nil_append, List.singleton_inj] at hrange
    rw [heq, ← hrange]
    exact ⟨_, rfl, by simp [RetainedRange.append, RetainedRange.ofBytes]⟩
  | prepend hk =>
    obtain ⟨r', rfl, -⟩ := h.of_prepend hk
    rw [updatedRanges, h.modify_eq, List.nil_append, List.singleton_inj] at hrange
    rw [heq, ← hrange]
    exact ⟨_, rfl, by simp [RetainedRange.prepend, RetainedRange.ofBytes]⟩
  | replace hm =>
    rw [h.replace_eq, List.nil_append, List.singleton_inj] at hrange
    exact ⟨_, rfl, by simp [hrange]⟩

/-- The reassembler without a datagram. -/
def removed (r : Reassembler) (key : DatagramKey) : Reassembler :=
  { r with
    expiry := r.expiry.remove ((r.datagrams.find? key).bind DatagramState.deadline) key
    datagrams := r.datagrams.erase key
    retained :=
      ⟨r.retained.payloadBytes - (r.datagrams.find? key).elim 0 DatagramState.uniqueBytes,
        r.retained.memoryCharge - (r.datagrams.find? key).elim 0 DatagramState.memoryCharge,
        r.retained.datagramSlots⟩ }

theorem Inv.release_eq (hi : r.Inv) {key : DatagramKey} {state : DatagramState}
    (h : r.datagrams.find? key = some state) :
    r.retained.release state = .ok ⟨r.retained.payloadBytes - state.uniqueBytes,
      r.retained.memoryCharge - state.memoryCharge, r.retained.datagramSlots⟩ := by
  refine Retained.release_eq ?_ ?_
  · rw [hi.payload_eq]
    exact le_sum_of_find? h _
  · rw [hi.charge_eq]
    exact (le_sum_of_find? h DatagramState.memoryCharge).trans (le_add_right _ _)

theorem remove_eq (hi : r.Inv) (key : DatagramKey) : r.remove key = .ok (r.removed key) := by
  unfold remove removed
  cases h : r.datagrams.find? key with
  | none =>
    rw [erase_of_find?_eq_none h]
    rfl
  | some state =>
    dsimp only
    rw [hi.release_eq h, ok_bind]
    rfl

/-- The datagram that a fragment completes: its payload is the single range that is left. -/
def completedDatagram (r : Reassembler) (x : Examined) (p : Provision) (payload : Bytes) :
    CompletedDatagram :=
  ⟨x.incoming.key, wireHeader (r.header x) x.merge.unionEnd ++ payload, x.fragmentCount,
    p.charges.uniqueBytes, x.merge.unionEnd, p.charges.duplicateFragments, p.charges.overlapBytes⟩

theorem Inv.header (hi : r.Inv) (h : x.Sound r b t a) :
    (r.header x).WellFormed ∧ (r.header x).family = x.incoming.key.family := by
  have hw := nextReconstruction_wellFormed h.family h.valid.header
    (fun reconstruction hr => (hi.wellFormed x.incoming.key hr).1) x.ecn
  exact ⟨hw.1, hw.2.trans h.valid.family_eq⟩

theorem complete_spec {E : Error → Prop} (hE : ∀ n, E (.resource (.allocationFailed n)))
    (al : Allocator) (hi : r.Inv) (h : x.Sound r b t a) {p : Provision}
    (hp : r.ProvisionFor x now h p) (hcompletes : completes x.finalLength x.merge = true) :
    (r.complete al x p).Yields E fun q => ∃ range,
      r.updated x p.update = [range] ∧ range.interval = (0, x.merge.unionEnd) ∧
        FitsWire (r.header x) x.merge.unionEnd ∧
          q = (.completed (fragmentOutcome r.overlapPolicy x p.charges.uniqueBytes)
            (r.completedDatagram x p range.bytes), r.removed x.incoming.key) := by
  obtain ⟨hf, rfl, rfl, range, hrange, hinterval⟩ := updated_of_completes h hp.update hcompletes
  have hl : range.bytes.length = x.merge.unionEnd := by
    have h₁ : range.start = 0 := congrArg Prod.fst hinterval
    have h₂ : range.start + range.bytes.length = x.merge.unionEnd := congrArg Prod.snd hinterval
    omega
  have hlt := (h.merge.union_le h.ranges h.valid).1
  have hfits : FitsWire (r.header x) x.merge.unionEnd := by
    refine ⟨?_, header_ne_none hi h ?_⟩
    · have hfits := h.fits
      rwa [hf, getD_some] at hfits
    · rw [← cover_merge h.ranges.separated h.valid.offset_lt_stop.le,
        ← (merged_updatedRanges h.ranges h.valid h.merge hp.update).intervals_eq]
      refine mem_cover.mpr ⟨range.interval, ?_, ?_⟩
      · rw [show updatedRanges _ _ _ _ = _ from hrange]
        exact List.mem_cons_self
      · rw [hinterval]
        exact ⟨le_rfl, by dsimp only; omega⟩
  unfold complete
  rw [hp.header_eq]
  refine (reconstructedLength_spec hfits).yields.bind fun d hc => ?_
  subst hc
  refine yields_okOr_bind (fun hn => ?_) fun _ _ => ?_
  · -- The rebuilt datagram was part of the admission.
    obtain ⟨hfit, hle⟩ := hp.charges.completion hcompletes
    rw [checkedAdd_eq_some.mpr ⟨by omega, rfl⟩, filter_some,
      if_pos (by rw [decide_eq_true_eq]; omega)] at hn
    cases hn
  refine (payloadParts_spec h.ranges h.merge hp.update hrange).yields.bind fun pr hpr => ?_
  have hparts_length : pr.flatten.length = x.merge.unionEnd := by
    rw [hpr, hl]
  refine (reconstructBytes_spec hE al (hi.header h).1 (hparts_length.symm ▸ hfits)).bind
    fun bytes hb => ?_
  rw [remove_eq hi, ok_bind]
  refine yields_pure ⟨range, hrange, hinterval, hfits, ?_⟩
  rw [hb, hparts_length, hpr]
  rfl

/-! ### What a push can do -/

/-- The outcomes of a push. An error that is about the budget is one of the plan. -/
inductive PushResult (r : Reassembler) (alloc : Allocator) (fragment : Fragment)
    (now externalCharge : ℕ) : Exec Error PushOutcome × Reassembler → Prop
  | refused {e : Error} (hexamine : r.examine fragment = .error (.error e)) (he : External e) :
    PushResult r alloc fragment now externalCharge (.error (.error e), r)
  | exhausted {x : Examined} {e : Error} (hexamine : r.examine fragment = .ok x)
    (he : IsResource e) (hcause : r.provision alloc x now externalCharge = .error (.error e) ∨
      e ≠ r.aggregateLimit) :
    PushResult r alloc fragment now externalCharge (.error (.error e), r)
  | completed {x : Examined} {b t a : List RetainedRange} {p : Provision} {range : RetainedRange}
    (hexamine : r.examine fragment = .ok x) (hx : x.Sound r b t a)
    (hp : r.ProvisionFor x now hx p) (hcompletes : completes x.finalLength x.merge = true)
    (hrange : r.updated x p.update = [range]) (hinterval : range.interval = (0, x.merge.unionEnd))
    (hfits : FitsWire (r.header x) x.merge.unionEnd)
    (hprovision : r.provision alloc x now externalCharge = .ok p) :
    PushResult r alloc fragment now externalCharge
      (.ok (.completed (fragmentOutcome r.overlapPolicy x p.charges.uniqueBytes)
        (r.completedDatagram x p range.bytes)), r.removed x.incoming.key)
  | retained {x : Examined} {b t a : List RetainedRange} {p : Provision}
    (hexamine : r.examine fragment = .ok x) (hx : x.Sound r b t a)
    (hp : r.ProvisionFor x now hx p) (hcompletes : completes x.finalLength x.merge = false)
    (hprovision : r.provision alloc x now externalCharge = .ok p) :
    PushResult r alloc fragment now externalCharge
      (.ok (.accepted (fragmentOutcome r.overlapPolicy x p.charges.uniqueBytes)),
        r.store x p (r.updated x p.update))

theorem withRanges_self (r : Reassembler) (key : DatagramKey) :
    r.withRanges key (rangesOf (r.datagrams.find? key)) = r := by
  unfold withRanges
  cases h : r.datagrams.find? key with
  | none => rfl
  | some state =>
    have hs : r.datagrams.insert key { state with ranges := state.ranges } = r.datagrams := by
      refine ext_find? fun k => ?_
      rw [find?_insert]
      split_ifs with hk
      · rw [hk, h]
      · rfl
    exact congrArg (fun datagrams => { r with datagrams }) hs

theorem push_result (al : Allocator) (hi : r.Inv) (fragment : Fragment) (now ext : ℕ) :
    r.PushResult al fragment now ext (r.push al fragment now ext) := by
  unfold push plan
  obtain ⟨x, hx, -, b, t, a, hs⟩ | ⟨e, hx, he⟩ := (examine_spec hi fragment).cases
  case inr =>
    rw [hx]
    exact .refused hx he
  obtain ⟨p, hp, hprovision⟩ | ⟨e, hp, he⟩ := (provision_spec al hs).cases
  case inr =>
    rw [hx, ok_bind, hp]
    exact .exhausted hx he (.inl hp)
  rw [hx, ok_bind, hp, ok_bind]
  change PushResult r al fragment now ext (if completes x.finalLength x.merge then _ else _)
  by_cases hcompletes : completes x.finalLength x.merge = true
  · rw [if_pos hcompletes]
    have hc := complete_spec (E := fun e => ∃ n, e = .resource (.allocationFailed n))
      (fun n => ⟨n, rfl⟩) al hi hs hprovision hcompletes
    obtain ⟨_, hq, range, hrange, hinterval, hfits, rfl⟩ | ⟨_, hq, n, rfl⟩ := hc.cases
    · rw [hq]
      exact .completed hx hs hprovision hcompletes hrange hinterval hfits hp
    · rw [hq]
      exact .exhausted hx ⟨_, rfl⟩ (.inr nofun)
  · rw [if_neg hcompletes]
    unfold retain
    by_cases hsl : (r.datagrams.find? x.incoming.key).isNone ∧ al.tableSlot = false
    · rw [if_pos hsl]
      exact .exhausted hx ⟨_, rfl⟩ (.inr nofun)
    · rw [if_neg hsl]
      rcases applyRangeUpdate_eq hs.ranges al hs.merge hprovision.update with
        ha | ha
      · rw [ha]
        exact .retained hx hs hprovision (by simpa using hcompletes) hp
      · rw [ha]
        change PushResult r al fragment now ext (_, r.withRanges _ _)
        rw [withRanges_self]
        exact .exhausted hx ⟨_, rfl⟩ (.inr nofun)

end Complete

/-! ### The invariant of the table -/

section Invariant

variable {r : Reassembler} {x : Examined} {b t a : List RetainedRange} {now : ℕ}

variable {overlapPolicy : OverlapPolicy} {acc : RetiredDatagrams × Reassembler}

section

variable {c : ℕ} {limits : Limits} (h : Reassembler.new c limits overlapPolicy = .ok r)
include h

theorem eq_of_new : r = ⟨limits, overlapPolicy, .empty, .empty, ⟨0, 0, 0⟩⟩ := by
  unfold Reassembler.new at h
  cases hv : limits.validate c with
  | error e =>
    rw [hv] at h
    cases h
  | ok u =>
    rw [hv] at h
    cases h
    rfl

theorem inv_new : r.Inv ∧ r.limits = limits ∧ r.overlapPolicy = overlapPolicy := by
  rw [eq_of_new h]
  exact ⟨
    { datagram := nofun
      payload_eq := rfl
      charge_eq := rfl
      charge_le := zero_le _
      charge_lt := (by decide : 0 < wordLimit)
      size_le := le_rfl }, rfl, rfl⟩

end

theorem cover_updated (h : x.Sound r b t a) {update : RangeUpdate}
    (hu : CarriesOut r.overlapPolicy h.merge update) :
    cover (intervals (r.updated x update)) =
      cover (intervals (rangesOf (r.datagrams.find? x.incoming.key))) ∪
        Ico x.incoming.offset x.incoming.stop := by
  rw [(merged_updatedRanges h.ranges h.valid h.merge hu).intervals_eq,
    cover_merge h.ranges.separated h.valid.offset_lt_stop.le]

/-- The state that is retained after a fragment has the invariant of a datagram. -/
theorem Inv.retainedState (hi : r.Inv) (h : x.Sound r b t a) {p : Provision}
    (hp : r.ProvisionFor x now h p) :
    (r.retainedState x p (r.updated x p.update)).Inv x.incoming.key := by
  have hm := merged_updatedRanges h.ranges h.valid h.merge hp.update
  have hw := hi.header h
  have hln : (r.updated x p.update).length = x.merge.resultRangeCount := by
    have hl := congrArg List.length hm.intervals_eq
    rw [Intervals.merge, ← h.merge.split.before, ← h.merge.split.after] at hl
    simp only [List.length_append, List.length_cons, List.length_map] at hl
    rw [h.merge.result_eq]
    exact hl.trans (by omega)
  have hold : (r.datagrams.find? x.incoming.key).elim 0 DatagramState.uniqueBytes =
      (cover (intervals (rangesOf (r.datagrams.find? x.incoming.key)))).card := by
    cases hs : r.datagrams.find? x.incoming.key with
    | none => rfl
    | some state => exact (hi.datagram _ _ hs).unique_eq
  exact
    { ranges := hm.ranges_of h.ranges h.valid
      unique_eq := by
        change p.charges.uniqueBytes = (cover (intervals (r.updated x p.update))).card
        rw [hp.charges.unique_eq, h.merge.added_eq, hold, cover_updated h hp.update,
          ← card_union_of_disjoint disjoint_sdiff, union_sdiff_self_eq_union]
      charge_eq := by
        change p.charges.prospectiveCharge = charge (r.updated x p.update) p.reconstruction
        rw [hp.charges.prospective_eq, charge, hln, hp.header_eq]
      family_eq := by
        change p.reconstruction.family = _
        rw [hp.header_eq]
        exact hw.2
      wellFormed := by
        change p.reconstruction.WellFormed
        rw [hp.header_eq]
        exact hw.1
      zero := fun hz => by
        change ∀ ecn, p.reconstruction ≠ .ipv4 none ecn
        change 0 ∈ cover (intervals (r.updated x p.update)) at hz
        rw [hp.header_eq]
        rw [cover_updated h hp.update] at hz
        exact header_ne_none hi h hz }

section

variable (m : SortedMap DatagramKey DatagramState) (key : DatagramKey) (f : DatagramState → ℕ)

theorem sum_sub_elim : m.sum f - (m.find? key).elim 0 f = (m.erase key).sum f := by
  cases h : m.find? key with
  | none => rw [erase_of_find?_eq_none h, elim_none, Nat.sub_zero]
  | some state => rw [SortedMap.sum_erase h, elim_some, Nat.add_sub_cancel_left]

theorem elim_le_sum : (m.find? key).elim 0 f ≤ m.sum f := by
  cases h : m.find? key with
  | none => exact zero_le _
  | some state => exact le_sum_of_find? h f

end

section

variable {p : Provision} (hi : r.Inv) (h : x.Sound r b t a) (hp : r.ProvisionFor x now h p)
  (ranges : List RetainedRange)
include hi hp

/-- Storing a new datagram takes one more slot exactly when all the slots are taken. -/
theorem slots_store : (r.store x p ranges).retained.datagramSlots =
    r.retained.datagramSlots + if (r.datagrams.find? x.incoming.key).isNone ∧
      r.datagrams.size ≥ r.retained.datagramSlots then 1 else 0 := by
  have hss : datagramMetadataCharge * r.retained.datagramSlots < wordLimit :=
    (hi.charge_eq ▸ le_add_left _ _).trans_lt hi.charge_lt
  have hst : saturatingAdd r.retained.datagramSlots 1 = r.retained.datagramSlots + 1 := by
    refine saturatingAdd_eq ?_
    simp only [datagramMetadataCharge, wordLimit] at *
    omega
  change (if p.charges.newSlotCharge ≠ 0 then _ else _) = _
  rw [hp.charges.slot_eq, hst]
  split_ifs <;> simp_all [datagramMetadataCharge]

theorem slots_store_eq_max : (r.store x p ranges).retained.datagramSlots =
    max r.retained.datagramSlots (r.store x p ranges).datagrams.size := by
  have hsz := hi.size_le
  rw [slots_store hi h hp]
  change _ = max _ (r.datagrams.insert _ _).size
  rw [size_insert]
  cases hs : r.datagrams.find? x.incoming.key with
  | none =>
    rw [erase_of_find?_eq_none hs]
    simp only [isNone_none, true_and]
    split_ifs <;> omega
  | some state =>
    rw [← size_erase hs, max_eq_left hsz]
    rfl

theorem Inv.store : (r.store x p (r.updated x p.update)).Inv := by
  have hc := sum_sub_elim r.datagrams x.incoming.key DatagramState.memoryCharge
  have hle := elim_le_sum r.datagrams x.incoming.key DatagramState.memoryCharge
  have hsl : p.charges.newSlotCharge = datagramMetadataCharge *
      if (r.datagrams.find? x.incoming.key).isNone ∧ r.datagrams.size ≥ r.retained.datagramSlots
        then 1 else 0 := by
    rw [hp.charges.slot_eq]
    split_ifs <;> rfl
  exact
    { datagram := fun key state hs => by
        change (r.datagrams.insert _ _).find? key = _ at hs
        rw [find?_insert] at hs
        split_ifs at hs with hk
        · cases hs
          rw [hk]
          exact hi.retainedState h hp
        · exact hi.datagram key state hs
      payload_eq := by
        change p.charges.aggregatePayloadBytes = (r.datagrams.insert _ _).sum _
        rw [SortedMap.sum_insert, hp.charges.payload_eq, hi.payload_eq, sum_sub_elim, add_comm]
        rfl
      charge_eq := by
        rw [slots_store hi h hp, Nat.mul_add, ← hsl]
        change p.charges.aggregateMemoryCharge = (r.datagrams.insert _ _).sum _ + _
        rw [SortedMap.sum_insert, hp.charges.aggregate_eq, hi.charge_eq]
        change _ = p.charges.prospectiveCharge + _ + _
        omega
      charge_le := hp.charges.aggregate_le
      charge_lt := hp.charges.aggregate_lt
      size_le := slots_store_eq_max hi h hp _ ▸ le_max_right _ _ }

end

theorem Inv.removed (hi : r.Inv) (key : DatagramKey) : (r.removed key).Inv where
  datagram k state hs := by
    rw [Reassembler.removed, find?_erase] at hs
    split_ifs at hs
    exact hi.datagram k state hs
  payload_eq := by
    dsimp only [Reassembler.removed]
    rw [hi.payload_eq, sum_sub_elim]
  charge_eq := by
    have hc := sum_sub_elim r.datagrams key DatagramState.memoryCharge
    have hle := elim_le_sum r.datagrams key DatagramState.memoryCharge
    dsimp only [Reassembler.removed]
    rw [hi.charge_eq]
    omega
  charge_le := (sub_le _ _).trans hi.charge_le
  charge_lt := (sub_le _ _).trans_lt hi.charge_lt
  size_le := (r.datagrams.size_erase_le key).trans hi.size_le

theorem Inv.push (hi : r.Inv) (al : Allocator) (fragment : Fragment)
    (now ext : ℕ) : (r.push al fragment now ext).2.Inv := by
  have hr := push_result al hi fragment now ext
  generalize r.push al fragment now ext = out at hr
  cases hr with
  | refused => exact hi
  | exhausted => exact hi
  | completed hexamine hx hp hcompletes hrange hinterval hfits => exact hi.removed _
  | retained hexamine hx hp hcompletes => exact hi.store hx hp

theorem Inv.with_expiry (hi : r.Inv) (expiry : ExpiryIndex DatagramKey) :
    ({ r with expiry } : Reassembler).Inv :=
  { hi with }

/-- What is left of a reassembler when datagrams are taken out. -/
structure Leaves (r r' : Reassembler) : Prop where
  inv : r'.Inv
  limits_eq : r'.limits = r.limits
  slots_eq : r'.retained.datagramSlots = r.retained.datagramSlots
  kept : ∀ {key state}, r'.datagrams.find? key = some state → r.datagrams.find? key = some state

theorem Leaves.trans {r' r'' : Reassembler} (h : r.Leaves r') (h' : r'.Leaves r'') : r.Leaves r'' :=
  ⟨h'.inv, h'.limits_eq.trans h.limits_eq, h'.slots_eq.trans h.slots_eq, h.kept ∘ h'.kept⟩

section

variable (record : RetiredDatagrams → DatagramKey → DatagramState → RetiredDatagrams)
  (hi : acc.2.Inv)
include hi

/-- Retiring a datagram returns, records it and takes it out of the table. -/
theorem retire_eq (key : DatagramKey) : (retire record acc key).Returns fun acc' =>
      acc'.2.Inv ∧ acc'.2.limits = acc.2.limits ∧ acc'.2.expiry = acc.2.expiry ∧
        acc'.2.datagrams = acc.2.datagrams.erase key ∧
          acc'.2.retained.datagramSlots = acc.2.retained.datagramSlots ∧
            acc'.1 = (acc.2.datagrams.find? key).elim acc.1 (record acc.1 key) := by
  unfold retire
  cases h : acc.2.datagrams.find? key with
  | none => exact returns_pure ⟨hi, rfl, rfl, (erase_of_find?_eq_none h).symm, rfl, rfl⟩
  | some state =>
    dsimp only
    rw [hi.release_eq h, ok_bind]
    refine returns_pure ⟨?_, rfl, rfl, rfl, rfl, rfl⟩
    have hr := (hi.removed key).with_expiry acc.2.expiry
    rw [removed, h] at hr
    exact hr

/-- Retiring datagrams takes out the states of some keys, and changes no other. -/
theorem retireAll_spec (keys : List DatagramKey) :
    (keys.foldlM (retire record) acc).Returns fun acc' => acc.2.Leaves acc'.2 := by
  refine returns_foldlM (fun s _ => acc.2.Leaves s.2) (fun _ key _ hs => ?_) keys acc
    ⟨hi, rfl, rfl, id⟩
  refine (retire_eq record hs.inv key).mono fun acc' h => ?_
  refine hs.trans ⟨h.1, h.2.1, h.2.2.2.2.1, fun {k state} hst => ?_⟩
  rw [h.2.2.2.1, find?_erase] at hst
  split_ifs at hst
  exact hst

end

theorem expire_spec (hi : r.Inv) (now : ℕ) : (r.expire now).Returns fun acc => r.Leaves acc.2 :=
  (retireAll_spec _ (hi.with_expiry _) _).mono fun _ h => ⟨h.inv, h.limits_eq, h.slots_eq, h.kept⟩

theorem flush_spec (hi : r.Inv) (o : IterationOrder) :
    (r.flush o).Returns fun acc => r.Leaves acc.2 := by
  refine Returns.bind (P := fun acc : RetiredDatagrams × Reassembler => r.Leaves acc.2)
    (retireAll_spec _ hi _) fun reported hr => ?_
  refine (retireAll_spec _ hr.inv _).bind fun drained hd => ?_
  have hl := hr.trans hd
  exact returns_pure ⟨hl.inv.with_expiry _, hl.limits_eq, hl.slots_eq, hl.kept⟩

theorem limits_push (hi : r.Inv) (al : Allocator) (fragment : Fragment)
    (now ext : ℕ) : (r.push al fragment now ext).2.limits = r.limits := by
  have hr := push_result al hi fragment now ext
  generalize r.push al fragment now ext = out at hr
  cases hr <;> rfl

theorem leaves_expire (hi : r.Inv) (now : ℕ) : r.Leaves (r.step (.expire now)) := by
  obtain ⟨acc, ha, h⟩ := expire_spec hi now
  have hs : r.step (.expire now) = acc.2 := by simp only [step, ha]
  rwa [hs]

theorem leaves_flush (hi : r.Inv) (o : IterationOrder) : r.Leaves (r.step (.flush o)) := by
  obtain ⟨acc, ha, h⟩ := flush_spec hi o
  have hs : r.step (.flush o) = acc.2 := by simp only [step, ha]
  rwa [hs]

theorem Inv.step (hi : r.Inv) (op : Op) : (r.step op).Inv ∧ (r.step op).limits = r.limits := by
  cases op with
  | push al fragment now ext =>
    exact ⟨hi.push al fragment now ext, limits_push hi al fragment now ext⟩
  | expire now => exact ⟨(leaves_expire hi now).inv, (leaves_expire hi now).limits_eq⟩
  | flush o => exact ⟨(leaves_flush hi o).inv, (leaves_flush hi o).limits_eq⟩

theorem Leaves.slots_eq_max {r' : Reassembler} (h : r.Leaves r') : r'.retained.datagramSlots =
    max r.retained.datagramSlots r'.datagrams.size := by
  have hle := h.inv.size_le
  rw [h.slots_eq] at hle ⊢
  exact (max_eq_left hle).symm

/-- The slots are as many as before an operation, or as the datagrams that it leaves. -/
theorem Inv.slots_step (hi : r.Inv) (op : Op) : (r.step op).retained.datagramSlots =
    max r.retained.datagramSlots (r.step op).datagrams.size := by
  cases op with
  | push al fragment now ext =>
    change (r.push al fragment now ext).2.retained.datagramSlots =
      max _ (r.push al fragment now ext).2.datagrams.size
    have hr := push_result al hi fragment now ext
    generalize r.push al fragment now ext = out at hr
    cases hr with
    | refused => exact (max_eq_left hi.size_le).symm
    | exhausted => exact (max_eq_left hi.size_le).symm
    | completed => exact (max_eq_left (hi.removed _).size_le).symm
    | retained hexamine hx hp => exact slots_store_eq_max hi hx hp _
  | expire now => exact (leaves_expire hi now).slots_eq_max
  | flush o => exact (leaves_flush hi o).slots_eq_max

theorem Inv.run (hi : r.Inv) (ops : List Op) : (r.run ops).Inv ∧ (r.run ops).limits = r.limits :=
  run_induction (P := fun s => s.Inv ∧ s.limits = r.limits)
    (fun _ op hs => ⟨(hs.1.step op).1, (hs.1.step op).2.trans hs.2⟩) ops ⟨hi, rfl⟩

end Invariant

end Reassembler

end PacketCraftr.Ip
