import PacketCraftr.Ip.Plan

/-!
# What the plan of a push admits

The invariant of a retained datagram and of the whole table, and what holds of a plan made in a state
that has it: every failure is the fault of the input or of the limits, and the charges are those of
the ranges the update leaves, whichever capacity was chosen for them.
-/

open Exec Option

namespace PacketCraftr.Ip

open DatagramState

def capacities (ranges : List RetainedRange) : ℕ := (ranges.map RetainedRange.capacity).sum

theorem capacities_append (l m : List RetainedRange) :
    capacities (l ++ m) = capacities l + capacities m := by
  rw [capacities, List.map_append, List.sum_append]
  rfl

theorem capacities_cons (r : RetainedRange) (l : List RetainedRange) :
    capacities (r :: l) = r.capacity + capacities l := by
  rfl

variable {ranges : List RetainedRange}

private theorem foldlM_capacity {total c : ℕ} (ht : total < wordLimit) :
    ranges.foldlM (fun total range => checkedAdd total range.capacity) total = some c ↔
      total + capacities ranges < wordLimit ∧ c = total + capacities ranges := by
  induction ranges generalizing total with
  | nil => simp [capacities, ht, eq_comm]
  | cons r ranges ih =>
    rw [List.foldlM_cons, bind_eq_bind, bind_eq_some_iff, capacities_cons, ← Nat.add_assoc]
    constructor
    · rintro ⟨_, hn, h⟩
      obtain ⟨hlt, rfl⟩ := checkedAdd_eq_some.mp hn
      exact (ih hlt).mp h
    · intro h
      exact ⟨_, checkedAdd_eq_some.mpr ⟨by omega, rfl⟩, (ih (by omega)).mpr h⟩

theorem capacitySum_eq_some {c : ℕ} :
    capacitySum ranges = some c ↔ capacities ranges < wordLimit ∧ c = capacities ranges := by
  rw [capacitySum, foldlM_capacity (by decide), Nat.zero_add]

theorem le_capacities_of_capacitySum (h : capacitySum ranges = none) :
    wordLimit ≤ capacities ranges := by
  by_contra hlt
  rw [capacitySum_eq_some.mpr ⟨not_le.mp hlt, rfl⟩] at h
  cases h

/-! ### The invariants -/

/-- What a datagram is charged. -/
def charge (ranges : List RetainedRange) (reconstruction : Reconstruction) : ℕ :=
  rangeMetadataCharge * ranges.length + capacities ranges + reconstruction.headerLength

/-- What holds of a retained datagram between two operations. -/
structure DatagramState.Inv (key : DatagramKey) (state : DatagramState) : Prop where
  ranges : Ranges state.ranges
  unique_eq : state.uniqueBytes = (Intervals.cover (intervals state.ranges)).card
  charge_eq : state.memoryCharge = charge state.ranges state.reconstruction
  family_eq : state.reconstruction.family = key.family
  wellFormed : state.reconstruction.WellFormed
  zero : 0 ∈ Intervals.cover (intervals state.ranges) → ∀ ecn, state.reconstruction ≠ .ipv4 none ecn

/-- What holds of a reassembler between two operations. -/
structure Reassembler.Inv (r : Reassembler) : Prop where
  datagram : ∀ key state, r.datagrams.find? key = some state → state.Inv key
  payload_eq : r.retained.payloadBytes = r.datagrams.sum DatagramState.uniqueBytes
  charge_eq : r.retained.memoryCharge =
    r.datagrams.sum memoryCharge + datagramMetadataCharge * r.retained.datagramSlots
  charge_le : r.retained.memoryCharge ≤ r.limits.maxAggregateBytes
  charge_lt : r.retained.memoryCharge < wordLimit
  size_le : r.datagrams.size ≤ r.retained.datagramSlots

/-! ### The checks against the datagram -/

/-- The ranges of a datagram that may not exist yet. -/
abbrev rangesOf (existing : Option DatagramState) : List RetainedRange :=
  existing.elim [] DatagramState.ranges

/-- What holds of a fragment that passed every check. -/
structure Examined.Sound (r : Reassembler) (x : Examined) (b t a : List RetainedRange) : Prop where
  valid : x.incoming.Valid
  count_eq : x.fragmentCount =
    (r.datagrams.find? x.incoming.key).elim 0 DatagramState.fragmentCount + 1
  family : SameFamily ((r.datagrams.find? x.incoming.key).map DatagramState.reconstruction)
    x.incoming
  ranges : Ranges (rangesOf (r.datagrams.find? x.incoming.key))
  final_eq : planFinalLength ((r.datagrams.find? x.incoming.key).bind DatagramState.finalLength)
    ((r.datagrams.find? x.incoming.key).bind maxNonFinalEnd)
    (retainedEnd (r.datagrams.find? x.incoming.key)) x.incoming = .ok x.finalLength
  fits : (nextReconstruction ((r.datagrams.find? x.incoming.key).map DatagramState.reconstruction)
    x.incoming x.ecn).wireOverhead + x.finalLength.getD (max x.incoming.stop
      ((retainedEnd (r.datagrams.find? x.incoming.key)).getD 0)) ≤ maxWireLength
  merge : x.merge.Sound (rangesOf (r.datagrams.find? x.incoming.key)) x.incoming b t a
  no_conflict : r.overlapPolicy = .reject → x.merge.conflictingBytes = 0

/-- A fragment that extends a range touches only that one. -/
theorem MergePlan.Sound.count_of_extends {ranges b t a : List RetainedRange}
    {incoming : Incoming} {merge : MergePlan} (h : merge.Sound ranges incoming b t a)
    (he : merge.kind.extends = true) : merge.affectedCount = 1 := by
  have hkn := h.kind_eq
  cases hk : merge.kind with
  | unchanged => simp [hk, UpdateKind.extends] at he
  | replace => simp [hk, UpdateKind.extends] at he
  | append => exact (updateKind_eq_append (hkn.symm.trans hk)).1
  | prepend => exact (updateKind_eq_prepend (hkn.symm.trans hk)).1

namespace Reassembler

variable {r : Reassembler}

theorem Inv.ranges_of (hinv : r.Inv) (key : DatagramKey) :
    Ranges (rangesOf (r.datagrams.find? key)) := by
  cases h : r.datagrams.find? key with
  | none => exact .nil
  | some state => exact (hinv.datagram key state h).ranges

theorem Inv.wellFormed (hinv : r.Inv) (key : DatagramKey) {reconstruction : Reconstruction}
    (h : (r.datagrams.find? key).map DatagramState.reconstruction = some reconstruction) :
    reconstruction.WellFormed ∧ reconstruction.family = key.family := by
  obtain ⟨state, hs, rfl⟩ := map_eq_some_iff.mp h
  exact ⟨(hinv.datagram key state hs).wellFormed, (hinv.datagram key state hs).family_eq⟩

/-- A fragment is at odds with its datagram, or it passes every check. -/
theorem inspect_spec (hinv : r.Inv) {incoming : Incoming} (hv : incoming.Valid)
    {fragmentCount : ℕ} (hc : fragmentCount =
      (r.datagrams.find? incoming.key).elim 0 DatagramState.fragmentCount + 1) :
    (r.inspect incoming).Yields External fun y => ∃ b t a,
      (⟨incoming, fragmentCount, y.1, y.2.1, y.2.2⟩ : Examined).Sound r b t a := by
  have hr := hinv.ranges_of incoming.key
  have hw (reconstruction : Reconstruction)
      (h : (r.datagrams.find? incoming.key).map DatagramState.reconstruction =
        some reconstruction) : reconstruction.WellFormed :=
    (hinv.wellFormed incoming.key h).1
  have hf : SameFamily ((r.datagrams.find? incoming.key).map DatagramState.reconstruction)
      incoming := fun reconstruction h =>
    (hinv.wellFormed incoming.key h).2.trans hv.family_eq.symm
  refine (validateReconstructionConsistency_spec hf).bind fun _ hcs => ?_
  refine (accumulatedEcn_spec _ incoming).bind fun ecn _ => ?_
  refine (planFinalLength_spec _ _ _ incoming).bind_eq fun f hp _ => ?_
  refine (validateFamilyWireExtent_spec hf hv.header hw).bind fun _ he => ?_
  obtain ⟨p, hi, hft⟩ := he
  rw [reconstructedPrefixLength_eq hcs hi ecn hf] at hft
  refine (planMerge_spec hr hv).yields.bind fun merge hm => ?_
  obtain ⟨b, t, a, hm⟩ := hm
  refine yields_rejectIf_bind (fun _ => rfl) fun hcf => ?_
  refine yields_pure ⟨b, t, a, hv, hc, hf, hr, hp, hft, hm, fun hrj => ?_⟩
  by_contra hne
  exact hcf ⟨hne, hrj⟩

/-- A fragment is refused for its own fault, or for want of a resource, or it passes every check. -/
theorem examine_spec (hinv : r.Inv) (fragment : Fragment) :
    (r.examine fragment).Yields External fun x =>
      x.incoming.key = fragment.key ∧ ∃ b t a, x.Sound r b t a := by
  refine (validateFragment_spec fragment r.limits).bind fun incoming hi => ?_
  obtain ⟨hv, hk⟩ := hi
  refine yields_rejectIf_bind (fun _ => rfl) fun _ => ?_
  refine yields_okOr_bind (fun _ => rfl) fun f hc => ?_
  obtain ⟨hc, -⟩ := filter_eq_some_iff.mp hc
  refine (inspect_spec hinv hv (checkedAdd_eq_some.mp hc).2).bind fun y hy => ?_
  exact yields_pure ⟨hk, hy⟩

/-! ### Storage -/

/-- Whether the fragment is merged into the buffers that exist. -/
def KeepsBuffers (merge : MergePlan) (t : List RetainedRange) : Prop :=
  merge.kind = .unchanged ∨
    (merge.kind.extends = true ∧ merge.unionEnd - merge.unionStart ≤ capacities t)

/-- The storage planned for a capacity: the buffers are kept, or those of the touching ranges are
replaced. -/
inductive StorageFor (merge : MergePlan) (b t a : List RetainedRange) (capacity : ℕ) :
    StoragePlan → Prop
  | kept (h : KeepsBuffers merge t) :
    StorageFor merge b t a capacity ⟨capacities (b ++ t ++ a), 0⟩
  | replaced (h : ¬ KeepsBuffers merge t) :
    StorageFor merge b t a capacity
      ⟨capacities b + capacities a + max capacity (merge.unionEnd - merge.unionStart),
        max capacity (merge.unionEnd - merge.unionStart)⟩

section Storage

variable {rn b t a : List RetainedRange} {incoming : Incoming} {merge : MergePlan}

theorem storagePlan_spec {E : Error → Prop} (hrn : Ranges rn) (hi : incoming.Valid)
    (h : merge.Sound rn incoming b t a) (capacity : ℕ)
    (hE : wordLimit ≤ capacities rn + max capacity (merge.unionEnd - merge.unionStart) →
      E r.aggregateLimit) :
    (r.storagePlan rn merge capacity).Yields E (StorageFor merge b t a capacity) := by
  obtain ⟨hlt, -⟩ := h.union_le hrn hi
  have hsp : capacities rn = capacities b + capacities t + capacities a := by
    rw [h.split.eq, capacities_append, capacities_append]
  refine yields_okOr_bind (fun hn => hE ?_) fun rt hr => ?_
  · exact (le_capacities_of_capacitySum hn).trans (Nat.le_add_right _ _)
  obtain ⟨-, rfl⟩ := capacitySum_eq_some.mp hr
  by_cases hk : merge.kind = .unchanged
  · rw [if_pos hk, h.split.eq]
    exact .kept (Or.inl hk)
  · have hl : rn.length = b.length + t.length + a.length := by
      rw [h.split.eq, List.length_append, List.length_append]
    have hw : maxWireLength < wordLimit := by decide
    have hle := hrn.length_le
    have hs : (rn.take (b.length + t.length)).drop b.length = t := by
      rw [h.split.eq, ← List.length_append, List.take_left, List.drop_left]
    rw [if_neg hk]
    unfold changedStoragePlan
    rw [h.first_eq, h.count_eq, add_eq (by omega), ok_bind,
      slice_eq (Nat.le_add_right _ _) (by omega), ok_bind, hs]
    refine yields_okOr_bind (fun hn => hE ?_) fun af ha => ?_
    · have := le_capacities_of_capacitySum hn
      omega
    obtain ⟨-, rfl⟩ := capacitySum_eq_some.mp ha
    rw [sub_eq hlt.le, ok_bind]
    by_cases hkp : merge.kind.extends = true ∧ capacities t ≥ merge.unionEnd - merge.unionStart
    · rw [if_pos hkp, h.split.eq]
      exact .kept (Or.inr hkp)
    · rw [if_neg hkp, checkedSub_eq_some.mpr ⟨by omega, rfl⟩,
        show capacities rn - capacities t = capacities b + capacities a by omega]
      dsimp only [bind_some]
      refine yields_okOr_bind (fun hn => hE ?_) fun rt hr => ?_
      · by_contra hrm
        rw [checkedAdd_eq_some.mpr ⟨by omega, rfl⟩] at hn
        cases hn
      obtain ⟨-, rfl⟩ := checkedAdd_eq_some.mp hr
      exact .replaced (not_or.mpr ⟨hk, hkp⟩)

end Storage

/-! ### Charges -/

/-- The header that is retained after an examined fragment. -/
abbrev header (r : Reassembler) (x : Examined) : Reconstruction :=
  nextReconstruction ((r.datagrams.find? x.incoming.key).map DatagramState.reconstruction)
    x.incoming x.ecn

/-- The last update of the datagram of an examined fragment, when it is pushed. -/
abbrev lastUpdate (r : Reassembler) (x : Examined) (now : ℕ) : ℕ :=
  (r.datagrams.find? x.incoming.key).elim now fun state => max state.lastUpdate now

/-- The charges with which the fragment is admitted when `payload` bytes of buffers are retained. -/
structure ChargesFor (r : Reassembler) (x : Examined) (now payload : ℕ) (c : Charges) : Prop where
  unique_eq : c.uniqueBytes =
    (r.datagrams.find? x.incoming.key).elim 0 DatagramState.uniqueBytes + x.merge.addedBytes
  unique_le : c.uniqueBytes ≤ r.limits.maxBytesPerDatagram
  duplicate_eq : c.duplicateFragments =
    (r.datagrams.find? x.incoming.key).elim 0 DatagramState.duplicateFragments +
      if x.merge.kind = .unchanged then 1 else 0
  overlap_eq : c.overlapBytes =
    (r.datagrams.find? x.incoming.key).elim 0 DatagramState.overlapBytes + x.merge.conflictingBytes
  slot_eq : c.newSlotCharge =
    if (r.datagrams.find? x.incoming.key).isNone ∧ r.datagrams.size ≥ r.retained.datagramSlots
    then datagramMetadataCharge else 0
  prospective_eq : c.prospectiveCharge =
    rangeMetadataCharge * x.merge.resultRangeCount + payload + (r.header x).headerLength
  aggregate_eq : c.aggregateMemoryCharge = r.retained.memoryCharge -
    (r.datagrams.find? x.incoming.key).elim 0 memoryCharge + c.prospectiveCharge +
      c.newSlotCharge
  aggregate_le : c.aggregateMemoryCharge ≤ r.limits.maxAggregateBytes
  aggregate_lt : c.aggregateMemoryCharge < wordLimit
  payload_eq : c.aggregatePayloadBytes = r.retained.payloadBytes -
    (r.datagrams.find? x.incoming.key).elim 0 DatagramState.uniqueBytes + c.uniqueBytes
  update_eq : c.lastUpdate = r.lastUpdate x now
  deadline_eq : c.deadline = checkedAddInstant (r.lastUpdate x now) r.limits.idleExpiry
  completion : completes x.finalLength x.merge = true →
    c.replacementPeakCharge + (r.header x).headerLength + x.merge.unionEnd < wordLimit ∧
      c.replacementPeakCharge + (r.header x).headerLength + x.merge.unionEnd ≤
        r.limits.maxAggregateBytes

theorem admitCharges_spec {x : Examined} {b t a : List RetainedRange} (h : x.Sound r b t a)
    (s : StoragePlan) (now ext : ℕ) :
    (r.admitCharges (r.datagrams.find? x.incoming.key) x.incoming x.merge s now
      ext).Yields IsResource (r.ChargesFor x now s.retainedPayload) := by
  unfold admitCharges
  dsimp only
  refine yields_okOr_bind (fun _ => ⟨_, rfl⟩) fun u hu => ?_
  rw [reconstructionRetainedBytes_eq h.family x.ecn, ok_bind]
  refine yields_okOr_bind (fun _ => ⟨_, rfl⟩) fun deadline hd => ?_
  refine yields_okOr_bind (fun _ => ⟨_, rfl⟩) fun d hdp => ?_
  refine yields_okOr_bind (fun _ => ⟨_, rfl⟩) fun o ho => ?_
  refine yields_okOr_bind (fun _ => ⟨_, rfl⟩) fun p hp => ?_
  refine yields_okOr_bind (fun _ => ⟨_, rfl⟩) fun ag ha => ?_
  rw [replacementAllocationCharge, LawfulMonad.bind_assoc]
  refine yields_okOr_bind (fun _ => ⟨_, rfl⟩) fun rm _ => ?_
  refine yields_okOr_bind (fun _ => ⟨_, rfl⟩) fun ra _ => ?_
  refine yields_okOr_bind (fun _ => ⟨_, rfl⟩) fun rpc _ => ?_
  rw [h.final_eq, ok_bind]
  refine yields_rejectIf_bind (fun _ => ⟨_, rfl⟩) fun hc => ?_
  refine yields_okOr_bind (fun _ => ⟨_, rfl⟩) fun apb hpy => ?_
  refine yields_pure ?_
  simp only [filter_eq_some_iff, bind_eq_some_iff, any_eq_true,
    checkedAdd_eq_some, checkedMul_eq_some, checkedSub_eq_some,
    decide_eq_true_eq] at hu hp ha hpy
  obtain ⟨⟨-, hu⟩, hl⟩ := hu
  obtain ⟨_, ⟨_, ⟨-, rfl⟩, -, rfl⟩, -, hp⟩ := hp
  obtain ⟨⟨_, ⟨_, ⟨-, rfl⟩, -, rfl⟩, hlt, ha⟩, _, ⟨-, rfl⟩, hle⟩ := ha
  obtain ⟨⟨_, ⟨-, rfl⟩, -, hpy⟩, -⟩ := hpy
  exact
    { unique_eq := hu
      unique_le := hl
      duplicate_eq := (checkedAdd_eq_some.mp hdp).2
      overlap_eq := (checkedAdd_eq_some.mp ho).2
      slot_eq := rfl
      prospective_eq := by rw [hp, Nat.mul_comm]
      aggregate_eq := ha
      aggregate_le := (Nat.le_add_right _ _).trans hle
      aggregate_lt := ha ▸ hlt
      payload_eq := hpy
      update_eq := rfl
      deadline_eq := hd.symm
      completion := fun hcp => by
        have hr := not_and.mp hc hcp
        rw [isNone_iff_eq_none, ← ne_eq, ne_none_iff_exists'] at hr
        simp only [filter_eq_some_iff, bind_eq_some_iff, checkedAdd_eq_some,
          decide_eq_true_eq] at hr
        obtain ⟨_, ⟨_, ⟨-, rfl⟩, hlt, rfl⟩, hle⟩ := hr
        exact ⟨hlt, hle⟩ }

/-! ### The choice of a capacity -/

section Choose

variable {x : Examined} {b t a : List RetainedRange} {now ext : ℕ}

/-- Storage for some capacity, with the charges it is admitted with. -/
def Admitted (r : Reassembler) (x : Examined) (b t a : List RetainedRange) (now : ℕ)
    (p : StoragePlan × Charges) : Prop :=
  (∃ capacity, StorageFor x.merge b t a capacity p.1) ∧ r.ChargesFor x now p.1.retainedPayload p.2

variable (h : x.Sound r b t a)
include h

theorem admitCapacity_spec (capacity : ℕ) :
    (r.admitCapacity (r.datagrams.find? x.incoming.key) x now ext capacity).Yields
      IsResource fun p => StorageFor x.merge b t a capacity p.1 ∧
        p.2.Yields IsResource (r.ChargesFor x now p.1.retainedPayload) := by
  refine (storagePlan_spec h.ranges h.valid h.merge capacity fun _ => ⟨_, rfl⟩).bind fun s hs => ?_
  exact yields_pure ⟨hs, admitCharges_spec h s now ext⟩

theorem searchCapacity_spec (rn : ℕ) {lower u : ℕ} (hu : u < wordLimit)
    {s : StoragePlan} {ac : Charges}
    (ha : r.Admitted x b t a now (s, ac)) :
    (r.searchCapacity (r.datagrams.find? x.incoming.key) x now ext rn lower u
      s ac).Yields IsResource (r.Admitted x b t a now) := by
  induction rn generalizing lower u s ac with
  | zero => exact ha
  | succ rn ih =>
    unfold searchCapacity
    by_cases hlt : lower < u
    · rw [if_pos hlt, add_eq (by omega), ok_bind]
      refine (admitCapacity_spec h _).bind fun p hp => ?_
      obtain ⟨c, ch⟩ := p
      obtain ⟨hs, hc⟩ := hp
      dsimp only at hs hc ⊢
      split
      · exact ih hu ⟨⟨_, hs⟩, hc⟩
      · rw [sub_eq (by omega), ok_bind]
        exact ih (by omega) ha
      · exact hc.of_error
    · rw [if_neg hlt]
      exact ha

theorem preferredCapacity_spec {required : ℕ} (hr : required < wordLimit) :
    (r.preferredCapacity (rangesOf (r.datagrams.find? x.incoming.key)) x.merge required).Returns
      (· < wordLimit) := by
  unfold preferredCapacity
  by_cases he : x.merge.kind.extends = true
  · obtain ⟨range, -, hrn⟩ := h.merge.exists_touching (h.merge.count_of_extends he)
    rw [if_pos he, hrn]
    refine returns_pure ((min_le_left _ _).trans_lt (max_lt ?_ hr))
    exact (min_le_right _ _).trans_lt (by decide)
  · rw [if_neg he]
    exact returns_pure hr

theorem chooseStorage_spec :
    (r.chooseStorage (r.datagrams.find? x.incoming.key) x now ext).Yields IsResource
      (r.Admitted x b t a now) := by
  obtain ⟨hlt, hle⟩ := h.merge.union_le h.ranges h.valid
  have hw : maxWireLength < wordLimit := by decide
  unfold chooseStorage
  rw [sub_eq hlt.le, ok_bind]
  refine (preferredCapacity_spec h (by omega)).yields.bind fun pr hpr => ?_
  refine (admitCapacity_spec h pr).bind fun p hp => ?_
  obtain ⟨s, c⟩ := p
  obtain ⟨hs, hc⟩ := hp
  dsimp only at hs hc ⊢
  split
  · by_cases hm : pr > x.merge.unionEnd - x.merge.unionStart
    · rw [if_pos hm]
      refine (admitCapacity_spec h _).bind fun q hq => ?_
      refine hq.2.bind fun ac ha => ?_
      rw [sub_eq (by omega), ok_bind]
      exact searchCapacity_spec h _ (by omega) ⟨⟨_, hq.1⟩, ha⟩
    · rw [if_neg hm]
      exact hc.of_error
  · exact hc.of_error
  · exact ⟨⟨_, hs⟩, hc⟩

end Choose

/-! ### The update -/

section Update

variable {x : Examined} {b t a : List RetainedRange} {now ext : ℕ}

/-- What is stored carries out the merge, and is charged what the updated ranges need. -/
structure ProvisionFor (r : Reassembler) (x : Examined) (now : ℕ)
    (h : x.Sound r b t a) (p : Provision) : Prop where
  header_eq : p.reconstruction = r.header x
  update : CarriesOut r.overlapPolicy h.merge p.update
  charges : r.ChargesFor x now (capacities (updatedRanges
    (rangesOf (r.datagrams.find? x.incoming.key)) x.incoming x.merge p.update)) p.charges

/-- Extending a range in place keeps the capacities when the buffer has room. -/
private theorem capacities_extended {r r' : RetainedRange} {room : ℕ} (b a : List RetainedRange)
    (hc : r'.capacity = max r.capacity room) (hr : room ≤ capacities [r]) :
    capacities (b ++ [r] ++ a) = capacities (b ++ r' :: a) := by
  rw [capacities_cons, show capacities [] = 0 from rfl, Nat.add_zero] at hr
  rw [List.append_assoc, List.singleton_append, capacities_append, capacities_append,
    capacities_cons, capacities_cons, hc, max_eq_left hr]

/-- A range that is extended in place to the whole union has the room for it. -/
private theorem KeepsBuffers.room {merge : MergePlan} (hk : KeepsBuffers merge t)
    (hkn : merge.kind ≠ .unchanged) {start length : ℕ}
    (h : (start, start + length) = (merge.unionStart, merge.unionEnd)) : length ≤ capacities t := by
  obtain ⟨-, hr⟩ := hk.resolve_left hkn
  obtain ⟨rfl, h⟩ := Prod.mk.inj h
  omega

private theorem keptUpdate_spec (h : x.Sound r b t a) (hkp : KeepsBuffers x.merge t)
    {c : Charges} (hc : r.ChargesFor x now (capacities (b ++ t ++ a)) c) :
    Exec.Yields IsResource (match x.merge.kind with
        | .unchanged => pure (.unchanged, c)
        | .append => pure (.append, c)
        | .prepend => pure (.prepend, c)
        | .replace => Exec.fail incompleteReconstruction : Exec Error (RangeUpdate × Charges))
      fun p => CarriesOut r.overlapPolicy h.merge p.1 ∧
        r.ChargesFor x now (capacities (updatedRanges
          (rangesOf (r.datagrams.find? x.incoming.key)) x.incoming x.merge p.1)) p.2 := by
  cases hk : x.merge.kind with
  | unchanged =>
    refine yields_pure ⟨.unchanged hk, ?_⟩
    rw [updatedRanges, h.merge.split.eq]
    exact hc
  | append =>
    obtain ⟨range, rfl, hs⟩ := h.merge.of_append h.ranges hk
    have hr : (range.bytes ++ x.incoming.payload).length ≤ capacities [range] :=
      hkp.room (by simp [hk]) ((replaces_append r.overlapPolicy h.merge.split
        hs).interval_eq.trans h.merge.union_eq.symm)
    refine yields_pure ⟨.append hk, ?_⟩
    rw [updatedRanges, h.merge.modify_eq, ← capacities_extended b a rfl hr]
    exact hc
  | prepend =>
    obtain ⟨range, rfl, hst⟩ := h.merge.of_prepend hk
    have hr : (x.incoming.payload ++ range.bytes).length ≤ capacities [range] :=
      hkp.room (by simp [hk]) ((replaces_prepend r.overlapPolicy h.merge.split
        hst).interval_eq.trans h.merge.union_eq.symm)
    refine yields_pure ⟨.prepend hk, ?_⟩
    rw [updatedRanges, h.merge.modify_eq, ← capacities_extended b a rfl hr]
    exact hc
  | replace =>
    rcases hkp with hu | ⟨he, -⟩
    · rw [hk] at hu
      cases hu
    · rw [hk] at he
      cases he

theorem chooseUpdate_spec (al : Allocator) (h : x.Sound r b t a) {s : StoragePlan}
    {c : Charges} (ha : r.Admitted x b t a now (s, c)) :
    (r.chooseUpdate al (r.datagrams.find? x.incoming.key) x now ext s
      c).Yields IsResource fun p => CarriesOut r.overlapPolicy h.merge p.1 ∧
        r.ChargesFor x now (capacities (updatedRanges
          (rangesOf (r.datagrams.find? x.incoming.key)) x.incoming x.merge p.1)) p.2 := by
  obtain ⟨⟨capacity, hs⟩, hc⟩ := ha
  obtain ⟨hlt, -⟩ := h.merge.union_le h.ranges h.valid
  unfold chooseUpdate
  cases hs with
  | kept hk =>
    exact keptUpdate_spec h hk hc
  | replaced hnot =>
    have hr := le_max_right capacity (x.merge.unionEnd - x.merge.unionStart)
    generalize max capacity (x.merge.unionEnd - x.merge.unionStart) = allocation at *
    dsimp only at hc ⊢
    rw [if_pos (by omega)]
    refine (mergeAffected_spec (fun _ => ⟨_, rfl⟩) h.ranges h.valid h.merge al r.overlapPolicy
      hr).bind fun range hrn => ?_
    obtain ⟨hrp, hg⟩ := hrn
    have hcp := al.le_range hg
    have hu : capacities (updatedRanges (rangesOf (r.datagrams.find? x.incoming.key))
        x.incoming x.merge (.replace range)) = capacities b + capacities a + range.capacity := by
      rw [h.merge.replace_eq, capacities_append, capacities_cons]
      omega
    unfold settleCharges
    by_cases hsm : range.capacity ≠ allocation
    · rw [if_pos hsm]
      refine Exec.Yields.bind (P := r.ChargesFor x now (capacities b + capacities a +
        range.capacity)) ?_ fun c hc => yields_pure ⟨.replace hrp, ?_⟩
      · refine (admitCapacity_spec h range.capacity).bind fun q hq => ?_
        obtain ⟨s, c⟩ := q
        obtain ⟨hs, hc⟩ := hq
        cases hs with
        | kept hk => exact absurd hk hnot
        | replaced _ =>
          rw [max_eq_left (hr.trans hcp)] at hc
          exact hc
      · rw [hu]
        exact hc
    · rw [if_neg hsm]
      refine yields_pure ⟨.replace hrp, ?_⟩
      rw [hu, not_not.mp hsm]
      exact hc

/-- What is stored for a fragment that passed every check, unless a resource is exhausted. -/
theorem provision_spec (al : Allocator) (h : x.Sound r b t a) :
    (r.provision al x now ext).Yields IsResource (r.ProvisionFor x now h) := by
  refine (chooseStorage_spec h).bind fun p hp => ?_
  refine (materializeReconstruction_spec (fun _ => ⟨_, rfl⟩) h.family al x.ecn).bind
    fun reconstruction hh => ?_
  refine (chooseUpdate_spec al h hp).bind fun q hq => ?_
  exact yields_pure ⟨hh, hq.1, hq.2⟩

end Update

end Reassembler

end PacketCraftr.Ip
