import Mathlib.Algebra.Order.BigOperators.Group.List
import PacketCraftr.Ip.Engine

/-!
# The choice of a capacity

A range that a fragment extends is given more room than it needs, so that the next fragments find
room in it. If the preferred capacity does not fit the budget, a binary search looks for the largest
one below it that does. The search relies on the admission being monotone: a smaller buffer is
admitted when a larger one is, as the two admissions compared step by step show.
-/

open List Exec

namespace PacketCraftr.Ip

/-- The length of the union of a fragment and the ranges it touches: the smallest capacity. -/
def MergePlan.required (merge : MergePlan) : ℕ := merge.unionEnd - merge.unionStart

namespace Reassembler

/-- The charges of the fragment with storage for a capacity. -/
def charged (r : Reassembler) (x : Examined) (now externalCharge capacity : ℕ) :
    Exec Error Charges := do
  let (_, charges) ← r.admitCapacity (r.datagrams.find? x.incoming.key) x now externalCharge capacity
  charges

/-- The fragment is admitted with storage for the capacity. -/
def Admits (r : Reassembler) (x : Examined) (now externalCharge capacity : ℕ) : Prop :=
  ∃ charges, r.charged x now externalCharge capacity = .ok charges

/-- The fragment is refused with an error when it is given storage for the capacity. -/
def Refuses (r : Reassembler) (x : Examined) (now externalCharge capacity : ℕ) (e : Error) : Prop :=
  r.charged x now externalCharge capacity = .error (.error e)

/-! ### The admission of some storage -/

section Admission

variable {r : Reassembler} {e : Option DatagramState} {incoming : Incoming}
  {merge : MergePlan} {now ec : ℕ} {s : StoragePlan}

/-- Less storage is admitted where more is, and both fail alike if it is not for the budget. -/
theorem admitCharges_below {s' : StoragePlan} (hrt : s.retainedPayload ≤ s'.retainedPayload)
    (hal : s.allocation ≤ s'.allocation) :
    (r.admitCharges e incoming merge s now ec).Below r.aggregateLimit
      (r.admitCharges e incoming merge s' now ec) := by
  unfold admitCharges replacementAllocationCharge admitCompletion
  simp only [bind_assoc]
  refine below_bind fun u => ?_
  refine below_bind fun rb => ?_
  refine below_bind fun deadline => ?_
  refine below_bind fun d => ?_
  refine below_bind fun o => ?_
  refine below_okOr_bind ?_ fun p p' hp hp' => ?_
  · simp only [Option.bind_eq_some_iff, checkedAdd_eq_some, checkedMul_eq_some]
    rintro _ ⟨_, ⟨_, ⟨hm, rfl⟩, ha, rfl⟩, hlt, rfl⟩
    exact ⟨_, _, ⟨_, ⟨hm, rfl⟩, by omega, rfl⟩, by omega, rfl⟩
  simp only [Option.bind_eq_some_iff, checkedAdd_eq_some, checkedMul_eq_some] at hp hp'
  obtain ⟨_, ⟨_, ⟨-, rfl⟩, -, rfl⟩, -, rfl⟩ := hp'
  refine below_okOr_bind ?_ fun ag ag' _ _ => ?_
  · simp only [Option.filter_eq_some_iff, Option.bind_eq_some_iff, Option.any_eq_true,
      checkedAdd_eq_some, checkedSub_eq_some, decide_eq_true_eq]
    rintro _ ⟨⟨_, ⟨_, ⟨hs, rfl⟩, ha, rfl⟩, hlt, rfl⟩, _, ⟨ht, rfl⟩, hle⟩
    exact ⟨_, ⟨_, ⟨_, ⟨hs, rfl⟩, by omega, rfl⟩, by omega, rfl⟩, _, ⟨by omega, rfl⟩, by omega⟩
  refine below_bind fun m => ?_
  refine below_okOr_bind ?_ fun rp rp' hr hr' => ?_
  · simp only [Option.bind_eq_some_iff, checkedAdd_eq_some]
    rintro _ ⟨_, ⟨_, ⟨ha, rfl⟩, hlt, rfl⟩, hle, rfl⟩
    exact ⟨_, _, ⟨_, ⟨by omega, rfl⟩, by omega, rfl⟩, by omega, rfl⟩
  simp only [Option.bind_eq_some_iff, checkedAdd_eq_some] at hr hr'
  obtain ⟨_, ⟨_, ⟨-, rfl⟩, -, rfl⟩, -, rfl⟩ := hr
  obtain ⟨_, ⟨_, ⟨-, rfl⟩, -, rfl⟩, -, rfl⟩ := hr'
  refine below_okOr_bind ?_ fun peak peak' hpk hpk' => ?_
  · simp only [Option.filter_eq_some_iff, Option.bind_eq_some_iff, checkedAdd_eq_some,
      decide_eq_true_eq]
    rintro _ ⟨⟨_, ⟨ha, rfl⟩, hlt, rfl⟩, hle⟩
    exact ⟨_, ⟨_, ⟨by omega, rfl⟩, by omega, rfl⟩, by omega⟩
  simp only [Option.filter_eq_some_iff, Option.bind_eq_some_iff, checkedAdd_eq_some] at hpk hpk'
  obtain ⟨⟨_, ⟨-, rfl⟩, -, rfl⟩, -⟩ := hpk
  obtain ⟨⟨_, ⟨-, rfl⟩, -, rfl⟩, -⟩ := hpk'
  refine below_bind fun f => ?_
  refine below_rejectIf_bind ?_ (below_bind fun _ => below_ok _ _)
  -- The rebuilt datagram fits beside less storage if it fits beside more.
  refine And.imp_right fun hn => ?_
  rw [Option.isNone_iff_eq_none, Option.eq_none_iff_forall_ne_some] at hn ⊢
  simp only [ne_eq, Option.filter_eq_some_iff, Option.bind_eq_some_iff, checkedAdd_eq_some,
    decide_eq_true_eq] at hn ⊢
  rintro _ ⟨⟨_, ⟨ha, rfl⟩, hlt, rfl⟩, hle⟩
  exact hn _ ⟨⟨_, ⟨by omega, rfl⟩, by omega, rfl⟩, by omega⟩

end Admission

/-! ### Small capacities -/

/-- No range has more room than two datagrams need. -/
def Compact (r : Reassembler) : Prop :=
  ∀ key state, r.datagrams.find? key = some state →
    ∀ range ∈ state.ranges, range.capacity ≤ 2 * maxWireLength

section Compact

variable {r : Reassembler} {x : Examined} {b t a rn : List RetainedRange}

theorem capacities_le {bn : ℕ} (h : ∀ range ∈ rn, range.capacity ≤ bn) :
    capacities rn ≤ rn.length * bn := by
  have hs := (rn.map RetainedRange.capacity).sum_le_card_nsmul bn (by simpa using h)
  rwa [length_map] at hs

theorem Compact.capacity_le (hcm : r.Compact) {key : DatagramKey} {range : RetainedRange}
    (hr : range ∈ rangesOf (r.datagrams.find? key)) : range.capacity ≤ 2 * maxWireLength := by
  cases hs : r.datagrams.find? key with
  | none =>
    rw [hs] at hr
    cases hr
  | some state =>
    rw [hs] at hr
    exact hcm _ _ hs range hr

theorem Compact.capacities_lt (hcm : r.Compact) (h : x.Sound r b t a) (capacity : ℕ)
    (hc : capacity ≤ 4 * maxWireLength) :
    capacities (rangesOf (r.datagrams.find? x.incoming.key)) + capacity < wordLimit := by
  have hl := h.ranges.length_le
  have hle := (capacities_le fun _ hr => hcm.capacity_le hr).trans (Nat.mul_le_mul_right _ hl)
  simp only [maxWireLength, wordLimit] at *
  omega

theorem Compact.storagePlan_returns (hcm : r.Compact) (h : x.Sound r b t a) {capacity : ℕ}
    (hc : capacity ≤ 4 * maxWireLength) :
    (r.storagePlan (rangesOf (r.datagrams.find? x.incoming.key)) x.merge capacity).Returns
      (StorageFor x.merge b t a capacity) := by
  obtain ⟨hlt, hle⟩ := h.merge.union_le h.ranges h.valid
  have hs := hcm.capacities_lt h (max capacity (x.merge.unionEnd - x.merge.unionStart)) (by omega)
  exact (storagePlan_spec h.ranges h.valid h.merge capacity hs.not_ge).returns

theorem StorageFor.mono {merge : MergePlan} {capacity capacity' : ℕ}
    {storage storage' : StoragePlan} (h : StorageFor merge b t a capacity storage)
    (h' : StorageFor merge b t a capacity' storage') (hle : capacity ≤ capacity') :
    storage.retainedPayload ≤ storage'.retainedPayload ∧
      storage.allocation ≤ storage'.allocation := by
  cases h with
  | kept hk =>
    cases h' with
    | kept _ => exact ⟨le_rfl, le_rfl⟩
    | replaced hnot => exact absurd hk hnot
  | replaced hnot =>
    cases h' with
    | kept hk => exact absurd hk hnot
    | replaced _ =>
      dsimp only
      omega

end Compact

/-! ### The choice of a capacity -/

section Choice

variable {r : Reassembler} {x : Examined} {b t a : List RetainedRange}
  {now ex capacity : ℕ} {storage : StoragePlan}

section

variable (hcm : r.Compact) (h : x.Sound r b t a)
include hcm h

theorem Compact.admitCapacity_eq (hcp : capacity ≤ 4 * maxWireLength) (now ex : ℕ) :
    ∃ storage, StorageFor x.merge b t a capacity storage ∧
      r.charged x now ex capacity = r.admitCharges (r.datagrams.find? x.incoming.key)
        x.incoming x.merge storage now ex ∧
      r.admitCapacity (r.datagrams.find? x.incoming.key) x now ex capacity =
        .ok (storage, r.charged x now ex capacity) := by
  obtain ⟨storage, hp, hs⟩ := hcm.storagePlan_returns h hcp
  have hc : r.admitCapacity (r.datagrams.find? x.incoming.key) x now ex capacity =
      .ok (storage, r.admitCharges (r.datagrams.find? x.incoming.key) x.incoming x.merge storage now
        ex) := by
    unfold admitCapacity
    rw [hp, ok_bind]
    rfl
  have heq : r.charged x now ex capacity = r.admitCharges
      (r.datagrams.find? x.incoming.key) x.incoming x.merge storage now ex := by
    unfold charged
    rw [hc, ok_bind]
  exact ⟨storage, hs, heq, by rw [heq, hc]⟩

theorem Compact.charged_below {capacity' : ℕ} (hle : capacity ≤ capacity')
    (hc : capacity' ≤ 4 * maxWireLength) (now ex : ℕ) :
    (r.charged x now ex capacity).Below r.aggregateLimit (r.charged x now ex capacity') := by
  obtain ⟨storage, hs, heq, -⟩ := hcm.admitCapacity_eq h (hle.trans hc) now ex
  obtain ⟨storage', hs', heq', -⟩ := hcm.admitCapacity_eq h hc now ex
  obtain ⟨hr, ha⟩ := hs.mono hs' hle
  rw [heq, heq']
  exact admitCharges_below hr ha

/-- The search ends with the largest admissible capacity of its interval. -/
theorem searchCapacity_eq (rn : ℕ) {lower u : ℕ} (hu : u ≤ 4 * maxWireLength)
    {accepted : Charges} (hle : lower ≤ u) (hr : u - lower ≤ rn)
    (hl : r.admitCapacity (r.datagrams.find? x.incoming.key) x now ex lower = .ok
      (storage, .ok accepted)) :
    ∃ capacity storage' accepted', lower ≤ capacity ∧ capacity ≤ u ∧
      r.admitCapacity (r.datagrams.find? x.incoming.key) x now ex capacity =
        .ok (storage', .ok accepted') ∧
      r.searchCapacity (r.datagrams.find? x.incoming.key) x now ex rn lower u
        storage accepted = .ok (storage', accepted') ∧
      ∀ c, capacity < c → c ≤ u → ¬ r.Admits x now ex c := by
  induction rn generalizing lower u storage accepted with
  | zero => exact ⟨lower, storage, accepted, le_rfl, hle, hl, rfl, fun c hc hcu => by omega⟩
  | succ rn ih =>
    unfold searchCapacity
    by_cases hlt : lower < u
    swap
    · rw [if_neg hlt]
      exact ⟨lower, storage, accepted, le_rfl, hle, hl, rfl, fun c hc hcu => by omega⟩
    have hw : 4 * maxWireLength < wordLimit := by decide
    rw [if_pos hlt, add_eq (by omega), ok_bind]
    set candidate := lower + (u - lower + 1) / 2 with hcn
    obtain ⟨cs, -, -, hp⟩ := hcm.admitCapacity_eq h
      (show candidate ≤ 4 * maxWireLength by omega) now ex
    have hb := hcm.charged_below h (show lower ≤ candidate by omega) (by omega) now ex
    rw [show r.charged x now ex lower = .ok accepted by
      unfold charged
      rw [hl, ok_bind]] at hb
    rw [hp, ok_bind]
    cases hch : r.charged x now ex candidate with
    | ok ch =>
      -- The answer is in the upper half.
      obtain ⟨capacity, storage', accepted', hge, hcu, ho, hs, hm⟩ :=
        ih hu (show candidate ≤ u by omega) (by omega) (hch ▸ hp)
      exact ⟨capacity, storage', accepted', by omega, hcu, ho, hs, hm⟩
    | error f =>
      -- The answer is in the lower half, and nothing from the candidate on is admissible.
      rw [hch] at hb
      obtain rfl | hf := hb
      swap
      · cases hf
      dsimp only [aggregateLimit]
      rw [sub_eq (by omega), ok_bind]
      obtain ⟨capacity, storage', accepted', hge, hcu, ho, hs, hm⟩ :=
        ih (show candidate - 1 ≤ 4 * maxWireLength by omega) (by omega) (by omega) hl
      refine ⟨capacity, storage', accepted', hge, by omega, ho, hs, fun c hc hcu' => ?_⟩
      by_cases hc' : c ≤ candidate - 1
      · exact hm c hc hc'
      · rintro ⟨ch, ha⟩
        have hb := hcm.charged_below h (show candidate ≤ c by omega) (by omega) now ex
        rw [ha, hch] at hb
        obtain ⟨_, ho⟩ := hb
        cases ho

end

/-- What the choice of a capacity ends with: the preferred capacity if it is admissible, and
otherwise the largest admissible one between the required and the preferred one. -/
structure Chosen (r : Reassembler) (x : Examined) (now externalCharge preferred capacity : ℕ) :
    Prop where
  of_admits : r.Admits x now externalCharge preferred → capacity = preferred
  of_not_admits : ¬ r.Admits x now externalCharge preferred →
    x.merge.required ≤ capacity ∧ capacity < preferred ∧
      ∀ c, capacity < c → c < preferred → ¬ r.Admits x now externalCharge c

/-- The preferred capacity is small, and smaller if the fragment needs a new buffer. -/
theorem Compact.preferredCapacity_eq (hcm : r.Compact) (h : x.Sound r b t a) :
    ∃ p, r.preferredCapacity (rangesOf (r.datagrams.find? x.incoming.key)) x.merge
        x.merge.required = .ok p ∧ p ≤ 4 * maxWireLength ∧
      (¬ KeepsBuffers x.merge t → p ≤ 2 * maxWireLength) := by
  obtain ⟨hlt, hle⟩ := h.merge.union_le h.ranges h.valid
  unfold preferredCapacity
  by_cases he : x.merge.kind.extends = true
  · obtain ⟨range, rfl, hr⟩ := h.merge.exists_touching (h.merge.count_of_extends he)
    rw [if_pos he, hr]
    have hb := hcm.capacity_le (mem_of_getElem? hr)
    have hrq : x.merge.required ≤ 2 * maxWireLength := by
      unfold MergePlan.required
      omega
    refine ⟨_, rfl, (min_le_left _ _).trans (max_le ((min_le_left _ _).trans (by omega))
      (by omega)), fun hnot => (min_le_left _ _).trans ?_⟩
    -- The range has less room than is required.
    have hrm : range.capacity < x.merge.unionEnd - x.merge.unionStart := by
      rw [KeepsBuffers, not_or, not_and, not_le, capacities_cons,
        show capacities [] = 0 from rfl] at hnot
      exact hnot.2 he
    exact max_le ((min_le_left _ _).trans (by omega)) hrq
  · rw [if_neg he]
    unfold MergePlan.required
    exact ⟨_, rfl, by omega, fun _ => by omega⟩

/-- The capacity that was chosen, with its storage. -/
structure ChosenStorage (r : Reassembler) (x : Examined) (b t a : List RetainedRange)
    (now externalCharge preferred capacity : ℕ) (storage : StoragePlan) : Prop where
  storageFor : StorageFor x.merge b t a capacity storage
  admits : r.Admits x now externalCharge capacity
  chosen : r.Chosen x now externalCharge preferred capacity
  le : capacity ≤ preferred

theorem Compact.chosenStorage (hcm : r.Compact) (h : x.Sound r b t a) {p : ℕ}
    {c : Charges} (hle : capacity ≤ p) (hpr : p ≤ 4 * maxWireLength)
    (hc : r.admitCapacity (r.datagrams.find? x.incoming.key) x now ex capacity =
      .ok (storage, .ok c)) (hcs : r.Chosen x now ex p capacity) :
    r.ChosenStorage x b t a now ex p capacity storage := by
  obtain ⟨storage', hs, heq, hp⟩ := hcm.admitCapacity_eq h (hle.trans hpr) now ex
  rw [hc, heq] at hp
  obtain ⟨rfl, hcr⟩ := Prod.mk.inj (Except.ok.inj hp)
  exact ⟨hs, ⟨c, heq.trans hcr.symm⟩, hcs, hle⟩

/-- The choice of a capacity fails for the budget only if the required one does. -/
theorem chooseStorage_cases (hcm : r.Compact) (h : x.Sound r b t a) {p : ℕ}
    (hpr : r.preferredCapacity (rangesOf (r.datagrams.find? x.incoming.key)) x.merge
      x.merge.required = .ok p)
    (hle : p ≤ 4 * maxWireLength) (now ex : ℕ) :
    (∃ capacity storage charges, r.chooseStorage (r.datagrams.find? x.incoming.key) x now ex =
        .ok (storage, charges) ∧
      r.ChosenStorage x b t a now ex p capacity storage) ∨
    ∃ f, r.chooseStorage (r.datagrams.find? x.incoming.key) x now ex = .error f ∧
      (f = .error r.aggregateLimit → r.Refuses x now ex x.merge.required r.aggregateLimit) := by
  obtain ⟨hlt, hend⟩ := h.merge.union_le h.ranges h.valid
  have hr : x.merge.required ≤ 4 * maxWireLength := by
    unfold MergePlan.required
    omega
  obtain ⟨storage, -, -, hp⟩ := hcm.admitCapacity_eq h hle now ex
  obtain ⟨e, -, -, he⟩ := hcm.admitCapacity_eq h hr now ex
  unfold chooseStorage
  rw [sub_eq hlt.le, ok_bind,
    show r.preferredCapacity _ _ (x.merge.unionEnd - x.merge.unionStart) = _ from hpr,
    ok_bind, hp, ok_bind]
  dsimp only
  split
  · rename_i limit hch
    split_ifs with hm
    swap
    · refine Or.inr ⟨_, rfl, fun hl => ?_⟩
      have hb := hcm.charged_below h (show p ≤ x.merge.required from
        not_lt.mp hm) hr now ex
      rw [hch] at hb
      cases ho : r.charged x now ex x.merge.required with
      | ok charges =>
        rw [ho] at hb
        obtain ⟨_, hok⟩ := hb
        cases hok
      | error f =>
        rw [ho] at hb
        obtain rfl | hf := hb
        · exact ho
        · exact ho.trans (hf.symm.trans (congrArg _ hl))
    change x.merge.required < p at hm
    unfold fallbackStorage
    rw [show x.merge.unionEnd - x.merge.unionStart = x.merge.required from rfl, he, ok_bind]
    dsimp only
    cases ho : r.charged x now ex x.merge.required with
    | error f => exact Or.inr ⟨f, rfl, fun hl => ho.trans (congrArg _ hl)⟩
    | ok ac =>
      rw [ok_bind, sub_eq (by omega), ok_bind]
      obtain ⟨capacity, storage, charges, hge, hcp, hok, hs, hmax⟩ :=
        searchCapacity_eq hcm h (p - 1 - x.merge.required)
          (show p - 1 ≤ 4 * maxWireLength by omega) (by omega) le_rfl (ho ▸ he)
      have hnot : ¬ r.Admits x now ex p := by
        rintro ⟨_, hok⟩
        rw [hch] at hok
        cases hok
      exact Or.inl ⟨capacity, storage, charges, hs, hcm.chosenStorage h (by omega) hle hok
          ⟨fun ha => absurd ha hnot, fun _ =>
            ⟨hge, by omega, fun c hc hlt => hmax c hc (by omega)⟩⟩⟩
  · rename_i f hot hch
    refine Or.inr ⟨f, rfl, fun hl => ?_⟩
    exact absurd hl (hot _)
  · rename_i charges hch
    exact Or.inl ⟨p, storage, charges, rfl, hcm.chosenStorage h le_rfl hle
      (hch ▸ hp) ⟨fun _ => rfl, fun hnot => absurd ⟨charges, hch⟩ hnot⟩⟩

theorem Admits.required_le (hinv : r.Inv) (h : x.Sound r b t a) (ha : r.Admits x now ex capacity) :
    x.merge.required ≤ r.limits.maxBytesPerDatagram := by
  obtain ⟨c, hc⟩ := ha
  obtain ⟨p, hp, hc⟩ := bind_eq_ok hc
  have hcr := ((admitCapacity_spec h capacity).of_eq_ok hp).2.of_eq_ok hc
  refine le_trans ?_ (hcr.unique_eq ▸ hcr.unique_le)
  have hold : (r.datagrams.find? x.incoming.key).elim 0 DatagramState.uniqueBytes =
      (Intervals.cover (intervals (rangesOf (r.datagrams.find? x.incoming.key)))).card := by
    cases hs : r.datagrams.find? x.incoming.key with
    | none => rfl
    | some state => exact (hinv.datagram _ _ hs).unique_eq
  have hu : Finset.Ico x.merge.unionStart x.merge.unionEnd ⊆
      Intervals.cover (intervals (rangesOf (r.datagrams.find? x.incoming.key))) ∪
        Finset.Ico x.incoming.offset x.incoming.stop := by
    rw [← Intervals.cover_merge h.ranges.separated h.valid.offset_lt_stop.le, Intervals.merge,
      ← h.merge.split.before, ← h.merge.split.after, ← h.merge.split.touching]
    intro i hi
    refine Intervals.mem_cover.mpr ⟨(x.merge.unionStart, x.merge.unionEnd), ?_, ?_⟩
    · rw [h.merge.union_eq]
      exact mem_append_right _ mem_cons_self
    · exact Finset.mem_Ico.mp hi
  have hcd := Finset.card_le_card hu
  rw [Nat.card_Ico, ← Finset.union_sdiff_self_eq_union,
    Finset.card_union_of_disjoint Finset.disjoint_sdiff, ← hold, ← h.merge.added_eq] at hcd
  exact hcd

end Choice

end Reassembler

end PacketCraftr.Ip
