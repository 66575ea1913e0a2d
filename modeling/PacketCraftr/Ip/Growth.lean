import PacketCraftr.Ip.Accounting
import PacketCraftr.Ip.Capacity

/-!
# Amortised growth never costs admission

A buffer is allocated with exactly the capacity that is asked for (it is made from a boxed slice).
So the capacities stay small, no sum of them overflows, and the admission that was planned is final:
nothing after the choice of a capacity reports that the budget is exhausted. A push that reports it
could not store the merged range in a buffer of its exact size either.
-/

open List SortedMap

namespace PacketCraftr.Ip

open Exec

/-- A range is granted exactly the bytes that are asked for. -/
def Allocator.GrantsExactly (alloc : Allocator) : Prop :=
  ∀ requested granted, alloc.range requested = some granted → granted = requested

/-- The allocations of an operation are granted exactly. -/
def Op.GrantsExactly : Op → Prop
  | .push alloc _ _ _ => alloc.GrantsExactly
  | _ => True

namespace Reassembler

/-! ### What is stored -/

section Store

variable {r : Reassembler} {x : Examined} {b t a : List RetainedRange}
  {now e pr capacity : ℕ} {al : Allocator}

/-- What is stored for a fragment has the chosen capacity. -/
structure Stored (r : Reassembler) (x : Examined) (b t a : List RetainedRange)
    (now externalCharge preferred capacity : ℕ) (p : Provision) : Prop where
  chosen : ∃ storage,
    r.ChosenStorage x b t a now externalCharge preferred capacity storage
  kept : KeepsBuffers x.merge t → ∀ range, p.update ≠ .replace range
  replaced : ¬ KeepsBuffers x.merge t → ∃ range, p.update = .replace range ∧
    range.capacity = max capacity x.merge.required

/-- With an allocator that grants exactly what is asked for, the chosen storage is final. -/
theorem chooseUpdate_exact (ha : al.GrantsExactly) (h : x.Sound r b t a)
    {s : StoragePlan} (hs : StorageFor x.merge b t a capacity s)
    (now e : ℕ) (c : Charges) :
    (r.chooseUpdate al (r.datagrams.find? x.incoming.key) x now e s
      c).Yields (· ≠ r.aggregateLimit) fun q =>
        (KeepsBuffers x.merge t → ∀ range, q.1 ≠ .replace range) ∧
          (¬ KeepsBuffers x.merge t → ∃ range, q.1 = .replace range ∧
            range.capacity = max capacity x.merge.required) := by
  obtain ⟨hlt, -⟩ := h.merge.union_le h.ranges h.valid
  unfold chooseUpdate
  cases hs with
  | kept hk =>
    cases x.merge.kind with
    | replace => exact nofun
    | _ => exact yields_pure ⟨fun _ => nofun, fun hnot => absurd hk hnot⟩
  | replaced hnot =>
    have hr := le_max_right capacity (x.merge.unionEnd - x.merge.unionStart)
    change Yields _ _ fun q => _ ∧ (_ → ∃ range : RetainedRange, _ ∧
      range.capacity = max capacity (x.merge.unionEnd - x.merge.unionStart))
    generalize max capacity (x.merge.unionEnd - x.merge.unionStart) = allocation at *
    dsimp only
    rw [if_pos (by omega)]
    refine (mergeAffected_spec (fun _ => nofun) h.ranges h.valid h.merge al r.overlapPolicy
      hr).bind fun range hrn => ?_
    -- The charges are not computed again, because the capacity is the one that was admitted.
    have hc := ha _ _ hrn.2
    unfold settleCharges
    rw [if_neg (not_not.mpr hc)]
    exact yields_pure ⟨fun hk => absurd hk hnot, fun _ => ⟨range, rfl, hc⟩⟩

/-- What is stored is of the chosen capacity, unless the exact one is refused as well. -/
theorem provision_cases (hcm : r.Compact) (ha : al.GrantsExactly)
    (h : x.Sound r b t a) (hp : r.preferredCapacity
      (rangesOf (r.datagrams.find? x.incoming.key)) x.merge x.merge.required = .ok pr)
    (hle : pr ≤ 4 * maxWireLength) (now e : ℕ) :
    (∃ capacity, (r.provision al x now e).Yields (· ≠ r.aggregateLimit)
      (r.Stored x b t a now e pr capacity)) ∨
    ∃ f, r.provision al x now e = .error f ∧ (f = .error r.aggregateLimit →
      r.Refuses x now e x.merge.required r.aggregateLimit) := by
  unfold provision
  dsimp only
  rcases chooseStorage_cases hcm h hp hle now e with
    ⟨capacity, storage, charges, hc, hcs⟩ | ⟨f, hc, hr⟩
  · rw [hc, ok_bind]
    refine Or.inl ⟨capacity, ?_⟩
    refine (materializeReconstruction_spec (fun _ => nofun) h.family al x.ecn).bind fun _ _ => ?_
    refine (chooseUpdate_exact ha h hcs.storageFor now e charges).bind fun q hq => ?_
    exact yields_pure ⟨⟨storage, hcs⟩, hq.1, hq.2⟩
  · rw [hc]
    exact Or.inr ⟨f, rfl, hr⟩

theorem updated_cases (h : x.Sound r b t a) {u : RangeUpdate}
    (hu : CarriesOut r.overlapPolicy h.merge u) :
    u = .unchanged ∧ x.merge.kind = .unchanged ∨ ∃ range, r.updated x u = b ++ range :: a ∧
        range.interval = (x.merge.unionStart, x.merge.unionEnd) ∧
        (u = .replace range ∨ (∀ merged, u ≠ .replace merged) ∧
          ∃ old, t = [old] ∧ range.capacity = max old.capacity x.merge.required) := by
  have hl : ∀ range : RetainedRange, range.interval = (x.merge.unionStart, x.merge.unionEnd) →
        range.bytes.length = x.merge.required := by
    intro range hi
    have h₁ : range.start = x.merge.unionStart := congrArg Prod.fst hi
    have h₂ : range.start + range.bytes.length = x.merge.unionEnd := congrArg Prod.snd hi
    unfold MergePlan.required
    omega
  cases hu with
  | unchanged hk => exact Or.inl ⟨rfl, hk⟩
  | append hk =>
    obtain ⟨old, rfl, hs⟩ := h.merge.of_append h.ranges hk
    have hi := (replaces_append r.overlapPolicy h.merge.split hs).interval_eq.trans
      h.merge.union_eq.symm
    refine Or.inr ⟨_, h.merge.modify_eq _, hi, Or.inr ⟨nofun, old, rfl, ?_⟩⟩
    rw [← hl _ hi]
    rfl
  | prepend hk =>
    obtain ⟨old, rfl, hst⟩ := h.merge.of_prepend hk
    have hi := (replaces_prepend r.overlapPolicy h.merge.split hst).interval_eq.trans
      h.merge.union_eq.symm
    refine Or.inr ⟨_, h.merge.modify_eq _, hi, Or.inr ⟨nofun, old, rfl, ?_⟩⟩
    rw [← hl _ hi]
    rfl
  | replace hm =>
    exact Or.inr ⟨_, h.merge.replace_eq _, hm.interval_eq.trans h.merge.union_eq.symm, Or.inl rfl⟩

theorem Stored.capacity_le (hcm : r.Compact) (h : x.Sound r b t a) {p : Provision}
    (hp : r.ProvisionFor x now h p)
    (hs : r.Stored x b t a now e pr capacity p)
    (hpr : ¬ KeepsBuffers x.merge t → pr ≤ 2 * maxWireLength)
    {range : RetainedRange} (hr : range ∈ r.updated x p.update) :
    range.capacity ≤ 2 * maxWireLength := by
  obtain ⟨hlt, hend⟩ := h.merge.union_le h.ranges h.valid
  have hrq : x.merge.required ≤ 2 * maxWireLength := by
    unfold MergePlan.required
    omega
  have hold : ∀ range ∈ b ++ t ++ a, range.capacity ≤ 2 * maxWireLength := by
    rw [← h.merge.split.eq]
    exact fun range => hcm.capacity_le
  rcases updated_cases h hp.update with ⟨heq, -⟩ | ⟨merged, heq, -, hm⟩
  · rw [heq] at hr
    exact hcm.capacity_le hr
  · rw [heq, mem_append, mem_cons] at hr
    rcases hr with hr | rfl | hr
    · exact hold _ (mem_append_left _ (mem_append_left _ hr))
    · rcases hm with hrp | ⟨-, old, rfl, hc⟩
      · have hnot : ¬ KeepsBuffers x.merge t := fun hk => hs.kept hk _ hrp
        obtain ⟨_, hu, hc⟩ := hs.replaced hnot
        rw [hrp] at hu
        cases hu
        obtain ⟨s, hch⟩ := hs.chosen
        rw [hc]
        exact max_le (hch.le.trans (hpr hnot)) hrq
      · rw [hc]
        exact max_le (hold _ (by simp)) hrq
    · exact hold _ (mem_append_right _ hr)

end Store

/-! ### A push -/

section Push

variable {r : Reassembler} {ac : Allocator} {fragment : Fragment} {x : Examined}

/-- What a push of an examined fragment does to the table, and with which storage. -/
structure PushStores (r : Reassembler) (alloc : Allocator) (fragment : Fragment) (x : Examined)
    (now externalCharge preferred : ℕ) {b t a : List RetainedRange} (h : x.Sound r b t a)
    (out : Exec Error PushOutcome × Reassembler) : Prop where
  refused : out.1 = .error (.error r.aggregateLimit) →
    r.Refuses x now externalCharge x.merge.required r.aggregateLimit
  stored : ∀ outcome, out.1 = .ok outcome →
    ∃ p capacity, r.plan alloc fragment now externalCharge = .ok (x, p) ∧
      r.ProvisionFor x now h p ∧ r.Stored x b t a now externalCharge preferred capacity p ∧
      out.2 = if completes x.finalLength x.merge then r.removed x.incoming.key
        else r.store x p (r.updated x p.update)

theorem pushStores (hinv : r.Inv) (hcp : r.Compact) (ha : ac.GrantsExactly)
    (hex : r.examine fragment = .ok x) {b t a : List RetainedRange} (h : x.Sound r b t a)
    {preferred : ℕ} (hpr : r.preferredCapacity
      (rangesOf (r.datagrams.find? x.incoming.key)) x.merge x.merge.required = .ok preferred)
    (hle : preferred ≤ 4 * maxWireLength) (now externalCharge : ℕ) :
    r.PushStores ac fragment x now externalCharge preferred h
      (r.push ac fragment now externalCharge) := by
  have hcs := provision_cases hcp ha h hpr hle now externalCharge
  have hs {p : Provision} (hp : r.provision ac x now externalCharge = .ok p) :
      ∃ capacity, r.plan ac fragment now externalCharge = .ok (x, p) ∧
        r.ProvisionFor x now h p ∧ r.Stored x b t a now externalCharge preferred capacity p := by
    obtain ⟨capacity, hs⟩ | ⟨e, he, -⟩ := hcs
    · refine ⟨capacity, ?_, (provision_spec ac h).of_eq_ok hp, hs.of_eq_ok hp⟩
      unfold plan
      rw [hex, ok_bind, hp]
      rfl
    · cases hp.symm.trans he
  have hr := push_result ac hinv fragment now externalCharge
  generalize r.push ac fragment now externalCharge = out at hr
  cases hr with
  | refused hx => cases hex.symm.trans hx
  | exhausted hx he hca =>
    cases hex.symm.trans hx
    refine ⟨fun hl => ?_, nofun⟩
    cases hl
    obtain hp := hca.resolve_right fun hne => hne rfl
    rcases hcs with ⟨_, hne⟩ | ⟨_, he, hrf⟩
    · rw [hp] at hne
      exact absurd rfl hne
    · cases hp.symm.trans he
      exact hrf rfl
  | completed hx _ _ hc _ _ _ hp =>
    cases hex.symm.trans hx
    obtain ⟨capacity, hs⟩ := hs hp
    refine ⟨nofun, fun _ _ => ⟨_, capacity, hs.1, hs.2.1, hs.2.2, ?_⟩⟩
    rw [if_pos hc]
  | retained hx _ _ hc hp =>
    cases hex.symm.trans hx
    obtain ⟨capacity, hs⟩ := hs hp
    refine ⟨nofun, fun _ _ => ⟨_, capacity, hs.1, hs.2.1, hs.2.2, ?_⟩⟩
    rw [if_neg (by rw [hc]; exact Bool.false_ne_true)]

theorem Compact.push (hinv : r.Inv) (hc : r.Compact) (ha : ac.GrantsExactly)
    (fragment : Fragment) (now externalCharge : ℕ) :
    (r.push ac fragment now externalCharge).2.Compact := by
  cases hps : (r.push ac fragment now externalCharge).1 with
  | error e => rwa [hinv.safe.unchanged ac fragment now externalCharge e hps]
  | ok o =>
    have hem := examine_spec hinv fragment
    cases he : r.examine fragment with
    | error e =>
      unfold Reassembler.push plan at hps
      rw [he] at hps
      cases hps
    | ok x =>
      obtain ⟨-, b, t, a, h⟩ := hem.of_eq_ok he
      obtain ⟨preferred, hpr, hle, hsm⟩ := hc.preferredCapacity_eq h
      obtain ⟨p, capacity, -, hp, hsr, hps⟩ :=
        (pushStores hinv hc ha he h hpr hle now externalCharge).stored _ hps
      rw [hps]
      intro key state hs
      split_ifs at hs with hcp
      · change (r.datagrams.erase _).find? key = _ at hs
        rw [find?_erase] at hs
        split_ifs at hs
        exact hc key state hs
      · change (r.datagrams.insert _ _).find? key = _ at hs
        rw [find?_insert] at hs
        split_ifs at hs with hk
        · cases hs
          exact fun range hr => hsr.capacity_le hc h hp hsm hr
        · exact hc key state hs

theorem Compact.step (hinv : r.Inv) (hc : r.Compact) {op : Op} (ho : op.GrantsExactly) :
    (r.step op).Compact := by
  cases op with
  | push ac fragment now externalCharge =>
    exact Compact.push hinv hc ho fragment now externalCharge
  | expire now => exact fun key state h => hc key state ((leaves_expire hinv now).kept h)
  | flush o => exact fun key state h => hc key state ((leaves_flush hinv o).kept h)

theorem Compact.run (hc : r.Compact) (hinv : r.Inv) {ops : List Op}
    (ho : ∀ op ∈ ops, op.GrantsExactly) : (r.run ops).Compact := by
  induction ops generalizing r with
  | nil => exact hc
  | cons op ops ih =>
    exact ih (hc.step hinv (ho op mem_cons_self)) (hinv.step op).1
      fun op' hop' => ho op' (mem_cons_of_mem _ hop')

end Push

/-! ### Runs -/

/-- What the push of a fragment does with the range it extends: it reports an exhausted budget only
if a buffer of the exact size is refused for that reason, and otherwise the merged range is given
the preferred capacity, or the largest admissible one below it. A range with enough room keeps its
buffer. -/
structure Grows (r : Reassembler) (alloc : Allocator) (fragment : Fragment) (x : Examined)
    (now externalCharge : ℕ) (old : RetainedRange) (preferred : ℕ) : Prop where
  refused : (r.push alloc fragment now externalCharge).1 = .error (.error r.aggregateLimit) →
    r.Refuses x now externalCharge x.merge.required r.aggregateLimit
  planned : ∀ outcome, (r.push alloc fragment now externalCharge).1 = .ok outcome →
    ∃ p capacity, r.plan alloc fragment now externalCharge = .ok (x, p) ∧
      r.Admits x now externalCharge capacity ∧ x.merge.required ≤ capacity ∧
      r.Chosen x now externalCharge preferred capacity ∧
      (old.capacity < x.merge.required →
        ∃ range, p.update = .replace range ∧ range.capacity = capacity) ∧
      (completes x.finalLength x.merge = false →
        ∃ range ∈ rangesOf ((r.push alloc fragment now externalCharge).2.datagrams.find?
            x.incoming.key),
          range.interval = (x.merge.unionStart, x.merge.unionEnd) ∧
          range.capacity = if x.merge.required ≤ old.capacity then old.capacity else capacity)

section Growth

variable {r : Reassembler} {alloc : Allocator} {fragment : Fragment} {x : Examined}

theorem grows (hinv : r.Inv) (hcm : r.Compact) (hal : alloc.GrantsExactly)
    (hem : r.examine fragment = .ok x) (he : x.merge.kind.extends = true)
    (now externalCharge : ℕ) :
    ∃ old, (rangesOf (r.datagrams.find? x.incoming.key))[x.merge.firstAffected]? = some old ∧
      r.Grows alloc fragment x now externalCharge old
        (min (max (saturatingMul old.capacity 2) x.merge.required)
          r.limits.maxBytesPerDatagram) := by
  obtain ⟨-, b, t, a, h⟩ := (examine_spec hinv fragment).of_eq_ok hem
  obtain ⟨old, rfl, hold⟩ := h.merge.exists_touching (h.merge.count_of_extends he)
  obtain ⟨preferred, hpr, hle, -⟩ := hcm.preferredCapacity_eq h
  have hsr := pushStores hinv hcm hal hem h hpr hle now externalCharge
  unfold preferredCapacity at hpr
  rw [if_pos he, hold] at hpr
  obtain rfl := Except.ok.inj hpr
  refine ⟨old, hold, hsr.refused, fun o ho => ?_⟩
  obtain ⟨p, capacity, hpl, hp, hs, hps⟩ := hsr.stored o ho
  obtain ⟨s, hch⟩ := hs.chosen
  have ha := hch.admits
  have hk : KeepsBuffers x.merge [old] ↔ x.merge.required ≤ old.capacity := by
    refine ⟨fun hk => ?_, fun hr => Or.inr ⟨he, hr⟩⟩
    rcases hk with hkn | ⟨-, hr⟩
    · rw [hkn] at he
      cases he
    · exact hr
  have hrq : x.merge.required ≤ capacity := by
    by_cases hpf : r.Admits x now externalCharge (min (max (saturatingMul old.capacity 2)
        x.merge.required) r.limits.maxBytesPerDatagram)
    · rw [hch.chosen.of_admits hpf]
      exact le_min (le_max_right _ _) (ha.required_le hinv h)
    · exact (hch.chosen.of_not_admits hpf).1
  refine ⟨p, capacity, hpl, ha, hrq, hch.chosen, fun hr => ?_, fun hcl => ?_⟩
  · obtain ⟨range, hu, hc⟩ := hs.replaced fun hke => absurd (hk.mp hke) (not_le.mpr hr)
    exact ⟨range, hu, by rw [hc, max_eq_left hrq]⟩
  · rw [hps, if_neg (by rw [hcl]; exact Bool.false_ne_true)]
    change ∃ range ∈ rangesOf ((r.datagrams.insert _ _).find? _), _
    rw [find?_insert, if_pos rfl]
    change ∃ range ∈ r.updated x p.update, _
    rcases updated_cases h hp.update with ⟨-, hkn⟩ | ⟨range, heq, hi, hrn⟩
    · rw [hkn] at he
      cases he
    refine ⟨range, ?_, hi, ?_⟩
    · rw [heq]
      exact mem_append_right _ mem_cons_self
    · rcases hrn with hrp | ⟨hkt, _, heq, hc⟩
      · have hnot : ¬ KeepsBuffers x.merge [old] := fun hke => hs.kept hke _ hrp
        obtain ⟨_, hu, hc⟩ := hs.replaced hnot
        rw [hrp] at hu
        cases hu
        rw [if_neg (fun hr => hnot (hk.mpr hr)), hc, max_eq_left hrq]
      · cases heq
        have hr : x.merge.required ≤ old.capacity := by
          by_contra hr
          obtain ⟨merged, hu, -⟩ := hs.replaced fun hke => hr (hk.mp hke)
          exact hkt merged hu
        rw [if_pos hr, hc, max_eq_left hr]

/-- Growth never costs admission: in every state that pushes, expiries and flushes lead to, a
fragment that extends a range at one of its ends is refused for want of memory only if storage of
the exact size is. Otherwise the range gets the preferred capacity, twice that of the range, or the
largest admissible one below. -/
theorem growth_of_run {clock : ℕ} {limits : Limits} {overlapPolicy : OverlapPolicy}
    (hnew : Reassembler.new clock limits overlapPolicy = .ok r) {ops : List Op}
    (hops : ∀ op ∈ ops, op.GrantsExactly) (halloc : alloc.GrantsExactly)
    (hexamine : (r.run ops).examine fragment = .ok x) (hextends : x.merge.kind.extends = true)
    (now externalCharge : ℕ) :
    ∃ old, (rangesOf ((r.run ops).datagrams.find? x.incoming.key))[x.merge.firstAffected]? =
        some old ∧
      (r.run ops).Grows alloc fragment x now externalCharge old
        (min (max (saturatingMul old.capacity 2) x.merge.required)
          (r.run ops).limits.maxBytesPerDatagram) := by
  have hc : r.Compact := by
    rw [eq_of_new hnew]
    exact nofun
  have hinv := (inv_new hnew).1
  exact grows (hinv.run ops).1 (hc.run hinv hops) halloc hexamine hextends now externalCharge

end Growth

end Reassembler

/-! ### A range that grows by less than it should -/

/-- Eight bytes of a datagram, at a multiple of eight. -/
def nextFragment (offset : ℕ) : Fragment :=
  .ipv4
    { key := hostsKey
      fragmentOffset := offset
      moreFragments := true
      header := [0x45, 0, 0, 28, 0, 9, 0x20, UInt8.ofNat offset, 64, 17, 0, 0, 10, 0, 0, 1,
        10, 0, 0, 2]
      payload := [1, 2, 3, 4, 5, 6, 7, 8] }

/-- A budget in which a range of sixteen bytes cannot be doubled. -/
def narrow : Reassembler where
  limits := { Limits.default with maxBytesPerDatagram := 64, maxAggregateBytes := 4288 }
  overlapPolicy := .first
  datagrams := .empty
  expiry := .empty
  retained := ⟨0, 0, 0⟩

theorem new_narrow : Reassembler.new 0 narrow.limits .first = .ok narrow := rfl

/-- Sixteen bytes are held. -/
def heldOps : List Op := [.push .exact (nextFragment 0) 0 0, .push .exact (nextFragment 1) 0 0]

theorem Allocator.grantsExactly_exact : Allocator.exact.GrantsExactly :=
  fun _ _ h => (Option.some.inj h).symm

theorem grantsExactly_heldOps : ∀ op ∈ heldOps, op.GrantsExactly := by
  intro op ho
  rcases mem_pair.mp ho with rfl | rfl
  · exact Allocator.grantsExactly_exact
  · exact Allocator.grantsExactly_exact

/-- What the next eight bytes do. -/
def extending : Examined where
  incoming := ⟨.ipv4 hostsKey, 16, true, [1, 2, 3, 4, 5, 6, 7, 8],
    .ipv4 [0x45, 0, 0, 28, 0, 9, 0x20, 2, 64, 17, 0, 0, 10, 0, 0, 1, 10, 0, 0, 2], .notEct⟩
  fragmentCount := 3
  ecn := .notEct
  finalLength := none
  merge := ⟨0, 1, 0, 24, 8, 0, 1, .append⟩

theorem growth_of_run_narrow :
    ((narrow.run heldOps).push .exact (nextFragment 2) 0 0).2.datagrams.entries.map
        (fun entry => entry.2.ranges.map RetainedRange.capacity) = [[28]] ∧
      ∃ old, (rangesOf ((narrow.run heldOps).datagrams.find? extending.incoming.key))[0]? =
          some old ∧
        (narrow.run heldOps).Grows .exact (nextFragment 2) extending 0 0 old
          (min (max (saturatingMul old.capacity 2) 24) 64) :=
  ⟨by decide +kernel, Reassembler.growth_of_run new_narrow grantsExactly_heldOps
    Allocator.grantsExactly_exact (by decide +kernel) rfl 0 0⟩

end PacketCraftr.Ip
