import PacketCraftr.Ip.Engine

/-!
# Accounting and safety of the IP reassembler

What the reassembler says about itself is exact in every state it can reach, and a push either
succeeds or leaves the reassembler as it was. The errors that report contradictory retained state are
never returned, and the charges of a datagram can always be taken back.
-/

namespace PacketCraftr.Ip

structure DatagramAccounted (state : DatagramState) : Prop where
  unique_eq : state.uniqueBytes = (state.ranges.map fun range => range.bytes.length).sum
  charge_eq : state.memoryCharge = rangeMetadataCharge * state.ranges.length +
    (state.ranges.map RetainedRange.capacity).sum + state.reconstruction.headerLength
  nonempty : ∀ range ∈ state.ranges, range.bytes ≠ []
  apart : state.ranges.Pairwise fun range next =>
    range.start + range.bytes.length < next.start

/-- The accounting of a reassembler is exact. -/
structure Accounted (r : Reassembler) : Prop where
  datagram : ∀ key state, r.datagrams.find? key = some state → DatagramAccounted state
  payload_eq : r.retained.payloadBytes = r.datagrams.sum DatagramState.uniqueBytes
  memory_eq : r.retained.memoryCharge =
    r.datagrams.sum DatagramState.memoryCharge + datagramMetadataCharge * r.retained.datagramSlots
  slots_le : r.datagrams.size ≤ r.retained.datagramSlots
  memory_le : r.retained.memoryCharge ≤ r.limits.maxAggregateBytes

/-! ### Two datagrams, one of them with a gap -/

/-- An allocator that grants what is asked for. -/
def Allocator.exact : Allocator where
  headerCopy _ := true
  range := some
  le_range h := (Option.some.inj h).le
  datagram _ := true
  tableSlot := true
  rangeSlot := true

/-- A UDP datagram between two hosts. -/
def hostsKey : Ipv4DatagramKey := ⟨0, ⟨[10, 0, 0, 1], rfl⟩, ⟨[10, 0, 0, 2], rfl⟩, 9, 17⟩

/-- Eight bytes of a datagram, in an IPv4 packet that continues. -/
def fragmentAt (key : Ipv4DatagramKey) (offset : ℕ) : Fragment :=
  .ipv4
    { key
      fragmentOffset := offset
      moreFragments := true
      header := [0x45, 0, 0, 28, 0, 9, 0x20, UInt8.ofNat offset, 64, 17, 0, 0, 10, 0, 0, 1, 10, 0,
        0, 2]
      payload := [0, 53, 0, 53, 0, 16, 0, 0] }

def firstFragment : Fragment := fragmentAt hostsKey 0

/-- A reassembler that nothing was pushed to. -/
def idle : Reassembler := ⟨.default, .first, .empty, .empty, ⟨0, 0, 0⟩⟩

theorem new_idle : Reassembler.new 0 .default .first = .ok idle := rfl

def gapOps : List Op :=
  [.push .exact firstFragment 0 0, .push .exact (fragmentAt hostsKey 3) 1 0,
    .push .exact (fragmentAt { hostsKey with scope := 1 } 0) 2 0]

/-! ### Charges -/

theorem DatagramState.Inv.accounted {key : DatagramKey} {state : DatagramState}
    (h : state.Inv key) : DatagramAccounted state where
  unique_eq := by
    rw [h.unique_eq, h.ranges.separated.card_cover, List.map_map]
    congr 1
    refine List.map_congr_left fun range _ => ?_
    exact Nat.add_sub_cancel_left _ _
  charge_eq := h.charge_eq
  nonempty range hr := by
    have hlt := h.ranges.separated.nonempty _ (List.mem_map_of_mem hr)
    rintro hn
    rw [show range.interval = (range.start, range.start + range.bytes.length) from rfl, hn] at hlt
    exact lt_irrefl _ hlt
  apart := List.pairwise_map.mp h.ranges.separated.apart

namespace Reassembler

theorem Inv.accounted {r : Reassembler} (h : r.Inv) : Accounted r where
  datagram key state hs := (h.datagram key state hs).accounted
  payload_eq := h.payload_eq
  memory_eq := h.charge_eq
  slots_le := h.size_le
  memory_le := h.charge_le

/-- In every state that pushes, expiries and flushes lead to, the accounting is exact and the budget
is kept. -/
theorem charges_of_run {clock : ℕ} {limits : Limits} {overlapPolicy : OverlapPolicy}
    {r : Reassembler} (h : Reassembler.new clock limits overlapPolicy = .ok r) (ops : List Op) :
    Accounted (r.run ops) ∧
      (r.run ops).retained.memoryCharge ≤ limits.maxAggregateBytes := by
  obtain ⟨hinv, hl, -⟩ := inv_new h
  obtain ⟨hr, hrn⟩ := hinv.run ops
  exact ⟨hr.accounted, hl ▸ hrn ▸ hr.charge_le⟩

end Reassembler

theorem charges_of_run_gap :
    (idle.run gapOps).retained = ⟨24, 8448, 2⟩ ∧ Accounted (idle.run gapOps) :=
  ⟨by decide +kernel, (Reassembler.charges_of_run new_idle _).1⟩

/-! ### Safety -/

/-- What is promised of the next operation on a reassembler. -/
structure Safe (r : Reassembler) : Prop where
  consistent : ∀ alloc fragment now externalCharge reason,
    (r.push alloc fragment now externalCharge).1 ≠ .error (.error (.inconsistent reason))
  push_ne_panic : ∀ alloc fragment now externalCharge panic,
    (r.push alloc fragment now externalCharge).1 ≠ .error (.panic panic)
  expire_returns : ∀ now, ∃ out, r.expire now = .ok out
  flush_returns : ∀ order, ∃ out, r.flush order = .ok out
  complete_fails : ∀ alloc fragment now externalCharge x p e,
    r.plan alloc fragment now externalCharge = .ok (x, p) →
      completes x.finalLength x.merge = true → r.complete alloc x p = .error e →
        ∃ resource, e = .error (.resource resource)
  completed_fits : ∀ alloc fragment now externalCharge outcome datagram,
    (r.push alloc fragment now externalCharge).1 = .ok (.completed outcome datagram) →
      match datagram.key.family with
      | .ipv4 => datagram.bytes.length ≤ 65535
      | .ipv6 => datagram.bytes.length ≤ Headers.ipv6Length + 65535
  unchanged : ∀ alloc fragment now externalCharge e,
    (r.push alloc fragment now externalCharge).1 = .error e →
      (r.push alloc fragment now externalCharge).2 = r

namespace Reassembler

variable {r : Reassembler}

/-- Completing a planned datagram fails only for want of a resource. -/
theorem Inv.complete_fails (hinv : r.Inv) (al : Allocator) {fragment : Fragment}
    {now ext : ℕ} {x : Examined} {p : Provision} {e : Failure Error}
    (hpl : r.plan al fragment now ext = .ok (x, p))
    (hcp : completes x.finalLength x.merge = true)
    (hc : r.complete al x p = .error e) : ∃ resource, e = .error (.resource resource) := by
  obtain ⟨x', he, hr⟩ := Exec.bind_eq_ok hpl
  obtain ⟨p', hpr, hpa⟩ := Exec.bind_eq_ok hr
  cases hpa
  obtain ⟨-, b, t, a, hx⟩ := (examine_spec hinv fragment).of_eq_ok he
  have hp := (provision_spec al hx).of_eq_ok hpr
  have hy := complete_spec (E := IsResource) (fun _ => ⟨_, rfl⟩) al hinv hx hp hcp
  obtain ⟨_, ho, -⟩ | ⟨_, herr, resource, rfl⟩ := hy.cases
  · cases ho.symm.trans hc
  · cases herr.symm.trans hc
    exact ⟨resource, rfl⟩

/-- A completed datagram fits the length field of its family. -/
theorem Inv.length_completed (hinv : r.Inv) {x : Examined} {b t a : List RetainedRange}
    (hx : x.Sound r b t a) (p : Provision) {payload : Bytes}
    (hp : payload.length = x.merge.unionEnd)
    (hf : FitsWire (r.header x) x.merge.unionEnd) :
    match (r.completedDatagram x p payload).key.family with
    | .ipv4 => (r.completedDatagram x p payload).bytes.length ≤ 65535
    | .ipv6 => (r.completedDatagram x p payload).bytes.length ≤ Headers.ipv6Length + 65535 := by
  obtain ⟨hw, hfm⟩ := hinv.header hx
  have hl : (r.completedDatagram x p payload).bytes.length =
      (r.header x).headerLength + x.merge.unionEnd := by
    rw [← hp, ← length_wireHeader hw hf.2 x.merge.unionEnd, ← List.length_append]
    rfl
  rw [hl, show (r.completedDatagram x p payload).key.family = _ from hfm.symm]
  obtain ⟨hle, hs⟩ := hf
  generalize r.header x = reconstruction at *
  cases reconstruction with
  | ipv4 f ecn =>
    cases f with
    | none => exact absurd rfl (hs ecn)
    | some header => exact hle
  | ipv6 headerPrefix pr n ecn foz =>
    change headerPrefix.length + x.merge.unionEnd ≤ 40 + 65535
    change headerPrefix.length - 40 + x.merge.unionEnd ≤ 65535 at hle
    omega

theorem Inv.safe (hinv : r.Inv) : Safe r where
  consistent al fragment now ext reason := by
    have hr := push_result al hinv fragment now ext
    generalize r.push al fragment now ext = out at hr ⊢
    cases hr with
    | refused hex he =>
      rintro ⟨⟩
      cases he
    | exhausted hex he =>
      rintro ⟨⟩
      obtain ⟨rs, ⟨⟩⟩ := he
    | completed => nofun
    | retained => nofun
  push_ne_panic al fragment now ext pn := by
    have hr := push_result al hinv fragment now ext
    generalize r.push al fragment now ext = out at hr ⊢
    cases hr <;> nofun
  expire_returns now := by
    obtain ⟨out, ho, -⟩ := expire_spec hinv now
    exact ⟨out, ho⟩
  flush_returns order := by
    obtain ⟨out, ho, -⟩ := flush_spec hinv order
    exact ⟨out, ho⟩
  complete_fails al _ _ _ _ _ _ hpl hc hcp := hinv.complete_fails al hpl hc hcp
  completed_fits al fragment now ext outcome datagram hps := by
    have hr := push_result al hinv fragment now ext
    generalize r.push al fragment now ext = out at hr hps
    cases hr with
    | refused => cases hps
    | exhausted => cases hps
    | @completed x b t a p range hex hx hp hc hrn hi hf =>
      cases hps
      refine hinv.length_completed hx p ?_ hf
      have h₁ : range.start = 0 := congrArg Prod.fst hi
      have h₂ : range.start + range.bytes.length = x.merge.unionEnd := congrArg Prod.snd hi
      omega
    | retained => cases hps
  unchanged al fragment now ext e hps := by
    have hr := push_result al hinv fragment now ext
    generalize r.push al fragment now ext = out at hr hps ⊢
    cases hr with
    | refused => rfl
    | exhausted => rfl
    | completed => cases hps
    | retained => cases hps

/-- In every state that pushes, expiries and flushes lead to, a push reports no internal error, no
charge fails to be taken back, and a push that fails leaves the reassembler as it was. -/
theorem atomic_of_run {clock : ℕ} {limits : Limits} {overlapPolicy : OverlapPolicy}
    (h : Reassembler.new clock limits overlapPolicy = .ok r) (ops : List Op) : Safe (r.run ops) :=
  ((inv_new h).1.run ops).1.safe

end Reassembler

theorem atomic_of_run_gap : (idle.run gapOps).datagrams.size = 2 ∧ Safe (idle.run gapOps) :=
  ⟨by decide +kernel, Reassembler.atomic_of_run new_idle _⟩

end PacketCraftr.Ip
