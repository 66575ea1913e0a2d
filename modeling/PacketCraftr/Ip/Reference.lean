import PacketCraftr.Ip.Accounting

/-!
# The byte reference of IP reassembly

What reassembly is for, without ranges, buffers or charges: a datagram is at most one byte for each
offset, and a fragment writes its bytes one by one, under the overlap policy. The reference reads the
offset, the payload and the end of the datagram from the fragment; it shares the checks of headers
with the reassembler. The reassembler refines the reference: what it retains determines a reference
state, and each push that does not run out of a resource does what the reference does.
-/

open Finset

namespace PacketCraftr.Ip

open Intervals

/-! ### The reference -/

/-- A datagram, as at most one byte for each offset. -/
structure ReferenceDatagram where
  payload : ℕ → Option UInt8
  finalLength : Option ℕ
  maxNonFinalEnd : Option ℕ
  fragmentCount : ℕ
  duplicates : ℕ
  overlaps : ℕ
  reconstruction : Reconstruction

abbrev Reference := DatagramKey → Option ReferenceDatagram

namespace Reference

/-- The bytes of a datagram that may not exist yet. -/
abbrev payloadOf (existing : Option ReferenceDatagram) : ℕ → Option UInt8 :=
  existing.elim (fun _ => none) ReferenceDatagram.payload

section

variable (payload : ℕ → Option UInt8)

/-- The offsets that hold a byte. -/
def heldOffsets : Finset ℕ :=
  (range maxWireLength).filter fun x => (payload x).isSome

/-- The end of the bytes held. -/
def heldEnd : ℕ := (heldOffsets payload).sup (· + 1)

/-- The number of bytes a fragment adds. -/
def added (incoming : Incoming) : ℕ :=
  ((Ico incoming.offset incoming.stop).filter fun x => payload x = none).card

/-- The number of held bytes a fragment disagrees with. -/
def conflicting (incoming : Incoming) : ℕ :=
  (Runs.conflicts payload (Runs.elemAt incoming.run) incoming.offset incoming.stop).card

end

/-- The bytes after a fragment: where both hold a byte, the incoming one wins only under `last`. -/
def write (policy : OverlapPolicy) (payload : ℕ → Option UInt8) (incoming : Incoming) (x : ℕ) :
    Option UInt8 :=
  match payload x, Runs.elemAt incoming.run x with
  | none, new => new
  | some old, none => some old
  | some old, some new => if policy = .last then some new else some old

/-- The length of the datagram as it is known with a fragment: the last one ends it. -/
def announced (existing : Option ReferenceDatagram) (incoming : Incoming) : Option ℕ :=
  if incoming.moreFragments then existing.bind ReferenceDatagram.finalLength
  else some incoming.stop

/-- Why a datagram cannot have a length: it has another one already, a fragment before the last one
ends there, or a byte lies beyond it. -/
def contradiction (existing : Option ReferenceDatagram) (incoming : Incoming) (length : ℕ) :
    Option Malformed :=
  match (existing.bind ReferenceDatagram.finalLength).filter (· ≠ length) with
  | some known => some (.conflictingFinalLength known length)
  | none =>
    if existing.bind ReferenceDatagram.maxNonFinalEnd = some length then
      some (.nonFinalAtFinalLength length)
    else if length < max (heldEnd (payloadOf existing)) incoming.stop then
      some (.beyondFinalLength length)
    else if incoming.moreFragments ∧ incoming.stop = length then
      some (.nonFinalAtFinalLength length)
    else none

/-- The checks of a fragment against its datagram. -/
def inspect (policy : OverlapPolicy) (existing : Option ReferenceDatagram) (incoming : Incoming) :
    Exec Error (Ecn × Option ℕ) := do
  let reconstruction := existing.map ReferenceDatagram.reconstruction
  validateReconstructionConsistency reconstruction incoming
  let ecn ← accumulatedEcn reconstruction incoming
  let finalLength := announced existing incoming
  Exec.whenSome (finalLength.bind (contradiction existing incoming)) fun reason =>
    Exec.fail (.malformed reason)
  validateFamilyWireExtent reconstruction (some (heldEnd (payloadOf existing))) incoming finalLength
  let conflicts := conflicting (payloadOf existing) incoming
  Exec.rejectIf (conflicts ≠ 0 ∧ policy = .reject) (.malformed (.conflictingOverlap conflicts))
  pure (ecn, finalLength)

/-- The datagram after a fragment that passed the checks. -/
def merge (policy : OverlapPolicy) (existing : Option ReferenceDatagram) (incoming : Incoming)
    (ecn : Ecn) (finalLength : Option ℕ) : ReferenceDatagram where
  payload := write policy (payloadOf existing) incoming
  finalLength := finalLength
  maxNonFinalEnd :=
    let known := existing.bind ReferenceDatagram.maxNonFinalEnd
    if incoming.moreFragments then some (max (known.getD 0) incoming.stop) else known
  fragmentCount := existing.elim 0 ReferenceDatagram.fragmentCount + 1
  duplicates := existing.elim 0 ReferenceDatagram.duplicates +
    if added (payloadOf existing) incoming = 0 ∧ conflicting (payloadOf existing) incoming = 0
    then 1 else 0
  overlaps := existing.elim 0 ReferenceDatagram.overlaps +
    conflicting (payloadOf existing) incoming
  reconstruction :=
    nextReconstruction (existing.map ReferenceDatagram.reconstruction) incoming ecn

/-- What a fragment did to the bytes of its datagram. -/
def disposition (policy : OverlapPolicy) (payload : ℕ → Option UInt8) (incoming : Incoming) :
    FragmentDisposition :=
  if added payload incoming = 0 ∧ conflicting payload incoming = 0 then
    .duplicate incoming.payload.length
  else if conflicting payload incoming ≠ 0 then
    .overlapResolved policy (conflicting payload incoming) (added payload incoming)
  else .accepted (added payload incoming)

/-- The datagram is complete when every offset below its final length holds a byte. -/
def Complete (d : ReferenceDatagram) (length : ℕ) : Prop :=
  d.finalLength = some length ∧ ∀ x < length, (d.payload x).isSome

instance (d : ReferenceDatagram) (length : ℕ) : Decidable (Complete d length) :=
  inferInstanceAs (Decidable (_ ∧ _))

/-- The outcome for a datagram that a fragment was written to, and what is left of it. -/
def finish (key : DatagramKey) (disposition : FragmentDisposition) (d : ReferenceDatagram) :
    PushOutcome × Option ReferenceDatagram :=
  let unique := (heldOffsets d.payload).card
  let fragment : FragmentOutcome := ⟨key, disposition, d.fragmentCount, unique, d.finalLength⟩
  let length := d.finalLength.getD 0
  if Complete d length then
    (.completed fragment
      ⟨key, wireHeader d.reconstruction length ++
        (List.range length).map fun x => (d.payload x).getD 0,
        d.fragmentCount, unique, length, d.duplicates, d.overlaps⟩, none)
  else (.accepted fragment, some d)

/-- A fragment has its bytes at eight times its offset. -/
def read (fragment : Fragment) (ecn : Ecn) : Incoming where
  key := fragment.key
  offset := 8 * fragment.fragmentOffset
  moreFragments := fragment.moreFragments
  payload := fragment.payload
  reconstruction := fragment.reconstruction
  ecn := ecn

/-- The fragment with its marking, if it passes the checks that no limit takes part in. -/
def examine (policy : OverlapPolicy) (ref : Reference) (fragment : Fragment) :
    Exec Error (Incoming × Ecn × Option ℕ) := do
  let checked ← checkFragment fragment
  let incoming := read fragment checked.ecn
  let (ecn, finalLength) ← inspect policy (ref incoming.key) incoming
  pure (incoming, ecn, finalLength)

def push (policy : OverlapPolicy) (ref : Reference) (fragment : Fragment) :
    Exec Error PushOutcome × Reference :=
  match examine policy ref fragment with
  | .error e => (.error e, ref)
  | .ok (incoming, ecn, finalLength) =>
    let existing := ref incoming.key
    let (outcome, rest) := finish incoming.key
      (disposition policy (payloadOf existing) incoming)
      (merge policy existing incoming ecn finalLength)
    (.ok outcome, Function.update ref incoming.key rest)

/-- The outcomes of a sequence of pushes. -/
def pushAll (policy : OverlapPolicy) : Reference → List Fragment → List (Exec Error PushOutcome)
  | _, [] => []
  | ref, fragment :: fragments =>
    (push policy ref fragment).1 :: pushAll policy (push policy ref fragment).2 fragments

end Reference

/-! ### What the ranges of a datagram stand for -/

open Reference

section Held

variable {rn : List RetainedRange} {incoming : Incoming}

theorem heldOffsets_held (h : Ranges rn) : heldOffsets (held rn) = cover (intervals rn) := by
  ext x
  rw [heldOffsets, mem_filter, isSome_held, and_iff_right_iff_imp]
  exact fun hx => h.cover_subset hx

theorem heldEnd_held (h : Ranges rn) :
    heldEnd (held rn) = (rn.getLast?.bind RetainedRange.stop?).getD 0 := by
  rw [heldEnd, heldOffsets_held h, h.separated.sup_cover, List.getLast?_map]
  cases hl : rn.getLast? with
  | none => rfl
  | some r =>
    rw [Option.bind_some, h.stop?_eq (List.mem_of_getLast? hl)]
    rfl

theorem heldEnd_rangesOf {e : Option DatagramState} (h : Ranges (rangesOf e)) :
    heldEnd (held (rangesOf e)) = (retainedEnd e).getD 0 := by
  rw [heldEnd_held h]
  cases e <;> rfl

theorem write_eq_resolve (pl : OverlapPolicy) (payload : ℕ → Option UInt8) (x : ℕ) :
    write pl payload incoming x = pl.resolve (payload x) (Runs.elemAt incoming.run x) := by
  unfold write OverlapPolicy.resolve
  cases payload x <;> cases Runs.elemAt incoming.run x <;> simp

end Held

/-- The reference datagram that a retained one stands for. -/
def DatagramState.reference (state : DatagramState) : ReferenceDatagram where
  payload := held state.ranges
  finalLength := state.finalLength
  maxNonFinalEnd := state.maxNonFinalEnd
  fragmentCount := state.fragmentCount
  duplicates := state.duplicateFragments
  overlaps := state.overlapBytes
  reconstruction := state.reconstruction

namespace Reassembler

variable {r : Reassembler}

/-- The reference state that a reassembler stands for. -/
def reference (r : Reassembler) : Reference := fun key =>
  (r.datagrams.find? key).map DatagramState.reference

theorem payloadOf_reference (r : Reassembler) (key : DatagramKey) :
    payloadOf (r.reference key) = held (rangesOf (r.datagrams.find? key)) := by
  unfold reference
  cases r.datagrams.find? key <;> rfl

theorem reference_apply (r : Reassembler) (key : DatagramKey) :
    r.reference key = (r.datagrams.find? key).map DatagramState.reference := rfl

theorem heldEnd_reference (hinv : r.Inv) (key : DatagramKey) :
    heldEnd (payloadOf (r.reference key)) = (retainedEnd (r.datagrams.find? key)).getD 0 := by
  rw [payloadOf_reference, heldEnd_rangesOf (hinv.ranges_of key)]

end Reassembler

/-! ### The checks agree -/

section

variable {existing : Option ReferenceDatagram} {retainedEnd : Option ℕ}

/-- A length that no other one contradicts is checked against the bytes that are held. -/
theorem checks_eq (h : heldEnd (payloadOf existing) = retainedEnd.getD 0) (incoming : Incoming) {n : ℕ}
    (hn : (existing.bind ReferenceDatagram.finalLength).filter (· ≠ n) = none) :
    (do
      Exec.rejectIf (existing.bind ReferenceDatagram.maxNonFinalEnd = some n)
        (.malformed (.nonFinalAtFinalLength n))
      Exec.rejectIf (incoming.stop > n ∨ retainedEnd.any (· > n))
        (.malformed (.beyondFinalLength n))
      Exec.rejectIf (incoming.moreFragments ∧ incoming.stop ≥ n)
        (.malformed (.nonFinalAtFinalLength n)) : Exec Error Unit) =
    Exec.whenSome (contradiction existing incoming n) fun reason =>
      Exec.fail (.malformed reason) := by
  have hr : (incoming.stop > n ∨ retainedEnd.any (· > n)) ↔
      n < max (heldEnd (payloadOf existing)) incoming.stop := by
    rw [h, lt_max_iff, or_comm]
    cases retainedEnd <;> simp
  have he (hle : ¬ n < max (heldEnd (payloadOf existing)) incoming.stop) :
      incoming.stop ≥ n ↔ incoming.stop = n := by
    omega
  simp only [contradiction, hn, Exec.rejectIf, hr]
  split_ifs with h₁ h₂ h₃ h₄ h₄ <;> first | rfl | simp_all

/-- The planned final length is the announced one, and is refused for the contradiction that the
reference finds. -/
theorem planFinalLength_eq (h : heldEnd (payloadOf existing) = retainedEnd.getD 0)
    (incoming : Incoming) :
    planFinalLength (existing.bind ReferenceDatagram.finalLength)
        (existing.bind ReferenceDatagram.maxNonFinalEnd) retainedEnd incoming =
      (Exec.whenSome ((announced existing incoming).bind (contradiction existing incoming))
        fun reason => Exec.fail (.malformed reason)) >>= fun _ =>
          pure (announced existing incoming) := by
  unfold planFinalLength announcedFinalLength announced
  cases hm : incoming.moreFragments with
  | true =>
    rw [if_pos rfl, if_pos rfl, pure_bind]
    cases hk : existing.bind ReferenceDatagram.finalLength with
    | none => rfl
    | some known =>
      have hf := checks_eq h incoming (n := known) (by simp [hk])
      rw [hm] at hf
      rw [Option.bind_some, ← hf]
      rfl
  | false =>
    rw [if_neg Bool.false_ne_true, if_neg Bool.false_ne_true, Option.bind_some]
    by_cases hk : (existing.bind ReferenceDatagram.finalLength).filter (· ≠ incoming.stop) = none
    · have hw : Exec.whenSome (existing.bind ReferenceDatagram.finalLength) (fun known =>
          Exec.rejectIf (known ≠ incoming.stop)
            (Error.malformed (.conflictingFinalLength known incoming.stop))) = .ok () := by
        cases he : existing.bind ReferenceDatagram.finalLength with
        | none => rfl
        | some known => exact if_neg (by simpa [he] using hk)
      have hf := checks_eq h incoming hk
      rw [hm] at hf
      rw [hw, ← hf]
      rfl
    · obtain ⟨known, hs⟩ := Option.ne_none_iff_exists'.mp hk
      obtain ⟨he, hne⟩ := Option.filter_eq_some_iff.mp hs
      rw [contradiction, hs, he]
      simp only [Exec.whenSome, Exec.rejectIf, if_pos (of_decide_eq_true hne)]
      rfl

end

theorem maxNonFinalEnd_eq (known : Option ℕ) (incoming : Incoming) :
    maxNonFinalEnd known incoming =
      if incoming.moreFragments then some (max (known.getD 0) incoming.stop) else known := by
  cases known <;> simp [maxNonFinalEnd]

namespace Reassembler

variable {r : Reassembler}

theorem inspect_reference (hinv : r.Inv) {incoming : Incoming} (hv : incoming.Valid) :
    (fun y => (y.1, y.2.1)) <$> r.inspect incoming =
      Reference.inspect r.overlapPolicy (r.reference incoming.key) incoming := by
  obtain ⟨merge, hm, b, t, a, hs⟩ := planMerge_spec (hinv.ranges_of incoming.key) hv
  have hc : conflicting (payloadOf (r.reference incoming.key)) incoming =
      merge.conflictingBytes := by
    rw [payloadOf_reference, hs.conflicting_eq]
    rfl
  have hf := planFinalLength_eq (heldEnd_reference hinv incoming.key) incoming
  rw [reference_apply, Option.bind_map, Option.bind_map] at hf
  change planFinalLength ((r.datagrams.find? incoming.key).bind DatagramState.finalLength)
    ((r.datagrams.find? incoming.key).bind DatagramState.maxNonFinalEnd) _ _ = _ at hf
  unfold inspect Reference.inspect
  dsimp only
  rw [heldEnd_reference hinv, hc, hm, reference_apply, Option.map_map, hf]
  -- After the same four checks, the planned conflicts are the differing bytes.
  simp only [map_bind, bind_assoc, pure_bind, Exec.ok_bind, map_pure]
  rfl

/-- The reassembler and the reference judge a fragment alike, unless a limit is hit. -/
theorem examine_reference (hinv : r.Inv) (fragment : Fragment) : Exec.AgreesUnless IsResource
      ((fun x => (x.incoming, x.ecn, x.finalLength)) <$> r.examine fragment)
      (Reference.examine r.overlapPolicy r.reference fragment) := by
  unfold examine validateFragment Reference.examine
  cases hc : checkFragment fragment with
  | error e => exact .refl _
  | ok incoming =>
    obtain ⟨hv, he⟩ := (checkFragment_spec fragment).of_eq_ok hc
    have hi := inspect_reference hinv hv
    have hread : Reference.read fragment incoming.ecn = incoming := by
      rw [he, Reference.read, Nat.mul_comm]
    simp only [hread, Exec.ok_bind, bind_assoc, pure_bind, map_bind, ← hi]
    refine Exec.agreesUnless_rejectIf_bind ⟨_, rfl⟩ ?_
    refine Exec.agreesUnless_rejectIf_bind ⟨_, rfl⟩ ?_
    refine Exec.agreesUnless_okOr_bind ⟨_, rfl⟩ fun f => ?_
    cases r.inspect incoming with
    | error e => exact .refl _
    | ok y => exact .refl _

/-! ### Completion -/

section Complete

variable {x : Examined} {b t a : List RetainedRange} {now : ℕ} {p : Provision}

variable (hx : x.Sound r b t a) (hp : r.ProvisionFor x now hx p)
include hx hp

theorem write_reference :
    write r.overlapPolicy (payloadOf (r.reference x.incoming.key)) x.incoming =
      held (r.updated x p.update) := by
  funext i
  rw [write_eq_resolve, payloadOf_reference]
  exact ((merged_updatedRanges hx.ranges hx.valid hx.merge hp.update).held_eq i).symm

theorem ranges_updated : Ranges (r.updated x p.update) :=
  (merged_updatedRanges hx.ranges hx.valid hx.merge hp.update).ranges_of hx.ranges hx.valid

theorem updated_subset {length : ℕ} (hf : x.finalLength = some length) :
    cover (intervals (r.updated x p.update)) ⊆ range length := by
  have hpl := (planFinalLength_spec _ _ _ _).of_eq_ok hx.final_eq
  intro i hi
  rw [cover_updated hx hp.update, mem_union, mem_Ico] at hi
  rw [mem_range]
  rcases hi with hi | hi
  · rw [← heldOffsets_held hx.ranges] at hi
    have hle : i + 1 ≤ (retainedEnd (r.datagrams.find? x.incoming.key)).getD 0 :=
      heldEnd_rangesOf hx.ranges ▸ le_sup (f := (· + 1)) hi
    cases hend : retainedEnd (r.datagrams.find? x.incoming.key) with
    | none => simp [hend] at hle
    | some e =>
      rw [hend, Option.getD_some] at hle
      exact hle.trans (hpl.retained_le length hf e hend)
  · exact hi.2.trans_le (hpl.stop_le length hf)

/-- A datagram completes when every offset below its final length is held. -/
theorem completes_iff (length : ℕ) :
    (completes x.finalLength x.merge = true ∧ x.finalLength = some length) ↔
      x.finalLength = some length ∧ ∀ i < length, (held (r.updated x p.update) i).isSome := by
  constructor
  · rintro ⟨hc, hf⟩
    obtain ⟨hu, -, -, single, hs, hin⟩ := updated_of_completes hx hp.update hc
    obtain rfl : length = x.merge.unionEnd := Option.some.inj (hf.symm.trans hu)
    refine ⟨hf, fun i hi => ?_⟩
    rw [isSome_held, hs]
    refine mem_cover.mpr ⟨single.interval, List.mem_cons_self, ?_⟩
    rw [hin]
    exact ⟨Nat.zero_le i, hi⟩
  · rintro ⟨hf, hh⟩
    refine ⟨?_, hf⟩
    have hpl := (planFinalLength_spec _ _ _ _).of_eq_ok hx.final_eq
    have hpos : 0 < length := (Nat.zero_le _).trans_lt
      (hx.valid.offset_lt_stop.trans_le (hpl.stop_le length hf))
    have hcv : cover (intervals (r.updated x p.update)) = Ico 0 length := by
      refine Subset.antisymm ?_ fun i hi => isSome_held.mp (hh i (mem_Ico.mp hi).2)
      rw [← range_eq_Ico]
      exact updated_subset hx hp hf
    have hs := (ranges_updated hx hp).separated.eq_singleton hpos hcv
    rw [intervals_updated hx hp.update, List.append_eq_singleton_iff] at hs
    obtain ⟨hb, hr⟩ | ⟨-, hr⟩ := hs
    · obtain ⟨hu, ha⟩ := List.cons_eq_cons.mp hr
      have hcn : x.merge.resultRangeCount = 1 := by
        rw [hx.merge.result_eq, List.map_eq_nil_iff.mp hb, List.map_eq_nil_iff.mp ha]
        rfl
      obtain ⟨hst, hend⟩ := Prod.mk.inj hu
      rw [completes, hf, Option.any_some, hcn, hst, hend]
      simp
    · cases hr

end Complete

/-! ### A push -/

section Push

variable {x : Examined} {b t a : List RetainedRange} {now : ℕ} {p : Provision}

section

variable (hx : x.Sound r b t a)
include hx

theorem added_reference :
    added (payloadOf (r.reference x.incoming.key)) x.incoming = x.merge.addedBytes := by
  rw [payloadOf_reference, added, hx.merge.added_eq, ← filter_notMem_eq_sdiff]
  simp only [held_eq_none]

theorem conflicting_reference : conflicting (payloadOf (r.reference x.incoming.key)) x.incoming =
      x.merge.conflictingBytes := by
  rw [payloadOf_reference, hx.merge.conflicting_eq]
  rfl

/-- The ranges stay as they are when the fragment adds and changes nothing. -/
theorem unchanged_iff :
    x.merge.kind = .unchanged ↔ x.merge.addedBytes = 0 ∧ x.merge.conflictingBytes = 0 := by
  rw [hx.merge.kind_eq, updateKind_eq_unchanged]

/-- What an accepted fragment does is what the reference says. -/
theorem disposition_reference :
    Reference.disposition r.overlapPolicy (payloadOf (r.reference x.incoming.key)) x.incoming =
      Ip.disposition r.overlapPolicy x := by
  unfold Reference.disposition Ip.disposition
  rw [added_reference hx, conflicting_reference hx]
  simp only [unchanged_iff hx]

/-- The state that is retained after a fragment stands for the datagram of the reference. -/
theorem merge_reference (hp : r.ProvisionFor x now hx p) :
    Reference.merge r.overlapPolicy (r.reference x.incoming.key) x.incoming x.ecn x.finalLength =
      (r.retainedState x p (r.updated x p.update)).reference := by
  unfold Reference.merge DatagramState.reference retainedState
  rw [write_reference hx hp, added_reference hx, conflicting_reference hx, reference_apply,
    Option.bind_map, Option.elim_map, Option.elim_map, Option.elim_map, Option.map_map, hx.count_eq,
    hp.charges.duplicate_eq, hp.charges.overlap_eq, hp.header_eq, maxNonFinalEnd_eq]
  simp only [unchanged_iff hx]
  rfl

end

theorem card_heldOffsets (hinv : r.Inv) (hx : x.Sound r b t a) (hp : r.ProvisionFor x now hx p) :
    (heldOffsets (held (r.updated x p.update))).card = p.charges.uniqueBytes := by
  rw [heldOffsets_held (ranges_updated hx hp)]
  exact (hinv.retainedState hx hp).unique_eq.symm

/-- A range from offset zero holds its bytes in order. -/
theorem bytes_eq_map_held {s : RetainedRange} {length : ℕ} (h : s.interval = (0, length)) :
    (List.range length).map (fun i => (held [s] i).getD 0) = s.bytes := by
  obtain ⟨hs, hend⟩ := Prod.mk.inj h
  have hl : s.bytes.length = length := by omega
  refine List.ext_getElem (by rw [List.length_map, List.length_range, hl]) fun i h₁ h₂ => ?_
  have hlow : s.start ≤ i := by omega
  have hh : held [s] i = some s.bytes[i] := by
    rw [held_cons, show held [] i = none from rfl, Option.or_none, Runs.elemAt,
      if_pos (show s.run.1 ≤ i from hlow)]
    change s.bytes[i - s.start]? = _
    rw [hs, Nat.sub_zero, List.getElem?_eq_getElem h₂]
  rw [List.getElem_map, List.getElem_range, hh, Option.getD_some]

theorem reference_store (ranges : List RetainedRange) : (r.store x p ranges).reference =
      Function.update r.reference x.incoming.key (some (r.retainedState x p ranges).reference) := by
  funext key
  change ((r.datagrams.insert _ _).find? key).map _ = _
  rw [SortedMap.find?_insert, Function.update_apply]
  split_ifs <;> rfl

theorem reference_removed (key : DatagramKey) :
    (r.removed key).reference = Function.update r.reference key none := by
  funext k
  change ((r.datagrams.erase key).find? k).map _ = _
  rw [SortedMap.find?_erase, Function.update_apply]
  split_ifs <;> rfl

/-- A fragment that completes its datagram completes it in the reference. -/
theorem finish_completed (hinv : r.Inv) (hx : x.Sound r b t a) (hp : r.ProvisionFor x now hx p)
    (hc : completes x.finalLength x.merge = true) {s : RetainedRange}
    (hs : r.updated x p.update = [s])
    (hi : s.interval = (0, x.merge.unionEnd)) :
    finish x.incoming.key (Ip.disposition r.overlapPolicy x)
      (r.retainedState x p (r.updated x p.update)).reference =
        (.completed (fragmentOutcome r.overlapPolicy x p.charges.uniqueBytes)
          (r.completedDatagram x p s.bytes), none) := by
  have hf := (updated_of_completes hx hp.update hc).1
  have hcp : Complete (r.retainedState x p (r.updated x p.update)).reference
      x.merge.unionEnd := ((completes_iff hx hp _).mp ⟨hc, hf⟩)
  have hb := hs ▸ bytes_eq_map_held hi
  have hcr := card_heldOffsets hinv hx hp
  unfold finish completedDatagram fragmentOutcome
  simp only [hcp.1, Option.getD_some, if_pos hcp]
  dsimp only [DatagramState.reference, retainedState]
  rw [hcr, hb, hp.header_eq, hf]

/-- A fragment that leaves its datagram incomplete does so in the reference. -/
theorem finish_retained (hinv : r.Inv) (hx : x.Sound r b t a) (hp : r.ProvisionFor x now hx p)
    (hc : completes x.finalLength x.merge = false) :
    finish x.incoming.key (Ip.disposition r.overlapPolicy x)
      (r.retainedState x p (r.updated x p.update)).reference =
        (.accepted (fragmentOutcome r.overlapPolicy x p.charges.uniqueBytes),
          some (r.retainedState x p (r.updated x p.update)).reference) := by
  have hcr := card_heldOffsets hinv hx hp
  have hi (length : ℕ) :
      ¬ Complete (r.retainedState x p (r.updated x p.update)).reference length := by
    intro hcp
    have := ((completes_iff hx hp length).mpr hcp).1
    rw [hc] at this
    cases this
  unfold finish fragmentOutcome
  rw [if_neg (hi _)]
  dsimp only [DatagramState.reference, retainedState]
  rw [hcr]

/-- A push that does not run out of a resource does what the reference does. -/
theorem reference_push (al : Allocator) (hinv : r.Inv) (fragment : Fragment) (now ec : ℕ)
    (hr : ∀ rs, (r.push al fragment now ec).1 ≠ .error (.error (.resource rs))) :
    Reference.push r.overlapPolicy r.reference fragment = ((r.push al fragment now ec).1,
        (r.push al fragment now ec).2.reference) := by
  have hem := examine_reference hinv fragment
  have hres := push_result al hinv fragment now ec
  generalize r.push al fragment now ec = out at hres hr ⊢
  have ha {x : Examined} (h : r.examine fragment = .ok x) :
      Reference.examine r.overlapPolicy r.reference fragment =
        .ok (x.incoming, x.ecn, x.finalLength) := by
    rw [h] at hem
    exact (hem.eq fun _ _ => nofun).symm
  unfold Reference.push
  cases hres with
  | @refused e hex he =>
    rw [hex] at hem
    have hs := hem.eq fun e' he' heq => by
      obtain ⟨rs, rfl⟩ := he'
      cases heq
      exact hr rs rfl
    rw [← hs]
    rfl
  | exhausted hex he =>
    obtain ⟨rs, rfl⟩ := he
    exact absurd rfl (hr rs)
  | completed hex hx hp hc hsn hi hf =>
    rw [ha hex]
    dsimp only
    rw [disposition_reference hx, merge_reference hx hp,
      finish_completed hinv hx hp hc hsn hi, reference_removed]
  | retained hex hx hp hc =>
    rw [ha hex]
    dsimp only
    rw [disposition_reference hx, merge_reference hx hp, finish_retained hinv hx hp hc,
      reference_store]

end Push

/-! ### Sequences of pushes -/

/-- A fragment with what its push depends on besides the reassembler. -/
structure Pushed where
  alloc : Allocator
  fragment : Fragment
  now : ℕ
  externalCharge : ℕ

/-- The outcomes of a sequence of pushes. -/
def pushAll : Reassembler → List Pushed → List (Exec Error PushOutcome)
  | _, [] => []
  | r, p :: pushes =>
    (r.push p.alloc p.fragment p.now p.externalCharge).1 ::
      pushAll (r.push p.alloc p.fragment p.now p.externalCharge).2 pushes

theorem overlapPolicy_push (al : Allocator) (hinv : r.Inv) (fragment : Fragment) (now e : ℕ) :
    (r.push al fragment now e).2.overlapPolicy = r.overlapPolicy := by
  have hr := push_result al hinv fragment now e
  generalize r.push al fragment now e = out at hr ⊢
  cases hr <;> rfl

theorem pushAll_reference (hinv : r.Inv) (pushes : List Pushed)
    (hr : ∀ rs, .error (.error (.resource rs)) ∉ r.pushAll pushes) :
    r.pushAll pushes =
      Reference.pushAll r.overlapPolicy r.reference (pushes.map Pushed.fragment) := by
  induction pushes generalizing r with
  | nil => rfl
  | cons p pushes ih =>
    have hps := reference_push p.alloc hinv p.fragment p.now p.externalCharge
      fun rs h => hr rs (h ▸ List.mem_cons_self)
    have hrt := ih (hinv.push p.alloc p.fragment p.now p.externalCharge)
      fun rs h => hr rs (List.mem_cons_of_mem _ h)
    rw [overlapPolicy_push p.alloc hinv] at hrt
    rw [pushAll, List.map_cons, Reference.pushAll, hps, hrt]

theorem reference_new {c : ℕ} {limits : Limits} {pol : OverlapPolicy}
    (h : Reassembler.new c limits pol = .ok r) : r.reference = fun _ => none := by
  rw [eq_of_new h]
  rfl

/-- A new reassembler does, fragment by fragment, what the byte reference does, as long as no push
runs out of a resource. -/
theorem refines_reference {clock : ℕ} {limits : Limits} {overlapPolicy : OverlapPolicy}
    (h : Reassembler.new clock limits overlapPolicy = .ok r) (pushes : List Pushed)
    (hresource : ∀ resource, .error (.error (.resource resource)) ∉ r.pushAll pushes) :
    r.pushAll pushes =
      Reference.pushAll overlapPolicy (fun _ => none) (pushes.map Pushed.fragment) := by
  have hr := pushAll_reference (inv_new h).1 pushes hresource
  rwa [(inv_new h).2.2, reference_new h] at hr

end Reassembler

/-! ### A datagram that is completed -/

/-- Four bytes at the end of the datagram of `firstFragment`. -/
def lastFragment (payload : Bytes) : Fragment :=
  .ipv4
    { key := hostsKey
      fragmentOffset := 1
      moreFragments := false
      header := [0x45, 0, 0, 24, 0, 9, 0, 1, 64, 17, 0, 0, 10, 0, 0, 1, 10, 0, 0, 2]
      payload := payload }

/-- The last bytes come first and then once more with another byte, which is not taken; the first
bytes complete the datagram. -/
theorem refines_reference_completed :
    let pushes : List Reassembler.Pushed := [⟨.exact, lastFragment [1, 2, 3, 4], 0, 0⟩,
      ⟨.exact, lastFragment [1, 2, 3, 5], 0, 0⟩, ⟨.exact, firstFragment, 1, 0⟩]
    let outcomes : List (Exec Error PushOutcome) :=
      [.ok (.accepted ⟨.ipv4 hostsKey, .accepted 4, 1, 4, some 12⟩),
        .ok (.accepted ⟨.ipv4 hostsKey, .overlapResolved .first 1 0, 2, 4, some 12⟩),
        .ok (.completed ⟨.ipv4 hostsKey, .accepted 8, 3, 12, some 12⟩
          ⟨.ipv4 hostsKey, [0x45, 0, 0, 32, 0, 9, 0, 0, 64, 17, 0x66, 0xc2, 10, 0, 0, 1, 10, 0, 0, 2,
            0, 53, 0, 53, 0, 16, 0, 0, 1, 2, 3, 4], 3, 12, 12, 0, 1⟩)]
    idle.pushAll pushes = outcomes ∧
      Reference.pushAll .first (fun _ => none) (pushes.map Reassembler.Pushed.fragment) =
        outcomes := by
  intro pushes outcomes
  have ho : idle.pushAll pushes = outcomes := by decide +kernel
  refine ⟨ho, ?_⟩
  rw [← Reassembler.refines_reference new_idle pushes, ho]
  simp [ho, outcomes]

end PacketCraftr.Ip
