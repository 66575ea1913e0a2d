import PacketCraftr.Foundation.Runs
import PacketCraftr.Ip.Validation

/-!
# Planning the merge of a fragment

The first half of `ip/engine/merge.rs`: the scan over the retained ranges that measures what a
fragment adds to them. The ranges are a separated list of runs, so that they are a partial function
from offsets to bytes, and the scan counts offsets of that function.
-/

open Finset Exec Intervals Nat
open List hiding Ico mem_range

namespace PacketCraftr.Ip

open RetainedRange

def offsetOverflow : Error := .malformed .offsetOverflow

inductive UpdateKind
  | unchanged
  | append
  | prepend
  | replace
  deriving DecidableEq, Repr

structure MergePlan where
  firstAffected : ℕ
  affectedCount : ℕ
  unionStart : ℕ
  unionEnd : ℕ
  addedBytes : ℕ
  conflictingBytes : ℕ
  resultRangeCount : ℕ
  kind : UpdateKind
  deriving DecidableEq, Repr

/-! ### The scan over the ranges -/

/-- Reports the overlapping and the conflicting byte counts. -/
def measureOverlap (retained : RetainedRange) (retainedEnd : ℕ) (incoming : Incoming) :
    Exec Error (ℕ × ℕ) := do
  let overlapStart := max retained.start incoming.offset
  let overlapEnd := min retainedEnd incoming.stop
  let length ← okOr (checkedSub overlapEnd overlapStart) offsetOverflow
  let retainedStart ← okOr (checkedSub overlapStart retained.start) offsetOverflow
  let incomingStart ← okOr (checkedSub overlapStart incoming.offset) offsetOverflow
  let incomingStop ← okOr (checkedAdd incomingStart length) offsetOverflow
  let incomingOverlap ← okOr (Wire.range? incoming.payload incomingStart incomingStop)
    offsetOverflow
  pure (length, (((retained.bytes.drop retainedStart).take length).zip incomingOverlap).countP
    fun pair => pair.1 != pair.2)

/-- The variables of the scan. -/
structure MergeScan where
  firstAffected : ℕ
  affectedCount : ℕ
  unionStart : ℕ
  unionEnd : ℕ
  overlappingBytes : ℕ
  conflictingBytes : ℕ
  deriving DecidableEq, Repr

namespace MergeScan

/-- Count the bytes a range shares with the fragment. -/
def addOverlap (s : MergeScan) (retained : RetainedRange) (stop : ℕ) (incoming : Incoming) :
    Exec Error MergeScan :=
  if max retained.start incoming.offset < min stop incoming.stop then do
    let (overlapping, conflicting) ← measureOverlap retained stop incoming
    let overlappingBytes ← okOr (checkedAdd s.overlappingBytes overlapping) offsetOverflow
    let conflictingBytes ← okOr (checkedAdd s.conflictingBytes conflicting) offsetOverflow
    pure { s with overlappingBytes, conflictingBytes }
  else pure s

/-- Take in a range that overlaps the fragment or is adjacent to it. -/
def touch (s : MergeScan) (index : ℕ) (retained : RetainedRange) (stop : ℕ) (incoming : Incoming) :
    Exec Error MergeScan := do
  let affectedCount ← okOr (checkedAdd s.affectedCount 1) offsetOverflow
  addOverlap
    { s with
      firstAffected := if s.affectedCount = 0 then index else s.firstAffected
      affectedCount
      unionStart := min s.unionStart retained.start
      unionEnd := max s.unionEnd stop }
    retained stop incoming

end MergeScan

/-- The loop over the ranges, from the range at `index` on. -/
def scanRanges (incoming : Incoming) : List RetainedRange → ℕ → MergeScan → Exec Error MergeScan
  | [], _, s => pure s
  | retained :: rest, index, s => do
    let stop ← okOr retained.stop? offsetOverflow
    if stop < incoming.offset then do
      let next ← okOr (checkedAdd index 1) offsetOverflow
      scanRanges incoming rest (index + 1) { s with firstAffected := next }
    else if retained.start > incoming.stop then
      pure { s with firstAffected := if s.affectedCount = 0 then index else s.firstAffected }
    else do
      let s ← s.touch index retained stop incoming
      scanRanges incoming rest (index + 1) s

section

variable (ranges : List RetainedRange)

/-- How the ranges are updated. -/
def updateKind (incoming : Incoming)
    (firstAffected affectedCount addedBytes conflictingBytes : ℕ) : UpdateKind :=
  if addedBytes = 0 ∧ conflictingBytes = 0 then .unchanged
  else if affectedCount = 1 ∧ addedBytes = incoming.payload.length ∧
      ranges[firstAffected]?.bind stop? = some incoming.offset then .append
  else if affectedCount = 1 ∧ addedBytes = incoming.payload.length ∧
      ranges[firstAffected]?.map start = some incoming.stop then .prepend
  else .replace

def planMerge (incoming : Incoming) : Exec Error MergePlan := do
  let s ← scanRanges incoming ranges 0 ⟨ranges.length, 0, incoming.offset, incoming.stop, 0, 0⟩
  let addedBytes ← okOr (checkedSub incoming.payload.length s.overlappingBytes) offsetOverflow
  let resultRangeCount ← okOr
    ((checkedAdd ranges.length 1).bind (checkedSub · s.affectedCount)) offsetOverflow
  pure
    { firstAffected := s.firstAffected
      affectedCount := s.affectedCount
      unionStart := s.unionStart
      unionEnd := s.unionEnd
      addedBytes
      conflictingBytes := s.conflictingBytes
      resultRangeCount
      kind := updateKind ranges incoming s.firstAffected s.affectedCount addedBytes
        s.conflictingBytes }

/-! ### The ranges as a partial function -/

/-- The byte that ranges hold at an offset. -/
def held (x : ℕ) : Option UInt8 :=
  Runs.content (ranges.map run) x

abbrev intervals : List (ℕ × ℕ) := ranges.map interval

theorem map_interval_map_run : (ranges.map run).map Runs.interval = intervals ranges := by
  rw [List.map_map]
  rfl

/-- What holds of the ranges of a datagram. -/
structure Ranges : Prop where
  separated : Separated (intervals ranges)
  stop_le : ∀ r ∈ ranges, r.interval.2 ≤ maxWireLength

end

variable {ranges b t a : List RetainedRange} {r : RetainedRange} {incoming : Incoming}

theorem isSome_held {x : ℕ} : (held ranges x).isSome ↔ x ∈ cover (intervals ranges) := by
  rw [held, Runs.isSome_content, map_interval_map_run]

namespace Ranges

variable {ranges : List RetainedRange}

theorem nil : Ranges [] := ⟨.nil, nofun⟩

theorem cover_subset (h : Ranges ranges) : cover (intervals ranges) ⊆ range maxWireLength := by
  intro x hx
  obtain ⟨a, ha, -, hxa⟩ := mem_cover.mp hx
  obtain ⟨r, hr, rfl⟩ := mem_map.mp ha
  exact mem_range.mpr (hxa.trans_le (h.stop_le r hr))

theorem length_le (h : Ranges ranges) : ranges.length ≤ maxWireLength := by
  have hl := h.separated.length_le_card.trans (card_le_card h.cover_subset)
  rwa [length_map, card_range] at hl

theorem stop?_eq (h : Ranges ranges) {r : RetainedRange} (hr : r ∈ ranges) :
    r.stop? = some r.interval.2 := by
  refine checkedAdd_eq_some.mpr ⟨?_, rfl⟩
  exact lt_of_le_of_lt (h.stop_le r hr) (by decide)

end Ranges

/-! ### What the scan measures -/

/-- The number of bytes of a range inside the fragment. -/
def overlapOf (incoming : Incoming) (r : RetainedRange) : ℕ :=
  min r.interval.2 incoming.stop - max r.interval.1 incoming.offset

/-- The number of bytes of a range that differ from the fragment. -/
def conflictOf (incoming : Incoming) (r : RetainedRange) : ℕ :=
  (Runs.conflicts (Runs.elemAt r.run) (Runs.elemAt incoming.run) incoming.offset
    incoming.stop).card

theorem measureOverlap_eq (hsp : incoming.stop ≤ maxWireLength)
    (h : max r.start incoming.offset < min r.interval.2 incoming.stop) :
    measureOverlap r r.interval.2 incoming = .ok (overlapOf incoming r, conflictOf incoming r) := by
  have hs := le_max_left r.start incoming.offset
  have ho := le_max_right r.start incoming.offset
  have hend' := min_le_right r.interval.2 incoming.stop
  generalize hl : max r.start incoming.offset = lo at *
  generalize hh : min r.interval.2 incoming.stop = hi at *
  have hr : r.interval.2 = r.start + r.bytes.length := rfl
  have hi' : incoming.stop = incoming.offset + incoming.payload.length := rfl
  have hw : lo - incoming.offset + (hi - lo) < wordLimit := by
    simp only [maxWireLength, wordLimit] at *
    omega
  unfold measureOverlap
  dsimp only
  rw [hl, hh, okOr_checkedSub h.le, ok_bind, okOr_checkedSub hs, ok_bind,
    okOr_checkedSub ho, ok_bind, okOr_checkedAdd hw, ok_bind,
    Wire.range?_eq_some.mpr ⟨⟨le_add_right _ _, by omega⟩, rfl⟩, okOr_some, ok_bind]
  have hx : ((r.bytes.drop (lo - r.start)).take (hi - lo)).length = hi - lo := by
    rw [length_take, length_drop]
    omega
  have hy : ((incoming.payload.take (lo - incoming.offset + (hi - lo))).drop
      (lo - incoming.offset)).length = hi - lo := by
    rw [length_drop, length_take]
    omega
  have hc := Runs.countP_zip (hx.trans hy.symm) (fun i hi => show Runs.elemAt r.run (lo + i) = _ by
      rw [hx] at hi
      rw [getElem?_take_of_lt hi, getElem?_drop, Runs.elemAt,
        if_pos (show r.run.1 ≤ lo + i from hs.trans (le_add_right _ _))]
      congr 1
      change lo + i - r.start = _
      omega)
    (fun i hi => show Runs.elemAt incoming.run (lo + i) = _ by
      rw [hy] at hi
      rw [getElem?_drop, getElem?_take_of_lt (by omega), Runs.elemAt,
        if_pos (show incoming.run.1 ≤ lo + i from ho.trans (le_add_right _ _))]
      congr 1
      change lo + i - incoming.offset = _
      omega)
  have hset : Runs.conflicts (Runs.elemAt r.run) (Runs.elemAt incoming.run) incoming.offset
      incoming.stop = Runs.conflicts (Runs.elemAt r.run) (Runs.elemAt incoming.run) lo hi := by
    rw [Runs.conflicts_elemAt]
    exact congrArg₂ _ hl hh
  rw [hc, hx, Nat.add_sub_cancel' h.le, conflictOf, hset, overlapOf, hh]
  exact congrArg (fun n => Except.ok (hi - n, _)) hl.symm

theorem conflictOf_eq_zero
    (h : ¬ max r.interval.1 incoming.offset < min r.interval.2 incoming.stop) :
    conflictOf incoming r = 0 := by
  rw [conflictOf, Runs.conflicts_elemAt, Runs.conflicts]
  exact card_eq_zero.mpr ((congrArg _ (Ico_eq_empty h)).trans (filter_empty _))

/-- The scan after the ranges of a list that touch the fragment. -/
def MergeScan.touched (s : MergeScan) (index : ℕ) (incoming : Incoming) (t : List RetainedRange) :
    MergeScan where
  firstAffected := if s.affectedCount = 0 ∧ t ≠ [] then index else s.firstAffected
  affectedCount := s.affectedCount + t.length
  unionStart := (Intervals.hull s.unionStart s.unionEnd (intervals t)).1
  unionEnd := (Intervals.hull s.unionStart s.unionEnd (intervals t)).2
  overlappingBytes := s.overlappingBytes + (t.map (overlapOf incoming)).sum
  conflictingBytes := s.conflictingBytes + (t.map (conflictOf incoming)).sum

theorem MergeScan.touch_eq {s : MergeScan} {index : ℕ} (hs : incoming.stop ≤ maxWireLength)
    (hc : s.affectedCount + 1 < wordLimit)
    (ho : s.overlappingBytes + overlapOf incoming r < wordLimit)
    (hcf : s.conflictingBytes + conflictOf incoming r < wordLimit) :
    s.touch index r r.interval.2 incoming = .ok (s.touched index incoming [r]) := by
  unfold touch addOverlap
  rw [okOr_checkedAdd hc, ok_bind]
  by_cases hlt : max r.start incoming.offset < min r.interval.2 incoming.stop
  · rw [if_pos hlt, measureOverlap_eq hs hlt, ok_bind]
    dsimp only
    rw [okOr_checkedAdd ho, ok_bind, okOr_checkedAdd hcf, ok_bind]
    simp [touched, hull, interval]
    rfl
  · have hz : overlapOf incoming r = 0 := Nat.sub_eq_zero_of_le (not_lt.mp hlt)
    rw [if_neg hlt]
    simp [touched, hull, interval, hz, conflictOf_eq_zero hlt]
    rfl

section Scan

variable {incoming : Incoming} {ranges : List RetainedRange}

theorem scanRanges_before (b rest : List RetainedRange) (index : ℕ) (s : MergeScan)
    (hb : ∀ r ∈ b, r.stop? = some r.interval.2 ∧ r.interval.2 < incoming.offset)
    (hi : index + b.length < wordLimit) :
    scanRanges incoming (b ++ rest) index s = scanRanges incoming rest (index + b.length)
        { s with firstAffected := if b = [] then s.firstAffected else index + b.length } := by
  induction b generalizing index s with
  | nil => rfl
  | cons r b ih =>
    obtain ⟨hs, hlt⟩ := hb r mem_cons_self
    rw [length_cons] at hi
    rw [cons_append, scanRanges, hs, okOr_some, ok_bind, if_pos hlt,
      okOr_checkedAdd (by omega), ok_bind,
      ih (index + 1) _ (fun r' hr' => hb r' (mem_cons_of_mem _ hr')) (by omega),
      length_cons, add_right_comm, add_assoc index]
    congr 2
    simp only [if_neg (cons_ne_nil r b)]
    split_ifs with hn
    · rw [hn, length_nil]
    · rfl

theorem scanRanges_touching (hle : incoming.stop ≤ maxWireLength) (t rest : List RetainedRange)
    (index : ℕ) (s : MergeScan)
    (ht : ∀ r ∈ t, r.stop? = some r.interval.2 ∧ incoming.offset ≤ r.interval.2 ∧
      r.interval.1 ≤ incoming.stop)
    (hc : (s.touched index incoming t).affectedCount < wordLimit)
    (ho : (s.touched index incoming t).overlappingBytes < wordLimit)
    (hcf : (s.touched index incoming t).conflictingBytes < wordLimit) :
    scanRanges incoming (t ++ rest) index s =
      scanRanges incoming rest (index + t.length) (s.touched index incoming t) := by
  induction t generalizing index s with
  | nil => simp [MergeScan.touched, hull]
  | cons r t ih =>
    obtain ⟨hs, hlow, hh⟩ := ht r List.mem_cons_self
    have hsp : s.touched index incoming (r :: t) =
        (s.touched index incoming [r]).touched (index + 1) incoming t := by
      simp only [MergeScan.touched, hull, List.map_cons, List.map_nil, List.foldl_cons,
        List.foldl_nil, List.sum_cons, List.sum_nil, List.length_cons, List.length_nil,
        MergeScan.mk.injEq]
      refine ⟨?_, by omega, trivial, trivial, by omega, by omega⟩
      simp
    rw [hsp] at hc ho hcf ⊢
    have htc : s.touch index r r.interval.2 incoming = .ok (s.touched index incoming [r]) :=
      MergeScan.touch_eq hle
      (lt_of_le_of_lt (le_add_right _ _) hc)
      (lt_of_le_of_lt (by simp only [MergeScan.touched, List.map_cons, List.map_nil, List.sum_cons,
        List.sum_nil, add_zero]; exact le_add_right _ _) ho)
      (lt_of_le_of_lt (by simp only [MergeScan.touched, List.map_cons, List.map_nil, List.sum_cons,
        List.sum_nil, add_zero]; exact le_add_right _ _) hcf)
    rw [List.cons_append, scanRanges, hs, okOr_some, ok_bind,
      if_neg (not_lt.mpr hlow), if_neg (show ¬ r.start > incoming.stop from not_lt.mpr hh),
      htc, ok_bind,
      ih (index + 1) _ (fun r' hr' => ht r' (List.mem_cons_of_mem _ hr')) hc ho hcf,
      List.length_cons, add_right_comm, add_assoc index]

theorem scanRanges_after (a : List RetainedRange) (index : ℕ) (s : MergeScan)
    (ha : ∀ r ∈ a, r.stop? = some r.interval.2 ∧ incoming.stop < r.interval.1 ∧
      incoming.offset ≤ r.interval.2) :
    scanRanges incoming a index s =
      .ok { s with firstAffected :=
        if a ≠ [] ∧ s.affectedCount = 0 then index else s.firstAffected } := by
  cases a with
  | nil =>
    simp
    rfl
  | cons r a =>
    obtain ⟨hs, haf, hlow⟩ := ha r mem_cons_self
    rw [scanRanges, hs, okOr_some, ok_bind, if_neg (not_lt.mpr hlow),
      if_pos (show r.start > incoming.stop from haf)]
    simp only [ne_eq, cons_ne_nil, not_false_eq_true, true_and]
    rfl

end Scan

/-! ### The plan of a merge -/

theorem held_append (l m : List RetainedRange) (x : ℕ) :
    held (l ++ m) x = (held l x).or (held m x) := by
  rw [held, map_append, Runs.content_append]
  rfl

theorem held_eq_none {x : ℕ} : held ranges x = none ↔ x ∉ cover (intervals ranges) := by
  rw [held, Runs.content_eq_none, map_interval_map_run]

theorem held_cons (r : RetainedRange) (l : List RetainedRange) (x : ℕ) :
    held (r :: l) x = (Runs.elemAt r.run x).or (held l x) := by
  rw [held, List.map_cons, Runs.content_cons]
  rfl

/-- Where the first of separated ranges holds a byte, the others hold none. -/
theorem elemAt_or_held {l : List RetainedRange} (h : Separated (intervals (r :: l))) (x : ℕ) :
    Runs.elemAt r.run x = none ∨ held l x = none := by
  refine Runs.elemAt_or_content ?_ x
  rw [← List.map_cons, map_interval_map_run]
  exact h

/-- The ranges before the fragment, those touching it and those after it. -/
structure Split (ranges : List RetainedRange) (incoming : Incoming)
    (b t a : List RetainedRange) : Prop where
  eq : ranges = b ++ t ++ a
  before : intervals b = Intervals.before incoming.offset (intervals ranges)
  touching : intervals t =
    Intervals.touching incoming.offset incoming.stop (intervals ranges)
  after : intervals a = Intervals.after incoming.stop (intervals ranges)

theorem Ranges.exists_split (h : Ranges ranges) (incoming : Incoming) :
    ∃ b t a, Split ranges incoming b t a := by
  have hs := before_append_touching_append_after h.separated
    (le_add_right incoming.offset incoming.payload.length)
  obtain ⟨bt, a, hbta, hbt, ha⟩ := map_eq_append_iff.mp hs.symm
  obtain ⟨b, t, rfl, hb, ht⟩ := map_eq_append_iff.mp hbt
  exact ⟨b, t, a, hbta, hb, ht, ha⟩

namespace Split

variable {ranges b t a : List RetainedRange} {incoming : Incoming}

variable {r : RetainedRange}

section

variable (h : Split ranges incoming b t a)
include h

theorem mem_before (hr : r ∈ b) : r ∈ ranges ∧ r.interval.2 < incoming.offset := by
  refine ⟨by rw [h.eq]; simp [hr], ?_⟩
  have hmem := mem_map_of_mem (f := interval) hr
  rw [show b.map interval = _ from h.before] at hmem
  exact (Intervals.mem_before.mp hmem).2

theorem mem_touching (hr : r ∈ t) :
    r ∈ ranges ∧ incoming.offset ≤ r.interval.2 ∧ r.interval.1 ≤ incoming.stop := by
  refine ⟨by rw [h.eq]; simp [hr], ?_⟩
  have hmem := mem_map_of_mem (f := interval) hr
  rw [show t.map interval = _ from h.touching] at hmem
  exact (Intervals.mem_touching.mp hmem).2

theorem mem_after (hr : r ∈ a) : r ∈ ranges ∧ incoming.stop < r.interval.1 := by
  refine ⟨by rw [h.eq]; simp [hr], ?_⟩
  have hmem := mem_map_of_mem (f := interval) hr
  rw [show a.map interval = _ from h.after] at hmem
  exact (Intervals.mem_after.mp hmem).2

theorem held_eq (x : ℕ) : held ranges x = ((held b x).or (held t x)).or (held a x) := by
  rw [h.eq, held_append, held_append]

end

/-- The hull of the fragment and of the ranges that touch it. -/
abbrev hull (_ : Split ranges incoming b t a) : ℕ × ℕ :=
  Intervals.hull incoming.offset incoming.stop (intervals t)

variable (h : Split ranges incoming b t a) (hrn : Ranges ranges)
include h hrn

theorem before_lt_hull (hr : r ∈ b) : r.interval.2 < h.hull.1 := by
  have hmem := mem_map_of_mem (f := interval) hr
  rw [show b.map interval = _ from h.before] at hmem
  rw [hull, h.touching]
  exact Intervals.before_lt_hull hrn.separated (le_add_right _ _) hmem

theorem hull_lt_after (hr : r ∈ a) : h.hull.2 < r.interval.1 := by
  have hmem := mem_map_of_mem (f := interval) hr
  rw [show a.map interval = _ from h.after] at hmem
  rw [hull, h.touching]
  exact Intervals.hull_lt_after hrn.separated (le_add_right _ _) hmem

theorem held_before {x : ℕ} (hx : h.hull.1 ≤ x) : held b x = none := by
  rw [held_eq_none, mem_cover]
  rintro ⟨c, hc, -, hxc⟩
  obtain ⟨r, hr, rfl⟩ := mem_map.mp hc
  exact absurd (hxc.trans (h.before_lt_hull hrn hr)) (not_lt.mpr hx)

theorem held_after {x : ℕ} (hx : x < h.hull.2) : held a x = none := by
  rw [held_eq_none, mem_cover]
  rintro ⟨c, hc, hcx, -⟩
  obtain ⟨r, hr, rfl⟩ := mem_map.mp hc
  exact absurd (hx.trans (h.hull_lt_after hrn hr)) (not_lt.mpr hcx)

/-- Inside the hull, only the touching ranges hold bytes. -/
theorem held_touching {x : ℕ} (hx : h.hull.1 ≤ x) (hx' : x < h.hull.2) :
    held ranges x = held t x := by
  rw [h.held_eq, h.held_before hrn hx, h.held_after hrn hx', Option.none_or, Option.or_none]

theorem separated_touching : Separated (intervals t) := by
  rw [h.touching]
  exact hrn.separated.filter _

theorem sum_overlapOf : (t.map (overlapOf incoming)).sum =
      (cover (intervals ranges) ∩ Ico incoming.offset incoming.stop).card := by
  have hs := (h.separated_touching hrn).sum_overlap incoming.offset incoming.stop
  rw [List.map_map] at hs
  rw [← cover_touching_inter, ← h.touching]
  exact hs

theorem sum_conflictOf : (t.map (conflictOf incoming)).sum =
      (Runs.conflicts (held ranges) (Runs.elemAt incoming.run) incoming.offset
        incoming.stop).card := by
  have hsep : Separated ((t.map run).map Runs.interval) := by
    rw [map_interval_map_run]
    exact h.separated_touching hrn
  have hs := Runs.sum_conflicts hsep (Runs.elemAt incoming.run) incoming.offset incoming.stop
  rw [List.map_map] at hs
  rw [Runs.conflicts_congr fun x hl hh => h.held_touching hrn
    ((hull_fst_le _).trans hl) (hh.trans_le (le_hull_snd _))]
  exact hs

end Split

/-- A plan that says what the merge does. -/
structure MergePlan.Sound (ranges : List RetainedRange) (incoming : Incoming) (plan : MergePlan)
    (b t a : List RetainedRange) : Prop where
  split : Split ranges incoming b t a
  first_eq : plan.firstAffected = b.length
  count_eq : plan.affectedCount = t.length
  union_eq : (plan.unionStart, plan.unionEnd) = split.hull
  added_eq : plan.addedBytes =
    (Ico incoming.offset incoming.stop \ cover (intervals ranges)).card
  conflicting_eq : plan.conflictingBytes =
    (Runs.conflicts (held ranges) (Runs.elemAt incoming.run) incoming.offset incoming.stop).card
  result_eq : plan.resultRangeCount = b.length + 1 + a.length
  kind_eq : plan.kind = updateKind ranges incoming plan.firstAffected plan.affectedCount
    plan.addedBytes plan.conflictingBytes

variable (hrn : Ranges ranges) (hin : incoming.Valid)
include hrn hin

/-- The union of the fragment and the ranges it touches is not empty, and fits a datagram. -/
theorem MergePlan.Sound.union_le {plan : MergePlan} (h : plan.Sound ranges incoming b t a) :
    plan.unionStart < plan.unionEnd ∧ plan.unionEnd ≤ maxWireLength := by
  obtain ⟨hs, hend⟩ := Prod.ext_iff.mp h.union_eq
  dsimp only at hs hend
  rw [hs, hend]
  constructor
  · exact (hull_fst_le _).trans_lt (hin.offset_lt_stop.trans_le (le_hull_snd _))
  · refine hull_snd_le hin.stop_le fun c hc => ?_
    obtain ⟨r, hr, rfl⟩ := mem_map.mp hc
    exact hrn.stop_le r (h.split.mem_touching hr).1

/-- The scan over the ranges of a datagram measures what the fragment does to them. -/
theorem scanRanges_spec (h : Split ranges incoming b t a) :
    scanRanges incoming ranges 0 ⟨ranges.length, 0, incoming.offset, incoming.stop, 0, 0⟩ =
      .ok ⟨b.length, t.length, h.hull.1, h.hull.2,
        (cover (intervals ranges) ∩ Ico incoming.offset incoming.stop).card,
        (Runs.conflicts (held ranges) (Runs.elemAt incoming.run) incoming.offset
          incoming.stop).card⟩ := by
  have hl : ranges.length = b.length + t.length + a.length := by
    rw [h.eq, length_append, length_append]
  have hw : maxWireLength < wordLimit := by decide
  have hle := hrn.length_le
  have hc : (Ico incoming.offset incoming.stop).card < wordLimit := by
    rw [Nat.card_Ico]
    exact lt_of_le_of_lt (sub_le _ _) (lt_of_le_of_lt hin.stop_le hw)
  have ho := h.sum_overlapOf hrn
  have hcn := h.sum_conflictOf hrn
  rw [show scanRanges incoming ranges = scanRanges incoming (b ++ (t ++ a)) by
    rw [← append_assoc, ← h.eq]]
  rw [scanRanges_before b _ 0 _ (fun r hr =>
      ⟨hrn.stop?_eq (h.mem_before hr).1, (h.mem_before hr).2⟩) (by omega),
    scanRanges_touching hin.stop_le t a _ _ (fun r hr =>
      ⟨hrn.stop?_eq (h.mem_touching hr).1, (h.mem_touching hr).2⟩),
    scanRanges_after a _ _ (fun r hr => ⟨hrn.stop?_eq (h.mem_after hr).1, (h.mem_after hr).2, ?_⟩)]
  · congr 1
    simp only [MergeScan.touched, ho, hcn, zero_add, MergeScan.mk.injEq, and_true]
    rcases eq_nil_or_concat t with ht | ⟨t', r, ht⟩
    · subst ht
      by_cases ha : a = []
      · by_cases hb : b = []
        · simp [ha, hb, hl]
        · simp [ha, hb]
      · simp [ha]
    · have htne : t ≠ [] := by
        rw [ht]
        simp
      simp [htne]
  · have := (h.mem_after hr).2
    have hne := hrn.separated.nonempty _ (mem_map_of_mem (h.mem_after hr).1)
    have := hin.offset_lt_stop
    omega
  · simp only [MergeScan.touched]
    omega
  · simp only [MergeScan.touched, ho, zero_add]
    exact lt_of_le_of_lt (card_le_card inter_subset_right) hc
  · simp only [MergeScan.touched, hcn, zero_add]
    exact lt_of_le_of_lt (card_filter_le _ _) hc

theorem planMerge_spec : (planMerge ranges incoming).Returns fun plan =>
      ∃ b t a, plan.Sound ranges incoming b t a := by
  obtain ⟨b, t, a, h⟩ := hrn.exists_split incoming
  have hl : ranges.length = b.length + t.length + a.length := by
    rw [h.eq, length_append, length_append]
  have hw : maxWireLength + 1 < wordLimit := by decide
  have hle := hrn.length_le
  have hc : (Ico incoming.offset incoming.stop).card = incoming.payload.length := by
    rw [Nat.card_Ico, Incoming.stop, Nat.add_sub_cancel_left]
  have hs : (cover (intervals ranges) ∩ Ico incoming.offset incoming.stop).card ≤
      incoming.payload.length := by
    rw [← hc]
    exact card_le_card inter_subset_right
  have ha : incoming.payload.length -
      (cover (intervals ranges) ∩ Ico incoming.offset incoming.stop).card =
        (Ico incoming.offset incoming.stop \ cover (intervals ranges)).card := by
    rw [card_sdiff, hc]
  have hcn : (checkedAdd ranges.length 1).bind (checkedSub · t.length) =
      some (b.length + 1 + a.length) := by
    rw [checkedAdd_eq_some.mpr ⟨by omega, rfl⟩, Option.bind_some]
    exact checkedSub_eq_some.mpr ⟨by omega, by omega⟩
  unfold planMerge
  rw [scanRanges_spec hrn hin h, ok_bind]
  rw [okOr_checkedSub hs, ok_bind, hcn, okOr_some, ok_bind, ha]
  exact returns_pure ⟨b, t, a, h, rfl, rfl, rfl, rfl, rfl, rfl, rfl⟩

end PacketCraftr.Ip
