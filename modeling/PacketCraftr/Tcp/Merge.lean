import PacketCraftr.Tcp.Incoming

/-!
# Planning a merge with the pending intervals

The second step of planning a push in `tcp/pending.rs`. The new part of a payload is merged with
the pending intervals it overlaps or is adjacent to. Held bytes win over incoming ones. If the
payload is at the next expected offset, the union is delivered at once; otherwise it becomes one
pending interval.

`PendingMergePlan.Merges` describes the plan in terms of the touching intervals
(`Intervals.touching`) and of the offsets they cover.
-/

open Finset Exec Intervals
open List hiding Ico

namespace PacketCraftr.Tcp

/-- How a payload is merged with the pending intervals. -/
structure PendingMergePlan where
  addedBytes : ℕ
  overlappingBytes : ℕ
  overlappingRanges : List (ℕ × ℕ)
  hasConflictingOverlap : Bool
  segmentCount : ℕ
  emittedSegmentBytes : ℕ
  directOutput : Bool
  firstAffected : Option ℕ
  affectedSegmentCount : ℕ
  unionStart : ℕ
  unionEnd : ℕ
  offset : ℕ
  payloadStart : ℕ
  newPages : PageStore
  output : Option Bytes

section

variable (state : TcpFlowState)

/-- The plan before any interval has been recorded. -/
def PendingMergePlan.initial (offset : ℕ) (payload : Bytes)
    (payloadStart : ℕ) : PendingMergePlan where
  addedBytes := payload.length
  overlappingBytes := 0
  overlappingRanges := []
  hasConflictingOverlap := false
  segmentCount := state.pending.size
  emittedSegmentBytes := 0
  directOutput := false
  firstAffected := none
  affectedSegmentCount := 0
  unionStart := offset
  unionEnd := offset + payload.length
  offset
  payloadStart
  newPages := .empty
  output := none

/-- Compare the payload with the held bytes of one overlap. -/
def recordOverlap (offset : ℕ) (payload : Bytes) (plan : PendingMergePlan)
    (overlapStart overlapEnd : ℕ) : Exec Unit PendingMergePlan :=
  if overlapStart < overlapEnd then do
    let length := overlapEnd - overlapStart
    let first := overlapStart - offset
    let overlappingBytes ← Exec.okOr (checkedAdd plan.overlappingBytes length) ()
    let repeated ← Exec.slice payload first (first + length)
    let same ← Pages.equals state.pages overlapStart repeated
    pure { plan with
      overlappingBytes
      overlappingRanges := plan.overlappingRanges ++ [(overlapStart, overlapEnd)]
      hasConflictingOverlap := plan.hasConflictingOverlap || !same }
  else pure plan

/-- Take one pending interval into the union, if it touches the payload. -/
def record (offset : ℕ) (payload : Bytes) (payloadEnd : ℕ)
    (plan : PendingMergePlan) (interval : ℕ × ℕ) : Exec Unit PendingMergePlan :=
  if interval.2 < offset ∨ interval.1 > payloadEnd then pure plan
  else do
    let affectedSegmentCount ← Exec.okOr (checkedAdd plan.affectedSegmentCount 1) ()
    let plan := { plan with
      firstAffected := plan.firstAffected.or (some interval.1)
      affectedSegmentCount
      unionStart := min plan.unionStart interval.1
      unionEnd := max plan.unionEnd interval.2 }
    recordOverlap state offset payload plan (max interval.1 offset) (min interval.2 payloadEnd)

/-- What a payload at the next expected offset delivers. -/
def emittedLength (offset nextOffset unionEnd : ℕ) : Exec Unit ℕ :=
  if offset = nextOffset then Exec.sub unionEnd nextOffset else pure 0

def planPendingMerge (offset : ℕ) (payload : Bytes)
    (payloadStart nextOffset : ℕ) : Exec Unit PendingMergePlan := do
  let existing := state.pending
  let payloadEnd ← Exec.okOr (checkedAdd offset payload.length) ()
  let plan := PendingMergePlan.initial state offset payload payloadStart
  if payload.isEmpty then pure plan
  else
    let plan ← (existing.lastBelow offset).toList.foldlM (record state offset payload payloadEnd) plan
    let plan ← (existing.between offset payloadEnd).foldlM (record state offset payload payloadEnd)
      plan
    let addedBytes ← Exec.okOr (checkedSub payload.length plan.overlappingBytes) ()
    let withNew ← Exec.okOr (checkedAdd existing.size 1) ()
    let segmentCount ← Exec.okOr (checkedSub withNew plan.affectedSegmentCount) ()
    let emittedSegmentBytes ← emittedLength offset nextOffset plan.unionEnd
    pure { plan with
      addedBytes
      directOutput := decide (offset = nextOffset) && plan.firstAffected.isNone
      segmentCount
      emittedSegmentBytes }

end

/-- Which allocations of a push succeed: the page of each block, the output, the history. -/
structure Allocator where
  page : ℕ → Bool
  output : Bool
  history : Bool

/-- The pages of the blocks in a list that the flow does not hold yet. -/
def allocatePages (alloc : Allocator) (state : TcpFlowState) (keys : List ℕ) :
    Exec Error PageStore :=
  keys.foldlM (fun newPages key =>
    if state.pages.contains key then pure newPages
    else do
      let page ← Page.allocate (alloc.page key)
      pure (SortedMap.insert newPages key page)) .empty

/-- Copy a pending interval into the output. -/
def copyInterval (state : TcpFlowState) (unionStart : ℕ) (output : Bytes)
    (interval : ℕ × ℕ) : Exec Error Bytes := do
  let relative ← Exec.sub interval.1 unionStart
  let length ← Exec.sub interval.2 interval.1
  let target ← Exec.slice output relative (relative + length)
  let copied ← Pages.copyOut state.pages interval.1 target
  Exec.overwrite output relative copied

/-- The affected intervals of a plan, from the first one on. -/
def affectedIntervals (pending : SortedMap ℕ ℕ) (plan : PendingMergePlan) : List (ℕ × ℕ) :=
  match plan.firstAffected with
  | some first => (pending.atLeast first).take plan.affectedSegmentCount
  | none => []

/-- The bytes of the union: those of the payload, then those of the pending intervals. -/
def mergeOutput (state : TcpFlowState) (offset : ℕ) (payload : Bytes) (plan : PendingMergePlan) :
    Exec Error Bytes := do
  let first ← Exec.sub offset plan.unionStart
  let output ← Exec.overwrite (List.replicate plan.emittedSegmentBytes 0) first payload
  (affectedIntervals state.pending plan).foldlM (copyInterval state plan.unionStart) output

/-- Allocate what a plan needs, before anything changes. -/
def materializePendingMerge (alloc : Allocator) (state : TcpFlowState) (offset : ℕ)
    (payload : Bytes) (plan : PendingMergePlan) : Exec Error PendingMergePlan :=
  if plan.addedBytes = 0 ∨ plan.directOutput then pure plan
  else if plan.emittedSegmentBytes = 0 then do
    let stop ← Exec.add offset payload.length
    let newPages ← allocatePages alloc state (Pages.pageKeys offset stop)
    pure { plan with newPages }
  else do
    Exec.rejectIf (¬ alloc.output) (.resource (.allocationFailed plan.emittedSegmentBytes))
    let output ← mergeOutput state offset payload plan
    pure { plan with output := some output }

/-! ### What a plan says -/

/-- The overlaps of `[lo, hi)` with the intervals of a list. -/
def overlaps (lo hi : ℕ) (l : List (ℕ × ℕ)) : List (ℕ × ℕ) :=
  (l.map fun a => (max a.1 lo, min a.2 hi)).filter fun r => decide (r.1 < r.2)

/-- The pending intervals that a payload touches. -/
def TcpFlowState.touched (state : TcpFlowState) (offset : ℕ) (payload : Bytes) : List (ℕ × ℕ) :=
  Intervals.touching offset (offset + payload.length) state.pending.entries

/-- The plan of a non-empty payload, over the intervals it touches. -/
structure PendingMergePlan.Merges (state : TcpFlowState) (offset : ℕ) (payload : Bytes)
    (payloadStart : ℕ) (plan : PendingMergePlan) : Prop where
  added : plan.addedBytes + plan.overlappingBytes = payload.length
  overlapping : plan.overlappingBytes =
    (state.held ∩ Ico offset (offset + payload.length)).card
  ranges : plan.overlappingRanges =
    overlaps offset (offset + payload.length) (state.touched offset payload)
  conflicting : plan.hasConflictingOverlap = true ↔ ∃ x ∈ state.held,
    offset ≤ x ∧ x < offset + payload.length ∧ Pages.byteAt state.pages x ≠ payload[x - offset]?
  segments : plan.segmentCount + (state.touched offset payload).length = state.pending.size + 1
  emitted : plan.emittedSegmentBytes =
    if offset = state.nextOffset then plan.unionEnd - state.nextOffset else 0
  direct : plan.directOutput = true ↔ offset = state.nextOffset ∧ state.touched offset payload = []
  first : plan.firstAffected = (state.touched offset payload).head?.map Prod.fst
  count : plan.affectedSegmentCount = (state.touched offset payload).length
  union : (plan.unionStart, plan.unionEnd) =
    Intervals.hull offset (offset + payload.length) (state.touched offset payload)
  offset_eq : plan.offset = offset
  start_eq : plan.payloadStart = payloadStart
  newPages_eq : plan.newPages = .empty
  output_eq : plan.output = none

section Recording

variable {limits : Limits} {state : TcpFlowState} {o : ℕ} {payload : Bytes} {ps : ℕ}

/-- A held byte of the interval differs from the payload's. -/
def Differs (state : TcpFlowState) (offset : ℕ) (payload : Bytes) (a : ℕ × ℕ) : Prop :=
  ∃ x, (a.1 ≤ x ∧ x < a.2) ∧ (offset ≤ x ∧ x < offset + payload.length) ∧
    Pages.byteAt state.pages x ≠ payload[x - offset]?

/-- The plan that has recorded the touching intervals `t`. -/
def recordedPlan (state : TcpFlowState) (offset : ℕ) (payload : Bytes) (payloadStart : ℕ)
    (t : List (ℕ × ℕ)) (conflicting : Bool) : PendingMergePlan :=
  { PendingMergePlan.initial state offset payload payloadStart with
    overlappingBytes := (t.map fun a => min a.2 (offset + payload.length) - max a.1 offset).sum
    overlappingRanges := overlaps offset (offset + payload.length) t
    hasConflictingOverlap := conflicting
    firstAffected := t.head?.map Prod.fst
    affectedSegmentCount := t.length
    unionStart := (Intervals.hull offset (offset + payload.length) t).1
    unionEnd := (Intervals.hull offset (offset + payload.length) t).2 }

/-- The plan is the one after the intervals of a list have been recorded. -/
def Recorded (state : TcpFlowState) (offset : ℕ) (payload : Bytes) (payloadStart : ℕ)
    (seen : List (ℕ × ℕ)) (plan : PendingMergePlan) : Prop :=
  ∃ conflicting, plan = recordedPlan state offset payload payloadStart
      (Intervals.touching offset (offset + payload.length) seen) conflicting ∧
    (conflicting = true ↔ ∃ a ∈ Intervals.touching offset (offset + payload.length) seen,
      Differs state offset payload a)

theorem recorded_nil (ps : ℕ) : Recorded state o payload ps []
    (PendingMergePlan.initial state o payload ps) :=
  ⟨false, rfl, by simp [touching]⟩

private theorem overlaps_append (lo hi : ℕ) (l m : List (ℕ × ℕ)) :
    overlaps lo hi (l ++ m) = overlaps lo hi l ++ overlaps lo hi m := by
  rw [overlaps, map_append, filter_append, overlaps, overlaps]

private theorem overlaps_singleton (lo hi : ℕ) (a : ℕ × ℕ) :
    overlaps lo hi [a] = if max a.1 lo < min a.2 hi then [(max a.1 lo, min a.2 hi)] else [] := by
  rw [overlaps, List.map_singleton, List.filter_singleton, Bool.cond_decide]

private theorem hull_append_singleton (lo hi : ℕ) (l : List (ℕ × ℕ)) (a : ℕ × ℕ) :
    hull lo hi (l ++ [a]) = (min (hull lo hi l).1 a.1, max (hull lo hi l).2 a.2) := by
  rw [hull, List.foldl_append, hull]
  rfl

section

variable {a : ℕ × ℕ} (hin : state.Inv limits) (ha : a ∈ state.pending.entries)
include hin ha

/-- Comparing one overlap adds its length, its range, and whether a byte of it differs. -/
private theorem recordOverlap_spec (plan : PendingMergePlan) :
    (recordOverlap state o payload plan (max a.1 o)
      (min a.2 (o + payload.length))).Ensures fun plan' => ∃ conflicting,
        plan' = { plan with
          overlappingBytes := plan.overlappingBytes + (min a.2 (o + payload.length) - max a.1 o)
          overlappingRanges := plan.overlappingRanges ++ overlaps o (o + payload.length) [a]
          hasConflictingOverlap := conflicting } ∧
        (conflicting = true ↔ plan.hasConflictingOverlap = true ∨ Differs state o payload a) := by
  unfold recordOverlap
  by_cases hlt : max a.1 o < min a.2 (o + payload.length)
  · rw [if_pos hlt]
    refine ensures_okOr_bind fun total ht => ?_
    obtain ⟨-, rfl⟩ := checkedAdd_eq_some.mp ht
    rw [slice_eq (Nat.le_add_right _ _) (by omega), ok_bind]
    set first := max a.1 o with hf
    set length := min a.2 (o + payload.length) - first with hln
    have hend := hin.end_lt a ha
    have hl : ((payload.take (first - o + length)).drop (first - o)).length = length := by
      rw [length_drop, length_take]
      omega
    have hh : ∀ x ∈ Ico first (first +
        ((payload.take (first - o + length)).drop (first - o)).length),
        ∃ page, state.pages.find? (x / pageBytes) = some page := by
      intro x hx
      rw [hl, mem_Ico] at hx
      exact hin.pages_exact.held x (TcpFlowState.mem_held.mpr ⟨a, ha, by omega, by omega⟩)
    obtain ⟨same, hs, hiff⟩ := Pages.equals_spec (ε := Unit) (by rw [hl]; omega) hh
    rw [hs, ok_bind]
    refine ensures_pure ⟨plan.hasConflictingOverlap || !same, ?_, ?_⟩
    · rw [overlaps_singleton, if_pos hlt]
    · rw [Bool.or_eq_true, Bool.not_eq_true', ← Bool.not_eq_true, hiff]
      refine or_congr_right ?_
      push Not
      constructor
      · rintro ⟨i, hi, hne⟩
        rw [hl] at hi
        rw [getElem?_drop, getElem?_take_of_lt (by omega)] at hne
        refine ⟨first + i, ⟨by omega, by omega⟩, ⟨by omega, by omega⟩, ?_⟩
        rwa [show first + i - o = first - o + i by omega]
      · rintro ⟨x, hx₁, hx₂, hne⟩
        refine ⟨x - first, by omega, ?_⟩
        rw [getElem?_drop, getElem?_take_of_lt (by omega), show first + (x - first) = x by omega,
          show first - o + (x - first) = x - o by omega]
        exact hne
  · rw [if_neg hlt]
    refine ensures_pure ⟨plan.hasConflictingOverlap, ?_, ?_⟩
    · rw [overlaps_singleton, if_neg hlt, Nat.sub_eq_zero_of_le (not_lt.mp hlt), append_nil,
        Nat.add_zero]
    · refine (or_iff_left ?_).symm
      rintro ⟨x, hx₁, hx₂, -⟩
      omega

private theorem record_spec {seen : List (ℕ × ℕ)} {plan : PendingMergePlan}
    (hp : Recorded state o payload ps seen plan) :
    (record state o payload (o + payload.length) plan a).Ensures
      (Recorded state o payload ps (seen ++ [a])) := by
  obtain ⟨conflicting, rfl, hc⟩ := hp
  set stop := o + payload.length with hst
  have hs : touching o stop (seen ++ [a]) = touching o stop seen ++ touching o stop [a] :=
    filter_append ..
  unfold record
  by_cases ho : a.2 < o ∨ a.1 > stop
  · have hsk : touching o stop [a] = [] :=
      List.filter_cons_of_neg (by simpa only [decide_eq_true_eq, not_not] using ho)
    rw [hsk, append_nil] at hs
    rw [if_pos ho]
    refine ensures_pure ⟨conflicting, ?_, ?_⟩
    · rw [← hst, hs]
    · rw [← hst, hs]
      exact hc
  · have ht : touching o stop [a] = [a] := List.filter_cons_of_pos (decide_eq_true ho)
    rw [ht] at hs
    rw [if_neg ho]
    refine ensures_okOr_bind fun count hct => ?_
    obtain ⟨-, rfl⟩ := checkedAdd_eq_some.mp hct
    refine (recordOverlap_spec hin ha _).mono ?_
    rintro _ ⟨conflicting', rfl, hc'⟩
    refine ⟨conflicting', ?_, ?_⟩
    · rw [← hst, hs, recordedPlan, recordedPlan, hull_append_singleton, overlaps_append,
        map_append, sum_append, length_append, List.head?_append, Option.map_or]
      rfl
    · rw [← hst, hs, hc']
      simp only [mem_append, List.mem_singleton, or_and_right, exists_or, exists_eq_left]
      exact or_congr_left hc

end

private theorem recordAll_spec (hin : state.Inv limits) {l seen : List (ℕ × ℕ)}
    (hl : ∀ a ∈ l, a ∈ state.pending.entries) {plan : PendingMergePlan}
    (hp : Recorded state o payload ps seen plan) :
    (l.foldlM (record state o payload (o + payload.length)) plan).Ensures
      (Recorded state o payload ps (seen ++ l)) := by
  induction l generalizing seen plan with
  | nil =>
    rw [append_nil]
    exact ensures_pure hp
  | cons a l ih =>
    rw [foldlM_cons, append_cons]
    exact (record_spec hin (hl a List.mem_cons_self) hp).bind fun plan' hp' =>
      ih (fun b hb => hl b (List.mem_cons_of_mem _ hb)) hp'

/-- A byte of a touching interval differs exactly when a held byte does. -/
private theorem exists_differs_iff : (∃ a ∈ state.touched o payload, Differs state o payload a) ↔
      ∃ x ∈ state.held, o ≤ x ∧ x < o + payload.length ∧
        Pages.byteAt state.pages x ≠ payload[x - o]? := by
  constructor
  · rintro ⟨a, ha, x, hax, hx, hne⟩
    exact ⟨x, TcpFlowState.mem_held.mpr ⟨a, (mem_touching.mp ha).1, hax⟩, hx.1, hx.2, hne⟩
  · rintro ⟨x, hx, h₁, h₂, hne⟩
    obtain ⟨a, ha, hax⟩ := TcpFlowState.mem_held.mp hx
    exact ⟨a, mem_touching.mpr ⟨ha, by omega, by omega⟩, x, hax, ⟨h₁, h₂⟩, hne⟩

/-- The plan of a payload at or after the next expected offset. -/
theorem planPendingMerge_spec (hin : state.Inv limits) :
    (planPendingMerge state o payload ps state.nextOffset).Ensures fun plan =>
      (payload = [] → plan = PendingMergePlan.initial state o payload ps) ∧
      (payload ≠ [] → plan.Merges state o payload ps) := by
  unfold planPendingMerge
  refine ensures_okOr_bind fun p hend => ?_
  obtain ⟨hen, rfl⟩ := checkedAdd_eq_some.mp hend
  by_cases he : payload = []
  · rw [if_pos (List.isEmpty_iff.mpr he)]
    exact ensures_pure ⟨fun _ => rfl, fun hne => absurd he hne⟩
  rw [if_neg (by rwa [List.isEmpty_iff])]
  have hs := hin.separated
  have hl : ∀ a ∈ (state.pending.lastBelow o).toList, a ∈ state.pending.entries :=
    fun a ha => List.mem_of_mem_filter (mem_of_getLast? (Option.mem_toList.mp ha))
  have hb : ∀ a ∈ state.pending.between o (o + payload.length),
      a ∈ state.pending.entries := fun a ha => List.mem_of_mem_filter ha
  refine (recordAll_spec hin hl (recorded_nil ps)).bind fun plan₁ hp₁ => ?_
  refine (recordAll_spec hin hb hp₁).bind fun plan₂ hp₂ => ?_
  obtain ⟨conflicting, rfl, hc⟩ := hp₂
  rw [nil_append, SortedMap.lastBelow, SortedMap.between, touching_last_append_between hs] at hc ⊢
  rw [← TcpFlowState.touched] at hc ⊢
  have ho : (recordedPlan state o payload ps (state.touched o payload)
      conflicting).overlappingBytes = (state.held ∩ Ico o (o + payload.length)).card := by
    rw [TcpFlowState.held, ← cover_touching_inter]
    exact (hs.filter _).sum_overlap o (o + payload.length)
  refine ensures_okOr_bind fun added had => ?_
  refine ensures_okOr_bind fun w hw => ?_
  refine ensures_okOr_bind fun segments hsg => ?_
  obtain ⟨hal, rfl⟩ := checkedSub_eq_some.mp had
  obtain ⟨-, rfl⟩ := checkedAdd_eq_some.mp hw
  obtain ⟨hsm, rfl⟩ := checkedSub_eq_some.mp hsg
  have hu : o + payload.length ≤ (recordedPlan state o payload ps
      (state.touched o payload) conflicting).unionEnd := le_hull_snd _
  have hem : emittedLength o state.nextOffset (recordedPlan state o payload
      ps (state.touched o payload) conflicting).unionEnd =
      .ok (if o = state.nextOffset then (recordedPlan state o payload ps
        (state.touched o payload) conflicting).unionEnd - state.nextOffset else 0) := by
    unfold emittedLength
    split_ifs with heq
    · refine sub_eq (le_trans ?_ hu)
      omega
    · rfl
  rw [hem, ok_bind]
  refine ensures_pure ⟨fun h => absurd h he, fun _ => ?_⟩
  exact
    { added := Nat.sub_add_cancel hal
      overlapping := ho
      ranges := rfl
      conflicting := hc.trans exists_differs_iff
      segments := Nat.sub_add_cancel hsm
      emitted := rfl
      direct := by
        rw [Bool.and_eq_true, decide_eq_true_eq]
        refine and_congr_right fun _ => ?_
        change (Option.map Prod.fst (state.touched o payload).head?).isNone = true ↔ _
        rw [Option.isNone_map, Option.isNone_iff_eq_none, head?_eq_none_iff]
      first := rfl
      count := rfl
      union := rfl
      offset_eq := rfl
      start_eq := rfl
      newPages_eq := rfl
      output_eq := rfl }

end Recording

/-! ### Where the union is -/

section Union

variable {limits : Limits} {state : TcpFlowState} {offset : ℕ} {payload : Bytes} {py : ℕ}
  {plan : PendingMergePlan}

/-- The byte of an offset when a payload is added: the held one wins. -/
def TcpFlowState.mergedByte (state : TcpFlowState) (offset : ℕ) (payload : Bytes) (x : ℕ) :
    Option UInt8 :=
  (state.heldByte x).or (if offset ≤ x then payload[x - offset]? else none)

theorem TcpFlowState.Inv.mergedByte_of_mem (hin : state.Inv limits) {x : ℕ} (hx : x ∈ state.held) :
    state.mergedByte offset payload x = Pages.byteAt state.pages x := by
  obtain ⟨b, hb⟩ := hin.pages_exact.exists_byteAt hx
  rw [mergedByte, heldByte, if_pos hx, hb, Option.some_or]

theorem TcpFlowState.mergedByte_of_notMem {x : ℕ} (hx : x ∉ state.held) :
    state.mergedByte offset payload x = if offset ≤ x then payload[x - offset]? else none := by
  rw [mergedByte, heldByte, if_neg hx, Option.none_or]

theorem TcpFlowState.mem_touched {a : ℕ × ℕ} : a ∈ state.touched offset payload ↔
    a ∈ state.pending.entries ∧ offset ≤ a.2 ∧ a.1 ≤ offset + payload.length :=
  mem_touching

namespace PendingMergePlan.Merges

variable (h : plan.Merges state offset payload py)

include h

theorem unionStart_eq : plan.unionStart = (hull offset (offset + payload.length)
    (state.touched offset payload)).1 := congrArg Prod.fst h.union

theorem unionEnd_eq : plan.unionEnd = (hull offset (offset + payload.length)
    (state.touched offset payload)).2 := congrArg Prod.snd h.union

theorem end_le_unionEnd : offset + payload.length ≤ plan.unionEnd := h.unionEnd_eq ▸ le_hull_snd _

theorem unionStart_le : plan.unionStart ≤ offset := h.unionStart_eq ▸ hull_fst_le _

section

variable (hin : state.Inv limits)
include hin

theorem unionEnd_lt (hend : offset + payload.length < wordLimit) : plan.unionEnd < wordLimit := by
  have hle : plan.unionEnd ≤ wordLimit - 1 := by
    rw [h.unionEnd_eq]
    exact hull_snd_le (Nat.le_sub_one_of_lt hend) fun a ha =>
      Nat.le_sub_one_of_lt (hin.end_lt a (TcpFlowState.mem_touched.mp ha).1)
  omega

/-- The union consists of the payload and of the intervals it touches. -/
theorem Ico_union : Ico plan.unionStart plan.unionEnd =
    Ico offset (offset + payload.length) ∪ cover (state.touched offset payload) := by
  rw [h.unionStart_eq, h.unionEnd_eq]
  refine Intervals.Ico_hull (Nat.le_add_right _ _) fun a ha => ?_
  obtain ⟨hmem, h₁, h₂⟩ := TcpFlowState.mem_touched.mp ha
  exact ⟨(hin.separated.nonempty a hmem).le, h₁, h₂⟩

theorem unionStart_eq_next (heq : offset = state.nextOffset) :
    plan.unionStart = state.nextOffset := by
  refine le_antisymm (heq ▸ h.unionStart_le) ?_
  rw [h.unionStart_eq]
  exact le_hull_fst heq.ge fun a ha =>
    (hin.next_lt_start a (TcpFlowState.mem_touched.mp ha).1).le

theorem affectedIntervals_eq :
    affectedIntervals state.pending plan = state.touched offset payload := by
  rw [affectedIntervals, h.first, h.count]
  cases hh : (state.touched offset payload).head? with
  | none => exact (head?_eq_none_iff.mp hh).symm
  | some a =>
    exact take_filter_touching hin.separated (Nat.le_add_right _ _) hh

/-- An interval that the payload does not touch starts beyond the union, or ends before it. -/
theorem apart_of_notMem {a : ℕ × ℕ} (ha : a ∈ state.pending.entries)
    (hnot : a ∉ state.touched offset payload) : a.2 < plan.unionStart ∨ plan.unionEnd < a.1 := by
  rw [h.unionStart_eq, h.unionEnd_eq]
  rw [TcpFlowState.mem_touched, not_and, not_and_or, not_le, not_le] at hnot
  rcases hnot ha with hlt | hlt
  · exact Or.inl (before_lt_hull hin.separated (Nat.le_add_right _ _) (mem_before.mpr ⟨ha, hlt⟩))
  · exact Or.inr (hull_lt_after hin.separated (Nat.le_add_right _ _) (mem_after.mpr ⟨ha, hlt⟩))

theorem held_inter_union : state.held ∩ Ico plan.unionStart plan.unionEnd =
      cover (state.touched offset payload) := by
  ext x
  rw [mem_inter, h.Ico_union hin, mem_union, mem_cover, TcpFlowState.mem_held]
  constructor
  · rintro ⟨⟨a, ha, hax⟩, hx⟩
    by_cases hmem : a ∈ state.touched offset payload
    · exact ⟨a, hmem, hax⟩
    · have hu : x ∈ Ico plan.unionStart plan.unionEnd := by
        rw [h.Ico_union hin, mem_union, mem_cover]
        exact hx
      have ho := h.apart_of_notMem hin ha hmem
      rw [mem_Ico] at hu
      omega
  · rintro ⟨a, ha, hax⟩
    exact ⟨⟨a, (TcpFlowState.mem_touched.mp ha).1, hax⟩, Or.inr ⟨a, ha, hax⟩⟩

theorem unionEnd_notMem_held : plan.unionEnd ∉ state.held := by
  intro hmem
  obtain ⟨a, ha, hax⟩ := TcpFlowState.mem_held.mp hmem
  have hs := h.unionStart_le
  have hend := h.end_le_unionEnd
  by_cases ht : a ∈ state.touched offset payload
  · have hle : a.2 ≤ plan.unionEnd := h.unionEnd_eq ▸ le_hull_snd_of_mem ht
    omega
  · have hap := h.apart_of_notMem hin ha ht
    omega

end

/-- A non-empty payload is delivered exactly when it is at the next expected offset. -/
theorem emitted_ne_zero_iff (hne : payload ≠ []) :
    plan.emittedSegmentBytes ≠ 0 ↔ offset = state.nextOffset := by
  have hp := length_pos_iff.mpr hne
  have hend := h.end_le_unionEnd
  rw [h.emitted]
  split_ifs with heq
  · exact iff_of_true (by omega) heq
  · exact iff_of_false (fun hne => hne rfl) heq

theorem added_eq : plan.addedBytes = (Ico offset (offset + payload.length) \ state.held).card := by
  have hc := card_sdiff_add_card_inter (Ico offset (offset + payload.length)) state.held
  rw [inter_comm, ← h.overlapping, Nat.card_Ico] at hc
  have had := h.added
  omega

/-- A payload at the next expected offset adds a byte: the one there is not held. -/
theorem added_ne_zero (hin : state.Inv limits) (hne : payload ≠ [])
    (heq : offset = state.nextOffset) : plan.addedBytes ≠ 0 := by
  rw [h.added_eq, card_ne_zero]
  have hp := length_pos_iff.mpr hne
  refine ⟨offset, mem_sdiff.mpr ⟨mem_Ico.mpr ⟨le_rfl, by omega⟩, fun hmem => ?_⟩⟩
  exact absurd (hin.next_lt_of_mem hmem) (by omega)

end PendingMergePlan.Merges

/-! ### Allocating what the plan needs -/

/-- The new pages are empty, and they are those of the blocks of the payload that the flow does
not hold. -/
structure NewPages (state : TcpFlowState) (offset stop : ℕ) (pages : PageStore) : Prop where
  live_eq : ∀ k page, pages.find? k = some page → page.live = 0
  find?_iff : ∀ k, (∃ page, pages.find? k = some page) ↔
    k ∈ Pages.pageKeys offset stop ∧ state.pages.contains k = false

private theorem allocatePages_spec (al : Allocator) (state : TcpFlowState) (offset stop : ℕ) :
    (allocatePages al state (Pages.pageKeys offset stop)).Ensures (NewPages state offset stop) := by
  refine (ensures_foldlM (fun p rest => (∀ k page, p.find? k = some page →
    page.live = 0) ∧ ∃ done, done ++ rest = Pages.pageKeys offset stop ∧
      ∀ k, (∃ page, p.find? k = some page) ↔ k ∈ done ∧ state.pages.contains k = false) ?_ _ _
    ⟨nofun, [], rfl, fun k => by simp⟩).mono ?_
  · rintro p key rest ⟨hl, done, hd, hiff⟩
    have hd' : done ++ [key] ++ rest = Pages.pageKeys offset stop := by
      rw [append_assoc, ← hd]
      rfl
    cases hk : state.pages.contains key with
    | true =>
      rw [if_pos rfl]
      refine ensures_pure ⟨hl, done ++ [key], hd', fun k => ?_⟩
      rw [hiff, mem_append, List.mem_singleton]
      constructor
      · rintro ⟨hmem, hnot⟩
        exact ⟨Or.inl hmem, hnot⟩
      · rintro ⟨hmem | rfl, hnot⟩
        · exact ⟨hmem, hnot⟩
        · rw [hk] at hnot
          cases hnot
    | false =>
      rw [if_neg Bool.false_ne_true]
      refine Exec.EnsuresUnless.bind (P := fun page => page.live = 0) ?_ fun page hp => ?_
      · unfold Page.allocate
        split_ifs
        · exact ensures_pure rfl
        · exact ensures_fail _ _ _
      refine ensures_pure ⟨fun k page' hk' => ?_, done ++ [key], hd', fun k => ?_⟩
      · rw [SortedMap.find?_insert] at hk'
        split_ifs at hk'
        · cases hk'
          exact hp
        · exact hl k page' hk'
      · rw [SortedMap.find?_insert, mem_append, List.mem_singleton]
        split_ifs with heq
        · subst heq
          exact iff_of_true ⟨page, rfl⟩ ⟨Or.inr rfl, hk⟩
        · rw [hiff]
          simp only [heq, or_false]
  · rintro p ⟨hl, done, hd, hiff⟩
    rw [append_nil] at hd
    exact ⟨hl, hd ▸ hiff⟩

private theorem copyInterval_spec (hin : state.Inv limits) {o : Bytes} {us : ℕ}
    {a : ℕ × ℕ} (ha : a ∈ state.pending.entries) (hs : us ≤ a.1)
    (hr : a.2 - us ≤ o.length) :
    (copyInterval state us o a).Returns fun o' =>
      o'.length = o.length ∧ ∀ i, o'[i]? = if a.1 ≤ us + i ∧ us + i < a.2 then
          Pages.byteAt state.pages (us + i) else o[i]? := by
  have hne := hin.separated.nonempty a ha
  have hend := hin.end_lt a ha
  have hsum : a.1 - us + (a.2 - a.1) ≤ o.length := by omega
  set target := (o.take (a.1 - us + (a.2 - a.1))).drop (a.1 - us) with ht
  have hl : target.length = a.2 - a.1 := by
    rw [ht, length_drop, length_take]
    omega
  have hh : ∀ x ∈ Ico a.1 (a.1 + target.length),
      ∃ page, state.pages.find? (x / pageBytes) = some page := by
    intro x hx
    rw [hl, mem_Ico] at hx
    exact hin.pages_exact.held x (TcpFlowState.mem_held.mpr ⟨a, ha, by omega, by omega⟩)
  obtain ⟨c, hc, hcd, hb⟩ := Pages.copyOut_spec (ε := Error) (by rw [hl]; omega) hh
  have hr' : a.1 - us + c.length ≤ o.length := by omega
  rw [copyInterval, sub_eq hs, ok_bind, sub_eq hne.le, ok_bind,
    slice_eq (Nat.le_add_right _ _) hsum, ok_bind, ← ht, hc, ok_bind,
    overwrite_eq hr']
  refine ⟨_, rfl, length_overwriteFrom hr', fun i => ?_⟩
  rw [getElem?_overwriteFrom hr']
  by_cases hi : a.1 ≤ us + i ∧ us + i < a.2
  · rw [if_pos hi, if_pos (by omega), hb _ (by omega)]
    congr 1
    omega
  · rw [if_neg hi, if_neg (by omega)]

/-- The output of a plan at the next expected offset consists of the merged bytes. -/
private theorem mergeOutput_spec (hin : state.Inv limits)
    (heq : offset = state.nextOffset) (h : plan.Merges state offset payload py) :
    (mergeOutput state offset payload plan).Returns fun o =>
      o.length = plan.emittedSegmentBytes ∧ ∀ i < plan.emittedSegmentBytes,
        o[i]? = state.mergedByte offset payload (state.nextOffset + i) := by
  have hs := h.unionStart_eq_next hin heq
  have hend := h.end_le_unionEnd
  have hem : plan.emittedSegmentBytes = plan.unionEnd - state.nextOffset := by
    rw [h.emitted, if_pos heq]
  have hr : 0 + payload.length ≤ (List.replicate plan.emittedSegmentBytes (0 : UInt8)).length := by
    rw [length_replicate]
    omega
  rw [mergeOutput, hs, sub_eq heq.ge, ok_bind, heq, Nat.sub_self,
    overwrite_eq hr, ok_bind, h.affectedIntervals_eq hin]
  refine (returns_foldlM (fun o rest => o.length = plan.emittedSegmentBytes ∧
    ∃ done, done ++ rest = state.touched offset payload ∧ ∀ i, o[i]? =
      if state.nextOffset + i ∈ cover done then
        Pages.byteAt state.pages (state.nextOffset + i)
      else (overwriteFrom (List.replicate plan.emittedSegmentBytes 0) 0 payload)[i]?)
    ?_ _ _ ⟨?_, [], rfl, fun i => ?_⟩).mono ?_
  · rintro o a rest ⟨hl, done, hd, hb⟩
    have hmem : a ∈ state.touched offset payload := hd ▸ mem_append_right _ List.mem_cons_self
    have hle : a.2 ≤ plan.unionEnd := h.unionEnd_eq ▸ le_hull_snd_of_mem hmem
    have he := (TcpFlowState.mem_touched.mp hmem).1
    have hn := hin.next_lt_start a he
    refine (copyInterval_spec hin he hn.le (by omega)).mono ?_
    rintro o' ⟨hl', hb'⟩
    refine ⟨hl'.trans hl, done ++ [a], ?_, fun i => ?_⟩
    · rw [append_assoc, ← hd]
      rfl
    · rw [hb', hb, cover_append]
      simp only [mem_union, cover, union_empty, mem_Ico]
      by_cases ha : a.1 ≤ state.nextOffset + i ∧ state.nextOffset + i < a.2
      · rw [if_pos ha, if_pos (Or.inr ha)]
      · simp only [ha, or_false, if_false]
  · rw [length_overwriteFrom hr, length_replicate]
  · rw [cover, if_neg (notMem_empty _)]
  · rintro o ⟨hl, done, hd, hb⟩
    rw [append_nil] at hd
    subst hd
    refine ⟨hl, fun i hi => ?_⟩
    have hu : state.nextOffset + i ∈ Ico plan.unionStart plan.unionEnd :=
      mem_Ico.mpr ⟨by omega, by omega⟩
    rw [hb]
    by_cases hmem : state.nextOffset + i ∈ cover (state.touched offset payload)
    · have hh : state.nextOffset + i ∈ state.held := by
        rw [← h.held_inter_union hin] at hmem
        exact (mem_inter.mp hmem).1
      rw [if_pos hmem, hin.mergedByte_of_mem hh]
    · have hnot : state.nextOffset + i ∉ state.held := fun hh => hmem (by
        rw [← h.held_inter_union hin]
        exact mem_inter.mpr ⟨hh, hu⟩)
      have hp : i < payload.length := by
        rw [h.Ico_union hin, mem_union, mem_Ico] at hu
        rcases hu with hu | hu
        · omega
        · exact absurd hu hmem
      rw [if_neg hmem, TcpFlowState.mergedByte_of_notMem hnot, if_pos (by omega),
        getElem?_overwriteFrom hr, if_pos ⟨Nat.zero_le _, by omega⟩]
      congr 1
      omega

/-- What a plan has allocated: new pages for a payload that stays pending, or the output. -/
structure PendingMergePlan.Materialized (state : TcpFlowState) (offset : ℕ) (payload : Bytes)
    (plan plan' : PendingMergePlan) : Prop where
  plan_eq : plan' = { plan with newPages := plan'.newPages, output := plan'.output }
  unchanged : plan.addedBytes = 0 ∨ plan.directOutput = true → plan' = plan
  newPages : plan.addedBytes ≠ 0 → plan.emittedSegmentBytes = 0 →
    NewPages state offset (offset + payload.length) plan'.newPages ∧ plan'.output = plan.output
  output : plan.addedBytes ≠ 0 → plan.directOutput = false → plan.emittedSegmentBytes ≠ 0 →
    ∃ bytes, plan'.output = some bytes ∧ bytes.length = plan.emittedSegmentBytes ∧
      ∀ i < plan.emittedSegmentBytes,
        bytes[i]? = state.mergedByte offset payload (state.nextOffset + i)

theorem materializePendingMerge_spec (al : Allocator) (hin : state.Inv limits)
    (hend : offset + payload.length < wordLimit) (hne : payload ≠ [])
    (h : plan.Merges state offset payload py) :
    (materializePendingMerge al state offset payload plan).Ensures
      (plan.Materialized state offset payload) := by
  unfold materializePendingMerge
  split_ifs with hk hzr
  · refine ensures_pure ⟨rfl, fun _ => rfl, fun had hzr => ?_, fun had hd => ?_⟩
    · have heq := (h.direct.mp (hk.resolve_left had)).1
      exact absurd hzr ((h.emitted_ne_zero_iff hne).mpr heq)
    · rw [hk.resolve_left had] at hd
      cases hd
  · rw [add_eq hend, ok_bind]
    refine (allocatePages_spec al state offset _).bind fun p hp => ?_
    exact ensures_pure ⟨rfl, fun h => absurd h hk, fun _ _ => ⟨hp, rfl⟩,
      fun _ _ hne => absurd hzr hne⟩
  · have heq := (h.emitted_ne_zero_iff hne).mp hzr
    refine ensures_rejectIf_bind fun _ => ?_
    obtain ⟨o, ho, hl, hb⟩ := mergeOutput_spec hin heq h
    rw [ho, ok_bind]
    exact ensures_pure ⟨rfl, fun h => absurd h hk, fun _ hz => absurd hz hzr,
      fun _ _ _ => ⟨o, rfl, hl, hb⟩⟩

end Union

end PacketCraftr.Tcp
