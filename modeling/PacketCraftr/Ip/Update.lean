import PacketCraftr.Ip.Merge

/-!
# Updating the ranges of a datagram

The second half of `ip/engine/merge.rs`: the buffer that replaces the ranges a fragment touches, and
the four ways the ranges are updated. Whichever way is taken, the updated ranges have the interval of
the fragment added, and each offset is resolved by the overlap policy.
-/

open Finset Exec Intervals
open List hiding Ico merge mem_filter
open Option hiding merge max_eq_left

namespace PacketCraftr.Ip

open Runs

/-- What the allocator grants during one push. A range is granted at least the requested bytes. -/
structure Allocator where
  headerCopy : ℕ → Bool
  range : ℕ → Option ℕ
  le_range : ∀ {requested granted}, range requested = some granted → requested ≤ granted
  datagram : ℕ → Bool
  tableSlot : Bool
  rangeSlot : Bool

inductive RangeUpdate
  | unchanged
  | append
  | prepend
  | replace (range : RetainedRange)
  deriving DecidableEq, Repr

namespace RetainedRange

/-- A range in a buffer with the given room. A buffer grows with its contents. -/
def ofBytes (start : ℕ) (bytes : Bytes) (room : ℕ) : RetainedRange :=
  ⟨start, bytes, max room bytes.length, le_max_right _ _⟩

/-- Put bytes after those of the range, into its buffer. -/
def append (r : RetainedRange) (payload : Bytes) : RetainedRange :=
  ofBytes r.start (r.bytes ++ payload) r.capacity

/-- Put bytes before those of the range, into its buffer. -/
def prepend (r : RetainedRange) (offset : ℕ) (payload : Bytes) : RetainedRange :=
  ofBytes offset (payload ++ r.bytes) r.capacity

end RetainedRange

/-! ### The replacing buffer -/

def copyInto (target : Bytes) (start : ℕ) (bytes : Bytes) : Exec Error Bytes := do
  let stop ← okOr (checkedAdd start bytes.length) offsetOverflow
  rejectIf (target.length < stop) offsetOverflow
  pure (overwriteFrom target start bytes)

/-- Copy ranges to their places in the buffer of their union. -/
def copyRanges (unionStart : ℕ) (ranges : List RetainedRange) (target : Bytes) : Exec Error Bytes :=
  ranges.foldlM (fun target retained => do
    let relative ← okOr (checkedSub retained.start unionStart) offsetOverflow
    copyInto target relative retained.bytes) target

/-- The contents of the union: the fragment is copied before the ranges or after them. -/
def fillUnion (affected : List RetainedRange) (incoming : Incoming) (unionStart : ℕ)
    (policy : OverlapPolicy) (target : Bytes) : Exec Error Bytes := do
  let incomingStart ← okOr (checkedSub incoming.offset unionStart) offsetOverflow
  if policy = .last then do
    let target ← copyRanges unionStart affected target
    copyInto target incomingStart incoming.payload
  else do
    let target ← copyInto target incomingStart incoming.payload
    copyRanges unionStart affected target

def mergeAffected (alloc : Allocator) (ranges : List RetainedRange) (incoming : Incoming)
    (plan : MergePlan) (policy : OverlapPolicy) (capacity : ℕ) : Exec Error RetainedRange := do
  let unionLength ← okOr (checkedSub plan.unionEnd plan.unionStart) offsetOverflow
  let granted ← okOr (alloc.range capacity) (.resource (.allocationFailed capacity))
  let affected := (ranges.drop plan.firstAffected).take plan.affectedCount
  let merged ← fillUnion affected incoming plan.unionStart policy
    ((List.replicate capacity 0).take unionLength)
  pure (.ofBytes plan.unionStart merged granted)

/-- Update the ranges in place. What is left of them is returned with the result, also when the
update fails. -/
def applyRangeUpdate (alloc : Allocator) (ranges : List RetainedRange) (update : RangeUpdate)
    (incoming : Incoming) (plan : MergePlan) : Exec Error Unit × List RetainedRange :=
  match update with
  | .unchanged => (.ok (), ranges)
  | .append =>
    if plan.firstAffected < ranges.length then
      (.ok (), ranges.modify plan.firstAffected (·.append incoming.payload))
    else (fail offsetOverflow, ranges)
  | .prepend =>
    if plan.firstAffected < ranges.length then
      (.ok (), ranges.modify plan.firstAffected (·.prepend incoming.offset incoming.payload))
    else (fail offsetOverflow, ranges)
  | .replace merged =>
    match checkedAdd plan.firstAffected plan.affectedCount with
    | none => (fail offsetOverflow, ranges)
    | some replacedEnd =>
      if ranges.length < replacedEnd then (fail offsetOverflow, ranges)
      else if plan.affectedCount = 0 ∧ alloc.rangeSlot = false then
        (fail (.resource (.allocationFailed rangeMetadataCharge)), ranges)
      else (.ok (), ranges.take plan.firstAffected ++ merged :: ranges.drop replacedEnd)

/-! ### The contents of the replacing buffer -/

/-- The byte an offset keeps: under `last` an incoming byte wins, otherwise a held one. -/
def OverlapPolicy.resolve (policy : OverlapPolicy) (held incoming : Option UInt8) : Option UInt8 :=
  if policy = .last then incoming.or held else held.or incoming

/-- Failures for want of a resource. -/
def IsResource (e : Error) : Prop := ∃ r, e = .resource r

section Copy

variable {t : Bytes} {u : ℕ}

theorem copyInto_eq {start : ℕ} {bytes : Bytes} (h : start + bytes.length ≤ t.length)
    (hw : t.length < wordLimit) :
    copyInto t start bytes = .ok (overwriteFrom t start bytes) := by
  unfold copyInto
  rw [okOr_checkedAdd (h.trans_lt hw), ok_bind, rejectIf_neg (not_lt.mpr h), ok_bind]
  rfl

/-- Copying a run to its place gives its bytes where it has some. -/
theorem getElem?_overwriteFrom_run {r : ℕ × Bytes} (hlow : u ≤ r.1)
    (hh : r.1 + r.2.length ≤ u + t.length) (i : ℕ) :
    (overwriteFrom t (r.1 - u) r.2)[i]? = (elemAt r (u + i)).or t[i]? := by
  rw [getElem?_overwriteFrom (by omega)]
  by_cases hi : r.1 - u ≤ i ∧ i < r.1 - u + r.2.length
  · rw [if_pos hi, elemAt, if_pos (by omega), show u + i - r.1 = i - (r.1 - u) by omega,
      getElem?_eq_getElem (by omega), some_or]
  · rw [if_neg hi, elemAt_eq_none.mpr (by omega), none_or]

/-- Copying separated ranges to their places gives the bytes they hold. -/
theorem copyRanges_spec {ranges : List RetainedRange}
    (hs : Separated (intervals ranges)) (hw : t.length < wordLimit)
    (hi : ∀ r ∈ ranges, u ≤ r.interval.1 ∧ r.interval.2 ≤ u + t.length) :
    (copyRanges u ranges t).Returns fun bytes => bytes.length = t.length ∧
      ∀ i, bytes[i]? = (held ranges (u + i)).or t[i]? := by
  induction ranges generalizing t with
  | nil => exact ⟨t, rfl, rfl, fun i => rfl⟩
  | cons r ranges ih =>
    obtain ⟨hlow, hh⟩ := hi r mem_cons_self
    change u ≤ r.start at hlow
    change r.start + r.bytes.length ≤ _ at hh
    have hl : (overwriteFrom t (r.start - u) r.bytes).length =
        t.length := length_overwriteFrom (by omega)
    unfold copyRanges at ih ⊢
    rw [foldlM_cons, okOr_checkedSub hlow, ok_bind, copyInto_eq (by omega) hw, ok_bind]
    refine (ih hs.of_cons (hl ▸ hw) fun r' hr' => ?_).mono fun bytes hb => ?_
    · rw [hl]
      exact hi r' (mem_cons_of_mem _ hr')
    · refine ⟨hb.1.trans hl, fun i => ?_⟩
      have hwr : (overwriteFrom t (r.start - u) r.bytes)[i]? = _ :=
        getElem?_overwriteFrom_run (r := r.run) hlow hh i
      rw [hb.2, hwr, held_cons, ← Option.or_assoc]
      congr 1
      rcases elemAt_or_held hs (u + i) with hn | hn
      · rw [hn, or_none, none_or]
      · rw [hn, or_none, none_or]

end Copy

/-! ### The replacing range -/

section Replace

variable {ranges b t a : List RetainedRange} {incoming : Incoming} {plan : MergePlan}

/-- A range that takes the place of those the fragment touches. -/
structure Replaces (policy : OverlapPolicy) (h : Split ranges incoming b t a)
    (merged : RetainedRange) : Prop where
  interval_eq : merged.interval = h.hull
  elemAt_eq : ∀ x, elemAt merged.run x =
    policy.resolve (held t x) (elemAt incoming.run x)

/-- The offsets of the hull are those of the fragment and of the touching ranges. -/
theorem Split.mem_hull (h : Split ranges incoming b t a) (hrn : Ranges ranges) {x : ℕ} :
    (h.hull.1 ≤ x ∧ x < h.hull.2) ↔ (elemAt incoming.run x).isSome ∨ (held t x).isSome := by
  have hI : Ico h.hull.1 h.hull.2 = _ := Ico_hull (Nat.le_add_right _ _) fun c hc => by
      obtain ⟨r, hr, rfl⟩ := mem_map.mp hc
      have hmem := h.mem_touching hr
      exact ⟨(hrn.separated.nonempty _ (mem_map_of_mem hmem.1)).le, hmem.2⟩
  rw [← mem_Ico, hI, mem_union, mem_Ico, isSome_held, isSome_elemAt]
  rfl

theorem OverlapPolicy.isSome_resolve (policy : OverlapPolicy) (old new : Option UInt8) :
    (policy.resolve old new).isSome = (new.isSome || old.isSome) := by
  unfold resolve
  split_ifs
  · exact isSome_or
  · rw [isSome_or, Bool.or_comm]

/-- What fills the union of the fragment and the ranges it touches. -/
theorem fillUnion_spec (hrn : Ranges ranges) (hic : incoming.Valid)
    (h : Split ranges incoming b t a) (policy : OverlapPolicy) {target : Bytes}
    (ht : target.length = h.hull.2 - h.hull.1) (hw : target.length < wordLimit) :
    (fillUnion t incoming h.hull.1 policy target).Returns fun bytes =>
      bytes.length = target.length ∧
        ∀ i < target.length, bytes[i]? = policy.resolve (held t (h.hull.1 + i))
          (elemAt incoming.run (h.hull.1 + i)) := by
  have hlow : h.hull.1 ≤ incoming.offset := hull_fst_le _
  have hh : incoming.stop ≤ h.hull.2 := le_hull_snd _
  have hlt := hic.offset_lt_stop
  have hst : incoming.stop = incoming.offset + incoming.payload.length := rfl
  have hs := h.separated_touching hrn
  have hin (r : RetainedRange) (hr : r ∈ t) :
      h.hull.1 ≤ r.interval.1 ∧ r.interval.2 ≤ h.hull.1 + target.length := by
    have hmem : r.interval ∈ intervals t := mem_map_of_mem hr
    have h₁ : h.hull.1 ≤ r.interval.1 := hull_fst_le_of_mem hmem
    have h₂ : r.interval.2 ≤ h.hull.2 := le_hull_snd_of_mem hmem
    omega
  -- Every offset of the union holds a byte, so the zeros of the buffer do not show.
  have hsm (i : ℕ) (hi : i < target.length) :
      (elemAt incoming.run (h.hull.1 + i)).isSome ∨ (held t (h.hull.1 + i)).isSome :=
    (h.mem_hull hrn).mp ⟨Nat.le_add_right _ _, by omega⟩
  have hwr {l : Bytes} (hl : l.length = target.length) (i : ℕ) :
      (overwriteFrom l (incoming.offset - h.hull.1) incoming.payload)[i]? =
        (elemAt incoming.run (h.hull.1 + i)).or l[i]? :=
    getElem?_overwriteFrom_run (r := incoming.run) hlow
      (by change incoming.offset + incoming.payload.length ≤ _; omega) i
  unfold fillUnion
  rw [okOr_checkedSub hlow, ok_bind]
  by_cases hp : policy = .last
  · rw [if_pos hp]
    refine (copyRanges_spec hs hw hin).bind fun bytes hb => ?_
    rw [copyInto_eq (by omega) (by omega)]
    refine ⟨_, rfl, ?_, fun i hi => ?_⟩
    · rw [length_overwriteFrom (by omega), hb.1]
    · rw [hwr hb.1, hb.2, OverlapPolicy.resolve, if_pos hp, ← Option.or_assoc]
      refine Option.or_of_isSome ?_
      simpa using hsm i hi
  · rw [if_neg hp, copyInto_eq (by omega) hw, ok_bind]
    have hlen : (overwriteFrom target (incoming.offset - h.hull.1)
        incoming.payload).length = target.length := length_overwriteFrom (by omega)
    refine (copyRanges_spec hs (hlen ▸ hw) (hlen ▸ hin)).mono fun bytes hb => ?_
    refine ⟨hb.1.trans hlen, fun i hi => ?_⟩
    rw [hb.2, hwr rfl, OverlapPolicy.resolve, if_neg hp, ← Option.or_assoc]
    refine Option.or_of_isSome ?_
    simpa [or_comm] using hsm i hi

/-- The merge into a new buffer fails only for want of memory. -/
theorem mergeAffected_spec {E : Error → Prop} (hE : ∀ n, E (.resource (.allocationFailed n)))
    (hr : Ranges ranges) (hin : incoming.Valid)
    (hp : plan.Sound ranges incoming b t a) (al : Allocator) (policy : OverlapPolicy)
    {capacity : ℕ} (hc : plan.unionEnd - plan.unionStart ≤ capacity) :
    (mergeAffected al ranges incoming plan policy capacity).Yields E fun merged =>
      Replaces policy hp.split merged ∧ al.range capacity = some merged.capacity := by
  obtain ⟨hs, hend⟩ := Prod.ext_iff.mp hp.union_eq
  dsimp only at hs hend
  obtain ⟨hlt, hend_le⟩ := hp.union_le hr hin
  have hle := hlt.le
  have ha : (ranges.drop plan.firstAffected).take plan.affectedCount = t := by
    rw [hp.first_eq, hp.count_eq, hp.split.eq, append_assoc, drop_left, take_left]
  have ht : ((replicate capacity (0 : UInt8)).take
      (plan.unionEnd - plan.unionStart)).length = plan.unionEnd - plan.unionStart := by
    rw [length_take, length_replicate, min_eq_left hc]
  have hw : maxWireLength < wordLimit := by decide
  unfold mergeAffected
  rw [okOr_checkedSub hle, ok_bind]
  refine yields_okOr_bind (fun _ => hE _) fun g hg => ?_
  rw [ha, hs]
  refine ((fillUnion_spec hr hin hp.split policy ?_ ?_).yields).bind fun bytes hb => yields_pure ?_
  · rw [← hs, ht, hs, hend]
  · rw [← hs, ht]
    omega
  · rw [← hs, ht, hs, hend] at hb
    obtain ⟨hl, hb⟩ := hb
    rw [hs, hend] at hle hc
    refine ⟨⟨Prod.ext rfl ?_, fun x => ?_⟩, ?_⟩
    · change hp.split.hull.1 + bytes.length = _
      omega
    · change elemAt (hp.split.hull.1, bytes) x = _
      by_cases hx : hp.split.hull.1 ≤ x ∧ x < hp.split.hull.2
      · have hi := hb (x - hp.split.hull.1) (by omega)
        rw [Nat.add_sub_cancel' hx.1] at hi
        rw [elemAt, if_pos hx.1]
        exact hi
      · have hn := policy.isSome_resolve (held t x) (elemAt incoming.run x)
        rw [hp.split.mem_hull hr, ← Bool.or_eq_true, ← hn, not_isSome_iff_eq_none] at hx
        rw [hx, elemAt_eq_none]
        dsimp only
        rw [← not_isSome_iff_eq_none, hn, Bool.or_eq_true, ← hp.split.mem_hull hr] at hx
        omega
    · have := al.le_range hg
      rw [hg]
      refine congrArg some (max_eq_left ?_).symm
      omega

/-! ### The updated ranges -/

/-- The fragment is merged into the ranges: its offsets are added, and each offset is resolved by
the policy. -/
structure Merged (policy : OverlapPolicy) (ranges : List RetainedRange) (incoming : Incoming)
    (ranges' : List RetainedRange) : Prop where
  intervals_eq : intervals ranges' =
    merge incoming.offset incoming.stop (intervals ranges)
  held_eq : ∀ x, held ranges' x = policy.resolve (held ranges x) (elemAt incoming.run x)

theorem OverlapPolicy.resolve_none (policy : OverlapPolicy) (old : Option UInt8) :
    policy.resolve old none = old := by
  unfold resolve
  split_ifs
  · exact none_or
  · exact or_none

/-- Without a conflict, both sides are kept. -/
theorem OverlapPolicy.resolve_eq_or (policy : OverlapPolicy) {old new : Option UInt8}
    (h : old = none ∨ new = none) :
    policy.resolve old new = old.or new ∧ policy.resolve old new = new.or old := by
  unfold resolve
  split_ifs <;> rcases h with rfl | rfl <;> simp

variable {p : OverlapPolicy} {first count added conflicting : ℕ} {r : RetainedRange}
  {up : RangeUpdate}

theorem Replaces.merged {h : Split ranges incoming b t a} {merged : RetainedRange}
    (hm : Replaces p h merged) (hr : Ranges ranges) :
    Merged p ranges incoming (b ++ merged :: a) where
  intervals_eq := by
    rw [intervals, List.map_append, List.map_cons, merge, ← h.before, ← h.touching,
      ← h.after, hm.interval_eq]
  held_eq x := by
    rw [held_append, held_cons, hm.elemAt_eq, h.held_eq]
    by_cases hx : h.hull.1 ≤ x ∧ x < h.hull.2
    · rw [h.held_before hr hx.1, h.held_after hr hx.2]
      simp only [none_or, or_none]
    · rw [h.mem_hull hr, not_or, not_isSome_iff_eq_none, not_isSome_iff_eq_none] at hx
      rw [hx.1, hx.2, p.resolve_none, p.resolve_none, or_none, none_or]

theorem updateKind_eq_unchanged :
    updateKind ranges incoming first count added conflicting = .unchanged ↔
      added = 0 ∧ conflicting = 0 := by
  unfold updateKind
  split_ifs with h₁
  · exact iff_of_true rfl h₁
  all_goals exact iff_of_false nofun h₁

theorem updateKind_eq_append
    (h : updateKind ranges incoming first count added conflicting = .append) :
    count = 1 ∧ ranges[first]?.bind RetainedRange.stop? = some incoming.offset := by
  unfold updateKind at h
  split_ifs at h with h₁ h₂
  exact ⟨h₂.1, h₂.2.2⟩

theorem updateKind_eq_prepend
    (h : updateKind ranges incoming first count added conflicting = .prepend) :
    count = 1 ∧ ranges[first]?.map RetainedRange.start = some incoming.stop := by
  unfold updateKind at h
  split_ifs at h with h₁ h₂ h₃
  exact ⟨h₃.1, h₃.2.2⟩

namespace MergePlan.Sound

theorem exists_touching (h : plan.Sound ranges incoming b t a) (hc : plan.affectedCount = 1) :
    ∃ r, t = [r] ∧ ranges[plan.firstAffected]? = some r := by
  rw [h.count_eq, length_eq_one_iff] at hc
  obtain ⟨r, rfl⟩ := hc
  refine ⟨r, rfl, ?_⟩
  rw [h.first_eq, h.split.eq, append_assoc, getElem?_append_right le_rfl, Nat.sub_self]
  rfl

theorem of_append (hrn : Ranges ranges) (h : plan.Sound ranges incoming b t a)
    (hkind : plan.kind = .append) : ∃ r, t = [r] ∧ r.interval.2 = incoming.offset := by
  rw [h.kind_eq] at hkind
  obtain ⟨hc, hs⟩ := updateKind_eq_append hkind
  obtain ⟨r, rfl, hr⟩ := h.exists_touching hc
  rw [hr, bind_some, hrn.stop?_eq (h.split.mem_touching mem_cons_self).1, some.injEq] at hs
  exact ⟨r, rfl, hs⟩

theorem of_prepend (h : plan.Sound ranges incoming b t a) (hkind : plan.kind = .prepend) :
    ∃ r, t = [r] ∧ r.interval.1 = incoming.stop := by
  rw [h.kind_eq] at hkind
  obtain ⟨hc, hs⟩ := updateKind_eq_prepend hkind
  obtain ⟨r, rfl, hr⟩ := h.exists_touching hc
  rw [hr, map_some, some.injEq] at hs
  exact ⟨r, rfl, hs⟩

theorem of_unchanged (h : plan.Sound ranges incoming b t a) (hkind : plan.kind = .unchanged) :
    Ico incoming.offset incoming.stop ⊆ cover (intervals ranges) ∧
      ∀ x b, elemAt incoming.run x = some b → held ranges x = some b := by
  rw [h.kind_eq] at hkind
  obtain ⟨ha, hcn⟩ := updateKind_eq_unchanged.mp hkind
  rw [h.added_eq, card_eq_zero, sdiff_eq_empty_iff_subset] at ha
  rw [h.conflicting_eq, card_eq_zero] at hcn
  refine ⟨ha, fun x b hx => ?_⟩
  have hmem := mem_Ico.mpr (isSome_elemAt.mp (isSome_of_eq_some hx))
  obtain ⟨c, hc⟩ := isSome_iff_exists.mp (isSome_held.mpr (ha hmem))
  by_contra hne
  have hd : x ∈ conflicts (held ranges) (elemAt incoming.run) incoming.offset incoming.stop := by
    refine mem_filter.mpr ⟨hmem, ?_⟩
    rw [hx, hc]
    rw [hc] at hne
    simpa [differ] using hne
  rw [hcn] at hd
  cases hd

end MergePlan.Sound

/-- A range extended by the fragment that starts where it ends replaces itself. -/
theorem replaces_append (p : OverlapPolicy) (h : Split ranges incoming b [r] a)
    (hend : r.interval.2 = incoming.offset) :
    Replaces p h (r.append incoming.payload) where
  interval_eq := by
    have hr : r.interval.2 = r.start + r.bytes.length := rfl
    refine Prod.ext ?_ ?_
    · change r.start = min incoming.offset r.start
      omega
    · change r.start + (r.bytes ++ incoming.payload).length = max incoming.stop r.interval.2
      rw [length_append, Incoming.stop]
      omega
  elemAt_eq x := by
    have hrun : incoming.run = (r.start + r.bytes.length, incoming.payload) :=
      Prod.ext hend.symm rfl
    rw [held_cons, show held [] x = none from rfl, or_none, hrun]
    exact (elemAt_append r.start r.bytes incoming.payload x).trans
      (p.resolve_eq_or (elemAt_or_elemAt r.start r.bytes incoming.payload x)).1.symm

/-- A range extended by the fragment that ends where it starts replaces itself. -/
theorem replaces_prepend (p : OverlapPolicy) (h : Split ranges incoming b [r] a)
    (hs : r.interval.1 = incoming.stop) :
    Replaces p h (r.prepend incoming.offset incoming.payload) where
  interval_eq := by
    have hr : r.interval.2 = r.start + r.bytes.length := rfl
    have hr' : r.interval.1 = r.start := rfl
    have hi : incoming.stop = incoming.offset + incoming.payload.length := rfl
    refine Prod.ext ?_ ?_
    · change incoming.offset = min incoming.offset r.start
      omega
    · change incoming.offset + (incoming.payload ++ r.bytes).length = max incoming.stop r.interval.2
      rw [length_append]
      omega
  elemAt_eq x := by
    have hrun : r.run = (incoming.offset + incoming.payload.length, r.bytes) := Prod.ext hs rfl
    have hd := elemAt_or_elemAt incoming.offset incoming.payload r.bytes x
    rw [held_cons, show held [] x = none from rfl, or_none, hrun]
    exact (elemAt_append incoming.offset incoming.payload r.bytes x).trans
      (p.resolve_eq_or hd.symm).2.symm

theorem merged_unchanged (p : OverlapPolicy) (hr : Ranges ranges)
    (hi : incoming.Valid) (h : plan.Sound ranges incoming b t a)
    (hkind : plan.kind = .unchanged) : Merged p ranges incoming ranges := by
  obtain ⟨hs, hh⟩ := h.of_unchanged hkind
  refine ⟨(merge_eq_self hr.separated hi.offset_lt_stop hs).symm, fun x => ?_⟩
  cases hx : elemAt incoming.run x with
  | none => exact (p.resolve_none _).symm
  | some c =>
    rw [hh x c hx, OverlapPolicy.resolve]
    split_ifs <;> rfl

/-- The updates that carry out a plan. -/
inductive CarriesOut (policy : OverlapPolicy) (h : plan.Sound ranges incoming b t a) :
    RangeUpdate → Prop
  | unchanged (hkind : plan.kind = .unchanged) : CarriesOut policy h .unchanged
  | append (hkind : plan.kind = .append) : CarriesOut policy h .append
  | prepend (hkind : plan.kind = .prepend) : CarriesOut policy h .prepend
  | replace {merged : RetainedRange} (hmerged : Replaces policy h.split merged) :
    CarriesOut policy h (.replace merged)

/-- The ranges that an update leaves. -/
def updatedRanges (ranges : List RetainedRange) (incoming : Incoming) (plan : MergePlan) :
    RangeUpdate → List RetainedRange
  | .unchanged => ranges
  | .append => ranges.modify plan.firstAffected (·.append incoming.payload)
  | .prepend => ranges.modify plan.firstAffected (·.prepend incoming.offset incoming.payload)
  | .replace merged =>
    ranges.take plan.firstAffected ++
      merged :: ranges.drop (plan.firstAffected + plan.affectedCount)

private theorem modify_append_cons {α : Type} (l m : List α) (x : α) (f : α → α) :
    (l ++ x :: m).modify l.length f = l ++ f x :: m := by
  induction l with
  | nil => rfl
  | cons y l ih => exact congrArg (cons y) ih

theorem MergePlan.Sound.modify_eq (h : plan.Sound ranges incoming b [r] a)
    (f : RetainedRange → RetainedRange) : ranges.modify plan.firstAffected f = b ++ f r :: a := by
  rw [h.first_eq, h.split.eq, append_assoc]
  exact modify_append_cons b a r f

theorem MergePlan.Sound.replace_eq (h : plan.Sound ranges incoming b t a) (merged : RetainedRange) :
    updatedRanges ranges incoming plan (.replace merged) = b ++ merged :: a := by
  rw [updatedRanges, h.first_eq, h.count_eq, h.split.eq, ← length_append, drop_left,
    append_assoc, take_left]

/-- Every update that carries out the plan merges the fragment. -/
theorem merged_updatedRanges (hr : Ranges ranges) (hi : incoming.Valid)
    (h : plan.Sound ranges incoming b t a) (hu : CarriesOut p h up) :
    Merged p ranges incoming (updatedRanges ranges incoming plan up) := by
  cases hu with
  | unchanged hkind => exact merged_unchanged p hr hi h hkind
  | append hkind =>
    obtain ⟨r, rfl, hend⟩ := h.of_append hr hkind
    rw [updatedRanges, h.modify_eq]
    exact (replaces_append p h.split hend).merged hr
  | prepend hkind =>
    obtain ⟨r, rfl, hs⟩ := h.of_prepend hkind
    rw [updatedRanges, h.modify_eq]
    exact (replaces_prepend p h.split hs).merged hr
  | replace hmerged =>
    rw [h.replace_eq]
    exact hmerged.merged hr

/-- Merging a fragment keeps what holds of the ranges of a datagram. -/
theorem Merged.ranges_of {ranges' : List RetainedRange}
    (hmerged : Merged p ranges incoming ranges') (hrn : Ranges ranges)
    (hi : incoming.Valid) : Ranges ranges' where
  separated := by
    rw [hmerged.intervals_eq]
    exact hrn.separated.merge hi.offset_lt_stop
  stop_le r hr := by
    have hb : ∀ c ∈ intervals ranges, c.2 ≤ maxWireLength := by
      intro c hc
      obtain ⟨r', hr', rfl⟩ := List.mem_map.mp hc
      exact hrn.stop_le r' hr'
    have hmem := List.mem_map_of_mem (f := RetainedRange.interval) hr
    rw [show ranges'.map RetainedRange.interval = _ from hmerged.intervals_eq, merge,
      List.mem_append, List.mem_cons] at hmem
    rcases hmem with hmem | hmem | hmem
    · exact hb _ (mem_before.mp hmem).1
    · rw [hmem]
      exact hull_snd_le hi.stop_le fun c hc =>
        hb c (mem_touching.mp hc).1
    · exact hb _ (mem_after.mp hmem).1

/-- An update that carries out the plan is applied, or fails for want of a slot and leaves the
ranges as they are. -/
theorem applyRangeUpdate_eq (hr : Ranges ranges) (al : Allocator)
    (h : plan.Sound ranges incoming b t a) (hu : CarriesOut p h up) :
    applyRangeUpdate al ranges up incoming plan = (.ok (), updatedRanges ranges incoming plan up) ∨
      applyRangeUpdate al ranges up incoming plan =
        (fail (.resource (.allocationFailed rangeMetadataCharge)), ranges) := by
  have hl : ranges.length = b.length + t.length + a.length := by
    rw [h.split.eq, length_append, length_append]
  cases hu with
  | unchanged hkind => exact Or.inl rfl
  | append hkind =>
    obtain ⟨r, rfl, -⟩ := h.of_append hr hkind
    exact Or.inl (if_pos (by rw [h.first_eq, hl, length_singleton]; omega))
  | prepend hkind =>
    obtain ⟨r, rfl, -⟩ := h.of_prepend hkind
    exact Or.inl (if_pos (by rw [h.first_eq, hl, length_singleton]; omega))
  | replace hmerged =>
    have hs : plan.firstAffected + plan.affectedCount ≤ ranges.length := by
      rw [h.first_eq, h.count_eq, hl]
      exact Nat.le_add_right _ _
    have hw : plan.firstAffected + plan.affectedCount < wordLimit :=
      (hs.trans hr.length_le).trans_lt (by decide)
    unfold applyRangeUpdate
    rw [checkedAdd_eq_some.mpr ⟨hw, rfl⟩]
    dsimp only
    rw [if_neg (not_lt.mpr hs)]
    by_cases hsl : plan.affectedCount = 0 ∧ al.rangeSlot = false
    · exact Or.inr (if_pos hsl)
    · exact Or.inl (if_neg hsl)

end Replace

end PacketCraftr.Ip
