import PacketCraftr.Tcp.Plan

/-!
# Committing a push to its flow

The flow part of `tcp/pending/commit.rs`. A plan is carried out on the state of its flow: the
history is trimmed, the new bytes are written into their pages or the union is taken out of them,
and what became contiguous is delivered.

The merge itself only touches the intervals and the pages of the flow, so that `applyMerge` acts
on these two.
-/

open Finset Exec Option SortedMap Intervals
open List hiding Ico disjoint_left

namespace PacketCraftr.Tcp

open TcpFlowState Pages PendingMergePlan History

variable {K : Type}

/-- Add the prepared pages to those of a flow, where they must be new. -/
def installPages (pages newPages : PageStore) : Exec Error PageStore :=
  newPages.entries.foldlM (fun pages entry => do
    assert (pages.find? entry.1 = none)
    pure (SortedMap.insert pages entry.1 entry.2)) pages

def insertPiece (payload : Bytes) (offset : ℕ) (pages : PageStore) (cursor stop : ℕ) :
    Exec Error PageStore :=
  if cursor < stop then do
    let first ← sub cursor offset
    let last ← sub stop offset
    let piece ← slice payload first last
    insert pages cursor piece
  else pure pages

/-- Store the payload bytes between the last interval and the given one. -/
def fillGap (payload : Bytes) (offset payloadEnd : ℕ) (progress : PageStore × ℕ)
    (interval : ℕ × ℕ) : Exec Error (PageStore × ℕ) := do
  let pages ← insertPiece payload offset progress.1 progress.2 (min interval.1 payloadEnd)
  pure (pages, min (max progress.2 interval.2) payloadEnd)

/-- Store the new bytes of a payload that stays pending. -/
def storePending (pending : SortedMap ℕ ℕ) (pages : PageStore) (merge : PendingMergePlan)
    (payload : Bytes) : Exec Error PageStore :=
  if merge.emittedSegmentBytes = 0 then do
    let pages ← installPages pages merge.newPages
    let payload ← slice payload merge.payloadStart payload.length
    let payloadEnd ← add merge.offset payload.length
    let (pages, cursor) ← (affectedIntervals pending merge).foldlM
      (fillGap payload merge.offset payloadEnd) (pages, merge.offset)
    insertPiece payload merge.offset pages cursor payloadEnd
  else pure pages

section

variable (merge : PendingMergePlan)

/-- Release the bytes of an interval that is delivered. -/
def releaseInterval (pages : PageStore) (start stop : ℕ) :
    Exec Error PageStore :=
  if merge.emittedSegmentBytes ≠ 0 then remove pages start stop else pure pages

/-- Remove the first interval from `first` on. -/
def removeNext (first : ℕ) (s : SortedMap ℕ ℕ × PageStore) :
    Exec Error (SortedMap ℕ ℕ × PageStore) := do
  let (start, _) ← unwrap (s.1.atLeast first).head?
  let stop ← unwrap (s.1.find? start)
  let pages ← releaseInterval merge s.2 start stop
  pure (s.1.erase start, pages)

/-- Remove the affected intervals. -/
def removeAffected (pending : SortedMap ℕ ℕ) (pages : PageStore) :
    Exec Error (SortedMap ℕ ℕ × PageStore) :=
  match merge.firstAffected with
  | some first =>
    (List.range merge.affectedSegmentCount).foldlM (fun s _ => removeNext merge first s)
      (pending, pages)
  | none => pure (pending, pages)

/-- Add the union that stays pending. -/
def insertUnion (pending : SortedMap ℕ ℕ) :
    Exec Error (SortedMap ℕ ℕ) :=
  if merge.emittedSegmentBytes = 0 then do
    assert (pending.find? merge.unionStart = none)
    pure (pending.insert merge.unionStart merge.unionEnd)
  else pure pending

end

/-- Carry out a merge on the intervals and the pages of a flow. -/
def applyMerge (pending : SortedMap ℕ ℕ) (pages : PageStore) (merge : PendingMergePlan)
    (payload : Bytes) : Exec Error (SortedMap ℕ ℕ × PageStore) :=
  if merge.addedBytes = 0 ∨ merge.directOutput then pure (pending, pages)
  else do
    let pages ← storePending pending pages merge payload
    let (pending, pages) ← removeAffected merge pending pages
    let pending ← insertUnion merge pending
    let segments ← sub merge.segmentCount (if merge.emittedSegmentBytes ≠ 0 then 1 else 0)
    assert (pending.size = segments)
    pure (pending, pages)

section

variable (state : TcpFlowState)

def applyPendingMerge (merge : PendingMergePlan) (payload : Bytes) :
    Exec Error (TcpFlowState × Option Bytes) := do
  let (pending, pages) ← applyMerge state.pending state.pages merge payload
  pure ({ state with pending, pages }, merge.output)

/-- Deliver bytes at the next expected offset. -/
def emitData (flow : K) (bytes : Bytes) (maxBytesPerFlow : ℕ) :
    Exec Error (TcpFlowState × List (Event K)) := do
  let outputStart := state.nextOffset
  let nextOffset ← unwrap (checkedAdd state.nextOffset bytes.length)
  let historyCapacity := maxBytesPerFlow - state.pendingBytes
  let state' ← appendEmittedHistory { state with nextOffset } outputStart bytes historyCapacity
  pure (state', [.data flow state.nextSequence bytes])

/-- Deliver a payload that was not pending, if there is one. -/
def emitDirect (flow : K) (direct : Option Bytes) (maxBytesPerFlow : ℕ) :
    Exec Error (TcpFlowState × List (Event K)) :=
  match direct with
  | some bytes =>
    emitData { state with pendingBytes := state.pendingBytes - bytes.length } flow bytes
      maxBytesPerFlow
  | none => pure (state, [])

/-- Deliver the union of a payload with pending intervals, if there is one. -/
def emitOutput (flow : K) (output : Option Bytes) (maxBytesPerFlow : ℕ) :
    Exec Error (TcpFlowState × List (Event K)) :=
  match output with
  | some bytes => do
    let pendingBytes ← unwrap (checkedSub state.pendingBytes bytes.length)
    emitData { state with pendingBytes } flow bytes maxBytesPerFlow
  | none => pure (state, [])

/-- The wire-sequence spans of a push that repeat held data. -/
def retransmittedRanges (plan : PushPlan) : List (UInt32 × UInt32) :=
  (if plan.retransmitted ≠ 0 then
    [(plan.payloadSequence, plan.payloadSequence + UInt32.ofNat plan.retransmitted)] else []) ++
  plan.merge.overlappingRanges.map fun range =>
    (state.baseSequence + UInt32.ofNat range.1, state.baseSequence + UInt32.ofNat range.2)

/-- The report of repeated data, if a push repeats any. -/
def retransmissionEvents (flow : K) (plan : PushPlan) : List (Event K) :=
  let retransmitted := saturatingAdd plan.retransmitted plan.merge.overlappingBytes
  let conflicting := plan.conflicting || plan.merge.hasConflictingOverlap
  if retransmitted ≠ 0 ∨ conflicting then
    [.retransmission flow plan.payloadSequence retransmitted conflicting
      (retransmittedRanges state plan)]
  else []

/-- Trim the history and merge the payload into the pending data. -/
def mergeIntoFlow (now : ℕ) (plan : PushPlan) (incomingPayload : Bytes) :
    Exec Error (TcpFlowState × Option Bytes) := do
  let state := { state with lastUpdate := max state.lastUpdate now }
  let state ← trimEmittedHistory state plan.initialHistoryCapacity
  let state := { state with emittedHistory := plan.historyReplacement.getD state.emittedHistory }
  let (state, output) ← applyPendingMerge state plan.merge incomingPayload
  pure ({ state with
    pendingBytes := plan.pendingBytes
    finOffset := state.finOffset.or plan.incomingFinOffset }, output)

/-- Carry out a plan on the state of its flow. -/
def commitFlowPush (flow : K) (now maxBytesPerFlow : ℕ) (plan : PushPlan)
    (directPayload : Option Bytes) (incomingPayload : Bytes) :
    Exec Error (TcpFlowState × List (Event K)) := do
  let repeated := retransmissionEvents state flow plan
  let (state, output) ← mergeIntoFlow state now plan incomingPayload
  let (state, direct) ← emitDirect state flow directPayload maxBytesPerFlow
  let (state, merged) ← emitOutput state flow output maxBytesPerFlow
  pure (state, repeated ++ direct ++ merged)

end

section Store

variable {limits : Limits} {state : TcpFlowState} {segment : Segment K} {o : ℕ}
  {payload : Bytes}

private theorem installPages_spec (hiv : state.Inv limits) {stop : ℕ} {n : PageStore}
    (hnew : NewPages state o stop n) :
    (installPages state.pages n).Returns fun p =>
      Covers p state.held ∧
      (∀ k, (∃ page, p.find? k = some page) ↔
        (∃ page, state.pages.find? k = some page) ∨ k ∈ pageKeys o stop) ∧
      ∀ x ∈ state.held, byteAt p x = byteAt state.pages x := by
  have hc : ∀ k, state.pages.contains k = false ↔ ¬ ∃ page, state.pages.find? k = some page := by
    intro k
    rw [← isSome_iff_exists, Bool.not_eq_true]
    rfl
  have hfr : ∀ e ∈ n.entries, state.pages.find? e.1 = none := by
    intro e he
    have hkey := (hnew.find?_iff e.1).mp ⟨e.2, find?_eq_some.mpr he⟩
    have hnot := (hc e.1).mp hkey.2
    rwa [← isSome_iff_exists, not_isSome_iff_eq_none] at hnot
  -- After some entries, the pages are the old ones and those of these entries.
  have hfl : (installPages state.pages n).Returns fun p =>
      ∀ k, p.find? k = (state.pages.find? k).or (n.find? k) := by
    refine (returns_foldlM (fun (p : PageStore) rest => ∃ done,
      done ++ rest = n.entries ∧ ∀ k, p.find? k = (state.pages.find? k).or
        ((done.find? fun e => decide (e.1 = k)).map Prod.snd)) ?_ _ _
      ⟨[], rfl, fun k => by simp⟩).mono ?_
    · rintro p e rest ⟨done, hd, hf⟩
      have he : e ∈ n.entries := hd ▸ mem_append_right _ mem_cons_self
      have hdn : done.find? (fun e' => decide (e'.1 = e.1)) = none := by
        rw [find?_eq_none]
        intro e' he'
        have hs := n.sorted
        rw [← hd] at hs
        have hlt := (pairwise_append.mp hs).2.2 e' he' e mem_cons_self
        simpa using hlt.ne
      have hn : p.find? e.1 = none := by
        rw [hf, hfr e he, hdn]
        rfl
      rw [assert_eq hn, ok_bind]
      refine ⟨_, rfl, done ++ [e], ?_, fun k => ?_⟩
      · rw [append_assoc, ← hd]
        rfl
      · rw [find?_insert, find?_append, find?_singleton]
        by_cases hk : k = e.1
        · subst hk
          rw [if_pos rfl, hfr e he, hdn]
          simp
        · rw [if_neg hk, hf, if_neg (by simpa using Ne.symm hk), or_none]
    · rintro p ⟨done, hd, hf⟩ k
      rw [append_nil] at hd
      rw [hf, hd]
      rfl
  refine hfl.mono fun p hf => ⟨⟨fun k page hk => ?_, fun x hx => ?_⟩, fun k => ?_, fun x hx => ?_⟩
  · rw [hf] at hk
    cases hold : state.pages.find? k with
    | some page' =>
      rw [hold, some_or] at hk
      cases hk
      exact hiv.pages_exact.live_eq k page hold
    | none =>
      rw [hold, none_or] at hk
      rw [hnew.live_eq k page hk, eq_comm, card_eq_zero, eq_empty_iff_forall_notMem]
      intro x hx
      obtain ⟨hxh, hxk⟩ := mem_inter.mp hx
      obtain ⟨page', hp'⟩ := hiv.pages_exact.held x hxh
      rw [mem_block.mp hxk, hold] at hp'
      cases hp'
  · obtain ⟨page, hp⟩ := hiv.pages_exact.held x hx
    exact ⟨page, by rw [hf, hp, some_or]⟩
  · rw [hf]
    cases hold : state.pages.find? k with
    | some page => simp
    | none =>
      rw [none_or, hnew.find?_iff, hc, hold]
      simp
  · obtain ⟨page, hp⟩ := hiv.pages_exact.held x hx
    rw [byteAt, byteAt, hf, hp, some_or]

/-- The pages hold the pending offsets and those of `[offset, cursor)`, with the merged bytes. -/
structure Filled (state : TcpFlowState) (offset : ℕ) (payload : Bytes) (keys : ℕ → Prop)
    (cursor : ℕ) (pages : PageStore) : Prop where
  le : offset ≤ cursor
  cursor_le : cursor ≤ offset + payload.length
  covers : Covers pages (state.held ∪ Ico offset cursor)
  keys_iff : ∀ k, (∃ page, pages.find? k = some page) ↔ keys k
  bytes : ∀ x ∈ state.held ∪ Ico offset cursor,
    byteAt pages x = state.mergedByte offset payload x

variable {keys : ℕ → Prop} (hen : o + payload.length < wordLimit)
  (hks : ∀ x ∈ Ico o (o + payload.length), keys (x / pageBytes))
include hen hks

/-- Storing a piece without pending offsets fills the pages up to its end. -/
private theorem insertPiece_spec {c stop : ℕ} {p : PageStore} (hp : Filled state o payload keys c p)
    (hs : stop ≤ o + payload.length) (hg : Disjoint state.held (Ico c stop)) :
    (insertPiece payload o p c stop).Returns (Filled state o payload keys (max c stop)) := by
  have hle := hp.le
  unfold insertPiece
  split_ifs with hlt
  · set piece := (payload.take (stop - o)).drop (c - o) with hpc
    have hl : c + piece.length = stop := by
      rw [hpc, length_drop, length_take]
      omega
    have hd : Disjoint (state.held ∪ Ico o c) (Ico c (c + piece.length)) := by
      rw [hl]
      exact disjoint_union_left.mpr ⟨hg, Ico_disjoint_Ico_consecutive _ _ _⟩
    have hh : ∀ x ∈ Ico c (c + piece.length), ∃ page, p.find? (x / pageBytes) = some page := by
      intro x hx
      rw [hl, mem_Ico] at hx
      exact (hp.keys_iff _).mpr (hks x (mem_Ico.mpr ⟨by omega, by omega⟩))
    obtain ⟨p', hp', hc, hsm, hb⟩ := insert_spec (ε := Error) (by rw [hl]; omega) hp.covers hd hh
    rw [sub_eq hle, ok_bind, sub_eq (by omega), ok_bind,
      slice_eq (by omega) (by omega), ok_bind, ← hpc, hp']
    rw [hl] at hc hb
    have hu : state.held ∪ Ico o c ∪ Ico c stop = state.held ∪ Ico o stop := by
      rw [union_assoc, Ico_union_Ico_eq_Ico hle hlt.le]
    rw [max_eq_right hlt.le]
    refine ⟨p', rfl, by omega, hs, hu ▸ hc, fun k => (hsm k).trans (hp.keys_iff k), fun x hx => ?_⟩
    rw [hb]
    split_ifs with hi
    · have hnot : x ∉ state.held := fun hxh =>
        disjoint_left.mp hg hxh (mem_Ico.mpr hi)
      rw [mergedByte_of_notMem hnot, if_pos (by omega), hpc, getElem?_drop,
        getElem?_take_of_lt (by omega)]
      congr 1
      omega
    · refine hp.bytes x ?_
      rw [mem_union, mem_Ico] at hx ⊢
      exact hx.imp_right fun hx => ⟨hx.1, by omega⟩
  · rw [max_eq_left (not_lt.mp hlt)]
    exact ⟨p, rfl, hp⟩

/-- The pending offsets from `cursor` on are those of the intervals still to be visited. -/
def Ahead (state : TcpFlowState) (stop cursor : ℕ) (rest : List (ℕ × ℕ)) : Prop :=
  ∀ x ∈ state.held, cursor ≤ x → x < stop → x ∈ cover rest

private theorem fillGap_spec {progress : PageStore × ℕ} {a : ℕ × ℕ} {rest : List (ℕ × ℕ)}
    (ha : a ∈ state.pending.entries) (hr : ∀ b ∈ rest, a.2 < b.1) (hne : a.1 < a.2)
    (hp : Filled state o payload keys progress.2 progress.1)
    (hah : Ahead state (o + payload.length) progress.2 (a :: rest)) :
    (fillGap payload o (o + payload.length) progress a).Returns fun progress' =>
      Filled state o payload keys progress'.2 progress'.1 ∧
      Ahead state (o + payload.length) progress'.2 rest := by
  obtain ⟨p, c⟩ := progress
  have hg : Disjoint state.held (Ico c (min a.1 (o + payload.length))) := by
    rw [disjoint_left]
    intro x hx hxg
    rw [mem_Ico] at hxg
    obtain ⟨b, hb, hbx, -⟩ := mem_cover.mp (hah x hx hxg.1 (by omega))
    rcases mem_cons.mp hb with rfl | hb
    · omega
    · have := hr b hb
      omega
  have hc := hp.cursor_le
  have hle := hp.le
  unfold fillGap
  refine (insertPiece_spec hen hks hp (min_le_right _ _) hg).bind fun p' hp' => ?_
  -- The offsets between the end of the piece and the new cursor belong to the interval itself.
  have hu : state.held ∪ Ico o (min (max c a.2) (o + payload.length)) =
      state.held ∪ Ico o (max c (min a.1 (o + payload.length))) := by
    refine Subset.antisymm (union_subset subset_union_left fun x hx => ?_)
      (union_subset_union_right (Ico_subset_Ico_right (by omega)))
    rw [mem_Ico] at hx
    by_cases hi : a.1 ≤ x ∧ x < a.2
    · exact mem_union_left _ (mem_held.mpr ⟨a, ha, hi⟩)
    · exact mem_union_right _ (mem_Ico.mpr ⟨hx.1, by omega⟩)
  refine ⟨_, rfl, ⟨by dsimp only; omega, min_le_right _ _, ?_, hp'.keys_iff, ?_⟩, ?_⟩
  · rw [hu]
    exact hp'.covers
  · rw [hu]
    exact hp'.bytes
  · intro x hx hxle hxlt
    dsimp only at hxle
    obtain ⟨b, hb, hbx⟩ := mem_cover.mp (hah x hx (by omega) hxlt)
    rcases mem_cons.mp hb with rfl | hb
    · omega
    · exact mem_cover.mpr ⟨b, hb, hbx⟩

private theorem fillGaps_spec {p : PageStore} (hiv : state.Inv limits)
    (hp : Filled state o payload keys o p) :
    ((state.touched o payload).foldlM (fillGap payload o (o + payload.length))
      (p, o)).Returns fun progress =>
        Filled state o payload keys progress.2 progress.1 ∧
        Ahead state (o + payload.length) progress.2 [] := by
  refine (returns_foldlM (fun progress rest =>
    Filled state o payload keys progress.2 progress.1 ∧
    Ahead state (o + payload.length) progress.2 rest ∧
    Separated rest ∧ ∀ a ∈ rest, a ∈ state.pending.entries) ?_ _ _ ?_).mono ?_
  · rintro progress a rest ⟨hp, hah, hs, hmem⟩
    refine (fillGap_spec hen hks (hmem a mem_cons_self) (fun b hb => hs.head_lt hb)
      (hs.nonempty a mem_cons_self) hp hah).mono ?_
    rintro progress' ⟨hp', hah'⟩
    exact ⟨hp', hah', hs.of_cons, fun b hb => hmem b (mem_cons_of_mem _ hb)⟩
  · refine ⟨hp, fun x hx hle hlt => ?_, hiv.separated.filter _, fun a ha => (mem_touched.mp ha).1⟩
    obtain ⟨a, ha, hax⟩ := mem_held.mp hx
    exact mem_cover.mpr ⟨a, mem_touched.mpr ⟨ha, by omega, by omega⟩, hax⟩
  · rintro progress ⟨hp, hah, -, -⟩
    exact ⟨hp, hah⟩

variable {incoming : IncomingPayload} {merge merge' : PendingMergePlan}

omit hen hks in
/-- Storing a payload that stays pending adds its offsets, with the merged bytes. -/
private theorem storePending_spec (hiv : state.Inv limits) (hf : incoming.Fits limits state segment)
    (hmr : merge.Merges state incoming.offset incoming.payload incoming.payloadStart)
    (hmt : merge.Materialized state incoming.offset incoming.payload merge')
    (ha : merge.addedBytes ≠ 0) (hz : merge.emittedSegmentBytes = 0) :
    (storePending state.pending state.pages merge' segment.payload).Returns fun p =>
      Exact p (state.held ∪ Ico incoming.offset incoming.remainingEnd) ∧
      ∀ x ∈ state.held ∪ Ico incoming.offset incoming.remainingEnd,
        byteAt p x = state.mergedByte incoming.offset incoming.payload x := by
  have hw := hf.window_lt
  have hed := hf.end_le
  have he := hf.end_eq
  have hen : incoming.offset + incoming.payload.length < wordLimit := by omega
  have hz' : merge'.emittedSegmentBytes = 0 := by rw [hmt.plan_eq, hz]
  have ho : merge'.offset = incoming.offset := by rw [hmt.plan_eq, hmr.offset_eq]
  have hs : merge'.payloadStart = incoming.payloadStart := by
    rw [hmt.plan_eq, hmr.start_eq]
  have haf : affectedIntervals state.pending merge' =
      state.touched incoming.offset incoming.payload := by
    rw [← hmr.affectedIntervals_eq hiv, hmt.plan_eq]
    rfl
  obtain ⟨p₁, hp₁, hc₁, hkeys₁, hb₁⟩ := installPages_spec hiv (hmt.newPages ha hz).1
  rw [storePending, if_pos hz', hp₁, ok_bind, hs,
    slice_eq hf.start_le le_rfl, ok_bind, take_length, ← hf.payload_eq,
    ho, add_eq hen, ok_bind, haf]
  set keys : ℕ → Prop := fun k => (∃ page, state.pages.find? k = some page) ∨
    k ∈ pageKeys incoming.offset (incoming.offset + incoming.payload.length) with hky
  have hks : ∀ x ∈ Ico incoming.offset (incoming.offset + incoming.payload.length),
      keys (x / pageBytes) := by
    intro x hx
    refine Or.inr ?_
    rw [← List.mem_toFinset, ← image_Ico]
    exact mem_image_of_mem _ hx
  have hfl : Filled state incoming.offset incoming.payload keys incoming.offset p₁ := by
    refine ⟨le_rfl, Nat.le_add_right _ _, ?_, hkeys₁, fun x hx => ?_⟩
    · rwa [Ico_self, union_empty]
    · rw [Ico_self, union_empty] at hx
      rw [hb₁ x hx, hiv.mergedByte_of_mem hx]
  refine (fillGaps_spec hen hks hiv hfl).bind ?_
  rintro ⟨p₂, c⟩ ⟨hp₂, hah⟩
  have hg : Disjoint state.held (Ico c (incoming.offset + incoming.payload.length)) := by
    rw [disjoint_left]
    intro x hx hxg
    rw [mem_Ico] at hxg
    exact notMem_empty x (hah x hx hxg.1 hxg.2)
  refine (insertPiece_spec hen hks hp₂ le_rfl hg).mono fun p₃ hp₃ => ?_
  rw [max_eq_right hp₂.cursor_le] at hp₃
  rw [he]
  refine ⟨⟨hp₃.covers, fun k page hk => ?_⟩, hp₃.bytes⟩
  rcases (hp₃.keys_iff k).mp ⟨page, hk⟩ with ⟨page', hp'⟩ | hkey
  · exact (hiv.pages_exact.nonempty k page' hp').mono (inter_subset_inter_right subset_union_left)
  · rw [← List.mem_toFinset, ← image_Ico] at hkey
    obtain ⟨x, hx, hxk⟩ := mem_image.mp hkey
    exact ⟨x, mem_inter.mpr ⟨mem_union_right _ hx, mem_block.mpr hxk⟩⟩

end Store

section Remove

variable {limits : Limits} {state : TcpFlowState} {merge : PendingMergePlan} {p₀ : PageStore}

/-- The pages while intervals are removed: they lose the bytes of what is delivered, and stay as
they are if the union stays pending. -/
def PagesDuring (merge : PendingMergePlan) (pages₀ : PageStore) (l : List (ℕ × ℕ))
    (pages : PageStore) : Prop :=
  if merge.emittedSegmentBytes ≠ 0 then
    Exact pages (cover l) ∧
      ∀ x ∈ cover l, byteAt pages x = byteAt pages₀ x
  else pages = pages₀

variable {l₁ l₂ before : List (ℕ × ℕ)} {a : ℕ × ℕ}

private theorem releaseInterval_spec {p : PageStore}
    (hs : Separated (l₁ ++ a :: l₂)) (hen : a.2 ≤ wordLimit)
    (hp : PagesDuring merge p₀ (l₁ ++ a :: l₂) p) :
    (releaseInterval merge p a.1 a.2).Returns (PagesDuring merge p₀ (l₁ ++ l₂)) := by
  unfold releaseInterval
  unfold PagesDuring at hp
  split_ifs at hp ⊢ with he
  · have hsub : Ico a.1 a.2 ⊆ cover (l₁ ++ a :: l₂) := fun x hx =>
      mem_cover.mpr ⟨a, mem_append_right _ mem_cons_self, mem_Ico.mp hx⟩
    have hne := hs.nonempty a (mem_append_right _ mem_cons_self)
    have hc : cover (l₁ ++ a :: l₂) \ Ico a.1 a.2 = cover (l₁ ++ l₂) := by
      rw [← Separated.cover_sdiff (t := [a]) hs, cover, cover, union_empty]
      rfl
    refine (remove_spec hen hne.le hp.1 hsub).mono ?_
    rintro p' ⟨hex, hb⟩
    rw [hc] at hex hb
    rw [PagesDuring, if_pos he]
    refine ⟨hex, fun x hx => (hb x hx).trans (hp.2 x ?_)⟩
    rw [← hc] at hx
    exact (mem_sdiff.mp hx).1
  · refine ⟨p, rfl, ?_⟩
    rw [PagesDuring, if_neg he]
    exact hp

private theorem removeNext_spec {rest : List (ℕ × ℕ)} {first : ℕ} {s : SortedMap ℕ ℕ × PageStore}
    (he : s.1.entries = before ++ a :: rest)
    (hs : Separated (before ++ a :: rest)) (hen : a.2 ≤ wordLimit)
    (hbf : ∀ b ∈ before, b.1 < first) (hf : first ≤ a.1)
    (hp : PagesDuring merge p₀ (before ++ a :: rest) s.2) :
    (removeNext merge first s).Returns fun s' => s'.1.entries = before ++ rest ∧
      PagesDuring merge p₀ (before ++ rest) s'.2 := by
  have hn : before.filter (fun b => decide (first ≤ b.1)) = [] :=
    filter_eq_nil_iff.mpr fun b hb => by simpa using hbf b hb
  have hh : (s.1.atLeast first).head? = some (a.1, a.2) := by
    rw [atLeast, he, List.filter_append, hn, List.nil_append,
      List.filter_cons_of_pos (by simpa using hf), List.head?_cons]
  have hfn : s.1.find? a.1 = some a.2 := find?_eq_some.mpr (by
    rw [he]
    exact mem_append_right _ mem_cons_self)
  obtain ⟨p, hr, hp'⟩ := releaseInterval_spec hs hen hp
  rw [removeNext, unwrap_eq hh, ok_bind]
  dsimp only
  rw [unwrap_eq hfn, ok_bind, hr, ok_bind]
  exact ⟨_, rfl, entries_erase he, hp'⟩

private theorem removeLoop_spec {after : List (ℕ × ℕ)} {first : ℕ}
    (hbf : ∀ b ∈ before, b.1 < first) :
    ∀ (t : List (ℕ × ℕ)) (steps : List ℕ) (s : SortedMap ℕ ℕ × PageStore),
      steps.length = t.length → s.1.entries = before ++ (t ++ after) →
      Separated (before ++ (t ++ after)) → (∀ a ∈ t, a.2 ≤ wordLimit ∧ first ≤ a.1) →
      PagesDuring merge p₀ (before ++ (t ++ after)) s.2 →
      (steps.foldlM (fun s _ => removeNext merge first s) s).Returns fun s' =>
        s'.1.entries = before ++ after ∧ PagesDuring merge p₀ (before ++ after) s'.2 := by
  intro t
  induction t with
  | nil =>
    intro steps s hl he hs ht hp
    rw [eq_nil_of_length_eq_zero hl]
    exact ⟨s, rfl, he, hp⟩
  | cons a t ih =>
    intro steps s hl he hs ht hp
    obtain ⟨i, steps', rfl⟩ := exists_cons_of_length_eq_add_one hl
    obtain ⟨hen, hf⟩ := ht a mem_cons_self
    refine (removeNext_spec he hs hen hbf hf hp).bind ?_
    rintro s' ⟨he', hp'⟩
    refine ih steps' s' (Nat.succ.inj hl) he' ?_ (fun b hb => ht b (mem_cons_of_mem _ hb)) hp'
    have hsub : (before ++ (t ++ after)).Sublist (before ++ (a :: t ++ after)) :=
      List.Sublist.append_left (sublist_cons_self _ _) _
    exact ⟨fun b hb => hs.nonempty b (hsub.subset hb), hs.apart.sublist hsub⟩

/-- Removing the affected intervals leaves those that the payload does not touch. -/
private theorem removeAffected_spec {offset ps : ℕ} {payload : Bytes}
    {merge' : PendingMergePlan} (hiv : state.Inv limits)
    (hmr : merge.Merges state offset payload ps)
    (hmt : merge.Materialized state offset payload merge')
    {p : PageStore} (hp : PagesDuring merge' p₀ state.pending.entries p) :
    (removeAffected merge' state.pending p).Returns fun s' =>
      s'.1.entries = Intervals.before offset state.pending.entries ++
        Intervals.after (offset + payload.length) state.pending.entries ∧
      PagesDuring merge' p₀ (Intervals.before offset state.pending.entries ++
        Intervals.after (offset + payload.length) state.pending.entries) s'.2 := by
  have hf : merge'.firstAffected = (state.touched offset payload).head?.map Prod.fst := by
    rw [hmt.plan_eq, hmr.first]
  have hc : merge'.affectedSegmentCount = (state.touched offset payload).length := by
    rw [hmt.plan_eq, hmr.count]
  have hsep := hiv.separated
  have hle : offset ≤ offset + payload.length := Nat.le_add_right _ _
  have hs := before_append_touching_append_after hsep hle
  rw [append_assoc] at hs
  cases hh : (state.touched offset payload).head? with
  | none =>
    have hn : touching offset (offset + payload.length) state.pending.entries = [] :=
      head?_eq_none_iff.mp hh
    rw [hn, nil_append] at hs
    rw [removeAffected, hf, hh, hs]
    exact ⟨_, rfl, rfl, hp⟩
  | some a =>
    have hmem : a ∈ state.touched offset payload := mem_of_mem_head? hh
    rw [removeAffected, hf, hh, map_some]
    refine removeLoop_spec (fun b hb => ?_) (state.touched offset payload) _ _ ?_ ?_ ?_ ?_ ?_
    · have h₁ := before_lt_touching hsep hle hb hmem
      have h₂ := hsep.nonempty b (mem_before.mp hb).1
      omega
    · rw [length_range, hc]
    · exact hs.symm
    · exact hs.symm ▸ hsep
    · intro b hb
      refine ⟨(hiv.end_lt b (mem_touched.mp hb).1).le, ?_⟩
      have hsr : (state.touched offset payload).Pairwise fun a b => a.1 < b.1 :=
        (hsep.filter _).sorted
      obtain ⟨t, ht⟩ : ∃ t, state.touched offset payload = a :: t := head?_eq_some_iff.mp hh
      rw [ht] at hb hsr
      rcases mem_cons.mp hb with rfl | hb
      · exact le_rfl
      · exact (rel_of_pairwise_cons hsr hb).le
    · exact hs.symm ▸ hp

end Remove

section Apply

variable {limits : Limits} {state : TcpFlowState} {segment : Segment K}
  {incoming : IncomingPayload} {merge merge' : PendingMergePlan}

/-- What carrying out a merge leaves: the planned offsets in separated intervals, as many as
planned, with exactly their pages and with the merged bytes. -/
structure Applied (state : TcpFlowState) (incoming : IncomingPayload) (merge : PendingMergePlan)
    (pending : SortedMap ℕ ℕ) (pages : PageStore) : Prop where
  separated : Separated pending.entries
  cover_eq : cover pending.entries = plannedHeld state incoming merge
  size_eq : pending.size = merge.finalSegments
  pages_exact : Exact pages (plannedHeld state incoming merge)
  bytes : ∀ x ∈ plannedHeld state incoming merge,
    byteAt pages x = state.mergedByte incoming.offset incoming.payload x

variable (hiv : state.Inv limits)
include hiv

private theorem applied_unchanged (hh : plannedHeld state incoming merge = state.held)
    (hs : merge.finalSegments = state.pending.size) :
    Applied state incoming merge state.pending state.pages where
  separated := hiv.separated
  cover_eq := hh.symm
  size_eq := hs.symm
  pages_exact := hh.symm ▸ hiv.pages_exact
  bytes _ hx := (hiv.mergedByte_of_mem (hh ▸ hx)).symm

/-- A payload that adds nothing lies in a single pending interval. -/
private theorem touched_of_added_eq_zero {offset ps : ℕ} {payload : Bytes}
    (hne : payload ≠ []) (hmr : merge.Merges state offset payload ps)
    (hz : merge.addedBytes = 0) :
    Ico offset (offset + payload.length) ⊆ state.held ∧
      (state.touched offset payload).length = 1 := by
  have hp := length_pos_iff.mpr hne
  have hs : Ico offset (offset + payload.length) ⊆ state.held := by
    rw [hmr.added_eq, card_eq_zero, sdiff_eq_empty_iff_subset] at hz
    exact hz
  obtain ⟨a, ha, h₁, h₂⟩ := exists_mem_of_Ico_subset_cover hiv.separated (by omega) hs
  refine ⟨hs, ?_⟩
  have hmem : a ∈ state.touched offset payload := mem_touched.mpr ⟨ha, by omega, by omega⟩
  have hall : ∀ b ∈ state.touched offset payload, b = a := by
    intro b hb
    obtain ⟨hbm, hb₁, hb₂⟩ := mem_touched.mp hb
    by_contra hba
    have := hiv.separated.apart_of_ne hbm ha hba
    omega
  have hn : (state.touched offset payload).Nodup :=
    (hiv.separated.filter _).sorted.imp fun hlt heq => hlt.ne (congrArg Prod.fst heq)
  rw [eq_replicate_of_mem hall, nodup_replicate] at hn
  have := length_pos_of_mem hmem
  omega

variable (hne : incoming.payload ≠ [])
  (hmr : merge.Merges state incoming.offset incoming.payload incoming.payloadStart)
  (hmt : merge.Materialized state incoming.offset incoming.payload merge')
include hne hmr hmt

/-- A payload that stays pending becomes one interval with those it touches. -/
private theorem applyMerge_pending (hf : incoming.Fits limits state segment)
    (ha : merge.addedBytes ≠ 0) (hz : merge.emittedSegmentBytes = 0) :
    (applyMerge state.pending state.pages merge' segment.payload).Returns fun s =>
      Applied state incoming merge s.1 s.2 := by
  have hs := hiv.separated
  have hpos := List.length_pos_iff.mpr hne
  have hsh := hmt.plan_eq
  have hd : merge.directOutput ≠ true := fun h =>
    (hmr.emitted_ne_zero_iff hne).mpr (hmr.direct.mp h).1 hz
  have hz' : merge'.emittedSegmentBytes = 0 := by rw [hsh, hz]
  have hc : ¬ (merge'.addedBytes = 0 ∨ merge'.directOutput = true) := by
    rw [hsh]
    exact not_or.mpr ⟨ha, hd⟩
  have hh : plannedHeld state incoming merge =
      state.held ∪ Ico incoming.offset incoming.remainingEnd :=
    if_neg (not_not.mpr hz)
  obtain ⟨pg₁, hp₁, hex₁, hb₁⟩ := storePending_spec hiv hf hmr hmt ha hz
  have hdn : PagesDuring merge' pg₁ state.pending.entries pg₁ := by
    rw [PagesDuring, if_neg (not_not.mpr hz')]
  obtain ⟨⟨p₂, pg₂⟩, hr, hen₂, hp₂⟩ := removeAffected_spec hiv hmr hmt hdn
  rw [PagesDuring, if_neg (not_not.mpr hz')] at hp₂
  subst hp₂
  have hu : (merge'.unionStart, merge'.unionEnd) = hull incoming.offset
      (incoming.offset + incoming.payload.length)
      (state.touched incoming.offset incoming.payload) := by
    rw [hsh]
    exact hmr.union
  have hle : incoming.offset ≤ incoming.offset + incoming.payload.length := Nat.le_add_right _ _
  -- The union starts at no key of the intervals that stay.
  have hks : ∀ e ∈ p₂.entries, e.1 ≠ merge'.unionStart := by
    intro e he
    have hst : merge'.unionStart = (hull incoming.offset (incoming.offset + incoming.payload.length)
      (state.touched incoming.offset incoming.payload)).1 := congrArg Prod.fst hu
    rw [hen₂] at he
    rcases List.mem_append.mp he with he | he
    · have h₁ := before_lt_hull hs hle he
      have h₂ := hs.nonempty e (mem_before.mp he).1
      rw [hst]
      change e.1 ≠ (hull _ _ (touching _ _ _)).1
      omega
    · have h₁ := (mem_after.mp he).2
      have h₂ : (hull incoming.offset (incoming.offset + incoming.payload.length)
        (state.touched incoming.offset incoming.payload)).1 ≤ incoming.offset :=
        hull_fst_le _
      omega
  have hn : p₂.find? merge'.unionStart = none := find?_eq_none.mpr fun v hv => hks _ hv rfl
  have hm : Separated (Intervals.merge incoming.offset
      (incoming.offset + incoming.payload.length) state.pending.entries) :=
    hs.merge (by omega)
  have hi : p₂.insert merge'.unionStart merge'.unionEnd =
      ⟨Intervals.merge incoming.offset (incoming.offset + incoming.payload.length)
        state.pending.entries, hm.sorted⟩ := by
    refine ext_entries fun e => ?_
    rw [SortedMap.mem_insert, hu, hen₂]
    change _ ↔ e ∈ Intervals.before _ _ ++ hull _ _ _ :: Intervals.after _ _
    simp only [List.mem_append, List.mem_cons]
    constructor
    · rintro (rfl | ⟨-, he | he⟩)
      · exact Or.inr (Or.inl rfl)
      · exact Or.inl he
      · exact Or.inr (Or.inr he)
    · rintro (he | rfl | he)
      · exact Or.inr ⟨hks e (hen₂ ▸ List.mem_append_left _ he), Or.inl he⟩
      · exact Or.inl rfl
      · exact Or.inr ⟨hks e (hen₂ ▸ List.mem_append_right _ he), Or.inr he⟩
  have hl := length_merge hs hle
  have hsg := hmr.segments
  have hfn : merge.finalSegments = merge.segmentCount := by
    rw [finalSegments, if_neg (not_not.mpr hz), Nat.sub_zero]
  have hsz : (p₂.insert merge'.unionStart merge'.unionEnd).size = merge.segmentCount := by
    rw [hi]
    change (Intervals.merge _ _ _).length = _
    change _ + (touching _ _ _).length = state.pending.entries.length + 1 at hsg
    omega
  rw [applyMerge, if_neg hc, hp₁, ok_bind, hr, ok_bind]
  dsimp only
  rw [insertUnion, if_pos hz', assert_eq hn, ok_bind, pure_bind,
    if_neg (not_not.mpr hz'), sub_eq (Nat.zero_le _), ok_bind,
    assert_eq (by rw [hsz, hsh]; rfl), ok_bind]
  refine ⟨_, rfl, ?_, ?_, ?_, ?_, ?_⟩
  · rw [hi]
    exact hm
  · rw [hi, hh, hf.end_eq]
    exact cover_merge hs hle
  · exact hsz.trans hfn.symm
  · exact hh ▸ hex₁
  · exact hh ▸ hb₁

/-- The union with a payload at the next expected offset is taken out of the pending data. -/
private theorem applyMerge_emitted (hd : merge.directOutput = false)
    (he : merge.emittedSegmentBytes ≠ 0) :
    (applyMerge state.pending state.pages merge' segment.payload).Returns fun s =>
      Applied state incoming merge s.1 s.2 := by
  have hs := hiv.separated
  have hsh := hmt.plan_eq
  have heq := (hmr.emitted_ne_zero_iff hne).mp he
  have ha := hmr.added_ne_zero hiv hne heq
  have he' : merge'.emittedSegmentBytes ≠ 0 := by rwa [hsh]
  have hcn : ¬ (merge'.addedBytes = 0 ∨ merge'.directOutput = true) := by
    rw [hsh]
    exact not_or.mpr ⟨ha, Bool.eq_false_iff.mp hd⟩
  have hdn : PagesDuring merge' state.pages state.pending.entries state.pages := by
    rw [PagesDuring, if_pos he']
    exact ⟨hiv.pages_exact, fun _ _ => rfl⟩
  obtain ⟨⟨pending₂, p₂⟩, hr, hen₂, hp₂⟩ := removeAffected_spec hiv hmr hmt hdn
  rw [PagesDuring, if_pos he', ← hen₂] at hp₂
  have hle : incoming.offset ≤ incoming.offset + incoming.payload.length := Nat.le_add_right _ _
  have hpr := before_append_touching_append_after hs hle
  have hsp := congrArg length hpr
  have hh : plannedHeld state incoming merge =
      state.held \ Ico merge.unionStart merge.unionEnd := if_pos he
  have hc : cover pending₂.entries = plannedHeld state incoming merge := by
    rw [append_assoc] at hpr
    rw [hh, ← sdiff_inter_self_left state.held, hmr.held_inter_union hiv, hen₂,
      ← Separated.cover_sdiff (t := state.touched incoming.offset incoming.payload) (hpr.symm ▸ hs)]
    exact congrArg (cover · \ _) hpr
  have hsg := hmr.segments
  have hf : merge.finalSegments = merge.segmentCount - 1 := by
    rw [finalSegments, if_pos he]
  have hsz : pending₂.size + 1 = merge.segmentCount := by
    change pending₂.entries.length + 1 = _
    change _ + (touching _ _ _).length = state.pending.entries.length + 1 at hsg
    rw [hen₂]
    simp only [length_append] at hsp ⊢
    omega
  have hsg' : merge'.segmentCount = merge.segmentCount := by rw [hsh]
  have hst : storePending state.pending state.pages merge' segment.payload = .ok state.pages :=
    if_neg he'
  have hu : insertUnion merge' pending₂ = .ok pending₂ := if_neg he'
  rw [applyMerge, if_neg hcn, hst, ok_bind, hr, ok_bind]
  dsimp only
  rw [hu, ok_bind, if_pos he', sub_eq (by omega), ok_bind, assert_eq (by omega), ok_bind]
  refine ⟨_, rfl, hen₂ ▸ hs.before_append_after hle, hc,
    by rw [hf]; dsimp only; omega, hc ▸ hp₂.1, fun x hx => ?_⟩
  rw [hp₂.2 x (hc ▸ hx), hiv.mergedByte_of_mem]
  rw [hh] at hx
  exact (mem_sdiff.mp hx).1

omit hne hmr hmt in
theorem applyMerge_spec (hf : incoming.Fits limits state segment)
    (hm : PlansMerge state incoming merge) (hn : incoming.payload = [] → merge' = merge)
    (hc : incoming.payload ≠ [] → merge.Materialized state incoming.offset incoming.payload
      merge') :
    (applyMerge state.pending state.pages merge' segment.payload).Returns fun s =>
      Applied state incoming merge s.1 s.2 := by
  by_cases he : incoming.payload = []
  · have hi := hm.of_nil he
    have ha : merge'.addedBytes = 0 := by
      rw [hn he, hi, initial, he]
      rfl
    rw [applyMerge, if_pos (Or.inl ha)]
    refine ⟨_, rfl, applied_unchanged hiv ?_ ?_⟩
    · rw [plannedHeld, hi, hf.end_eq, he]
      simp [initial]
    · rw [hi]
      rfl
  have hmr := hm.of_cons he
  have hmt := hc he
  have hs := hmr.segments
  by_cases ha : merge.addedBytes = 0
  · have hz : merge.emittedSegmentBytes = 0 := by
      by_contra hem
      exact hmr.added_ne_zero hiv he ((hmr.emitted_ne_zero_iff he).mp hem) ha
    obtain ⟨hsub, ht⟩ := touched_of_added_eq_zero hiv he hmr ha
    rw [hmt.unchanged (Or.inl ha), applyMerge, if_pos (Or.inl ha)]
    refine ⟨_, rfl, applied_unchanged hiv ?_ ?_⟩
    · rw [plannedHeld, if_neg (not_not.mpr hz), hf.end_eq]
      exact union_eq_left.mpr hsub
    · rw [finalSegments, if_neg (not_not.mpr hz)]
      omega
  cases hd : merge.directOutput with
  | true =>
    obtain ⟨heq, ht⟩ := hmr.direct.mp hd
    have hem := (hmr.emitted_ne_zero_iff he).mpr heq
    rw [hmt.unchanged (Or.inr hd), applyMerge, if_pos (Or.inr hd)]
    refine ⟨_, rfl, applied_unchanged hiv ?_ ?_⟩
    · rw [plannedHeld, if_pos hem, Finset.sdiff_eq_self_iff_disjoint, disjoint_iff_inter_eq_empty,
        hmr.held_inter_union hiv, ht]
      rfl
    · rw [finalSegments, if_pos hem]
      rw [ht, length_nil] at hs
      omega
  | false =>
    by_cases hz : merge.emittedSegmentBytes = 0
    · exact applyMerge_pending hiv he hmr hmt hf ha hz
    · exact applyMerge_emitted hiv he hmr hmt hd hz

end Apply

/-! ### The flow after a push -/

/-- A part of a buffer, when it is inside. -/
def checkedSlice (bytes : Bytes) (start stop : ℕ) : Option Bytes :=
  if start ≤ stop ∧ stop ≤ bytes.length then some ((bytes.take stop).drop start) else none

/-- The delivery of a push: at most one event, with the bytes from the next expected offset on. -/
def dataEvents (flow : K) (sequence : UInt32) (bytes : Bytes) : List (Event K) :=
  if bytes = [] then [] else [.data flow sequence bytes]

/-- What a push leaves of its flow: `delivered` is what it delivers. -/
structure Committed (limits : Limits) (state : TcpFlowState) (flow : K) (now : ℕ)
    (incoming : IncomingPayload) (planned : PlannedMerge) (plan : PushPlan) (delivered : Bytes)
    (state' : TcpFlowState) (events : List (Event K)) : Prop where
  inv : state'.Inv limits
  base_eq : state'.baseSequence = state.baseSequence
  lastUpdate_eq : state'.lastUpdate = max state.lastUpdate now
  deadline_eq : state'.deadline = state.deadline
  finOffset_eq : state'.finOffset = state.finOffset.or incoming.finOffset
  retained_eq : state'.pendingBytes + state'.emittedHistory.len =
    planned.pendingBytes - planned.merge.emittedSegmentBytes +
      prospectiveHistory limits state planned.pendingBytes planned.merge.emittedSegmentBytes
  charge_eq : state'.charge =
    chargeOf ((plannedHeld state incoming planned.merge).image (· / pageBytes)).card
      planned.merge.finalSegments (plannedAllocation limits state planned.pendingBytes
        planned.merge.emittedSegmentBytes) + tcpFlowStateMetadataCharge
  delivered_length : delivered.length = planned.merge.emittedSegmentBytes
  next_eq : state'.nextOffset = state.nextOffset + delivered.length
  delivered_eq : ∀ i < delivered.length, delivered[i]? =
    state.mergedByte incoming.offset incoming.payload (state.nextOffset + i)
  heldByte_eq : ∀ x, state'.nextOffset ≤ x →
    state'.heldByte x = state.mergedByte incoming.offset incoming.payload x
  history_eq : state'.emittedHistory.contents =
    (state.emittedHistory.contents ++ delivered).drop
      (state.emittedHistory.len + delivered.length - state'.emittedHistory.len)
  events_eq : events =
    retransmissionEvents state flow plan ++ dataEvents flow state.nextSequence delivered

section Commit

variable {limits : Limits} {state : TcpFlowState} {segment : Segment K}
  {incoming : IncomingPayload} {planned : PlannedMerge} {plan : PushPlan} {bytes charge : ℕ}

private theorem heldByte_of_applied {state₂ : TcpFlowState} (hiv : state.Inv limits)
    (hf : incoming.Fits limits state segment)
    (hm : PlansMerge state incoming planned.merge)
    (ha : Applied state incoming planned.merge state₂.pending state₂.pages) {x : ℕ}
    (hx : state.nextOffset + planned.merge.emittedSegmentBytes ≤ x) :
    state₂.heldByte x = state.mergedByte incoming.offset incoming.payload x := by
  have hh : state₂.held = plannedHeld state incoming planned.merge := ha.cover_eq
  by_cases hmem : x ∈ plannedHeld state incoming planned.merge
  · rw [heldByte, hh, if_pos hmem, ha.bytes x hmem]
  rw [heldByte, hh, if_neg hmem]
  unfold plannedHeld at hmem
  split_ifs at hmem with he
  · obtain ⟨heq, hs, hen⟩ := hm.of_emitted hiv he
    have hu := (hm.of_cons (hm.payload_ne_nil he)).end_le_unionEnd
    have hnot : x ∉ state.held := fun hxh =>
      hmem (mem_sdiff.mpr ⟨hxh, fun hI => by rw [mem_Ico] at hI; omega⟩)
    rw [mergedByte_of_notMem hnot, if_pos (by omega), getElem?_eq_none (by omega)]
  · rw [mem_union, not_or, mem_Ico, hf.end_eq] at hmem
    rw [mergedByte_of_notMem hmem.1]
    split_ifs with hle
    · rw [getElem?_eq_none (by omega)]
    · rfl

/-- What holds of the flow once the merge has been carried out and before the delivery. -/
structure Merged (limits : Limits) (state : TcpFlowState) (now : ℕ) (incoming : IncomingPayload)
    (planned : PlannedMerge) (state₁ : TcpFlowState) : Prop where
  base_eq : state₁.baseSequence = state.baseSequence
  next_eq : state₁.nextOffset = state.nextOffset
  lastUpdate_eq : state₁.lastUpdate = max state.lastUpdate now
  deadline_eq : state₁.deadline = state.deadline
  finOffset_eq : state₁.finOffset = state.finOffset.or incoming.finOffset
  pendingBytes_eq : state₁.pendingBytes = planned.pendingBytes
  applied : Applied state incoming planned.merge state₁.pending state₁.pages
  history_valid : state₁.emittedHistory.Valid
  history_end : state₁.historyStartOffset + state₁.emittedHistory.len = state.nextOffset
  capacity_eq : state₁.emittedHistory.capacity = planned.historyAllocation
  contents_eq : state₁.emittedHistory.contents = state.emittedHistory.contents.drop
    (state.emittedHistory.len - (limits.maxBytesPerFlow - planned.pendingBytes))

variable {now : ℕ} {state₁ : TcpFlowState}

theorem Merged.history_len (hiv : state.Inv limits)
    (h : Merged limits state now incoming planned state₁) : state₁.emittedHistory.len =
      min state.emittedHistory.len (limits.maxBytesPerFlow - planned.pendingBytes) := by
  have hl := congrArg length h.contents_eq
  rw [length_contents h.history_valid, length_drop, length_contents hiv.history_valid] at hl
  omega

theorem mergeIntoFlow_spec (now : ℕ) (hiv : state.Inv limits)
    (hpl : plan.Sound limits state bytes charge segment incoming planned) :
    (mergeIntoFlow state now plan segment.payload).Returns fun s =>
      Merged limits state now incoming planned s.1 ∧ s.2 = plan.merge.output := by
  have hn := hiv.next_lt
  have hen := hiv.history_end
  have hvl : ({ state with lastUpdate := max state.lastUpdate now } :
      TcpFlowState).emittedHistory.Valid := hiv.history_valid
  obtain ⟨s₁, ht, start, history, rfl, hv, hca, hc, hs⟩ :=
    trimEmittedHistory_spec (ε := Error) hvl (by dsimp only; omega) plan.initialHistoryCapacity
  dsimp only at hca hc hs
  obtain ⟨⟨p, pg⟩, ha, hal⟩ := applyMerge_spec hiv hpl.fits
    hpl.sound.merge hpl.merge_of_nil hpl.merge_of_cons
  have hcp : plan.initialHistoryCapacity = limits.maxBytesPerFlow - planned.pendingBytes :=
    hpl.capacity_eq.trans hpl.sound.capacity_eq
  -- The replacement, if there is one, keeps what trimming keeps.
  have hnew : (plan.historyReplacement.getD history).Valid ∧
      (plan.historyReplacement.getD history).capacity = planned.historyAllocation ∧
      (plan.historyReplacement.getD history).contents = state.emittedHistory.contents.drop
        (state.emittedHistory.len - (limits.maxBytesPerFlow - planned.pendingBytes)) := by
    cases hr : plan.historyReplacement with
    | none =>
      refine ⟨hv, hca.trans (hpl.replacement_of_none hr), ?_⟩
      rw [← hcp]
      exact hc
    | some r =>
      obtain ⟨hv', hcap', hc'⟩ := hpl.replacement_of_some r hr
      refine ⟨hv', hcap', ?_⟩
      rw [← hpl.sound.capacity_eq]
      exact hc'
  have hl : (plan.historyReplacement.getD history).len = history.len := by
    rw [← length_contents hnew.1, ← length_contents hv, hnew.2.2, hc, hcp]
  unfold mergeIntoFlow
  dsimp only
  rw [ht, ok_bind, applyPendingMerge]
  rw [ha, ok_bind]
  refine ⟨_, rfl, ?_, rfl⟩
  exact
    { base_eq := rfl
      next_eq := rfl
      lastUpdate_eq := rfl
      deadline_eq := rfl
      finOffset_eq := by rw [← hpl.finOffset_eq]
      pendingBytes_eq := hpl.pendingBytes_eq
      applied := hal
      history_valid := hnew.1
      history_end := by
        dsimp only
        omega
      capacity_eq := hnew.2.1
      contents_eq := hnew.2.2 }

section

variable {history : History} (hiv : state.Inv limits)
  (hpl : plan.Sound limits state bytes charge segment incoming planned)
  (h : Merged limits state now incoming planned state₁) (hv : history.Valid)
  (hca : history.capacity = planned.historyAllocation)
include hiv hpl h hv hca

private theorem inv_of_merged {start : ℕ}
    (hl : history.len = prospectiveHistory limits state planned.pendingBytes
      planned.merge.emittedSegmentBytes)
    (hs : start + history.len = state.nextOffset + planned.merge.emittedSegmentBytes) :
    ({ state₁ with
      nextOffset := state.nextOffset + planned.merge.emittedSegmentBytes
      pendingBytes := planned.pendingBytes - planned.merge.emittedSegmentBytes
      historyStartOffset := start
      emittedHistory := history } : TcpFlowState).Inv limits := by
  have hsn := hpl.sound
  have hm := hsn.merge
  have hf := hpl.fits
  have hc := h.applied.cover_eq
  have hmem : ∀ a ∈ state₁.pending.entries, a.1 ∈ plannedHeld state incoming planned.merge ∧
      a.2 - 1 ∈ plannedHeld state incoming planned.merge := by
    intro a ha
    have hne := h.applied.separated.nonempty a ha
    rw [← hc, mem_cover, mem_cover]
    exact ⟨⟨a, ha, le_rfl, hne⟩, a, ha, by omega, by omega⟩
  have hcr := hm.card_plannedHeld hiv hf
  exact
    { separated := h.applied.separated
      next_lt_start := fun a ha => by
        have hs := (hmem a ha).1
        dsimp only
        unfold plannedHeld at hs
        split_ifs at hs with he
        · obtain ⟨-, hu, hen⟩ := hm.of_emitted hiv he
          obtain ⟨hh, hnot⟩ := mem_sdiff.mp hs
          have hn := hiv.next_lt_of_mem hh
          have hne : a.1 ≠ planned.merge.unionEnd := fun heq =>
            (hm.of_cons (hm.payload_ne_nil he)).unionEnd_notMem_held hiv (heq ▸ hh)
          rw [mem_Ico] at hnot
          omega
        · rw [not_not.mp he, Nat.add_zero]
          rcases mem_union.mp hs with hh | hI
          · exact hiv.next_lt_of_mem hh
          · exact hm.next_lt_of_mem hf (not_not.mp he) hI
      end_lt := fun a ha => by
        have hls := (hmem a ha).2
        have hw := hf.window_lt
        have hen := hf.end_le
        have hsub : plannedHeld state incoming planned.merge ⊆
            state.held ∪ Ico incoming.offset incoming.remainingEnd := by
          unfold plannedHeld
          split_ifs
          · exact sdiff_subset.trans subset_union_left
          · exact Subset.rfl
        rcases mem_union.mp (hsub hls) with hh | hI
        · obtain ⟨b, hb, -, hlt⟩ := mem_held.mp hh
          have := hiv.end_lt b hb
          omega
        · rw [mem_Ico] at hI
          omega
      next_lt := hsn.next_lt
      pages_exact := by
        change Exact state₁.pages (cover state₁.pending.entries)
        rw [hc]
        exact h.applied.pages_exact
      pendingBytes_eq := by
        change planned.pendingBytes - planned.merge.emittedSegmentBytes =
          (cover state₁.pending.entries).card
        rw [hc, hsn.pendingBytes_eq]
        omega
      history_valid := hv
      history_end := hs
      capacity_le := by
        change history.capacity ≤ _
        rw [hca, hsn.allocation_eq]
        exact plannedAllocation_le hiv _ _
      retained_le := by
        have hle := hsn.pendingBytes_le
        have hp := min_le_right
          (saturatingAdd (min state.emittedHistory.len (limits.maxBytesPerFlow -
            planned.pendingBytes)) planned.merge.emittedSegmentBytes)
          (limits.maxBytesPerFlow - (planned.pendingBytes - planned.merge.emittedSegmentBytes))
        change _ + history.len ≤ _
        rw [hl, prospectiveHistory]
        dsimp only
        omega
      segments_le := by
        change state₁.pending.size ≤ _
        rw [h.applied.size_eq]
        exact hsn.segments_le }

/-- The delivery, by whatever history it leaves, completes the push. -/
private theorem committed_of_merged {start : ℕ} {flow : K} {delivered : Bytes}
    (hc : history.contents = (state₁.emittedHistory.contents ++ delivered).drop
      (state₁.emittedHistory.len + delivered.length - history.len))
    (hl : history.len = prospectiveHistory limits state planned.pendingBytes
      planned.merge.emittedSegmentBytes)
    (hs : start + history.len = state.nextOffset + planned.merge.emittedSegmentBytes)
    (hd : delivered.length = planned.merge.emittedSegmentBytes)
    (hb : ∀ i < delivered.length, delivered[i]? = state.mergedByte incoming.offset
      incoming.payload (state.nextOffset + i)) :
    Committed limits state flow now incoming planned plan delivered
      { state₁ with
        nextOffset := state.nextOffset + planned.merge.emittedSegmentBytes
        pendingBytes := planned.pendingBytes - planned.merge.emittedSegmentBytes
        historyStartOffset := start
        emittedHistory := history }
      (retransmissionEvents state flow plan ++ dataEvents flow state.nextSequence delivered) where
  inv := inv_of_merged hiv hpl h hv hca hl hs
  base_eq := h.base_eq
  lastUpdate_eq := h.lastUpdate_eq
  deadline_eq := h.deadline_eq
  finOffset_eq := h.finOffset_eq
  retained_eq := by
    rw [hl]
  charge_eq := by
    change chargeOf state₁.pages.size state₁.pending.size history.capacity + _ = _
    rw [h.applied.pages_exact.size_eq, h.applied.size_eq, hca, hpl.sound.allocation_eq]
  delivered_length := hd
  next_eq := by rw [hd]
  delivered_eq := hb
  heldByte_eq x hx := heldByte_of_applied hiv hpl.fits hpl.sound.merge h.applied hx
  history_eq := by
    have hk := h.history_len hiv
    have hle : history.len ≤ state₁.emittedHistory.len + delivered.length := by
      have hln := congrArg length hc
      rw [length_contents hv, length_drop, length_append, length_contents h.history_valid] at hln
      omega
    dsimp only
    rw [hc, h.contents_eq, ← drop_append_of_le_length (by
      rw [length_contents hiv.history_valid]
      omega), drop_drop]
    congr 1
    omega
  events_eq := rfl

end

private theorem emitData_spec (flow : K) {delivered : Bytes} (hiv : state.Inv limits)
    (hl : limits.maxBytesPerFlow ≤ Tcp.maxBytesPerFlow)
    (hpl : plan.Sound limits state bytes charge segment incoming planned)
    (h : Merged limits state now incoming planned state₁)
    (he : planned.merge.emittedSegmentBytes ≠ 0)
    (hd : delivered.length = planned.merge.emittedSegmentBytes)
    (hb : ∀ i < delivered.length, delivered[i]? = state.mergedByte incoming.offset
      incoming.payload (state.nextOffset + i)) :
    (emitData { state₁ with
        pendingBytes := planned.pendingBytes - planned.merge.emittedSegmentBytes } flow delivered
      limits.maxBytesPerFlow).Returns fun s =>
        Committed limits state flow now incoming planned plan delivered s.1
          (retransmissionEvents state flow plan ++ s.2) := by
  have hs := hpl.sound
  have hnx := hs.next_lt
  have hk := h.history_len hiv
  have hf := prospectiveHistory_le_plannedAllocation limits state planned.pendingBytes
    planned.merge.emittedSegmentBytes
  rw [prospectiveHistory_eq hl, ← hs.allocation_eq] at hf
  have hvl : ({ state₁ with
      pendingBytes := planned.pendingBytes - planned.merge.emittedSegmentBytes
      nextOffset := state₁.nextOffset + delivered.length } : TcpFlowState).emittedHistory.Valid :=
    h.history_valid
  obtain ⟨state', ha, start, history, rfl, hv, hca, hc, hst⟩ :=
    appendEmittedHistory_spec (ε := Error) hvl delivered state₁.nextOffset
      (limits.maxBytesPerFlow - (planned.pendingBytes - planned.merge.emittedSegmentBytes))
      (h.next_eq.trans h.history_end.symm) (by rw [h.next_eq]; omega)
      (by dsimp only; rw [hk, h.capacity_eq, hd]; exact hf)
  dsimp only at hca hc hst
  have hlen : history.len = prospectiveHistory limits state planned.pendingBytes
      planned.merge.emittedSegmentBytes := by
    have hln := congrArg length hc
    rw [length_contents hv, length_drop, length_append, length_contents h.history_valid] at hln
    rw [prospectiveHistory_eq hl, ← hk, ← hd]
    omega
  have hcm : Committed limits state flow now incoming planned plan delivered _ _ :=
    committed_of_merged hiv hpl h hv (hca.trans h.capacity_eq)
      (by rw [hc]; congr 1; rw [hlen, prospectiveHistory_eq hl, ← hk, ← hd]
          omega)
      hlen (by rw [hst, h.next_eq, hd]) hd hb
  have hne : delivered ≠ [] := by
    intro hn
    rw [hn, length_nil] at hd
    exact he hd.symm
  have hsq : ({ state₁ with
      pendingBytes := planned.pendingBytes - planned.merge.emittedSegmentBytes } :
      TcpFlowState).nextSequence = state.nextSequence := by
    rw [nextSequence, nextSequence, h.base_eq, h.next_eq]
  unfold emitData
  dsimp only
  rw [unwrap_eq (checkedAdd_eq_some.mpr ⟨by rw [h.next_eq]; omega, rfl⟩), ok_bind, ha, ok_bind, hsq]
  refine ⟨_, rfl, ?_⟩
  rw [dataEvents, if_neg hne] at hcm
  rw [h.next_eq, hd]
  exact hcm

private theorem output_of_emitted_eq_zero
    (hpl : plan.Sound limits state bytes charge segment incoming planned)
    (hz : planned.merge.emittedSegmentBytes = 0) :
    planned.merge.directOutput = false ∧ plan.merge.output = none := by
  have hm := hpl.sound.merge
  by_cases hn : incoming.payload = []
  · rw [hpl.merge_of_nil hn, hm.of_nil hn]
    exact ⟨rfl, rfl⟩
  have hmr := hm.of_cons hn
  have hmt := hpl.merge_of_cons hn
  refine ⟨Bool.eq_false_iff.mpr fun hd => ?_, ?_⟩
  · exact (hmr.emitted_ne_zero_iff hn).mpr (hmr.direct.mp hd).1 hz
  · by_cases ha : planned.merge.addedBytes = 0
    · rw [hmt.unchanged (Or.inl ha), hmr.output_eq]
    · rw [(hmt.newPages ha hz).2, hmr.output_eq]

private theorem mergedByte_of_direct (hiv : state.Inv limits)
    (hm : PlansMerge state incoming planned.merge)
    (he : planned.merge.emittedSegmentBytes ≠ 0)
    (hd : planned.merge.directOutput = true) :
    incoming.payload.length = planned.merge.emittedSegmentBytes ∧
    ∀ i < incoming.payload.length, incoming.payload[i]? =
      state.mergedByte incoming.offset incoming.payload (state.nextOffset + i) := by
  have hmr := hm.of_cons (hm.payload_ne_nil he)
  obtain ⟨heq, ht⟩ := hmr.direct.mp hd
  have hu : planned.merge.unionEnd = incoming.offset + incoming.payload.length := by
    rw [hmr.unionEnd_eq, ht]
    rfl
  have hl : incoming.payload.length = planned.merge.emittedSegmentBytes := by
    rw [hmr.emitted, if_pos heq]
    omega
  refine ⟨hl, fun i hi => ?_⟩
  have hnot : state.nextOffset + i ∉ state.held := by
    intro hmem
    have hit : state.held ∩ Ico planned.merge.unionStart planned.merge.unionEnd = ∅ := by
      rw [hmr.held_inter_union hiv, ht]
      rfl
    have hin : state.nextOffset + i ∈ Ico planned.merge.unionStart planned.merge.unionEnd := by
      rw [hmr.unionStart_eq_next hiv heq, mem_Ico]
      omega
    exact notMem_empty _ (hit ▸ mem_inter.mpr ⟨hmem, hin⟩)
  rw [mergedByte_of_notMem hnot, if_pos (by omega)]
  congr 1
  omega

theorem commitFlowPush_spec (flow : K) (now : ℕ) (hiv : state.Inv limits)
    (hlim : limits.maxBytesPerFlow ≤ Tcp.maxBytesPerFlow)
    (hpl : plan.Sound limits state bytes charge segment incoming planned) :
    (commitFlowPush state flow now limits.maxBytesPerFlow plan
      (plan.directPayload.bind fun range => checkedSlice segment.payload range.1 range.2)
      segment.payload).Returns fun s => ∃ delivered,
        Committed limits state flow now incoming planned plan delivered s.1 s.2 := by
  have hf := hpl.fits
  have hmg := hpl.sound.merge
  obtain ⟨⟨state₁, output⟩, hfl, hm, rfl⟩ := mergeIntoFlow_spec now hiv hpl
  dsimp only at hm
  have hp := hm.pendingBytes_eq
  unfold commitFlowPush
  rw [hfl, ok_bind]
  dsimp only
  by_cases hz : planned.merge.emittedSegmentBytes = 0
  · -- Nothing is delivered, and the history is what trimming left.
    obtain ⟨hd, ho⟩ := output_of_emitted_eq_zero hpl hz
    have hk := hm.history_len hiv
    have hl : state₁.emittedHistory.len = prospectiveHistory limits state planned.pendingBytes
        planned.merge.emittedSegmentBytes := by
      rw [prospectiveHistory_eq hlim, hk, hz]
      omega
    have hc : Committed limits state flow now incoming planned plan [] _ _ :=
      committed_of_merged hiv hpl hm hm.history_valid hm.capacity_eq
        (by rw [append_nil, length_nil, Nat.add_zero, Nat.sub_self, drop_zero]) hl
        (by rw [hz]; exact hm.history_end) hz.symm nofun
    rw [hpl.direct_eq, hd, ho, if_neg Bool.false_ne_true]
    refine ⟨_, rfl, [], ?_⟩
    rw [hz, Nat.add_zero, Nat.sub_zero, ← hm.next_eq, ← hp] at hc
    simpa only [append_nil, dataEvents, if_true] using hc
  have hcn := hmg.payload_ne_nil hz
  have hmr := hmg.of_cons hcn
  have hmt := hpl.merge_of_cons hcn
  cases hd : planned.merge.directOutput with
  | true =>
    obtain ⟨hl, hb⟩ := mergedByte_of_direct hiv hmg hz hd
    have ho : plan.merge.output = none := by
      rw [hmt.unchanged (Or.inr hd), hmr.output_eq]
    have hst := hf.start_le
    have hpy := congrArg length hf.payload_eq
    rw [length_drop] at hpy
    have hs : checkedSlice segment.payload incoming.payloadStart
        (incoming.payloadStart + incoming.payload.length) = some incoming.payload := by
      rw [checkedSlice, if_pos ⟨by omega, by omega⟩, take_of_length_le (by omega), ← hf.payload_eq]
    rw [hpl.direct_eq, hd, if_pos rfl, bind_some, hs, ho, emitDirect, hp, hl]
    refine (emitData_spec flow hiv hlim hpl hm hz hl hb).bind ?_
    rintro ⟨state', events⟩ hc
    refine ⟨_, rfl, incoming.payload, ?_⟩
    rw [append_nil]
    exact hc
  | false =>
    have heq := (hmg.of_emitted hiv hz).1
    obtain ⟨output, ho, hl, hb⟩ := hmt.output (hmr.added_ne_zero hiv hcn heq) hd hz
    have hcr := hmg.card_plannedHeld hiv hf
    rw [← hpl.sound.pendingBytes_eq] at hcr
    rw [hpl.direct_eq, hd, if_neg Bool.false_ne_true, ho, bind_none, emitDirect, pure_bind]
    dsimp only
    rw [emitOutput, unwrap_eq (checkedSub_eq_some.mpr ⟨by omega, rfl⟩), ok_bind, hp, hl]
    refine (emitData_spec flow hiv hlim hpl hm hz hl (hl.symm ▸ hb)).bind ?_
    rintro ⟨state', events⟩ hc
    refine ⟨_, rfl, output, ?_⟩
    rw [append_nil]
    exact hc

end Commit

end PacketCraftr.Tcp
