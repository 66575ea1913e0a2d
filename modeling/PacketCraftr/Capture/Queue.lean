import Mathlib.Data.List.Induction
import PacketCraftr.Foundation.Eviction
import PacketCraftr.Foundation.Outcome
import PacketCraftr.Foundation.Word

/-!
# The queue of a live capture

The bounded queue of `capture/live/queue.rs`. A frame that does not fit is refused, or the oldest
frames make room for it, and the counters record both. Every run keeps the counters equal to what
became of the frames. The locks, and the drops that the native receiver reports, are left out.
-/

open List
open Eviction (weightOf weightOf_cons weightOf_append)

namespace PacketCraftr.CaptureQueue

inductive OverflowPolicy
  | fail
  | dropNewest
  | dropOldest
  deriving DecidableEq

structure Limits where
  maxFrames : ℕ
  maxBytes : ℕ
  overflowPolicy : OverflowPolicy
  frames_lt : maxFrames < wordLimit
  bytes_lt : maxBytes < wordLimit

inductive Error
  | captureQueueOverflow (droppedFrames droppedBytes overflowEvents : ℕ)
  | invalidCaptureStatistics (message : String)
  deriving DecidableEq

structure Stats where
  receivedFrames : ℕ := 0
  receivedBytes : ℕ := 0
  droppedFrames : ℕ := 0
  droppedBytes : ℕ := 0
  overflowEvents : ℕ := 0

def increment (counter value : ℕ) (label : String) : Except Error ℕ :=
  .okOr (checkedAdd counter value)
    (.invalidCaptureStatistics s!"native capture {label} counter overflowed")

def Stats.recordOverflow (st : Stats) (frames bytes : ℕ) : Except Error Stats := do
  let overflowEvents ← increment st.overflowEvents 1 "overflow events"
  let droppedFrames ← increment st.droppedFrames frames "dropped frames"
  let droppedBytes ← increment st.droppedBytes bytes "dropped bytes"
  return { st with overflowEvents, droppedFrames, droppedBytes }

/-- The counters with some more frames that were dropped at once. -/
def Stats.dropping (st : Stats) (frames bytes : ℕ) : Stats := { st with
  droppedFrames := st.droppedFrames + frames
  droppedBytes := st.droppedBytes + bytes
  overflowEvents := st.overflowEvents + 1 }

/-- The counters with one more frame that was received. -/
def Stats.receiving (st : Stats) (bytes : ℕ) : Stats := { st with
  receivedFrames := st.receivedFrames + 1
  receivedBytes := st.receivedBytes + bytes }

def Stats.recordReceived (st : Stats) (bytes : ℕ) : Except Error Stats := do
  let receivedFrames ← increment st.receivedFrames 1 "received frames"
  let receivedBytes ← increment st.receivedBytes bytes "received bytes"
  return { st with receivedFrames, receivedBytes }

/-- The counters, under the names that the errors have for them. -/
def Stats.counters (st : Stats) : List (String × ℕ) :=
  [("received frames", st.receivedFrames), ("received bytes", st.receivedBytes),
    ("dropped frames", st.droppedFrames), ("dropped bytes", st.droppedBytes),
    ("overflow events", st.overflowEvents)]

/-- Every counter is a machine word. -/
def Stats.Counted (st : Stats) : Prop := ∀ counter ∈ st.counters, counter.2 < wordLimit

/-- The error names a counter that is no machine word. -/
def Stats.Overflows (st : Stats) (e : Error) : Prop :=
  ∃ label n, (label, n) ∈ st.counters ∧ wordLimit ≤ n ∧
    e = .invalidCaptureStatistics s!"native capture {label} counter overflowed"

def queuedBytesUnderflow : String := "native capture queue byte accounting underflowed"

structure Eviction where
  frames : ℕ := 0
  bytes : ℕ := 0
  retainedBytes : ℕ

structure State (C : Type) where
  queue : List C := []
  queuedBytes : ℕ := 0
  statistics : Stats := {}

/-- A captured frame, of which the queue reads the length. -/
class Captured (C : Type) where
  size : C → ℕ

open Captured (size)

/-- The answer to a frame. A success also says what became of the frames: those that were dropped
from the queue, or nothing if the new one was refused. -/
abbrev Answer (C : Type) : Type := Except Error (Option (List C))

variable {C : Type} [Captured C]

def State.popFront (s : State C) : State C × Except Error (Option C) :=
  match s.queue with
  | [] => (s, .ok none)
  | front :: rest =>
    match checkedSub s.queuedBytes (size front) with
    | none => (s, .error (.invalidCaptureStatistics queuedBytesUnderflow))
    | some queuedBytes => ({ s with queue := rest, queuedBytes }, .ok (some front))

namespace Limits

variable (l : Limits)

def admits (frames queuedBytes frameBytes : ℕ) : Bool :=
  frames < l.maxFrames && (checkedAdd queuedBytes frameBytes).any (· ≤ l.maxBytes)

/-- The loop of the plan, with the number of frames that stay. -/
def planLoop (frameBytes : ℕ) : List C → ℕ → Eviction → Except Error (ℕ × Eviction)
  | [], retainedFrames, e => .ok (retainedFrames, e)
  | dropped :: queue, retainedFrames, e =>
    if l.admits retainedFrames e.retainedBytes frameBytes then .ok (retainedFrames, e) else do
      let retainedBytes ← .okOr (checkedSub e.retainedBytes (size dropped))
        (.invalidCaptureStatistics queuedBytesUnderflow)
      let bytes ← .okOr (checkedAdd e.bytes (size dropped))
        (.invalidCaptureStatistics "native capture dropped-byte accounting overflowed")
      planLoop frameBytes queue (retainedFrames - 1)
        ⟨saturatingAdd e.frames 1, bytes, retainedBytes⟩

def planEviction (s : State C) (frameBytes : ℕ) : Except Error (Option Eviction) := do
  let (retainedFrames, e) ←
    l.planLoop frameBytes s.queue s.queue.length { retainedBytes := s.queuedBytes }
  return if l.admits retainedFrames e.retainedBytes frameBytes then some e else none

/-- Drop the frames of the plan and store the new one. -/
def store (s : State C) (captured : C) (e : Eviction) (statistics : Stats) :
    Except Error (State C × Answer C) := do
  let queuedBytes ← .okOr (checkedAdd e.retainedBytes (size captured))
    (.invalidCaptureStatistics "native capture queue byte accounting overflowed")
  let statistics ← statistics.recordReceived (size captured)
  return (⟨s.queue.drop e.frames ++ [captured], queuedBytes, statistics⟩,
    .ok (some (s.queue.take e.frames)))

/-- Count a frame that is not stored. -/
def refuse (s : State C) (captured : C) (answer : Stats → Answer C) :
    Except Error (State C × Answer C) := do
  let statistics ← s.statistics.recordOverflow 1 (size captured)
  return ({ s with statistics }, answer statistics)

/-- What is done with a frame, unless the accounting fails. -/
def take (s : State C) (captured : C) : Except Error (State C × Answer C) :=
  if l.admits s.queue.length s.queuedBytes (size captured) then
    store s captured { retainedBytes := s.queuedBytes } s.statistics
  else match l.overflowPolicy with
    | .fail => refuse s captured fun st =>
        .error (.captureQueueOverflow st.droppedFrames st.droppedBytes st.overflowEvents)
    | .dropNewest => refuse s captured fun _ => .ok none
    | .dropOldest => do
      match ← l.planEviction s (size captured) with
      | none => refuse s captured fun _ => .ok none
      | some e =>
        let statistics ← s.statistics.recordOverflow e.frames e.bytes
        store s captured e statistics

def enqueue (s : State C) (captured : C) : State C × Answer C :=
  match l.take s captured with
  | .ok r => r
  | .error e => (s, .error e)

/-! ### Runs -/

inductive Op (C : Type)
  | enqueue (captured : C)
  | pop

/-- What became of the frames: those that were stored, in their order of arrival, those that left
the queue, in the order in which they did, and those that never entered it. -/
structure History (C : Type) where
  stored : List C := []
  left : List C := []
  popped : List C := []
  evicted : List C := []
  refused : List C := []

def History.enqueue (h : History C) (c : C) : Answer C → History C
  | .ok (some evicted) => { h with
      stored := h.stored ++ [c], left := h.left ++ evicted, evicted := h.evicted ++ evicted }
  | .ok none | .error (.captureQueueOverflow ..) => { h with refused := h.refused ++ [c] }
  | .error (.invalidCaptureStatistics _) => h

def History.pop (h : History C) : Except Error (Option C) → History C
  | .ok (some c) => { h with left := h.left ++ [c], popped := h.popped ++ [c] }
  | _ => h

def step (s : State C) (h : History C) : Op C → State C × History C
  | .enqueue c => let r := l.enqueue s c; (r.1, h.enqueue c r.2)
  | .pop => let r := s.popFront; (r.1, h.pop r.2)

def run (ops : List (Op C)) : State C × History C :=
  ops.foldl (fun (s, h) op => l.step s h op) ({}, {})

/-! ### The invariant -/

/-- A queue has room for a frame. -/
def Fits (queue : List C) (c : C) : Prop :=
  queue.length < l.maxFrames ∧ weightOf size queue + size c ≤ l.maxBytes

/-- The queue is within its limits, and its bytes and the counters are right. -/
structure Within (s : State C) : Prop where
  counted : s.statistics.Counted
  bytes_eq : s.queuedBytes = weightOf size s.queue
  frames_le : s.queue.length ≤ l.maxFrames
  bytes_le : weightOf size s.queue ≤ l.maxBytes

/-- What the counters and the limits say of a run. -/
structure Accounts (s : State C) (h : History C) : Prop extends l.Within s where
  fifo : h.stored = h.left ++ s.queue
  popped_sublist : h.popped.Sublist h.left
  counters : s.statistics.receivedFrames = h.popped.length + s.queue.length + h.evicted.length ∧
    s.statistics.receivedBytes =
      weightOf size h.popped + weightOf size s.queue + weightOf size h.evicted ∧
    s.statistics.droppedFrames = h.evicted.length + h.refused.length ∧
    s.statistics.droppedBytes = weightOf size h.evicted + weightOf size h.refused

/-- Dropping the first `k` frames, and no fewer, makes room for a new one. -/
structure Makes (queue : List C) (c : C) (k : ℕ) : Prop where
  le_length : k ≤ queue.length
  fits : l.Fits (queue.drop k) c
  shortest : ∀ j < k, ¬ l.Fits (queue.drop j) c
  policy : k ≠ 0 → l.overflowPolicy = .dropOldest

/-- There is no room for a new frame, and none can be made. -/
def Full (queue : List C) (c : C) : Prop :=
  ¬ l.Fits queue c ∧ (l.overflowPolicy = .dropOldest → ∀ j, ¬ l.Fits (queue.drop j) c)

/-- The counters after the first `k` frames were dropped. -/
def State.dropped (s : State C) (k : ℕ) : Stats :=
  if k = 0 then s.statistics else s.statistics.dropping k (weightOf size (s.queue.take k))

/-- The answer to a frame that is refused, with the counters after it. -/
def refusal (st : Stats) : Answer C :=
  if l.overflowPolicy = .fail then
    .error (.captureQueueOverflow st.droppedFrames st.droppedBytes st.overflowEvents)
  else .ok none

/-- What becomes of a frame that the counters can record. -/
inductive Taken (s : State C) (c : C) : State C → Answer C → Prop
  | stored (k : ℕ) (h : l.Makes s.queue c k) :
      Taken s c ⟨s.queue.drop k ++ [c], weightOf size (s.queue.drop k) + size c,
        (State.dropped s k).receiving (size c)⟩ (.ok (some (s.queue.take k)))
  | refused (h : l.Full s.queue c) :
      Taken s c { s with statistics := s.statistics.dropping 1 (size c) }
        (l.refusal (s.statistics.dropping 1 (size c)))

variable {l} {s : State C} {c : C} {st : Stats}

theorem increment_outcome {a v : ℕ} {label : String} (h : (label, a + v) ∈ st.counters) :
    Outcome st.Overflows (increment a v label) fun n => n = a + v ∧ n < wordLimit := by
  unfold increment checkedAdd wordOf
  split_ifs with hlt
  · exact ⟨rfl, hlt⟩
  · exact ⟨label, _, h, not_lt.mp hlt, rfl⟩

theorem recordOverflow_outcome (h : st.Counted) (f b : ℕ) :
    Outcome (st.dropping f b).Overflows (st.recordOverflow f b) fun st' =>
      st' = st.dropping f b ∧ st'.Counted := by
  refine (increment_outcome (by simp [Stats.counters, Stats.dropping])).bind ?_
  rintro _ ⟨rfl, he⟩
  refine (increment_outcome (by simp [Stats.counters, Stats.dropping])).bind ?_
  rintro _ ⟨rfl, hf⟩
  refine (increment_outcome (by simp [Stats.counters, Stats.dropping])).bind ?_
  rintro _ ⟨rfl, hb⟩
  refine .of_ok ⟨rfl, ?_⟩
  simp only [Stats.Counted, Stats.counters, forall_mem_cons] at h ⊢
  exact ⟨h.1, h.2.1, hf, hb, he, nofun⟩

theorem recordReceived_outcome (h : st.Counted) (b : ℕ) :
    Outcome (st.receiving b).Overflows (st.recordReceived b) fun st' =>
      st' = st.receiving b ∧ st'.Counted := by
  refine (increment_outcome (by simp [Stats.counters, Stats.receiving])).bind ?_
  rintro _ ⟨rfl, hf⟩
  refine (increment_outcome (by simp [Stats.counters, Stats.receiving])).bind ?_
  rintro _ ⟨rfl, hb⟩
  refine .of_ok ⟨rfl, ?_⟩
  simp only [Stats.Counted, Stats.counters, forall_mem_cons] at h ⊢
  exact ⟨hf, hb, h.2.2⟩

/-- A counter that overflows when frames are dropped does so whatever is received then. -/
theorem Stats.Overflows.receiving {e : Error} (h : st.Overflows e) (b : ℕ) :
    (st.receiving b).Overflows e := by
  obtain ⟨label, n, hmem, hn, rfl⟩ := h
  simp only [Stats.counters, mem_cons, Prod.mk.injEq, not_mem_nil, or_false] at hmem
  rcases hmem with ⟨rfl, rfl⟩ | ⟨rfl, rfl⟩ | ⟨rfl, rfl⟩ | ⟨rfl, rfl⟩ | ⟨rfl, rfl⟩
  · exact ⟨_, _, mem_cons_self, hn.trans (Nat.le_add_right _ _), rfl⟩
  · exact ⟨_, _, mem_cons_of_mem _ mem_cons_self, hn.trans (Nat.le_add_right _ _), rfl⟩
  all_goals exact ⟨_, _, by simp [Stats.counters, Stats.receiving], hn, rfl⟩

variable (l s c) in
/-- What the turn of a frame has to come to: what becomes of it, unless a counter overflows. -/
def Settles (x : Except Error (State C × Answer C)) : Prop :=
  ∃ s' answer, l.Taken s c s' answer ∧ Outcome s'.statistics.Overflows x fun r =>
    r = (s', answer) ∧ s'.statistics.Counted

theorem admits_iff (q : List C) (c : C) :
    l.admits q.length (weightOf size q) (size c) ↔ l.Fits q c := by
  simp only [admits, Fits, Bool.and_eq_true, decide_eq_true_eq, Option.any_eq_true,
    checkedAdd_eq_some]
  refine and_congr_right fun _ => ⟨?_, fun h => ⟨_, ⟨h.trans_lt l.bytes_lt, rfl⟩, h⟩⟩
  rintro ⟨_, ⟨_, rfl⟩, h⟩
  exact h

/-- The plan drops frames one by one until the new one fits, or none is left. -/
theorem planLoop_spec (l : Limits) (c : C) (q : List C) (frames bytes : ℕ)
    (hf : frames + q.length < wordLimit) (hb : bytes + weightOf size q < wordLimit) :
    ∃ k ≤ q.length, l.planLoop (size c) q q.length ⟨frames, bytes, weightOf size q⟩ =
        .ok ((q.drop k).length, ⟨frames + k, bytes + weightOf size (q.take k),
          weightOf size (q.drop k)⟩) ∧
      (∀ j < k, ¬ l.Fits (q.drop j) c) ∧
      (l.Fits (q.drop k) c ∨ k = q.length) := by
  induction q generalizing frames bytes with
  | nil => exact ⟨0, le_rfl, rfl, nofun, .inr rfl⟩
  | cons a q ih =>
    rw [planLoop]
    split_ifs with ha
    · exact ⟨0, Nat.zero_le _, rfl, nofun, .inl ((admits_iff _ _).mp ha)⟩
    · simp only [weightOf_cons, length_cons] at hf hb ⊢
      obtain ⟨k, hkl, hk, hs, hend⟩ := ih (frames + 1) (bytes + size a) (by omega) (by omega)
      refine ⟨k + 1, Nat.succ_le_succ hkl, ?_, fun j hj => ?_, hend.imp_right (congrArg _)⟩
      · rw [checkedSub_eq_some.mpr ⟨Nat.le_add_right _ _, rfl⟩,
          checkedAdd_eq_some.mpr ⟨by omega, rfl⟩, saturatingAdd_eq (by omega)]
        simp only [Except.okOr, Except.ok_bind, Nat.add_sub_cancel, Nat.add_sub_cancel_left, hk,
          drop_succ_cons, take_succ_cons, weightOf_cons]
        congr 3 <;> omega
      · cases j with
        | zero => exact fun h => ha ((admits_iff _ _).mpr h)
        | succ j => exact hs j (Nat.lt_of_succ_lt_succ hj)

theorem settles_refuse (hs : s.statistics.Counted) {an : Stats → Answer C} (h : l.Full s.queue c)
    (hans : an (s.statistics.dropping 1 (size c)) = l.refusal (s.statistics.dropping 1 (size c))) :
    l.Settles s c (refuse s c an) := by
  refine ⟨_, _, .refused h, (recordOverflow_outcome hs _ _).bind ?_⟩
  rintro _ ⟨rfl, hc⟩
  exact .of_ok ⟨by rw [hans], hc⟩

theorem settles_store {k : ℕ} (hs : (State.dropped s k).Counted) (h : l.Makes s.queue c k)
    (bytes : ℕ) : l.Settles s c
      (store s c ⟨k, bytes, weightOf size (s.queue.drop k)⟩ (State.dropped s k)) := by
  refine ⟨_, _, .stored k h, ?_⟩
  rw [store, checkedAdd_eq_some.mpr ⟨h.fits.2.trans_lt l.bytes_lt, rfl⟩]
  refine (recordReceived_outcome hs _).bind ?_
  rintro _ ⟨rfl, hc⟩
  exact .of_ok ⟨rfl, hc⟩

theorem settles_take (hs : l.Within s) (c : C) : l.Settles s c (l.take s c) := by
  obtain ⟨hst, hb, hframes, hle⟩ := hs
  have hfl := l.frames_lt
  have hbl := l.bytes_lt
  unfold take
  rw [hb]
  split_ifs with ha
  · exact settles_store (k := 0) hst ⟨Nat.zero_le _, (admits_iff _ _).mp ha, nofun, absurd rfl⟩ 0
  have hfull : ¬ l.Fits s.queue c := fun h => ha ((admits_iff _ _).mpr h)
  cases hp : l.overflowPolicy with
  | fail => exact settles_refuse hst ⟨hfull, by simp [hp]⟩ (by simp [refusal, hp])
  | dropNewest => exact settles_refuse hst ⟨hfull, by simp [hp]⟩ (by simp [refusal, hp])
  | dropOldest =>
    obtain ⟨k, hk, hplan, hshort, hend⟩ := planLoop_spec l c s.queue 0 0 (by omega) (by omega)
    simp only [planEviction, hb, hplan, Except.ok_bind, Nat.zero_add]
    split_ifs with hf
    · have hk0 : k ≠ 0 := by
        rintro rfl
        exact ha hf
      have hd : State.dropped s k = s.statistics.dropping k (weightOf size (s.queue.take k)) :=
        if_neg hk0
      have hm : l.Makes s.queue c k := ⟨hk, (admits_iff _ _).mp hf, hshort, fun _ => hp⟩
      -- An overflow of the counters of the dropped frames is one of those after the new one.
      have ho := recordOverflow_outcome hst k (weightOf size (s.queue.take k))
      simp only [pure_bind]
      cases hr : s.statistics.recordOverflow k (weightOf size (s.queue.take k)) with
      | error e =>
        rw [hr, ← hd] at ho
        exact ⟨_, _, .stored k hm, Stats.Overflows.receiving ho _⟩
      | ok st =>
        rw [hr, ← hd] at ho
        obtain ⟨rfl, hc⟩ := ho
        exact settles_store hc hm _
    · rw [admits_iff] at hf
      obtain rfl := hend.resolve_left hf
      refine settles_refuse hst ⟨hfull, fun _ j => ?_⟩ (by simp [refusal, hp])
      rcases lt_or_ge j s.queue.length with hj | hj
      · exact hshort j hj
      · rwa [drop_of_length_le hj, ← drop_of_length_le le_rfl]

theorem enqueue_cases (hs : l.Within s) (c : C) : ∃ s' answer, l.Taken s c s' answer ∧
    (s'.statistics.Counted ∧ l.enqueue s c = (s', answer) ∨
      ∃ e, s'.statistics.Overflows e ∧ l.enqueue s c = (s, .error e)) := by
  obtain ⟨s', answer, ht, ho⟩ := settles_take hs c
  refine ⟨s', answer, ht, ?_⟩
  unfold enqueue
  cases hx : l.take s c with
  | error e =>
    rw [hx] at ho
    exact .inr ⟨e, ho, rfl⟩
  | ok r =>
    rw [hx] at ho
    exact .inl ⟨ho.2, ho.1⟩

theorem popFront_eq (hs : l.Within s) : s.popFront = ({ s with
    queue := s.queue.tail, queuedBytes := weightOf size s.queue.tail }, .ok s.queue.head?) := by
  obtain ⟨queue, queuedBytes, statistics⟩ := s
  obtain rfl : queuedBytes = weightOf size queue := hs.bytes_eq
  cases queue with
  | nil => rfl
  | cons c rest => simp [State.popFront, weightOf_cons, checkedSub]

variable {h : History C}

theorem Accounts.taken {s' : State C} {an : Answer C} (ha : l.Accounts s h)
    (ht : l.Taken s c s' an) (hc : s'.statistics.Counted) : l.Accounts s' (h.enqueue c an) := by
  obtain ⟨⟨-, hb, hf, hle⟩, hfifo, hs, hr, hrb, hd, hdb⟩ := ha
  cases ht with
  | stored k hm =>
    have hk := hm.le_length
    have hw := congrArg (weightOf size) (take_append_drop k s.queue)
    rw [weightOf_append] at hw
    refine ⟨⟨hc, by simp, ?_, by simpa using hm.fits.2⟩, ?_, hs.trans (sublist_append_left _ _), ?_⟩
    · simpa using Nat.succ_le_of_lt hm.fits.1
    · change h.stored ++ [c] = h.left ++ s.queue.take k ++ (s.queue.drop k ++ [c])
      rw [hfifo, append_assoc, append_assoc, ← append_assoc (s.queue.take k), take_append_drop]
    simp only [History.enqueue, length_append, length_take, length_drop, length_singleton,
      weightOf_append, weightOf_cons, Eviction.weightOf_nil, State.dropped, Stats.receiving]
    split_ifs with hk0
    · subst hk0
      simp only [take_zero, Eviction.weightOf_nil] at hw ⊢
      omega
    · simp only [Stats.dropping]
      omega
  | refused =>
    have hh : h.enqueue c (l.refusal (s.statistics.dropping 1 (size c))) =
        { h with refused := h.refused ++ [c] } := by
      unfold refusal
      split_ifs <;> rfl
    rw [hh]
    refine ⟨⟨hc, hb, hf, hle⟩, hfifo, hs, hr, hrb, ?_⟩
    simp only [Stats.dropping, length_append, length_singleton, weightOf_append, weightOf_cons,
      Eviction.weightOf_nil]
    omega

theorem Accounts.pop (ha : l.Accounts s h) : l.Accounts s.popFront.1 (h.pop s.popFront.2) := by
  rw [popFront_eq ha.toWithin]
  obtain ⟨⟨hc, hb, hf, hle⟩, hfifo, hs, hr, hrb, hd, hdb⟩ := ha
  cases hq : s.queue with
  | nil =>
    rw [hq] at hfifo hr hrb
    exact ⟨⟨hc, rfl, Nat.zero_le _, Nat.zero_le _⟩, hfifo, hs, hr, hrb, hd, hdb⟩
  | cons c rest =>
    rw [hq] at hf hle hfifo hr hrb
    rw [weightOf_cons] at hle hrb
    refine ⟨⟨hc, rfl, (Nat.le_succ _).trans hf, (Nat.le_add_left _ _).trans hle⟩,
      by simp [hfifo, History.pop], hs.append (.refl _), ?_⟩
    simp only [head?_cons, History.pop, tail_cons, length_append, length_singleton,
      weightOf_append, weightOf_cons, Eviction.weightOf_nil]
    rw [length_cons] at hr
    omega

theorem Accounts.step (ha : l.Accounts s h) (op : Op C) :
    l.Accounts (l.step s h op).1 (l.step s h op).2 := by
  cases op with
  | enqueue c =>
    obtain ⟨s', answer, ht, ⟨hc, he⟩ | ⟨_, ⟨_, _, _, _, rfl⟩, he⟩⟩ := enqueue_cases ha.toWithin c
    all_goals simp only [Limits.step, he]
    · exact ha.taken ht hc
    · exact ha
  | pop => exact ha.pop

theorem accounts_run (l : Limits) (ops : List (Op C)) : l.Accounts (l.run ops).1 (l.run ops).2 := by
  induction ops using reverseRecOn with
  | nil =>
    have hc : (l.run ([] : List (Op C))).1.statistics.Counted := by
      simp [Stats.Counted, Stats.counters, run, wordLimit]
    exact ⟨⟨hc, rfl, Nat.zero_le _, Nat.zero_le _⟩, rfl, .refl _, rfl, rfl, rfl, rfl⟩
  | append_singleton ops op ih =>
    rw [run, foldl_append]
    exact ih.step op

/-- The queue is a bounded queue with exact accounting: after any run, its bytes are counted and
within the limits, the frames left it in the order in which they came, and the counters equal what
became of the frames. In each of its states a frame is stored after the shortest prefix was dropped
that makes room for it, or refused where there is none. Only if that would take a counter past its
machine word, nothing changes, and the error names the counter. A pop takes the first frame. -/
theorem accounts_of_run (l : Limits) (ops : List (Op C)) :
    ∃ s h, l.run ops = (s, h) ∧ l.Accounts s h ∧
      (∀ c, ∃ s' answer, l.Taken s c s' answer ∧
        (s'.statistics.Counted ∧ l.enqueue s c = (s', answer) ∨
          ∃ e, s'.statistics.Overflows e ∧ l.enqueue s c = (s, .error e))) ∧
      s.popFront = ({ s with
        queue := s.queue.tail, queuedBytes := weightOf size s.queue.tail }, .ok s.queue.head?) := by
  have ha := accounts_run l ops
  exact ⟨_, _, rfl, ha, enqueue_cases ha.toWithin, popFront_eq ha.toWithin⟩

end Limits

end PacketCraftr.CaptureQueue
