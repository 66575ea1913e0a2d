import Mathlib.Algebra.Order.Floor.Div
import PacketCraftr.Capture.Model
import PacketCraftr.Foundation.Outcome

/-!
# Replay: when the frames of a capture are sent

The plan of `replay/plan.rs` and the passes of `replay/engine.rs`. Every delay is the difference of
a target and of what was scheduled so far, so that no rounding accumulates. Durations are numbers of
nanoseconds. The floating-point arithmetic of the scaled and of the fixed-rate timing is a parameter,
and the clock only enters through the setup time, which is arbitrary.
-/

open PacketCraftr.Capture (Frame SystemTime)
open List

namespace PacketCraftr.Replay

/-- The first number of nanoseconds that is not a duration. -/
def durationLimit : ℕ := wordLimit * 10 ^ 9

def checkedAddDuration (a b : ℕ) : Option ℕ := if a + b < durationLimit then some (a + b) else none

inductive LinkMode
  | auto
  | layer2
  | layer3
  deriving DecidableEq

/-- The arithmetic on floating-point numbers `F` of the timing. -/
structure FloatArithmetic (F : Type) where
  scale : F → ℕ → Option ℕ
  period : F → Option ℕ
  ofWord : ℕ → F

inductive Timing (F : Type)
  | original
  | scaled (factor : F)
  | fixedRate (rate : F)
  | bitRate (rate : ℕ)
  | immediate

inductive Error (F : Type)
  | transmittedByteLimit (sourceIndex actual limit : ℕ)
  | durationLimit (sourceIndex actual limit : ℕ)
  | sourceFrameLimit (sourceIndex actual limit : ℕ)
  | timing (sourceIndex : ℕ) (mode : String) (value : F)
  | timestampUnavailable (sourceIndex : ℕ) (mode : String)
  | unsupportedLinkType (sourceIndex : ℕ) (linkType : UInt32)
  | linkModeMismatch (sourceIndex : ℕ) (linkType : UInt32) (requested : LinkMode)
  | invalidDuration (value maximum : ℕ)
  deriving DecidableEq

/-- The options of a replay; its limits are words and durations. -/
structure Options (F : Type) where
  timing : Timing F
  maxGap : Option ℕ
  interPassDelay : ℕ
  linkMode : LinkMode
  maxSourceFrames : ℕ
  maxTransmittedBytes : ℕ
  maxDuration : ℕ
  duration_lt : maxDuration < durationLimit

structure Tally where
  framesTransmitted : ℕ := 0
  bytesTransmitted : ℕ := 0
  scheduledDuration : ℕ := 0
  pauseDuration : ℕ := 0
  setupDuration : ℕ := 0
  previousTimestamp : Option SystemTime := none
  hasPrevious : Bool := false

structure FramePlan where
  mode : LinkMode
  delay : ℕ
  nextCompleted : ℕ
  nextBytes : ℕ
  nextDuration : ℕ
  deriving DecidableEq

def later (a b : SystemTime) : SystemTime := if a.nanos ≤ b.nanos then b else a

/-- The newest time stamp stays the reference. -/
def Tally.complete (t : Tally) (plan : FramePlan) (timestamp : Option SystemTime) : Tally :=
  { t with
    framesTransmitted := plan.nextCompleted
    bytesTransmitted := plan.nextBytes
    scheduledDuration := plan.nextDuration
    previousTimestamp := match t.previousTimestamp, timestamp with
      | some previous, some current => some (later previous current)
      | _, current => current
    hasPrevious := true }

variable {F : Type} (float : FloatArithmetic F)

namespace Timing

def mode : Timing F → String
  | original => "original"
  | scaled _ => "scaled"
  | fixedRate _ => "fixed_rate"
  | bitRate _ => "bit_rate"
  | immediate => "immediate"

/-- The time from one frame to the next in the capture; a clock that steps back adds nothing. -/
def captured (timing : Timing F) (previous current : Option SystemTime) (sourceIndex : ℕ) :
    Except (Error F) ℕ :=
  match previous, current with
  | some previous, some current => .ok (current.nanos - previous.nanos).toNat
  | _, _ => .error (.timestampUnavailable sourceIndex timing.mode)

def delayBetween (timing : Timing F) (previous current : Option SystemTime)
    (sourceIndex transmittedBytes scheduledDuration : ℕ) : Except (Error F) ℕ :=
  let invalid := Error.timing sourceIndex timing.mode
  match timing with
  | original => timing.captured previous current sourceIndex
  | scaled factor => do
    let gap ← timing.captured previous current sourceIndex
    let delay ← .okOr (float.scale factor gap) (invalid factor)
    .rejectIf (gap ≠ 0 ∧ delay = 0) (invalid factor)
    return delay
  | fixedRate rate => .okOr (float.period rate) (invalid rate)
  | immediate => .ok 0
  -- A rate of zero is refused before the replay starts.
  | bitRate rate => do
    let nanos := transmittedBytes * 8 * 10 ^ 9 ⌈/⌉ rate
    .rejectIf (durationLimit ≤ nanos) (invalid (float.ofWord rate))
    return nanos - scheduledDuration

end Timing

namespace Options

variable (o : Options F)

def linkModeOf (sourceIndex : ℕ) (linkType : UInt32) : Except (Error F) LinkMode := do
  let supported ← if linkType = 1 then .ok LinkMode.layer2
    else if linkType ∈ [101, 12, 228, 229] then .ok .layer3
    else .error (.unsupportedLinkType sourceIndex linkType)
  .rejectIf (o.linkMode ≠ .auto ∧ o.linkMode ≠ supported)
    (.linkModeMismatch sourceIndex linkType o.linkMode)
  return supported

def scheduledDelay (t : Tally) (frame : Frame) (sourceIndex : ℕ) : Except (Error F) ℕ :=
  if !t.hasPrevious then .ok 0 else do
    let delay ← o.timing.delayBetween float t.previousTimestamp frame.timestamp sourceIndex
      t.bytesTransmitted (t.scheduledDuration - t.pauseDuration)
    -- Only captured gaps are clamped.
    return match o.timing, o.maxGap with
    | .original, some maxGap | .scaled _, some maxGap => min delay maxGap
    | _, _ => delay

def planFrame (t : Tally) (frame : Frame) (sourceIndex : ℕ) : Except (Error F) FramePlan := do
  let nextBytes ← .okOr (checkedAdd t.bytesTransmitted frame.capturedLength)
    (.transmittedByteLimit sourceIndex (wordLimit - 1) o.maxTransmittedBytes)
  .rejectIf (o.maxTransmittedBytes < nextBytes)
    (.transmittedByteLimit sourceIndex nextBytes o.maxTransmittedBytes)
  let mode ← o.linkModeOf sourceIndex frame.linkType
  let delay ← o.scheduledDelay float t frame sourceIndex
  let nextDuration ← .okOr (checkedAddDuration t.scheduledDuration delay)
    (.durationLimit sourceIndex (durationLimit - 1) o.maxDuration)
  let wallDuration := min (nextDuration + t.setupDuration) (durationLimit - 1)
  .rejectIf (o.maxDuration < wallDuration)
    (.durationLimit sourceIndex wallDuration o.maxDuration)
  let nextCompleted ← .okOr (checkedAdd t.framesTransmitted 1)
    (.sourceFrameLimit sourceIndex (wordLimit - 1) o.maxSourceFrames)
  return ⟨mode, delay, nextCompleted, nextBytes, nextDuration⟩

/-- The next pass starts after a pause; captured time starts again. -/
def pauseBetweenPasses (t : Tally) : Except (Error F) Tally := do
  let overflow := Error.invalidDuration (durationLimit - 1) o.maxDuration
  let scheduledDuration ← .okOr (checkedAddDuration t.scheduledDuration o.interPassDelay) overflow
  let pauseDuration ← .okOr (checkedAddDuration t.pauseDuration o.interPassDelay) overflow
  let t := { t with scheduledDuration, pauseDuration }
  return match o.timing with
  | .original | .scaled _ => { t with hasPrevious := false, previousTimestamp := none }
  | _ => t

/-! ### Runs -/

/-- The states of a replay: the frames that were sent in earlier passes and in this one, how many
pauses there were, and when this pass starts. The setup time is what the clock makes it. -/
inductive Reaches : Tally → List Frame → List Frame → ℕ → ℕ → Prop
  | start (setup : ℕ) : Reaches { setupDuration := setup } [] [] 0 0
  | anchor {t sent pass pauses first} (h : Reaches t sent pass pauses first) (setup : ℕ) :
      Reaches { t with setupDuration := setup } sent pass pauses first
  | frame {t sent pass pauses first plan} (h : Reaches t sent pass pauses first) (f : Frame)
      (sourceIndex : ℕ) (hplan : o.planFrame float t f sourceIndex = .ok plan) :
      Reaches (t.complete plan f.timestamp) sent (pass ++ [f]) pauses first
  | pause {t t' sent pass pauses first} (h : Reaches t sent pass pauses first)
      (hpause : o.pauseBetweenPasses t = .ok t') :
      Reaches t' (sent ++ pass) [] (pauses + 1) t'.scheduledDuration

variable {float o} {t : Tally} {sent pass : List Frame} {pauses first sourceIndex : ℕ} {f : Frame}
  {plan : FramePlan}

theorem planFrame_ok (h : o.planFrame float t f sourceIndex = .ok plan) :
    o.scheduledDelay float t f sourceIndex = .ok plan.delay ∧
      plan.nextBytes = t.bytesTransmitted + f.capturedLength ∧
      plan.nextBytes ≤ o.maxTransmittedBytes ∧
      plan.nextDuration = t.scheduledDuration + plan.delay ∧ plan.nextDuration ≤ o.maxDuration := by
  simp only [planFrame, Except.bind_eq_ok, Except.okOr_eq_ok, Except.rejectIf_eq_ok,
    checkedAdd_eq_some, not_lt] at h
  obtain ⟨_, ⟨_, rfl⟩, _, hb, _, _, d, hd, n, hn, _, hw, _, _, ⟨⟩⟩ := h
  simp only [checkedAddDuration, Option.ite_none_right_eq_some, Option.some.injEq] at hn
  obtain ⟨hlt, rfl⟩ := hn
  refine ⟨hd, rfl, hb, rfl, ?_⟩
  change t.scheduledDuration + d ≤ _
  omega

theorem pauseBetweenPasses_ok {t' : Tally} (h : o.pauseBetweenPasses t = .ok t') :
    t'.bytesTransmitted = t.bytesTransmitted ∧
      t'.scheduledDuration = t.scheduledDuration + o.interPassDelay ∧
      t'.pauseDuration = t.pauseDuration + o.interPassDelay ∧
      (∀ rate, o.timing = .bitRate rate → t'.hasPrevious = t.hasPrevious) ∧
      (o.timing = .original → t'.hasPrevious = false ∧ t'.previousTimestamp = none) := by
  simp only [pauseBetweenPasses, Except.bind_eq_ok, Except.okOr_eq_ok, checkedAddDuration,
    Option.ite_none_right_eq_some, Option.some.injEq] at h
  obtain ⟨_, ⟨_, rfl⟩, _, ⟨_, rfl⟩, h⟩ := h
  obtain rfl := Except.ok.inj h
  cases o.timing <;> simp

theorem Reaches.bytes (h : o.Reaches float t sent pass pauses first) :
    t.bytesTransmitted = ((sent ++ pass).map Frame.capturedLength).sum := by
  induction h with
  | start => rfl
  | anchor _ _ ih => exact ih
  | frame _ f _ hplan ih =>
    rw [← append_assoc, map_append, sum_append, ← ih]
    exact (planFrame_ok hplan).2.1
  | pause _ hpause ih => rw [(pauseBetweenPasses_ok hpause).1, ih, append_nil]

/-- With a bit rate, the next frame is due when the bytes before it are sent. -/
theorem nextDuration_bitRate {rate : ℕ} (hr : o.timing = .bitRate rate)
    (hle : t.pauseDuration ≤ t.scheduledDuration)
    (hs : t.scheduledDuration ≤ t.pauseDuration + t.bytesTransmitted * 8 * 10 ^ 9 ⌈/⌉ rate)
    (h0 : t.hasPrevious = false → t.bytesTransmitted = 0)
    (h : o.planFrame float t f sourceIndex = .ok plan) :
    plan.nextDuration = t.pauseDuration + t.bytesTransmitted * 8 * 10 ^ 9 ⌈/⌉ rate := by
  obtain ⟨hd, -, -, hn, -⟩ := planFrame_ok h
  rw [scheduledDelay, hr] at hd
  split_ifs at hd with hp
  · simp only [h0 (by simpa using hp), Nat.zero_mul, zero_ceilDiv] at hs ⊢
    have : 0 = plan.delay := Except.ok.inj hd
    omega
  · simp only [Timing.delayBetween, Except.bind_eq_ok, Except.rejectIf_eq_ok] at hd
    obtain ⟨_, ⟨_, _, ⟨⟩⟩, hd⟩ := hd
    have : _ = plan.delay := Except.ok.inj hd
    omega

/-- With a bit rate, the schedule without its pauses is at most what the sent bytes take. -/
theorem Reaches.bitRate {rate : ℕ} (hr : o.timing = .bitRate rate)
    (h : o.Reaches float t sent pass pauses first) :
    t.pauseDuration = pauses * o.interPassDelay ∧ t.pauseDuration ≤ t.scheduledDuration ∧
      t.scheduledDuration ≤ t.pauseDuration + t.bytesTransmitted * 8 * 10 ^ 9 ⌈/⌉ rate ∧
      (t.hasPrevious = false → t.bytesTransmitted = 0) := by
  induction h with
  | start => exact ⟨(Nat.zero_mul _).symm, le_rfl, Nat.zero_le _, fun _ => rfl⟩
  | anchor _ _ ih => exact ih
  | @frame t _ _ _ _ plan _ f _ hplan ih =>
    obtain ⟨hp, hle, hs, h0⟩ := ih
    have hn := nextDuration_bitRate hr hle hs h0 hplan
    refine ⟨hp, (Nat.le_add_right _ _).trans_eq hn.symm, ?_, nofun⟩
    change plan.nextDuration ≤ t.pauseDuration + plan.nextBytes * 8 * 10 ^ 9 ⌈/⌉ rate
    rw [hn, (planFrame_ok hplan).2.1, Nat.ceilDiv_eq_add_pred_div, Nat.ceilDiv_eq_add_pred_div]
    refine Nat.add_le_add_left (Nat.div_le_div_right ?_) _
    omega
  | pause _ hpause ih =>
    obtain ⟨hb, hs, hp, hprev, -⟩ := pauseBetweenPasses_ok hpause
    obtain ⟨ihp, ihle, ihs, ih0⟩ := ih
    rw [hb, hs, hp, hprev rate hr, Nat.add_mul, Nat.one_mul]
    exact ⟨by omega, by omega, by omega, ih0⟩

/-- The last of some frames is due, after the start of their pass, as long as the newest of their
time stamps is after the first. -/
def Due (first : ℕ) (frames : List Frame) (newest : ℤ) (due : ℕ) : Prop :=
  ∃ t₀ ts, frames.map (·.timestamp.map SystemTime.nanos) = (t₀ :: ts).map some ∧
    newest = ts.foldl max t₀ ∧ t₀ ≤ newest ∧ due = first + (newest - t₀).toNat

theorem Reaches.original (ho : o.timing = .original) (hg : o.maxGap = none)
    (h : o.Reaches float t sent pass pauses first) :
    (pass = [] ∧ t.hasPrevious = false ∧ t.previousTimestamp = none ∧ t.scheduledDuration = first) ∨
    t.hasPrevious = true ∧ ((∃ f, pass = [f] ∧ f.timestamp = none ∧ t.previousTimestamp = none ∧
      t.scheduledDuration = first) ∨
      ∃ n, t.previousTimestamp = some n ∧ Due first pass n.nanos t.scheduledDuration) := by
  induction h with
  | start => exact .inl ⟨rfl, rfl, rfl, rfl⟩
  | anchor _ _ ih => exact ih
  | pause _ hpause _ =>
    obtain ⟨hp, hprev⟩ := (pauseBetweenPasses_ok hpause).2.2.2.2 ho
    exact .inl ⟨rfl, hp, hprev, rfl⟩
  | @frame t _ pass _ first plan _ f i hplan ih =>
    obtain ⟨hd, -, -, hn, -⟩ := planFrame_ok hplan
    refine .inr ⟨rfl, ?_⟩
    change (∃ g, pass ++ [f] = [g] ∧ _ ∧ _ ∧ plan.nextDuration = first) ∨
      ∃ n, _ ∧ Due first (pass ++ [f]) _ plan.nextDuration
    rcases ih with ⟨rfl, hp, hprev, hs⟩ | ⟨hp, ih⟩
    · rw [scheduledDelay, hp] at hd
      obtain hd0 : 0 = plan.delay := Except.ok.inj hd
      cases hf : f.timestamp with
      | none => exact .inl ⟨f, rfl, hf, by simp [Tally.complete, hprev], by omega⟩
      | some τ =>
        refine .inr ⟨τ, by simp [Tally.complete, hprev], τ.nanos, [], by simp [hf], rfl, le_rfl, ?_⟩
        omega
    · simp only [scheduledDelay, hp, ho, hg, Timing.delayBetween, Timing.captured] at hd
      rcases ih with ⟨g, rfl, -, hprev, -⟩ | ⟨n, hprev, t₀, ts, hmap, hnew, hle, hs⟩
      · rw [hprev] at hd
        cases hd
      cases hf : f.timestamp with
      | none =>
        rw [hprev, hf] at hd
        cases hd
      | some τ =>
        rw [hprev, hf] at hd
        obtain hd : (τ.nanos - n.nanos).toNat = plan.delay := Except.ok.inj hd
        refine .inr ⟨later n τ, by simp [Tally.complete, hprev], t₀, ts ++ [τ.nanos], ?_⟩
        have hmax : (later n τ).nanos = max n.nanos τ.nanos := by
          rw [later, apply_ite SystemTime.nanos, max_def]
        rw [map_append, hmap, foldl_append, ← hnew, hmax]
        exact ⟨by simp [hf], rfl, hle.trans (le_max_left _ _), by omega⟩

/-- Schedules do not drift. For a frame that is admitted in a state that a replay reaches: with a bit
rate it is due when the bytes before it are sent, however they were split, plus the pauses; with the
original timing and no maximum gap it is due, after the start of its pass, as long as the newest
time stamp is after the first; and its bytes and its schedule are within the limits. -/
theorem schedule_exact (h : o.Reaches float t sent pass pauses first)
    (hplan : o.planFrame float t f sourceIndex = .ok plan) :
    (∀ rate, o.timing = .bitRate rate → plan.nextDuration = pauses * o.interPassDelay +
      ((sent ++ pass).map Frame.capturedLength).sum * 8 * 10 ^ 9 ⌈/⌉ rate) ∧
    (o.timing = .original → o.maxGap = none →
      (pass = [] ∧ f.timestamp = none ∧ plan.nextDuration = first) ∨
        ∃ newest, Due first (pass ++ [f]) newest plan.nextDuration) ∧
    plan.nextBytes = ((sent ++ pass ++ [f]).map Frame.capturedLength).sum ∧
    plan.nextBytes ≤ o.maxTransmittedBytes ∧ plan.nextDuration ≤ o.maxDuration := by
  obtain ⟨-, -, hb, -, hd⟩ := planFrame_ok hplan
  refine ⟨fun rate hr => ?_, fun ho hg => ?_, ?_, hb, hd⟩
  · obtain ⟨hp, hle, hs, h0⟩ := h.bitRate hr
    rw [nextDuration_bitRate hr hle hs h0 hplan, hp, h.bytes]
  · rcases (h.frame f _ hplan).original ho hg with ⟨hnil, -⟩ | ⟨-, ⟨g, hpass, hf, -, hs⟩ | ⟨n, -, hdue⟩⟩
    · exact absurd hnil (by simp)
    · obtain ⟨rfl, ⟨⟩⟩ := append_eq_singleton_iff.mp hpass |>.resolve_right (by simp)
      exact .inl ⟨rfl, hf, hs⟩
    · exact .inr ⟨_, hdue⟩
  · rw [append_assoc]
    exact (h.frame f _ hplan).bytes

/-- After a pause of a second: at seven bits a second, a frame after three bytes is due 24 sevenths of
a second later; with the original timing, a frame two seconds after the first of its pass is due two
seconds later, whatever came between. -/
theorem schedule_exact_pause :
    let float : FloatArithmetic Unit := ⟨fun _ _ => none, fun _ => none, fun _ => ()⟩
    let o (timing : Timing Unit) : Options Unit :=
      ⟨timing, none, 10 ^ 9, .auto, 4, 12, 10 ^ 10, by decide⟩
    let x (time : SystemTime) : Frame := ⟨some time, 3, 1, none, none, [1, 2, 3], by decide, by decide⟩
    let t₄ : SystemTime := ⟨4 * 10 ^ 9, by decide, by decide⟩
    let t₅ : SystemTime := ⟨5 * 10 ^ 9, by decide, by decide⟩
    let t₇ : SystemTime := ⟨7 * 10 ^ 9, by decide, by decide⟩
    (∃ t plan, (o (.bitRate 7)).Reaches float t [x t₅] [] 1 (10 ^ 9) ∧
      (o (.bitRate 7)).planFrame float t (x t₅) 1 = .ok plan ∧ plan.nextDuration = 4428571429) ∧
    ∃ t plan, (o .original).Reaches float t [x t₅] [x t₅, x t₄] 1 (10 ^ 9) ∧
      (o .original).planFrame float t (x t₇) 3 = .ok plan ∧ plan.nextDuration = 3 * 10 ^ 9 ∧
        ∃ newest, Due (10 ^ 9) [x t₅, x t₄, x t₇] newest plan.nextDuration := by
  intro float o x t₄ t₅ t₇
  have hd : checkedAddDuration 0 (10 ^ 9) = some (10 ^ 9) := by decide
  refine ⟨?_, ?_⟩
  · have h₀ : (o (.bitRate 7)).planFrame float {} (x t₅) 0 = .ok ⟨.layer2, 0, 1, 3, 0⟩ := rfl
    have hq : (o (.bitRate 7)).pauseBetweenPasses (Tally.complete {} ⟨.layer2, 0, 1, 3, 0⟩ (some t₅)) =
        .ok ⟨1, 3, 10 ^ 9, 10 ^ 9, 0, some t₅, true⟩ := by
      simp only [pauseBetweenPasses, Tally.complete, o, hd]
      rfl
    have h := ((Reaches.start 0).frame (x t₅) 0 h₀).pause hq
    have hp : (o (.bitRate 7)).planFrame float ⟨1, 3, 10 ^ 9, 10 ^ 9, 0, some t₅, true⟩ (x t₅) 1 =
        .ok ⟨.layer2, 3428571429, 2, 6, 4428571429⟩ := by decide +kernel
    exact ⟨_, _, h, hp, ((schedule_exact h hp).1 7 rfl).trans (by decide +kernel)⟩
  · have h₀ : (o .original).planFrame float {} (x t₅) 0 = .ok ⟨.layer2, 0, 1, 3, 0⟩ := rfl
    have hq : (o .original).pauseBetweenPasses (Tally.complete {} ⟨.layer2, 0, 1, 3, 0⟩ (some t₅)) =
        .ok ⟨1, 3, 10 ^ 9, 10 ^ 9, 0, none, false⟩ := by
      simp only [pauseBetweenPasses, Tally.complete, o, hd]
      rfl
    have h₁ : (o .original).planFrame float ⟨1, 3, 10 ^ 9, 10 ^ 9, 0, none, false⟩ (x t₅) 1 =
        .ok ⟨.layer2, 0, 2, 6, 10 ^ 9⟩ := by decide +kernel
    have h₂ : (o .original).planFrame float ⟨2, 6, 10 ^ 9, 10 ^ 9, 0, some t₅, true⟩ (x t₄) 2 =
        .ok ⟨.layer2, 0, 3, 9, 10 ^ 9⟩ := by decide +kernel
    have h := ((((Reaches.start 0).frame (x t₅) 0 h₀).pause hq).frame (x t₅) 1 h₁).frame (x t₄) 2 h₂
    have hp : (o .original).planFrame float ⟨3, 9, 10 ^ 9, 10 ^ 9, 0, some t₅, true⟩ (x t₇) 3 =
        .ok ⟨.layer2, 2 * 10 ^ 9, 4, 12, 3 * 10 ^ 9⟩ := by decide +kernel
    refine ⟨_, _, h, hp, rfl, ((schedule_exact h hp).2.1 rfl rfl).resolve_left ?_⟩
    exact fun hn => absurd hn.1 (by simp)

end Options

end PacketCraftr.Replay
