import PacketCraftr.Capture.Model
import PacketCraftr.Decode.Session

/-!
# Evidence: what a workflow retains of the frames it captured

The budget and the reservation of `evidence/retention.rs`. The responses of the outstanding probes
are reserved as a number of frames of one maximum size, and a frame that no probe claims can use
only what is beyond them. The frames that could not be decoded, and the publication of the
diagnostics, are left out.
-/

open PacketCraftr.Capture (Frame)
open List
open PacketCraftr.Decode (Diagnostic Severity)

namespace PacketCraftr.Evidence

/-- The limits of the evidence, which are machine words. -/
structure Limits where
  maxFrames : ℕ
  maxBytes : ℕ
  maxUndecoded : ℕ
  frames_lt : maxFrames < wordLimit
  bytes_lt : maxBytes < wordLimit

/-! ### The budget -/

inductive RetentionError
  | frameCountOverflow
  | frameLimit
  | byteCountOverflow
  | byteLimit
  deriving DecidableEq

structure RetentionBudget where
  retainedFrames : ℕ := 0
  retainedBytes : ℕ := 0
  deriving DecidableEq

namespace RetentionBudget

/-- Charge one frame. -/
def reserve (b : RetentionBudget) (additionalBytes maxFrames maxBytes : ℕ) :
    Except RetentionError RetentionBudget := do
  let nextFrames ← .okOr (checkedAdd b.retainedFrames 1) .frameCountOverflow
  .rejectIf (maxFrames < nextFrames) .frameLimit
  let nextBytes ← .okOr (checkedAdd b.retainedBytes additionalBytes) .byteCountOverflow
  .rejectIf (maxBytes < nextBytes) .byteLimit
  return ⟨nextFrames, nextBytes⟩

def charge (b : RetentionBudget) (frames : List Frame) : RetentionBudget :=
  ⟨b.retainedFrames + frames.length, b.retainedBytes + (frames.map (·.bytes.length)).sum⟩

variable {b b' : RetentionBudget} {fr : Frame} {f y : ℕ}

theorem charge_charge (xs ys : List Frame) : (b.charge xs).charge ys = b.charge (xs ++ ys) := by
  simp [charge, Nat.add_assoc]

theorem reserve_eq_ok (hf : f < wordLimit) (hy : y < wordLimit) :
    b.reserve fr.bytes.length f y = .ok b' ↔ b.retainedFrames + 1 ≤ f ∧
      b.retainedBytes + fr.bytes.length ≤ y ∧ b' = b.charge [fr] := by
  simp only [reserve, Except.bind_eq_ok, Except.rejectIf_eq_ok, Except.okOr_eq_ok,
    checkedAdd_eq_some, not_lt]
  constructor
  · rintro ⟨_, ⟨_, rfl⟩, _, hfr, _, ⟨_, rfl⟩, _, hb, ⟨⟩⟩
    exact ⟨hfr, hb, rfl⟩
  · rintro ⟨hfr, hb, rfl⟩
    exact ⟨_, ⟨by omega, rfl⟩, (), hfr, _, ⟨by omega, rfl⟩, (), hb, rfl⟩

end RetentionBudget

/-! ### The state -/

structure Descriptor where
  evidenceLimitCode : String
  unattributedLimitCode : String
  displayName : String

structure State where
  limits : Limits
  descriptor : Descriptor
  budget : RetentionBudget := {}
  retainedUnattributed : ℕ := 0
  outstandingResponses : ℕ := 0
  maxResponseBytes : ℕ := 0
  diagnostics : List Diagnostic := []

/-- Record a diagnostic, unless one with its code is there. -/
def pushOnce (diagnostics : List Diagnostic) (d : Diagnostic) : List Diagnostic :=
  if diagnostics.any (·.code = d.code) then diagnostics else diagnostics ++ [d]

namespace State

def limitMessage (s : State) (reservedFrames : ℕ) : RetentionError → String
  | .frameCountOverflow =>
    s!"{s.descriptor.displayName} evidence frame accounting overflowed; later frames were omitted"
  | .byteCountOverflow =>
    s!"{s.descriptor.displayName} evidence byte accounting overflowed; later frames were omitted"
  | .frameLimit | .byteLimit =>
    if 0 < reservedFrames then
      s!"{s.descriptor.displayName} evidence limit reached ({s.limits.maxFrames} frame(s) or " ++
      s!"{s.limits.maxBytes} byte(s)); capacity for outstanding replies was reserved and extra " ++
      "frames were omitted"
    else
      s!"{s.descriptor.displayName} evidence exceeded {s.limits.maxFrames} frame(s) or " ++
      s!"{s.limits.maxBytes} byte(s); later exact frames were omitted"

/-- Charge a frame; an extra one leaves the outstanding responses their room. -/
def reserve (s : State) (frame : Frame) (extra : Bool) : Bool × State :=
  let reservedFrames := if extra then s.outstandingResponses else 0
  let reservedBytes := saturatingMul reservedFrames s.maxResponseBytes
  match s.budget.reserve frame.bytes.length (s.limits.maxFrames - reservedFrames)
    (s.limits.maxBytes - reservedBytes) with
  | .ok budget => (true, { s with budget })
  | .error e => (false, { s with
      diagnostics := pushOnce s.diagnostics { severity := .warning
                                              code := s.descriptor.evidenceLimitCode
                                              message := s.limitMessage reservedFrames e } })

def retainResponse (s : State) (frame : Frame) : Option Frame × State :=
  match s.reserve frame false with
  | (true, s) => (some frame, s)
  | (false, s) => (none, s)

def reserveResponses (s : State) (count maxResponseBytes : ℕ) : State :=
  { s with outstandingResponses := count, maxResponseBytes }

def releaseResponses (s : State) (count : ℕ) : State :=
  { s with outstandingResponses := s.outstandingResponses - count }

def settleResponse (s : State) : State := s.releaseResponses 1

/-- Retain a frame that no outcome carries. -/
def retainUnattributed (s : State) (frame : Frame) : Option Frame × State :=
  if s.limits.maxUndecoded ≤ s.retainedUnattributed then
    (none, { s with
      diagnostics := pushOnce s.diagnostics {
        severity := .warning
        code := s.descriptor.unattributedLimitCode
        message := s!"unattributed {s.descriptor.displayName} evidence limit " ++
          s!"{s.limits.maxUndecoded} reached; later frames were omitted" } })
  else match s.reserve frame true with
    | (true, s) => (some frame, { s with retainedUnattributed := s.retainedUnattributed + 1 })
    | (false, s) => (none, s)

/-! ### Runs -/

/-- What a batch does with the evidence: a probe is settled, with its response if it has one, the
responses of others are cancelled, and a frame that no probe claims is offered. -/
inductive Op
  | settle (response : Option Frame)
  | cancel (count : ℕ)
  | unattributed (frame : Frame)

/-- How many outstanding responses an operation uses up. -/
def Op.settles : Op → ℕ
  | settle _ => 1
  | cancel count => count
  | unattributed _ => 0

def step (s : State) : Op → Option Frame × State
  | .settle none => (none, s.settleResponse)
  | .settle (some frame) => s.settleResponse.retainResponse frame
  | .cancel count => (none, s.releaseResponses count)
  | .unattributed frame => s.retainUnattributed frame

/-- The frame that each operation returned, and the last state. -/
def run (s : State) : List Op → List (Option Frame) × State
  | [] => ([], s)
  | op :: ops =>
    let r := s.step op
    let rest := r.2.run ops
    (r.1 :: rest.1, rest.2)

variable {s : State} {limits : Limits} {frame : Frame} {op : Op} {n m : ℕ}

/-- Within the limits, there is room for the outstanding responses beside what is retained, and `n`
of them are outstanding. -/
structure Protected (s : State) (limits : Limits) (n m : ℕ) : Prop where
  limits_eq : s.limits = limits
  le_outstanding : n ≤ s.outstandingResponses
  size_eq : s.maxResponseBytes = m
  frames_le : s.budget.retainedFrames + s.outstandingResponses ≤ limits.maxFrames
  bytes_le : s.budget.retainedBytes + s.outstandingResponses * m ≤ limits.maxBytes

theorem Protected.release {k : ℕ} (h : s.Protected limits (n + k) m) :
    (s.releaseResponses k).Protected limits n m where
  limits_eq := h.limits_eq
  le_outstanding := Nat.le_sub_of_add_le h.le_outstanding
  size_eq := h.size_eq
  frames_le := (Nat.add_le_add_left (Nat.sub_le _ k) _).trans h.frames_le
  bytes_le := (Nat.add_le_add_left (Nat.mul_le_mul_right m (Nat.sub_le _ k)) _).trans h.bytes_le

theorem Protected.settle (h : s.Protected limits (n + 1) m) (hm : frame.bytes.length ≤ m) :
    s.settleResponse.retainResponse frame =
        (some frame, { s.settleResponse with budget := s.budget.charge [frame] }) ∧
      State.Protected { s.settleResponse with budget := s.budget.charge [frame] } limits n m := by
  obtain ⟨k, hk⟩ := Nat.exists_eq_add_of_le' ((Nat.le_add_left 1 n).trans h.le_outstanding)
  obtain ⟨rfl, ho, hs, hf, hb⟩ := h
  rw [hk] at hf hb
  rw [Nat.add_mul, Nat.one_mul] at hb
  have hok : s.budget.reserve frame.bytes.length s.limits.maxFrames s.limits.maxBytes =
      .ok (s.budget.charge [frame]) :=
    (RetentionBudget.reserve_eq_ok s.limits.frames_lt s.limits.bytes_lt).mpr
      ⟨by omega, by omega, rfl⟩
  constructor
  · simp only [retainResponse, State.reserve, settleResponse, releaseResponses, saturatingMul,
      Bool.false_eq_true, if_false, Nat.zero_mul, Nat.zero_min, Nat.sub_zero, hok]
  · refine ⟨rfl, Nat.le_sub_of_add_le ho, hs, ?_, ?_⟩ <;>
      simp only [settleResponse, releaseResponses, RetentionBudget.charge, hk, Nat.add_sub_cancel,
        length_singleton, map_singleton, sum_singleton]
    · omega
    · omega

theorem Protected.unattributed (h : s.Protected limits n m) (frame : Frame) :
    (s.retainUnattributed frame).2.budget = s.budget.charge (s.retainUnattributed frame).1.toList ∧
      (s.retainUnattributed frame).2.Protected limits n m := by
  obtain ⟨rfl, ho, rfl, hf, hb⟩ := h
  have hfl := s.limits.frames_lt
  have hbl := s.limits.bytes_lt
  have hs : saturatingMul s.outstandingResponses s.maxResponseBytes =
      s.outstandingResponses * s.maxResponseBytes := by
    rw [saturatingMul]
    omega
  unfold retainUnattributed
  split_ifs with hfu
  · exact ⟨rfl, rfl, ho, rfl, hf, hb⟩
  cases hr : s.budget.reserve frame.bytes.length (s.limits.maxFrames - s.outstandingResponses)
      (s.limits.maxBytes - s.outstandingResponses * s.maxResponseBytes) with
  | error e =>
    simp only [State.reserve, if_true, hs, hr]
    exact ⟨rfl, rfl, ho, rfl, hf, hb⟩
  | ok b =>
    obtain ⟨hfr, hbs, rfl⟩ := (RetentionBudget.reserve_eq_ok (by omega) (by omega)).mp hr
    simp only [State.reserve, if_true, hs, hr]
    refine ⟨rfl, rfl, ho, rfl, ?_, ?_⟩ <;>
      simp only [RetentionBudget.charge, length_singleton, map_singleton,
        sum_singleton]
    · omega
    · omega

/-- The answer to a response is that response. -/
def Op.Accepted (op : Op) (returned : Option Frame) : Prop :=
  ∀ frame, op = .settle (some frame) → returned = some frame

/-- Every operation accepts its response, charges what it returns and keeps the room of those that
are still outstanding. -/
theorem Protected.step (h : s.Protected limits (n + op.settles) m)
    (hm : ∀ frame, op = .settle (some frame) → frame.bytes.length ≤ m) :
    op.Accepted (s.step op).1 ∧ (s.step op).2.budget = s.budget.charge (s.step op).1.toList ∧
      (s.step op).2.Protected limits n m := by
  cases op with
  | settle r =>
    cases r with
    | none => exact ⟨fun _ ho => (nomatch ho), rfl, h.release⟩
    | some frame =>
      obtain ⟨hr, hp⟩ := h.settle (hm frame rfl)
      simp only [State.step, hr]
      refine ⟨?_, rfl, hp⟩
      rintro _ ⟨⟩
      rfl
  | cancel count => exact ⟨fun _ ho => (nomatch ho), rfl, h.release⟩
  | unattributed frame => exact ⟨fun _ ho => (nomatch ho), h.unattributed frame⟩

theorem Protected.run {ops : List Op} (h : s.Protected limits (n + (ops.map Op.settles).sum) m)
    (hm : ∀ frame, .settle (some frame) ∈ ops → frame.bytes.length ≤ m) :
    List.Forall₂ Op.Accepted ops (s.run ops).1 ∧
      (s.run ops).2.budget = s.budget.charge (s.run ops).1.reduceOption ∧
      (s.run ops).2.Protected limits n m := by
  induction ops generalizing s with
  | nil => exact ⟨.nil, rfl, h⟩
  | cons op ops ih =>
    rw [map_cons, sum_cons, Nat.add_comm op.settles, ← Nat.add_assoc] at h
    obtain ⟨ha, hb, hp⟩ := h.step fun frame ho => hm frame (ho ▸ mem_cons_self)
    obtain ⟨hac, hbd, hpr⟩ := ih hp fun frame ho => hm frame (mem_cons_of_mem _ ho)
    refine ⟨.cons ha hac, ?_, hpr⟩
    rw [State.run, hbd, hb, RetentionBudget.charge_charge]
    cases (s.step op).1 <;> rfl

/-- Extra frames do not crowd out outstanding responses: when there is room for `n` responses of `m`
bytes and they are reserved, a run that settles or cancels at most `n` of them retains every
response, charges exactly the frames that it returns, and stays within the limits. -/
theorem run_retains_responses {ops : List Op}
    (hf : s.budget.retainedFrames + n ≤ s.limits.maxFrames)
    (hb : s.budget.retainedBytes + n * m ≤ s.limits.maxBytes)
    (hn : (ops.map Op.settles).sum ≤ n)
    (hm : ∀ frame, .settle (some frame) ∈ ops → frame.bytes.length ≤ m) :
    let (returned, last) := (s.reserveResponses n m).run ops
    List.Forall₂ Op.Accepted ops returned ∧
      last.budget = s.budget.charge returned.reduceOption ∧
      last.budget.retainedFrames ≤ s.limits.maxFrames ∧
      last.budget.retainedBytes ≤ s.limits.maxBytes := by
  have h : (s.reserveResponses n m).Protected s.limits (n - (ops.map Op.settles).sum +
      (ops.map Op.settles).sum) m :=
    ⟨rfl, (Nat.sub_add_cancel hn).le, rfl, hf, hb⟩
  obtain ⟨ha, hbud, hp⟩ := h.run hm
  exact ⟨ha, hbud, (Nat.le_add_right _ _).trans hp.frames_le,
    (Nat.le_add_right _ _).trans hp.bytes_le⟩

/-- Of two other frames, the second would take the room of the response, and is omitted. -/
theorem run_retains_responses_crowded :
    let x : Frame := ⟨none, 2, 1, none, none, [8, 0], by decide, by decide⟩
    let s : State := { limits := ⟨2, 9, 5, by decide, by decide⟩, descriptor := ⟨"", "u", "scan"⟩ }
    let ops : List Op := [.unattributed x, .unattributed x, .settle x]
    ((s.reserveResponses 1 2).run ops).1 = [some x, none, some x] ∧
      let (returned, last) := (s.reserveResponses 1 2).run ops
      List.Forall₂ Op.Accepted ops returned ∧
        last.budget = s.budget.charge returned.reduceOption ∧
        last.budget.retainedFrames ≤ s.limits.maxFrames ∧
        last.budget.retainedBytes ≤ s.limits.maxBytes := by
  intro x s ops
  have hm : ∀ f, .settle (some f) ∈ ops → f.bytes.length ≤ 2 := by
    intro f hf
    simp_all [x, ops]
  exact ⟨by decide +kernel, @run_retains_responses s 1 2 ops (by decide) (by decide) (by decide) hm⟩

end State

end PacketCraftr.Evidence
