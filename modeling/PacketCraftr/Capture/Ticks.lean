import PacketCraftr.Capture.Encoding

/-!
# Tick conversion in machine arithmetic

The conversions of `capture_file/wire/timestamp.rs`, with each operation on 32-, 64- and 128-bit
words as the source has it: a checked operation reports an error where it overflows, a plain one, a
division by zero and a failed expectation panic. They compute the conversions on integers, and so
they never panic, and each of them inverts the other.
-/

namespace PacketCraftr.Capture

namespace Machine

open Exec

/-- An execution that does not panic. -/
def lift {α : Type} (x : Except Error α) : Exec Error α := x.mapError .error

def u128 (n : ℕ) : Option ℕ := if n < 2 ^ 128 then some n else none

def i128 (n : ℤ) : Option ℤ := if -2 ^ 127 ≤ n ∧ n < 2 ^ 127 then some n else none

def outOfRange : Error := .timestampOutOfRange .pcapNg

/-- The nanoseconds of `Duration::new`, which panics when its seconds overflow. -/
def duration (seconds nanoseconds : ℕ) : Exec Error ℕ :=
  if seconds + nanoseconds / 1000000000 < 2 ^ 64 then .ok (seconds * 1000000000 + nanoseconds)
  else abort .overflow

def systemTimeFromSignedUnix (seconds : ℤ) (nanoseconds : ℕ) : Exec Error SystemTime :=
  if 0 ≤ seconds then do
    let secondsSinceEpoch ← okOr (wordOfInt seconds) outOfRange
    let elapsed ← duration secondsSinceEpoch nanoseconds
    okOr (SystemTime.ofNanos? elapsed) outOfRange
  else if nanoseconds = 0 then do
    let magnitude ← okOr ((i128 (-seconds)).bind wordOfInt) outOfRange
    let elapsed ← duration magnitude 0
    okOr (SystemTime.ofNanos? (-elapsed)) outOfRange
  else do
    let wholeSeconds ← okOr (((i128 (-seconds)).bind fun n => i128 (n - 1)).bind wordOfInt) outOfRange
    let subsecondNanoseconds ← okOr (checkedSub 1000000000 nanoseconds) outOfRange
    let elapsed ← duration wholeSeconds subsecondNanoseconds
    okOr (SystemTime.ofNanos? (-elapsed)) outOfRange

/-- The whole seconds and the nanoseconds of a number of ticks. -/
def secondsOfTicks (ticks : ℕ) (resolution : TimestampResolution) : Exec Error (ℕ × ℕ) :=
  match resolution.ticksPerSecond with
  | some ticksPerSecond => do
    assert (ticksPerSecond ≠ 0)
    let scaled ← unwrap (u128 (ticks % ticksPerSecond * 1000000000))
    rejectIf (scaled % ticksPerSecond ≠ 0)
      (.metadataNotRepresentable .pcapNg "sub-nanosecond timestamp")
    pure (ticks / ticksPerSecond, scaled / ticksPerSecond % 2 ^ 32)
  | none => do
    rejectIf (ticks ≠ 0) (.metadataNotRepresentable .pcapNg "sub-nanosecond timestamp")
    pure (0, 0)

def timestampFromTicks (ticks : ℕ) (resolution : TimestampResolution) (offset : Int64) :
    Exec Error SystemTime := do
  let (wholeSeconds, nanoseconds) ← secondsOfTicks ticks resolution
  let unixSeconds ←
    okOr ((i128 wholeSeconds).bind fun seconds => i128 (seconds + offset.toInt)) outOfRange
  systemTimeFromSignedUnix unixSeconds nanoseconds

/-- The duration since the epoch or before it, floored to seconds. -/
def unixFloor (time : SystemTime) : Exec Error (ℤ × ℕ) :=
  let elapsed := time.nanos.natAbs
  if 0 ≤ time.nanos then pure ((elapsed / 1000000000 : ℕ), elapsed % 1000000000)
  else if elapsed % 1000000000 = 0 then pure (-(elapsed / 1000000000 : ℕ), 0)
  else do
    let seconds ← unwrap (i128 (-(elapsed / 1000000000 : ℕ) - 1))
    let nanoseconds ← Exec.sub 1000000000 (elapsed % 1000000000)
    pure (seconds, nanoseconds)

def timestampToTicks (timestamp : SystemTime) (resolution : TimestampResolution) (offset : Int64) :
    Exec Error ℕ := do
  let (unixSeconds, nanoseconds) ← unixFloor timestamp
  let relativeSeconds ← okOr (i128 (unixSeconds - offset.toInt)) outOfRange
  rejectIf (relativeSeconds < 0) outOfRange
  if relativeSeconds = 0 ∧ nanoseconds = 0 then pure 0
  else lift (ticksOfSeconds relativeSeconds.toNat nanoseconds resolution)

/-! ### The machine computes the conversions on integers -/

theorem lift_okOr {α : Type} (x : Option α) (e : Error) : lift (.okOr x e) = okOr x e := by
  cases x <;> rfl

theorem error_bind {α β : Type} (e : Error) (f : α → Exec Error β) :
    lift (.error e) >>= f = fail e := rfl

theorem lift_bind {α β : Type} (x : Except Error α) (f : α → Except Error β) :
    lift (x >>= f) = lift x >>= fun a => lift (f a) := by
  cases x <;> rfl

theorem u128_eq {n : ℕ} (h : n < 2 ^ 128) : u128 n = some n := if_pos h

theorem i128_eq {n : ℤ} (h : -2 ^ 127 ≤ n ∧ n < 2 ^ 127) : i128 n = some n := if_pos h

theorem duration_eq {s n : ℕ} (h : s < wordLimit) (hn : n < 1000000000) :
    duration s n = .ok (s * 1000000000 + n) :=
  if_pos (by unfold wordLimit at h; omega)

theorem ofNanos?_eq_none {n : ℤ} (h : n < -(2 ^ 63 * 1000000000) ∨ 2 ^ 63 * 1000000000 ≤ n) :
    SystemTime.ofNanos? n = none :=
  dif_neg (by omega)

/-- Seconds and nanoseconds of either sign: a word holds the magnitude of what can be
represented. -/
theorem systemTimeFromSignedUnix_eq {s : ℤ} {n : ℕ}
    (hsc : -2 ^ 63 ≤ s ∧ s < 2 ^ 65) (hn : n < 1000000000) :
    systemTimeFromSignedUnix s n = lift (Capture.systemTimeFromSignedUnix s n) := by
  have hl : wordLimit = 2 ^ 64 := rfl
  rw [Capture.systemTimeFromSignedUnix, lift_okOr, systemTimeFromSignedUnix]
  split_ifs with hs hz
  · by_cases hw : s.toNat < wordLimit
    · rw [wordOfInt_eq_some.mpr ⟨hs, hw, rfl⟩, okOr_some, ok_bind, duration_eq hw hn, ok_bind]
      congr 2
      omega
    · rw [wordOfInt, if_pos hs, wordOf, if_neg hw, ofNanos?_eq_none (by omega)]
      rfl
  · have hw : (-s).toNat < wordLimit := by omega
    rw [i128_eq (by omega), Option.bind_some, wordOfInt_eq_some.mpr ⟨by omega, hw, rfl⟩,
      okOr_some, ok_bind, duration_eq hw (by omega), ok_bind]
    congr 2
    omega
  · have hw : (-s - 1).toNat < wordLimit := by omega
    rw [i128_eq (by omega), Option.bind_some, i128_eq (by omega), Option.bind_some,
      wordOfInt_eq_some.mpr ⟨by omega, hw, rfl⟩, okOr_some, ok_bind,
      okOr_checkedSub hn.le, ok_bind, duration_eq hw (by omega), ok_bind]
    congr 2
    omega

variable {resolution : TimestampResolution}

theorem nanoseconds_lt (ticks : ℕ) {tps : ℕ} (hp : 0 < tps) :
    ticks % tps * 1000000000 / tps < 1000000000 := by
  rw [Nat.div_lt_iff_lt_mul hp, Nat.mul_comm 1000000000]
  exact Nat.mul_lt_mul_of_pos_right (Nat.mod_lt _ hp) (by decide)

theorem secondsOfTicks_eq (ticks : UInt64) :
    secondsOfTicks ticks.toNat resolution = lift (Capture.secondsOfTicks ticks.toNat resolution) := by
  have htc := ticks.toNat_lt
  unfold secondsOfTicks Capture.secondsOfTicks rejectIf
  cases ht : resolution.ticksPerSecond with
  | none =>
    split_ifs <;> rfl
  | some tps =>
    have hp := TimestampResolution.ticksPerSecond_pos ht
    have hle := Nat.mod_le ticks.toNat tps
    dsimp only
    rw [assert_eq hp.ne', ok_bind, unwrap_eq (u128_eq (by omega)), ok_bind,
      Nat.mod_eq_of_lt ((nanoseconds_lt ticks.toNat hp).trans (by decide))]
    split_ifs <;> rfl

theorem secondsOfTicks_ok {ticks s n : ℕ}
    (h : Capture.secondsOfTicks ticks resolution = .ok (s, n)) :
    s ≤ ticks ∧ n < 1000000000 ∧ (ticks = 0 ∧ s = 0 ∧ n = 0 ∨
      ∃ tps, resolution.ticksPerSecond = some tps ∧ ticks = s * tps + ticks % tps ∧
        n * tps = ticks % tps * 1000000000) := by
  unfold Capture.secondsOfTicks at h
  cases ht : resolution.ticksPerSecond with
  | none =>
    rw [ht] at h
    split_ifs at h with hz
    cases h
    omega
  | some tps =>
    have hp := TimestampResolution.ticksPerSecond_pos ht
    rw [ht] at h
    dsimp only at h
    split_ifs at h with hw
    cases h
    refine ⟨Nat.div_le_self _ _, nanoseconds_lt ticks hp, .inr ⟨tps, rfl, ?_, ?_⟩⟩
    · exact (Nat.div_add_mod' ticks tps).symm
    · exact Nat.div_mul_cancel (Nat.dvd_of_mod_eq_zero (not_not.mp hw))

variable (o : Int64)

theorem timestampFromTicks_eq (ticks : UInt64) : timestampFromTicks ticks.toNat resolution o =
      lift (Capture.timestampFromTicks ticks.toNat resolution o) := by
  have ht := ticks.toNat_lt
  have hlow := o.le_toInt
  have hh := o.toInt_lt
  rw [timestampFromTicks, Capture.timestampFromTicks, lift_bind, secondsOfTicks_eq]
  cases hs : Capture.secondsOfTicks ticks.toNat resolution with
  | error e => rw [error_bind, error_bind]
  | ok s =>
    obtain ⟨hle, hn, -⟩ := secondsOfTicks_ok hs
    rw [show lift (.ok s) = .ok s from rfl, ok_bind, ok_bind]
    dsimp only
    rw [i128_eq (by omega), Option.bind_some, i128_eq (by omega), okOr_some, ok_bind]
    exact systemTimeFromSignedUnix_eq (by omega) hn

theorem unixFloor_eq (time : SystemTime) : unixFloor time = .ok time.unixFloor := by
  have hlow := time.low
  unfold unixFloor SystemTime.unixFloor
  dsimp only
  split_ifs with hs hw
  · exact congrArg Except.ok (Prod.ext (by dsimp only; omega) (by dsimp only; omega))
  · exact congrArg Except.ok (Prod.ext (by dsimp only; omega) (by dsimp only; omega))
  · rw [unwrap_eq (i128_eq (by omega)), ok_bind, sub_eq (by omega), ok_bind]
    exact congrArg Except.ok (Prod.ext (by dsimp only; omega) (by dsimp only; omega))

theorem timestampToTicks_eq (time : SystemTime) : timestampToTicks time resolution o =
      lift (Capture.timestampToTicks time resolution o) := by
  have hlow := o.le_toInt
  have hh := o.toInt_lt
  have ht := time.unixFloor_spec
  have htm := time.low
  have hth := time.high
  rw [timestampToTicks, unixFloor_eq, ok_bind, Capture.timestampToTicks]
  generalize time.unixFloor = floor at ht ⊢
  obtain ⟨s, n⟩ := floor
  dsimp only at ht ⊢
  rw [i128_eq (by omega), okOr_some, ok_bind]
  by_cases hn : s - o.toInt < 0
  · rw [rejectIf, if_pos hn, if_pos hn]
    rfl
  · rw [rejectIf_neg hn, ok_bind, if_neg hn]
    split_ifs <;> rfl

theorem lift_ne_panic {α : Type} (x : Except Error α) (p : Panic) : lift x ≠ .error (.panic p) := by
  cases x <;> nofun

theorem lift_eq_ok {α : Type} {x : Except Error α} {a : α} : lift x = .ok a ↔ x = .ok a :=
  Except.mapError_eq_ok

end Machine

open Except

variable {resolution : TimestampResolution} {offset : Int64} {time : SystemTime} {ticks : ℕ}

/-- A timestamp that was read is written with the same ticks. -/
theorem timestampToTicks_timestampFromTicks (hw : ticks < 2 ^ 64)
    (h : timestampFromTicks ticks resolution offset = .ok time) :
    timestampToTicks time resolution offset = .ok ticks := by
  obtain ⟨⟨seconds, nanoseconds⟩, hs, h⟩ := bind_eq_ok.mp h
  obtain ⟨-, hnn, he⟩ := Machine.secondsOfTicks_ok hs
  dsimp only at h
  rw [systemTimeFromSignedUnix, okOr_eq_ok, SystemTime.ofNanos?] at h
  split_ifs at h
  cases h
  have hf : ((seconds + offset.toInt) * 1000000000 + nanoseconds) / 1000000000 - offset.toInt =
      seconds := by omega
  have hr : (((seconds + offset.toInt) * 1000000000 + nanoseconds) % 1000000000).toNat =
      nanoseconds := by omega
  simp only [timestampToTicks, SystemTime.unixFloor, hf, hr, Int.toNat_natCast]
  rw [if_neg (by omega)]
  rcases he with ⟨rfl, rfl, rfl⟩ | ⟨tps, ht, htc, hsl⟩
  · rfl
  split_ifs with hz
  · obtain ⟨hn, rfl⟩ := hz
    obtain rfl := Int.natCast_eq_zero.mp hn
    exact congrArg Except.ok (by omega)
  · have hq : nanoseconds * tps / 1000000000 = ticks % tps := by omega
    rw [ticksOfSeconds, ht, okOr, ok_bind, rejectIf_neg (by omega),
      ok_bind, rejectIf_neg (by omega), ok_bind, hq, ← htc]
    dsimp only
    rw [rejectIf_neg (by omega), ok_bind, rejectIf_neg (by omega)]
    rfl

/-- **Tick conversion is exact.** For every resolution and offset neither conversion panics, ticks
that are a time are those of that time, and a time that is a number of ticks is the time of those
ticks. -/
theorem ticks_exact (resolution : TimestampResolution) (offset : Int64) :
    (∀ (ticks : UInt64) panic,
      Machine.timestampFromTicks ticks.toNat resolution offset ≠ .error (.panic panic)) ∧
    (∀ time panic, Machine.timestampToTicks time resolution offset ≠ .error (.panic panic)) ∧
    (∀ (ticks : UInt64) time, Machine.timestampFromTicks ticks.toNat resolution offset = .ok time →
      Machine.timestampToTicks time resolution offset = .ok ticks.toNat) ∧
    ∀ time ticks, Machine.timestampToTicks time resolution offset = .ok ticks →
      ticks < 2 ^ 64 ∧ Machine.timestampFromTicks ticks resolution offset = .ok time := by
  refine ⟨fun ticks panic => ?_, fun time panic => ?_, fun ticks time h => ?_, fun time ticks h => ?_⟩
  · rw [Machine.timestampFromTicks_eq]
    exact Machine.lift_ne_panic _ _
  · rw [Machine.timestampToTicks_eq]
    exact Machine.lift_ne_panic _ _
  · rw [Machine.timestampFromTicks_eq, Machine.lift_eq_ok] at h
    rw [Machine.timestampToTicks_eq, Machine.lift_eq_ok]
    exact timestampToTicks_timestampFromTicks ticks.toNat_lt h
  · rw [Machine.timestampToTicks_eq, Machine.lift_eq_ok] at h
    obtain ⟨hw, h⟩ := timestampFromTicks_timestampToTicks h
    refine ⟨hw, ?_⟩
    rw [← UInt64.toNat_ofNat_of_lt' hw] at h ⊢
    rw [Machine.timestampFromTicks_eq, Machine.lift_eq_ok]
    exact h

/-- A quarter of a second, in ticks of a sixteenth of a second, before the epoch. -/
theorem ticks_exact_quarter :
    let time : SystemTime := ⟨-250000000, by decide, by decide⟩
    Machine.timestampFromTicks 12 (.binary 4) (-1) = .ok time ∧
      Machine.timestampToTicks time (.binary 4) (-1) = .ok 12 := by
  have h : Machine.timestampFromTicks 12 (.binary 4) (-1) =
      .ok ⟨-250000000, by decide, by decide⟩ := by decide +kernel
  exact ⟨h, (ticks_exact (.binary 4) (-1)).2.2.1 12 _ h⟩

end PacketCraftr.Capture
