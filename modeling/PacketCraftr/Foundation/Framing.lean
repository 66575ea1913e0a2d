import Mathlib.Data.List.TakeDrop

/-!
# Framing a stream that arrives in pieces

A framer looks at the front of a stream and says that it holds a frame, that it never will, or
that more of the stream is needed. A machine takes frames off the front, one after the other, and
keeps what is left until the next piece arrives. When the framer never changes its mind about a
longer front, the machine cannot tell how the stream was cut.
-/

namespace Framing

/-- What a framer says of the front of a stream. -/
inductive Front (β ε : Type*)
  /-- Too little of the stream is there to say. -/
  | more
  /-- A frame of this length, and what it holds. -/
  | frame (length : ℕ) (value : β)
  /-- No frame starts here, whatever follows. -/
  | fail (error : ε)
  deriving DecidableEq, Repr

/-- A framer that never changes its mind, with what a state makes of its frames. A state that has
halted takes no more of the stream. -/
structure Machine (α β ε σ : Type*) where
  /-- The framer, which may follow the state. -/
  parse : σ → List α → Front β ε
  /-- Whether the state takes no more frames. -/
  halted : σ → Bool
  /-- Take a frame. -/
  apply : σ → β → σ
  /-- Take a failure. -/
  fail : σ → ε → σ
  /-- A frame has at least one element. -/
  frame_pos : ∀ {s x n v}, parse s x = .frame n v → 0 < n
  /-- A frame is part of what the framer saw. -/
  frame_le : ∀ {s x n v}, parse s x = .frame n v → n ≤ x.length
  /-- A frame is the same frame when more of the stream is there. -/
  frame_append : ∀ {s x n v}, parse s x = .frame n v → ∀ y, parse s (x ++ y) = .frame n v
  /-- A failure is the same failure when more of the stream is there. -/
  fail_append : ∀ {s x e}, parse s x = .fail e → ∀ y, parse s (x ++ y) = .fail e
  /-- A failure halts. -/
  halted_fail : ∀ s e, halted (fail s e) = true

namespace Machine

variable {α β ε σ : Type*} (m : Machine α β ε σ)

/-- The frames taken off the front of a stream, at most `fuel` of them, and what is left. -/
def steps : ℕ → σ → List α → σ × List α
  | 0, s, x => (s, x)
  | fuel + 1, s, x =>
    if m.halted s then (s, x)
    else
      match m.parse s x with
      | .more => (s, x)
      | .frame n v => steps fuel (m.apply s v) (x.drop n)
      | .fail e => (m.fail s e, x)

/-- All the frames taken off the front of a stream, and what is left of it. -/
def run (s : σ) (x : List α) : σ × List α := m.steps (x.length + 1) s x

variable {m} {s : σ} {x : List α}

theorem length_drop_lt {n : ℕ} {v : β} (h : m.parse s x = .frame n v) :
    (x.drop n).length < x.length := by
  have hp := m.frame_pos h
  have hle := m.frame_le h
  rw [List.length_drop]
  omega

/-- Any two numbers of steps greater than the length of the stream do the same. -/
theorem steps_congr {fuel other : ℕ} (hf : x.length < fuel) (ho : x.length < other) :
    m.steps fuel s x = m.steps other s x := by
  induction fuel generalizing other s x with
  | zero => exact absurd hf (Nat.not_lt_zero _)
  | succ fuel ih =>
    obtain ⟨other, rfl⟩ : ∃ k, other = k + 1 := ⟨other - 1, by omega⟩
    rw [steps, steps]
    cases hp : m.parse s x with
    | more => rfl
    | fail e => rfl
    | frame n v =>
      have hlt := m.length_drop_lt hp
      have hr := ih (s := m.apply s v) (x := x.drop n) (by omega) (by omega : _ < other)
      simp only [hr]

theorem run_of_halted (h : m.halted s = true) : m.run s x = (s, x) := by
  rw [run, steps, if_pos h]

theorem run_of_more (h : m.parse s x = .more) : m.run s x = (s, x) := by
  rw [run, steps, h, ite_self]

theorem run_of_frame {n : ℕ} {v : β} (hs : m.halted s = false) (h : m.parse s x = .frame n v) :
    m.run s x = m.run (m.apply s v) (x.drop n) := by
  rw [run, steps, hs, h]
  exact steps_congr (m.length_drop_lt h) (Nat.lt_succ_self _)

theorem run_of_fail {e : ε} (hs : m.halted s = false) (h : m.parse s x = .fail e) :
    m.run s x = (m.fail s e, x) := by
  rw [run, steps, hs, h]
  rfl

/-- A run over a longer stream continues the run over its front. -/
theorem run_append (s : σ) (x y : List α) :
    m.run s (x ++ y) = m.run (m.run s x).1 ((m.run s x).2 ++ y) := by
  induction hn : x.length using Nat.strongRecOn generalizing x s with
  | ind len ih =>
    subst hn
    cases hs : m.halted s with
    | true => rw [run_of_halted hs, run_of_halted (x := x) hs, run_of_halted hs]
    | false =>
      cases hp : m.parse s x with
      | more => rw [run_of_more hp]
      | fail e =>
        rw [run_of_fail hs (m.fail_append hp y), run_of_fail hs hp,
          run_of_halted (m.halted_fail s e)]
      | frame n v =>
        rw [run_of_frame hs (m.frame_append hp y), run_of_frame hs hp,
          List.drop_append_of_le_length (m.frame_le hp)]
        exact ih _ (m.length_drop_lt hp) _ _ rfl

/-- A run that has not halted waits for more of the stream. -/
theorem parse_run (h : m.halted (m.run s x).1 = false) :
    m.parse (m.run s x).1 (m.run s x).2 = .more := by
  induction hn : x.length using Nat.strongRecOn generalizing x s with
  | ind len ih =>
    subst hn
    cases hs : m.halted s with
    | true =>
      rw [run_of_halted hs] at h
      exact absurd (hs.symm.trans h) Bool.noConfusion
    | false =>
      cases hp : m.parse s x with
      | more => rwa [run_of_more hp]
      | fail e =>
        rw [run_of_fail hs hp] at h
        exact absurd ((m.halted_fail s e).symm.trans h) Bool.noConfusion
      | frame n v =>
        rw [run_of_frame hs hp] at h ⊢
        exact ih _ (m.length_drop_lt hp) h rfl

/-- What every frame and every failure keeps, with what is left of the stream, holds at the end of
a run. -/
theorem run_invariant (I : σ → List α → Prop)
    (hf : ∀ s x n v, m.halted s = false → m.parse s x = .frame n v → I s x →
      I (m.apply s v) (x.drop n))
    (hfl : ∀ s x e, m.halted s = false → m.parse s x = .fail e → I s x → I (m.fail s e) x)
    (h : I s x) : I (m.run s x).1 (m.run s x).2 := by
  induction hn : x.length using Nat.strongRecOn generalizing x s with
  | ind len ih =>
    subst hn
    cases hs : m.halted s with
    | true => rwa [run_of_halted hs]
    | false =>
      cases hp : m.parse s x with
      | more => rwa [run_of_more hp]
      | fail e => exact run_of_fail hs hp ▸ hfl s x e hs hp h
      | frame n v =>
        rw [run_of_frame hs hp]
        exact ih _ (m.length_drop_lt hp) (hf s x n v hs hp h) rfl

end Machine

end Framing
