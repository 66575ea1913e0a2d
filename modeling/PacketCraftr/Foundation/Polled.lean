import PacketCraftr.Foundation.Outcome

/-!
# Computations that poll for an interruption

A long computation asks now and then whether it has to stop. The answers are a sequence, one for
every time it asks, and the computation carries the number of answers it has used.

`Meets E x P` says that the computation `x`, wherever in the sequence it starts, returns a value
that satisfies `P` unless it fails with an error that satisfies `E`.
-/

/-- A computation that has used some answers when it starts and more when it returns. -/
abbrev Polled (ε α : Type) : Type := StateT ℕ (Except ε) α

namespace Polled

variable {ε α β σ : Type}

/-- Ask once; the answer may be an error, which stops the computation. -/
def poll (answers : ℕ → Except ε Unit) : Polled ε Unit := fun asked => do
  answers asked
  .ok ((), asked + 1)

/-- A computation that never asks. -/
def lift (x : Except ε α) : Polled ε α := fun asked => x.map fun a => (a, asked)

/-- Wherever it starts, the computation returns a value with `P` or fails with an error with `E`. -/
def Meets (E : ε → Prop) (x : Polled ε α) (P : α → Prop) : Prop :=
  ∀ asked, Outcome E (x asked) fun r => P r.1

namespace Meets

variable {E : ε → Prop} {P Q : α → Prop}

theorem pure {a : α} (h : P a) : Meets E (Pure.pure a) P := fun _ => h

theorem bind {x : Polled ε α} {f : α → Polled ε β} {R : β → Prop} (hx : Meets E x P)
    (hf : ∀ a, P a → Meets E (f a) R) : Meets E (x >>= f) R := by
  intro ak
  exact Outcome.bind (hx ak) fun r hr => hf r.1 hr r.2

theorem weaken {x : Polled ε α} (hx : Meets E x P) (h : ∀ a, P a → Q a) : Meets E x Q :=
  fun ak => (hx ak).weaken (fun _ he => he) fun r hr => h r.1 hr

theorem poll {a : ℕ → Except ε Unit} (h : ∀ n e, a n = .error e → E e) :
    Meets E (Polled.poll a) fun _ => True := by
  intro ak
  unfold Polled.poll
  cases ha : a ak with
  | error e => exact h ak e ha
  | ok _ => trivial

theorem lift {x : Except ε α} (h : Outcome E x P) : Meets E (Polled.lift x) P := by
  intro ak
  cases x with
  | error e => exact h
  | ok a => exact h

/-- What one turn of a loop keeps holds after the loop. The invariant is about the state and the
elements still to come. -/
theorem foldlM {f : σ → α → Polled ε σ} (I : σ → List α → Prop) {l : List α} {s : σ}
    (hs : ∀ s a l, I s (a :: l) → Meets E (f s a) fun s' => I s' l) (h : I s l) :
    Meets E (l.foldlM f s) fun s' => I s' [] := by
  induction l generalizing s with
  | nil => exact pure h
  | cons a l ih =>
    exact (hs s a l h).bind fun s' hs' => ih hs'

end Meets

end Polled
