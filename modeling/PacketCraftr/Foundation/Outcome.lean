import Mathlib.Algebra.Order.Ring.Nat

/-!
# What holds of a computation that may fail

`Outcome E x P` says that an error of the computation `x` satisfies `E` and that a value of it
satisfies `P`. It composes along `bind`, so that a program which keeps an invariant, also in what it
leaves behind when it fails, is verified part by part.
-/

/-- An error of the computation satisfies `E`, and a value of it satisfies `P`. -/
def Outcome {ε α : Type*} (E : ε → Prop) (x : Except ε α) (P : α → Prop) : Prop :=
  match x with
  | .ok a => P a
  | .error e => E e

namespace Outcome

variable {ε ε' α β : Type} {E : ε → Prop} {P Q : α → Prop}

theorem of_ok {a : α} (h : P a) : Outcome E (.ok a) P := h

theorem of_error {e : ε} (h : E e) : Outcome E (.error e : Except ε α) P := h

variable {x : Except ε α} {f : α → Except ε β}

theorem bind_eq {R : β → Prop} (hx : Outcome E x P)
    (hf : ∀ a, x = .ok a → P a → Outcome E (f a) R) : Outcome E (x >>= f) R := by
  cases x with
  | error e => exact hx
  | ok a => exact hf a rfl hx

theorem bind {R : β → Prop} (hx : Outcome E x P) (hf : ∀ a, P a → Outcome E (f a) R) :
    Outcome E (x >>= f) R :=
  hx.bind_eq fun a _ ha => hf a ha

theorem mapError {f : ε → ε'} {E' : ε' → Prop} (hx : Outcome (fun e => E' (f e)) x P) :
    Outcome E' (x.mapError f) P := by
  cases x with
  | error e => exact hx
  | ok a => exact hx

theorem of_errors (h : ∀ e, E e) : Outcome E x fun a => x = .ok a := by
  cases x with
  | error e => exact h e
  | ok a => rfl

theorem weaken {E' : ε → Prop} (h : Outcome E x P) (hE : ∀ e, E e → E' e) (hP : ∀ a, P a → Q a) :
    Outcome E' x Q := by
  cases x with
  | error e => exact hE e h
  | ok a => exact hP a h

end Outcome

namespace Except

variable {ε α β : Type}

/-- Report `e` when the condition holds. -/
def rejectIf (c : Prop) [Decidable c] (e : ε) : Except ε Unit := if c then .error e else .ok ()

/-- The value of an option, or an error when there is none. -/
def okOr (x : Option α) (e : ε) : Except ε α :=
  match x with
  | some a => .ok a
  | none => .error e

theorem bind_eq_ok {x : Except ε α} {f : α → Except ε β} {b : β} :
    (x >>= f) = .ok b ↔ ∃ a, x = .ok a ∧ f a = .ok b := by
  cases x with
  | error e => exact ⟨nofun, fun ⟨_, h, _⟩ => nomatch h⟩
  | ok a =>
    refine ⟨fun h => ⟨a, rfl, h⟩, ?_⟩
    rintro ⟨_, ⟨⟩, hf⟩
    exact hf

@[simp]
theorem ok_bind (a : α) (f : α → Except ε β) : ((.ok a : Except ε α) >>= f) = f a := rfl

variable {c : Prop} [Decidable c]

@[simp]
theorem rejectIf_eq_ok {e : ε} {u : Unit} : rejectIf c e = .ok u ↔ ¬ c := by
  unfold rejectIf
  split_ifs with h
  · exact ⟨nofun, fun hn => absurd h hn⟩
  · exact ⟨fun _ => h, fun _ => rfl⟩

theorem rejectIf_neg (h : ¬ c) (e : ε) : rejectIf c e = .ok () := if_neg h

theorem rejectIf_bind (e : ε) (f : Unit → Except ε β) :
    (rejectIf c e >>= f) = if c then .error e else f () := by
  unfold rejectIf
  split_ifs <;> rfl

theorem rejectIf_bind_eq_ok {e : ε} {f : Unit → Except ε β} {b : β} :
    (rejectIf c e >>= f) = .ok b ↔ ¬ c ∧ f () = .ok b := by
  rw [bind_eq_ok]
  exact ⟨fun ⟨_, h, hf⟩ => ⟨rejectIf_eq_ok.mp h, hf⟩, fun ⟨h, hf⟩ => ⟨(), rejectIf_neg h e, hf⟩⟩

@[simp]
theorem okOr_eq_ok {x : Option α} {e : ε} {a : α} : okOr x e = .ok a ↔ x = some a := by
  cases x with
  | none => exact ⟨nofun, nofun⟩
  | some b => rw [okOr, Except.ok.injEq, Option.some.injEq]

theorem mapError_eq_ok {ε' : Type} {x : Except ε α} {f : ε → ε'} {a : α} :
    x.mapError f = .ok a ↔ x = .ok a := by
  cases x with
  | error e => exact ⟨nofun, nofun⟩
  | ok b => exact ⟨fun h => congrArg Except.ok (Except.ok.inj h),
      fun h => congrArg Except.ok (Except.ok.inj h)⟩

/-- A fold that succeeds has had a turn at every element of the list, between states that are
related to the last one if every turn relates them. -/
theorem foldlM_eq_ok_of_mem {σ : Type} {f : σ → α → Except ε σ} (R : σ → σ → Prop)
    (hr : ∀ s, R s s) (htr : ∀ s t u, R s t → R t u → R s u)
    (hs : ∀ s a t, f s a = .ok t → R s t) {l : List α} {s r : σ}
    (h : l.foldlM f s = .ok r) {a : α} (hmem : a ∈ l) : ∃ t u, f t a = .ok u ∧ R u r := by
  have hrs : ∀ (l : List α) (s : σ), l.foldlM f s = .ok r → R s r := by
    intro l
    induction l with
    | nil =>
      intro s h
      cases h
      exact hr _
    | cons b l ih =>
      intro s h
      obtain ⟨t, ht, h⟩ := bind_eq_ok.mp h
      exact htr _ _ _ (hs _ _ _ ht) (ih t h)
  induction l generalizing s with
  | nil => cases hmem
  | cons b l ih =>
    rw [List.foldlM_cons] at h
    obtain ⟨t, ht, hl⟩ := bind_eq_ok.mp h
    rcases List.mem_cons.mp hmem with rfl | hmem
    · exact ⟨s, t, ht, hrs l t hl⟩
    · exact ih hl hmem

end Except
