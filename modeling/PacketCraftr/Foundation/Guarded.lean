import Mathlib.Tactic.TypeStar

/-!
# Computations that are checked on the way

A guarded computation has a value and the first check on the way that fails, if one fails. Run, it
gives the error of that check, or else the value. The value does not depend on what is checked: two
computations that differ in their checks alone have one value.
-/

/-- A value, and the first check that fails. -/
structure Guarded (ε α : Type) where
  value : α
  fault : Option ε
  deriving DecidableEq, Repr

namespace Guarded

variable {ε α β : Type}

instance : Monad (Guarded ε) where
  pure a := ⟨a, none⟩
  bind x f := ⟨(f x.value).value, x.fault.or (f x.value).fault⟩

def check (x : Except ε Unit) : Guarded ε Unit :=
  ⟨(), match x with | .ok _ => none | .error e => some e⟩

/-- A check that always fails; the value stands for a result that is never used. -/
def fail (e : ε) (a : α) : Guarded ε α := ⟨a, some e⟩

/-- The error of the first check that fails, or the value. -/
def run (x : Guarded ε α) : Except ε α :=
  match x.fault with
  | none => .ok x.value
  | some e => .error e

@[simp] theorem value_pure (a : α) : (pure a : Guarded ε α).value = a := rfl

@[simp] theorem value_bind (x : Guarded ε α) (f : α → Guarded ε β) :
    (x >>= f).value = (f x.value).value := rfl

theorem run_eq_ok {x : Guarded ε α} {a : α} : x.run = .ok a ↔ x.fault = none ∧ x.value = a := by
  obtain ⟨b, _ | e⟩ := x
  · exact ⟨fun h => ⟨rfl, Except.ok.inj h⟩, fun h => congrArg Except.ok h.2⟩
  · exact ⟨nofun, nofun⟩

theorem run_eq_error {x : Guarded ε α} {e : ε} : x.run = .error e ↔ x.fault = some e := by
  obtain ⟨b, _ | e'⟩ := x
  · exact ⟨nofun, nofun⟩
  · exact ⟨fun h => congrArg some (Except.error.inj h), fun h => congrArg _ (Option.some.inj h)⟩

theorem value_foldlM (f : α → β → Guarded ε α) (a : α) (l : List β) :
    (l.foldlM f a).value = l.foldl (fun a b => (f a b).value) a := by
  induction l generalizing a with
  | nil => rfl
  | cons b l ih => exact ih (f a b).value

/-- The value satisfies `P`, and every error that a check reports satisfies `E`. -/
def Ensures (E : ε → Prop) (x : Guarded ε α) (P : α → Prop) : Prop :=
  P x.value ∧ ∀ e, x.fault = some e → E e

namespace Ensures

variable {E : ε → Prop} {x : Guarded ε α} {f : α → Guarded ε β} {P : α → Prop} {Q : β → Prop}

theorem pure {a : α} (h : P a) : Ensures E (Pure.pure a) P := ⟨h, nofun⟩

theorem bind (hx : Ensures E x P) (hf : ∀ a, P a → Ensures E (f a) Q) : Ensures E (x >>= f) Q := by
  obtain ⟨hv, hr⟩ := hf _ hx.1
  refine ⟨hv, fun e he => ?_⟩
  rcases Option.or_eq_some_iff.mp he with he | ⟨-, he⟩
  · exact hx.2 e he
  · exact hr e he

theorem check {x : Except ε Unit} (h : ∀ e, x = .error e → E e) :
    Ensures E (Guarded.check x) fun _ => True := by
  refine ⟨trivial, fun e he => ?_⟩
  cases x with
  | ok _ => cases he
  | error e' =>
    cases he
    exact h e rfl

theorem mono {P' : α → Prop} (hx : Ensures E x P) (h : ∀ a, P a → P' a) : Ensures E x P' :=
  ⟨h _ hx.1, hx.2⟩

/-- What a loop over a list keeps holds at its end. -/
theorem foldlM {f : α → β → Guarded ε α} {a : α} (l : List β) (ha : P a)
    (hf : ∀ a b, P a → Ensures E (f a b) P) : Ensures E (l.foldlM f a) P := by
  induction l generalizing a with
  | nil => exact pure ha
  | cons b l ih => exact (hf a b ha).bind fun a ha => ih ha

end Ensures

end Guarded
