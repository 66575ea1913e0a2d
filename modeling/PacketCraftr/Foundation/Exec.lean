import Mathlib.Algebra.Order.Ring.Nat

/-!
# Executions that return, fail or panic

A checked program either returns a value, reports an error to its caller, or aborts: an
arithmetic overflow, an index outside its slice, a failed unwrapping or a failed assertion. The
type `Exec ε α` keeps the last outcome apart from the errors of the program, so that "never
panics" is a statement about the model and not a property of how it was written down.

The judgements on executions (`EnsuresUnless`, `Returns`, `Yields`) compose along `bind`, and a fold
keeps an invariant that each of its steps keeps. `Below` compares two executions.
-/

/-- What aborted an execution. -/
inductive Panic
  | overflow
  | bounds
  | unwrap
  | assertion
  deriving DecidableEq, Repr

/-- An execution that did not return: an error reported to the caller, or a panic. -/
inductive Failure (ε : Type*)
  | error (e : ε)
  | panic (p : Panic)
  deriving DecidableEq, Repr

/-- An execution that returns an `α`, reports an error `ε`, or panics. -/
abbrev Exec (ε α : Type*) := Except (Failure ε) α

open List

namespace Exec

variable {ε ε' α β σ : Type}

def abort (p : Panic) : Exec ε α := .error (.panic p)

def fail (e : ε) : Exec ε α := .error (.error e)

/-- Report `e` when the condition holds. -/
def rejectIf (c : Prop) [Decidable c] (e : ε) : Exec ε Unit :=
  if c then fail e else .ok ()

/-- Run a check on the value of an option, if there is one. -/
def whenSome (x : Option α) (f : α → Exec ε Unit) : Exec ε Unit :=
  match x with
  | some a => f a
  | none => .ok ()

/-- The value of an option, or the error `e`. -/
def okOr (x : Option α) (e : ε) : Exec ε α :=
  match x with
  | some a => .ok a
  | none => fail e

/-- The value of an option, or a panic. -/
def unwrap (x : Option α) : Exec ε α :=
  match x with
  | some a => .ok a
  | none => abort .unwrap

/-- Panic unless the condition holds. -/
def assert (c : Prop) [Decidable c] : Exec ε Unit :=
  if c then .ok () else abort .assertion

/-- Replace the error of an execution, keeping its panics. -/
def mapError (f : ε → ε') : Exec ε α → Exec ε' α
  | .ok a => .ok a
  | .error (.error e) => fail (f e)
  | .error (.panic p) => abort p

/-- The elements of the half-open range `[first, last)`, or a panic when it leaves the list. -/
def slice (xs : List α) (first last : ℕ) : Exec ε (List α) :=
  if first ≤ last ∧ last ≤ xs.length then .ok ((xs.take last).drop first) else abort .bounds

/-- The first `n` elements and the others, or a panic when there are fewer than `n`. -/
def splitAt (xs : List α) (n : ℕ) : Exec ε (List α × List α) :=
  if n ≤ xs.length then .ok (xs.take n, xs.drop n) else abort .bounds

/-- The list `xs` with `ys` written over the positions from `first` on. -/
def overwriteFrom (xs : List α) (first : ℕ) (ys : List α) : List α :=
  xs.take first ++ ys ++ xs.drop (first + ys.length)

/-- Write `ys` over the positions of `xs` from `first` on, or panic when they leave the list. -/
def overwrite (xs : List α) (first : ℕ) (ys : List α) : Exec ε (List α) :=
  if first + ys.length ≤ xs.length then .ok (overwriteFrom xs first ys) else abort .bounds

/-! ### Judgements -/

/-- The execution panics only when `B` holds, and a returned value satisfies `P`. -/
structure EnsuresUnless (B : Prop) (x : Exec ε α) (P : α → Prop) : Prop where
  of_eq_ok : ∀ {a}, x = .ok a → P a
  of_eq_panic : ∀ {p}, x = .error (.panic p) → B

/-- The execution does not panic, and a returned value satisfies `P`. -/
abbrev Ensures (x : Exec ε α) (P : α → Prop) : Prop := x.EnsuresUnless False P

/-- The execution returns a value satisfying `P`. -/
def Returns (x : Exec ε α) (P : α → Prop) : Prop := ∃ a, x = .ok a ∧ P a

variable {B : Prop} {x : Exec ε α} {P : α → Prop} {Q : β → Prop} {f : α → Exec ε β} {e : ε}
  {xs ys : List α} {first : ℕ}

theorem Returns.ensuresUnless (h : x.Returns P) : x.EnsuresUnless B P := by
  obtain ⟨a, rfl, ha⟩ := h
  exact ⟨fun hx => Except.ok.inj hx ▸ ha, nofun⟩

theorem EnsuresUnless.mono {Q : α → Prop} (h : x.EnsuresUnless B P) (hP : ∀ a, P a → Q a) :
    x.EnsuresUnless B Q :=
  ⟨fun hx => hP _ (h.of_eq_ok hx), h.of_eq_panic⟩

theorem EnsuresUnless.weaken {C : Prop} (h : x.EnsuresUnless B P) (hB : B → C) :
    x.EnsuresUnless C P :=
  ⟨h.of_eq_ok, fun hx => hB (h.of_eq_panic hx)⟩

theorem Returns.mono {Q : α → Prop} (h : x.Returns P) (hP : ∀ a, P a → Q a) : x.Returns Q := by
  obtain ⟨a, hx, ha⟩ := h
  exact ⟨a, hx, hP a ha⟩

theorem ensures_pure {a : α} (h : P a) : EnsuresUnless B (pure a : Exec ε α) P :=
  ⟨fun hx => Except.ok.inj hx ▸ h, nofun⟩

theorem ensures_fail (B : Prop) (e : ε) (P : α → Prop) : EnsuresUnless B (fail e : Exec ε α) P :=
  ⟨nofun, nofun⟩

theorem ensures_abort (h : B) (p : Panic) (P : α → Prop) : EnsuresUnless B (abort p : Exec ε α) P :=
  ⟨nofun, fun _ => h⟩

theorem returns_pure {a : α} (h : P a) : Returns (pure a : Exec ε α) P := ⟨a, rfl, h⟩

@[simp]
theorem ok_bind (a : α) (f : α → Exec ε β) : ((.ok a : Exec ε α) >>= f) = f a := rfl

theorem EnsuresUnless.bind (hx : x.EnsuresUnless B P) (hf : ∀ a, P a → (f a).EnsuresUnless B Q) :
    EnsuresUnless B (x >>= f) Q := by
  rcases x with (e | p) | a
  · exact ensures_fail B e Q
  · exact ensures_abort (hx.of_eq_panic rfl) p Q
  · exact hf a (hx.of_eq_ok rfl)

theorem Returns.bind (hx : x.Returns P) (hf : ∀ a, P a → (f a).Returns Q) :
    Returns (x >>= f) Q := by
  obtain ⟨a, rfl, ha⟩ := hx
  exact hf a ha

/-- A sequence that returns went through a value of its first part. -/
theorem bind_eq_ok {b : β} (h : x >>= f = .ok b) : ∃ a, x = .ok a ∧ f a = .ok b := by
  rcases x with _ | a
  · cases h
  · exact ⟨a, rfl, h⟩

theorem ensures_rejectIf {c : Prop} [Decidable c] {P : Unit → Prop} (h : ¬ c → P ()) :
    (rejectIf c e).EnsuresUnless B P := by
  unfold rejectIf
  split_ifs with hc
  · exact ensures_fail B e P
  · exact ensures_pure (h hc)

theorem ensures_okOr {x : Option α} (h : ∀ a, x = some a → P a) : (okOr x e).EnsuresUnless B P := by
  cases x with
  | none => exact ensures_fail B e P
  | some a => exact ensures_pure (h a rfl)

theorem ensures_rejectIf_bind {c : Prop} [Decidable c] {f : Unit → Exec ε β}
    (h : ¬ c → (f ()).EnsuresUnless B Q) :
    EnsuresUnless B (rejectIf c e >>= f) Q :=
  (ensures_rejectIf (P := fun _ => ¬ c) id).bind fun _ hc => h hc

theorem ensures_okOr_bind {x : Option α} (h : ∀ a, x = some a → (f a).EnsuresUnless B Q) :
    EnsuresUnless B (okOr x e >>= f) Q :=
  (ensures_okOr (P := fun a => x = some a) fun _ ha => ha).bind h

theorem ensures_whenSome {x : Option α} {f : α → Exec ε Unit}
    (h : ∀ a, x = some a → (f a).EnsuresUnless B fun _ => P a) :
    (whenSome x f).EnsuresUnless B fun _ => ∀ a, x = some a → P a := by
  cases x with
  | none => exact ensures_pure nofun
  | some a =>
    refine (h a rfl).mono fun _ ha => ?_
    rintro _ ⟨⟩
    exact ha

theorem unwrap_eq {x : Option α} {a : α} (h : x = some a) : (unwrap x : Exec ε α) = .ok a := by
  rw [h]
  rfl

theorem assert_eq {c : Prop} [Decidable c] (hc : c) : (assert c : Exec ε Unit) = .ok () := if_pos hc

theorem EnsuresUnless.mapError {f : ε → ε'} (h : x.EnsuresUnless B P) :
    (x.mapError f).EnsuresUnless B P := by
  rcases x with (e | p) | a
  · exact ensures_fail B (f e) P
  · exact ensures_abort (h.of_eq_panic rfl) p P
  · exact ensures_pure (h.of_eq_ok rfl)

theorem slice_eq {last : ℕ} (h : first ≤ last) (hl : last ≤ xs.length) :
    (slice xs first last : Exec ε (List α)) = .ok ((xs.take last).drop first) :=
  if_pos ⟨h, hl⟩

theorem splitAt_eq {n : ℕ} (h : n ≤ xs.length) :
    (splitAt xs n : Exec ε (List α × List α)) = .ok (xs.take n, xs.drop n) :=
  if_pos h

section

variable (h : first + ys.length ≤ xs.length)
include h

theorem overwrite_eq :
    (overwrite xs first ys : Exec ε (List α)) = .ok (overwriteFrom xs first ys) :=
  if_pos h

theorem length_overwriteFrom : (overwriteFrom xs first ys).length = xs.length := by
  simp only [overwriteFrom, length_append, length_take, length_drop]
  omega

/-- Reading an overwritten list: the new elements where it was overwritten, the old ones
elsewhere. -/
theorem getElem?_overwriteFrom (i : ℕ) : (overwriteFrom xs first ys)[i]? =
      if first ≤ i ∧ i < first + ys.length then ys[i - first]? else xs[i]? := by
  have ht : (xs.take first).length = first := by
    rw [length_take]
    omega
  unfold overwriteFrom
  by_cases hlow : i < first
  · rw [if_neg (by omega), append_assoc, getElem?_append_left (by omega), getElem?_take_of_lt hlow]
  · rw [append_assoc, getElem?_append_right (by omega), ht]
    by_cases hm : i < first + ys.length
    · rw [if_pos ⟨by omega, hm⟩, getElem?_append_left (by omega)]
    · rw [if_neg (by omega), getElem?_append_right (by omega), getElem?_drop]
      congr 1
      omega

theorem overwriteFrom_append {zs : List α} :
    overwriteFrom (xs ++ zs) first ys = overwriteFrom xs first ys ++ zs := by
  unfold overwriteFrom
  rw [take_append_of_le_length (by omega), drop_append_of_le_length h]
  simp only [append_assoc]

end

/-! ### Errors -/

/-- The execution does not panic, an error it reports satisfies `E` and a value it returns
satisfies `P`. -/
def Yields (E : ε → Prop) (x : Exec ε α) (P : α → Prop) : Prop :=
  match x with
  | .ok a => P a
  | .error (.error e) => E e
  | .error (.panic _) => False

section Yields

variable {E : ε → Prop} {P Q : α → Prop}

theorem yields_pure {a : α} (h : P a) : Yields E (pure a : Exec ε α) P := h

variable {e : ε} {x : Exec ε α} {f : α → Exec ε β} {R : β → Prop}

theorem yields_fail (h : E e) : Yields E (fail e : Exec ε α) P := h

theorem Yields.cases (h : Yields E x P) :
    (∃ a, x = .ok a ∧ P a) ∨ ∃ e, x = .error (.error e) ∧ E e := by
  rcases x with (e | p) | a
  · exact .inr ⟨e, rfl, h⟩
  · exact h.elim
  · exact .inl ⟨a, rfl, h⟩

theorem Yields.mono (h : Yields E x P) (hP : ∀ a, P a → Q a) : Yields E x Q := by
  rcases x with (e | p) | a
  · exact h
  · exact h
  · exact hP a h

theorem Yields.mapError {g : ε → ε'} {F : ε' → Prop} (h : Yields E x P) (hE : ∀ e, E e → F (g e)) :
    Yields F (x.mapError g) P := by
  rcases x with (e | p) | a
  · exact hE e h
  · exact h
  · exact h

theorem Returns.yields (h : x.Returns P) : Yields E x P := by
  obtain ⟨a, rfl, ha⟩ := h
  exact ha

theorem Yields.returns (h : Yields (fun _ => False) x P) : x.Returns P := by
  rcases x with (e | p) | a
  · exact h.elim
  · exact h.elim
  · exact ⟨a, rfl, h⟩

theorem Yields.of_eq_ok {a : α} (h : Yields E x P) (hx : x = .ok a) : P a := by
  subst hx
  exact h

/-- A failure of one part of an execution is a failure of the whole. -/
theorem Yields.of_error {e : Failure ε} {Q : β → Prop}
    (h : Yields E (.error e : Exec ε α) P) : Yields E (.error e : Exec ε β) Q := by
  cases e with
  | error e => exact h
  | panic p => exact h

theorem Yields.bind_eq (hx : Yields E x P) (hf : ∀ a, x = .ok a → P a → Yields E (f a) R) :
    Yields E (x >>= f) R := by
  rcases x with (e | p) | a
  · exact hx
  · exact hx.elim
  · exact hf a rfl hx

theorem Yields.bind (hx : Yields E x P) (hf : ∀ a, P a → Yields E (f a) R) : Yields E (x >>= f) R :=
  hx.bind_eq fun a _ ha => hf a ha

theorem yields_rejectIf {c : Prop} [Decidable c] {R : Unit → Prop} (he : c → E e) (h : ¬ c → R ()) :
    Yields E (rejectIf c e) R := by
  unfold rejectIf
  split_ifs with hc
  · exact he hc
  · exact h hc

theorem yields_okOr {x : Option α} (he : x = none → E e) (h : ∀ a, x = some a → P a) :
    Yields E (okOr x e) P := by
  cases x with
  | none => exact he rfl
  | some a => exact h a rfl

theorem yields_whenSome {x : Option α} {f : α → Exec ε Unit}
    (h : ∀ a, x = some a → Yields E (f a) fun _ => P a) :
    Yields E (whenSome x f) fun _ => ∀ a, x = some a → P a := by
  cases x with
  | none => exact yields_pure nofun
  | some a =>
    refine (h a rfl).mono fun _ ha => ?_
    rintro _ ⟨⟩
    exact ha

theorem yields_rejectIf_bind {c : Prop} [Decidable c] {f : Unit → Exec ε β} (he : c → E e)
    (h : ¬ c → Yields E (f ()) R) : Yields E (rejectIf c e >>= f) R :=
  (yields_rejectIf (R := fun _ => ¬ c) he id).bind fun _ hc => h hc

theorem yields_okOr_bind {x : Option α} (he : x = none → E e)
    (h : ∀ a, x = some a → Yields E (f a) R) :
    Yields E (okOr x e >>= f) R :=
  (yields_okOr (P := fun a => x = some a) he fun _ ha => ha).bind h

theorem rejectIf_neg {c : Prop} [Decidable c] (hc : ¬ c) : (rejectIf c e : Exec ε Unit) = .ok () :=
  if_neg hc

theorem okOr_eq_ok {x : Option α} {a : α} : okOr x e = .ok a ↔ x = some a := by
  cases x with
  | none => exact ⟨nofun, nofun⟩
  | some b => exact ⟨fun h => congrArg some (Except.ok.inj h), fun h => h ▸ rfl⟩

theorem okOr_some (a : α) (e : ε) : (okOr (some a) e : Exec ε α) = .ok a := rfl

end Yields

/-- The execution reports an error that satisfies `E`, or it is the same as another one. -/
def AgreesUnless (E : ε → Prop) (x y : Exec ε α) : Prop :=
  (∃ e, E e ∧ x = .error (.error e)) ∨ x = y

section AgreesUnless

variable {E : ε → Prop} {y : Exec ε β}

theorem AgreesUnless.refl (y : Exec ε β) : AgreesUnless E y y := .inr rfl

theorem AgreesUnless.eq {x : Exec ε β} (h : AgreesUnless E x y)
    (hx : ∀ e, E e → x ≠ .error (.error e)) : x = y := by
  rcases h with ⟨e, he, h⟩ | h
  · exact absurd h (hx e he)
  · exact h

theorem agreesUnless_rejectIf_bind {c : Prop} [Decidable c] {e : ε} {f : Unit → Exec ε β}
    (he : E e) (h : AgreesUnless E (f ()) y) : AgreesUnless E (rejectIf c e >>= f) y := by
  unfold rejectIf
  split_ifs
  · exact .inl ⟨e, he, rfl⟩
  · exact h

theorem agreesUnless_okOr_bind {x : Option α} {e : ε} {f : α → Exec ε β} (he : E e)
    (h : ∀ a, AgreesUnless E (f a) y) : AgreesUnless E (okOr x e >>= f) y := by
  cases x with
  | none => exact .inl ⟨e, he, rfl⟩
  | some a => exact h a

end AgreesUnless

/-- Where `y` returns, `x` returns; where `y` fails, it reports `e` or `x` fails in the same way. -/
def Below (e : ε) (x : Exec ε α) (y : Exec ε β) : Prop :=
  match y with
  | .ok _ => ∃ a, x = .ok a
  | .error f => f = .error e ∨ x = .error f

section Below

variable {γ δ : Type} {e : ε}

theorem below_ok (a : α) (b : β) : Below e (.ok a : Exec ε α) (.ok b) := ⟨a, rfl⟩

theorem below_bind {x : Exec ε α} {f : α → Exec ε β} {g : α → Exec ε γ}
    (h : ∀ a, Below e (f a) (g a)) : Below e (x >>= f) (x >>= g) := by
  cases x with
  | error f => exact Or.inr rfl
  | ok a => exact h a

theorem below_okOr_bind {x : Option α} {y : Option β} {f : α → Exec ε γ}
    {g : β → Exec ε δ} (hx : ∀ b, y = some b → ∃ a, x = some a)
    (h : ∀ a b, x = some a → y = some b → Below e (f a) (g b)) :
    Below e (okOr x e >>= f) (okOr y e >>= g) := by
  cases y with
  | none => exact Or.inl rfl
  | some b =>
    obtain ⟨a, rfl⟩ := hx b rfl
    exact h a b rfl rfl

theorem below_rejectIf_bind {c d : Prop} [Decidable c] [Decidable d] {f : Unit → Exec ε α}
    {g : Unit → Exec ε β} (hc : c → d) (h : Below e (f ()) (g ())) :
    Below e (rejectIf c e >>= f) (rejectIf d e >>= g) := by
  by_cases hd : d
  · rw [show rejectIf d e = fail e from if_pos hd]
    exact Or.inl rfl
  · rw [rejectIf_neg hd, rejectIf_neg (mt hc hd)]
    exact h

end Below

/-! ### Loops -/

theorem mapM_eq {g : α → β} : ∀ {l : List α}, (∀ a ∈ l, f a = .ok (g a)) → l.mapM f = .ok (l.map g)
  | [], _ => rfl
  | a :: l, h => by
    rw [mapM_cons, h a mem_cons_self, ok_bind,
      mapM_eq fun b hb => h b (mem_cons_of_mem _ hb), ok_bind]
    rfl

/-- An invariant of the state and of the elements still to be visited, kept by each step of a
fold that always returns, holds at its end. -/
theorem returns_foldlM {f : σ → α → Exec ε σ} (I : σ → List α → Prop)
    (hs : ∀ s a rest, I s (a :: rest) → (f s a).Returns fun s' => I s' rest) :
    ∀ (l : List α) (s : σ), I s l → (l.foldlM f s).Returns fun s' => I s' []
  | [], s, h => ⟨s, rfl, h⟩
  | a :: l, s, h => by
    rw [foldlM_cons]
    exact (hs s a l h).bind fun s' hs' => returns_foldlM I hs l s' hs'

/-- An invariant kept by each step of a fold that may fail holds at its end. -/
theorem ensures_foldlM {f : σ → α → Exec ε σ} (I : σ → List α → Prop)
    (hs : ∀ s a rest, I s (a :: rest) → (f s a).EnsuresUnless B fun s' => I s' rest) :
    ∀ (l : List α) (s : σ), I s l → (l.foldlM f s).EnsuresUnless B fun s' => I s' []
  | [], _, h => ensures_pure h
  | a :: l, s, h => by
    rw [foldlM_cons]
    exact (hs s a l h).bind fun s' hs' => ensures_foldlM I hs l s' hs'

end Exec
