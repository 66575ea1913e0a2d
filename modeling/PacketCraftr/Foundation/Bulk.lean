import Mathlib.Data.List.Basic

/-!
# Reading an input a stretch at a time

A reader takes some of the front of its input at each turn, until the input is read or it halts.
When every turn can be split after its first element, reading the input is a fold over its elements,
and how the input is cut makes no difference.
-/

open List

namespace Bulk

/-- A reader: the states in which it takes no more, and the state after a turn together with how
much the turn took. -/
structure Reader (α σ : Type*) where
  halted : σ → Bool
  turn : σ → List α → σ × ℕ

namespace Reader

variable {α σ : Type*} (r : Reader α σ)

/-- At most `fuel` turns, and how much they took. -/
def turns : ℕ → σ → List α → σ × ℕ
  | 0, s, _ => (s, 0)
  | fuel + 1, s, x =>
    if x = [] ∨ r.halted s then (s, 0)
    else
      let (s', n) := r.turn s x
      let (s'', m) := turns fuel s' (x.drop n)
      (s'', n + m)

/-- The turns until the input is read or the reader halts. -/
def drive (s : σ) (x : List α) : σ × ℕ := r.turns (x.length + 1) s x

/-- Turns go on with some invariant, and a turn can be split after its first element: either it
takes no more than that, or what it does is what a turn over the rest does then. Nothing is said of
turns that go wrong, which halt the reader, nor of how much was taken once the reader is over. -/
structure Splits (I Bad Over : σ → Prop) : Prop where
  invariant : ∀ {s x}, I s → r.halted s = false → x ≠ [] → I (r.turn s x).1
  progress : ∀ {s x}, I s → r.halted s = false → x ≠ [] →
    0 < (r.turn s x).2 ∨ r.halted (r.turn s x).1 = true
  halted_of_bad : ∀ {s}, I s → Bad s → r.halted s = true
  halted_of_over : ∀ {s}, I s → Over s → r.halted s = true
  split : ∀ {s a x}, I s → r.halted s = false → ¬ Bad (r.turn s (a :: x)).1 →
    (r.turn s (a :: x) = r.turn s [a] ∧
        (r.halted (r.turn s [a]).1 = true ∨ (r.turn s [a]).2 = 1)) ∨
      (x ≠ [] ∧ r.halted (r.turn s [a]).1 = false ∧ (r.turn s [a]).2 = 1 ∧
        (r.turn s (a :: x)).1 = (r.turn (r.turn s [a]).1 x).1 ∧
        (Over (r.turn s (a :: x)).1 ∨
          (r.turn s (a :: x)).2 = 1 + (r.turn (r.turn s [a]).1 x).2))

variable {r} {s : σ} {x : List α}

theorem turns_of_halted (h : r.halted s = true) (fuel : ℕ) : r.turns fuel s x = (s, 0) := by
  cases fuel with
  | zero => rfl
  | succ fuel => rw [turns, if_pos (.inr h)]

theorem turns_nil (fuel : ℕ) : r.turns fuel s [] = (s, 0) := by
  cases fuel with
  | zero => rfl
  | succ fuel => rw [turns, if_pos (.inl rfl)]

theorem drive_of_halted (h : r.halted s = true) : r.drive s x = (s, 0) := turns_of_halted h _

theorem drive_nil : r.drive s [] = (s, 0) := turns_nil _

namespace Splits

variable {I Bad Over : σ → Prop} {a : α}

variable (h : r.Splits I Bad Over) (hs : I s)
include h hs

/-- Any two numbers of turns greater than the length of the input do the same. -/
theorem turns_congr {fuel other : ℕ} (hf : x.length < fuel) (ho : x.length < other) :
    r.turns fuel s x = r.turns other s x := by
  induction fuel generalizing other s x with
  | zero => exact absurd hf (Nat.not_lt_zero _)
  | succ fuel ih =>
    obtain ⟨other, rfl⟩ : ∃ k, other = k + 1 := ⟨other - 1, by omega⟩
    rw [turns, turns]
    by_cases hst : x = [] ∨ r.halted s = true
    · rw [if_pos hst, if_pos hst]
    have hx : x ≠ [] := fun hx => hst (.inl hx)
    have hon : r.halted s = false := eq_false_of_ne_true fun hon => hst (.inr hon)
    have hsm : r.turns fuel (r.turn s x).1 (x.drop (r.turn s x).2) =
        r.turns other (r.turn s x).1 (x.drop (r.turn s x).2) := by
      rcases h.progress hs hon hx with hp | hh
      · have hl := length_pos_iff.mpr hx
        refine ih (h.invariant hs hon hx) ?_ ?_ <;> rw [length_drop] <;> omega
      · rw [turns_of_halted hh, turns_of_halted hh]
    simp only [hsm]

section

variable (hon : r.halted s = false)
include hon

theorem drive_turn (hx : x ≠ []) :
    r.drive s x = ((r.drive (r.turn s x).1 (x.drop (r.turn s x).2)).1,
      (r.turn s x).2 + (r.drive (r.turn s x).1 (x.drop (r.turn s x).2)).2) := by
  have hst : ¬ (x = [] ∨ r.halted s = true) := by
    rintro (hn | hh)
    · exact hx hn
    · exact absurd (hon.symm.trans hh) Bool.false_ne_true
  have hsm : r.turns x.length (r.turn s x).1 (x.drop (r.turn s x).2) =
      r.drive (r.turn s x).1 (x.drop (r.turn s x).2) := by
    rcases h.progress hs hon hx with hp | hh
    · have hl := length_pos_iff.mpr hx
      refine h.turns_congr (h.invariant hs hon hx) ?_ (Nat.lt_succ_self _)
      rw [length_drop]
      omega
    · rw [turns_of_halted hh, drive_of_halted hh]
  rw [drive, turns, if_neg hst]
  simp only [hsm]

theorem drive_singleton : r.drive s [a] = r.turn s [a] := by
  rw [h.drive_turn hs hon (cons_ne_nil _ _)]
  rcases h.progress hs hon (cons_ne_nil a []) with hp | hh
  · rw [drop_eq_nil_of_le hp, drive_nil, Nat.add_zero]
  · rw [drive_of_halted hh, Nat.add_zero]

/-- Where the first turn goes wrong, the reader stops. -/
theorem not_bad_turn (hx : x ≠ []) (hg : ¬ Bad (r.drive s x).1) : ¬ Bad (r.turn s x).1 := by
  intro hb
  rw [h.drive_turn hs hon hx, drive_of_halted (h.halted_of_bad (h.invariant hs hon hx) hb)] at hg
  exact hg hb

theorem drive_cons (hg : ¬ Bad (r.drive s (a :: x)).1) :
    (r.drive s (a :: x)).1 = (r.drive (r.turn s [a]).1 x).1 ∧ (Over (r.drive s (a :: x)).1 ∨
        (r.drive s (a :: x)).2 = (r.turn s [a]).2 + (r.drive (r.turn s [a]).1 x).2) := by
  have hx := cons_ne_nil a x
  have hd := h.drive_turn hs hon hx
  rcases h.split hs hon (h.not_bad_turn hs hon hx hg) with
    ⟨hsm, hh | ht⟩ | ⟨hr, hm, ht, hst, hc⟩
  · rw [hd, hsm, drive_of_halted hh, drive_of_halted hh]
    exact ⟨rfl, .inr rfl⟩
  · rw [hd, hsm, ht, drop_one, tail_cons]
    exact ⟨rfl, .inr rfl⟩
  · have hone : I (r.turn s [a]).1 := h.invariant hs hon (cons_ne_nil a [])
    have hd' := h.drive_turn hone hm hr
    rcases hc with ho | hc
    · have hh := h.halted_of_over (h.invariant hs hon hx) ho
      rw [drive_of_halted hh] at hd
      rw [hst] at hh
      rw [drive_of_halted hh] at hd'
      rw [hd, hd']
      exact ⟨hst, .inl ho⟩
    · rw [hc, Nat.add_comm, drop_succ_cons, hst] at hd
      rw [hd, hd', ht]
      refine ⟨rfl, .inr ?_⟩
      omega

end

/-- The invariant holds of every state that is read to. -/
theorem drive_invariant : I (r.drive s x).1 := by
  induction hn : x.length using Nat.strongRecOn generalizing x s with
  | ind len ih =>
    by_cases hx : x = []
    · rwa [hx, drive_nil]
    by_cases hh : r.halted s = true
    · rwa [drive_of_halted hh]
    have hon := eq_false_of_ne_true hh
    have ht := h.invariant hs hon hx
    rw [h.drive_turn hs hon hx]
    rcases h.progress hs hon hx with hp | hst
    · have hl := length_pos_iff.mpr hx
      exact ih _ (by rw [length_drop]; omega) ht rfl
    · rwa [drive_of_halted hst]

/-- Reading an input is reading its elements one at a time. -/
theorem drive_eq_foldl (hg : ¬ Bad (r.drive s x).1) :
    (r.drive s x).1 = x.foldl (fun s a => (r.drive s [a]).1) s := by
  induction x generalizing s with
  | nil => rw [drive_nil, foldl_nil]
  | cons a x ih =>
    rw [foldl_cons]
    by_cases hh : r.halted s = true
    · have hr := ih hs (by rwa [drive_of_halted hh] at hg ⊢)
      rw [drive_of_halted hh, drive_of_halted hh, ← hr, drive_of_halted hh]
    have hon := eq_false_of_ne_true hh
    have ho : I (r.turn s [a]).1 := h.invariant hs hon (cons_ne_nil a [])
    have hc := (h.drive_cons hs hon hg).1
    rw [h.drive_singleton hs hon]
    rw [hc] at hg ⊢
    exact ih ho hg

end Splits

end Reader

end Bulk
