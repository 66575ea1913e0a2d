import Mathlib.Algebra.Order.Ring.Nat

/-!
# Ranges that tile an interval

`Tiles lo hi l` says that the half-open ranges of `l`, one behind the other, fill the interval from
`lo` to `hi`. Empty ranges are allowed.
-/

/-- A half-open range of natural numbers. -/
structure Span where
  start : ℕ
  stop : ℕ
deriving DecidableEq, Repr

/-- A number lies in a range. -/
def Span.Contains (s : Span) (n : ℕ) : Prop := s.start ≤ n ∧ n < s.stop

/-- The ranges, one behind the other, fill the interval. -/
def Tiles (lo hi : ℕ) : List Span → Prop
  | [] => lo = hi
  | s :: rest => s.start = lo ∧ s.start ≤ s.stop ∧ Tiles s.stop hi rest

theorem tiles_append {lo hi : ℕ} {l₁ l₂ : List Span} :
    Tiles lo hi (l₁ ++ l₂) ↔ ∃ mid, Tiles lo mid l₁ ∧ Tiles mid hi l₂ := by
  induction l₁ generalizing lo with
  | nil =>
    refine ⟨fun h => ⟨lo, rfl, h⟩, ?_⟩
    rintro ⟨_, rfl, h⟩
    exact h
  | cons s l₁ ih =>
    rw [List.cons_append, Tiles, ih]
    constructor
    · rintro ⟨hs, hle, mid, h₁, h₂⟩
      exact ⟨mid, ⟨hs, hle, h₁⟩, h₂⟩
    · rintro ⟨mid, ⟨hs, hle, h₁⟩, h₂⟩
      exact ⟨hs, hle, mid, h₁, h₂⟩

theorem Tiles.concat {lo mid : ℕ} {l : List Span} (h : Tiles lo mid l) {s : Span}
    (hs : s.start = mid) (hle : s.start ≤ s.stop) : Tiles lo s.stop (l ++ [s]) :=
  tiles_append.mpr ⟨mid, h, hs, hle, rfl⟩

section

variable {lo hi : ℕ} {l : List Span} (h : Tiles lo hi l)
include h

theorem Tiles.le : lo ≤ hi := by
  induction l generalizing lo with
  | nil => exact le_of_eq h
  | cons s l ih =>
    obtain ⟨rfl, hle, h⟩ := h
    exact le_trans hle (ih h)

theorem Tiles.bounds {s : Span} (hs : s ∈ l) : lo ≤ s.start ∧ s.start ≤ s.stop ∧ s.stop ≤ hi := by
  induction l generalizing lo with
  | nil => cases hs
  | cons t l ih =>
    obtain ⟨rfl, hle, h⟩ := h
    rcases List.mem_cons.mp hs with rfl | hs
    · exact ⟨le_rfl, hle, h.le⟩
    · obtain ⟨hl, hs⟩ := ih h hs
      exact ⟨le_trans hle hl, hs⟩

/-- Every number of the interval is in exactly one range. -/
theorem Tiles.existsUnique {n : ℕ} (hl : lo ≤ n) (hh : n < hi) :
    ∃! i : ℕ, ∃ s : Span, l[i]? = some s ∧ s.Contains n := by
  induction l generalizing lo with
  | nil => exact absurd h (ne_of_lt (lt_of_le_of_lt hl hh))
  | cons t l ih =>
    obtain ⟨rfl, hle, h⟩ := h
    by_cases hn : n < t.stop
    · refine ⟨0, ⟨t, rfl, hl, hn⟩, ?_⟩
      rintro (_ | i) ⟨s, hs, hc⟩
      · rfl
      · have hb := h.bounds (List.mem_of_getElem? hs)
        exact absurd (lt_of_lt_of_le hn hb.1) (not_lt.mpr hc.1)
    · obtain ⟨i, ⟨s, hs, hc⟩, hu⟩ := ih h (not_lt.mp hn)
      refine ⟨i + 1, ⟨s, hs, hc⟩, ?_⟩
      rintro (_ | j) ⟨s', hs', hc'⟩
      · cases hs'
        exact absurd hc'.2 hn
      · exact congrArg (· + 1) (hu j ⟨s', hs', hc'⟩)
end

