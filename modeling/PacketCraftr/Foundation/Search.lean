import Mathlib.Data.List.TakeDrop

/-!
# The first place of a pattern in a list

Where a pattern first stands, when the list grows behind it and when it is cut before it.
-/

open List

namespace Search

variable {α : Type*} [DecidableEq α] {p x : List α} {i : ℕ}

/-- Where a pattern first stands in a list. -/
def position (pattern : List α) : List α → Option ℕ
  | [] => if pattern = [] then some 0 else none
  | a :: x => if pattern <+: a :: x then some 0 else (position pattern x).map (· + 1)

theorem position_of_initial (h : p <+: x) : position p x = some 0 := by
  cases x with
  | nil => rw [position, if_pos (prefix_nil.mp h)]
  | cons a x => rw [position, if_pos h]

theorem position_cons_of_not (a : α) (h : ¬ p <+: a :: x) :
    position p (a :: x) = (position p x).map (· + 1) := by
  rw [position, if_neg h]

/-- A place that is found has the pattern, and no place before it has. -/
theorem position_eq_some : position p x = some i ↔ p <+: x.drop i ∧ i ≤ x.length ∧
      ∀ j < i, ¬ p <+: x.drop j := by
  induction x generalizing i with
  | nil =>
    rw [position]
    constructor
    · intro h
      split_ifs at h with hn
      cases h
      exact ⟨by rw [hn]; exact nil_prefix, Nat.le_refl _, fun j hj => absurd hj (by omega)⟩
    · rintro ⟨hi, hle, -⟩
      obtain rfl : i = 0 := Nat.le_zero.mp hle
      rw [if_pos (prefix_nil.mp hi)]
  | cons a x ih =>
    by_cases hi : p <+: a :: x
    · rw [position_of_initial hi]
      constructor
      · intro h
        cases h
        exact ⟨hi, Nat.zero_le _, fun j hj => absurd hj (by omega)⟩
      · rintro ⟨-, -, hl⟩
        cases i with
        | zero => rfl
        | succ i => exact absurd hi (hl 0 (by omega))
    · rw [position_cons_of_not a hi, Option.map_eq_some_iff]
      constructor
      · rintro ⟨k, hk, rfl⟩
        obtain ⟨hf, hle, hl⟩ := ih.mp hk
        refine ⟨hf, by simp only [length_cons]; omega, fun j hj => ?_⟩
        cases j with
        | zero => exact hi
        | succ j => exact hl j (by omega)
      · rintro ⟨hf, hle, hl⟩
        cases i with
        | zero => exact absurd hf hi
        | succ i =>
          refine ⟨i, ih.mpr ⟨hf, by simp only [length_cons] at hle; omega, ?_⟩, rfl⟩
          intro j hj
          exact hl (j + 1) (by omega)

theorem not_prefix_of_position_eq_none (h : position p x = none) (j : ℕ) : ¬ p <+: x.drop j := by
  induction x generalizing j with
  | nil =>
    rw [position] at h
    split_ifs at h with hn
    rw [drop_nil]
    exact fun hi => hn (prefix_nil.mp hi)
  | cons a x ih =>
    by_cases hi : p <+: a :: x
    · rw [position_of_initial hi] at h
      cases h
    · rw [position_cons_of_not a hi, Option.map_eq_none_iff] at h
      cases j with
      | zero => exact hi
      | succ j => exact ih h j

omit [DecidableEq α] in
/-- Whether a pattern stands at a place is decided by the list up to the end of the pattern. -/
theorem prefix_drop_append {j : ℕ} (h : j + p.length ≤ x.length) (y : List α) :
    p <+: (x ++ y).drop j ↔ p <+: x.drop j := by
  rw [drop_append_of_le_length (by omega)]
  constructor
  · intro hi
    exact prefix_of_prefix_length_le hi (prefix_append ..) (by rw [length_drop]; omega)
  · exact fun hi => hi.trans (prefix_append ..)

omit [DecidableEq α] in
theorem add_length_le_of_prefix_drop {j : ℕ} (hj : j ≤ x.length) (h : p <+: x.drop j) :
    j + p.length ≤ x.length := by
  have hle := h.length_le
  rw [length_drop] at hle
  omega

section

variable (h : position p x = some i)
include h

theorem add_length_le_of_position : i + p.length ≤ x.length := by
  obtain ⟨hf, hle, -⟩ := position_eq_some.mp h
  exact add_length_le_of_prefix_drop hle hf

theorem position_append (y : List α) : position p (x ++ y) = some i := by
  have hend := add_length_le_of_position h
  obtain ⟨hf, hle, hl⟩ := position_eq_some.mp h
  refine position_eq_some.mpr ⟨(prefix_drop_append hend y).mpr hf, ?_, fun j hj => ?_⟩
  · rw [length_append]
    omega
  · rw [prefix_drop_append (by omega)]
    exact hl j hj

theorem position_take : position p (x.take (i + p.length)) = some i := by
  have hend := add_length_le_of_position h
  have hlen : (x.take (i + p.length)).length = i + p.length := by
    rw [length_take]
    omega
  obtain ⟨hf, -, hl⟩ := position_eq_some.mp h
  rw [← take_append_drop (i + p.length) x] at hf hl
  refine position_eq_some.mpr ⟨?_, by omega, fun j hj hi => hl j hj ?_⟩
  · rwa [prefix_drop_append (by omega)] at hf
  · rwa [prefix_drop_append (by omega)]

end

/-- A search may start behind places that do not have the pattern. -/
theorem position_drop {k : ℕ} (hk : k ≤ x.length) (h : ∀ j < k, ¬ p <+: x.drop j) :
    position p x = (position p (x.drop k)).map (· + k) := by
  induction k generalizing x with
  | zero => simp
  | succ k ih =>
    cases x with
    | nil => simp at hk
    | cons a x =>
      have hr := ih (x := x) (by simpa using hk) fun j hj => h (j + 1) (by omega)
      rw [position_cons_of_not a (h 0 (by omega)), hr, Option.map_map, drop_succ_cons]
      rfl

end Search
