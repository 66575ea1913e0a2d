import Mathlib.Algebra.Order.BigOperators.Group.List
import Mathlib.Algebra.Order.Ring.Nat

/-!
# First-in, first-out eviction

A queue, newest element first, whose elements have weights. When it has to shrink to a weight, its
oldest elements go one by one until the others fit; what is left is the longest beginning that fits.
-/

open List

namespace Eviction

variable {α : Type*} (weight : α → ℕ)

/-- The total weight of a queue. -/
def weightOf (l : List α) : ℕ := (l.map weight).sum

/-- The longest beginning of a queue that fits in a room. -/
def fitting : ℕ → List α → List α
  | _, [] => []
  | room, a :: l => if weight a ≤ room then a :: fitting (room - weight a) l else []

/-- The elements that stay when a weight `more` is to be added below a maximum. -/
def surviving (maximum more : ℕ) (l : List α) : List α :=
  if more ≤ maximum then fitting weight (maximum - more) l else []

variable {weight}

@[simp]
theorem weightOf_nil : weightOf weight [] = 0 := rfl

@[simp]
theorem weightOf_cons (a : α) (l : List α) :
    weightOf weight (a :: l) = weight a + weightOf weight l := by
  simp [weightOf]

@[simp]
theorem weightOf_append (l l' : List α) :
    weightOf weight (l ++ l') = weightOf weight l + weightOf weight l' := by
  simp [weightOf]

theorem weightOf_fitting_le (room : ℕ) (l : List α) :
    weightOf weight (fitting weight room l) ≤ room := by
  induction l generalizing room with
  | nil => exact Nat.zero_le _
  | cons a l ih =>
    rw [fitting]
    split_ifs with ha
    · rw [weightOf_cons]
      have := ih (room - weight a)
      omega
    · exact Nat.zero_le _

theorem fitting_sublist (room : ℕ) (l : List α) : (fitting weight room l).Sublist l := by
  induction l generalizing room with
  | nil => exact List.Sublist.refl _
  | cons a l ih =>
    rw [fitting]
    split_ifs
    · exact (ih _).cons_cons a
    · exact nil_sublist _

variable {l : List α}

theorem fitting_eq_self {room : ℕ} (h : weightOf weight l ≤ room) : fitting weight room l = l := by
  induction l generalizing room with
  | nil => rfl
  | cons a l ih =>
    rw [weightOf_cons] at h
    rw [fitting, if_pos (by omega), ih (by omega)]

/-- The last element of a queue that does not fit goes first. -/
theorem fitting_concat {room : ℕ} {a : α} (h : room < weightOf weight (l ++ [a])) :
    fitting weight room (l ++ [a]) = fitting weight room l := by
  induction l generalizing room with
  | nil =>
    have hl : ¬ weight a ≤ room := by simpa using h
    simp only [nil_append, fitting, if_neg hl]
  | cons b l ih =>
    rw [cons_append, weightOf_cons] at h
    rw [cons_append, fitting, fitting]
    split_ifs with hb
    · rw [ih (by omega)]
    · rfl

theorem weightOf_surviving_le (weight : α → ℕ) (m more : ℕ) (l : List α) :
    weightOf weight (surviving weight m more l) ≤ m - more := by
  unfold surviving
  split_ifs
  · exact weightOf_fitting_le _ _
  · exact Nat.zero_le _

theorem surviving_sublist (m more : ℕ) (l : List α) : (surviving weight m more l).Sublist l := by
  unfold surviving
  split_ifs
  · exact fitting_sublist _ _
  · exact nil_sublist _

theorem weightOf_surviving_mono (other : α → ℕ) (m more : ℕ) (l : List α) :
    weightOf other (surviving weight m more l) ≤ weightOf other l :=
  ((surviving_sublist m more l).map other).sum_le_sum fun _ _ => Nat.zero_le _

theorem surviving_concat {m more : ℕ} {a : α} (h : m < weightOf weight (l ++ [a]) + more) :
    surviving weight m more (l ++ [a]) = surviving weight m more l := by
  unfold surviving
  split_ifs with hm
  · exact fitting_concat (by omega)
  · rfl

theorem surviving_eq_self {m more : ℕ} (h : weightOf weight l + more ≤ m) :
    surviving weight m more l = l := by
  rw [surviving, if_pos (by omega), fitting_eq_self (by omega)]

end Eviction
