import Mathlib.Data.List.Sort

/-!
# Sorting by a key, and the first element of the highest rank

A list whose elements have different keys has one sorted arrangement, whatever its order was. The
first element of the highest rank is found in one pass, and it comes before every other element of
its rank.
-/

open List

namespace Ranking

variable {α : Type*}

/-! ### Sorting -/

section Sorting

variable (key : α → ℕ)

/-- The elements in the order of their keys. -/
def sortBy (l : List α) : List α := l.insertionSort fun a b => key a ≤ key b

theorem perm_sortBy (l : List α) : (sortBy key l).Perm l := perm_insertionSort _ l

theorem pairwise_sortBy (l : List α) : (sortBy key l).Pairwise fun a b => key a ≤ key b := by
  have : IsTrans α fun a b => key a ≤ key b := ⟨fun _ _ _ => le_trans⟩
  exact pairwise_insertionSort _ l

variable {key}

/-- Different keys are in strictly increasing order. -/
theorem pairwise_sortBy_lt {l : List α} (h : (l.map key).Nodup) :
    (sortBy key l).Pairwise fun a b => key a < key b := by
  have hn : ((sortBy key l).map key).Nodup := ((perm_sortBy key l).map key).nodup_iff.mpr h
  exact ((pairwise_sortBy key l).and (pairwise_map.mp hn)).imp fun h =>
    lt_of_le_of_ne h.1 h.2

/-- The order of a list does not matter for its sorted arrangement. -/
theorem sortBy_eq_of_perm {l l' : List α} (h : (l.map key).Nodup) (hp : l'.Perm l) :
    sortBy key l' = sortBy key l := by
  have h' : (l'.map key).Nodup := (hp.map key).nodup_iff.mpr h
  refine List.Perm.eq_of_pairwise (fun a b _ _ ha hb => absurd (ha.trans hb) (lt_irrefl _))
    (pairwise_sortBy_lt h') (pairwise_sortBy_lt h) ?_
  exact ((perm_sortBy key l').trans hp).trans (perm_sortBy key l).symm

end Sorting

/-! ### The first maximum -/

section Maximum

variable (rank : α → ℕ)

/-- The better of two elements, the earlier one if they have the same rank. -/
def better (best next : α) : α := if rank best < rank next then next else best

/-- The first element of the highest rank. -/
def firstMax : List α → Option α
  | [] => none
  | a :: l => some (l.foldl (better rank) a)

variable {rank}

private theorem foldl_better (rank : α → ℕ) (l : List α) (a : α) :
    (l.foldl (better rank) a = a ∧ ∀ x ∈ l, rank x ≤ rank a) ∨
      ∃ before after, l = before ++ l.foldl (better rank) a :: after ∧
        rank a < rank (l.foldl (better rank) a) ∧
        (∀ x ∈ before, rank x < rank (l.foldl (better rank) a)) ∧
        ∀ x ∈ after, rank x ≤ rank (l.foldl (better rank) a) := by
  induction l generalizing a with
  | nil => exact Or.inl ⟨rfl, nofun⟩
  | cons b l ih =>
    rw [foldl_cons]
    by_cases hlt : rank a < rank b
    · rw [show better rank a b = b from if_pos hlt]
      rcases ih b with ⟨heq, hle⟩ | ⟨before, after, heq, hb, hbf, haf⟩
      · exact Or.inr ⟨[], l, by rw [heq]; rfl, by rwa [heq], nofun, by rwa [heq]⟩
      · refine Or.inr ⟨b :: before, after, ?_, hlt.trans hb, ?_, haf⟩
        · rw [cons_append, ← heq]
        · rw [forall_mem_cons]
          exact ⟨hb, hbf⟩
    · rw [show better rank a b = a from if_neg hlt]
      rcases ih a with ⟨heq, hle⟩ | ⟨before, after, heq, ha, hbf, haf⟩
      · refine Or.inl ⟨heq, ?_⟩
        rw [forall_mem_cons]
        exact ⟨not_lt.mp hlt, hle⟩
      · refine Or.inr ⟨b :: before, after, ?_, ha, ?_, haf⟩
        · rw [cons_append, ← heq]
        · rw [forall_mem_cons]
          exact ⟨(not_lt.mp hlt).trans_lt ha, hbf⟩

theorem firstMax_eq_none {l : List α} (h : firstMax rank l = none) : l = [] := by
  cases l with
  | nil => rfl
  | cons a l => cases h

/-- What comes before the first maximum has a lower rank, what comes after it no higher one. -/
theorem firstMax_eq_some {l : List α} {best : α} (h : firstMax rank l = some best) :
    ∃ before after, l = before ++ best :: after ∧ (∀ x ∈ before, rank x < rank best) ∧
      ∀ x ∈ after, rank x ≤ rank best := by
  cases l with
  | nil => cases h
  | cons a l =>
    obtain rfl := Option.some.inj h
    rcases foldl_better rank l a with ⟨heq, hle⟩ | ⟨before, after, heq, ha, hb, haf⟩
    · exact ⟨[], l, by rw [heq]; rfl, nofun, by rwa [heq]⟩
    · refine ⟨a :: before, after, by rw [cons_append, ← heq], ?_, haf⟩
      rw [forall_mem_cons]
      exact ⟨ha, hb⟩

end Maximum

end Ranking
