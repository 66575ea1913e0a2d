import PacketCraftr.Foundation.Intervals

/-!
# Lists of placed runs

A run is a list of elements placed at an offset. A list of runs whose intervals are separated is a
partial function from positions to elements; this file relates what is counted along the list of
runs to sets of positions of that function.
-/

open Finset Option

namespace Runs

open Intervals

variable {α : Type*}

def interval (r : ℕ × List α) : ℕ × ℕ := (r.1, r.1 + r.2.length)

/-- The element of a run at a position. -/
def elemAt (r : ℕ × List α) (x : ℕ) : Option α := if r.1 ≤ x then r.2[x - r.1]? else none

/-- The element of a list of runs at a position. -/
def content (l : List (ℕ × List α)) (x : ℕ) : Option α := l.findSome? fun r => elemAt r x

variable {r : ℕ × List α} {x : ℕ} {l : List (ℕ × List α)}

theorem isSome_elemAt : (elemAt r x).isSome ↔ r.1 ≤ x ∧ x < r.1 + r.2.length := by
  unfold elemAt
  split_ifs with h
  · rw [isSome_getElem?]
    omega
  · simp [h]

theorem elemAt_eq_none : elemAt r x = none ↔ x < r.1 ∨ r.1 + r.2.length ≤ x := by
  rw [← not_isSome_iff_eq_none, isSome_elemAt]
  omega

/-- Two adjacent runs hold together what they hold joined. -/
theorem elemAt_append (start : ℕ) (xs ys : List α) (x : ℕ) : elemAt (start, xs ++ ys) x =
      (elemAt (start, xs) x).or (elemAt (start + xs.length, ys) x) := by
  by_cases hlow : start ≤ x
  · by_cases hx : x < start + xs.length
    · rw [elemAt_eq_none (r := (start + xs.length, ys)).mpr (Or.inl hx), or_none, elemAt,
        elemAt, if_pos hlow, if_pos hlow]
      exact List.getElem?_append_left (by omega)
    · rw [elemAt_eq_none (r := (start, xs)).mpr (Or.inr (not_lt.mp hx)), none_or, elemAt,
        elemAt, if_pos hlow, if_pos (not_lt.mp hx), List.getElem?_append_right (by omega),
        Nat.sub_sub]
  · rw [elemAt, elemAt, elemAt, if_neg hlow, if_neg hlow, if_neg (by dsimp only; omega)]
    rfl

theorem elemAt_or_elemAt (start : ℕ) (xs ys : List α) (x : ℕ) :
    elemAt (start, xs) x = none ∨ elemAt (start + xs.length, ys) x = none := by
  rw [elemAt_eq_none, elemAt_eq_none]
  dsimp only
  omega

theorem content_cons (r : ℕ × List α) (l : List (ℕ × List α)) (x : ℕ) :
    content (r :: l) x = (elemAt r x).or (content l x) := by
  rw [content, List.findSome?_cons]
  cases elemAt r x <;> rfl

theorem content_append (l m : List (ℕ × List α)) (x : ℕ) :
    content (l ++ m) x = (content l x).or (content m x) :=
  List.findSome?_append

theorem isSome_content : (content l x).isSome ↔ x ∈ cover (l.map interval) := by
  induction l with
  | nil => simp [content, cover]
  | cons r l ih =>
    rw [content_cons, isSome_or, Bool.or_eq_true, isSome_elemAt, ih, List.map_cons,
      cover, mem_union, mem_Ico]
    rfl

theorem content_eq_none : content l x = none ↔ x ∉ cover (l.map interval) := by
  rw [← isSome_content, not_isSome_iff_eq_none]

/-- Where the first run holds an element, the others hold none. -/
theorem elemAt_or_content (h : Separated ((r :: l).map interval)) (x : ℕ) :
    elemAt r x = none ∨ content l x = none := by
  rw [or_iff_not_imp_left, ← ne_eq, ← isSome_iff_ne_none, isSome_elemAt, content_eq_none]
  intro hr
  exact Finset.disjoint_left.mp h.disjoint_head (mem_Ico.mpr hr)

/-! ### Differing positions -/

section Conflicts

variable [DecidableEq α]

/-- Whether both sides hold an element and the elements differ. -/
def differ : Option α → Option α → Bool
  | some a, some b => a != b
  | _, _ => false

/-- The positions of `[lo, hi)` where two partial functions differ. -/
def conflicts (f g : ℕ → Option α) (lo hi : ℕ) : Finset ℕ :=
  (Ico lo hi).filter fun x => differ (f x) (g x) = true

variable {f g : ℕ → Option α}

theorem conflicts_congr {f' : ℕ → Option α} {lo hi : ℕ} (h : ∀ x, lo ≤ x → x < hi → f x = f' x) :
    conflicts f g lo hi = conflicts f' g lo hi := by
  refine Finset.filter_congr fun x hx => ?_
  rw [h x (mem_Ico.mp hx).1 (mem_Ico.mp hx).2]

/-- Two lists, compared position by position, differ where their placed elements do. -/
theorem countP_zip {xs ys : List α} {lo : ℕ} (hl : xs.length = ys.length)
    (hf : ∀ i < xs.length, f (lo + i) = xs[i]?) (hg : ∀ i < ys.length, g (lo + i) = ys[i]?) :
    (xs.zip ys).countP (fun p => p.1 != p.2) = (conflicts f g lo (lo + xs.length)).card := by
  induction xs generalizing ys lo with
  | nil => simp [conflicts]
  | cons x xs ih =>
    obtain _ | ⟨y, ys⟩ := ys
    · cases hl
    · have hl' : xs.length = ys.length := Nat.succ.inj hl
      have ht : (xs.zip ys).countP (fun p => p.1 != p.2) =
          (conflicts f g (lo + 1) (lo + 1 + xs.length)).card := ih hl'
        (fun i hi => by
          have := hf (i + 1) (Nat.succ_lt_succ hi)
          rwa [← Nat.add_assoc, Nat.add_right_comm] at this)
        (fun i hi => by
          have := hg (i + 1) (Nat.succ_lt_succ hi)
          rwa [← Nat.add_assoc, Nat.add_right_comm] at this)
      have hf₀ : f lo = some x := hf 0 (Nat.zero_lt_succ _)
      have hg₀ : g lo = some y := hg 0 (Nat.zero_lt_succ _)
      have hI : Ico lo (lo + (x :: xs).length) = insert lo (Ico (lo + 1) (lo + 1 + xs.length)) := by
        ext z
        simp only [List.length_cons, mem_Ico, mem_insert]
        omega
      have hnot : lo ∉ (Ico (lo + 1) (lo + 1 + xs.length)).filter
          fun z => differ (f z) (g z) = true := by simp
      rw [List.zip_cons_cons, List.countP_cons, ht, conflicts, conflicts, hI,
        Finset.filter_insert, hf₀, hg₀]
      by_cases hx : (x != y) = true
      · rw [if_pos hx, if_pos (show differ (some x) (some y) = true from hx),
          card_insert_of_notMem hnot]
      · rw [if_neg hx, if_neg (show ¬ differ (some x) (some y) = true from hx), Nat.add_zero]

theorem conflicts_elemAt (r : ℕ × List α) (g : ℕ → Option α) (lo hi : ℕ) :
    conflicts (elemAt r) g lo hi =
      conflicts (elemAt r) g (max (interval r).1 lo) (min (interval r).2 hi) := by
  ext x
  simp only [conflicts, mem_filter, mem_Ico, max_le_iff, lt_min_iff, and_congr_left_iff]
  intro hx
  have hs : (elemAt r x).isSome := by
    cases hr : elemAt r x with
    | none => simp [hr, differ] at hx
    | some a => rfl
  have := isSome_elemAt.mp hs
  simp only [interval]
  omega

theorem sum_conflicts {l : List (ℕ × List α)} (h : Separated (l.map interval))
    (g : ℕ → Option α) (lo hi : ℕ) :
    (l.map fun r => (conflicts (elemAt r) g lo hi).card).sum =
      (conflicts (content l) g lo hi).card := by
  induction l with
  | nil => simp [conflicts, content, differ]
  | cons r l ih =>
    have hu : conflicts (content (r :: l)) g lo hi =
        conflicts (elemAt r) g lo hi ∪ conflicts (content l) g lo hi := by
      ext x
      simp only [conflicts, mem_filter, mem_union, content_cons, ← and_or_left]
      rcases elemAt_or_content h x with hx | hx <;> simp [hx, differ]
    have hd : Disjoint (conflicts (elemAt r) g lo hi) (conflicts (content l) g lo hi) := by
      rw [Finset.disjoint_left]
      intro x hr hl
      simp only [conflicts, mem_filter] at hr hl
      rcases elemAt_or_content h x with hx | hx
      · simp [hx, differ] at hr
      · simp [hx, differ] at hl
    rw [List.map_cons, List.sum_cons, ih h.of_cons, hu, card_union_of_disjoint hd]

end Conflicts

end Runs
