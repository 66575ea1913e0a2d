import Mathlib.Algebra.Order.Ring.Nat
import Mathlib.Data.List.Intervals
import Mathlib.Order.Lattice.Nat

/-!
# Separated lists of intervals

A finite set of natural numbers is kept as the list of its maximal runs: non-empty half-open
intervals `[a, b)` in increasing order, with at least one missing number between two of them.
Adding the interval `[lo, hi)` replaces the intervals that overlap or touch it by their hull with
it. This file proves that the replacement gives a separated list again, which covers exactly the
numbers covered before and those of `[lo, hi)`, and counts the numbers that were already covered.
-/

open Finset
open List hiding Ico

namespace Intervals

/-- The numbers covered by a list of intervals. -/
def cover : List (ℕ × ℕ) → Finset ℕ
  | [] => ∅
  | a :: l => Ico a.1 a.2 ∪ cover l

/-- The intervals are non-empty, in increasing order, disjoint and not adjacent. -/
structure Separated (l : List (ℕ × ℕ)) : Prop where
  nonempty : ∀ a ∈ l, a.1 < a.2
  apart : l.Pairwise fun a b => a.2 < b.1

/-- The intervals that end before `lo`, without touching it. -/
def before (lo : ℕ) (l : List (ℕ × ℕ)) : List (ℕ × ℕ) := l.filter fun a => decide (a.2 < lo)

/-- The intervals that start after `hi`, without touching it. -/
def after (hi : ℕ) (l : List (ℕ × ℕ)) : List (ℕ × ℕ) := l.filter fun a => decide (hi < a.1)

/-- The intervals that overlap `[lo, hi)` or are adjacent to it. -/
def touching (lo hi : ℕ) (l : List (ℕ × ℕ)) : List (ℕ × ℕ) :=
  l.filter fun a => decide (¬ (a.2 < lo ∨ hi < a.1))

/-- The smallest interval that contains `[lo, hi)` and the intervals of a list. -/
def hull (lo hi : ℕ) (l : List (ℕ × ℕ)) : ℕ × ℕ :=
  l.foldl (fun u a => (min u.1 a.1, max u.2 a.2)) (lo, hi)

theorem mem_cover {l : List (ℕ × ℕ)} {x : ℕ} : x ∈ cover l ↔ ∃ a ∈ l, a.1 ≤ x ∧ x < a.2 := by
  induction l with
  | nil => simp [cover]
  | cons a l ih => simp [cover, ih]

theorem cover_append (l m : List (ℕ × ℕ)) : cover (l ++ m) = cover l ∪ cover m := by
  ext x
  simp only [mem_cover, mem_union, mem_append, or_and_right, exists_or]

namespace Separated

variable {l : List (ℕ × ℕ)}

theorem nil : Separated [] := ⟨by simp, List.Pairwise.nil⟩

variable {a : ℕ × ℕ} {m : List (ℕ × ℕ)}

theorem of_cons (h : Separated (a :: l)) : Separated l :=
  ⟨fun b hb => h.nonempty b (mem_cons_of_mem _ hb), h.apart.of_cons⟩

theorem head_lt (h : Separated (a :: l)) {b : ℕ × ℕ} (hb : b ∈ l) : a.2 < b.1 :=
  rel_of_pairwise_cons h.apart hb

theorem apart_of_ne (h : Separated l) {b : ℕ × ℕ} (ha : a ∈ l) (hb : b ∈ l) (hne : a ≠ b) :
    a.2 < b.1 ∨ b.2 < a.1 := by
  have : Std.Symm fun a b : ℕ × ℕ => a.2 < b.1 ∨ b.2 < a.1 := ⟨fun _ _ h => h.symm⟩
  exact (h.apart.imp fun {a b} hab => (Or.inl hab : a.2 < b.1 ∨ b.2 < a.1)).forall ha hb hne

theorem cover_sdiff {t : List (ℕ × ℕ)} (h : Separated (l ++ (t ++ m))) :
    cover (l ++ (t ++ m)) \ cover t = cover (l ++ m) := by
  obtain ⟨-, hr, hl⟩ := pairwise_append.mp h.apart
  obtain ⟨-, -, hm⟩ := pairwise_append.mp hr
  rw [cover_append, cover_append, union_sdiff_distrib, union_sdiff_cancel_left, sdiff_eq_self_of_disjoint,
    cover_append]
  · refine disjoint_left.mpr fun x hx hxt => ?_
    obtain ⟨a, ha, hax⟩ := mem_cover.mp hx
    obtain ⟨b, hb, hbx⟩ := mem_cover.mp hxt
    have := hl a ha b (mem_append_left _ hb)
    omega
  · refine disjoint_left.mpr fun x hxt hx => ?_
    obtain ⟨a, ha, hax⟩ := mem_cover.mp hx
    obtain ⟨b, hb, hbx⟩ := mem_cover.mp hxt
    have := hm b hb a ha
    omega

theorem filter (h : Separated l) (p : ℕ × ℕ → Bool) : Separated (l.filter p) :=
  ⟨fun a ha => h.nonempty a (mem_of_mem_filter ha), h.apart.filter p⟩

theorem sorted (h : Separated l) : l.Pairwise fun a b => a.1 < b.1 := by
  induction l with
  | nil => exact List.Pairwise.nil
  | cons a l ih =>
    refine List.Pairwise.cons (fun b hb => ?_) (ih h.of_cons)
    exact (h.nonempty a mem_cons_self).trans (h.head_lt hb)

theorem disjoint_head (h : Separated (a :: l)) : Disjoint (Ico a.1 a.2) (cover l) := by
  rw [Finset.disjoint_left]
  intro x hx hl
  obtain ⟨b, hb, hbx, -⟩ := mem_cover.mp hl
  have ha := h.head_lt hb
  have hxa := (mem_Ico.mp hx).2
  omega

theorem card_cover (h : Separated l) : (cover l).card = (l.map fun a => a.2 - a.1).sum := by
  induction l with
  | nil => rfl
  | cons a l ih =>
    rw [cover, card_union_of_disjoint h.disjoint_head, ih h.of_cons, Nat.card_Ico, List.map_cons,
      List.sum_cons]

theorem length_le_card (h : Separated l) : l.length ≤ (cover l).card := by
  rw [h.card_cover]
  induction l with
  | nil => exact le_rfl
  | cons a l ih =>
    have hne := h.nonempty a mem_cons_self
    have := ih h.of_cons
    rw [length_cons, List.map_cons, List.sum_cons]
    omega

private theorem fst_le (h : Separated (a :: l)) {x : ℕ} (hx : x ∈ cover (a :: l)) : a.1 ≤ x := by
  obtain ⟨b, hb, hbx, -⟩ := mem_cover.mp hx
  rcases mem_cons.mp hb with rfl | hb
  · exact hbx
  · have := h.head_lt hb
    have := h.nonempty a mem_cons_self
    omega

private theorem snd_notMem (h : Separated (a :: l)) : a.2 ∉ cover (a :: l) := by
  intro hx
  obtain ⟨b, hb, hb₁, hb₂⟩ := mem_cover.mp hx
  rcases mem_cons.mp hb with rfl | hb
  · exact lt_irrefl _ hb₂
  · exact absurd (h.head_lt hb) (not_lt.mpr hb₁)

private theorem head_snd_le {b : ℕ × ℕ} (hb : Separated (b :: m)) (hf : a.1 = b.1)
    (hc : cover (a :: l) = cover (b :: m)) : a.2 ≤ b.2 := by
  by_contra hlt
  have hne := hb.nonempty b mem_cons_self
  refine hb.snd_notMem (hc ▸ mem_cover.mpr ⟨a, mem_cons_self, ?_, not_le.mp hlt⟩)
  omega

/-- Separated lists that cover the same numbers are equal. -/
theorem eq_of_cover_eq (hl : Separated l) (hm : Separated m) (hc : cover l = cover m) : l = m := by
  induction l generalizing m with
  | nil =>
    obtain _ | ⟨b, m⟩ := m
    · rfl
    · have hb : b.1 ∈ cover (b :: m) :=
        mem_cover.mpr ⟨b, mem_cons_self, le_rfl, hm.nonempty b mem_cons_self⟩
      rw [← hc] at hb
      cases hb
  | cons a l ih =>
    have ha : a.1 ∈ cover (a :: l) :=
      mem_cover.mpr ⟨a, mem_cons_self, le_rfl, hl.nonempty a mem_cons_self⟩
    obtain _ | ⟨b, m⟩ := m
    · rw [hc] at ha
      cases ha
    · have hb : b.1 ∈ cover (b :: m) :=
        mem_cover.mpr ⟨b, mem_cons_self, le_rfl, hm.nonempty b mem_cons_self⟩
      have hf : a.1 = b.1 := le_antisymm (hl.fst_le (hc ▸ hb)) (hm.fst_le (hc ▸ ha))
      have hs : a.2 = b.2 := le_antisymm (hm.head_snd_le hf hc) (hl.head_snd_le hf.symm hc.symm)
      obtain rfl : a = b := Prod.ext hf hs
      have ht : cover l = cover m := by
        have hl' := union_sdiff_cancel_left hl.disjoint_head
        have hm' := union_sdiff_cancel_left hm.disjoint_head
        rw [← hl', ← hm']
        exact congrArg (· \ Ico a.1 a.2) hc
      rw [ih hl.of_cons hm.of_cons ht]

theorem eq_singleton {lo hi : ℕ} (h : Separated l) (hl : lo < hi) (hc : cover l = Ico lo hi) :
    l = [(lo, hi)] :=
  h.eq_of_cover_eq ⟨by simpa using hl, pairwise_singleton _ _⟩
    (by rw [hc, cover, cover, union_empty])

/-- The end of the last interval is the end of the positions covered. -/
theorem sup_cover (h : Separated l) : (cover l).sup (· + 1) = (l.getLast?.map Prod.snd).getD 0 := by
  induction l using reverseRecOn with
  | nil => rfl
  | append_singleton l a _ =>
    have hlt := h.nonempty a (by simp)
    rw [getLast?_concat, Option.map_some, Option.getD_some]
    refine le_antisymm (Finset.sup_le fun x hx => ?_) ?_
    · obtain ⟨b, hb, -, hxb⟩ := mem_cover.mp hx
      rcases mem_append.mp hb with hb | hb
      · have ha := (pairwise_append.mp h.apart).2.2 b hb a (by simp)
        omega
      · rw [List.mem_singleton.mp hb] at hxb
        omega
    · have hmem : a.2 - 1 ∈ cover (l ++ [a]) := mem_cover.mpr ⟨a, by simp, by omega, by omega⟩
      exact (Nat.sub_add_cancel (by omega)).ge.trans (Finset.le_sup (f := (· + 1)) hmem)

/-- The covered numbers of `[lo, hi)`, counted along the list. -/
theorem sum_overlap (h : Separated l) (lo hi : ℕ) :
    (l.map fun a => min a.2 hi - max a.1 lo).sum = (cover l ∩ Ico lo hi).card := by
  induction l with
  | nil => rfl
  | cons a l ih =>
    have hd : Disjoint (Ico a.1 a.2 ∩ Ico lo hi) (cover l ∩ Ico lo hi) :=
      h.disjoint_head.mono inter_subset_left inter_subset_left
    rw [List.map_cons, List.sum_cons, ih h.of_cons, cover, union_inter_distrib_right,
      card_union_of_disjoint hd, Ico_inter_Ico, Nat.card_Ico]

end Separated

/-! ### Adding an interval -/

section Merge

variable {l : List (ℕ × ℕ)} {lo hi : ℕ}

variable {a : ℕ × ℕ} {t : List (ℕ × ℕ)}

theorem mem_before : a ∈ before lo l ↔ a ∈ l ∧ a.2 < lo := by
  simp [before]

theorem mem_after : a ∈ after hi l ↔ a ∈ l ∧ hi < a.1 := by
  simp [after]

theorem mem_touching : a ∈ touching lo hi l ↔ a ∈ l ∧ lo ≤ a.2 ∧ a.1 ≤ hi := by
  simp [touching]

/-- A list in which the elements with a property come first consists of them and of the others. -/
private theorem filter_append_filter_not {p : ℕ × ℕ → Bool}
    (h : l.Pairwise fun a b => p b → p a) : l.filter p ++ l.filter (fun a => !p a) = l := by
  induction l with
  | nil => rfl
  | cons a l ih =>
    obtain ⟨ha, hl⟩ := List.pairwise_cons.mp h
    by_cases hp : p a
    · rw [List.filter_cons_of_pos hp, List.filter_cons_of_neg (by simpa using hp),
        cons_append, ih hl]
    · have hn : ∀ b ∈ a :: l, p b = false := by
        simpa [hp] using fun b hb hpb => hp (ha b hb hpb)
      rw [filter_eq_nil_iff.mpr fun b hb => by simp [hn b hb], nil_append,
        List.filter_eq_self.mpr fun b hb => by simp [hn b hb]]

/-- A separated list consists of the intervals before `[lo, hi)`, those touching it and those
after it, in this order. -/
theorem before_append_touching_append_after (h : Separated l) (hl : lo ≤ hi) :
    before lo l ++ touching lo hi l ++ after hi l = l := by
  have hbf : l.Pairwise fun a b => decide (b.2 < lo) → decide (a.2 < lo) :=
    h.apart.imp_of_mem fun {a b} ha hb hab => by
      have := h.nonempty b hb
      simp only [decide_eq_true_eq]
      omega
  have haf : (l.filter fun a => !decide (a.2 < lo)).Pairwise fun a b =>
      decide (b.1 ≤ hi) → decide (a.1 ≤ hi) :=
    (h.sorted.imp fun {a b} hab => by simp only [decide_eq_true_eq]; omega).filter _
  conv_rhs => rw [← filter_append_filter_not hbf, ← filter_append_filter_not haf]
  rw [append_assoc, List.filter_filter, List.filter_filter]
  congr 2
  all_goals
    refine List.filter_congr fun a ha => ?_
    have := h.nonempty a ha
    simp only [← decide_not, ← Bool.decide_and, decide_eq_decide]
    omega

private theorem hull_cons (a : ℕ × ℕ) (t : List (ℕ × ℕ)) :
    hull lo hi (a :: t) = hull (min lo a.1) (max hi a.2) t := rfl

/-- Taking the touching intervals out keeps a separated list. -/
theorem Separated.before_append_after (h : Separated l) (hl : lo ≤ hi) :
    Separated (before lo l ++ after hi l) := by
  have hs := (sublist_append_left (before lo l) (touching lo hi l)).append_right (after hi l)
  rw [before_append_touching_append_after h hl] at hs
  exact ⟨fun a ha => h.nonempty a (hs.subset ha), h.apart.sublist hs⟩

theorem hull_fst_le (t : List (ℕ × ℕ)) : (hull lo hi t).1 ≤ lo := by
  induction t generalizing lo hi with
  | nil => exact le_rfl
  | cons a t ih => exact ih.trans (min_le_left _ _)

theorem le_hull_snd (t : List (ℕ × ℕ)) : hi ≤ (hull lo hi t).2 := by
  induction t generalizing lo hi with
  | nil => exact le_rfl
  | cons a t ih => exact (le_max_left _ _).trans ih

theorem le_hull_fst {x : ℕ} (hl : x ≤ lo) (ht : ∀ a ∈ t, x ≤ a.1) : x ≤ (hull lo hi t).1 := by
  induction t generalizing lo hi with
  | nil => exact hl
  | cons a t ih =>
    exact ih (le_min hl (ht a mem_cons_self)) fun b hb => ht b (mem_cons_of_mem _ hb)

theorem hull_snd_le {x : ℕ} (hh : hi ≤ x) (ht : ∀ a ∈ t, a.2 ≤ x) : (hull lo hi t).2 ≤ x := by
  induction t generalizing lo hi with
  | nil => exact hh
  | cons a t ih =>
    exact ih (max_le hh (ht a mem_cons_self)) fun b hb => ht b (mem_cons_of_mem _ hb)

theorem hull_fst_le_of_mem (ha : a ∈ t) : (hull lo hi t).1 ≤ a.1 := by
  induction t generalizing lo hi with
  | nil => cases ha
  | cons b t ih =>
    rcases mem_cons.mp ha with rfl | ha
    · exact (hull_fst_le t).trans (min_le_right _ _)
    · exact ih ha

theorem le_hull_snd_of_mem (ha : a ∈ t) : a.2 ≤ (hull lo hi t).2 := by
  induction t generalizing lo hi with
  | nil => cases ha
  | cons b t ih =>
    rcases mem_cons.mp ha with rfl | ha
    · exact (le_max_right _ _).trans (le_hull_snd t)
    · exact ih ha

/-- Intervals that touch `[lo, hi)` fill their hull with it. -/
theorem Ico_hull (hl : lo ≤ hi) (ht : ∀ a ∈ t, a.1 ≤ a.2 ∧ lo ≤ a.2 ∧ a.1 ≤ hi) :
    Ico (hull lo hi t).1 (hull lo hi t).2 = Ico lo hi ∪ cover t := by
  induction t generalizing lo hi with
  | nil => simp [hull, cover]
  | cons a t ih =>
    obtain ⟨ha, hal, hah⟩ := ht a mem_cons_self
    rw [hull_cons, ih (by omega) fun b hb => ?_, cover, ← union_assoc]
    · congr 1
      ext x
      simp only [mem_Ico, mem_union]
      omega
    · have := ht b (mem_cons_of_mem _ hb)
      omega

/-- The intervals before and after `[lo, hi)`, with the hull of those touching it. -/
def merge (lo hi : ℕ) (l : List (ℕ × ℕ)) : List (ℕ × ℕ) :=
  before lo l ++ hull lo hi (touching lo hi l) :: after hi l

section

variable (h : Separated l)
include h

theorem before_lt_touching (hl : lo ≤ hi) {b : ℕ × ℕ} (ha : a ∈ before lo l)
    (hb : b ∈ touching lo hi l) : a.2 < b.1 := by
  have happ := h.apart
  rw [← before_append_touching_append_after h hl, append_assoc, pairwise_append] at happ
  exact happ.2.2 a ha b (mem_append_left _ hb)

theorem touching_lt_after (hl : lo ≤ hi) {b : ℕ × ℕ} (ha : a ∈ touching lo hi l)
    (hb : b ∈ after hi l) : a.2 < b.1 := by
  have happ := h.apart
  rw [← before_append_touching_append_after h hl, pairwise_append] at happ
  exact happ.2.2 a (mem_append_right _ ha) b hb

theorem before_lt_hull (hl : lo ≤ hi) (ha : a ∈ before lo l) :
    a.2 < (hull lo hi (touching lo hi l)).1 :=
  le_hull_fst (Nat.succ_le_of_lt (mem_before.mp ha).2) fun _ hb =>
    Nat.succ_le_of_lt (before_lt_touching h hl ha hb)

theorem hull_lt_after (hl : lo ≤ hi) (ha : a ∈ after hi l) :
    (hull lo hi (touching lo hi l)).2 < a.1 := by
  have hp : 0 < a.1 := Nat.zero_lt_of_lt (mem_after.mp ha).2
  have hle : (hull lo hi (touching lo hi l)).2 ≤ a.1 - 1 :=
    hull_snd_le (Nat.le_sub_one_of_lt (mem_after.mp ha).2) fun b hb =>
      Nat.le_sub_one_of_lt (touching_lt_after h hl hb ha)
  omega

/-- Merging an interval into a separated list gives a separated list. -/
theorem Separated.merge (hl : lo < hi) : Separated (merge lo hi l) := by
  have hle := hl.le
  constructor
  · intro a ha
    rcases mem_append.mp ha with ha | ha
    · exact h.nonempty a (mem_before.mp ha).1
    · rcases mem_cons.mp ha with rfl | ha
      · exact (hull_fst_le _).trans_lt (hl.trans_le (le_hull_snd _))
      · exact h.nonempty a (mem_after.mp ha).1
  · refine pairwise_append.mpr ⟨h.apart.filter _, ?_, ?_⟩
    · exact List.Pairwise.cons (fun _ hb => hull_lt_after h hle hb) (h.apart.filter _)
    · intro a ha b hb
      rcases mem_cons.mp hb with rfl | hb
      · exact before_lt_hull h hle ha
      · have hab := mem_before.mp ha
        have hbb := mem_after.mp hb
        omega

/-- Merging `[lo, hi)` covers exactly the numbers covered before and those of `[lo, hi)`. -/
theorem cover_merge (hl : lo ≤ hi) : cover (merge lo hi l) = cover l ∪ Ico lo hi := by
  have hs := congrArg cover (before_append_touching_append_after h hl)
  rw [cover_append, cover_append] at hs
  rw [merge, cover_append, cover, Ico_hull hl fun a ha => ?_, ← hs]
  · ext x
    simp only [mem_union]
    tauto
  · obtain ⟨hal, h₁, h₂⟩ := mem_touching.mp ha
    exact ⟨(h.nonempty a hal).le, h₁, h₂⟩

theorem length_merge (hl : lo ≤ hi) :
    (merge lo hi l).length + (touching lo hi l).length = l.length + 1 := by
  have hs := congrArg length (before_append_touching_append_after h hl)
  simp only [length_append, merge, length_cons] at *
  omega

end

/-- Only the touching intervals contain numbers of `[lo, hi)`. -/
theorem cover_touching_inter (l : List (ℕ × ℕ)) (lo hi : ℕ) :
    cover (touching lo hi l) ∩ Ico lo hi = cover l ∩ Ico lo hi := by
  ext x
  simp only [mem_inter, mem_cover, mem_Ico, mem_touching]
  constructor
  · rintro ⟨⟨a, ⟨ha, -⟩, hx⟩, hl⟩
    exact ⟨⟨a, ha, hx⟩, hl⟩
  · rintro ⟨⟨a, ha, hx⟩, hl⟩
    exact ⟨⟨a, ⟨ha, by omega, by omega⟩, hx⟩, hl⟩

variable (h : Separated l)
include h

/-- A non-empty interval that is covered lies inside a single interval of the list. -/
theorem exists_mem_of_Ico_subset_cover (hl : lo < hi) (hs : Ico lo hi ⊆ cover l) :
    ∃ a ∈ l, a.1 ≤ lo ∧ hi ≤ a.2 := by
  obtain ⟨a, ha, h₁, h₂⟩ := mem_cover.mp (hs (mem_Ico.mpr ⟨le_rfl, hl⟩))
  refine ⟨a, ha, h₁, ?_⟩
  by_contra hlt
  -- The end of the interval around `lo` is covered by another one, which would be adjacent to it.
  obtain ⟨b, hb, h₃, h₄⟩ := mem_cover.mp (hs (mem_Ico.mpr ⟨h₂.le, not_le.mp hlt⟩))
  have hab := h.apart_of_ne ha hb (by rintro rfl; omega)
  omega

theorem merge_eq_self (hl : lo < hi) (hs : Ico lo hi ⊆ cover l) : merge lo hi l = l :=
  (h.merge hl).eq_of_cover_eq h (by rw [cover_merge h hl.le, union_eq_left.mpr hs])

/-! ### Finding the touching intervals by their start -/

/-- Of the intervals that start below `lo`, only the last one can touch `[lo, hi)`. -/
private theorem touching_filter_lt : touching lo hi (l.filter fun a => decide (a.1 < lo)) =
      touching lo hi (l.filter fun a => decide (a.1 < lo)).getLast?.toList := by
  have hs := h.filter fun a => decide (a.1 < lo)
  have hlt : ∀ a ∈ l.filter (fun a => decide (a.1 < lo)), a.1 < lo := by
    intro a ha
    simpa using (mem_filter.mp ha).2
  generalize l.filter (fun a => decide (a.1 < lo)) = p at hs hlt ⊢
  rcases eq_nil_or_concat p with rfl | ⟨q, a, rfl⟩
  · rfl
  · rw [concat_eq_append] at *
    rw [getLast?_append, getLast?_singleton, Option.some_or]
    have hq : touching lo hi q = [] := by
      rw [touching, filter_eq_nil_iff]
      intro b hb
      have hba := (pairwise_append.mp hs.apart).2.2 b hb a mem_cons_self
      have := hlt a (mem_append_right _ mem_cons_self)
      simp only [decide_eq_true_eq, not_not]
      exact Or.inl (by omega)
    rw [touching, filter_append, ← touching, hq]
    rfl

/-- The touching intervals are found at the last start below `lo` and at the starts in
`[lo, hi]`. -/
theorem touching_last_append_between :
    touching lo hi ((l.filter fun a => decide (a.1 < lo)).getLast?.toList ++
      l.filter fun a => decide (lo ≤ a.1 ∧ a.1 ≤ hi)) = touching lo hi l := by
  have hs := congrArg (touching lo hi) (filter_append_filter_not (h.sorted.imp fun {a b} hab =>
    (by simp only [decide_eq_true_eq]; omega : decide (b.1 < lo) → decide (a.1 < lo))))
  rw [touching, filter_append, ← touching, ← touching, touching_filter_lt h] at hs
  rw [← hs, touching, filter_append, ← touching, ← touching]
  congr 1
  rw [touching, touching, List.filter_filter, List.filter_filter]
  refine List.filter_congr fun a ha => ?_
  simp only [← decide_not, ← Bool.decide_and, decide_eq_decide]
  omega

/-- The touching intervals are those from the start of the first one on, up to their number. -/
theorem take_filter_touching (hl : lo ≤ hi) (ha : (touching lo hi l).head? = some a) :
    (l.filter fun b => decide (a.1 ≤ b.1)).take (touching lo hi l).length = touching lo hi l := by
  obtain ⟨t, ht⟩ := head?_eq_some_iff.mp ha
  have hs := before_append_touching_append_after h hl
  have hsr := h.sorted
  rw [← hs, ht, append_assoc, cons_append, pairwise_append] at hsr
  have hbf : (before lo l).filter (fun b => decide (a.1 ≤ b.1)) = [] :=
    filter_eq_nil_iff.mpr fun b hb => by simpa using hsr.2.2 b hb a mem_cons_self
  have hr : (a :: (t ++ after hi l)).filter (fun b => decide (a.1 ≤ b.1)) =
      a :: (t ++ after hi l) :=
    filter_eq_self.mpr fun b hb => by
      rcases mem_cons.mp hb with rfl | hb
      · simp
      · simpa using (rel_of_pairwise_cons hsr.2.1 hb).le
  rw [ht, append_assoc, cons_append] at hs
  rw [ht]
  nth_rewrite 1 [← hs]
  rw [filter_append, hbf, hr, nil_append, ← cons_append, take_left]

end Merge

end Intervals
