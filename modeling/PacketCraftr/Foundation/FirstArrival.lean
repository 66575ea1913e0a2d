import Mathlib.Algebra.Order.Group.Unbundled.Int

/-!
# First-arrival-wins streams

Pieces of a stream arrive in some order, each of them placed at an offset that may be negative. The
stream they define has at each position the element of the first piece that covers it. A prefix of
the stream is `Complete` when it goes as far as the pieces cover every position; for pieces that
were cut from one stream it depends on which pieces arrived, not on their order.
-/

open List

namespace FirstArrival

variable {α : Type*}

/-- The element of a placed piece at a position. -/
def pieceAt (a : ℤ × List α) (x : ℕ) : Option α :=
  if a.1 ≤ x then a.2[(x - a.1).toNat]? else none

/-- The element at a position: that of the first piece that covers it. -/
def first (l : List (ℤ × List α)) (x : ℕ) : Option α := l.findSome? fun a => pieceAt a x

theorem first_concat (l : List (ℤ × List α)) (a : ℤ × List α) (x : ℕ) :
    first (l ++ [a]) x = (first l x).or (pieceAt a x) := by
  rw [first, findSome?_append, findSome?_singleton]
  rfl

/-- The list is the longest prefix of the stream without a hole. -/
structure Complete (l : List (ℤ × List α)) (out : List α) : Prop where
  getElem?_eq : ∀ i < out.length, out[i]? = first l i
  stop : first l out.length = none

/-- Every piece agrees with the stream where they overlap. -/
def CutFrom (stream : ℕ → α) (l : List (ℤ × List α)) : Prop :=
  ∀ a ∈ l, ∀ x b, pieceAt a x = some b → b = stream x

variable {s : ℕ → α} {l l' : List (ℤ × List α)} {out : List α}

theorem CutFrom.first_eq (h : CutFrom s l) {x : ℕ} {b : α} (hx : first l x = some b) : b = s x := by
  obtain ⟨a, ha, hax⟩ := exists_of_findSome?_eq_some hx
  exact h a ha x b hax

theorem first_eq_none_iff {x : ℕ} : first l x = none ↔ ∀ a ∈ l, pieceAt a x = none :=
  findSome?_eq_none_iff

theorem Complete.exists_first (h : Complete l out) {i : ℕ} (hi : i < out.length) :
    first l i = some out[i] := by
  rw [← h.getElem?_eq i hi, getElem?_eq_getElem hi]

theorem Complete.getElem?_of_cutFrom (h : Complete l out) (hc : CutFrom s l) {i : ℕ}
    (hi : i < out.length) :
    out[i]? = some (s i) := by
  rw [getElem?_eq_getElem hi, hc.first_eq (h.exists_first hi)]

/-- Pieces that cover the same positions have complete prefixes of the same length. -/
private theorem Complete.length_le {out' : List α} (h : Complete l out) (h' : Complete l' out')
    (hmem : ∀ a ∈ l', a ∈ l) :
    out'.length ≤ out.length := by
  by_contra hlt
  have hc := h'.exists_first (not_le.mp hlt)
  obtain ⟨a, ha, hax⟩ := exists_of_findSome?_eq_some hc
  rw [first_eq_none_iff.mp h.stop a (hmem a ha)] at hax
  cases hax

/-- For pieces cut from one stream, the complete prefix does not depend on their order. -/
theorem Complete.eq_of_cutFrom {out' : List α} (h : Complete l out) (h' : Complete l' out')
    (hmem : ∀ a, a ∈ l ↔ a ∈ l') (hc : CutFrom s l) : out = out' := by
  have hc' : CutFrom s l' := fun a ha => hc a ((hmem a).mpr ha)
  have hl : out.length = out'.length := le_antisymm (h'.length_le h fun a ha => (hmem a).mp ha)
      (h.length_le h' fun a ha => (hmem a).mpr ha)
  refine ext_getElem? fun i => ?_
  by_cases hi : i < out.length
  · rw [h.getElem?_of_cutFrom hc hi, h'.getElem?_of_cutFrom hc' (hl ▸ hi)]
  · rw [getElem?_eq_none (not_lt.mp hi), getElem?_eq_none (hl ▸ not_lt.mp hi)]

end FirstArrival
