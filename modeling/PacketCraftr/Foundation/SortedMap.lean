import Mathlib.Algebra.BigOperators.Group.List.Basic
import Mathlib.Data.List.Pairwise
import Mathlib.Data.List.Sort
import Mathlib.Algebra.Order.Ring.Nat

/-!
# Finite maps as lists of entries in increasing key order

A finite map is the list of its entries with strictly increasing keys. The list is what a sorted
container enumerates, so that range queries are filters of it; the order of the keys makes the
representation unique, so that maps with the same lookups are equal.

Every operation is described by the entries it leaves (`mem_insert`, `mem_erase`); the lemmas
on lookups, sizes and sums follow from those.
-/

/-- A finite map, as the list of its entries in increasing key order. -/
structure SortedMap (K V : Type*) [LinearOrder K] where
  entries : List (K × V)
  sorted : entries.Pairwise fun a b => a.1 < b.1

open List

namespace SortedMap

variable {K V : Type*} [LinearOrder K]

def empty : SortedMap K V := ⟨[], List.Pairwise.nil⟩

instance : Inhabited (SortedMap K V) := ⟨empty⟩

section

variable (m : SortedMap K V)

def find? (k : K) : Option V :=
  (m.entries.find? fun e => decide (e.1 = k)).map Prod.snd

def contains (k : K) : Bool := (m.find? k).isSome

def size : ℕ := m.entries.length

def keys : List K := m.entries.map Prod.fst

/-- The sum of a quantity over the entries. -/
def sum (f : V → ℕ) : ℕ := (m.entries.map fun e => f e.2).sum

end

private def insertEntry (k : K) (v : V) : List (K × V) → List (K × V)
  | [] => [(k, v)]
  | e :: rest =>
    if k < e.1 then (k, v) :: e :: rest
    else if k = e.1 then (k, v) :: rest
    else e :: insertEntry k v rest

variable {k : K} {v : V} {e : K × V} {m : SortedMap K V}

private theorem mem_insertEntry {l : List (K × V)} (hl : l.Pairwise fun a b => a.1 < b.1) :
    e ∈ insertEntry k v l ↔ e = (k, v) ∨ (e.1 ≠ k ∧ e ∈ l) := by
  induction l with
  | nil => simp [insertEntry]
  | cons a l ih =>
    have hh : ∀ b ∈ l, a.1 < b.1 := fun b hb => rel_of_pairwise_cons hl hb
    unfold insertEntry
    split_ifs with hlt heq
    · have hne : ∀ b ∈ a :: l, b.1 ≠ k := by
        intro b hb
        rcases mem_cons.mp hb with rfl | hb
        · exact ne_of_gt hlt
        · exact ne_of_gt (hlt.trans (hh b hb))
      rw [mem_cons]
      exact or_congr_right ⟨fun h => ⟨hne e h, h⟩, And.right⟩
    · subst heq
      have hne : ∀ b ∈ l, b.1 ≠ a.1 := fun b hb => ne_of_gt (hh b hb)
      simp only [mem_cons]
      refine or_congr_right ⟨fun h => ⟨hne e h, Or.inr h⟩, ?_⟩
      rintro ⟨he, rfl | h⟩
      · exact absurd rfl he
      · exact h
    · have hne : a.1 ≠ k := fun h => heq h.symm
      simp only [mem_cons, ih hl.of_cons]
      constructor
      · rintro (rfl | rfl | ⟨he, h⟩)
        · exact Or.inr ⟨hne, Or.inl rfl⟩
        · exact Or.inl rfl
        · exact Or.inr ⟨he, Or.inr h⟩
      · rintro (rfl | ⟨he, rfl | h⟩)
        · exact Or.inr (Or.inl rfl)
        · exact Or.inl rfl
        · exact Or.inr (Or.inr ⟨he, h⟩)

private theorem pairwise_insertEntry {l : List (K × V)} (hl : l.Pairwise fun a b => a.1 < b.1) :
    (insertEntry k v l).Pairwise fun a b => a.1 < b.1 := by
  induction l with
  | nil => simp [insertEntry]
  | cons a l ih =>
    have hh : ∀ b ∈ l, a.1 < b.1 := fun b hb => rel_of_pairwise_cons hl hb
    unfold insertEntry
    split_ifs with hlt heq
    · refine hl.cons fun b hb => ?_
      rcases mem_cons.mp hb with rfl | hb
      · exact hlt
      · exact hlt.trans (hh b hb)
    · exact hl.of_cons.cons fun b hb => heq ▸ hh b hb
    · refine (ih hl.of_cons).cons fun b hb => ?_
      rcases (mem_insertEntry hl.of_cons).mp hb with rfl | ⟨-, hb⟩
      · exact lt_of_le_of_ne (not_lt.mp hlt) (Ne.symm heq)
      · exact hh b hb

section

variable (m : SortedMap K V)

/-- Store a value at a key, replacing the one that was there. -/
def insert (k : K) (v : V) : SortedMap K V :=
  ⟨insertEntry k v m.entries, pairwise_insertEntry m.sorted⟩

def erase (k : K) : SortedMap K V :=
  ⟨m.entries.filter fun e => decide (e.1 ≠ k), m.sorted.filter _⟩

/-- The entry with the largest key below `k`. -/
def lastBelow (k : K) : Option (K × V) :=
  (m.entries.filter fun e => decide (e.1 < k)).getLast?

/-- The entries with a key at least `k`, in increasing order. -/
def atLeast (k : K) : List (K × V) :=
  m.entries.filter fun e => decide (k ≤ e.1)

/-- The entries with a key in `[low, high]`, in increasing order. -/
def between (low high : K) : List (K × V) :=
  m.entries.filter fun e => decide (low ≤ e.1 ∧ e.1 ≤ high)

end

/-! ### Entries and lookups -/

theorem eq_of_mem {a b : K × V} (ha : a ∈ m.entries) (hb : b ∈ m.entries) (h : a.1 = b.1) :
    a = b := by
  by_contra hne
  have : Std.Symm fun a b : K × V => a.1 ≠ b.1 := ⟨fun _ _ h => h.symm⟩
  have hk : m.entries.Pairwise fun a b => a.1 ≠ b.1 := m.sorted.imp fun hlt => ne_of_lt hlt
  exact hk.forall ha hb hne h

theorem find?_eq_some : m.find? k = some v ↔ (k, v) ∈ m.entries := by
  unfold find?
  constructor
  · intro h
    obtain ⟨e, he, rfl⟩ := Option.map_eq_some_iff.mp h
    have hk : e.1 = k := by simpa using find?_some he
    exact hk ▸ mem_of_find?_eq_some he
  · intro h
    cases hf : m.entries.find? fun e => decide (e.1 = k) with
    | none => exact absurd (decide_eq_true rfl) (List.find?_eq_none.mp hf (k, v) h)
    | some e =>
      have hk : e.1 = k := by simpa using find?_some hf
      rw [eq_of_mem (mem_of_find?_eq_some hf) h hk]
      rfl

theorem find?_eq_none : m.find? k = none ↔ ∀ v, (k, v) ∉ m.entries := by
  rw [← not_iff_not, ← ne_eq, Option.ne_none_iff_exists']
  simp only [find?_eq_some, not_forall, not_not]

theorem mem_insert : e ∈ (m.insert k v).entries ↔ e = (k, v) ∨ (e.1 ≠ k ∧ e ∈ m.entries) :=
  mem_insertEntry m.sorted

theorem mem_erase : e ∈ (m.erase k).entries ↔ e.1 ≠ k ∧ e ∈ m.entries := by
  simp only [erase, mem_filter, decide_eq_true_eq, and_comm]

theorem ext_entries {n : SortedMap K V} (h : ∀ e, e ∈ m.entries ↔ e ∈ n.entries) : m = n := by
  obtain ⟨l, hl⟩ := m
  obtain ⟨l', hl'⟩ := n
  have hn {l : List (K × V)} (hl : l.Pairwise fun a b => a.1 < b.1) : l.Nodup :=
    hl.imp fun hlt heq => absurd (congrArg Prod.fst heq) (ne_of_lt hlt)
  have hp : l.Perm l' := (perm_ext_iff_of_nodup (hn hl) (hn hl')).mpr h
  congr
  exact hp.eq_of_pairwise (fun a b _ _ ha hb => absurd ha (not_lt.mpr hb.le)) hl hl'

theorem ext_find? {n : SortedMap K V} (h : ∀ k, m.find? k = n.find? k) : m = n := by
  refine ext_entries fun e => ?_
  rw [← find?_eq_some (v := e.2), ← find?_eq_some (v := e.2), h]

section

variable (m : SortedMap K V)

theorem find?_insert (k k' : K) (v : V) :
    (m.insert k v).find? k' = if k' = k then some v else m.find? k' := by
  split_ifs with h
  · subst h
    exact find?_eq_some.mpr (mem_insert.mpr (Or.inl rfl))
  · refine Option.ext fun w => ?_
    rw [find?_eq_some, find?_eq_some, mem_insert]
    constructor
    · rintro (he | he)
      · exact absurd (congrArg Prod.fst he) h
      · exact he.2
    · exact fun he => Or.inr ⟨h, he⟩

@[simp]
theorem find?_insert_self (k : K) (v : V) : (m.insert k v).find? k = some v := by
  rw [find?_insert, if_pos rfl]

theorem find?_insert_of_ne {k' : K} (v : V) (h : k' ≠ k) :
    (m.insert k v).find? k' = m.find? k' := by
  rw [find?_insert, if_neg h]

theorem find?_erase (k k' : K) : (m.erase k).find? k' = if k' = k then none else m.find? k' := by
  split_ifs with h
  · subst h
    exact find?_eq_none.mpr fun v hv => (mem_erase.mp hv).1 rfl
  · refine Option.ext fun w => ?_
    rw [find?_eq_some, find?_eq_some, mem_erase]
    exact ⟨And.right, fun he => ⟨h, he⟩⟩

@[simp]
theorem find?_erase_self (k : K) : (m.erase k).find? k = none := by
  rw [find?_erase, if_pos rfl]

theorem find?_erase_of_ne {k' : K} (h : k' ≠ k) : (m.erase k).find? k' = m.find? k' := by
  rw [find?_erase, if_neg h]

end

@[simp]
theorem find?_empty (k : K) : (empty : SortedMap K V).find? k = none := rfl

theorem erase_of_find?_eq_none (h : m.find? k = none) : m.erase k = m := by
  refine ext_find? fun k' => ?_
  rw [find?_erase]
  split_ifs with hk
  · rw [hk, h]
  · rfl

theorem erase_insert (m : SortedMap K V) (k : K) (v : V) : (m.insert k v).erase k = m.erase k := by
  refine ext_find? fun k' => ?_
  rw [find?_erase, find?_erase]
  split_ifs with hk
  · rfl
  · exact find?_insert_of_ne m v hk

/-! ### Sizes and sums -/

private theorem nodup_entries (m : SortedMap K V) : m.entries.Nodup :=
  m.sorted.imp fun hlt heq => absurd (congrArg Prod.fst heq) (ne_of_lt hlt)

/-- The entries of a map are the entry at a key and those of the map without the key. -/
theorem perm_cons_erase (h : m.find? k = some v) :
    m.entries.Perm ((k, v) :: (m.erase k).entries) := by
  have hnot : (k, v) ∉ (m.erase k).entries := fun hv => (mem_erase.mp hv).1 rfl
  refine (perm_ext_iff_of_nodup m.nodup_entries
    (nodup_cons.mpr ⟨hnot, (m.erase k).nodup_entries⟩)).mpr fun e => ?_
  rw [mem_cons, mem_erase]
  constructor
  · intro he
    by_cases hk : e.1 = k
    · exact Or.inl (eq_of_mem he (find?_eq_some.mp h) hk)
    · exact Or.inr ⟨hk, he⟩
  · rintro (rfl | he)
    · exact find?_eq_some.mp h
    · exact he.2

/-- Removing the key of an entry takes the entry out of the list. -/
theorem entries_erase {l₁ l₂ : List (K × V)} (h : m.entries = l₁ ++ e :: l₂) :
    (m.erase e.1).entries = l₁ ++ l₂ := by
  have hs := m.sorted
  rw [h, pairwise_append] at hs
  obtain ⟨-, hc, ha⟩ := hs
  have h₁ : l₁.filter (fun x => decide (x.1 ≠ e.1)) = l₁ := filter_eq_self.mpr fun x hx =>
    decide_eq_true (ha x hx e mem_cons_self).ne
  have h₂ : l₂.filter (fun x => decide (x.1 ≠ e.1)) = l₂ := filter_eq_self.mpr fun x hx =>
    decide_eq_true (rel_of_pairwise_cons hc hx).ne'
  change m.entries.filter (fun x => decide (x.1 ≠ e.1)) = l₁ ++ l₂
  rw [h, filter_append, filter_cons_of_neg (by simp), h₁, h₂]

theorem size_erase (h : m.find? k = some v) : m.size = (m.erase k).size + 1 := by
  simpa only [size, length_cons] using (perm_cons_erase h).length_eq

theorem sum_erase (h : m.find? k = some v) (f : V → ℕ) : m.sum f = f v + (m.erase k).sum f := by
  simpa only [sum, map_cons, sum_cons] using ((perm_cons_erase h).map fun e => f e.2).sum_eq

theorem size_insert (m : SortedMap K V) (k : K) (v : V) :
    (m.insert k v).size = (m.erase k).size + 1 := by
  rw [size_erase (m.find?_insert_self k v), erase_insert]

theorem sum_insert (m : SortedMap K V) (k : K) (v : V) (f : V → ℕ) :
    (m.insert k v).sum f = f v + (m.erase k).sum f := by
  rw [sum_erase (m.find?_insert_self k v), erase_insert]

theorem size_erase_le (m : SortedMap K V) (k : K) : (m.erase k).size ≤ m.size :=
  length_filter_le _ _

theorem le_sum_of_find? (h : m.find? k = some v) (f : V → ℕ) : f v ≤ m.sum f := by
  rw [sum_erase h]
  exact Nat.le_add_right _ _

/-! ### The smallest keys -/

theorem sorted_keys (m : SortedMap K V) : m.keys.Pairwise (· < ·) := pairwise_map.mpr m.sorted

theorem nodup_keys (m : SortedMap K V) : m.keys.Nodup := m.sorted_keys.imp ne_of_lt

theorem mem_keys : k ∈ m.keys ↔ ∃ v, m.find? k = some v := by
  simp [keys, find?_eq_some]

/-- An element below the last of the `n + 1` smallest displaces it. -/
theorem take_orderedInsert_of_lt {l : List K} {n : ℕ} {b : K} (hb : l[n]? = some b) (hk : k < b) :
    (l.orderedInsert (· ≤ ·) k).take (n + 1) = (l.take n).orderedInsert (· ≤ ·) k := by
  induction l generalizing n with
  | nil => cases hb
  | cons a l ih =>
    rw [orderedInsert_cons]
    cases n with
    | zero =>
      cases hb
      rw [if_pos hk.le]
      rfl
    | succ n =>
      rw [take_succ_cons, orderedInsert_cons]
      split_ifs
      · rfl
      · rw [take_succ_cons, ih hb]

/-- An element not below the last of the `n + 1` smallest leaves them as they are. -/
theorem take_orderedInsert_of_le {l : List K} {n : ℕ} {b : K} (hb : l[n]? = some b) (hk : b ≤ k)
    (hl : l.Pairwise (· < ·)) :
    (l.orderedInsert (· ≤ ·) k).take (n + 1) = l.take (n + 1) := by
  induction l generalizing n with
  | nil => cases hb
  | cons a l ih =>
    obtain ⟨ha, hl⟩ := pairwise_cons.mp hl
    rw [orderedInsert_cons]
    cases n with
    | zero =>
      cases hb
      split_ifs with hka
      · rw [le_antisymm hka hk]
        rfl
      · rfl
    | succ n =>
      have hab := ha b (mem_of_getElem? hb)
      rw [if_neg (not_le.mpr (hab.trans_le hk)), take_succ_cons, ih hb hl, take_succ_cons]

end SortedMap
