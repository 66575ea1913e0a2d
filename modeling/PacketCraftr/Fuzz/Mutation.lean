import Mathlib.Data.Nat.Size
import Mathlib.Algebra.Order.Ring.Nat

/-!
# Fuzzing: the largest value that a field accepts

The width prober of `fuzz/mutation.rs`. It assigns values to a field, first to bisect the width of
the largest one that is accepted and then the value itself, within one budget of attempts. The layer
is what its field accepts; the limits on the size of a value only decide whether probing starts.
-/

open List

namespace PacketCraftr.Fuzz

def maxWidthProbes : ℕ := 64

/-- A computation that counts its attempts, also when it gives up. -/
def Probe (α : Type) : Type := ℕ → Option α × ℕ

instance : Monad Probe where
  pure a := fun n => (some a, n)
  bind p f := fun n => match p n with
    | (some a, n) => f a n
    | (none, n) => (none, n)

def giveUp {α : Type} : Probe α := fun n => (none, n)

section

variable (field : ℕ → Bool)

def accepts (value : ℕ) : Probe Bool := fun attempts =>
  if maxWidthProbes ≤ attempts then (none, attempts) else (some (field value), attempts + 1)

/-- The largest value of some bits. -/
def widthMask (bits : ℕ) : ℕ := (2 ^ 64 - 1) / 2 ^ (64 - bits)

/-- Bisect between an accepted and a rejected number, which stand for the values of `f`. -/
def bisect (f : ℕ → ℕ) (accepted rejected : ℕ) : Probe (ℕ × ℕ) :=
  if rejected - accepted > 1 then do
    let middle := accepted + (rejected - accepted) / 2
    let ok ← accepts field (f middle)
    if ok then bisect f middle rejected else bisect f accepted middle
  else pure (accepted, rejected)
termination_by rejected - accepted

def acceptedMaximum : Probe ℕ := do
  let zero ← accepts field 0
  if !zero then giveUp
  else do
    let all ← accepts field (2 ^ 64 - 1)
    if all then pure (2 ^ 64 - 1)
    else do
      let bits ← bisect field widthMask 0 64
      let accepted := widthMask bits.1
      let rejected := widthMask bits.2
      -- A power-of-two limit is rejected by the very next value.
      if rejected - accepted > 1 then do
        let ok ← accepts field (accepted + 1)
        if !ok then pure accepted else Prod.fst <$> bisect field id (accepted + 1) rejected
      else Prod.fst <$> bisect field id accepted rejected

/-- Remove the repetitions of a sorted list. -/
def dedup : List ℕ → List ℕ
  | a :: b :: l => if a = b then dedup (b :: l) else a :: dedup (b :: l)
  | l => l

/-- The boundary values of a field, if probing is admitted and finds its maximum. -/
def widthBoundaries (admitted : Bool) : Option (List ℕ) := do
  guard admitted
  let maximum ← (acceptedMaximum field 0).1
  let width := maximum.size
  let values := [0, 1, maximum, maximum - 1] ++
    (if width > 1 then [2 ^ (width - 1)] else []) ++
    (if maximum + 1 < 2 ^ 64 then [maximum + 1] else [])
  return dedup (values.mergeSort (· ≤ ·))

end

/-! ### Probes -/

/-- After `n` attempts, the probe gives up with `F` or returns with `Q`. -/
def Probe.Meets {α : Type} (p : Probe α) (n : ℕ) (F : ℕ → Prop) (Q : α → ℕ → Prop) : Prop :=
  match p n with
  | (some a, n) => Q a n
  | (none, n) => F n

section

variable {α β : Type} {p : Probe α} {f : α → Probe β} {n : ℕ} {F G : ℕ → Prop} {Q R : α → ℕ → Prop}

theorem Probe.Meets.mono (h : p.Meets n F Q) (hF : ∀ k, F k → G k) (hQ : ∀ a k, Q a k → R a k) :
    p.Meets n G R := by
  unfold Meets at h ⊢
  split at h
  · exact hQ _ _ h
  · exact hF _ h

theorem Probe.Meets.bind {R : β → ℕ → Prop} (h : p.Meets n F Q)
    (hf : ∀ a k, Q a k → (f a).Meets k F R) : Probe.Meets (p >>= f) n F R := by
  unfold Meets at h
  change match (match p n with | (some a, n) => f a n | (none, n) => (none, n)) with
    | (some b, n) => R b n
    | (none, n) => F n
  split at h
  · exact hf _ _ h
  · exact h

end

variable {field : ℕ → Bool} {m n : ℕ}

theorem accepts_meets {F : ℕ → Prop} (v : ℕ) (hF : 64 ≤ n → F n) :
    (accepts field v).Meets n F fun b k => b = field v ∧ k = n + 1 ∧ n < 64 := by
  unfold Probe.Meets accepts maxWidthProbes
  by_cases h : 64 ≤ n
  · rw [if_pos h]
    exact hF h
  · rw [if_neg h]
    exact ⟨rfl, rfl, not_le.mp h⟩

/-- Halving `d` down to one takes the attempts from `n` to at most `k`. -/
def Within (d n k : ℕ) : Prop := ∀ j, d ≤ 2 ^ j → k ≤ n + j

theorem Within.of_half {d e k : ℕ} (h : Within e (n + 1) k) (hd : d > 1) (he : e ≤ (d + 1) / 2) :
    Within d n k := by
  intro j hj
  cases j with
  | zero => omega
  | succ j =>
    have := h j (by omega)
    omega

/-- Where a bisection between `a` and `r` ends. -/
structure Found (m : ℕ) (f : ℕ → ℕ) (a r n : ℕ) (x : ℕ × ℕ) (k : ℕ) : Prop where
  next : x.2 = x.1 + 1
  le : x.2 ≤ r
  accepted : f x.1 ≤ m
  rejected : m < f x.2
  attempts : k ≤ 64
  within : Within (r - a) n k

/-- A bisection ends at two successive numbers, and gives up only when its budget is spent. -/
theorem bisect_meets (hm : ∀ v, field v = decide (v ≤ m)) (f : ℕ → ℕ) {a r : ℕ} (har : a < r)
    (ha : f a ≤ m) (hr : m < f r) (hn : n ≤ 64) :
    (bisect field f a r).Meets n (fun k => k = 64 ∧ Within (r - a) n 65) (Found m f a r n) := by
  induction a, r using bisect.induct generalizing n with
  | case1 a r hd middle iha =>
    rename_i ihr
    have hmid : middle = a + (r - a) / 2 := rfl
    have hF : 64 ≤ n → n = 64 ∧ Within (r - a) n 65 := fun h =>
      ⟨by omega, Within.of_half (e := 1) (fun j _ => by omega) hd (by omega)⟩
    rw [bisect, if_pos hd]
    refine (accepts_meets _ hF).bind ?_
    rintro b k ⟨rfl, rfl, hlt⟩
    rw [hm]
    split_ifs with hv
    · rw [decide_eq_true_eq] at hv
      refine (iha (by omega) hv hr hlt).mono ?_ ?_
      · exact fun k h => ⟨h.1, h.2.of_half hd (by omega)⟩
      · exact fun x k h => { h with within := h.within.of_half hd (by omega) }
    · rw [decide_eq_true_eq, not_le] at hv
      refine (ihr (by omega) ha hv hlt).mono ?_ ?_
      · exact fun k h => ⟨h.1, h.2.of_half hd (by omega)⟩
      · exact fun x k h => { h with
          le := h.le.trans (by omega)
          within := h.within.of_half hd (by omega) }
  | case2 a r hd =>
    rw [bisect, if_neg hd]
    exact ⟨by omega, le_rfl, ha, hr, hn, fun j _ => Nat.le_add_right n j⟩

theorem widthMask_eq : ∀ bits ≤ 64, widthMask bits = 2 ^ bits - 1 := by decide +kernel

theorem bisect_id_meets (hm : ∀ v, field v = decide (v ≤ m)) {a r : ℕ} (ha : a ≤ m) (hr : m < r)
    (hn : n ≤ 64) :
    Probe.Meets (Prod.fst <$> bisect field id a r) n (fun k => k = 64 ∧ Within (r - a) n 65)
      fun x k => x = m ∧ k ≤ 64 := by
  refine Probe.Meets.bind (bisect_meets hm id (ha.trans_lt hr) ha hr hn) ?_
  rintro ⟨x, y⟩ k ⟨hx, -, hax, hry, hk, -⟩
  refine ⟨?_, hk⟩
  dsimp only [id] at *
  omega

/-- The prober returns the maximum, and gives up only after all its attempts, on a maximum that is
not the largest value of a width. -/
theorem acceptedMaximum_meets (hlt : m < 2 ^ 64) (hm : ∀ v, field v = decide (v ≤ m)) :
    (acceptedMaximum field).Meets 0 (fun k => k = 64 ∧ ∀ j, m + 1 ≠ 2 ^ j)
      fun a k => a = m ∧ k ≤ 64 := by
  refine (accepts_meets 0 (by omega)).bind ?_
  rintro _ _ ⟨rfl, rfl, -⟩
  rw [hm, decide_eq_true (Nat.zero_le m)]
  refine (accepts_meets (2 ^ 64 - 1) (by omega)).bind ?_
  rintro _ _ ⟨rfl, rfl, -⟩
  rw [hm]
  split_ifs with hall
  · rw [decide_eq_true_eq] at hall
    exact ⟨by omega, by omega⟩
  rw [decide_eq_true_eq, not_le] at hall
  -- Six attempts find the width, so that the budget is not spent there.
  have hw := bisect_meets (n := 2) hm widthMask (a := 0) (r := 64) (by omega) (Nat.zero_le m) hall
    (by omega)
  refine (hw.mono (fun k h => absurd (h.2 6 (by omega)) (by omega)) fun _ _ h => h).bind ?_
  rintro ⟨b, c⟩ k ⟨hc, hb, ha, hr, -, hk⟩
  obtain rfl : c = b + 1 := hc
  have hk := hk 6 (by omega)
  dsimp only at hb ha hr ⊢
  rw [widthMask_eq b (by omega)] at ha ⊢
  rw [widthMask_eq (b + 1) hb] at hr ⊢
  have hp : 2 ^ (b + 1) = 2 ^ b * 2 := pow_succ 2 b
  split_ifs with hd
  · refine (accepts_meets _ (by omega)).bind ?_
    rintro _ _ ⟨rfl, rfl, -⟩
    rw [hm]
    by_cases hv : 2 ^ b - 1 + 1 ≤ m
    · rw [decide_eq_true hv]
      refine (bisect_id_meets hm hv hr (by omega)).mono (fun k h => ⟨h.1, fun j hj => ?_⟩)
        fun _ _ h => h
      -- A power of two that is above one is not below the next.
      have hlo : b < j := (Nat.pow_lt_pow_iff_right (by omega)).mp (show 2 ^ b < 2 ^ j by omega)
      have := Nat.pow_le_pow_right (n := 2) (by omega) hlo
      omega
    · rw [decide_eq_false hv]
      exact ⟨by omega, by omega⟩
  · refine (bisect_id_meets hm ha hr (by omega)).mono (fun k h => ?_) fun _ _ h => h
    exact absurd (h.2 0 (by omega)) (by omega)

theorem mem_dedup (v : ℕ) (l : List ℕ) : v ∈ dedup l ↔ v ∈ l := by
  induction l using dedup.induct with
  | case1 b l ih =>
    rw [dedup, if_pos rfl, ih]
    simp
  | case2 a b l hab ih => rw [dedup, if_neg hab, mem_cons, ih, ← mem_cons]
  | case3 l h =>
    rw [dedup]
    exact h

/-- On a field that accepts the values up to `m`, the prober finds `m` or nothing, within its budget
of attempts; it finds every `m` that is the largest value of a width. The boundary values are zero,
one, `m` and its neighbours, and the highest power of two up to `m`. -/
theorem acceptedMaximum_exact (hlt : m < 2 ^ 64) (hm : ∀ v, field v = decide (v ≤ m)) :
    (acceptedMaximum field 0).2 ≤ maxWidthProbes ∧
    (∀ a, (acceptedMaximum field 0).1 = some a → a = m) ∧
    ((∃ j, m + 1 = 2 ^ j) → (acceptedMaximum field 0).1 = some m) ∧
    ∀ admitted values, widthBoundaries field admitted = some values →
      ∀ v, v ∈ values ↔ v = 0 ∨ v = 1 ∨ v = m ∨ v = m - 1 ∨ 1 < m.size ∧ v = 2 ^ (m.size - 1) ∨
        m + 1 < 2 ^ 64 ∧ v = m + 1 := by
  have h := acceptedMaximum_meets hlt hm
  unfold Probe.Meets at h
  unfold widthBoundaries
  generalize acceptedMaximum field 0 = out at h ⊢
  rcases out with ⟨_ | a, k⟩
  · refine ⟨h.1.le, nofun, fun ⟨j, hj⟩ => absurd hj (h.2 j), ?_⟩
    rintro (_ | _) _ ⟨⟩
  · obtain ⟨rfl, hk⟩ := h
    refine ⟨hk, fun _ h => (Option.some.inj h).symm, fun _ => rfl, ?_⟩
    rintro (_ | _) _ ⟨⟩ v
    rw [mem_dedup, mem_mergeSort]
    simp only [mem_append, mem_cons, not_mem_nil, mem_ite_nil_right]
    tauto

/-- A field of one octet. -/
theorem acceptedMaximum_exact_octet :
    (acceptedMaximum (fun v => decide (v ≤ 255)) 0).1 = some 255 :=
  (acceptedMaximum_exact (by decide) fun _ => rfl).2.2.1 ⟨8, rfl⟩

end PacketCraftr.Fuzz
