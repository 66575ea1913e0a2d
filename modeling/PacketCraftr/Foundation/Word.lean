import PacketCraftr.Foundation.Exec

/-!
# Arithmetic on 64-bit words

Offsets, lengths and charges are natural numbers below `wordLimit = 2 ^ 64`. The checked
operations return `none` when the result does not fit, the saturating ones stop at the largest
word, and the plain ones panic: the builds that are modelled keep overflow checks on.
Saturating subtraction is the subtraction of natural numbers.
-/

/-- The first natural number that is not a 64-bit word. -/
def wordLimit : ℕ := 2 ^ 64

/-- A natural number as a word, when it fits. -/
def wordOf (a : ℕ) : Option ℕ := if a < wordLimit then some a else none

def checkedAdd (a b : ℕ) : Option ℕ := wordOf (a + b)

def checkedMul (a b : ℕ) : Option ℕ := wordOf (a * b)

def checkedSub (a b : ℕ) : Option ℕ := if b ≤ a then some (a - b) else none

def saturatingAdd (a b : ℕ) : ℕ := min (a + b) (wordLimit - 1)

def saturatingMul (a b : ℕ) : ℕ := min (a * b) (wordLimit - 1)

/-- A signed integer as a word, when it fits. -/
def wordOfInt (a : ℤ) : Option ℕ := if 0 ≤ a then wordOf a.toNat else none

namespace Exec

variable {ε : Type}

/-- The sum of two words, or a panic. -/
def add (a b : ℕ) : Exec ε ℕ := if a + b < wordLimit then .ok (a + b) else abort .overflow

/-- The product of two words, or a panic. -/
def mul (a b : ℕ) : Exec ε ℕ := if a * b < wordLimit then .ok (a * b) else abort .overflow

/-- The difference of two words, or a panic. -/
def sub (a b : ℕ) : Exec ε ℕ := if b ≤ a then .ok (a - b) else abort .overflow

theorem add_eq {a b : ℕ} (h : a + b < wordLimit) : (add a b : Exec ε ℕ) = .ok (a + b) := if_pos h

theorem mul_eq {a b : ℕ} (h : a * b < wordLimit) : (mul a b : Exec ε ℕ) = .ok (a * b) := if_pos h

theorem sub_eq {a b : ℕ} (h : b ≤ a) : (sub a b : Exec ε ℕ) = .ok (a - b) := if_pos h

end Exec

variable {a b c : ℕ}

theorem saturatingAdd_eq (h : a + b < wordLimit) : saturatingAdd a b = a + b :=
  Nat.min_eq_left (Nat.le_sub_one_of_lt h)

theorem wordOf_eq_some : wordOf a = some c ↔ a < wordLimit ∧ c = a := by
  unfold wordOf
  split_ifs with h
  · simp [h, eq_comm]
  · simp [h]

theorem checkedAdd_eq_some : checkedAdd a b = some c ↔ a + b < wordLimit ∧ c = a + b :=
  wordOf_eq_some

theorem checkedMul_eq_some : checkedMul a b = some c ↔ a * b < wordLimit ∧ c = a * b :=
  wordOf_eq_some

theorem checkedSub_eq_some : checkedSub a b = some c ↔ b ≤ a ∧ c = a - b := by
  unfold checkedSub
  split_ifs with h
  · simp [h, eq_comm]
  · simp [h]

namespace Exec

variable {ε : Type}

theorem okOr_checkedAdd {a b : ℕ} {e : ε} (h : a + b < wordLimit) :
    (okOr (checkedAdd a b) e : Exec ε ℕ) = .ok (a + b) := by
  rw [checkedAdd_eq_some.mpr ⟨h, rfl⟩, okOr_some]

theorem okOr_checkedSub {a b : ℕ} {e : ε} (h : b ≤ a) :
    (okOr (checkedSub a b) e : Exec ε ℕ) = .ok (a - b) := by
  rw [checkedSub_eq_some.mpr ⟨h, rfl⟩, okOr_some]

end Exec

theorem wordOfInt_eq_some {a : ℤ} :
    wordOfInt a = some c ↔ 0 ≤ a ∧ a.toNat < wordLimit ∧ c = a.toNat := by
  unfold wordOfInt
  split_ifs with h
  · simp [h, wordOf_eq_some]
  · simp [h]
