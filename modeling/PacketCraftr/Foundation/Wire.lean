import Mathlib.Algebra.Order.Ring.Nat
import Mathlib.Data.List.TakeDrop

/-!
# Byte strings and big-endian words

Byte strings as lists, half-open ranges of them, and the 16- and 32-bit words a wire format keeps
in two and four bytes, most significant byte first. A word is the number it denotes.
-/

abbrev Bytes := List UInt8

namespace Wire

/-- The bytes of the half-open range `[first, last)`, if the string has them all. -/
def range? (bytes : Bytes) (first last : ℕ) : Option Bytes :=
  if first ≤ last ∧ last ≤ bytes.length then some ((bytes.take last).drop first) else none

/-- The word of two bytes. -/
def be16 (high low : UInt8) : ℕ := high.toNat * 256 + low.toNat

/-- The word at an offset, if the string has both its bytes. -/
def be16? (bytes : Bytes) (offset : ℕ) : Option ℕ :=
  match bytes[offset]?, bytes[offset + 1]? with
  | some high, some low => some (be16 high low)
  | _, _ => none

/-- The two bytes of a word. -/
def toBe16 (w : ℕ) : Bytes := [UInt8.ofNat (w / 256), UInt8.ofNat w]

@[simp]
theorem length_toBe16 (w : ℕ) : (toBe16 w).length = 2 := rfl

theorem range?_eq_some {bytes : Bytes} {first last : ℕ} {r : Bytes} :
    range? bytes first last = some r ↔
      (first ≤ last ∧ last ≤ bytes.length) ∧ r = (bytes.take last).drop first := by
  unfold range?
  split_ifs with h
  · rw [Option.some.injEq, eq_comm]
    exact ⟨fun hr => ⟨h, hr⟩, And.right⟩
  · exact ⟨nofun, fun hr => absurd hr.1 h⟩

end Wire
