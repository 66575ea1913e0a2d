import PacketCraftr.Foundation.Wire

/-!
# Words in either byte order

A word of a given width is kept in that many bytes, the least or the most significant one first.
-/

namespace Endian

/-- Which byte of a word comes first. -/
inductive Order
  | little
  | big
  deriving DecidableEq, Repr

/-- The number that bytes denote, the least significant first. -/
def ofLittle : Bytes → ℕ
  | [] => 0
  | b :: bs => b.toNat + 256 * ofLittle bs

/-- The lowest `width` bytes of a number, the least significant first. -/
def toLittle : ℕ → ℕ → Bytes
  | 0, _ => []
  | width + 1, n => UInt8.ofNat n :: toLittle width (n / 256)

variable (order : Order)

def decode (bytes : Bytes) : ℕ :=
  match order with
  | .little => ofLittle bytes
  | .big => ofLittle bytes.reverse

def encode (width n : ℕ) : Bytes :=
  match order with
  | .little => toLittle width n
  | .big => (toLittle width n).reverse

theorem length_toLittle (width n : ℕ) : (toLittle width n).length = width := by
  induction width generalizing n with
  | zero => rfl
  | succ width ih => rw [toLittle, List.length_cons, ih]

@[simp]
theorem length_encode (width n : ℕ) : (encode order width n).length = width := by
  cases order
  · exact length_toLittle width n
  · rw [encode, List.length_reverse, length_toLittle]

theorem ofLittle_toLittle {width n : ℕ} (h : n < 256 ^ width) :
    ofLittle (toLittle width n) = n := by
  induction width generalizing n with
  | zero =>
    rw [toLittle, ofLittle]
    omega
  | succ width ih =>
    have hq : n / 256 < 256 ^ width := by
      rw [pow_succ, Nat.mul_comm] at h
      exact Nat.div_lt_of_lt_mul h
    rw [toLittle, ofLittle, ih hq, UInt8.toNat_ofNat']
    omega

theorem decode_encode {width n : ℕ} (h : n < 256 ^ width) :
    decode order (encode order width n) = n := by
  cases order
  · exact ofLittle_toLittle h
  · rw [decode, encode, List.reverse_reverse, ofLittle_toLittle h]

end Endian
