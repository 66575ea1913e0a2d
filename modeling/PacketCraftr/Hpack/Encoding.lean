import PacketCraftr.Hpack.Decoder
import Mathlib.Tactic.Ring

/-!
# The encodings of RFC 7541

Integers (section 5.1), string literals (section 5.2) and the representations of header fields
(section 6), as an encoder writes them, and that the decoder reads the integers and the string
literals back.
-/

open List

namespace PacketCraftr.Hpack

/-! ### Integers -/

/-- The continuation bytes of an integer. -/
def continuation (n : ℕ) : Bytes :=
  if n < 128 then [UInt8.ofNat n] else UInt8.ofNat (n % 128 + 128) :: continuation (n / 128)

/-- An integer that starts in the low `width` bits of a byte whose other bits are `flags`. -/
def encodeInteger (width flags n : ℕ) : Bytes :=
  if n < 2 ^ width - 1 then [UInt8.ofNat (flags + n)]
  else UInt8.ofNat (flags + (2 ^ width - 1)) :: continuation (n - (2 ^ width - 1))

theorem toNat_ofNat_of_lt {n : ℕ} (h : n < 256) : (UInt8.ofNat n).toNat = n := by
  rw [UInt8.toNat_ofNat', Nat.mod_eq_of_lt h]

theorem integerLoop_cons {byte : UInt8} {rest : Bytes} {value shift : ℕ} (hs : shift < 64)
    (h : value + byte.toNat % 128 * 2 ^ shift < 2 ^ 64) :
    integerLoop (byte :: rest) value shift =
      if byte.toNat < 128 then .ok (value + byte.toNat % 128 * 2 ^ shift, rest)
      else integerLoop rest (value + byte.toNat % 128 * 2 ^ shift) (shift + 7) := by
  have hd : byte.toNat % 128 ≤ (2 ^ 64 - 1) / 2 ^ shift := by
    rw [Nat.le_div_iff_mul_le (Nat.two_pow_pos shift)]
    omega
  have ha : checkedAdd value (byte.toNat % 128 * 2 ^ shift) =
      some (value + byte.toNat % 128 * 2 ^ shift) := checkedAdd_eq_some.mpr ⟨h, rfl⟩
  rw [integerLoop, if_neg (by omega), ha]

theorem integerLoop_continuation (n value shift : ℕ) (rest : Bytes) (hs : shift < 64)
    (h : value + n * 2 ^ shift < 2 ^ 64) :
    integerLoop (continuation n ++ rest) value shift = .ok (value + n * 2 ^ shift, rest) := by
  induction n using continuation.induct generalizing value shift with
  | case1 n hn =>
    have hb := toNat_ofNat_of_lt (show n < 256 by omega)
    rw [continuation, if_pos hn, singleton_append, integerLoop_cons hs] <;>
      rw [hb, Nat.mod_eq_of_lt hn]
    · rw [if_pos hn]
    · exact h
  | case2 n hn ih =>
    have hb := toNat_ofNat_of_lt (show n % 128 + 128 < 256 by omega)
    have hd : (n % 128 + 128) % 128 = n % 128 := by omega
    have hsp : n * 2 ^ shift = n % 128 * 2 ^ shift + n / 128 * 2 ^ (shift + 7) := by
      conv_lhs => rw [← Nat.div_add_mod n 128]
      ring
    -- The next digit is not zero, so its place is within 64 bits.
    have hnx : shift + 7 < 64 := by
      by_contra ho
      have hp : 2 ^ 64 ≤ 2 ^ (shift + 7) := Nat.pow_le_pow_right (by omega) (by omega)
      have hone : 1 * 2 ^ (shift + 7) ≤ n / 128 * 2 ^ (shift + 7) :=
        Nat.mul_le_mul_right _ (by omega)
      omega
    rw [continuation, if_neg hn, cons_append, integerLoop_cons hs] <;> rw [hb, hd]
    · rw [if_neg (by omega), ih _ _ hnx (by omega), hsp, Nat.add_assoc]
    · omega

section Integer

variable {width flags : ℕ}

theorem exists_encodeInteger_eq_cons (hf : flags + 2 ^ width ≤ 256) (n : ℕ) :
    ∃ first tail, encodeInteger width flags n = first :: tail ∧ flags ≤ first.toNat ∧
      first.toNat < flags + 2 ^ width := by
  have hp := Nat.two_pow_pos width
  unfold encodeInteger
  split_ifs with hn
  · refine ⟨_, _, rfl, ?_⟩
    rw [toNat_ofNat_of_lt (by omega)]
    omega
  · refine ⟨_, _, rfl, ?_⟩
    rw [toNat_ofNat_of_lt (by omega)]
    omega

/-- An integer is read back, whatever the flags beside it are. -/
theorem integer_encodeInteger (hf : flags % 2 ^ width = 0) (hfit : flags + 2 ^ width ≤ 256)
    {n : ℕ} (hn : n < 2 ^ 64) (rest : Bytes) :
    integer (encodeInteger width flags n ++ rest) width = .ok (n, rest) := by
  have hlow {m : ℕ} (hm : m < 2 ^ width) : (flags + m) % 2 ^ width = m := by
    rw [Nat.add_mod, hf, Nat.zero_add, Nat.mod_mod, Nat.mod_eq_of_lt hm]
  unfold encodeInteger
  split_ifs with hs
  · rw [singleton_append, integer, toNat_ofNat_of_lt (by omega), hlow (by omega), if_pos hs]
  · rw [cons_append, integer, toNat_ofNat_of_lt (by omega), hlow (by omega), if_neg (by omega),
      integerLoop_continuation _ _ _ _ (by omega) (by omega)]
    congr 2
    omega

end Integer

/-- The number that continuation bytes stand for, however large, and the bytes after them. -/
def groups : Bytes → Option (ℕ × Bytes)
  | [] => none
  | byte :: rest =>
    if byte.toNat < 128 then some (byte.toNat, rest)
    else (groups rest).map fun (n, rest) => (byte.toNat % 128 + 128 * n, rest)

/-- The number that the integer at the start of the bytes stands for. -/
def denoted (width : ℕ) : Bytes → Option (ℕ × Bytes)
  | [] => none
  | first :: rest =>
    if first.toNat % 2 ^ width < 2 ^ width - 1 then some (first.toNat % 2 ^ width, rest)
    else (groups rest).map fun (n, rest) => (2 ^ width - 1 + n, rest)

/-- Bytes are read as the number that they stand for, if it is in 64 bits, or refused. -/
def Reads (value : Option (ℕ × Bytes)) (read : Except Error (ℕ × Bytes)) : Prop :=
  (∃ n rest, value = some (n, rest) ∧ n < 2 ^ 64 ∧ read = .ok (n, rest)) ∨
    read = .error (.compression "integer overflows") ∨
    value = none ∧ read = .error (.compression "truncated integer")

theorem integerLoop_overflow {byte : UInt8} {rest : Bytes} {value shift : ℕ}
    (h : ¬ (shift < 64 ∧ value + byte.toNat % 128 * 2 ^ shift < 2 ^ 64)) :
    integerLoop (byte :: rest) value shift = .error (.compression "integer overflows") := by
  have ha : shift < 64 → checkedAdd value (byte.toNat % 128 * 2 ^ shift) = none := by
    intro hs
    exact if_neg fun hlt => h ⟨hs, hlt⟩
  rw [integerLoop]
  by_cases hd : shift ≥ 64 ∨ byte.toNat % 128 > (2 ^ 64 - 1) / 2 ^ shift
  · rw [if_pos hd]
  · rw [if_neg hd, ha (by omega)]

theorem reads_integerLoop (input : Bytes) (value shift : ℕ) :
    Reads ((groups input).map fun (n, rest) => (value + n * 2 ^ shift, rest))
      (integerLoop input value shift) := by
  induction input generalizing value shift with
  | nil => exact .inr (.inr ⟨rfl, rfl⟩)
  | cons byte rest ih =>
    by_cases hf : shift < 64 ∧ value + byte.toNat % 128 * 2 ^ shift < 2 ^ 64
    · rw [integerLoop_cons hf.1 hf.2, groups]
      split_ifs with hl
      · rw [Nat.mod_eq_of_lt hl] at hf ⊢
        exact .inl ⟨_, _, rfl, hf.2, rfl⟩
      · -- The groups after this one have their place seven bits further.
        convert ih (value + byte.toNat % 128 * 2 ^ shift) (shift + 7) using 1
        rw [Option.map_map]
        congr 1
        funext x
        exact Prod.ext (by simp only [Function.comp]; ring) rfl
    · exact .inr (.inl (integerLoop_overflow hf))

theorem reads_integer (width : ℕ) (input : Bytes) :
    Reads (denoted width input) (integer input width) := by
  cases input with
  | nil => exact .inr (.inr ⟨rfl, rfl⟩)
  | cons first rest =>
    have hm := Nat.mod_le first.toNat (2 ^ width)
    have hlt := Nat.mod_lt first.toNat (Nat.two_pow_pos width)
    rw [denoted, integer]
    split_ifs with hs
    · exact .inl ⟨_, _, rfl, by have := first.toNat_lt; omega, rfl⟩
    · rw [show first.toNat % 2 ^ width = 2 ^ width - 1 by omega]
      simpa using reads_integerLoop rest (2 ^ width - 1) 0

/-- Integers are read exactly: what an encoder writes is read back and no byte more, what is
accepted is the number that the bytes stand for, and a number beyond 64 bits is refused. -/
theorem integer_exact (width : ℕ) :
    (∀ flags n rest, flags % 2 ^ width = 0 → flags + 2 ^ width ≤ 256 → n < 2 ^ 64 →
      integer (encodeInteger width flags n ++ rest) width = .ok (n, rest)) ∧
    (∀ input n rest, integer input width = .ok (n, rest) →
      denoted width input = some (n, rest) ∧ n < 2 ^ 64) ∧
    ∀ input n rest, denoted width input = some (n, rest) → 2 ^ 64 ≤ n →
      integer input width = .error (.compression "integer overflows") := by
  refine ⟨fun _ _ rest hf hfit hn => integer_encodeInteger hf hfit hn rest, ?_, ?_⟩
  · intro input n rest h
    rcases reads_integer width input with ⟨m, r, hd, hm, hi⟩ | hi | ⟨-, hi⟩ <;> cases h.symm.trans hi
    exact ⟨hd, hm⟩
  · intro input n rest h hn
    rcases reads_integer width input with ⟨m, r, hd, hm, -⟩ | hi | ⟨hd, -⟩
    · cases h.symm.trans hd
      omega
    · exact hi
    · cases h.symm.trans hd

/-- The second example of RFC 7541, appendix C.1. -/
theorem integer_exact_1337 : integer (encodeInteger 5 0 1337 ++ [7]) 5 = .ok (1337, [7]) :=
  (integer_exact 5).1 0 1337 [7] rfl (by decide) (by decide)

/-! ### String literals -/

/-- A string and how it is encoded. -/
structure StringLiteral where
  text : Bytes
  huffman : Bool
  deriving DecidableEq, Repr

namespace StringLiteral

def body (s : StringLiteral) : Bytes := if s.huffman then huffmanEncode s.text else s.text

def encode (s : StringLiteral) : Bytes :=
  encodeInteger 7 (if s.huffman then 128 else 0) s.body.length ++ s.body

end StringLiteral

theorem Decoder.string_encode {E : Type} {c : ℕ → Option E} (hc : ∀ n, c n = none)
    {bl mo : ℕ} (hw : bl < 2 ^ 64) (s : StringLiteral) (rest : Bytes)
    (hb : (s.encode ++ rest).length ≤ bl) (ho : s.text.length ≤ mo)
    (calls : ℕ) :
    ∃ calls', Decoder.string c bl ⟨s.encode ++ rest, calls⟩ mo = .ok (s.text, ⟨rest, calls'⟩) := by
  have hf : (if s.huffman then 128 else 0) + 2 ^ 7 ≤ 256 := by split_ifs <;> omega
  have hfl : (if s.huffman then 128 else 0) % 2 ^ 7 = 0 := by split_ifs <;> rfl
  obtain ⟨first, tail, hcn, hlow, hhg⟩ := exists_encodeInteger_eq_cons hf s.body.length
  have hr : s.encode ++ rest = first :: (tail ++ (s.body ++ rest)) := by
    rw [StringLiteral.encode, hcn, append_assoc, cons_append]
  have hl : (s.body ++ rest).length ≤ bl := by
    rw [hr] at hb
    simp only [length_cons, length_append] at hb ⊢
    omega
  rw [length_append] at hl
  have hi : integer (s.encode ++ rest) 7 = .ok (s.body.length, s.body ++ rest) := by
    rw [StringLiteral.encode, append_assoc]
    exact integer_encodeInteger hfl hf (by omega) _
  have hs : checkedAdd (bl - (s.body ++ rest).length) s.body.length = some (bl - rest.length) := by
    rw [checkedAdd_eq_some, length_append, wordLimit]
    omega
  have hin : ¬ bl - rest.length > bl := by omega
  rw [hr] at hi ⊢
  simp only [Decoder.string, hi, wire, Except.mapError, bind, Except.bind, hs, if_neg hin,
    take_left, drop_left]
  cases hh : s.huffman with
  | true =>
    obtain ⟨calls', hd⟩ := huffmanDecode_huffmanEncode hc s.text ho calls
    rw [hh, if_pos rfl] at hlow
    refine ⟨calls', ?_⟩
    rw [if_pos hlow, StringLiteral.body, hh, if_pos rfl, hd]
    rfl
  | false =>
    have hbd : s.body = s.text := by simp [StringLiteral.body, hh]
    simp only [hh] at hhg
    refine ⟨calls, ?_⟩
    rw [hbd, if_neg (by simpa using hhg), if_neg (Nat.not_lt.mpr ho)]
    rfl

/-! ### Representations -/

/-- What an encoder asks of the tables with a literal. -/
inductive Indexing
  | incremental
  | without
  | never
  deriving DecidableEq, Repr

namespace Indexing

def width : Indexing → ℕ
  | incremental => 6
  | without => 4
  | never => 4

def flags : Indexing → ℕ
  | incremental => 64
  | without => 0
  | never => 16

end Indexing

/-- The name of a literal: that of an entry, or a string. -/
inductive LiteralName
  | index (i : ℕ)
  | text (name : StringLiteral)
  deriving DecidableEq, Repr

namespace LiteralName

def indexField : LiteralName → ℕ
  | .index i => i
  | .text _ => 0

def encode : LiteralName → Bytes
  | .index _ => []
  | .text name => name.encode

end LiteralName

/-- The representation of a header field. -/
inductive Representation
  | indexed (index : ℕ)
  | literal (indexing : Indexing) (name : LiteralName) (value : StringLiteral)
  deriving DecidableEq, Repr

namespace Representation

def width : Representation → ℕ
  | indexed _ => 7
  | literal indexing _ _ => indexing.width

def flags : Representation → ℕ
  | indexed _ => 128
  | literal indexing _ _ => indexing.flags

def encode : Representation → Bytes
  | indexed index => encodeInteger 7 128 index
  | literal indexing name value =>
    encodeInteger indexing.width indexing.flags name.indexField ++ (name.encode ++ value.encode)

theorem exists_encode_eq_cons (rep : Representation) :
    ∃ first tail, rep.encode = first :: tail ∧ rep.flags ≤ first.toNat ∧
      first.toNat < rep.flags + 2 ^ rep.width := by
  cases rep with
  | indexed index => exact exists_encodeInteger_eq_cons (by decide) index
  | literal i name value =>
    obtain ⟨first, tail, hc, hf⟩ := exists_encodeInteger_eq_cons
      (show i.flags + 2 ^ i.width ≤ 256 by cases i <;> decide) name.indexField
    exact ⟨first, tail ++ (name.encode ++ value.encode), by rw [encode, hc, cons_append], hf⟩

theorem ne_update (rep : Representation) {first : ℕ} (hlow : rep.flags ≤ first)
    (hh : first < rep.flags + 2 ^ rep.width) : first / 32 ≠ 1 := by
  cases rep with
  | indexed index =>
    rw [flags] at hlow
    omega
  | literal i name value =>
    cases i <;> simp only [flags, width, Indexing.flags, Indexing.width] at hlow hh <;> omega

end Representation

/-- A header block: table size updates, and then the representations of header fields. -/
structure HeaderBlock where
  origin : ℕ
  updates : List ℕ
  fields : List Representation
  deriving DecidableEq, Repr

def HeaderBlock.encode (b : HeaderBlock) : Bytes :=
  b.updates.flatMap (encodeInteger 5 32) ++ b.fields.flatMap Representation.encode

end PacketCraftr.Hpack
