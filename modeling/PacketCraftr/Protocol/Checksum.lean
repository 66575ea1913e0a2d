import PacketCraftr.Foundation.Wire

/-!
# The Internet checksum

`protocol/common/checksum.rs`: the ones'-complement sum over the 16-bit words of a byte string that
arrives in parts. Whole eight-byte chunks are added as 64-bit words; a part of odd length leaves
its last byte as the high byte of a word. Sums are natural numbers: a 128-bit accumulator does not
overflow on fewer than `2 ^ 67` bytes. Only parts that share their bytes can have more.

A word of `2 ^ 16` is worth one modulo `2 ^ 16 - 1`, so that the words of a byte string may be added
in any registers and folded at the end; the carried byte keeps the words of the parts aligned.
-/

open List

namespace PacketCraftr.Checksum

structure Accumulator where
  sum : ℕ
  pendingHighByte : Option UInt8
  deriving DecidableEq, Repr

/-- Add the whole eight-byte chunks; the bytes after them remain. -/
def sumChunks8 : ℕ → Bytes → ℕ × Bytes
  | sum, a :: b :: c :: d :: e :: f :: g :: h :: rest =>
    sumChunks8 (sum + (((Wire.be16 a b * 65536 + Wire.be16 c d) * 65536 + Wire.be16 e f) * 65536 +
      Wire.be16 g h)) rest
  | sum, rest => (sum, rest)

/-- Add the whole two-byte chunks; a last byte remains. -/
def sumChunks2 : ℕ → Bytes → ℕ × Option UInt8
  | sum, high :: low :: rest => sumChunks2 (sum + Wire.be16 high low) rest
  | sum, rest => (sum, rest.head?)

namespace Accumulator

def default : Accumulator := ⟨0, none⟩

def addWhole (sum : ℕ) (bytes : Bytes) : Accumulator :=
  let (sum, remainder) := sumChunks8 sum bytes
  let (sum, pendingHighByte) := sumChunks2 sum remainder
  ⟨sum, pendingHighByte⟩

def add (a : Accumulator) (bytes : Bytes) : Accumulator :=
  match a.pendingHighByte, bytes with
  | none, bytes => addWhole a.sum bytes
  | some _, [] => a
  | some high, low :: remaining => addWhole (a.sum + Wire.be16 high low) remaining

end Accumulator

/-- The folding loop. A sum of 34 bits, as the loop is entered with, is folded in three rounds. -/
def foldLoop : ℕ → ℕ → ℕ
  | 0, sum => sum
  | rounds + 1, sum =>
    if sum / 65536 = 0 then sum else foldLoop rounds (sum % 65536 + sum / 65536)

/-- Fold the carries into sixteen bits and complement them. -/
def foldChecksum (sum : ℕ) : ℕ :=
  let sum := sum % 2 ^ 64 + sum / 2 ^ 64
  let sum := sum % 2 ^ 32 + sum / 2 ^ 32
  65535 - foldLoop 4 sum % 65536

def Accumulator.finish (a : Accumulator) : ℕ :=
  foldChecksum (a.sum + a.pendingHighByte.elim 0 fun high => high.toNat * 256)

def checksumParts (parts : List Bytes) : ℕ := (parts.foldl .add .default : Accumulator).finish

/-! ### The checksum of RFC 1071 -/

/-- The 16-bit words of a byte string, the last of them filled up with a zero byte. -/
def words : Bytes → List ℕ
  | high :: low :: rest => Wire.be16 high low :: words rest
  | [high] => [Wire.be16 high 0]
  | [] => []

/-- Ones'-complement addition: the carry out of sixteen bits is added at the other end. -/
def onesAdd (a b : ℕ) : ℕ := if a + b < 65536 then a + b else a + b - 65535

/-- The complement of the ones'-complement sum of the words. -/
def onesComplement (bytes : Bytes) : ℕ := 65535 - (words bytes).foldl onesAdd 0

theorem be16_lt (high low : UInt8) : Wire.be16 high low < 65536 := by
  have := high.toNat_lt
  have := low.toNat_lt
  rw [Wire.be16]
  omega

theorem words_lt (bytes : Bytes) : ∀ w ∈ words bytes, w < 65536 := by
  fun_induction words bytes with
  | case1 high low rest ih => exact forall_mem_cons.mpr ⟨be16_lt high low, ih⟩
  | case2 high => exact forall_mem_singleton.mpr (be16_lt high 0)
  | case3 => exact forall_mem_nil _

theorem words_append {bytes : Bytes} (h : bytes.length % 2 = 0) (rest : Bytes) :
    words (bytes ++ rest) = words bytes ++ words rest := by
  fun_induction words bytes with
  | case1 high low bytes ih =>
    rw [cons_append, cons_append, words, ih (by simp only [length_cons] at h; omega), cons_append]
  | case2 high => simp at h
  | case3 => rfl

/-- The sixteen bits that are left of words with a sum of `n`. They are zero only if the words
are. -/
structure Folds (n r : ℕ) : Prop where
  lt : r < 65536
  mod_eq : r % 65535 = n % 65535
  zero_iff : r = 0 ↔ n = 0

theorem Folds.unique {n m r r' : ℕ} (h : Folds n r) (h' : Folds m r') (hm : n % 65535 = m % 65535)
    (hz : n = 0 ↔ m = 0) : r = r' := by
  obtain ⟨hlt, hr, hr₀⟩ := h
  obtain ⟨hlt', hr', hr₀'⟩ := h'
  omega

theorem folds_foldl_onesAdd {l : List ℕ} (hl : ∀ w ∈ l, w < 65536) {n r : ℕ} (h : Folds n r) :
    Folds (n + l.sum) (l.foldl onesAdd r) := by
  induction l generalizing n r with
  | nil => exact h
  | cons w l ih =>
    obtain ⟨hw, hl⟩ := forall_mem_cons.mp hl
    obtain ⟨hlt, hm, hz⟩ := h
    rw [sum_cons, ← Nat.add_assoc, foldl_cons]
    refine ih hl ?_
    unfold onesAdd
    split_ifs <;> exact ⟨by omega, by omega, by omega⟩

theorem folds_foldLoop {n : ℕ} (h : n < 2 ^ 34) : Folds n (foldLoop 4 n) := by
  refine ⟨?_, ?_, ?_⟩
  all_goals
    simp only [foldLoop]
    split_ifs <;> omega

theorem foldChecksum_eq {n : ℕ} (h : n < 2 ^ 128) : ∃ r, Folds n r ∧ foldChecksum n = 65535 - r := by
  set n₁ := n % 2 ^ 64 + n / 2 ^ 64 with hn₁
  set n₂ := n₁ % 2 ^ 32 + n₁ / 2 ^ 32 with hn₂
  obtain ⟨hlt, hm, hz⟩ := folds_foldLoop (show n₂ < 2 ^ 34 by omega)
  refine ⟨foldLoop 4 n₂, ⟨hlt, by omega, by omega⟩, ?_⟩
  rw [foldChecksum, ← hn₁, ← hn₂, Nat.mod_eq_of_lt hlt]

/-! ### Bytes in parts -/

/-- A sum that stands for the words of a byte string of even length. Eight bytes add less than
`2 ^ 64` to it. -/
structure Sums (sum : ℕ) (bytes : Bytes) : Prop where
  even : bytes.length % 2 = 0
  mod_eq : sum % 65535 = (words bytes).sum % 65535
  zero_iff : sum = 0 ↔ (words bytes).sum = 0
  le : sum ≤ bytes.length * 2 ^ 61

theorem Sums.append {sum value : ℕ} {bytes c : Bytes} (h : Sums sum bytes)
    (h' : Sums value c) : Sums (sum + value) (bytes ++ c) := by
  obtain ⟨he, hm, hz, hle⟩ := h
  obtain ⟨he', hm', hz', hle'⟩ := h'
  refine ⟨?_, ?_, ?_, ?_⟩
  · rw [length_append]
    omega
  · rw [words_append he, sum_append]
    omega
  · rw [words_append he, sum_append]
    omega
  · rw [length_append]
    omega

theorem sums_chunk2 (high low : UInt8) : Sums (Wire.be16 high low) [high, low] := by
  have := be16_lt high low
  have hs : (words [high, low]).sum = Wire.be16 high low := Nat.add_zero _
  exact ⟨by simp, by rw [hs], by rw [hs], by simp only [length_cons, length_nil]; omega⟩

theorem sums_chunk8 (a b c d e f g h : UInt8) :
    Sums (((Wire.be16 a b * 65536 + Wire.be16 c d) * 65536 + Wire.be16 e f) * 65536 + Wire.be16 g h)
      [a, b, c, d, e, f, g, h] := by
  have ha := be16_lt a b
  have hc := be16_lt c d
  have he := be16_lt e f
  have hg := be16_lt g h
  have hs : (words [a, b, c, d, e, f, g, h]).sum =
      Wire.be16 a b + (Wire.be16 c d + (Wire.be16 e f + (Wire.be16 g h + 0))) := rfl
  refine ⟨by simp, ?_, ?_, ?_⟩
  · rw [hs]
    omega
  · rw [hs]
    omega
  · simp only [length_cons, length_nil]
    omega

theorem sumChunks8_spec {sum : ℕ} {bytes : Bytes} (rest : Bytes) (h : Sums sum bytes) :
    ∃ done, bytes ++ rest = done ++ (sumChunks8 sum rest).2 ∧ Sums (sumChunks8 sum rest).1 done := by
  fun_induction sumChunks8 sum rest generalizing bytes with
  | case1 sum a b c d e f g h' rest ih =>
    obtain ⟨done, heq, hd⟩ := ih (h.append (sums_chunk8 a b c d e f g h'))
    exact ⟨done, by rw [← heq, append_assoc]; rfl, hd⟩
  | case2 sum rest => exact ⟨bytes, rfl, h⟩

/-- The accumulator after a byte string. -/
def Represents (a : Accumulator) (bytes : Bytes) : Prop :=
  ∃ done, bytes = done ++ a.pendingHighByte.toList ∧ Sums a.sum done

theorem sumChunks2_spec {sum : ℕ} {bytes : Bytes} (rest : Bytes) (h : Sums sum bytes) :
    Represents ⟨(sumChunks2 sum rest).1, (sumChunks2 sum rest).2⟩ (bytes ++ rest) := by
  fun_induction sumChunks2 sum rest generalizing bytes with
  | case1 sum high low rest ih =>
    have := ih (h.append (sums_chunk2 high low))
    rwa [append_assoc] at this
  | case2 sum rest hs =>
    match rest with
    | [] => exact ⟨bytes, rfl, h⟩
    | [high] => exact ⟨bytes, rfl, h⟩
    | high :: low :: rest => exact (hs high low rest rfl).elim

theorem represents_addWhole {sum : ℕ} {bytes : Bytes} (rest : Bytes) (h : Sums sum bytes) :
    Represents (Accumulator.addWhole sum rest) (bytes ++ rest) := by
  obtain ⟨done, heq, hd⟩ := sumChunks8_spec rest h
  rw [heq]
  exact sumChunks2_spec _ hd

/-- A part of any length is added to what was accumulated. -/
theorem Represents.add {a : Accumulator} {bytes : Bytes} (h : Represents a bytes) (part : Bytes) :
    Represents (a.add part) (bytes ++ part) := by
  obtain ⟨sum, p⟩ := a
  obtain ⟨done, rfl, hd⟩ := h
  cases p with
  | none =>
    rw [Option.toList_none, append_nil]
    exact represents_addWhole part hd
  | some high =>
    cases part with
    | nil =>
      rw [append_nil]
      exact ⟨done, rfl, hd⟩
    | cons low part =>
      -- The byte that was carried and the first one of the part are a word.
      have := represents_addWhole part (hd.append (sums_chunk2 high low))
      rw [append_assoc] at this ⊢
      exact this

theorem represents_parts (p : List Bytes) : Represents (p.foldl .add .default) p.flatten := by
  suffices h : ∀ (a : Accumulator) (bytes : Bytes), Represents a bytes →
      Represents (p.foldl .add a) (bytes ++ p.flatten) from
    h .default [] ⟨[], rfl, rfl, rfl, Iff.rfl, le_rfl⟩
  induction p with
  | nil =>
    intro a bytes h
    rwa [flatten_nil, append_nil]
  | cons part p ih =>
    intro a bytes h
    rw [foldl_cons, flatten_cons, ← append_assoc]
    exact ih _ _ (h.add part)

/-- The sum that is folded at the end. -/
def Accumulator.total (a : Accumulator) : ℕ :=
  a.sum + a.pendingHighByte.elim 0 fun high => high.toNat * 256

theorem Represents.total {a : Accumulator} {bytes : Bytes} (h : Represents a bytes) :
    a.total % 65535 = (words bytes).sum % 65535 ∧ (a.total = 0 ↔ (words bytes).sum = 0) ∧
      a.total ≤ bytes.length * 2 ^ 61 := by
  obtain ⟨sum, p⟩ := a
  obtain ⟨done, rfl, he, hm, hz, hle⟩ := h
  rw [words_append he, sum_append, length_append]
  cases p with
  | none => exact ⟨hm, hz, hle⟩
  | some high =>
    have := high.toNat_lt
    have hw : (words [high]).sum = high.toNat * 256 := by simp [words, Wire.be16]
    change (sum + high.toNat * 256) % 65535 = _ ∧ (sum + high.toNat * 256 = 0 ↔ _) ∧
      sum + high.toNat * 256 ≤ _
    simp only [Option.toList_some, hw, length_singleton]
    dsimp only at hm hz hle
    omega

theorem checksumParts_eq {p : List Bytes} (h : p.flatten.length < 2 ^ 67) :
    ∃ r, Folds (words p.flatten).sum r ∧ checksumParts p = 65535 - r := by
  obtain ⟨hm, hz, hle⟩ := (represents_parts p).total
  obtain ⟨r, ⟨hlt, hr, hr₀⟩, hf⟩ :=
    foldChecksum_eq (show (p.foldl .add .default : Accumulator).total < 2 ^ 128 by omega)
  exact ⟨r, ⟨hlt, hr.trans hm, hr₀.trans hz⟩, hf⟩

/-- The checksum of parts is that of their concatenation, whatever the cuts; no sum on the way is too
large; and a checksum that is stored where zeros were makes the checksum zero. -/
theorem checksumParts_exact (parts : List Bytes) (h : parts.flatten.length < 2 ^ 67) :
    checksumParts parts = onesComplement parts.flatten ∧
    (∀ started : List Bytes, started.flatten <+: parts.flatten →
      (started.foldl .add .default : Accumulator).total < 2 ^ 128) ∧
    ∀ before after : Bytes, before.length % 2 = 0 →
      parts.flatten = before ++ Wire.toBe16 (onesComplement (before ++ [0, 0] ++ after)) ++ after →
      checksumParts parts = 0 := by
  have ho (bytes : Bytes) : ∃ r, Folds (words bytes).sum r ∧ onesComplement bytes = 65535 - r := by
    have hf : Folds 0 0 := ⟨by decide, rfl, Iff.rfl⟩
    exact ⟨_, by simpa using folds_foldl_onesAdd (words_lt bytes) hf, rfl⟩
  obtain ⟨r, hr, hp⟩ := checksumParts_eq h
  refine ⟨?_, fun started hs => ?_, fun before after he hsr => ?_⟩
  · obtain ⟨r', hr', hb⟩ := ho parts.flatten
    rw [hp, hb, hr.unique hr' rfl Iff.rfl]
  · have hle := (represents_parts started).total.2.2
    have hl := hs.length_le
    omega
  · obtain ⟨r', ⟨hlt', hm', hz'⟩, hb⟩ := ho (before ++ [0, 0] ++ after)
    obtain ⟨hlt, hm, hz⟩ := hr
    rw [append_assoc, words_append he, sum_append] at hm' hz'
    rw [hsr, append_assoc, words_append he, sum_append, hb] at hm hz
    have hw : (words (Wire.toBe16 (65535 - r') ++ after)).sum = 65535 - r' + (words after).sum := by
      change (Wire.be16 (UInt8.ofNat ((65535 - r') / 256)) (UInt8.ofNat (65535 - r')) ::
        words after).sum = _
      rw [sum_cons, Wire.be16, UInt8.toNat_ofNat', UInt8.toNat_ofNat']
      omega
    have hbl : (words ([0, 0] ++ after)).sum = (words after).sum := by
      change (Wire.be16 0 0 :: words after).sum = _
      exact Nat.zero_add _
    rw [hbl] at hm' hz'
    rw [hw] at hm hz
    rw [hp]
    omega

/-- A header in three parts, two of them of odd length, with its checksum in place. -/
theorem checksumParts_exact_header :
    checksumParts [[0x45, 0, 0], [], [20, 0, 9, 0, 0, 64, 17, 0x66, 0xce, 10, 0, 0, 1],
      [10, 0, 0, 2]] = 0 :=
  (checksumParts_exact _ (by decide)).2.2 [0x45, 0, 0, 20, 0, 9, 0, 0, 64, 17]
    [10, 0, 0, 1, 10, 0, 0, 2] rfl (by decide)

/-! ### Sums that are too large -/

theorem sumChunks8_ones (sum n : ℕ) :
    sumChunks8 sum (replicate (8 * n) 255) = (sum + n * (2 ^ 64 - 1), []) := by
  induction n generalizing sum with
  | zero => rfl
  | succ n ih =>
    have hs : replicate (8 * (n + 1)) (255 : UInt8) =
        255 :: 255 :: 255 :: 255 :: 255 :: 255 :: 255 :: 255 :: replicate (8 * n) 255 := rfl
    rw [hs, sumChunks8, ih, Prod.mk.injEq]
    exact ⟨by simp [Wire.be16]; omega, rfl⟩

theorem foldl_ones (k n : ℕ) :
    (replicate k (replicate (8 * n) 255)).foldl .add .default =
      (⟨k * (n * (2 ^ 64 - 1)), none⟩ : Accumulator) := by
  induction k with
  | zero => rw [Nat.zero_mul]; rfl
  | succ k ih =>
    rw [replicate_succ', foldl_append, ih, Nat.succ_mul k]
    simp only [foldl_cons, foldl_nil, Accumulator.add, Accumulator.addWhole, sumChunks8_ones,
      sumChunks2, head?_nil]

/-- The accumulator does not have room for every list of parts: a slice of `2 ^ 46` ones that stands
in it `2 ^ 21 + 1` times is too much. -/
theorem not_total_lt :
    ¬ ∀ parts : List Bytes, (parts.foldl .add .default : Accumulator).total < 2 ^ 128 := by
  intro h
  have ht := h (replicate (2 ^ 21 + 1) (replicate (8 * 2 ^ 43) 255))
  rw [foldl_ones] at ht
  exact absurd ht (by decide)

end PacketCraftr.Checksum
