import PacketCraftr.Hpack.Model
import PacketCraftr.Foundation.PrefixTree
import PacketCraftr.Foundation.Outcome
import Mathlib.Data.List.Induction

/-!
# The Huffman code of HPACK

The decoder of `hpack/huffman.rs` walks a binary tree bit by bit. The tree is built from the code
table; a symbol of the table is read back from its bits, and up to seven bits of padding are the
beginning of the end-of-string symbol.
-/

open List

namespace PacketCraftr.Hpack

/-! ### The tree -/

/-- The bits of a code, the most significant first. -/
def bitsOfCode (code : ℕ × ℕ) : List Bool :=
  (List.range code.2).map fun depth => code.1.testBit (code.2 - 1 - depth)

/-- The tree of the code table. A code that ran into the leaf of another one would have no place. -/
def build : Option (PrefixTree ℕ) :=
  codes.zipIdx.foldlM (fun tree e => tree.insert (bitsOfCode e.1) e.2) (.node .empty .empty)

def root : PrefixTree ℕ := build.getD .empty

/-! ### Decoding -/

/-- The subtree reached, the bytes decoded and the bits since the last of them. -/
structure HuffmanState where
  tree : PrefixTree ℕ
  out : Bytes
  padding : ℕ
  paddingLen : ℕ

def stepBit (maxOutput : ℕ) (s : HuffmanState) (bit : Bool) : Except Error HuffmanState :=
  match s.tree.child bit with
  | .empty => .error (.compression "invalid Huffman code")
  | .node zero one =>
    .ok { s with
      tree := .node zero one
      padding := s.padding * 2 + bit.toNat
      paddingLen := s.paddingLen + 1 }
  | .leaf symbol =>
    if symbol = eos then .error (.compression "Huffman end-of-string symbol")
    else if s.out.length ≥ maxOutput then .error (.limit .headerBytes)
    else .ok ⟨root, s.out ++ [UInt8.ofNat symbol], 0, 0⟩

def byteBits (byte : UInt8) : List Bool :=
  [7, 6, 5, 4, 3, 2, 1, 0].map fun shift => byte.toNat.testBit shift

section Decode

variable {E : Type}

/-- The caller's check, which is called every 1024 bytes. -/
def checkAt (checks : ℕ → Option E) (offset calls : ℕ) : Except (DecodeError E) ℕ :=
  if offset % 1024 = 0 then check checks calls else .ok calls

/-- Decode the bytes from `offset` on. -/
def huffmanLoop (checks : ℕ → Option E) (maxOutput : ℕ) :
    Bytes → ℕ → ℕ → HuffmanState → Except (DecodeError E) (HuffmanState × ℕ)
  | [], _, calls, s => .ok (s, calls)
  | byte :: rest, offset, calls, s => do
    let calls ← checkAt checks offset calls
    let s ← wire ((byteBits byte).foldlM (stepBit maxOutput) s)
    huffmanLoop checks maxOutput rest (offset + 1) calls s

def huffmanDecode (checks : ℕ → Option E) (input : Bytes) (maxOutput calls : ℕ) :
    Except (DecodeError E) (Bytes × ℕ) := do
  let (s, calls) ← huffmanLoop checks maxOutput input 0 calls ⟨root, [], 0, 0⟩
  if s.paddingLen > 7 then
    .error (.wire (.compression "Huffman padding exceeds seven bits"))
  else if s.padding ≠ 2 ^ s.paddingLen - 1 then
    .error (.wire (.compression "Huffman padding is not an EOS prefix"))
  else pure (s.out, calls)

end Decode

/-! ### The code -/

def codeBits (symbol : ℕ) : List Bool := codes[symbol]?.elim [] bitsOfCode

/-- Bits filled up to a whole number of bytes with the beginning of the end-of-string symbol. -/
def padded (bits : List Bool) : List Bool :=
  bits ++ List.replicate ((8 - bits.length % 8) % 8) true

/-- The number that bits denote, the most significant first. -/
def bitsToNat (bits : List Bool) : ℕ := bits.foldl (fun n bit => n * 2 + bit.toNat) 0

/-- The bytes of bits, eight at a time. -/
def pack : List Bool → Bytes
  | b₇ :: b₆ :: b₅ :: b₄ :: b₃ :: b₂ :: b₁ :: b₀ :: rest =>
    UInt8.ofNat (bitsToNat [b₇, b₆, b₅, b₄, b₃, b₂, b₁, b₀]) :: pack rest
  | _ => []

def huffmanEncode (bytes : Bytes) : Bytes :=
  pack (padded (bytes.flatMap fun byte => codeBits byte.toNat))

/-! ### Every symbol is read back -/

theorem descend_codeBits : ∀ s < 257, root.descend (codeBits s) = .leaf s ∧ codeBits s ≠ [] := by
  decide +kernel

theorem bitsToNat_concat (bits : List Bool) (bit : Bool) :
    bitsToNat (bits ++ [bit]) = bitsToNat bits * 2 + bit.toNat := foldl_concat ..

/-- The bits that lead to an inner node are held back. -/
theorem foldlM_stepBit_node (mo : ℕ) (out : Bytes) {bits : List Bool}
    (h : (root.descend bits).IsNode) :
    bits.foldlM (stepBit mo) ⟨root, out, 0, 0⟩ =
      .ok ⟨root.descend bits, out, bitsToNat bits, bits.length⟩ := by
  induction bits using List.reverseRecOn with
  | nil => rfl
  | append_singleton bits bit ih =>
    rw [PrefixTree.descend_concat] at h ⊢
    cases hc : (root.descend bits).child bit with
    | node zero one =>
      have hn : (root.descend bits).IsNode := PrefixTree.isNode_of_child hc nofun
      rw [foldlM_append, ih hn, Except.ok_bind, foldlM_cons, stepBit, hc, bitsToNat_concat,
        length_append]
      rfl
    | _ =>
      rw [hc] at h
      exact h.elim

/-- The bits that lead to a symbol add its byte to the output, unless it is the end of the string or
the output is full. -/
theorem foldlM_stepBit_symbol {bits : List Bool} {sy mo : ℕ} (hb : bits ≠ [])
    (h : root.descend bits = .leaf sy) {out : Bytes} {s : HuffmanState} :
    bits.foldlM (stepBit mo) ⟨root, out, 0, 0⟩ = .ok s ↔ sy ≠ eos ∧
      out.length < mo ∧ s = ⟨root, out ++ [UInt8.ofNat sy], 0, 0⟩ := by
  obtain ⟨init, bit, rfl⟩ := (eq_nil_or_concat' bits).resolve_left hb
  rw [PrefixTree.descend_concat] at h
  have hn : (root.descend init).IsNode := PrefixTree.isNode_of_child h nofun
  rw [foldlM_append, foldlM_stepBit_node mo out hn, Except.ok_bind, foldlM_cons, stepBit, h]
  dsimp only
  split_ifs with he hf
  · exact ⟨nofun, fun hs => absurd he hs.1⟩
  · exact ⟨nofun, fun hs => absurd hs.2.1 (not_lt.mpr hf)⟩
  · refine ⟨fun hs => ⟨he, not_le.mp hf, (Except.ok.inj hs).symm⟩, ?_⟩
    rintro ⟨-, -, rfl⟩
    rfl

/-- The bits of the code words of bytes. -/
def wordBits (bytes : Bytes) : List Bool := bytes.flatMap fun byte => codeBits byte.toNat

/-- The code words of bytes are read back, when the output has room for them. -/
theorem foldlM_stepBit_bytes (bytes : Bytes) {out : Bytes} {mo : ℕ}
    (ho : out.length ≤ mo) {s : HuffmanState} :
    (wordBits bytes).foldlM (stepBit mo) ⟨root, out, 0, 0⟩ = .ok s ↔
      out.length + bytes.length ≤ mo ∧ s = ⟨root, out ++ bytes, 0, 0⟩ := by
  induction bytes generalizing out with
  | nil =>
    rw [append_nil]
    exact ⟨fun hs => ⟨ho, (Except.ok.inj hs).symm⟩, fun hs => hs.2 ▸ rfl⟩
  | cons byte bytes ih =>
    have hlt := byte.toNat_lt
    obtain ⟨hd, hne⟩ := descend_codeBits byte.toNat (by omega)
    have he : byte.toNat ≠ eos := by
      rw [eos]
      omega
    rw [wordBits, flatMap_cons, foldlM_append, Except.bind_eq_ok, length_cons]
    simp only [foldlM_stepBit_symbol hne hd, UInt8.ofNat_toNat]
    constructor
    · rintro ⟨_, ⟨-, hr, rfl⟩, hs⟩
      obtain ⟨hle, rfl⟩ := (ih (by rwa [length_append])).mp hs
      rw [length_append, length_singleton] at hle
      exact ⟨by omega, by rw [append_assoc]; rfl⟩
    · rintro ⟨hle, rfl⟩
      refine ⟨_, ⟨he, by omega, rfl⟩, (ih ?_).mpr ⟨?_, by rw [append_assoc]; rfl⟩⟩
      · rw [length_append, length_singleton]
        omega
      · rw [length_append, length_singleton]
        omega

theorem leaf_codeBits : ∀ e ∈ root.leaves, codeBits e.2 = e.1 ∧ e.2 < 257 := by
  decide +kernel

/-- What is read are the code words of the output, and a beginning of one more. -/
theorem exists_of_foldlM_stepBit {mo : ℕ} {bits : List Bool} {s : HuffmanState}
    (h : bits.foldlM (stepBit mo) ⟨root, [], 0, 0⟩ = .ok s) :
    s.out.length ≤ mo ∧ ∃ rest, bits = wordBits s.out ++ rest ∧
      s = ⟨root.descend rest, s.out, bitsToNat rest, rest.length⟩ := by
  induction bits using List.reverseRecOn generalizing s with
  | nil =>
    obtain rfl := Except.ok.inj h
    exact ⟨Nat.zero_le _, [], rfl, rfl⟩
  | append_singleton bits bit ih =>
    rw [foldlM_append] at h
    obtain ⟨t, ht, h⟩ := Except.bind_eq_ok.mp h
    obtain ⟨hle, rest, hb, hst⟩ := ih ht
    obtain ⟨s', hs, h⟩ := Except.bind_eq_ok.mp h
    cases h
    rw [hst, stepBit] at hs
    dsimp only at hs
    split at hs
    · cases hs
    · rename_i hc
      cases hs
      refine ⟨hle, rest ++ [bit], by rw [hb, append_assoc], ?_⟩
      rw [PrefixTree.descend_concat, hc, length_append, bitsToNat_concat]
      rfl
    · rename_i symbol hc
      split_ifs at hs with he hf
      obtain rfl := Except.ok.inj hs
      rw [← PrefixTree.descend_concat] at hc
      obtain ⟨hw, hlt⟩ := leaf_codeBits _ (PrefixTree.mem_leaves hc)
      have hsy : (UInt8.ofNat symbol).toNat = symbol := by
        rw [eos] at he
        exact UInt8.toNat_ofNat_of_lt' (by simp only [UInt8.size]; omega)
      refine ⟨by rw [length_append, length_singleton]; omega, [], ?_, rfl⟩
      rw [append_nil, wordBits, flatMap_append, flatMap_singleton, hsy, hw, hb, wordBits,
        append_assoc]

/-! ### Bits and bytes -/

theorem byteBits_ofNat : ∀ b₇ b₆ b₅ b₄ b₃ b₂ b₁ b₀ : Bool,
    byteBits (UInt8.ofNat (bitsToNat [b₇, b₆, b₅, b₄, b₃, b₂, b₁, b₀])) =
      [b₇, b₆, b₅, b₄, b₃, b₂, b₁, b₀] := by
  decide +kernel

theorem flatMap_byteBits_pack {bits : List Bool} (h : bits.length % 8 = 0) :
    (pack bits).flatMap byteBits = bits := by
  fun_induction pack bits with
  | case1 b₇ b₆ b₅ b₄ b₃ b₂ b₁ b₀ rest ih =>
    rw [flatMap_cons, byteBits_ofNat, ih (by simp only [length_cons] at h; omega)]
    rfl
  | case2 bits hs =>
    -- Fewer than eight bits, and a multiple of eight, is none.
    rcases bits with _ | ⟨_, _ | ⟨_, _ | ⟨_, _ | ⟨_, _ | ⟨_, _ | ⟨_, _ | ⟨_, _ | ⟨_, rest⟩⟩⟩⟩⟩⟩⟩⟩
    · rfl
    all_goals first
      | exact (hs _ _ _ _ _ _ _ _ _ rfl).elim
      | simp at h

theorem length_padded (bits : List Bool) : (padded bits).length % 8 = 0 := by
  rw [padded, length_append, length_replicate]
  omega

/-- Bits are all set when no number of as many bits is greater. -/
theorem bitsToNat_add_one {bits : List Bool} :
    bitsToNat bits + 1 = 2 ^ bits.length ↔ ∀ bit ∈ bits, bit = true := by
  induction bits using List.reverseRecOn with
  | nil => simp [bitsToNat]
  | append_singleton bits bit ih =>
    simp only [mem_append, mem_singleton, or_imp, forall_and, forall_eq, ← ih]
    rw [bitsToNat_concat, length_append, length_singleton, Nat.pow_succ]
    cases bit with
    | false => simp; omega
    | true => simp; omega

theorem pack_flatMap_byteBits (bytes : Bytes) : pack (bytes.flatMap byteBits) = bytes := by
  have hb : ∀ n < 256, bitsToNat ([7, 6, 5, 4, 3, 2, 1, 0].map (n.testBit ·)) = n := by
    decide +kernel
  induction bytes with
  | nil => rfl
  | cons byte rest ih =>
    rw [flatMap_cons]
    refine (congrArg₂ (UInt8.ofNat · :: ·) (hb _ byte.toNat_lt) ih).trans ?_
    rw [UInt8.ofNat_toNat]

section RoundTrip

variable {E : Type} {checks : ℕ → Option E} (hch : ∀ n, checks n = none)
include hch

/-- A decoder that is not interrupted reads the bits of its input one after the other. -/
theorem huffmanLoop_eq {mo : ℕ} (i : Bytes) (o calls : ℕ) {s s' : HuffmanState} :
    (∃ calls', huffmanLoop checks mo i o calls s = .ok (s', calls')) ↔
      (i.flatMap byteBits).foldlM (stepBit mo) s = .ok s' := by
  induction i generalizing o calls s with
  | nil =>
    refine ⟨fun ⟨_, h⟩ => ?_, fun h => ?_⟩
    · cases h
      rfl
    · cases h
      exact ⟨calls, rfl⟩
  | cons byte rest ih =>
    obtain ⟨calls₁, hc₁⟩ : ∃ calls₁, checkAt checks o calls = .ok calls₁ := by
      unfold checkAt check
      rw [hch]
      split_ifs
      · exact ⟨calls + 1, rfl⟩
      · exact ⟨calls, rfl⟩
    rw [flatMap_cons, foldlM_append, huffmanLoop, hc₁, Except.ok_bind]
    cases (byteBits byte).foldlM (stepBit mo) s with
    | error e =>
      refine ⟨fun ⟨_, h⟩ => ?_, fun h => ?_⟩
      · cases h
      · cases h
    | ok t => exact ih (o + 1) calls₁

/-- A string is decoded when its bits are read, up to a beginning of the end-of-string symbol of
fewer than eight bits. -/
theorem huffmanDecode_eq_ok {i out : Bytes} {mo calls : ℕ} :
    (∃ calls', huffmanDecode checks i mo calls = .ok (out, calls')) ↔
      ∃ s, (i.flatMap byteBits).foldlM (stepBit mo) ⟨root, [], 0, 0⟩ = .ok s ∧
        s.out = out ∧ s.paddingLen ≤ 7 ∧ s.padding = 2 ^ s.paddingLen - 1 := by
  simp only [← huffmanLoop_eq hch _ 0 calls, huffmanDecode, Except.bind_eq_ok]
  constructor
  · rintro ⟨_, ⟨s, calls'⟩, hl, h⟩
    dsimp only at h
    split_ifs at h with hlen hp
    cases h
    exact ⟨s, ⟨_, hl⟩, rfl, not_lt.mp hlen, not_not.mp hp⟩
  · rintro ⟨s, ⟨calls', hl⟩, rfl, hlen, hp⟩
    refine ⟨calls', _, hl, ?_⟩
    dsimp only
    rw [if_neg (not_lt.mpr hlen), if_neg (not_not.mpr hp)]
    rfl

theorem huffmanDecode_iff {i out : Bytes} {mo calls : ℕ} :
    (∃ calls', huffmanDecode checks i mo calls = .ok (out, calls')) ↔ out.length ≤ mo ∧
        ∃ n < 8, i.flatMap byteBits = wordBits out ++ List.replicate n true := by
  rw [huffmanDecode_eq_ok hch]
  constructor
  · rintro ⟨s, hf, rfl, hl, hp⟩
    obtain ⟨hle, rest, hb, hst⟩ := exists_of_foldlM_stepBit hf
    rw [hst] at hl hp
    dsimp only at hl hp
    have hs := bitsToNat_add_one.mp (hp ▸ Nat.sub_add_cancel Nat.one_le_two_pow)
    refine ⟨hle, rest.length, by omega, ?_⟩
    rw [hb, ← eq_replicate_iff.mpr ⟨rfl, hs⟩]
  · rintro ⟨hle, n, hn, hb⟩
    have hnd : (root.descend (List.replicate n true)).IsNode := by
      have hc : ∀ n < 8, (root.descend (List.replicate n true)).child true ≠ .empty := by
        decide +kernel
      exact PrefixTree.isNode_of_child rfl (hc n hn)
    have hs := bitsToNat_add_one.mpr fun bit (hbit : bit ∈ List.replicate n true) =>
      (mem_replicate.mp hbit).2
    rw [length_replicate] at hs
    refine ⟨⟨root.descend (List.replicate n true), out, bitsToNat (List.replicate n true), n⟩, ?_,
      rfl, Nat.le_of_lt_succ hn, by dsimp only; omega⟩
    have hr : ([] : Bytes).length + out.length ≤ mo := by simpa using hle
    rw [hb, foldlM_append, (foldlM_stepBit_bytes out (Nat.zero_le _)).mpr ⟨hr, rfl⟩,
      nil_append, Except.ok_bind, foldlM_stepBit_node mo out hnd, length_replicate]

theorem huffmanDecode_huffmanEncode (bytes : Bytes) {mo : ℕ} (h : bytes.length ≤ mo) (calls : ℕ) :
    ∃ calls', huffmanDecode checks (huffmanEncode bytes) mo calls = .ok (bytes, calls') := by
  refine (huffmanDecode_iff hch).mpr ⟨h, _, ?_, flatMap_byteBits_pack (length_padded _)⟩
  omega

/-- Decoding is the inverse of the code. A string is decoded to the bytes of whose code words it
consists, with fewer than eight set bits of padding, when the output has room for them. A string
with the end-of-string symbol, or with more or other padding, is refused, and no two strings are
decoded to the same bytes. -/
theorem huffmanDecode_exact (input : Bytes) (maxOutput calls : ℕ) :
    (∀ out, (∃ calls', huffmanDecode checks input maxOutput calls = .ok (out, calls')) ↔
      out.length ≤ maxOutput ∧
        ∃ n < 8, input.flatMap byteBits = wordBits out ++ List.replicate n true) ∧
    (∀ bytes rest, input.flatMap byteBits = wordBits bytes ++ codeBits eos ++ rest →
      ∃ e, huffmanDecode checks input maxOutput calls = .error e) ∧
    (∀ bytes padding, input.flatMap byteBits = wordBits bytes ++ padding →
      (root.descend padding).IsNode → 8 ≤ padding.length ∨ false ∈ padding →
      ∃ e, huffmanDecode checks input maxOutput calls = .error e) ∧
    ∀ other out calls₁ calls₂, huffmanDecode checks input maxOutput calls = .ok (out, calls₁) →
      huffmanDecode checks other maxOutput calls = .ok (out, calls₂) → input = other := by
  -- what is decoded of a string that begins with code words
  have hrd : ∀ {bytes bits : List _} {s : HuffmanState},
      input.flatMap byteBits = wordBits bytes ++ bits →
      (input.flatMap byteBits).foldlM (stepBit maxOutput) ⟨root, [], 0, 0⟩ = .ok s →
      bits.foldlM (stepBit maxOutput) ⟨root, bytes, 0, 0⟩ = .ok s := by
    intro bytes bits s hb hf
    rw [hb, foldlM_append] at hf
    obtain ⟨t, ht, hr⟩ := Except.bind_eq_ok.mp hf
    obtain ⟨-, rfl⟩ := (foldlM_stepBit_bytes bytes (Nat.zero_le _)).mp ht
    exact hr
  have hrf : (∀ s, (input.flatMap byteBits).foldlM (stepBit maxOutput) ⟨root, [], 0, 0⟩ = .ok s →
      s.paddingLen ≤ 7 → s.padding ≠ 2 ^ s.paddingLen - 1) →
      ∃ e, huffmanDecode checks input maxOutput calls = .error e := by
    intro hnn
    cases hres : huffmanDecode checks input maxOutput calls with
    | error e => exact ⟨e, rfl⟩
    | ok r =>
      obtain ⟨s, hf, -, hl, hp⟩ := (huffmanDecode_eq_ok hch).mp ⟨_, hres⟩
      exact absurd hp (hnn s hf hl)
  refine ⟨fun out => huffmanDecode_iff hch, ?_, ?_, ?_⟩
  · intro bytes rest hb
    refine hrf fun s hf => ?_
    have hr := hrd (append_assoc .. ▸ hb) hf
    rw [foldlM_append] at hr
    obtain ⟨t, ht, -⟩ := Except.bind_eq_ok.mp hr
    obtain ⟨hd, hne⟩ := descend_codeBits eos (by decide)
    exact absurd rfl ((foldlM_stepBit_symbol hne hd).mp ht).1
  · intro bytes padding hb hnd hbad
    refine hrf fun s hf hl hp => ?_
    have hr := hrd hb hf
    rw [foldlM_stepBit_node maxOutput bytes hnd] at hr
    cases hr
    have hs := bitsToNat_add_one.mp (hp ▸ Nat.sub_add_cancel Nat.one_le_two_pow)
    rcases hbad with hln | hff
    · exact absurd hl (by dsimp only; omega)
    · exact absurd (hs _ hff) nofun
  · intro other out calls₁ calls₂ hi ho
    obtain ⟨-, n, hn, hb⟩ := (huffmanDecode_iff hch).mp ⟨_, hi⟩
    obtain ⟨-, m, hm, hb'⟩ := (huffmanDecode_iff hch).mp ⟨_, ho⟩
    have hl : ∀ bytes : Bytes, (bytes.flatMap byteBits).length % 8 = 0 := by
      intro bytes
      simp [length_flatMap, byteBits]
    have hsm : n = m := by
      have h := hl input
      have h' := hl other
      rw [hb, length_append, length_replicate] at h
      rw [hb', length_append, length_replicate] at h'
      omega
    rw [← pack_flatMap_byteBits input, hb, hsm, ← hb', pack_flatMap_byteBits]

omit hch in
/-- The string of one byte that holds the five bits of a letter, and three bits of padding. -/
theorem huffmanDecode_exact_letter :
    ∃ calls', huffmanDecode (E := Empty) (fun _ => none) [0x1f] 1 0 = .ok ([0x61], calls') :=
  ((huffmanDecode_exact (fun _ => rfl) [0x1f] 1 0).1 [0x61]).mpr
    ⟨le_rfl, 3, by decide, by decide +kernel⟩

/-- A decoded string is at most eight fifths as long as its code, whatever the limit on the output,
and longer than a quarter of it, less one. -/
theorem huffmanDecode_length {input out : Bytes} {maxOutput calls calls' : ℕ}
    (h : huffmanDecode checks input maxOutput calls = .ok (out, calls')) :
    5 * out.length ≤ 8 * input.length ∧ 8 * input.length < 30 * out.length + 8 := by
  have hc : ∀ s < 256, 5 ≤ (codeBits s).length ∧ (codeBits s).length ≤ 30 := by decide +kernel
  obtain ⟨-, n, hn, hb⟩ := (huffmanDecode_iff hch).mp ⟨calls', h⟩
  have hw : 5 * out.length ≤ (wordBits out).length ∧ (wordBits out).length ≤ 30 * out.length := by
    clear h hb
    induction out with
    | nil => exact ⟨le_rfl, le_rfl⟩
    | cons s out ih =>
      have hs := hc _ s.toNat_lt
      simp only [wordBits, flatMap_cons, length_append, length_cons] at ih ⊢
      omega
  have hl : input.length * 8 = (wordBits out).length + n := by
    simpa [length_flatMap, byteBits] using congrArg length hb
  omega

omit hch in
theorem huffmanDecode_length_letter :
    huffmanDecode (E := Empty) (fun _ => none) [0x1f] 1 0 = .ok ([0x61], 1) ∧
      5 * 1 ≤ 8 * 1 ∧ 8 * 1 < 30 * 1 + 8 := by
  have h : huffmanDecode (E := Empty) (fun _ => none) [0x1f] 1 0 = .ok ([0x61], 1) := by
    decide +kernel
  exact ⟨h, huffmanDecode_length (fun _ => rfl) h⟩

end RoundTrip

end PacketCraftr.Hpack
