import PacketCraftr.Foundation.Outcome
import PacketCraftr.Protocol.Layers
import Mathlib.Data.List.Pairwise
import Mathlib.Data.List.Sort

/-!
# Address maps are partial functions

The address map of `transform/address_map.rs`: prefixes of each family are kept in one table for
each length, and a lookup probes the tables from the longest prefix on. Prefixes that overlap are
refused, so that a map sends an address where a scan of its mappings would.
-/

open List Except

namespace PacketCraftr.Transform

def numeric : IpAddr → BitVec 128
  | .v4 address => address.setWidth 128
  | .v6 address => address

def address (value : BitVec 128) (ipv4 : Bool) : IpAddr :=
  if ipv4 then .v4 (if value.toNat < 2 ^ 32 then value.setWidth 32 else 0) else .v6 value

def bits (ipv4 : Bool) : ℕ := if ipv4 then 32 else 128

/-- The leading `length` bits of a `bits`-wide address. -/
def mask (length bits : ℕ) : BitVec 128 :=
  let width := if bits = 32 then (BitVec.allOnes 32).setWidth 128 else BitVec.allOnes 128
  width &&& ~~~(width >>> length)

/-- A mapping of a prefix to one of the same length. Behind the prefix there are no bits. -/
structure IpMapping where
  old : IpAddr
  new : IpAddr
  prefixLength : ℕ
  sameFamily : new.isIpv4 = old.isIpv4
  length_le : prefixLength ≤ bits old.isIpv4
  old_host : numeric old &&& ~~~mask prefixLength (bits old.isIpv4) = 0
  new_host : numeric new &&& ~~~mask prefixLength (bits old.isIpv4) = 0

structure MacMapping where
  old : BitVec 48
  new : BitVec 48

/-- Tables of networks, each with the length of its prefixes. -/
abbrev Tables := List (ℕ × (BitVec 128 → Option (BitVec 128)))

/-- Prefixes of one family. -/
structure PrefixTable where
  ipv4 : Bool
  byLength : Tables

namespace PrefixTable

/-- Add a mapping to the table of its length, which may be new. -/
def add (m : IpMapping) : Tables → Tables
  | [] => [(m.prefixLength, Function.update (fun _ => none) (numeric m.old) (some (numeric m.new)))]
  | (length, table) :: rest =>
    if length = m.prefixLength then
      (length, Function.update table (numeric m.old) (some (numeric m.new))) :: rest
    else (length, table) :: add m rest

def insert (t : PrefixTable) (m : IpMapping) : PrefixTable :=
  { t with byLength := add m t.byLength }

def lookup (t : PrefixTable) (value : BitVec 128) : Option IpAddr :=
  t.byLength.findSome? fun (length, table) =>
    let network := mask length (bits t.ipv4)
    (table (value &&& network)).map fun new => address (new ||| (value &&& ~~~network)) t.ipv4

/-- Longest prefixes first. -/
def sort (t : PrefixTable) : PrefixTable :=
  { t with byLength := t.byLength.insertionSort fun a b => b.1 ≤ a.1 }

end PrefixTable

structure AddressMap where
  ipv4 : PrefixTable
  ipv6 : PrefixTable
  macs : BitVec 48 → Option (BitVec 48)

inductive Error
  | limit (limit : ℕ)
  | addressMapOverlap
  deriving DecidableEq

def overlaps (earlier mapping : IpMapping) : Bool :=
  earlier.old.isIpv4 == mapping.old.isIpv4 &&
    let shorter := min earlier.prefixLength mapping.prefixLength
    let network := mask shorter (bits mapping.old.isIpv4)
    numeric earlier.old &&& network == numeric mapping.old &&& network

namespace AddressMap

def insert (map : AddressMap) (m : IpMapping) : AddressMap :=
  if m.old.isIpv4 then { map with ipv4 := map.ipv4.insert m }
  else { map with ipv6 := map.ipv6.insert m }

/-- Insert mappings that do not overlap one another or one of the earlier ones. -/
def insertIps (earlier : List IpMapping) (map : AddressMap) :
    List IpMapping → Except Error AddressMap
  | [] => .ok map
  | mapping :: rest => do
    rejectIf (earlier.any (overlaps · mapping)) .addressMapOverlap
    insertIps (earlier ++ [mapping]) (map.insert mapping) rest

def insertMacs (map : AddressMap) : List MacMapping → Except Error AddressMap
  | [] => .ok map
  | mapping :: rest => do
    rejectIf (map.macs mapping.old).isSome .addressMapOverlap
    insertMacs { map with macs := Function.update map.macs mapping.old (some mapping.new) } rest

def new (ips : List IpMapping) (macs : List MacMapping) : Except Error AddressMap := do
  rejectIf (ips.length + macs.length > 4096) (.limit 4096)
  let map ← insertIps [] ⟨⟨true, []⟩, ⟨false, []⟩, fun _ => none⟩ ips
  let map ← map.insertMacs macs
  pure { map with ipv4 := map.ipv4.sort, ipv6 := map.ipv6.sort }

def table (map : AddressMap) (ipv4 : Bool) : PrefixTable := if ipv4 then map.ipv4 else map.ipv6

/-- What an address of a packet is mapped to. -/
def lookup (map : AddressMap) (a : IpAddr) : Option IpAddr :=
  (map.table a.isIpv4).lookup (numeric a)

end AddressMap

/-! ### The scan -/

/-- An address as a number. -/
def number : IpAddr → ℕ
  | .v4 address => address.toNat
  | .v6 address => address.toNat

def width : IpAddr → ℕ
  | .v4 _ => 32
  | .v6 _ => 128

namespace IpMapping

/-- The number of addresses in each of the two networks. -/
def hosts (m : IpMapping) : ℕ := 2 ^ (width m.old - m.prefixLength)

theorem hosts_pos (m : IpMapping) : 0 < m.hosts := Nat.two_pow_pos _

/-- An address of the old network: the numbers of a network have the same quotient by its size. -/
def Matches (m : IpMapping) (a : IpAddr) : Prop :=
  a.isIpv4 = m.old.isIpv4 ∧ number a / m.hosts = number m.old / m.hosts

instance (m : IpMapping) (a : IpAddr) : Decidable (m.Matches a) :=
  inferInstanceAs (Decidable (_ ∧ _))

/-- The address of the new network that stands where an address stands in the old one. -/
def remap (m : IpMapping) (a : IpAddr) : IpAddr :=
  let value := number m.new / m.hosts * m.hosts + number a % m.hosts
  match a with
  | .v4 _ => .v4 (.ofNat 32 value)
  | .v6 _ => .v6 (.ofNat 128 value)

end IpMapping

theorem getLsbD_mask (length : ℕ) (ipv4 : Bool) (i : ℕ) : (mask length (bits ipv4)).getLsbD i =
      decide (i < bits ipv4 ∧ bits ipv4 ≤ length + i) := by
  cases ipv4 <;> simp only [mask, bits, Bool.false_eq_true, if_true, if_false, Nat.reduceEqDiff,
      BitVec.getLsbD_and, BitVec.getLsbD_not, BitVec.getLsbD_ushiftRight, BitVec.getLsbD_setWidth,
      BitVec.getLsbD_allOnes] <;>
    grind

theorem mask_and_mask (l l' : ℕ) (ipv4 : Bool) :
    mask l (bits ipv4) &&& mask l' (bits ipv4) = mask (min l l') (bits ipv4) := by
  refine BitVec.eq_of_getLsbD_eq fun i _ => ?_
  rw [BitVec.getLsbD_and, getLsbD_mask, getLsbD_mask, getLsbD_mask, Bool.eq_iff_iff]
  simp only [Bool.and_eq_true, decide_eq_true_eq]
  omega

variable {m m' : IpMapping} {a b : IpAddr}

/-! ### Masks and quotients -/

theorem toNat_numeric (a : IpAddr) : (numeric a).toNat = number a := by
  cases a with
  | v4 x => exact BitVec.toNat_setWidth_of_le (by decide)
  | v6 x => rfl

theorem bits_isIpv4 (a : IpAddr) : bits a.isIpv4 = width a := by cases a <;> rfl

theorem number_lt (a : IpAddr) : number a < 2 ^ width a := by
  cases a with
  | v4 x => exact x.isLt
  | v6 x => exact x.isLt

theorem testBit_number {i : ℕ} (hi : width a ≤ i) : (number a).testBit i = false :=
  Nat.testBit_lt_two_pow ((number_lt a).trans_le (Nat.pow_le_pow_right Nat.two_pos hi))

section Masks

variable (hf : a.isIpv4 = m.old.isIpv4)
include hf

theorem width_eq : width a = width m.old := by rw [← bits_isIpv4, hf, bits_isIpv4]

/-- The bits under the mask of a mapping are those of the quotient. -/
theorem toNat_and_mask : (numeric a &&& mask m.prefixLength (bits m.old.isIpv4)).toNat =
    m.hosts * (number a / m.hosts) := by
  refine Nat.eq_of_testBit_eq fun i => ?_
  have hl := m.length_le
  have hv := testBit_number (a := a) (i := i)
  rw [width_eq hf] at hv
  rw [IpMapping.hosts, BitVec.testBit_toNat, BitVec.getLsbD_and, getLsbD_mask,
    ← BitVec.testBit_toNat, toNat_numeric, Nat.testBit_two_pow_mul, Nat.testBit_div_two_pow]
  rw [bits_isIpv4] at hl ⊢
  grind

/-- The bits outside of it are those of the remainder. -/
theorem toNat_and_not_mask : (numeric a &&& ~~~mask m.prefixLength (bits m.old.isIpv4)).toNat =
    number a % m.hosts := by
  refine Nat.eq_of_testBit_eq fun i => ?_
  have hl := m.length_le
  have hv := testBit_number (a := a) (i := i)
  have hw : width m.old ≤ 128 := by cases m.old <;> simp [width]
  rw [width_eq hf] at hv
  rw [IpMapping.hosts, BitVec.testBit_toNat, BitVec.getLsbD_and, BitVec.getLsbD_not, getLsbD_mask,
    ← BitVec.testBit_toNat, toNat_numeric, Nat.testBit_mod_two_pow]
  rw [bits_isIpv4] at hl ⊢
  grind

/-- An address without host bits is a multiple of the size of its network. -/
theorem hosts_mul_div (hh : numeric a &&& ~~~mask m.prefixLength (bits m.old.isIpv4) = 0) :
    m.hosts * (number a / m.hosts) = number a := by
  refine Nat.mul_div_cancel' (Nat.dvd_of_mod_eq_zero ?_)
  rw [← toNat_and_not_mask hf, hh]
  rfl

end Masks

theorem matches_iff : m.Matches a ↔ a.isIpv4 = m.old.isIpv4 ∧
    numeric a &&& mask m.prefixLength (bits m.old.isIpv4) = numeric m.old := by
  refine and_congr_right fun hf => ?_
  rw [← BitVec.toNat_inj, toNat_and_mask hf, toNat_numeric, ← hosts_mul_div rfl m.old_host,
    Nat.mul_div_cancel_left _ m.hosts_pos, Nat.mul_right_inj m.hosts_pos.ne']

/-- Mappings that match the same address overlap. -/
theorem overlaps_of_matches (h : m.Matches a) (h' : m'.Matches a) : overlaps m m' = true := by
  rw [matches_iff] at h h'
  have hf := h.1.symm.trans h'.1
  have hold := h.2
  rw [hf] at hold
  simp only [overlaps, hf, beq_self_eq_true, Bool.true_and, beq_iff_eq]
  rw [← hold, ← h'.2, BitVec.and_assoc, BitVec.and_assoc, mask_and_mask, mask_and_mask]
  congr 2
  omega

/-- The new network has no host bits, so that those of the address can be added. -/
theorem address_eq_remap (h : m.Matches a) :
    address (numeric m.new ||| (numeric a &&& ~~~mask m.prefixLength (bits a.isIpv4))) a.isIpv4 =
      m.remap a := by
  generalize hx : numeric m.new ||| (numeric a &&& ~~~mask m.prefixLength (bits a.isIpv4)) = x
  have hor : x.toNat = number m.new ||| number a % m.hosts := by
    rw [← hx, h.1, BitVec.toNat_or, toNat_numeric, toNat_and_not_mask h.1]
  have hadd : x.toNat = number m.new / m.hosts * m.hosts + number a % m.hosts := by
    have := Nat.two_pow_add_eq_or_of_lt (Nat.mod_lt (number a) m.hosts_pos)
      (number m.new / m.hosts)
    rw [← IpMapping.hosts, hosts_mul_div m.sameFamily m.new_host] at this
    rw [hor, ← this, Nat.div_mul_cancel]
    exact ⟨_, (hosts_mul_div m.sameFamily m.new_host).symm⟩
  simp only [IpMapping.remap, ← hadd]
  cases a with
  | v4 y =>
    have hlt : x.toNat < 2 ^ 32 := by
      rw [hor]
      refine Nat.or_lt_two_pow ?_ ((Nat.mod_le _ _).trans_lt y.isLt)
      have hn := number_lt m.new
      rwa [width_eq m.sameFamily, ← width_eq h.1] at hn
    simp only [address, IpAddr.isIpv4, if_true, if_pos hlt, BitVec.ofNat_toNat]
  | v6 y => simp [address, IpAddr.isIpv4]

/-! ### The tables -/

namespace PrefixTable

variable {tb : Tables} {t : PrefixTable} {l : ℕ} {k n value : BitVec 128}

/-- The networks of length `l` have an entry. -/
def Has (tables : Tables) (l : ℕ) (k n : BitVec 128) : Prop :=
  ∃ table, (l, table) ∈ tables ∧ table k = some n

theorem has_cons {length : ℕ} {table : BitVec 128 → Option (BitVec 128)} :
    Has ((length, table) :: tb) l k n ↔ l = length ∧ table k = some n ∨ Has tb l k n := by
  simp only [Has, mem_cons, Prod.mk.injEq, or_and_right, exists_or, and_assoc, exists_and_left,
    exists_eq_left]

theorem has_add (hf : ∀ n, ¬ Has tb m.prefixLength (numeric m.old) n) :
    Has (add m tb) l k n ↔ Has tb l k n ∨
      l = m.prefixLength ∧ k = numeric m.old ∧ n = numeric m.new := by
  induction tb with
  | nil =>
    rw [add, has_cons, Function.update_apply]
    grind [Has]
  | cons e tb ih =>
    obtain ⟨length, table⟩ := e
    simp only [has_cons, not_or] at hf
    rw [add]
    split_ifs with hl
    · rw [has_cons, has_cons, Function.update_apply]
      grind
    · rw [has_cons, has_cons, ih fun n => (hf n).2, or_assoc]

theorem exists_of_lookup (h : t.lookup value = some b) :
    ∃ l n, Has t.byLength l (value &&& mask l (bits t.ipv4)) n ∧
      b = address (n ||| (value &&& ~~~mask l (bits t.ipv4))) t.ipv4 := by
  obtain ⟨⟨l, table⟩, hmem, h⟩ := exists_of_findSome?_eq_some h
  obtain ⟨n, hn, rfl⟩ := Option.map_eq_some_iff.mp h
  exact ⟨l, n, ⟨table, hmem, hn⟩, rfl⟩

theorem lookup_ne_none (h : Has t.byLength l (value &&& mask l (bits t.ipv4)) n) :
    t.lookup value ≠ none := by
  intro hn
  obtain ⟨table, hmem, ht⟩ := h
  have he := findSome?_eq_none_iff.mp hn _ hmem
  simp [ht] at he

end PrefixTable

/-! ### The map -/

namespace AddressMap

open PrefixTable

variable {map map' : AddressMap} {ips ms : List IpMapping} {macs : List MacMapping}

/-- The tables of a map have an entry for each of its mappings, which do not overlap. -/
structure Holds (map : AddressMap) (ms : List IpMapping) : Prop where
  family : ∀ ipv4, (map.table ipv4).ipv4 = ipv4
  has_iff : ∀ ipv4 l k n, Has (map.table ipv4).byLength l k n ↔ ∃ m ∈ ms,
    m.old.isIpv4 = ipv4 ∧ l = m.prefixLength ∧ k = numeric m.old ∧ n = numeric m.new
  apart : ms.Pairwise fun m m' => ¬ overlaps m m'

/-- An entry that a lookup finds is that of a mapping that matches. -/
theorem Holds.has_iff_matches (h : Holds map ms) {l : ℕ} {k n : BitVec 128}
    (hk : k = numeric a &&& mask l (bits (map.table a.isIpv4).ipv4)) :
    Has (map.table a.isIpv4).byLength l k n ↔
      ∃ m ∈ ms, m.Matches a ∧ l = m.prefixLength ∧ n = numeric m.new := by
  rw [h.family] at hk
  rw [h.has_iff]
  refine exists_congr fun m => and_congr_right fun _ => ?_
  constructor
  · rintro ⟨hf, rfl, hold, hnew⟩
    exact ⟨matches_iff.mpr ⟨hf.symm, by rw [← hold, hk, hf]⟩, rfl, hnew⟩
  · rintro ⟨hm, rfl, hnew⟩
    obtain ⟨hf, hold⟩ := matches_iff.mp hm
    exact ⟨hf.symm, rfl, by rw [hk, hf, hold], hnew⟩

theorem table_insert (ipv4 : Bool) : (map.insert m).table ipv4 =
    if m.old.isIpv4 = ipv4 then (map.table ipv4).insert m else map.table ipv4 := by
  unfold insert table
  cases ipv4 <;> cases m.old.isIpv4 <;> rfl

theorem Holds.insert (h : Holds map ms) (ha : ∀ m' ∈ ms, ¬ overlaps m' m) :
    Holds (map.insert m) (ms ++ [m]) where
  family ipv4 := by
    rw [table_insert]
    split_ifs <;> exact h.family ipv4
  has_iff ipv4 l k n := by
    rw [table_insert]
    split_ifs with hf
    · have hfr : ∀ n, ¬ Has (map.table ipv4).byLength m.prefixLength (numeric m.old) n := by
        intro n hn
        obtain ⟨m', hm', hf', hl, hold, -⟩ := (h.has_iff ..).mp hn
        exact ha m' hm' (by simp [overlaps, hf', hf, ← hl, ← hold])
      rw [PrefixTable.insert, has_add hfr, h.has_iff]
      simp [or_and_right, exists_or, hf]
    · rw [h.has_iff]
      simp [or_and_right, exists_or, hf]
  apart := pairwise_append.mpr ⟨h.apart, pairwise_singleton _ _, by simpa using ha⟩

theorem Holds.insertIps (h : Holds map ms) (hi : insertIps ms map ips = .ok map') :
    Holds map' (ms ++ ips) := by
  induction ips generalizing map ms with
  | nil =>
    cases hi
    rwa [append_nil]
  | cons m ips ih =>
    obtain ⟨ha, hi⟩ := rejectIf_bind_eq_ok.mp hi
    rw [append_cons]
    refine ih (h.insert fun m' hm' ho => ha ?_) hi
    exact any_eq_true.mpr ⟨m', hm', ho⟩

theorem table_insertMacs (h : map.insertMacs macs = .ok map') (ipv4 : Bool) :
    map'.table ipv4 = map.table ipv4 := by
  induction macs generalizing map with
  | nil =>
    cases h
    rfl
  | cons m macs ih => exact (ih (rejectIf_bind_eq_ok.mp h).2 :)

theorem holds_new (h : new ips macs = .ok map) : Holds map ips := by
  obtain ⟨-, h⟩ := rejectIf_bind_eq_ok.mp h
  obtain ⟨map₁, hi, h⟩ := bind_eq_ok.mp h
  obtain ⟨map₂, hm, h⟩ := bind_eq_ok.mp h
  cases h
  have hh : Holds map₁ ([] ++ ips) := .insertIps ⟨by simp [table], by simp [table, Has], .nil⟩ hi
  rw [nil_append] at hh
  have ht (ipv4 : Bool) : table { map₂ with ipv4 := map₂.ipv4.sort, ipv6 := map₂.ipv6.sort }
      ipv4 = (map₁.table ipv4).sort := by
    rw [← table_insertMacs hm]
    cases ipv4 <;> rfl
  refine ⟨fun ipv4 => ?_, fun ipv4 l k n => ?_, hh.apart⟩
  · rw [ht]
    exact hh.family ipv4
  · rw [ht, ← hh.has_iff]
    simp only [PrefixTable.sort, Has, mem_insertionSort]

/-- **Address maps are partial functions.** An accepted map has no two mappings that match the same
address, and maps an address as a scan of the list does: to the network of the mapping, with the
host bits of the address. -/
theorem lookup_eq_scan (h : new ips macs = .ok map) :
    ips.Pairwise (fun m m' => ∀ a, ¬ (m.Matches a ∧ m'.Matches a)) ∧
      ∀ a, map.lookup a = (ips.find? fun m => m.Matches a).map (·.remap a) := by
  have hh := holds_new h
  have ha : ips.Pairwise fun m m' => ∀ a, ¬ (m.Matches a ∧ m'.Matches a) :=
    hh.apart.imp fun ha a hb => ha (overlaps_of_matches hb.1 hb.2)
  refine ⟨ha, fun a => ?_⟩
  cases hl : map.lookup a with
  | none =>
    rw [eq_comm, Option.map_eq_none_iff, find?_eq_none]
    intro m hm hmt
    exact lookup_ne_none ((hh.has_iff_matches rfl).mpr ⟨m, hm, of_decide_eq_true hmt, rfl, rfl⟩) hl
  | some b =>
    obtain ⟨l, n, hhas, rfl⟩ := exists_of_lookup hl
    obtain ⟨m, hm, hmt, rfl, rfl⟩ := (hh.has_iff_matches rfl).mp hhas
    cases hf : ips.find? fun m => m.Matches a with
    | none => exact absurd (decide_eq_true hmt) (find?_eq_none.mp hf m hm)
    | some m' =>
      have hmt' : m'.Matches a := by simpa using find?_some hf
      have hs : Std.Symm fun m m' : IpMapping => ¬ (m.Matches a ∧ m'.Matches a) :=
        ⟨fun _ _ hb hb' => hb hb'.symm⟩
      obtain rfl : m' = m := by
        by_contra hne
        exact (ha.imp fun h => h a).forall (mem_of_find?_eq_some hf) hm hne ⟨hmt', hmt⟩
      rw [Option.map_some, hh.family, address_eq_remap hmt]

/-- The networks `192.0.2.0/24`, `10.128.0.0/9` and `2001:db8::/33`, with what they are mapped to:
`198.51.100.0/24`, `172.0.0.0/9` and `fd00::/33`. -/
def documentation : List IpMapping :=
  [⟨.v4 0xc0000200, .v4 0xc6336400, 24, rfl, by decide, by decide, by decide⟩,
    ⟨.v4 0x0a800000, .v4 0xac000000, 9, rfl, by decide, by decide, by decide⟩,
    ⟨.v6 0x20010db8000000000000000000000000, .v6 0xfd000000000000000000000000000000, 33, rfl,
      by decide, by decide, by decide⟩]

/-- In each of the networks, an address with its first host bit set, and one in none of them. -/
theorem lookup_eq_scan_documentation : ∃ map, new documentation [] = .ok map ∧
    map.lookup (.v4 0xc0000287) = some (.v4 0xc6336487) ∧
    map.lookup (.v4 0x0ac00001) = some (.v4 0xac400001) ∧
    map.lookup (.v6 0x20010db8400000000000000000000001) =
      some (.v6 0xfd000000400000000000000000000001) ∧
    map.lookup (.v4 0x0a000001) = none ∧
    documentation.Pairwise (fun m m' => ∀ a, ¬ (m.Matches a ∧ m'.Matches a)) ∧
    ∀ a, map.lookup a = (documentation.find? fun m => m.Matches a).map (·.remap a) :=
  ⟨_, rfl, by decide +kernel, by decide +kernel, by decide +kernel, by decide +kernel,
    lookup_eq_scan (show new documentation [] = _ from rfl)⟩

end AddressMap

end PacketCraftr.Transform
