import PacketCraftr.Foundation.Wire

/-!
# The walk over IPv6 extension headers

The part of `protocol/headers.rs` that the reassembler uses: the lengths of extension headers and
the bounded walker over a chain of them. The walker yields an error once and then ends.
-/

namespace PacketCraftr

/-! ### Protocol numbers -/

namespace IpProtocol

def hopByHop : UInt8 := 0

def routing : UInt8 := 43

def fragment : UInt8 := 44

def ah : UInt8 := 51

def destinationOptions : UInt8 := 60

end IpProtocol

namespace Headers

def maxIpv6Extensions : ℕ := 64

def ipv4MinLength : ℕ := 20

def ipv6Length : ℕ := 40

/-- What an error of the walker is about. -/
inductive Header
  | ethernet
  | vlan
  | ip
  | ipv4
  | ipv4Option
  | ipv6
  | ipv6Extension
  | ipv6Option
  deriving DecidableEq, Repr

inductive Error
  | truncated (header : Header)
  | length (header : Header)
  | depth (header : Header) (limit : ℕ)
  | unknownIpVersion (version : UInt8)
  | ipVersionMismatch (expected found : UInt8)
  | jumbogram
  deriving DecidableEq, Repr

def isWalkableIpv6Extension (nextHeader : UInt8) : Bool :=
  nextHeader == IpProtocol.hopByHop || nextHeader == IpProtocol.routing ||
    nextHeader == IpProtocol.ah || nextHeader == IpProtocol.destinationOptions

/-- The length of an extension header, from the length its second byte encodes. -/
def ipv6ExtensionHeaderLength (nextHeader encodedLength : UInt8) : Option ℕ :=
  if nextHeader == IpProtocol.hopByHop || nextHeader == IpProtocol.routing ||
      nextHeader == IpProtocol.destinationOptions then
    some ((encodedLength.toNat + 1) * 8)
  else if nextHeader == IpProtocol.ah then
    some ((encodedLength.toNat + 2) * 4) |>.filter fun length => decide (length ≥ 12)
  else none

/-! ### The chain -/

structure Ipv6Extension where
  protocol : UInt8
  offset : ℕ
  length : ℕ
  nextHeader : UInt8
  fragment : Option ℕ
  deriving DecidableEq, Repr

namespace Ipv6Extension

/-- The offset of a Fragment header, in eight-byte units. -/
def fragmentOffset (e : Ipv6Extension) : Option ℕ := e.fragment.map fun word => word / 8

end Ipv6Extension

/-- A walk that stands before the header announced by `protocol`. -/
structure Ipv6ExtensionChain where
  bytes : Bytes
  protocol : UInt8
  offset : ℕ
  limit : ℕ
  taken : ℕ
  done : Bool
  deriving DecidableEq, Repr

namespace Ipv6ExtensionChain

def new (bytes : Bytes) (offset : ℕ) (nextHeader : UInt8) : Ipv6ExtensionChain :=
  ⟨bytes, nextHeader, offset, maxIpv6Extensions, 0, false⟩

section

variable (c : Ipv6ExtensionChain)

def withCeiling (ceiling : ℕ) : Ipv6ExtensionChain :=
  { c with limit := ceiling }

/-- The header the walk stands at. -/
def header : Except Error Ipv6Extension :=
  match c.bytes[c.offset]?, c.bytes[c.offset + 1]? with
  | some nextHeader, some encodedLength =>
    let length :=
      if c.protocol == IpProtocol.fragment then some 8
      else ipv6ExtensionHeaderLength c.protocol encodedLength
    match length with
    | none => .error (.length .ipv6Extension)
    | some length =>
      if c.offset + length ≤ c.bytes.length then
        .ok ⟨c.protocol, c.offset, length, nextHeader,
          if c.protocol == IpProtocol.fragment then Wire.be16? c.bytes (c.offset + 2) else none⟩
      else .error (.truncated .ipv6Extension)
  | _, _ => .error (.truncated .ipv6Extension)

/-- The next header of the chain, and the walk after it. A Fragment header away from offset zero
ends the chain. -/
def next : Option (Except Error Ipv6Extension) × Ipv6ExtensionChain :=
  if c.done || !(c.protocol == IpProtocol.fragment || isWalkableIpv6Extension c.protocol) then
    (none, c)
  else if c.taken ≥ c.limit then
    (some (.error (.depth .ipv6Extension c.limit)), { c with done := true })
  else
    match c.header with
    | .ok extension =>
      (some (.ok extension),
        { c with
          taken := c.taken + 1
          offset := c.offset + extension.length
          protocol := extension.nextHeader
          done := extension.fragmentOffset.any (· ≠ 0) })
    | .error e => (some (.error e), { c with done := true })

end

theorem header_eq_ok {c : Ipv6ExtensionChain} {e : Ipv6Extension} (h : c.header = .ok e) :
    e.protocol = c.protocol ∧ e.offset = c.offset ∧ c.offset + e.length ≤ c.bytes.length ∧
      c.bytes[c.offset]? = some e.nextHeader := by
  unfold header at h
  split at h
  · rename_i hn he
    dsimp only at h
    split at h
    · cases h
    · rename_i length hln
      by_cases hl : c.offset + length ≤ c.bytes.length
      · rw [if_pos hl] at h
        cases h
        exact ⟨rfl, rfl, hl, hn⟩
      · rw [if_neg hl] at h
        cases h
  · cases h

theorem next_eq_ok {c c' : Ipv6ExtensionChain} {e : Ipv6Extension}
    (h : c.next = (some (.ok e), c')) :
    c.header = .ok e ∧ c'.bytes = c.bytes ∧ c'.offset = c.offset + e.length ∧
      c'.protocol = e.nextHeader ∧ c'.limit = c.limit ∧ c'.taken = c.taken + 1 := by
  unfold next at h
  split_ifs at h with hd hl
  · cases h
  · cases h
  · split at h
    · rename_i extension he
      cases h
      exact ⟨he, rfl, rfl, rfl, rfl, rfl⟩
    · cases h

end Ipv6ExtensionChain

end Headers

end PacketCraftr
