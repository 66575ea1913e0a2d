import PacketCraftr.Policy.Destinations

/-!
# The destination policy

`policy/authorization.rs`: a destination must meet the configured constraints, if there are any, and
must not be public unless public destinations are allowed. A packet is authorized when every live
destination of it is.
-/

namespace PacketCraftr

/-! ### Addresses -/

/-- Whether two words agree in their first `bits` bits. -/
def sameNetwork {w : ℕ} (bits : ℕ) (a b : BitVec w) : Bool := a >>> (w - bits) == b >>> (w - bits)

/-- The IPv4 address that an IPv6 address maps. -/
def toIpv4Mapped (address : Ipv6Addr) : Option Ipv4Addr :=
  if sameNetwork 96 address 0x00000000000000000000ffff00000000 then some (address.setWidth 32)
  else none

/-- An address, or the IPv4 address that it maps. -/
def IpAddr.toCanonical : IpAddr → IpAddr
  | .v4 address => .v4 address
  | .v6 address => (toIpv4Mapped address).elim (.v6 address) .v4

def isPublicV4 (address : Ipv4Addr) : Bool :=
  sameNetwork 4 address 0xe0000000 ||
    !(sameNetwork 8 address 0x0a000000 || sameNetwork 12 address 0xac100000 ||
      sameNetwork 16 address 0xc0a80000 || sameNetwork 8 address 0x7f000000 ||
      sameNetwork 16 address 0xa9fe0000 || address == 0 ||
      sameNetwork 24 address 0xc0000200 || sameNetwork 24 address 0xc6336400 ||
      sameNetwork 24 address 0xcb007100)

def isIpv6Documentation (address : Ipv6Addr) : Bool :=
  sameNetwork 32 address 0x20010db8000000000000000000000000 ||
    sameNetwork 20 address 0x3fff0000000000000000000000000000

def isPublic : IpAddr → Bool
  | .v4 address => isPublicV4 address
  | .v6 address =>
    match toIpv4Mapped address with
    | some mapped => isPublicV4 mapped
    | none =>
      sameNetwork 8 address 0xff000000000000000000000000000000 ||
        !(address == 1 || address == 0 ||
          sameNetwork 7 address 0xfc000000000000000000000000000000 ||
          sameNetwork 10 address 0xfe800000000000000000000000000000 ||
          isIpv6Documentation address)

/-- A network, with the bits behind its prefix cleared. -/
structure Network where
  address : IpAddr
  prefixLength : ℕ
  deriving DecidableEq, Repr

namespace Network

/-- The word with all but its first `bits` bits cleared. -/
def masked {w : ℕ} (bits : ℕ) (address : BitVec w) : BitVec w :=
  address &&& (BitVec.allOnes w <<< (w - bits))

/-- The network of an address, if the prefix is no longer than the address. -/
def new (address : IpAddr) (prefixLength : ℕ) : Option Network :=
  match address with
  | .v4 address =>
    if prefixLength > 32 then none else some ⟨.v4 (masked prefixLength address), prefixLength⟩
  | .v6 address =>
    if prefixLength > 128 then none else some ⟨.v6 (masked prefixLength address), prefixLength⟩

def matchesFamily (network : Network) (address : IpAddr) : Bool :=
  address.isIpv4 == network.address.isIpv4 && new address network.prefixLength == some network

/-- An address that maps an IPv4 address also matches through that one. -/
def contains (network : Network) (address : IpAddr) : Bool :=
  network.matchesFamily address || network.matchesFamily address.toCanonical

end Network

/-! ### Policies -/

inductive DestinationConstraint
  | exact (address : IpAddr)
  | network (allowed : Network)
  deriving DecidableEq, Repr

def DestinationConstraint.contains (constraint : DestinationConstraint) (address : IpAddr) : Bool :=
  match constraint with
  | .exact expected => expected.toCanonical == address.toCanonical
  | .network allowed => allowed.contains address

/-- What the policy says about destinations. -/
structure Policy where
  allowPublicDestinations : Bool
  allowedDestinations : List DestinationConstraint
  deriving DecidableEq, Repr

namespace Policy

inductive Error
  | publicDestination (destination : IpAddr)
  | destinationNotAllowed (destination : IpAddr) (constraints : List DestinationConstraint)
  | invalidPacketSemantics (reason : String) (source : Semantics.Error)
  deriving DecidableEq, Repr

/-- Constraints only narrow what the policy allows. -/
def authorizeDestination (policy : Policy) (destination : IpAddr) : Except Error Unit := do
  Except.rejectIf
    (policy.allowedDestinations ≠ [] ∧
      ¬ policy.allowedDestinations.any fun constraint => constraint.contains destination)
    (.destinationNotAllowed destination policy.allowedDestinations)
  Except.rejectIf (policy.allowPublicDestinations = false ∧ isPublic destination)
    (.publicDestination destination)

def authorizePacketDestinations (policy : Policy) (packet : Packet) : Except Error Unit := do
  let destinations ← (Semantics.liveDestinations packet).mapError
    (.invalidPacketSemantics "its live destinations cannot be read")
  destinations.forM policy.authorizeDestination

theorem authorizeDestination_of_forM {p : Policy} {d : List IpAddr}
    (h : d.forM p.authorizeDestination = .ok ()) :
    ∀ address ∈ d, p.authorizeDestination address = .ok () := by
  induction d with
  | nil => exact fun _ hmem => nomatch hmem
  | cons first rest ih =>
    obtain ⟨⟨⟩, hf, h⟩ := Except.bind_eq_ok.mp h
    exact List.forall_mem_cons.mpr ⟨hf, ih h⟩

/-- Every address that steers an authorized packet is unspecified or authorized, at whatever depth
it stands, and an authorized packet leaves nothing open about where it goes. -/
theorem authorizePacketDestinations_ok (policy : Policy) (packet : Packet)
    (h : policy.authorizePacketDestinations packet = .ok ()) :
    (∀ address, Semantics.Steers packet address →
      address.isUnspecified ∨ policy.authorizeDestination address = .ok ()) ∧
    ¬ Semantics.Ambiguous packet := by
  obtain ⟨d, hl, h⟩ := Except.bind_eq_ok.mp h
  rw [Except.mapError_eq_ok] at hl
  refine ⟨fun address hs => ?_, Semantics.not_ambiguous_of_liveDestinations hl⟩
  rw [or_iff_not_imp_left]
  exact fun hsp =>
    authorizeDestination_of_forM h _ (Semantics.mem_liveDestinations hl hs hsp)

/-- A loose source route in an IPv4 header, an IPv6 header with a segment-routing header inside it,
and an ARP request, all to addresses that are not public. -/
def tunneledRoute : Packet :=
  [.ipv4 ⟨0x0a000001, 0x0a000002, 0, false, [1, 131, 7, 4, 192, 168, 0, 1]⟩,
    .ipv6 ⟨1, 0xfd000000000000000000000000000001⟩, .ipv6HopByHop,
    .ipv6Srh ⟨[0xfd000000000000000000000000000001, 0xfd000000000000000000000000000002], .auto,
      .exact 1, 0⟩,
    .arp ⟨0xc0000201⟩]

/-- The address of its source route has passed a policy that allows nothing public. Bytes that were
meant for an IPv4 header never pass it. -/
theorem authorizePacketDestinations_tunneledRoute :
    (⟨false, []⟩ : Policy).authorizePacketDestinations tunneledRoute = .ok () ∧
      (⟨false, []⟩ : Policy).authorizeDestination (.v4 0xc0a80001) = .ok () ∧
      ¬ Semantics.Ambiguous tunneledRoute ∧
      (⟨false, []⟩ : Policy).authorizePacketDestinations [.malformed ⟨some " Ip4\n", "cut"⟩] ≠
        .ok () := by
  have h : (⟨false, []⟩ : Policy).authorizePacketDestinations tunneledRoute = .ok () := by decide
  have ha := authorizePacketDestinations_ok ⟨false, []⟩ tunneledRoute h
  have hr : Semantics.SourceRouteAddress [1, 131, 7, 4, 192, 168, 0, 1] 0xc0a80001 :=
    .noOperation (.here 7 4 192 168 0 1 [] [] (.inl rfl) (Nat.dvd_zero 4) (by decide))
  have hs : Semantics.Steers tunneledRoute (.v4 0xc0a80001) :=
    .sourceRoute _ _ List.mem_cons_self hr
  have hn : Semantics.Names " Ip4\n" .ipv4 :=
    ⟨[' '], ['I', 'p', '4'], ['\n'], rfl, by simp [Semantics.whiteSpace], "ip4", by decide, rfl⟩
  refine ⟨h, (ha.1 _ hs).resolve_left (by decide), ha.2, fun hm => ?_⟩
  exact (authorizePacketDestinations_ok _ _ hm).2
    (.malformed _ _ _ List.mem_cons_self rfl hn (by decide))

/-- A Fragment header that belongs to no IPv6 header is not looked at, so that not every authorized
packet is free of Fragment headers away from offset zero. -/
theorem authorizePacketDestinations_detachedFragment :
    ¬ ∀ (policy : Policy) (packet : Packet), policy.authorizePacketDestinations packet = .ok () →
      ∀ fragment, .ipv6Fragment fragment ∈ packet → fragment.fragmentOffset = 0 := by
  intro ha
  have h : (⟨false, []⟩ : Policy).authorizePacketDestinations [.ipv6Fragment ⟨1, false⟩] = .ok () :=
    by decide
  exact absurd (ha _ _ h _ List.mem_cons_self) (by decide)

end Policy

end PacketCraftr
