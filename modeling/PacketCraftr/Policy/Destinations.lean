import PacketCraftr.Protocol.Paths

/-!
# Every address that steers a packet

`live_destinations` of `protocol/semantics/destination.rs` walks the layers of a packet and collects
the addresses that can determine where it goes. This file says on its own terms which addresses
those are (`Steers`) and which packets leave it open (`Ambiguous`), and proves that the walk finds
every one of the former and refuses the latter.
-/

open List Except

namespace PacketCraftr

namespace Semantics

/-! ### The walk -/

def malformedProtocolMayHideDestination : BuiltinProtocol → Bool
  | .ah | .arp | .bsdLoop | .bsdNull | .erspan | .etherip | .ethernet | .geneve | .gre | .gtpu
  | .ipv4 | .ipv6 | .ipv6DestinationOptions | .ipv6Fragment | .ipv6HopByHop | .ipv6Srh | .l2tpv3
  | .linuxSll | .linuxSll2 | .llc | .mpls | .ppp | .pppoe | .rawIp | .snap | .udp | .vlan
  | .vlan8021ad | .vxlan => true
  | _ => false

/-- The white space of Unicode. -/
def isWhitespace (c : Char) : Bool :=
  (0x9 ≤ c.toNat && c.toNat ≤ 0xd) || c.toNat == 0x20 || c.toNat == 0x85 || c.toNat == 0xa0 ||
    c.toNat == 0x1680 || (0x2000 ≤ c.toNat && c.toNat ≤ 0x200a) || c.toNat == 0x2028 ||
    c.toNat == 0x2029 || c.toNat == 0x202f || c.toNat == 0x205f || c.toNat == 0x3000

def trim (chars : List Char) : List Char :=
  (((chars.dropWhile isWhitespace).reverse).dropWhile isWhitespace).reverse

/-- The name under which a registry looks an intended protocol up. -/
def lookupName (intended : String) : String := .ofList ((trim intended.toList).map Char.toLower)

/-- Whether bytes meant for the named protocol may hide a destination. -/
def mayHideDestination (intended : String) : Bool :=
  (BuiltinProtocol.fromNameOrAlias (lookupName intended)).any malformedProtocolMayHideDestination

def routeFields : List String := ["destination", "segments", "target_protocol"]

/-- Whether a layer that is not built in declares the field, or has a value under it. -/
def declaresField (layer : Foreign) (field : String) : Bool :=
  layer.fields.any (fun declared => declared.name == field) ||
    (layer.field? field).any FieldSchema.hasValue

def requireSrhAttachedToIpv6 (packet : Packet) (srhIndex : ℕ) : Except Error Unit :=
  match (packet.take srhIndex).reverse.find? (fun layer => !layer.isIpv6Extension) with
  | some layer =>
    Except.rejectIf (BuiltinProtocol.ipv6.identifies layer = false) .detachedSegmentRoutingHeader
  | none => .error .detachedSegmentRoutingHeader

def pushIfSpecified (destinations : List IpAddr) (destination : IpAddr) : List IpAddr :=
  if destination.isUnspecified ∨ destination ∈ destinations then destinations
  else destinations ++ [destination]

/-- The destinations together with those of a path. -/
def pushPath (destinations : List IpAddr) (path : IpPath) : List IpAddr :=
  path.declaredRouteDestinations.foldl pushIfSpecified
    (pushIfSpecified destinations path.headerDestination)

/-- One turn of the walk, at a layer and its index. -/
def liveLayer (packet : Packet) (destinations : List IpAddr) :
    Layer × ℕ → Except Error (List IpAddr)
  | (.malformed malformed, _) =>
    match malformed.intendedProtocol with
    | some intended => do
      Except.rejectIf (mayHideDestination intended)
        (.malformedMayHideDestination intended malformed.reason)
      return destinations
    | none => .ok destinations
  | (.ipv4 header, index) => do
    return pushPath destinations (← ipPathAt packet index packet.length (.v4 header))
  | (.ipv6 header, index) => do
    return pushPath destinations (← ipPathAt packet index packet.length (.v6 header))
  | (.arp message, _) => .ok (pushIfSpecified destinations (.v4 message.targetProtocol))
  | (.ipv6Srh _, index) => do
    requireSrhAttachedToIpv6 packet index
    return destinations
  | (.foreign layer, _) =>
    match routeFields.find? (declaresField layer) with
    | some field => .error (.unknownProtocolRouteField layer.protocol field)
    | none => .ok destinations
  | _ => .ok destinations

def liveDestinations (packet : Packet) : Except Error (List IpAddr) :=
  packet.zipIdx.foldlM (liveLayer packet) []

/-! ### What steers a packet -/

/-- The options hold a loose or strict source route with the address in it. Options stand one after
another: a no-operation is one byte, any other option carries its length, and an end of the list
ends them. -/
inductive SourceRouteAddress : Bytes → Ipv4Addr → Prop
  | here {kind : UInt8} (length pointer a b c d : UInt8) (before after : Bytes) :
      kind = 131 ∨ kind = 137 → 4 ∣ before.length → before.length + 7 ≤ length.toNat →
      SourceRouteAddress (kind :: length :: pointer :: (before ++ a :: b :: c :: d :: after))
        (.ofOctets a b c d)
  | noOperation {options : Bytes} {address : Ipv4Addr} :
      SourceRouteAddress options address → SourceRouteAddress (1 :: options) address
  | later {kind : UInt8} (length : UInt8) (body : Bytes) {options : Bytes} {address : Ipv4Addr} :
      kind ≠ 0 → kind ≠ 1 → length.toNat = body.length + 2 →
      SourceRouteAddress options address →
      SourceRouteAddress (kind :: length :: (body ++ options)) address

/-- The address can determine where the packet, or a packet it carries, goes. -/
inductive Steers (packet : Packet) : IpAddr → Prop
  | ipv4 (header : Ipv4) : .ipv4 header ∈ packet → Steers packet (.v4 header.destination)
  | ipv6 (header : Ipv6) : .ipv6 header ∈ packet → Steers packet (.v6 header.destination)
  | sourceRoute (header : Ipv4) (address : Ipv4Addr) : .ipv4 header ∈ packet →
      SourceRouteAddress header.options address → Steers packet (.v4 address)
  | segment (header : SegmentRoutingHeader) (address : Ipv6Addr) : .ipv6Srh header ∈ packet →
      address ∈ header.segments → Steers packet (.v6 address)
  | arp (message : Arp) : .arp message ∈ packet → Steers packet (.v4 message.targetProtocol)

/-- The layers end in an IPv6 header and extension headers of it. -/
def EndsInChain (layers : List Layer) : Prop :=
  ∃ outer header chain, layers = outer ++ .ipv6 header :: chain ∧
    ∀ layer ∈ chain, Layer.isIpv6Extension layer

/-- The protocols whose bytes may hold an address that steers the packet: network headers, their
extension headers and ARP, the links below them, and the tunnels above them. -/
def carriers : List BuiltinProtocol :=
  [.ipv4, .ipv6, .ah, .ipv6DestinationOptions, .ipv6Fragment, .ipv6HopByHop, .ipv6Srh, .arp,
    .ethernet, .linuxSll, .linuxSll2, .bsdLoop, .bsdNull, .rawIp, .llc, .snap, .ppp, .pppoe, .vlan,
    .vlan8021ad, .mpls, .erspan, .etherip, .geneve, .gre, .gtpu, .l2tpv3, .udp, .vxlan]

/-- The code points that Unicode lists as white space. -/
def whiteSpace : List ℕ :=
  [0x9, 0xa, 0xb, 0xc, 0xd, 0x20, 0x85, 0xa0, 0x1680, 0x2000, 0x2001, 0x2002, 0x2003, 0x2004,
    0x2005, 0x2006, 0x2007, 0x2008, 0x2009, 0x200a, 0x2028, 0x2029, 0x202f, 0x205f, 0x3000]

/-- A text is the name or an alias of a protocol, white space around it and ASCII case apart. -/
def Names (text : String) (protocol : BuiltinProtocol) : Prop :=
  ∃ before name after : List Char, text.toList = before ++ (name ++ after) ∧
    (∀ c ∈ before ++ after, c.toNat ∈ whiteSpace) ∧
    ∃ known ∈ protocol.asStr :: protocol.aliases, name.map Char.toLower = known.toList

/-- It cannot be told where the packet goes. A Fragment header counts where it is an extension
header of an IPv6 header. -/
inductive Ambiguous (packet : Packet) : Prop
  | malformed (layer : Malformed) (intended : String) (protocol : BuiltinProtocol) :
      .malformed layer ∈ packet → layer.intendedProtocol = some intended →
      Names intended protocol → protocol ∈ carriers → Ambiguous packet
  | detachedSrh (before : List Layer) (srh : SegmentRoutingHeader) (after : List Layer) :
      packet = before ++ .ipv6Srh srh :: after → ¬ EndsInChain before → Ambiguous packet
  | repeatedSrh (before : List Layer) (first : SegmentRoutingHeader) (chain : List Layer)
      (second : SegmentRoutingHeader) (after : List Layer) :
      packet = before ++ .ipv6Srh first :: (chain ++ .ipv6Srh second :: after) →
      (∀ layer ∈ chain, Layer.isIpv6Extension layer) → Ambiguous packet
  | ipv4Fragment (header : Ipv4) : .ipv4 header ∈ packet →
      header.fragmentOffset ≠ 0 ∨ header.moreFragments → Ambiguous packet
  | ipv6Fragment (before : List Layer) (fragment : Fragment) (after : List Layer) :
      packet = before ++ .ipv6Fragment fragment :: after → EndsInChain before →
      fragment.fragmentOffset ≠ 0 ∨ fragment.moreFragments → Ambiguous packet

/-! ### Names -/

theorem isWhitespace_iff (c : Char) : isWhitespace c ↔ c.toNat ∈ whiteSpace := by
  simp only [isWhitespace, whiteSpace, Bool.or_eq_true, Bool.and_eq_true, decide_eq_true_eq,
    beq_iff_eq, mem_cons, not_mem_nil, or_false]
  omega

theorem toLower_of_isWhitespace {c : Char} (h : isWhitespace c) : c.toLower = c := by
  unfold Char.toLower
  split_ifs with hu
  · simp only [isWhitespace, Bool.or_eq_true, Bool.and_eq_true, decide_eq_true_eq, beq_iff_eq] at h
    have h₁ : 65 ≤ c.toNat := hu.1
    have h₂ : c.toNat ≤ 90 := hu.2
    omega
  · rfl

theorem dropWhile_isWhitespace {b n r : List Char} (hb : ∀ c ∈ b, isWhitespace c)
    (hn : ∀ c ∈ n, ¬ isWhitespace c) (hne : n ≠ []) :
    (b ++ (n ++ r)).dropWhile isWhitespace = n ++ r := by
  obtain ⟨c, n, rfl⟩ := exists_cons_of_ne_nil hne
  rw [dropWhile_append_of_pos hb, cons_append, dropWhile_cons_of_neg (hn c mem_cons_self)]

/-- What stands between white space is left of a text. -/
theorem trim_append {b n r : List Char} (hb : ∀ c ∈ b ++ r, isWhitespace c)
    (hn : ∀ c ∈ n, ¬ isWhitespace c) (hne : n ≠ []) : trim (b ++ (n ++ r)) = n := by
  rw [trim, dropWhile_isWhitespace (fun c hc => hb c (mem_append_left _ hc)) hn hne,
    reverse_append, ← append_nil n.reverse, dropWhile_isWhitespace, append_nil, reverse_reverse]
  · exact fun c hc => hb c (mem_append_right _ (mem_reverse.mp hc))
  · exact fun c hc => hn c (mem_reverse.mp hc)
  · exact reverse_ne_nil_iff.mpr hne

/-- The registry knows every carrier by its names. -/
theorem carriers_names : ∀ p ∈ carriers, malformedProtocolMayHideDestination p ∧
    ∀ known ∈ p.asStr :: p.aliases, BuiltinProtocol.fromNameOrAlias known = some p ∧
      known.toList ≠ [] ∧ known.toList.any isWhitespace = false := by
  decide +kernel

/-- A text that names a carrier may hide a destination. -/
theorem mayHideDestination_of_names {text : String} {p : BuiltinProtocol} (h : Names text p)
    (hp : p ∈ carriers) : mayHideDestination text := by
  obtain ⟨b, n, r, ht, hw, known, hk, hn⟩ := h
  obtain ⟨hm, hc⟩ := carriers_names p hp
  obtain ⟨hf, hne, hnw⟩ := hc known hk
  have hl : lookupName text = known := by
    rw [lookupName, ht, trim_append, hn, String.ofList_toList]
    · exact fun c hc => (isWhitespace_iff c).mpr (hw c hc)
    · intro c hc hcw
      have hmem := mem_map_of_mem (f := Char.toLower) hc
      rw [hn, toLower_of_isWhitespace hcw] at hmem
      exact any_eq_false.mp hnw c hmem hcw
    · rintro rfl
      exact hne hn.symm
  rw [mayHideDestination, hl, hf]
  exact hm

/-! ### Source routes -/

theorem mem_addresses (a b c d : UInt8) (after : Bytes) {before : Bytes} (h : 4 ∣ before.length) :
    Ipv4Addr.ofOctets a b c d ∈ addresses (before ++ a :: b :: c :: d :: after) := by
  induction before using addresses.induct with
  | case1 w x y z rest ih =>
    rw [cons_append, cons_append, cons_append, cons_append, addresses]
    refine mem_cons_of_mem _ (ih ?_)
    simp only [length_cons] at h
    omega
  | case2 before hs =>
    have hn : before = [] := by
      match before, hs, h with
      | [], _, _ => rfl
      | [_], _, h | [_, _], _, h | [_, _, _], _, h => simp at h
      | w :: x :: y :: z :: rest, hs, _ => exact absurd rfl (hs w x y z rest)
    subst hn
    exact mem_cons_self

section SourceRoutes

variable {options : Bytes} {cr : ℕ} {r r' : ParsedIpv4SourceRoutes}

variable {finish : ℕ} {o : UInt8} {address : Ipv4Addr}

section

variable (h : optionAt options cr o r = .ok (finish, r'))
include h

theorem optionAt_ok : ∃ length, options[cr + 1]? = some length ∧ 2 ≤ length.toNat ∧
      finish = cr + length.toNat ∧ finish ≤ options.length ∧
      (if isSourceRoute o then
        r'.declared = r.declared ++ addresses ((options.take finish).drop (cr + 3))
      else r' = r) := by
  obtain ⟨n, hl, h⟩ := bind_eq_ok.mp h
  obtain ⟨length, hb, rfl⟩ := Option.map_eq_some_iff.mp (okOr_eq_ok.mp hl)
  obtain ⟨ht, h⟩ := rejectIf_bind_eq_ok.mp h
  obtain ⟨hend, h⟩ := rejectIf_bind_eq_ok.mp h
  obtain ⟨found, hf, h⟩ := bind_eq_ok.mp h
  cases h
  refine ⟨length, hb, by omega, rfl, by omega, ?_⟩
  unfold routesWith at hf
  split_ifs at hf ⊢ with hr
  · obtain ⟨-, hf⟩ := rejectIf_bind_eq_ok.mp hf
    obtain ⟨-, hf⟩ := rejectIf_bind_eq_ok.mp hf
    cases hf
    rfl
  · cases hf
    rfl

theorem declared_subset_of_optionAt : r.declared ⊆ r'.declared := by
  obtain ⟨-, -, -, -, -, hr⟩ := optionAt_ok h
  split_ifs at hr
  · rw [hr]
    exact subset_append_left _ _
  · rw [hr]
    exact List.Subset.refl _

end

/-- The loop only adds to the routes. -/
theorem declared_subset_of_sourceRoutesFrom {turns : ℕ}
    (h : sourceRoutesFrom options turns cr r = .ok r') :
    r.declared ⊆ r'.declared := by
  induction turns generalizing cr r with
  | zero =>
    cases h
    exact List.Subset.refl _
  | succ turns ih =>
    rw [sourceRoutesFrom] at h
    split at h
    · cases h
      exact List.Subset.refl _
    · split_ifs at h with hend hn
      · cases h
        exact List.Subset.refl _
      · exact ih h
      · obtain ⟨⟨finish, found⟩, ho, h⟩ := bind_eq_ok.mp h
        exact List.Subset.trans (declared_subset_of_optionAt ho) (ih h)

theorem exists_turn {turns : ℕ} {kind : UInt8} {rest : Bytes} (hr : options.drop cr = kind :: rest)
    (ht : (kind :: rest).length ≤ turns) : ∃ n, turns = n + 1 ∧ options[cr]? = some kind := by
  rw [length_cons] at ht
  refine ⟨turns - 1, by omega, ?_⟩
  rw [← head?_drop, hr]
  rfl

/-- The loop finds every address of a source route that stands at the cursor or later. -/
theorem mem_declared_of_sourceRoutesFrom {turns : ℕ} {rest : Bytes}
    (hrt : SourceRouteAddress rest address) (hr : options.drop cr = rest)
    (ht : rest.length ≤ turns)
    (h : sourceRoutesFrom options turns cr r = .ok r') :
    address ∈ r'.declared := by
  -- Along the options: the cursor stands before the option that the derivation is at.
  induction hrt generalizing turns cr r with
  | @here kind length p a b c d before after hkn hbf hl =>
    obtain ⟨turns, rfl, hc⟩ := exists_turn hr ht
    rw [sourceRoutesFrom, hc] at h
    have hne : kind ≠ 0 ∧ kind ≠ 1 ∧ isSourceRoute kind := by
      rcases hkn with rfl | rfl <;> decide
    dsimp only at h
    rw [if_neg hne.1, if_neg hne.2.1] at h
    obtain ⟨⟨finish, found⟩, ho, h⟩ := bind_eq_ok.mp h
    apply declared_subset_of_sourceRoutesFrom h
    obtain ⟨length', hb, -, rfl, hend, hf⟩ := optionAt_ok ho
    rw [← getElem?_drop, hr] at hb
    obtain rfl : length = length' := Option.some.inj hb
    rw [if_pos hne.2.2] at hf
    rw [hf, mem_append]
    right
    have hbd : (options.take (cr + length.toNat)).drop (cr + 3) =
        (before ++ a :: b :: c :: d :: after).take (length.toNat - 3) := by
      rw [drop_take, ← drop_drop, hr]
      have hs : cr + length.toNat - (cr + 3) = length.toNat - 3 := by omega
      rw [hs]
      rfl
    have hsp : (before ++ a :: b :: c :: d :: after).take (length.toNat - 3) =
        before ++ a :: b :: c :: d :: after.take (length.toNat - 3 - before.length - 4) := by
      obtain ⟨k, hk⟩ : ∃ k, length.toNat - 3 = before.length + (k + 4) :=
        ⟨length.toNat - 7 - before.length, by omega⟩
      rw [hk, take_length_add_append]
      have hs : before.length + (k + 4) - before.length - 4 = k := by omega
      rw [hs]
      rfl
    rw [hbd, hsp]
    exact mem_addresses a b c d _ hbf
  | @noOperation rest address hrt ih =>
    obtain ⟨turns, rfl, hc⟩ := exists_turn hr ht
    rw [sourceRoutesFrom, hc] at h
    refine ih ?_ ?_ h
    · rw [← drop_drop, hr]
      rfl
    · simpa using ht
  | @later kind length body rest address hz hone hl hrt ih =>
    obtain ⟨turns, rfl, hc⟩ := exists_turn hr ht
    rw [sourceRoutesFrom, hc] at h
    dsimp only at h
    rw [if_neg hz, if_neg hone] at h
    obtain ⟨⟨finish, found⟩, ho, h⟩ := bind_eq_ok.mp h
    obtain ⟨length', hb, -, rfl, hend, -⟩ := optionAt_ok ho
    rw [← getElem?_drop, hr] at hb
    obtain rfl : length = length' := Option.some.inj hb
    refine ih ?_ ?_ h
    · rw [← drop_drop, hr, hl]
      exact drop_left
    · simp only [length_cons, length_append] at ht
      omega

/-- No address of a source route is passed over. -/
theorem parseIpv4SourceRoutes_declared (h : parseIpv4SourceRoutes options = .ok r)
    (hr : SourceRouteAddress options address) : address ∈ r.declared := by
  obtain ⟨-, h⟩ := rejectIf_bind_eq_ok.mp h
  exact mem_declared_of_sourceRoutesFrom hr drop_zero (Nat.le_refl _) h

end SourceRoutes

/-! ### Extension chains -/

section Chains

variable {d : Ipv6Addr} {rt rt' : Option SegmentRoute} {l : Layer}
  {c rest : List Layer}

variable {found : SegmentRoute} {srh : SegmentRoutingHeader} {fragment : Fragment}

theorem validateSegmentRoute_segments {s : List Ipv6Addr} {left last flags : UInt8}
    (h : validateSegmentRoute d s left last flags = .ok found) :
    found.segments = s := by
  obtain ⟨f, -, h⟩ := bind_eq_ok.mp h
  obtain ⟨-, h⟩ := rejectIf_bind_eq_ok.mp h
  obtain ⟨-, h⟩ := rejectIf_bind_eq_ok.mp h
  obtain ⟨-, h⟩ := rejectIf_bind_eq_ok.mp h
  obtain ⟨a, -, h⟩ := bind_eq_ok.mp h
  obtain ⟨-, h⟩ := rejectIf_bind_eq_ok.mp h
  cases h
  rfl

theorem typedSegmentRoute_segments {p : String} (h : typedSegmentRoute p srh d = .ok found) :
    found.segments = srh.segments := by
  obtain ⟨-, h⟩ := rejectIf_bind_eq_ok.mp h
  obtain ⟨-, h⟩ := rejectIf_bind_eq_ok.mp h
  obtain ⟨left, -, h⟩ := bind_eq_ok.mp h
  obtain ⟨last, -, h⟩ := bind_eq_ok.mp h
  exact validateSegmentRoute_segments h

theorem extensionRoute_srh (h : extensionRoute d rt (.ipv6Srh srh) = .ok rt') :
    rt = none ∧ ∃ found, rt' = some found ∧ found.segments = srh.segments := by
  obtain ⟨hn, h⟩ := rejectIf_bind_eq_ok.mp h
  obtain ⟨found, hf, h⟩ := bind_eq_ok.mp h
  cases h
  exact ⟨Option.not_isSome_iff_eq_none.mp hn, found, rfl, typedSegmentRoute_segments hf⟩

theorem extensionRoute_some (h : extensionRoute d (some found) l = .ok rt') : rt' = some found := by
  cases l with
  | ipv6Srh srh => exact absurd (extensionRoute_srh h).1 (by simp)
  | ipv6Fragment fragment =>
    obtain ⟨-, h⟩ := rejectIf_bind_eq_ok.mp h
    cases h
    rfl
  | _ =>
    cases h
    rfl

theorem chainRoute_cons (hl : l.isIpv6Extension) (h : chainRoute d rt (l :: rest) = .ok rt') :
    ∃ next, extensionRoute d rt l = .ok next ∧ chainRoute d next rest = .ok rt' := by
  rw [chainRoute, if_pos hl] at h
  exact bind_eq_ok.mp h

/-- The walk along a chain passes the extension headers that stand first, and keeps a segment route
that it had found. -/
theorem chainRoute_append (hch : ∀ l ∈ c, Layer.isIpv6Extension l)
    (h : chainRoute d rt (c ++ rest) = .ok rt') :
    ∃ next, chainRoute d next rest = .ok rt' ∧ ∀ found, rt = some found → next = some found := by
  induction c generalizing rt with
  | nil => exact ⟨rt, h, fun _ hf => hf⟩
  | cons l c ih =>
    obtain ⟨hl, hch⟩ := forall_mem_cons.mp hch
    obtain ⟨mid, hm, h⟩ := chainRoute_cons hl h
    obtain ⟨next, hn, hk⟩ := ih hch h
    refine ⟨next, hn, ?_⟩
    rintro found rfl
    exact hk found (extensionRoute_some hm)

theorem chainRoute_some (h : chainRoute d (some found) rest = .ok rt') : rt' = some found := by
  induction rest with
  | nil =>
    cases h
    rfl
  | cons l rest ih =>
    by_cases hl : l.isIpv6Extension
    · obtain ⟨next, hn, h⟩ := chainRoute_cons hl h
      rw [extensionRoute_some hn] at h
      exact ih h
    · rw [chainRoute, if_neg hl] at h
      cases h
      rfl

variable (hch : ∀ l ∈ c, Layer.isIpv6Extension l)
include hch

/-- The route of a chain with a segment-routing header has that header's segments. -/
theorem chainRoute_srh (h : chainRoute d rt (c ++ .ipv6Srh srh :: rest) = .ok rt') :
    ∃ found, rt' = some found ∧ found.segments = srh.segments := by
  obtain ⟨next, h, -⟩ := chainRoute_append hch h
  obtain ⟨after, ha, h⟩ := chainRoute_cons rfl h
  obtain ⟨-, found, rfl, hs⟩ := extensionRoute_srh ha
  exact ⟨found, chainRoute_some h, hs⟩

theorem chainRoute_fragment (h : chainRoute d rt (c ++ .ipv6Fragment fragment :: rest) = .ok rt') :
    ¬ (fragment.fragmentOffset ≠ 0 ∨ fragment.moreFragments) := by
  obtain ⟨next, h, -⟩ := chainRoute_append hch h
  obtain ⟨after, ha, -⟩ := chainRoute_cons rfl h
  exact (rejectIf_bind_eq_ok.mp ha).1

/-- No chain with two segment-routing headers has a route. -/
theorem chainRoute_repeated {first s : SegmentRoutingHeader} {between : List Layer}
    (hb : ∀ l ∈ between, Layer.isIpv6Extension l) :
    chainRoute d rt (c ++ .ipv6Srh first :: (between ++ .ipv6Srh s :: rest)) ≠ .ok rt' := by
  intro h
  obtain ⟨next, h, -⟩ := chainRoute_append hch h
  obtain ⟨after, ha, h⟩ := chainRoute_cons rfl h
  obtain ⟨-, found, rfl, -⟩ := extensionRoute_srh ha
  obtain ⟨last, h, hk⟩ := chainRoute_append hb h
  obtain ⟨_, hl, -⟩ := chainRoute_cons rfl h
  rw [hk found rfl] at hl
  exact absurd (extensionRoute_srh hl).1 (by simp)

end Chains

/-! ### The walk over the layers -/

section Walk

variable {packet : Packet} {ds f : List IpAddr} {address : IpAddr}

theorem subset_pushIfSpecified (ds : List IpAddr) (address : IpAddr) :
    ds ⊆ pushIfSpecified ds address := by
  unfold pushIfSpecified
  split_ifs
  · exact List.Subset.refl _
  · exact subset_append_left _ _

theorem mem_pushIfSpecified (hs : ¬ address.isUnspecified) :
    address ∈ pushIfSpecified ds address := by
  unfold pushIfSpecified
  split_ifs with h
  · exact h.resolve_left hs
  · exact mem_append_right _ (mem_singleton_self _)

theorem subset_foldl_pushIfSpecified (l : List IpAddr) : ds ⊆ l.foldl pushIfSpecified ds := by
  induction l generalizing ds with
  | nil => exact List.Subset.refl _
  | cons a l ih => exact List.Subset.trans (subset_pushIfSpecified ds a) ih

theorem mem_foldl_pushIfSpecified {l : List IpAddr} (hmem : address ∈ l)
    (hs : ¬ address.isUnspecified) : address ∈ l.foldl pushIfSpecified ds := by
  induction l generalizing ds with
  | nil => cases hmem
  | cons a l ih =>
    rcases mem_cons.mp hmem with rfl | hmem
    · exact subset_foldl_pushIfSpecified l (mem_pushIfSpecified hs)
    · exact ih hmem

theorem subset_pushPath (ds : List IpAddr) (path : IpPath) : ds ⊆ pushPath ds path :=
  List.Subset.trans (subset_pushIfSpecified ds _) (subset_foldl_pushIfSpecified _)

theorem mem_pushPath {path : IpPath} (hs : ¬ address.isUnspecified)
    (hmem : address = path.headerDestination ∨ address ∈ path.declaredRouteDestinations) :
    address ∈ pushPath ds path := by
  rcases hmem with rfl | hmem
  · exact subset_foldl_pushIfSpecified _ (mem_pushIfSpecified hs)
  · exact mem_foldl_pushIfSpecified hmem hs

theorem subset_of_liveLayer {e : Layer × ℕ} (h : liveLayer packet ds e = .ok f) : ds ⊆ f := by
  obtain ⟨layer, index⟩ := e
  cases layer with
  | malformed malformed =>
    rw [liveLayer] at h
    split at h
    · obtain ⟨-, h⟩ := rejectIf_bind_eq_ok.mp h
      cases h
      exact List.Subset.refl _
    · cases h
      exact List.Subset.refl _
  | ipv4 header | ipv6 header =>
    obtain ⟨path, -, h⟩ := bind_eq_ok.mp h
    cases h
    exact subset_pushPath _ _
  | arp message =>
    cases h
    exact subset_pushIfSpecified _ _
  | ipv6Srh srh =>
    obtain ⟨-, -, h⟩ := bind_eq_ok.mp h
    cases h
    exact List.Subset.refl _
  | foreign layer =>
    rw [liveLayer] at h
    split at h
    · cases h
    · cases h
      exact List.Subset.refl _
  | _ =>
    cases h
    exact List.Subset.refl _

variable {before after : List Layer}

/-- Every layer of a packet with known destinations had its turn. -/
theorem liveLayer_of_liveDestinations {layer : Layer}
    (h : liveDestinations (before ++ layer :: after) = .ok f) :
    ∃ start next, liveLayer (before ++ layer :: after) start (layer, before.length) = .ok next ∧
      next ⊆ f := by
  refine foldlM_eq_ok_of_mem (fun s s' => s ⊆ s') List.Subset.refl
    (fun _ _ _ => List.Subset.trans) (fun _ _ _ => subset_of_liveLayer) h ?_
  rw [zipIdx_append, zipIdx_cons, Nat.zero_add]
  exact mem_append_right _ mem_cons_self

theorem liveLayer_of_mem {layer : Layer} (hmem : layer ∈ packet)
    (h : liveDestinations packet = .ok f) :
    ∃ start index next, liveLayer packet start (layer, index) = .ok next ∧ next ⊆ f := by
  obtain ⟨before, after, rfl⟩ := append_of_mem hmem
  obtain ⟨start, next, hs, hsub⟩ := liveLayer_of_liveDestinations h
  exact ⟨start, before.length, next, hs, hsub⟩

/-- An IPv6 header in a packet with known destinations has a path, along the route of the layers
behind it. -/
theorem chainRoute_of_liveDestinations {o rest : List Layer} {header : Ipv6}
    (h : liveDestinations (o ++ .ipv6 header :: rest) = .ok f) :
    ∃ route, chainRoute header.destination none rest = .ok route ∧
      ∀ address ∈ (routedPath header route).declaredRouteDestinations,
        ¬ address.isUnspecified → address ∈ f := by
  obtain ⟨start, next, hs, hsub⟩ := liveLayer_of_liveDestinations h
  obtain ⟨path, hp, hs⟩ := bind_eq_ok.mp hs
  cases hs
  obtain ⟨route, hr, hp⟩ := bind_eq_ok.mp hp
  cases hp
  rw [take_length, drop_length_add_append] at hr
  exact ⟨route, hr, fun address hmem hsp =>
    hsub (mem_pushPath hsp (.inr hmem))⟩

/-- A segment-routing header in a packet with known destinations belongs to an IPv6 header. -/
theorem endsInChain_of_liveDestinations {srh : SegmentRoutingHeader}
    (h : liveDestinations (before ++ .ipv6Srh srh :: after) = .ok f) : EndsInChain before := by
  obtain ⟨start, next, hs, -⟩ := liveLayer_of_liveDestinations h
  obtain ⟨_, ha, -⟩ := bind_eq_ok.mp hs
  unfold requireSrhAttachedToIpv6 at ha
  rw [take_left] at ha
  split at ha
  · rename_i layer hf
    have hi6 := rejectIf_eq_ok.mp ha
    obtain ⟨-, chain, outer, hsp, hch⟩ := find?_eq_some_iff_append.mp hf
    obtain ⟨header, rfl⟩ : ∃ header, layer = .ipv6 header := by
      cases layer with
      | ipv6 header => exact ⟨header, rfl⟩
      | plain p =>
        obtain ⟨p, hp⟩ := p
        cases p <;> first | exact absurd hp (by decide) | exact absurd rfl hi6
      | _ => exact absurd rfl hi6
    refine ⟨outer.reverse, header, chain.reverse, ?_, ?_⟩
    · rw [← reverse_reverse before, hsp, reverse_append, reverse_cons, append_assoc]
      rfl
    · intro layer hmem
      simpa using hch layer (mem_reverse.mp hmem)
  · cases ha

/-- The walk finds every specified address that steers the packet. -/
theorem mem_liveDestinations (h : liveDestinations packet = .ok f)
    (hst : Steers packet address) (hsp : ¬ address.isUnspecified) :
    address ∈ f := by
  cases hst with
  | ipv4 header hmem =>
    obtain ⟨start, index, next, hs, hsub⟩ := liveLayer_of_mem hmem h
    obtain ⟨path, hp, hs⟩ := bind_eq_ok.mp hs
    cases hs
    refine hsub (mem_pushPath hsp (.inl ?_))
    obtain ⟨-, hp⟩ := rejectIf_bind_eq_ok.mp hp
    obtain ⟨routes, -, hp⟩ := bind_eq_ok.mp hp
    cases hp
    rfl
  | ipv6 header hmem =>
    obtain ⟨start, index, next, hs, hsub⟩ := liveLayer_of_mem hmem h
    obtain ⟨path, hp, hs⟩ := bind_eq_ok.mp hs
    cases hs
    refine hsub (mem_pushPath hsp (.inl ?_))
    obtain ⟨route, -, hp⟩ := bind_eq_ok.mp hp
    cases hp
    cases route <;> rfl
  | sourceRoute header address hmem hr =>
    obtain ⟨start, index, next, hs, hsub⟩ := liveLayer_of_mem hmem h
    obtain ⟨path, hp, hs⟩ := bind_eq_ok.mp hs
    cases hs
    refine hsub (mem_pushPath hsp (.inr ?_))
    obtain ⟨-, hp⟩ := rejectIf_bind_eq_ok.mp hp
    obtain ⟨routes, hrs, hp⟩ := bind_eq_ok.mp hp
    cases hp
    exact mem_map_of_mem (parseIpv4SourceRoutes_declared hrs hr)
  | segment srh address hmem hsm =>
    -- The header belongs to an IPv6 header, whose path declares its segments.
    obtain ⟨before, after, rfl⟩ := append_of_mem hmem
    obtain ⟨o, header, chain, rfl, hch⟩ := endsInChain_of_liveDestinations h
    rw [append_assoc, cons_append] at h
    obtain ⟨route, hr, hf⟩ := chainRoute_of_liveDestinations h
    obtain ⟨s, rfl, hsg⟩ := chainRoute_srh hch hr
    refine hf _ (mem_map_of_mem ?_) hsp
    rwa [hsg]
  | arp message hmem =>
    obtain ⟨start, index, next, hs, hsub⟩ := liveLayer_of_mem hmem h
    cases hs
    exact hsub (mem_pushIfSpecified hsp)

/-- The walk refuses a packet that leaves open where it goes. -/
theorem not_ambiguous_of_liveDestinations (h : liveDestinations packet = .ok f) :
    ¬ Ambiguous packet := by
  rintro (⟨layer, intended, protocol, hmem, hi, hn, hc⟩ |
    ⟨before, srh, after, rfl, hd⟩ | ⟨before, first, between, second, after, rfl, hb⟩ |
    ⟨header, hmem, hf⟩ | ⟨before, fragment, after, rfl, hch, hf⟩)
  · obtain ⟨start, index, next, hs, -⟩ := liveLayer_of_mem hmem h
    rw [liveLayer, hi] at hs
    exact (rejectIf_bind_eq_ok.mp hs).1 (mayHideDestination_of_names hn hc)
  · exact hd (endsInChain_of_liveDestinations h)
  · obtain ⟨o, header, chain, rfl, hch⟩ := endsInChain_of_liveDestinations h
    rw [append_assoc, cons_append] at h
    obtain ⟨route, hr, -⟩ := chainRoute_of_liveDestinations h
    exact chainRoute_repeated hch hb hr
  · obtain ⟨start, index, next, hs, -⟩ := liveLayer_of_mem hmem h
    obtain ⟨path, hp, -⟩ := bind_eq_ok.mp hs
    exact (rejectIf_bind_eq_ok.mp hp).1 hf
  · obtain ⟨o, header, chain, rfl, hch⟩ := hch
    rw [append_assoc, cons_append] at h
    obtain ⟨route, hr, -⟩ := chainRoute_of_liveDestinations h
    exact chainRoute_fragment hch hr hf

end Walk

end Semantics

end PacketCraftr
