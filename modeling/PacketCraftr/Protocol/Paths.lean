import PacketCraftr.Foundation.Outcome
import PacketCraftr.Protocol.Layers

/-!
# The path an IP header gives a packet

The route semantics of `protocol/semantics`: the source-route options of an IPv4 header, the
segment-routing header in the extension chain of an IPv6 header, and the path that both give. A
header whose route cannot be told is an error and never a path without the route.
-/

open Except

namespace PacketCraftr

namespace Semantics

/-- What a field of a layer must be. -/
inductive Constraint
  | nonEmptySegments
  | atMost256Segments
  | oneByte
  deriving DecidableEq, Repr

/-- Why the route of a packet is ambiguous or cannot be told. -/
inductive Error
  | field (protocol field : String) (reason : Constraint)
  | nonAtomicFragment (protocol : String)
  | malformedMayHideDestination (protocol reason : String)
  | unknownProtocolRouteField (protocol field : String)
  | duplicateSegmentRoutingHeader
  | detachedSegmentRoutingHeader
  | segmentCount
  | segmentLastEntry (lastEntry expected : UInt8)
  | segmentsLeft (segmentsLeft lastEntry : UInt8)
  | segmentFlags
  | reducedSegmentDestination
  | segmentDestinationMismatch (header active : Ipv6Addr)
  | ipv4OptionsTooLong
  | ipv4OptionMissingLength
  | ipv4OptionLength (option : UInt8) (length : ℕ)
  | ipv4OptionTruncated (option : UInt8)
  | ipv4SourceRouteLength (option : UInt8) (length : ℕ)
  | ipv4SourceRoutePointer (option : UInt8) (pointer : ℕ)
  deriving DecidableEq, Repr

/-! ### Source routes in IPv4 options -/

structure ParsedIpv4SourceRoutes where
  declared : List Ipv4Addr
  remaining : List Ipv4Addr
  deriving DecidableEq, Repr

def ParsedIpv4SourceRoutes.finalDestination (routes : ParsedIpv4SourceRoutes)
    (headerDestination : Ipv4Addr) : Ipv4Addr :=
  routes.remaining.getLast?.getD headerDestination

/-- The addresses of a string of bytes, a last incomplete one left out. -/
def addresses : Bytes → List Ipv4Addr
  | a :: b :: c :: d :: rest => .ofOctets a b c d :: addresses rest
  | _ => []

/-- Loose and strict source route. -/
def isSourceRoute (option : UInt8) : Bool := option == 131 || option == 137

/-- What a source-route option that ends before `finish` adds to the routes. -/
def sourceRoute (options : Bytes) (cursor length finish : ℕ) (option : UInt8)
    (routes : ParsedIpv4SourceRoutes) : Except Error ParsedIpv4SourceRoutes := do
  rejectIf (length < 3 ∨ (length - 3) % 4 ≠ 0) (.ipv4SourceRouteLength option length)
  let pointer := (options[cursor + 2]?.getD 0).toNat
  rejectIf (pointer < 4 ∨ pointer > length + 1 ∨ (pointer - 4) % 4 ≠ 0)
    (.ipv4SourceRoutePointer option pointer)
  return {
    declared := routes.declared ++ addresses ((options.take finish).drop (cursor + 3))
    remaining := routes.remaining ++ addresses ((options.take finish).drop (cursor + pointer - 1)) }

/-- The routes with an option that ends before `finish`. -/
def routesWith (options : Bytes) (cursor length finish : ℕ) (option : UInt8)
    (routes : ParsedIpv4SourceRoutes) : Except Error ParsedIpv4SourceRoutes :=
  if isSourceRoute option then sourceRoute options cursor length finish option routes
  else .ok routes

/-- The option of a kind other than end and no-operation at the cursor: where it ends, and the
routes with it. -/
def optionAt (options : Bytes) (cursor : ℕ) (option : UInt8) (routes : ParsedIpv4SourceRoutes) :
    Except Error (ℕ × ParsedIpv4SourceRoutes) := do
  let length ← okOr (options[cursor + 1]?.map UInt8.toNat) .ipv4OptionMissingLength
  rejectIf (length < 2) (.ipv4OptionLength option length)
  rejectIf (options.length < cursor + length) (.ipv4OptionTruncated option)
  return (cursor + length, ← routesWith options cursor length (cursor + length) option routes)

/-- The loop over the options. Each turn moves the cursor, so that it takes at most as many turns as
there are bytes. -/
def sourceRoutesFrom (options : Bytes) :
    ℕ → ℕ → ParsedIpv4SourceRoutes → Except Error ParsedIpv4SourceRoutes
  | 0, _, routes => .ok routes
  | turns + 1, cursor, routes =>
    match options[cursor]? with
    | none => .ok routes
    | some kind =>
      if kind = 0 then .ok routes
      else if kind = 1 then sourceRoutesFrom options turns (cursor + 1) routes
      else do
        let (cursor, routes) ← optionAt options cursor kind routes
        sourceRoutesFrom options turns cursor routes

def parseIpv4SourceRoutes (options : Bytes) : Except Error ParsedIpv4SourceRoutes := do
  rejectIf (options.length > 40) .ipv4OptionsTooLong
  sourceRoutesFrom options options.length 0 ⟨[], []⟩

/-! ### Segment routing -/

structure SegmentRoute where
  activeDestination : Ipv6Addr
  finalDestination : Ipv6Addr
  segments : List Ipv6Addr
  /-- The index of the active segment, unless the reduced form leaves it out. -/
  activeIndex : Option ℕ
  deriving DecidableEq, Repr

/-- The destination that is active with an active segment at the index, or with none. -/
def activeDestination (headerDestination : Ipv6Addr) (segments : List Ipv6Addr) :
    Option ℕ → Except Error Ipv6Addr
  | some index => okOr segments[index]? .segmentCount
  | none => do
    rejectIf (headerDestination = 0) .reducedSegmentDestination
    return headerDestination

def validateSegmentRoute (headerDestination : Ipv6Addr) (segments : List Ipv6Addr)
    (segmentsLeft lastEntry flags : UInt8) : Except Error SegmentRoute := do
  let finalDestination ←
    okOr (segments.getLast?.filter fun _ => segments.length ≤ 127) .segmentCount
  let expectedLast := UInt8.ofNat (segments.length - 1)
  rejectIf (lastEntry ≠ expectedLast) (.segmentLastEntry lastEntry expectedLast)
  rejectIf (segmentsLeft.toNat > lastEntry.toNat + 1)
    (.segmentsLeft segmentsLeft lastEntry)
  rejectIf (flags ≠ 0) .segmentFlags
  let activeIndex :=
    if segmentsLeft ≤ lastEntry then some (lastEntry - segmentsLeft).toNat else none
  let active ← activeDestination headerDestination segments activeIndex
  rejectIf (headerDestination ≠ 0 ∧ headerDestination ≠ active)
    (.segmentDestinationMismatch headerDestination active)
  return ⟨active, finalDestination, segments, activeIndex⟩

def wireU8 (protocol field : String) (value : WireValue UInt8) (automatic : UInt8) :
    Except Error UInt8 :=
  match value with
  | .auto => .ok automatic
  | .exact value => .ok value
  | .raw [byte] => .ok byte
  | .raw _ => .error (.field protocol field .oneByte)

def typedSegmentRoute (protocol : String) (srh : SegmentRoutingHeader)
    (headerDestination : Ipv6Addr) : Except Error SegmentRoute := do
  rejectIf (srh.segments = []) (.field protocol "segments" .nonEmptySegments)
  rejectIf (srh.segments.length - 1 > 255) (.field protocol "segments" .atMost256Segments)
  let expectedLast := UInt8.ofNat (srh.segments.length - 1)
  let segmentsLeft ← wireU8 protocol "segments_left" srh.segmentsLeft expectedLast
  let lastEntry ← wireU8 protocol "last_entry" srh.lastEntry expectedLast
  validateSegmentRoute headerDestination srh.segments segmentsLeft lastEntry srh.flags

/-! ### Paths -/

structure IpPath where
  source : IpAddr
  headerDestination : IpAddr
  activeDestination : IpAddr
  finalDestination : IpAddr
  /-- The destinations still ahead, the active one included. -/
  visitedDestinations : List IpAddr
  declaredRouteDestinations : List IpAddr
  deriving DecidableEq, Repr

inductive NetworkHeader
  | v4 (header : Ipv4)
  | v6 (header : Ipv6)
  deriving DecidableEq, Repr

def rejectNonAtomicFragment (protocol : String) (fragmentOffset : UInt16) (moreFragments : Bool) :
    Except Error Unit :=
  rejectIf (fragmentOffset ≠ 0 ∨ moreFragments) (.nonAtomicFragment protocol)

def ipv4Path (header : Ipv4) : Except Error IpPath := do
  rejectNonAtomicFragment BuiltinProtocol.ipv4.asStr header.fragmentOffset header.moreFragments
  let sourceRoute ← parseIpv4SourceRoutes header.options
  let headerDestination := IpAddr.v4 header.destination
  return {
    source := .v4 header.source
    headerDestination
    activeDestination := headerDestination
    finalDestination := .v4 (sourceRoute.finalDestination header.destination)
    visitedDestinations := headerDestination :: sourceRoute.remaining.map .v4
    declaredRouteDestinations := sourceRoute.declared.map .v4 }

/-- What a layer of the extension chain adds to the segment route found so far. -/
def extensionRoute (headerDestination : Ipv6Addr) (route : Option SegmentRoute) :
    Layer → Except Error (Option SegmentRoute)
  | .ipv6Fragment fragment => do
    rejectNonAtomicFragment BuiltinProtocol.ipv6Fragment.asStr fragment.fragmentOffset
      fragment.moreFragments
    return route
  | .ipv6Srh srh => do
    rejectIf route.isSome .duplicateSegmentRoutingHeader
    return some (← typedSegmentRoute BuiltinProtocol.ipv6Srh.asStr srh headerDestination)
  | _ => .ok route

/-- The segment route of the extension chain that the layers begin with. -/
def chainRoute (headerDestination : Ipv6Addr) :
    Option SegmentRoute → List Layer → Except Error (Option SegmentRoute)
  | route, [] => .ok route
  | route, layer :: rest =>
    if layer.isIpv6Extension then do
      chainRoute headerDestination (← extensionRoute headerDestination route layer) rest
    else .ok route

/-- The path along a segment route, or straight to the header's destination. -/
def routedPath (header : Ipv6) : Option SegmentRoute → IpPath
  | none =>
    { source := .v6 header.source
      headerDestination := .v6 header.destination
      activeDestination := .v6 header.destination
      finalDestination := .v6 header.destination
      visitedDestinations := [.v6 header.destination]
      declaredRouteDestinations := [] }
  | some route =>
    let ahead := (route.segments.drop (route.activeIndex.getD 0)).map IpAddr.v6
    { source := .v6 header.source
      headerDestination := .v6 header.destination
      activeDestination := .v6 route.activeDestination
      finalDestination := .v6 route.finalDestination
      visitedDestinations :=
        if route.activeIndex.isNone then .v6 route.activeDestination :: ahead else ahead
      declaredRouteDestinations := route.segments.map .v6 }

def ipv6Path (packet : Packet) (networkIndex upperBound : ℕ) (header : Ipv6) :
    Except Error IpPath := do
  let route ←
    chainRoute header.destination none ((packet.take upperBound).drop (networkIndex + 1))
  return routedPath header route

def ipPathAt (packet : Packet) (networkIndex upperBound : ℕ) :
    NetworkHeader → Except Error IpPath
  | .v4 header => ipv4Path header
  | .v6 header => ipv6Path packet networkIndex upperBound header

end Semantics

end PacketCraftr
