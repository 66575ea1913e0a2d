import PacketCraftr.Analysis.Expiry
import PacketCraftr.Foundation.Wire
import Mathlib.Data.List.Lex

/-!
# IP reassembly: keys, fragments, outcomes, errors and limits

The types of `analysis/reassembly/ip/model.rs`, the congestion markings of
`analysis/reassembly/ip.rs` and the limits of `analysis/reassembly/ip/limits.rs`. Addresses are
strings of 4 and 16 octets; keys are ordered as the source derives their order, by family and then
field by field.
-/

namespace PacketCraftr.Ip

inductive Family
  | ipv4
  | ipv6
  deriving DecidableEq, Repr

/-! ### Keys -/

/-- A string of exactly `n` octets. -/
abbrev Octets (n : ℕ) := { octets : Bytes // octets.length = n }

structure Ipv4DatagramKey where
  scope : ℕ
  source : Octets 4
  destination : Octets 4
  identification : ℕ
  protocol : UInt8
  deriving DecidableEq, Repr

structure Ipv6DatagramKey where
  scope : ℕ
  source : Octets 16
  destination : Octets 16
  identification : ℕ
  deriving DecidableEq, Repr

inductive DatagramKey
  | ipv4 (key : Ipv4DatagramKey)
  | ipv6 (key : Ipv6DatagramKey)
  deriving DecidableEq, Repr

namespace DatagramKey

def family : DatagramKey → Family
  | .ipv4 _ => .ipv4
  | .ipv6 _ => .ipv6

/-- The fields of a key in the order they are compared: the family comes first. -/
def fields : DatagramKey → ℕ ×ₗ ℕ ×ₗ List ℕ ×ₗ List ℕ ×ₗ ℕ ×ₗ ℕ
  | .ipv4 k => toLex (0, toLex (k.scope, toLex (k.source.1.map UInt8.toNat,
      toLex (k.destination.1.map UInt8.toNat, toLex (k.identification, k.protocol.toNat)))))
  | .ipv6 k => toLex (1, toLex (k.scope, toLex (k.source.1.map UInt8.toNat,
      toLex (k.destination.1.map UInt8.toNat, toLex (k.identification, 0)))))

private theorem map_toNat_injective : Function.Injective (List.map UInt8.toNat) :=
  List.map_injective_iff.mpr fun _ _ h => UInt8.toNat_inj.mp h

theorem fields_injective : Function.Injective fields := by
  rintro (⟨s₁, a₁, d₁, i₁, p₁⟩ | ⟨s₁, a₁, d₁, i₁⟩) (⟨s₂, a₂, d₂, i₂, p₂⟩ | ⟨s₂, a₂, d₂, i₂⟩) h
  all_goals
    simp only [fields, EmbeddingLike.apply_eq_iff_eq, Prod.mk.injEq] at h
  · obtain ⟨-, hs, ha, hd, hi, hp⟩ := h
    rw [hs, Subtype.ext (map_toNat_injective ha), Subtype.ext (map_toNat_injective hd), hi,
      UInt8.toNat_inj.mp hp]
  · exact absurd h.1 (by decide)
  · exact absurd h.1 (by decide)
  · obtain ⟨-, hs, ha, hd, hi, -⟩ := h
    rw [hs, Subtype.ext (map_toNat_injective ha), Subtype.ext (map_toNat_injective hd), hi]

instance : LinearOrder DatagramKey := LinearOrder.lift' fields fields_injective

end DatagramKey

/-! ### Fragments -/

/-- The offset is in eight-byte units, as encoded on the wire. -/
structure Ipv4Fragment where
  key : Ipv4DatagramKey
  fragmentOffset : ℕ
  moreFragments : Bool
  header : Bytes
  payload : Bytes
  deriving DecidableEq, Repr

/-- The predecessor is the byte of the prefix whose Next Header pointed at the removed Fragment
header. -/
structure Ipv6Fragment where
  key : Ipv6DatagramKey
  fragmentOffset : ℕ
  moreFragments : Bool
  nextHeader : UInt8
  unfragmentablePrefix : Bytes
  predecessorNextHeaderOffset : ℕ
  payload : Bytes
  deriving DecidableEq, Repr

inductive Fragment
  | ipv4 (fragment : Ipv4Fragment)
  | ipv6 (fragment : Ipv6Fragment)
  deriving DecidableEq, Repr

inductive OverlapPolicy
  | reject
  | first
  | last
  deriving DecidableEq, Repr

/-! ### Outcomes -/

inductive FragmentDisposition
  | accepted (addedBytes : ℕ)
  | duplicate (bytes : ℕ)
  | overlapResolved (policy : OverlapPolicy) (affectedBytes addedBytes : ℕ)
  deriving DecidableEq, Repr

structure FragmentOutcome where
  key : DatagramKey
  disposition : FragmentDisposition
  fragmentCount : ℕ
  uniqueBytes : ℕ
  knownFinalLength : Option ℕ
  deriving DecidableEq, Repr

structure CompletedDatagram where
  key : DatagramKey
  bytes : Bytes
  fragmentCount : ℕ
  uniqueBytes : ℕ
  finalPayloadLength : ℕ
  duplicateFragments : ℕ
  overlapBytes : ℕ
  deriving DecidableEq, Repr

inductive PushOutcome
  | accepted (fragment : FragmentOutcome)
  | completed (fragment : FragmentOutcome) (datagram : CompletedDatagram)
  deriving DecidableEq, Repr

inductive IncompleteReason
  | idleExpired
  | endOfCapture
  deriving DecidableEq, Repr

structure IncompleteDatagram where
  key : DatagramKey
  reason : IncompleteReason
  fragmentCount : ℕ
  uniqueBytes : ℕ
  knownFinalLength : Option ℕ
  duplicateFragments : ℕ
  overlapBytes : ℕ
  deriving DecidableEq, Repr

structure RetiredDatagrams where
  outcomes : List IncompleteDatagram
  omittedIpv4 : ℕ
  omittedIpv6 : ℕ
  deriving DecidableEq, Repr

/-! ### Errors -/

/-- Resource failures, all detected before mutating retained datagram state. -/
inductive Resource
  | datagramLimit (limit : ℕ)
  | fragmentLimit (limit : ℕ)
  | datagramByteLimit (limit : ℕ)
  | aggregateMemoryLimit (limit : ℕ)
  | allocationFailed (requested : ℕ)
  | idleExpiryRange (expiry : ℕ)
  deriving DecidableEq, Repr

inductive Malformed
  | offsetOutOfRange (offset : ℕ)
  | offsetOverflow
  | emptyPayload
  | atomicFragment
  | unalignedNonFinal (length : ℕ)
  | invalidIpv4Header (reason : String)
  | inconsistentIpv4Header
  | invalidIpv6Prefix (reason : String)
  | inconsistentEcn
  | conflictingFinalLength (existing new : ℕ)
  | beyondFinalLength (finalLength : ℕ)
  | nonFinalAtFinalLength (finalLength : ℕ)
  | conflictingOverlap (bytes : ℕ)
  | reconstructedLength (family : Family)
  deriving DecidableEq, Repr

/-- The last constructor is for contradictory retained state: an internal defect, not malformed
capture input. -/
inductive Error
  | resource (r : Resource)
  | malformed (m : Malformed)
  | inconsistent (reason : String)
  deriving DecidableEq, Repr

/-- Whether an error reports a defect of the retained state. -/
def Error.internal : Error → Bool
  | .inconsistent _ => true
  | _ => false

/-! ### Congestion markings -/

inductive Ecn
  | notEct
  | ect1
  | ect0
  | ce
  deriving DecidableEq, Repr

namespace Ecn

def fromBits (bits : UInt8) : Ecn :=
  match (bits &&& 0x03).toNat with
  | 0 => notEct
  | 1 => ect1
  | 2 => ect0
  | _ => ce

def fromIpv4Tos (tos : UInt8) : Ecn := fromBits (tos &&& 0x03)

-- ECN is the Traffic Class's two low bits, here the high nibble of header byte one.
def fromIpv6TrafficClass (trafficClass : UInt8) : Ecn := fromBits ((trafficClass &&& 0x30) >>> 4)

def ipv4TosBits : Ecn → UInt8
  | notEct => 0
  | ect1 => 1
  | ect0 => 2
  | ce => 3

def ipv6TrafficClassBits (e : Ecn) : UInt8 := e.ipv4TosBits <<< 4

/-- The marking of a datagram whose fragments carry two markings. Unspecified mixtures resolve to
the lower marking. -/
def merge (e incoming : Ecn) : Except Malformed Ecn :=
  if e = incoming then .ok e
  else match e, incoming with
    | ce, notEct => .error .inconsistentEcn
    | notEct, ce => .error .inconsistentEcn
    | ce, _ => .ok ce
    | _, ce => .ok ce
    | notEct, _ => .ok notEct
    | _, notEct => .ok notEct
    | _, _ => .ok ect0

end Ecn

/-! ### Limits -/

structure Limits where
  maxDatagrams : ℕ
  maxFragmentsPerDatagram : ℕ
  maxBytesPerDatagram : ℕ
  maxAggregateBytes : ℕ
  maxRetainedOutcomes : ℕ
  idleExpiry : ℕ
  deriving DecidableEq, Repr

namespace Limits

def default : Limits where
  maxDatagrams := 8192
  maxFragmentsPerDatagram := 256
  maxBytesPerDatagram := 65535
  maxAggregateBytes := 64 * 1024 * 1024
  maxRetainedOutcomes := 8192
  idleExpiry := 30 * 1000000000

/-- The fields of `Limits` under their reported names. -/
inductive Field
  | maxDatagrams
  | maxFragmentsPerDatagram
  | maxBytesPerDatagram
  | maxAggregateBytes
  | maxRetainedOutcomes
  | idleExpiry
  deriving DecidableEq, Repr

def Field.name : Field → String
  | .maxDatagrams => "max_datagrams"
  | .maxFragmentsPerDatagram => "max_fragments_per_datagram"
  | .maxBytesPerDatagram => "max_bytes_per_datagram"
  | .maxAggregateBytes => "max_aggregate_bytes"
  | .maxRetainedOutcomes => "max_retained_outcomes"
  | .idleExpiry => "idle_expiry"

def violation (clock : ℕ) (limits : Limits) : Option (Field × ℕ × Constraint) :=
  (expiryViolation clock limits.idleExpiry).map fun (value, reason) => (.idleExpiry, value, reason)

/-- A zero limit refuses its resource entirely. -/
def validate (clock : ℕ) (limits : Limits) : Except InvalidLimit Unit :=
  match limits.violation clock with
  | none => .ok ()
  | some (field, value, reason) => .error ⟨field.name, value, reason⟩

end Limits

/-! ### Retained state -/

/-- What a slot of the datagram table is charged. -/
def datagramMetadataCharge : ℕ := 4096

/-- What a range is charged beside its buffer. -/
def rangeMetadataCharge : ℕ := 64

/-- A run of payload bytes in a buffer with room for `capacity` bytes. -/
structure RetainedRange where
  start : ℕ
  bytes : Bytes
  capacity : ℕ
  length_le : bytes.length ≤ capacity
  deriving DecidableEq, Repr

namespace RetainedRange

/-- The end of the range, when it is a machine word. -/
def stop? (r : RetainedRange) : Option ℕ := checkedAdd r.start r.bytes.length

def run (r : RetainedRange) : ℕ × Bytes := (r.start, r.bytes)

def interval (r : RetainedRange) : ℕ × ℕ := (r.start, r.start + r.bytes.length)

end RetainedRange

/-- What the header of the datagram is rebuilt from. -/
inductive Reconstruction
  | ipv4 (firstHeader : Option Bytes) (ecn : Ecn)
  | ipv6 (headerPrefix : Bytes) (predecessorNextHeaderOffset : ℕ) (nextHeader : UInt8) (ecn : Ecn)
      (fromOffsetZero : Bool)
  deriving DecidableEq, Repr

namespace Reconstruction

def ecn : Reconstruction → Ecn
  | .ipv4 _ ecn => ecn
  | .ipv6 _ _ _ ecn _ => ecn

def family : Reconstruction → Family
  | .ipv4 .. => .ipv4
  | .ipv6 .. => .ipv6

/-- The header bytes that are retained. -/
def headerLength : Reconstruction → ℕ
  | .ipv4 firstHeader _ => firstHeader.elim 0 List.length
  | .ipv6 headerPrefix .. => headerPrefix.length

end Reconstruction

structure DatagramState where
  ranges : List RetainedRange
  uniqueBytes : ℕ
  fragmentCount : ℕ
  duplicateFragments : ℕ
  overlapBytes : ℕ
  finalLength : Option ℕ
  maxNonFinalEnd : Option ℕ
  reconstruction : Reconstruction
  lastUpdate : ℕ
  deadline : Option ℕ
  memoryCharge : ℕ
  deriving DecidableEq, Repr

/-- What the datagrams hold and are charged together. -/
structure Retained where
  payloadBytes : ℕ
  memoryCharge : ℕ
  datagramSlots : ℕ
  deriving DecidableEq, Repr

/-- Take the charges of a datagram back. The slot of the table stays charged. -/
def Retained.release (r : Retained) (state : DatagramState) : Exec Error Retained := do
  let payloadBytes ← Exec.unwrap (checkedSub r.payloadBytes state.uniqueBytes)
  let memoryCharge ← Exec.unwrap (checkedSub r.memoryCharge state.memoryCharge)
  pure { r with payloadBytes, memoryCharge }

theorem Retained.release_eq {r : Retained} {state : DatagramState}
    (hp : state.uniqueBytes ≤ r.payloadBytes)
    (hm : state.memoryCharge ≤ r.memoryCharge) :
    r.release state = .ok ⟨r.payloadBytes - state.uniqueBytes,
      r.memoryCharge - state.memoryCharge, r.datagramSlots⟩ := by
  unfold release
  rw [Exec.unwrap_eq (checkedSub_eq_some.mpr ⟨hp, rfl⟩), Exec.ok_bind,
    Exec.unwrap_eq (checkedSub_eq_some.mpr ⟨hm, rfl⟩), Exec.ok_bind]
  rfl

end PacketCraftr.Ip
