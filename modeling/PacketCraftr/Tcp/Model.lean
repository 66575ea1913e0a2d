import PacketCraftr.Analysis.Expiry
import PacketCraftr.Foundation.Wire

/-!
# Bounded TCP reassembly: inputs, events, errors and limits

The types that `analysis/reassembly/tcp` exchanges with its callers, its limits and their
validation, and the serial-number arithmetic of `analysis/serial.rs`. Flow keys are only compared
and used as map keys, so that every definition is generic in their type `K`. The builds modelled
are those of a platform with 64-bit `usize`.
-/

namespace PacketCraftr

namespace Tcp

/-! ### Serial numbers -/

/-- Serials exactly this far apart have no defined order. -/
def serialHalf : ℕ := 0x80000000

/-- The signed 32-bit distance of `value` from `base`. -/
def serialOffset (value base : UInt32) : ℤ := (value - base).toBitVec.toInt

/-! ### Segments, events and errors -/

/-- One captured TCP segment of a flow. -/
structure Segment (K : Type) where
  flow : K
  sequence : UInt32
  payload : Bytes
  syn : Bool
  fin : Bool
  rst : Bool
  deriving DecidableEq, Repr

/-- The sequence number of the first payload byte: a SYN takes one. -/
def Segment.firstPayloadSequence {K : Type} (segment : Segment K) : UInt32 :=
  segment.sequence + if segment.syn then 1 else 0

/-- A lifecycle step of a flow. The ranges of a retransmission are the wire-sequence spans that
repeat held data, in stream order. -/
inductive Event (K : Type)
  | data (flow : K) (sequence : UInt32) (bytes : Bytes)
  | retransmission (flow : K) (sequence : UInt32) (bytes : ℕ) (conflicting : Bool)
      (ranges : List (UInt32 × UInt32))
  | gap (flow : K) (expectedSequence nextSequence : UInt32)
  | closed (flow : K) (reset : Bool)
  | evicted (flow : K) (pendingBytes : ℕ)
  deriving DecidableEq, Repr

/-- Resource failures, all detected before mutating retained flow state. -/
inductive Resource
  | flowLimit (limit : ℕ)
  | segmentLimit (limit : ℕ)
  | flowByteLimit (limit : ℕ)
  | aggregateByteLimit (limit : ℕ)
  | allocationFailed (requested : ℕ)
  deriving DecidableEq, Repr

inductive Malformed
  | conflictingFinalSequence (existingOffset newOffset : ℕ)
  | beyondFinalSequence (finalOffset : ℕ)
  deriving DecidableEq, Repr

inductive Error
  | resource (r : Resource)
  | malformed (m : Malformed)
  deriving DecidableEq, Repr

/-! ### Limits -/

structure Limits where
  maxFlows : ℕ
  maxBytesPerFlow : ℕ
  maxAggregateBytes : ℕ
  maxSegmentsPerFlow : ℕ
  idleExpiry : ℕ
  deriving DecidableEq, Repr

/-- Largest per-flow window the reassembler can order segments within. -/
def maxBytesPerFlow : ℕ := serialHalf - 1

namespace Limits

def default : Limits where
  maxFlows := 8192
  maxBytesPerFlow := 1024 * 1024
  maxAggregateBytes := 256 * 1024 * 1024
  maxSegmentsPerFlow := 4096
  idleExpiry := 120 * 1000000000

/-- The fields of `Limits` under their reported names. -/
inductive Field
  | maxFlows
  | maxBytesPerFlow
  | maxAggregateBytes
  | maxSegmentsPerFlow
  | idleExpiry
  deriving DecidableEq, Repr

def Field.name : Field → String
  | .maxFlows => "max_flows"
  | .maxBytesPerFlow => "max_bytes_per_flow"
  | .maxAggregateBytes => "max_aggregate_bytes"
  | .maxSegmentsPerFlow => "max_segments_per_flow"
  | .idleExpiry => "idle_expiry"

def violation (clock : ℕ) (limits : Limits) : Option (Field × ℕ × Constraint) :=
  if limits.maxBytesPerFlow > Tcp.maxBytesPerFlow then
    some (.maxBytesPerFlow, limits.maxBytesPerFlow, .belowSerialHalfSpace)
  else (expiryViolation clock limits.idleExpiry).map fun (value, reason) =>
    (.idleExpiry, value, reason)

/-- A zero limit refuses its resource entirely. -/
def validate (clock : ℕ) (limits : Limits) : Except InvalidLimit Unit :=
  match limits.violation clock with
  | none => .ok ()
  | some (field, value, reason) => .error ⟨field.name, value, reason⟩

def flowByteError (limits : Limits) : Error :=
  .resource (.flowByteLimit limits.maxBytesPerFlow)

def aggregateByteError (limits : Limits) : Error :=
  .resource (.aggregateByteLimit limits.maxAggregateBytes)

/-- The default limits pass their own check as long as the clock is in the range of its first
two hundred years. -/
theorem validate_default {c : ℕ} (h : c < 2 ^ 63) : default.validate c = .ok () := by
  have hc : c + default.idleExpiry < instantLimit := by
    simp only [default, instantLimit]
    omega
  have he : expiryViolation c default.idleExpiry = none := by
    rw [expiryViolation, checkedAddInstant, if_pos hc]
    rfl
  rw [validate, violation, if_neg (by decide), he]
  rfl

/-- An accepted limit keeps the window below half of the sequence space. -/
theorem maxBytesPerFlow_le_of_validate {c : ℕ} {limits : Limits}
    (h : limits.validate c = .ok ()) : limits.maxBytesPerFlow ≤ Tcp.maxBytesPerFlow := by
  by_contra hlt
  rw [validate, violation, if_pos (not_le.mp hlt)] at h
  cases h

end Limits

end Tcp

end PacketCraftr
