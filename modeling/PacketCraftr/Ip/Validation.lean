import PacketCraftr.Ip.Model
import PacketCraftr.Protocol.Headers

/-!
# Validation of IP fragments

`ip/engine/validation.rs`: the checks of a fragment on its own and against what is retained of its
datagram. Of a retained datagram the checks read its reconstruction, its final length, the largest
end of a non-final fragment and the end of its last range; these are their arguments here.
-/

open Exec

namespace PacketCraftr.Ip

open Headers

def ipv6FragmentHeaderLength : ℕ := 8

def maxWireLength : ℕ := 65535

def familyMismatch : Error := .inconsistent "retained datagram family disagrees with its key"

inductive IncomingReconstruction
  | ipv4 (header : Bytes)
  | ipv6 (headerPrefix : Bytes) (predecessorNextHeaderOffset : ℕ) (nextHeader : UInt8)
  deriving DecidableEq, Repr

namespace IncomingReconstruction

def family : IncomingReconstruction → Family
  | .ipv4 .. => .ipv4
  | .ipv6 .. => .ipv6

def headerLength : IncomingReconstruction → ℕ
  | .ipv4 header => header.length
  | .ipv6 headerPrefix .. => headerPrefix.length

end IncomingReconstruction

/-- A fragment that passed its own checks. -/
structure Incoming where
  key : DatagramKey
  offset : ℕ
  moreFragments : Bool
  payload : Bytes
  reconstruction : IncomingReconstruction
  ecn : Ecn
  deriving DecidableEq, Repr

namespace Incoming

def stop (i : Incoming) : ℕ := i.offset + i.payload.length

def run (i : Incoming) : ℕ × Bytes := (i.offset, i.payload)

end Incoming

/-! ### The checks of a fragment on its own -/

/-- The byte at an offset of a header whose length was checked. -/
def octet (bytes : Bytes) (i : ℕ) : UInt8 := bytes.getD i 0

/-- The word at an offset of a header whose length was checked. -/
def word (bytes : Bytes) (i : ℕ) : ℕ := Wire.be16 (octet bytes i) (octet bytes (i + 1))

def invalidIpv4Header (reason : String) : Error := .malformed (.invalidIpv4Header reason)

def invalidIpv6Prefix (reason : String) : Error := .malformed (.invalidIpv6Prefix reason)

def validateIpv4Header (fragment : Ipv4Fragment) : Exec Error Ecn := do
  let header := fragment.header
  rejectIf (header.length < ipv4MinLength)
    (invalidIpv4Header "header is shorter than twenty bytes")
  rejectIf (octet header 0 >>> 4 ≠ 4) (invalidIpv4Header "version is not four")
  let headerLength := (octet header 0 &&& 0x0f).toNat * 4
  rejectIf (headerLength < ipv4MinLength ∨ headerLength ≠ header.length)
    (invalidIpv4Header "IHL does not match supplied header bytes")
  rejectIf (checkedAdd headerLength fragment.payload.length ≠ some (word header 2))
    (invalidIpv4Header "total length does not match header and fragment payload")
  -- The low thirteen bits of the word are the offset, the next one says that more fragments follow.
  let flagsOffset := word header 6
  rejectIf (flagsOffset % 8192 ≠ fragment.fragmentOffset ∨
      decide (flagsOffset / 8192 % 2 ≠ 0) ≠ fragment.moreFragments)
    (invalidIpv4Header "wire fragmentation fields do not match the adapter metadata")
  rejectIf (word header 4 ≠ fragment.key.identification ∨
      octet header 9 ≠ fragment.key.protocol ∨
      (header.drop 12).take 4 ≠ fragment.key.source.1 ∨
      (header.drop 16).take 4 ≠ fragment.key.destination.1)
    (invalidIpv4Header "header identity does not match the datagram key")
  pure (.fromIpv4Tos (octet header 1))

/-- The walk of `ipv6FragmentPredecessor`, for as many headers as the walker can yield. -/
def predecessorFrom : ℕ → Ipv6ExtensionChain → ℕ → Option ℕ
  | 0, _, _ => none
  | fuel + 1, chain, predecessor =>
    if chain.protocol == IpProtocol.fragment then
      if chain.offset = chain.bytes.length then some predecessor else none
    else
      match chain.next with
      | (some (.ok extension), chain') => predecessorFrom fuel chain' extension.offset
      | _ => none

/-- The Next Header field that announces the Fragment header right after the prefix. -/
def ipv6FragmentPredecessor (bytes : Bytes) : Option ℕ :=
  if ipv6Length ≤ bytes.length then
    let ceiling := bytes.length / 8
    -- The walker refuses one header more than its ceiling, so the walk ends before its bound.
    predecessorFrom (ceiling + 1)
      ((Ipv6ExtensionChain.new bytes ipv6Length (octet bytes 6)).withCeiling ceiling)
      6
  else none

def validateIpv6Prefix (fragment : Ipv6Fragment) : Exec Error Ecn := do
  let base := fragment.unfragmentablePrefix
  rejectIf (base.length < ipv6Length)
    (invalidIpv6Prefix "prefix is shorter than the IPv6 base header")
  rejectIf (octet base 0 >>> 4 ≠ 6) (invalidIpv6Prefix "version is not six")
  rejectIf (ipv6FragmentPredecessor base ≠ some fragment.predecessorNextHeaderOffset)
    (invalidIpv6Prefix "predecessor is not the final structurally valid Next Header field")
  let prefixPayloadLength ← okOr
    (((checkedSub base.length ipv6Length).bind (checkedAdd · ipv6FragmentHeaderLength)).bind
      (checkedAdd · fragment.payload.length))
    (.malformed .offsetOverflow)
  rejectIf (prefixPayloadLength ≠ word base 4)
    (invalidIpv6Prefix "payload length does not match prefix, Fragment header, and payload")
  rejectIf ((base.drop 8).take 16 ≠ fragment.key.source.1 ∨
      (base.drop 24).take 16 ≠ fragment.key.destination.1)
    (invalidIpv6Prefix "base-header identity does not match the datagram key")
  pure (.fromIpv6TrafficClass (octet base 1))

namespace Fragment

def fragmentOffset : Fragment → ℕ
  | .ipv4 f => f.fragmentOffset
  | .ipv6 f => f.fragmentOffset

def moreFragments : Fragment → Bool
  | .ipv4 f => f.moreFragments
  | .ipv6 f => f.moreFragments

def payload : Fragment → Bytes
  | .ipv4 f => f.payload
  | .ipv6 f => f.payload

def key : Fragment → DatagramKey
  | .ipv4 f => .ipv4 f.key
  | .ipv6 f => .ipv6 f.key

def reconstruction : Fragment → IncomingReconstruction
  | .ipv4 f => .ipv4 f.header
  | .ipv6 f => .ipv6 f.unfragmentablePrefix f.predecessorNextHeaderOffset f.nextHeader

/-- The check of the header, which gives the congestion marking. -/
def validateHeader : Fragment → Exec Error Ecn
  | .ipv4 f => validateIpv4Header f
  | .ipv6 f => validateIpv6Prefix f

end Fragment

/-! ### The checks against the retained datagram -/

/-- The Reserved and Don't Fragment bits of the flags word. -/
def ipv4PreservedFlags (header : Bytes) : Option ℕ :=
  (Wire.be16? header 6).map fun flagsOffset => flagsOffset / 16384 * 16384

def ipv4Dscp (header : Bytes) : Option UInt8 := header[1]?.map (· &&& 0xfc)

/-- ECN, TTL, total length, offset and checksum may differ; the other fields must agree. -/
def ipv4HeadersMatch (first second : Bytes) : Bool :=
  first.length == second.length && first[0]? == second[0]? && ipv4Dscp first == ipv4Dscp second &&
    Wire.range? first 4 6 == Wire.range? second 4 6 &&
    ipv4PreservedFlags first == ipv4PreservedFlags second &&
    Wire.range? first 9 10 == Wire.range? second 9 10 && first.drop 12 == second.drop 12

def validateReconstructionConsistency (existing : Option Reconstruction) (incoming : Incoming) :
    Exec Error Unit :=
  match existing, incoming.reconstruction with
  | none, _ => pure ()
  | some (.ipv4 firstHeader _), .ipv4 header =>
    rejectIf (incoming.offset = 0 ∧ firstHeader.any fun established =>
        !ipv4HeadersMatch established header) (.malformed .inconsistentIpv4Header)
  | some (.ipv6 ..), .ipv6 .. => pure ()
  | _, _ => fail familyMismatch

def accumulatedEcn (existing : Option Reconstruction) (incoming : Incoming) : Exec Error Ecn :=
  match existing with
  | none => pure incoming.ecn
  | some reconstruction =>
    match reconstruction.ecn.merge incoming.ecn with
    | .ok ecn => pure ecn
    | .error e => fail (.malformed e)

/-- The final length after the fragment, before it is checked against the other fragments. -/
def announcedFinalLength (established : Option ℕ) (incoming : Incoming) :
    Exec Error (Option ℕ) :=
  if incoming.moreFragments then pure established
  else do
    whenSome established fun existing =>
      rejectIf (existing ≠ incoming.stop)
        (.malformed (.conflictingFinalLength existing incoming.stop))
    pure (some incoming.stop)

def planFinalLength (established maxNonFinalEnd retainedEnd : Option ℕ) (incoming : Incoming) :
    Exec Error (Option ℕ) := do
  let finalLength ← announcedFinalLength established incoming
  whenSome finalLength fun finalLength => do
    rejectIf (maxNonFinalEnd = some finalLength)
      (.malformed (.nonFinalAtFinalLength finalLength))
    rejectIf (incoming.stop > finalLength ∨ retainedEnd.any (· > finalLength))
      (.malformed (.beyondFinalLength finalLength))
    rejectIf (incoming.moreFragments ∧ incoming.stop ≥ finalLength)
      (.malformed (.nonFinalAtFinalLength finalLength))
  pure finalLength

section

variable (existing : Option Reconstruction)

/-- The length that the header adds to the payload in the length field of the family. -/
def reconstructedPrefixLength (incoming : Incoming) :
    Exec Error ℕ :=
  match incoming.reconstruction, existing with
  | .ipv4 header, none =>
    pure (if incoming.offset = 0 then header.length else ipv4MinLength)
  | .ipv4 header, some (.ipv4 firstHeader _) =>
    pure (if incoming.offset = 0 then header.length
      else firstHeader.elim ipv4MinLength List.length)
  | .ipv4 header, some (.ipv6 ..) =>
    if incoming.offset = 0 then pure header.length else fail familyMismatch
  | .ipv6 headerPrefix _ _, some (.ipv6 retained _ _ _ fromOffsetZero) =>
    okOr (checkedSub (if !fromOffsetZero && incoming.offset == 0 then headerPrefix.length
      else retained.length) ipv6Length) (.malformed .offsetOverflow)
  | .ipv6 headerPrefix _ _, _ =>
    okOr (checkedSub headerPrefix.length ipv6Length) (.malformed .offsetOverflow)

def validateFamilyWireExtent (retainedEnd : Option ℕ)
    (incoming : Incoming) (finalLength : Option ℕ) : Exec Error Unit := do
  let extent := finalLength.getD (max incoming.stop (retainedEnd.getD 0))
  let prefixLength ← reconstructedPrefixLength existing incoming
  rejectIf ((checkedAdd prefixLength extent).all (· > maxWireLength))
    (.malformed (.reconstructedLength incoming.key.family))

/-- The checks of a fragment on its own that no limit takes part in. -/
def checkFragment (fragment : Fragment) : Exec Error Incoming := do
  rejectIf (fragment.fragmentOffset > 0x1fff)
    (.malformed (.offsetOutOfRange fragment.fragmentOffset))
  let ecn ← fragment.validateHeader
  rejectIf (fragment.fragmentOffset = 0 ∧ fragment.moreFragments = false)
    (.malformed .atomicFragment)
  rejectIf (fragment.payload = []) (.malformed .emptyPayload)
  rejectIf (fragment.moreFragments ∧ fragment.payload.length % 8 ≠ 0)
    (.malformed (.unalignedNonFinal fragment.payload.length))
  let offset ← okOr (checkedMul fragment.fragmentOffset 8) (.malformed .offsetOverflow)
  let stop ← okOr (checkedAdd offset fragment.payload.length) (.malformed .offsetOverflow)
  let incoming : Incoming := ⟨fragment.key, offset, fragment.moreFragments, fragment.payload,
    fragment.reconstruction, ecn⟩
  validateFamilyWireExtent none none incoming (if incoming.moreFragments then none else some stop)
  pure incoming

def validateFragment (fragment : Fragment) (limits : Limits) : Exec Error Incoming := do
  let incoming ← checkFragment fragment
  rejectIf (incoming.stop > limits.maxBytesPerDatagram)
    (.resource (.datagramByteLimit limits.maxBytesPerDatagram))
  pure incoming

/-! ### What the checks ensure -/

/-- Errors that are the fault of the input or of the limits. -/
abbrev External (e : Error) : Prop := e.internal = false

/-- A header that a fragment may carry. -/
def IncomingReconstruction.WellFormed : IncomingReconstruction → Prop
  | .ipv4 header => ipv4MinLength ≤ header.length
  | .ipv6 headerPrefix predecessor _ =>
    ipv6Length ≤ headerPrefix.length ∧ predecessor < headerPrefix.length

/-- What holds of a fragment that passed its own checks. -/
structure Incoming.Valid (i : Incoming) : Prop where
  nonempty : 0 < i.payload.length
  stop_le : i.stop ≤ maxWireLength
  family_eq : i.reconstruction.family = i.key.family
  header : i.reconstruction.WellFormed
  not_atomic : i.offset = 0 → i.moreFragments = true

theorem Incoming.Valid.offset_lt_stop {i : Incoming} (h : i.Valid) : i.offset < i.stop :=
  Nat.lt_add_of_pos_right h.nonempty

private theorem predecessorFrom_lt {fuel : ℕ} {chain : Ipv6ExtensionChain}
    {pr p : ℕ} (hp : pr < chain.bytes.length)
    (h : predecessorFrom fuel chain pr = some p) : p < chain.bytes.length := by
  induction fuel generalizing chain pr with
  | zero => cases h
  | succ fuel ih =>
    unfold predecessorFrom at h
    split_ifs at h with hpr hend
    · cases h
      exact hp
    · split at h
      · rename_i extension chain' hn
        obtain ⟨hh, hb, -⟩ := Ipv6ExtensionChain.next_eq_ok hn
        obtain ⟨-, ho, -, hg⟩ := Ipv6ExtensionChain.header_eq_ok hh
        have hlt : extension.offset < chain'.bytes.length := by
          rw [ho, hb]
          exact (List.getElem?_eq_some_iff.mp hg).1
        rw [← hb]
        exact ih hlt h
      · cases h

theorem ipv6FragmentPredecessor_lt {bytes : Bytes} {p : ℕ}
    (h : ipv6FragmentPredecessor bytes = some p) : p < bytes.length := by
  unfold ipv6FragmentPredecessor at h
  split_ifs at h with hl
  refine predecessorFrom_lt ?_ h
  exact lt_of_lt_of_le (by decide : 6 < ipv6Length) hl

private theorem validateIpv4Header_spec (fragment : Ipv4Fragment) :
    (validateIpv4Header fragment).Yields External fun _ =>
      ipv4MinLength ≤ fragment.header.length := by
  refine yields_rejectIf_bind (fun _ => rfl) fun hl => ?_
  refine yields_rejectIf_bind (fun _ => rfl) fun _ => ?_
  refine yields_rejectIf_bind (fun _ => rfl) fun _ => ?_
  refine yields_rejectIf_bind (fun _ => rfl) fun _ => ?_
  refine yields_rejectIf_bind (fun _ => rfl) fun _ => ?_
  refine yields_rejectIf_bind (fun _ => rfl) fun _ => ?_
  exact yields_pure (not_lt.mp hl)

private theorem validateIpv6Prefix_spec (fragment : Ipv6Fragment) :
    (validateIpv6Prefix fragment).Yields External fun _ =>
      ipv6Length ≤ fragment.unfragmentablePrefix.length ∧
        fragment.predecessorNextHeaderOffset < fragment.unfragmentablePrefix.length := by
  refine yields_rejectIf_bind (fun _ => rfl) fun hl => ?_
  refine yields_rejectIf_bind (fun _ => rfl) fun _ => ?_
  refine yields_rejectIf_bind (fun _ => rfl) fun hp => ?_
  refine yields_okOr_bind (fun _ => rfl) fun _ _ => ?_
  refine yields_rejectIf_bind (fun _ => rfl) fun _ => ?_
  refine yields_rejectIf_bind (fun _ => rfl) fun _ => ?_
  exact yields_pure ⟨not_lt.mp hl, ipv6FragmentPredecessor_lt (not_not.mp hp)⟩

private theorem validateHeader_spec (fragment : Fragment) :
    fragment.validateHeader.Yields External fun _ => fragment.reconstruction.WellFormed := by
  cases fragment with
  | ipv4 f => exact validateIpv4Header_spec f
  | ipv6 f => exact validateIpv6Prefix_spec f

theorem length_eq_of_ipv4HeadersMatch {first s : Bytes}
    (h : ipv4HeadersMatch first s = true) : first.length = s.length := by
  unfold ipv4HeadersMatch at h
  simp only [Bool.and_eq_true, beq_iff_eq] at h
  exact h.1.1.1.1.1.1

/-- The final length, when it is known, bounds the fragment and the retained ranges. -/
structure FinalLengthPlanned (established retainedEnd : Option ℕ) (incoming : Incoming)
    (finalLength : Option ℕ) : Prop where
  final_eq : finalLength = if incoming.moreFragments then established else some incoming.stop
  stop_le : ∀ n, finalLength = some n → incoming.stop ≤ n
  retained_le : ∀ n, finalLength = some n → ∀ e, retainedEnd = some e → e ≤ n

private theorem announcedFinalLength_spec (e : Option ℕ) (incoming : Incoming) :
    (announcedFinalLength e incoming).Yields External fun f =>
      f = if incoming.moreFragments then e else some incoming.stop := by
  unfold announcedFinalLength
  split_ifs with hm
  · exact yields_pure rfl
  · refine (yields_whenSome (P := fun _ => True) fun n _ => ?_).bind fun _ _ =>
      yields_pure rfl
    exact yields_rejectIf (fun _ => rfl) fun _ => trivial

theorem planFinalLength_spec (es maxNonFinalEnd retainedEnd : Option ℕ) (incoming : Incoming) :
    (planFinalLength es maxNonFinalEnd retainedEnd incoming).Yields External
      (FinalLengthPlanned es retainedEnd incoming) := by
  refine (announcedFinalLength_spec es incoming).bind fun f hf => ?_
  refine (yields_whenSome (P := fun n => incoming.stop ≤ n ∧
    ∀ e, retainedEnd = some e → e ≤ n) fun n _ => ?_).bind fun _ h => yields_pure
      ⟨hf, fun n hn => (h n hn).1, fun n hn => (h n hn).2⟩
  refine yields_rejectIf_bind (fun _ => rfl) fun _ => ?_
  refine yields_rejectIf_bind (fun _ => rfl) fun hb => ?_
  refine yields_rejectIf (fun _ => rfl) fun _ => ?_
  rw [not_or, not_lt] at hb
  refine ⟨hb.1, ?_⟩
  rintro e rfl
  simpa using hb.2

/-- What the checks assume of a retained header. -/
def Reconstruction.WellFormed : Reconstruction → Prop
  | .ipv4 firstHeader _ => ∀ header, firstHeader = some header → ipv4MinLength ≤ header.length
  | .ipv6 headerPrefix predecessor .. =>
    ipv6Length ≤ headerPrefix.length ∧ predecessor < headerPrefix.length

/-- A retained header belongs to the family of the fragment. -/
def SameFamily (incoming : Incoming) : Prop :=
  ∀ reconstruction, existing = some reconstruction →
    reconstruction.family = incoming.reconstruction.family

end

variable {ex : Option Reconstruction} {incoming : Incoming}

/-- The header of a fragment, with the retained one of its family. -/
inductive Aligned : Option Reconstruction → IncomingReconstruction → Prop
  | newIpv4 (header : Bytes) : Aligned none (.ipv4 header)
  | newIpv6 (headerPrefix : Bytes) (predecessor : ℕ) (nextHeader : UInt8) :
    Aligned none (.ipv6 headerPrefix predecessor nextHeader)
  | ipv4 (firstHeader : Option Bytes) (ecn : Ecn) (header : Bytes) :
    Aligned (some (.ipv4 firstHeader ecn)) (.ipv4 header)
  | ipv6 (retained : Bytes) (retainedPredecessor : ℕ) (retainedNext : UInt8) (ecn : Ecn)
    (fromOffsetZero : Bool) (headerPrefix : Bytes) (predecessor : ℕ) (nextHeader : UInt8) :
    Aligned (some (.ipv6 retained retainedPredecessor retainedNext ecn fromOffsetZero))
      (.ipv6 headerPrefix predecessor nextHeader)

theorem SameFamily.aligned (h : SameFamily ex incoming) : Aligned ex incoming.reconstruction := by
  cases ex with
  | none => cases incoming.reconstruction <;> constructor
  | some reconstruction =>
    have hs := h _ rfl
    cases reconstruction <;> cases hi : incoming.reconstruction <;> rw [hi] at hs <;>
      first | constructor | cases hs

theorem validateReconstructionConsistency_spec (hfm : SameFamily ex incoming) :
    (validateReconstructionConsistency ex incoming).Yields External fun _ =>
      ∀ e ecn header, ex = some (.ipv4 (some e) ecn) →
        incoming.reconstruction = .ipv4 header → incoming.offset = 0 →
          e.length = header.length := by
  have ha := hfm.aligned
  unfold validateReconstructionConsistency
  generalize incoming.reconstruction = reconstruction at ha ⊢
  cases ha with
  | newIpv4 => exact yields_pure nofun
  | newIpv6 => exact yields_pure nofun
  | ipv4 f ecn header =>
    refine yields_rejectIf (fun _ => rfl) fun h => ?_
    rintro e _ _ ⟨⟩ ⟨⟩ ho
    have hm : ipv4HeadersMatch e header = true := by
      simpa [ho] using h
    exact length_eq_of_ipv4HeadersMatch hm
  | ipv6 => exact yields_pure nofun

theorem accumulatedEcn_spec (ex : Option Reconstruction) (incoming : Incoming) :
    (accumulatedEcn ex incoming).Yields External fun _ => True := by
  unfold accumulatedEcn
  split
  · exact yields_pure trivial
  · split
    · exact yields_pure trivial
    · exact yields_fail rfl

section

variable (hfm : SameFamily ex incoming) (hin : incoming.reconstruction.WellFormed)
  (hes : ∀ reconstruction, ex = some reconstruction → reconstruction.WellFormed)
include hfm hin hes

/-- The header that the length of the family is checked with can be computed. -/
theorem reconstructedPrefixLength_spec :
    (reconstructedPrefixLength ex incoming).Returns fun _ => True := by
  have ha := hfm.aligned
  unfold reconstructedPrefixLength
  generalize incoming.reconstruction = reconstruction at ha hin ⊢
  cases ha with
  | newIpv4 => exact ⟨_, rfl, trivial⟩
  | newIpv6 => exact ⟨_, okOr_checkedSub hin.1, trivial⟩
  | ipv4 => exact ⟨_, rfl, trivial⟩
  | ipv6 rt r rn ecn f headerPrefix =>
    have hi : ipv6Length ≤ (if (!f && incoming.offset == 0) = true then headerPrefix.length
          else rt.length) := by
      split_ifs
      · exact hin.1
      · exact (hes _ rfl).1
    exact ⟨_, okOr_checkedSub hi, trivial⟩

/-- The datagram fits the length field of its family, as far as it is known. -/
theorem validateFamilyWireExtent_spec {retainedEnd : Option ℕ} {f : Option ℕ} :
    (validateFamilyWireExtent ex retainedEnd incoming f).Yields External fun _ =>
      ∃ p, reconstructedPrefixLength ex incoming = .ok p ∧
        p + f.getD (max incoming.stop (retainedEnd.getD 0)) ≤
          maxWireLength := by
  unfold validateFamilyWireExtent
  obtain ⟨p, hi, -⟩ := reconstructedPrefixLength_spec hfm hin hes
  rw [hi, ok_bind]
  refine yields_rejectIf (fun _ => rfl) fun hf => ⟨p, rfl, ?_⟩
  cases hs : checkedAdd p (f.getD (max incoming.stop (retainedEnd.getD 0))) with
  | none => simp [hs] at hf
  | some total =>
    rw [← (checkedAdd_eq_some.mp hs).2]
    simpa [hs] using hf

end

/-- A fragment that passes its own checks is valid, and is read as it stands. -/
theorem checkFragment_spec (fragment : Fragment) :
    (checkFragment fragment).Yields External fun incoming =>
      incoming.Valid ∧ incoming = ⟨fragment.key, fragment.fragmentOffset * 8,
        fragment.moreFragments, fragment.payload, fragment.reconstruction, incoming.ecn⟩ := by
  refine yields_rejectIf_bind (fun _ => rfl) fun _ => ?_
  refine (validateHeader_spec fragment).bind fun ecn hh => ?_
  refine yields_rejectIf_bind (fun _ => rfl) fun ha => ?_
  refine yields_rejectIf_bind (fun _ => rfl) fun he => ?_
  refine yields_rejectIf_bind (fun _ => rfl) fun _ => ?_
  refine yields_okOr_bind (fun _ => rfl) fun o ho => ?_
  refine yields_okOr_bind (fun _ => rfl) fun stop hs => ?_
  obtain ⟨-, hs⟩ := checkedAdd_eq_some.mp hs
  obtain ⟨-, ho⟩ := checkedMul_eq_some.mp ho
  dsimp only
  refine (validateFamilyWireExtent_spec (?_ : SameFamily none _) hh ?_).bind fun _ hex => ?_
  · exact nofun
  · exact nofun
  refine yields_pure ⟨?_, by rw [ho]⟩
  obtain ⟨p, -, hf⟩ := hex
  refine ⟨List.length_pos_iff.mpr he, ?_, ?_, hh, fun hz => ?_⟩
  · change o + fragment.payload.length ≤ _
    rw [← hs]
    split_ifs at hf
    · refine le_trans ?_ hf
      rw [hs]
      exact (le_max_left _ _).trans (Nat.le_add_left _ _)
    · exact (Nat.le_add_left _ _).trans hf
  · cases fragment <;> rfl
  · by_contra hm
    have hu : fragment.fragmentOffset = 0 := by
      change o = 0 at hz
      omega
    exact ha ⟨hu, by simpa using hm⟩

theorem validateFragment_spec (fragment : Fragment) (limits : Limits) :
    (validateFragment fragment limits).Yields External fun incoming =>
      incoming.Valid ∧ incoming.key = fragment.key := by
  refine (checkFragment_spec fragment).bind fun incoming h => ?_
  exact yields_rejectIf_bind (fun _ => rfl) fun _ => yields_pure ⟨h.1, by rw [h.2]⟩

end PacketCraftr.Ip
