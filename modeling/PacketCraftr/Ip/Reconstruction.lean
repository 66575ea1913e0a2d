import PacketCraftr.Ip.Update
import PacketCraftr.Protocol.Checksum

/-!
# Rebuilding the header of a datagram

`ip/engine/reconstruction.rs`: the header that is retained while fragments arrive, and the datagram
that is rebuilt from it when the payload is complete. IPv4 keeps the first offset-zero header. IPv6
keeps the first prefix until the offset-zero fragment supplies its own.
-/

open List Exec

namespace PacketCraftr.Ip

open Reconstruction Wire Headers

def missingOffsetZeroHeader : Error :=
  .inconsistent "complete IPv4 payload has no offset-zero header"

def reconstructedLength (reconstruction : Reconstruction) (payloadLength : ℕ) : Exec Error ℕ := do
  let prefixLength ← okOr
    (match reconstruction with
      | .ipv4 firstHeader _ => firstHeader.map List.length
      | .ipv6 headerPrefix .. => some headerPrefix.length)
    missingOffsetZeroHeader
  okOr (checkedAdd prefixLength payloadLength) offsetOverflow

/-! ### The retained header -/

inductive RetainedHeader
  | absent
  | established (reconstruction : Reconstruction)
  | incoming
  deriving DecidableEq, Repr

/-- Whether the retained header gives way to that of an offset-zero fragment. -/
def provisional : Reconstruction → IncomingReconstruction → Exec Error Bool
  | .ipv4 firstHeader _, .ipv4 _ => pure firstHeader.isNone
  | .ipv6 _ _ _ _ fromOffsetZero, .ipv6 .. => pure !fromOffsetZero
  | _, _ => fail familyMismatch

section

variable (existing : Option Reconstruction)

variable (incoming : Incoming)

def retainedHeader :
    Exec Error RetainedHeader :=
  match existing with
  | none =>
    match incoming.reconstruction with
    | .ipv4 _ => pure (if incoming.offset ≠ 0 then .absent else .incoming)
    | .ipv6 .. => pure .incoming
  | some reconstruction => do
    let provisional ← provisional reconstruction incoming.reconstruction
    pure (if provisional ∧ incoming.offset = 0 then .incoming else .established reconstruction)

def RetainedHeader.length : RetainedHeader → ℕ
  | .absent => 0
  | .established reconstruction => reconstruction.headerLength
  | .incoming => incoming.reconstruction.headerLength

def reconstructionRetainedBytes :
    Exec Error ℕ := do
  let header ← retainedHeader existing incoming
  pure (header.length incoming)

def reconstructionCopiedBytes : ℕ :=
  match retainedHeader existing incoming with
  | .ok .incoming => incoming.reconstruction.headerLength
  | _ => 0

end

section

variable (alloc : Allocator)

def copyBytes (source : Bytes) : Exec Error Bytes := do
  rejectIf (alloc.headerCopy source.length = false)
    (.resource (.allocationFailed source.length))
  pure source

def Reconstruction.withEcn (ecn : Ecn) : Reconstruction → Reconstruction
  | .ipv4 firstHeader _ => .ipv4 firstHeader ecn
  | .ipv6 headerPrefix predecessor nextHeader _ fromOffsetZero =>
    .ipv6 headerPrefix predecessor nextHeader ecn fromOffsetZero

/-- The retained header copied from the fragment. -/
def copyReconstruction (incoming : Incoming) (ecn : Ecn) :
    Exec Error Reconstruction :=
  match incoming.reconstruction with
  | .ipv4 header => do
    let header ← copyBytes alloc header
    pure (.ipv4 (some header) ecn)
  | .ipv6 headerPrefix predecessor nextHeader => do
    let headerPrefix ← copyBytes alloc headerPrefix
    pure (.ipv6 headerPrefix predecessor nextHeader ecn (incoming.offset = 0))

def materializeReconstruction (existing : Option Reconstruction)
    (incoming : Incoming) (ecn : Ecn) : Exec Error Reconstruction := do
  let retained ← retainedHeader existing incoming
  match retained with
  | .established established => pure (established.withEcn ecn)
  | .absent => pure (.ipv4 none ecn)
  | .incoming => copyReconstruction alloc incoming ecn

/-! ### The rebuilt datagram -/

def payloadLength (payload : List Bytes) : Exec Error ℕ :=
  okOr (payload.foldlM (fun total part => checkedAdd total part.length) 0) offsetOverflow

/-- Write bytes over those at an offset. -/
def patch (datagram : Bytes) (offset : ℕ) (bytes : Bytes) : Exec Error Bytes := do
  rejectIf (datagram.length < offset + bytes.length) offsetOverflow
  pure (overwriteFrom datagram offset bytes)

def reconstructIpv4 (firstHeader : Option Bytes) (ecn : Ecn)
    (payload : List Bytes) : Exec Error Bytes := do
  let header ← okOr firstHeader missingOffsetZeroHeader
  let payloadLength ← payloadLength payload
  let totalLength ← okOr ((checkedAdd header.length payloadLength).filter (· ≤ 65535))
    (.malformed (.reconstructedLength .ipv4))
  rejectIf (alloc.datagram totalLength = false) (.resource (.allocationFailed totalLength))
  let datagram := header ++ payload.flatten
  let datagram ← patch datagram 2 (toBe16 totalLength)
  let tos ← okOr datagram[1]? offsetOverflow
  let datagram ← patch datagram 1 [(tos &&& 0xfc) ||| ecn.ipv4TosBits]
  -- Of the flags word, the two highest bits are kept.
  let flags ← okOr (be16? datagram 6) offsetOverflow
  let datagram ← patch datagram 6 (toBe16 (flags / 16384 * 16384))
  let datagram ← patch datagram 10 [0, 0]
  let headerBytes ← okOr (range? datagram 0 header.length) offsetOverflow
  patch datagram 10 (toBe16 (Checksum.checksumParts [headerBytes]))

def reconstructIpv6 (headerPrefix : Bytes) (predecessor : ℕ)
    (nextHeader : UInt8) (ecn : Ecn) (payload : List Bytes) : Exec Error Bytes := do
  let extensionLength ← okOr (checkedSub headerPrefix.length ipv6Length) offsetOverflow
  let payloadBytes ← payloadLength payload
  let payloadLength ← okOr ((checkedAdd extensionLength payloadBytes).filter (· ≤ 65535))
    (.malformed (.reconstructedLength .ipv6))
  let requested ← okOr (checkedAdd headerPrefix.length payloadBytes) offsetOverflow
  rejectIf (alloc.datagram requested = false) (.resource (.allocationFailed requested))
  let datagram := headerPrefix ++ payload.flatten
  let datagram ← patch datagram 4 (toBe16 payloadLength)
  let trafficClass ← okOr datagram[1]? offsetOverflow
  let datagram ← patch datagram 1 [(trafficClass &&& 0xcf) ||| ecn.ipv6TrafficClassBits]
  patch datagram predecessor [nextHeader]

def reconstructBytes (reconstruction : Reconstruction)
    (payload : List Bytes) : Exec Error Bytes :=
  match reconstruction with
  | .ipv4 firstHeader ecn => reconstructIpv4 alloc firstHeader ecn payload
  | .ipv6 headerPrefix predecessor nextHeader ecn _ =>
    reconstructIpv6 alloc headerPrefix predecessor nextHeader ecn payload

end

/-! ### What is retained -/

/-- The header that is retained after a fragment. -/
def nextReconstruction (existing : Option Reconstruction) (incoming : Incoming) (ecn : Ecn) :
    Reconstruction :=
  match existing, incoming.reconstruction with
  | none, .ipv4 header => .ipv4 (if incoming.offset = 0 then some header else none) ecn
  | none, .ipv6 headerPrefix predecessor nextHeader =>
    .ipv6 headerPrefix predecessor nextHeader ecn (incoming.offset = 0)
  | some (.ipv4 firstHeader _), .ipv4 header =>
    .ipv4 (if firstHeader.isNone ∧ incoming.offset = 0 then some header else firstHeader) ecn
  | some (.ipv6 retained retainedPredecessor retainedNext _ fromOffsetZero),
      .ipv6 headerPrefix predecessor nextHeader =>
    if fromOffsetZero = false ∧ incoming.offset = 0 then
      .ipv6 headerPrefix predecessor nextHeader ecn true
    else .ipv6 retained retainedPredecessor retainedNext ecn fromOffsetZero
  | some reconstruction, _ => reconstruction.withEcn ecn

/-- The header that counts for the length field of the family. -/
def Reconstruction.wireOverhead : Reconstruction → ℕ
  | .ipv4 firstHeader _ => firstHeader.elim ipv4MinLength List.length
  | .ipv6 headerPrefix .. => headerPrefix.length - ipv6Length

section Retain

variable {ex : Option Reconstruction} {incoming : Incoming} {E : Error → Prop}
  (hE : ∀ n, E (.resource (.allocationFailed n)))

include hE in
private theorem copyBytes_spec (alloc : Allocator) (s : Bytes) :
    (copyBytes alloc s).Yields E (· = s) :=
  yields_rejectIf_bind (fun _ => hE _) fun _ => yields_pure rfl

theorem retainedHeader_spec (hf : SameFamily ex incoming) (ecn : Ecn) :
    (retainedHeader ex incoming).Returns fun header =>
      header.length incoming = (nextReconstruction ex incoming ecn).headerLength ∧ match header with
        | .absent => nextReconstruction ex incoming ecn = .ipv4 none ecn
        | .established reconstruction =>
          nextReconstruction ex incoming ecn = reconstruction.withEcn ecn
        | .incoming => nextReconstruction ex incoming ecn = match incoming.reconstruction with
            | .ipv4 header => .ipv4 (some header) ecn
            | .ipv6 headerPrefix predecessor nextHeader =>
              .ipv6 headerPrefix predecessor nextHeader ecn (incoming.offset = 0) := by
  have ha := hf.aligned
  unfold retainedHeader nextReconstruction
  generalize hi : incoming.reconstruction = reconstruction at ha ⊢
  cases ha with
  | newIpv4 =>
    by_cases hz : incoming.offset = 0
    · exact ⟨_, rfl, by simp [hz, RetainedHeader.length, hi, headerLength,
        IncomingReconstruction.headerLength]⟩
    · exact ⟨_, rfl, by simp [hz, RetainedHeader.length, headerLength]⟩
  | newIpv6 =>
    exact ⟨_, rfl, by simp [RetainedHeader.length, hi, headerLength,
      IncomingReconstruction.headerLength]⟩
  | ipv4 fh =>
    refine ⟨_, rfl, ?_⟩
    by_cases hnew : fh.isNone = true ∧ incoming.offset = 0
    · simp [hnew, RetainedHeader.length, hi, headerLength, IncomingReconstruction.headerLength]
    · simp only [if_neg hnew]
      exact ⟨rfl, rfl⟩
  | ipv6 rt r rn ecn' f =>
    refine ⟨_, rfl, ?_⟩
    by_cases hnew : f = false ∧ incoming.offset = 0
    · simp [hnew, RetainedHeader.length, hi, headerLength, IncomingReconstruction.headerLength]
    · simp [hnew, RetainedHeader.length, headerLength, withEcn]

theorem reconstructionRetainedBytes_eq (hf : SameFamily ex incoming) (ecn : Ecn) :
    reconstructionRetainedBytes ex incoming =
      .ok (nextReconstruction ex incoming ecn).headerLength := by
  obtain ⟨header, hh, hl, -⟩ := retainedHeader_spec hf ecn
  unfold reconstructionRetainedBytes
  rw [hh, ok_bind, hl]
  rfl

include hE in
/-- The retained header is materialised, or memory for its copy is not granted. -/
theorem materializeReconstruction_spec (hf : SameFamily ex incoming) (alloc : Allocator)
    (ecn : Ecn) :
    (materializeReconstruction alloc ex incoming ecn).Yields E
      (· = nextReconstruction ex incoming ecn) := by
  obtain ⟨header, hh, -, hn⟩ := retainedHeader_spec hf ecn
  unfold materializeReconstruction
  rw [hh, ok_bind]
  cases header with
  | absent => exact yields_pure hn.symm
  | established reconstruction => exact yields_pure hn.symm
  | incoming =>
    rw [hn]
    unfold copyReconstruction
    cases incoming.reconstruction with
    | ipv4 header => exact (copyBytes_spec hE alloc header).bind fun _ h => yields_pure (h ▸ rfl)
    | ipv6 headerPrefix p nh =>
      exact (copyBytes_spec hE alloc headerPrefix).bind fun _ h => yields_pure (h ▸ rfl)

theorem nextReconstruction_wellFormed (hf : SameFamily ex incoming)
    (hi : incoming.reconstruction.WellFormed)
    (hex : ∀ reconstruction, ex = some reconstruction → reconstruction.WellFormed)
    (ecn : Ecn) :
    (nextReconstruction ex incoming ecn).WellFormed ∧
      (nextReconstruction ex incoming ecn).family = incoming.reconstruction.family := by
  have ha := hf.aligned
  unfold nextReconstruction
  generalize incoming.reconstruction = reconstruction at ha hi ⊢
  cases ha with
  | newIpv4 =>
    refine ⟨?_, rfl⟩
    intro e he
    split_ifs at he
    cases he
    exact hi
  | newIpv6 => exact ⟨hi, rfl⟩
  | ipv4 =>
    refine ⟨?_, rfl⟩
    intro e he
    split_ifs at he
    · cases he
      exact hi
    · exact hex _ rfl e he
  | ipv6 =>
    have hw := hex _ rfl
    dsimp only
    split_ifs
    · exact ⟨hi, rfl⟩
    · exact ⟨hw, rfl⟩

/-- The length is checked with the header that is retained after the fragment. -/
theorem reconstructedPrefixLength_eq {p : ℕ} (hc : ∀ e ecn header, ex = some (.ipv4 (some e) ecn) →
      incoming.reconstruction = .ipv4 header → incoming.offset = 0 → e.length = header.length)
    (h : reconstructedPrefixLength ex incoming = .ok p) (ecn : Ecn)
    (hf : SameFamily ex incoming) :
    p = (nextReconstruction ex incoming ecn).wireOverhead := by
  have ha := hf.aligned
  unfold reconstructedPrefixLength at h
  unfold nextReconstruction
  generalize hi : incoming.reconstruction = reconstruction at ha h ⊢
  cases ha with
  | newIpv4 =>
    cases h
    by_cases hz : incoming.offset = 0 <;> simp [hz, wireOverhead]
  | newIpv6 =>
    obtain ⟨-, rfl⟩ := checkedSub_eq_some.mp (okOr_eq_ok.mp h)
    rfl
  | ipv4 fh ecn' header =>
    cases h
    by_cases hz : incoming.offset = 0
    · cases fh with
      | none => simp [hz, wireOverhead]
      | some e =>
        simp [hz, wireOverhead, hc e ecn' header rfl hi hz]
    · simp [hz, wireOverhead]
  | ipv6 rt r rn ecn' f =>
    obtain ⟨-, rfl⟩ := checkedSub_eq_some.mp (okOr_eq_ok.mp h)
    cases f <;> by_cases hz : incoming.offset = 0 <;> simp [hz, wireOverhead]

end Retain

/-! ### What is rebuilt -/

/-- An IPv4 header with the total length, the marking, the kept flags and the checksum of the
rebuilt datagram. -/
def ipv4WireHeader (header : Bytes) (ecn : Ecn) (totalLength : ℕ) : Bytes :=
  let header := overwriteFrom header 2 (toBe16 totalLength)
  let header := overwriteFrom header 1 [(octet header 1 &&& 0xfc) ||| ecn.ipv4TosBits]
  let header := overwriteFrom header 6 (toBe16 (word header 6 / 16384 * 16384))
  let header := overwriteFrom header 10 [0, 0]
  overwriteFrom header 10 (toBe16 (Checksum.checksumParts [header]))

/-- An IPv6 prefix with the payload length, the marking and the Next Header of the rebuilt
datagram. -/
def ipv6WireHeader (headerPrefix : Bytes) (predecessor : ℕ) (nextHeader : UInt8) (ecn : Ecn)
    (payloadLength : ℕ) : Bytes :=
  let header := overwriteFrom headerPrefix 4 (toBe16 payloadLength)
  let header := overwriteFrom header 1
    [(octet header 1 &&& 0xcf) ||| ecn.ipv6TrafficClassBits]
  overwriteFrom header predecessor [nextHeader]

/-- The header of the rebuilt datagram, for a payload of the given length. -/
def wireHeader (reconstruction : Reconstruction) (payloadLength : ℕ) : Bytes :=
  match reconstruction with
  | .ipv4 firstHeader ecn =>
    ipv4WireHeader (firstHeader.getD []) ecn ((firstHeader.getD []).length + payloadLength)
  | .ipv6 headerPrefix predecessor nextHeader ecn _ =>
    ipv6WireHeader headerPrefix predecessor nextHeader ecn
      (headerPrefix.length - ipv6Length + payloadLength)

variable {reconstruction : Reconstruction} {payload : List Bytes} {header : Bytes}

theorem length_wireHeader (hw : reconstruction.WellFormed)
    (hs : ∀ ecn, reconstruction ≠ .ipv4 none ecn) (payloadLength : ℕ) :
    (wireHeader reconstruction payloadLength).length = reconstruction.headerLength := by
  have hp {header bytes : Bytes} {n o : ℕ} (hl : header.length = n)
      (hle : o + bytes.length ≤ n) : (overwriteFrom header o bytes).length = n :=
    (length_overwriteFrom (hl ▸ hle)).trans hl
  cases reconstruction with
  | ipv4 f ecn =>
    cases f with
    | none => exact absurd rfl (hs ecn)
    | some header =>
      have hlen : 20 ≤ header.length := hw header rfl
      change (ipv4WireHeader header ecn _).length = header.length
      refine hp (hp (hp (hp (hp rfl ?_) ?_) ?_) ?_) ?_
      all_goals
        simp only [length_toBe16, length_cons, length_nil]
        omega
  | ipv6 headerPrefix p nh ecn foz =>
    have hlen : 40 ≤ headerPrefix.length := hw.1
    have hpr : p < headerPrefix.length := hw.2
    change (ipv6WireHeader headerPrefix p nh ecn _).length = headerPrefix.length
    unfold ipv6WireHeader
    refine hp (hp (hp rfl ?_) ?_) ?_
    all_goals
      simp only [length_toBe16, length_cons, length_nil]
      omega

private theorem foldlM_checkedAdd (payload : List Bytes) (total : ℕ)
    (h : total + payload.flatten.length < wordLimit) :
    payload.foldlM (fun total part => checkedAdd total part.length) total =
      some (total + payload.flatten.length) := by
  induction payload generalizing total with
  | nil => rfl
  | cons part payload ih =>
    rw [flatten_cons, length_append] at h ⊢
    rw [foldlM_cons, checkedAdd_eq_some.mpr ⟨by omega, rfl⟩]
    exact (ih (total + part.length) (by omega)).trans (by rw [Nat.add_assoc])

theorem payloadLength_eq (h : payload.flatten.length < wordLimit) :
    payloadLength payload = .ok payload.flatten.length := by
  unfold payloadLength
  rw [foldlM_checkedAdd payload 0 (by omega), Nat.zero_add, okOr_some]

theorem patch_append {payload bytes : Bytes} {o : ℕ} (h : o + bytes.length ≤ header.length) :
    patch (header ++ payload) o bytes = .ok (overwriteFrom header o bytes ++ payload) := by
  unfold patch
  rw [rejectIf_neg (by rw [length_append]; omega), ok_bind, overwriteFrom_append h]
  rfl

theorem yields_patch_bind {E : Error → Prop} {β : Type} {R : β → Prop} {f : Bytes → Exec Error β}
    {payload bytes : Bytes} {o : ℕ} (h : o + bytes.length ≤ header.length)
    (hf : (overwriteFrom header o bytes).length = header.length →
      Yields E (f (overwriteFrom header o bytes ++ payload)) R) :
    Yields E (patch (header ++ payload) o bytes >>= f) R := by
  rw [patch_append h, ok_bind]
  exact hf (length_overwriteFrom h)

private theorem getElem?_header {payload : Bytes} {i : ℕ} (h : i < header.length) :
    (header ++ payload)[i]? = some (octet header i) := by
  rw [getElem?_append_left h, octet, getD_eq_getElem?_getD, getElem?_eq_getElem h, Option.getD_some]

private theorem be16?_header {payload : Bytes} {i : ℕ} (h : i + 1 < header.length) :
    be16? (header ++ payload) i = some (word header i) := by
  unfold be16?
  rw [getElem?_header (by omega), getElem?_header h]
  rfl

private theorem range?_header (header payload : Bytes) :
    range? (header ++ payload) 0 header.length = some header :=
  range?_eq_some.mpr ⟨⟨Nat.zero_le _, by rw [length_append]; omega⟩, by rw [take_left, drop_zero]⟩

/-- The datagram fits the length field of its family. -/
def FitsWire (reconstruction : Reconstruction) (payloadLength : ℕ) : Prop :=
  reconstruction.wireOverhead + payloadLength ≤ maxWireLength ∧
    ∀ ecn, reconstruction ≠ .ipv4 none ecn

variable {E : Error → Prop} (hE : ∀ n, E (.resource (.allocationFailed n)))

include hE in
private theorem reconstructIpv4_spec (alloc : Allocator) (ecn : Ecn)
    (hl : ipv4MinLength ≤ header.length)
    (hf : header.length + payload.flatten.length ≤ maxWireLength) :
    (reconstructIpv4 alloc (some header) ecn payload).Yields E
      (· = ipv4WireHeader header ecn (header.length + payload.flatten.length) ++
        payload.flatten) := by
  have hw : maxWireLength < wordLimit := by decide
  have hfl : decide (header.length + payload.flatten.length ≤ 65535) = true := decide_eq_true hf
  change 20 ≤ header.length at hl
  unfold reconstructIpv4 ipv4WireHeader
  rw [okOr_some, ok_bind, payloadLength_eq (by omega), ok_bind,
    checkedAdd_eq_some.mpr ⟨by omega, rfl⟩, Option.filter_some, if_pos hfl,
    okOr_some, ok_bind]
  refine yields_rejectIf_bind (fun _ => hE _) fun _ => ?_
  dsimp only
  refine yields_patch_bind (by rw [length_toBe16]; omega) fun h₁ => ?_
  generalize overwriteFrom header 2 _ = header₁ at h₁ ⊢
  rw [getElem?_header (by omega), okOr_some, ok_bind]
  refine yields_patch_bind (by rw [length_singleton]; omega) fun h₂ => ?_
  generalize overwriteFrom header₁ 1 _ = header₂ at h₂ ⊢
  rw [be16?_header (by omega), okOr_some, ok_bind]
  refine yields_patch_bind (by rw [length_toBe16]; omega) fun h₃ => ?_
  generalize overwriteFrom header₂ 6 _ = header₃ at h₃ ⊢
  refine yields_patch_bind (by change 10 + 2 ≤ _; omega) fun h₄ => ?_
  generalize overwriteFrom header₃ 10 [0, 0] = header₄ at h₄ ⊢
  rw [show header.length = header₄.length by omega, range?_header, okOr_some, ok_bind,
    patch_append (by rw [length_toBe16]; omega)]
  exact yields_pure rfl

include hE in
private theorem reconstructIpv6_spec (alloc : Allocator) {headerPrefix : Bytes} {p : ℕ}
    (nh : UInt8) (ecn : Ecn) (hl : ipv6Length ≤ headerPrefix.length)
    (hp : p < headerPrefix.length)
    (hf : headerPrefix.length - ipv6Length + payload.flatten.length ≤ maxWireLength) :
    (reconstructIpv6 alloc headerPrefix p nh ecn payload).Yields E
      (· = ipv6WireHeader headerPrefix p nh ecn
        (headerPrefix.length - ipv6Length + payload.flatten.length) ++ payload.flatten) := by
  have hw : maxWireLength + 40 < wordLimit := by decide
  have hl' : 40 ≤ headerPrefix.length := hl
  have hf' : headerPrefix.length - 40 + payload.flatten.length ≤ maxWireLength := hf
  have hfl : decide (headerPrefix.length - ipv6Length + payload.flatten.length ≤
      65535) = true := decide_eq_true hf
  unfold reconstructIpv6 ipv6WireHeader
  rw [okOr_checkedSub hl, ok_bind, payloadLength_eq (by omega), ok_bind,
    checkedAdd_eq_some.mpr ⟨by omega, rfl⟩, Option.filter_some, if_pos hfl, okOr_some,
    ok_bind, okOr_checkedAdd (by omega), ok_bind]
  refine yields_rejectIf_bind (fun _ => hE _) fun _ => ?_
  dsimp only
  refine yields_patch_bind (by rw [length_toBe16]; omega) fun h₁ => ?_
  generalize overwriteFrom headerPrefix 4 _ = he₁ at h₁ ⊢
  rw [getElem?_header (by omega), okOr_some, ok_bind]
  refine yields_patch_bind (by rw [length_singleton]; omega) fun h₂ => ?_
  rw [patch_append (by rw [length_singleton]; omega)]
  exact yields_pure rfl

include hE in
/-- A complete datagram that fits its family is rebuilt, or memory for it is not granted. -/
theorem reconstructBytes_spec (alloc : Allocator) (hw : reconstruction.WellFormed)
    (hf : FitsWire reconstruction payload.flatten.length) :
    (reconstructBytes alloc reconstruction payload).Yields E
      (· = wireHeader reconstruction payload.flatten.length ++ payload.flatten) := by
  cases reconstruction with
  | ipv4 f ecn =>
    cases f with
    | none => exact absurd rfl (hf.2 ecn)
    | some header => exact reconstructIpv4_spec hE alloc ecn (hw header rfl) hf.1
  | ipv6 headerPrefix p nh ecn foz =>
    exact reconstructIpv6_spec hE alloc nh ecn hw.1 hw.2 hf.1

theorem reconstructedLength_spec {payloadLength : ℕ} (hf : FitsWire reconstruction payloadLength) :
    (reconstructedLength reconstruction payloadLength).Returns
      (· = reconstruction.headerLength + payloadLength) := by
  have hw : maxWireLength + 40 < wordLimit := by decide
  obtain ⟨hle, hs⟩ := hf
  cases reconstruction with
  | ipv4 f ecn =>
    cases f with
    | none => exact absurd rfl (hs ecn)
    | some header =>
      change header.length + _ ≤ _ at hle
      exact ⟨_, okOr_checkedAdd (by omega), rfl⟩
  | ipv6 headerPrefix p nh ecn foz =>
    change headerPrefix.length - 40 + _ ≤ _ at hle
    exact ⟨_, okOr_checkedAdd (by omega), rfl⟩

end PacketCraftr.Ip
