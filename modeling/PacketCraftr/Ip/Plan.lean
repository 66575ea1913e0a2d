import PacketCraftr.Ip.Reconstruction

/-!
# Planning the push of a fragment

The part of `ip/engine.rs` that reads the reassembler without changing it: the checks of a fragment
against its datagram, the storage its bytes need, the charges it is admitted with, and the search
for a smaller buffer when the preferred one does not fit the budget.
-/

namespace PacketCraftr.Ip

open DatagramState Exec

/-- The table of datagrams, their deadlines, and what they are charged together. -/
structure Reassembler where
  limits : Limits
  overlapPolicy : OverlapPolicy
  datagrams : SortedMap DatagramKey DatagramState
  expiry : ExpiryIndex DatagramKey
  retained : Retained

def incompleteReconstruction : Error :=
  .inconsistent "reconstruction requested before the datagram completed"

structure Charges where
  uniqueBytes : ℕ
  duplicateFragments : ℕ
  overlapBytes : ℕ
  newSlotCharge : ℕ
  prospectiveCharge : ℕ
  aggregateMemoryCharge : ℕ
  replacementPeakCharge : ℕ
  aggregatePayloadBytes : ℕ
  lastUpdate : ℕ
  deadline : Option ℕ
  deriving DecidableEq, Repr

structure StoragePlan where
  retainedPayload : ℕ
  allocation : ℕ
  deriving DecidableEq, Repr

/-- The sum of the capacities of ranges, when it is a machine word. -/
def capacitySum (ranges : List RetainedRange) : Option ℕ :=
  ranges.foldlM (fun total range => checkedAdd total range.capacity) 0

/-- Whether the fragment makes its datagram complete. -/
def completes (finalLength : Option ℕ) (merge : MergePlan) : Bool :=
  finalLength.any fun length =>
    merge.resultRangeCount == 1 && merge.unionStart == 0 && merge.unionEnd == length

/-- Whether the fragment extends a single range at one of its ends. -/
def UpdateKind.extends : UpdateKind → Bool
  | .append => true
  | .prepend => true
  | _ => false

/-- The end of the last range of a datagram. -/
def retainedEnd (existing : Option DatagramState) : Option ℕ :=
  existing.bind fun state => state.ranges.getLast?.bind RetainedRange.stop?

/-- What a fragment does to its datagram, before storage for it is planned. -/
structure Examined where
  incoming : Incoming
  fragmentCount : ℕ
  ecn : Ecn
  finalLength : Option ℕ
  merge : MergePlan
  deriving DecidableEq, Repr

/-- What is stored when the fragment is admitted. -/
structure Provision where
  charges : Charges
  reconstruction : Reconstruction
  update : RangeUpdate
  deriving DecidableEq, Repr

namespace Reassembler

def aggregateLimit (r : Reassembler) : Error :=
  .resource (.aggregateMemoryLimit r.limits.maxAggregateBytes)

/-! ### The checks against the datagram -/

/-- The checks against what is retained of the datagram. -/
def inspect (r : Reassembler) (incoming : Incoming) :
    Exec Error (Ecn × Option ℕ × MergePlan) := do
  let existing := r.datagrams.find? incoming.key
  let reconstruction := existing.map DatagramState.reconstruction
  validateReconstructionConsistency reconstruction incoming
  let ecn ← accumulatedEcn reconstruction incoming
  let finalLength ← planFinalLength (existing.bind DatagramState.finalLength)
    (existing.bind maxNonFinalEnd) (retainedEnd existing) incoming
  validateFamilyWireExtent reconstruction (retainedEnd existing) incoming finalLength
  let merge ← planMerge (existing.elim [] DatagramState.ranges) incoming
  rejectIf (merge.conflictingBytes ≠ 0 ∧ r.overlapPolicy = .reject)
    (.malformed (.conflictingOverlap merge.conflictingBytes))
  pure (ecn, finalLength, merge)

def examine (r : Reassembler) (fragment : Fragment) : Exec Error Examined := do
  let incoming ← validateFragment fragment r.limits
  let existing := r.datagrams.find? incoming.key
  rejectIf (existing.isNone ∧ r.datagrams.size ≥ r.limits.maxDatagrams)
    (.resource (.datagramLimit r.limits.maxDatagrams))
  let fragmentCount ← okOr
    ((checkedAdd (existing.elim 0 DatagramState.fragmentCount) 1).filter
      (· ≤ r.limits.maxFragmentsPerDatagram))
    (.resource (.fragmentLimit r.limits.maxFragmentsPerDatagram))
  let (ecn, finalLength, merge) ← r.inspect incoming
  pure ⟨incoming, fragmentCount, ecn, finalLength, merge⟩

/-! ### Storage and charges -/

def replacementAllocationCharge (r : Reassembler) (merge : MergePlan) (storage : StoragePlan)
    (reconstruction newSlotCharge : ℕ) : Exec Error ℕ := do
  let rangeMetadata ← okOr (checkedMul merge.resultRangeCount rangeMetadataCharge)
    r.aggregateLimit
  okOr (((checkedAdd rangeMetadata storage.allocation).bind
    (checkedAdd · reconstruction)).bind (checkedAdd · newSlotCharge)) r.aggregateLimit

/-- The storage of an update that changes the ranges. -/
def changedStoragePlan (r : Reassembler) (ranges : List RetainedRange) (merge : MergePlan)
    (capacity retained : ℕ) : Exec Error StoragePlan := do
  let affectedEnd ← add merge.firstAffected merge.affectedCount
  let affectedRanges ← slice ranges merge.firstAffected affectedEnd
  let affected ← okOr (capacitySum affectedRanges) r.aggregateLimit
  let required ← sub merge.unionEnd merge.unionStart
  if merge.kind.extends ∧ affected ≥ required then pure ⟨retained, 0⟩
  else do
    let allocation := max capacity required
    let retainedPayload ← okOr ((checkedSub retained affected).bind (checkedAdd · allocation))
      r.aggregateLimit
    pure ⟨retainedPayload, allocation⟩

def storagePlan (r : Reassembler) (ranges : List RetainedRange) (merge : MergePlan)
    (capacity : ℕ) : Exec Error StoragePlan := do
  let retained ← okOr (capacitySum ranges) r.aggregateLimit
  if merge.kind = .unchanged then pure ⟨retained, 0⟩
  else r.changedStoragePlan ranges merge capacity retained

/-- The check that the rebuilt datagram fits the budget as well. -/
def admitCompletion (r : Reassembler) (finalLength : Option ℕ) (merge : MergePlan)
    (replacementPeakCharge reconstructionBytes : ℕ) : Exec Error Unit :=
  rejectIf (completes finalLength merge ∧
    (((checkedAdd replacementPeakCharge reconstructionBytes).bind
      (checkedAdd · merge.unionEnd)).filter (· ≤ r.limits.maxAggregateBytes)).isNone)
    r.aggregateLimit

def admitCharges (r : Reassembler) (existing : Option DatagramState) (incoming : Incoming)
    (merge : MergePlan) (storage : StoragePlan) (now externalCharge : ℕ) : Exec Error Charges := do
  let oldUniqueBytes := existing.elim 0 DatagramState.uniqueBytes
  let newSlotCharge :=
    if existing.isNone ∧ r.datagrams.size ≥ r.retained.datagramSlots then datagramMetadataCharge
    else 0
  let uniqueBytes ← okOr
    ((checkedAdd oldUniqueBytes merge.addedBytes).filter (· ≤ r.limits.maxBytesPerDatagram))
    (.resource (.datagramByteLimit r.limits.maxBytesPerDatagram))
  let reconstruction := existing.map DatagramState.reconstruction
  let reconstructionBytes ← reconstructionRetainedBytes reconstruction incoming
  let reconstructionAllocation := reconstructionCopiedBytes reconstruction incoming
  let lastUpdate := existing.elim now fun state => max state.lastUpdate now
  let deadline ← okOr (checkedAddInstant lastUpdate r.limits.idleExpiry)
    (.resource (.idleExpiryRange r.limits.idleExpiry))
  let duplicateFragments ← okOr (checkedAdd (existing.elim 0 DatagramState.duplicateFragments)
    (if merge.kind = .unchanged then 1 else 0)) r.aggregateLimit
  let overlapBytes ← okOr (checkedAdd (existing.elim 0 DatagramState.overlapBytes)
    merge.conflictingBytes) r.aggregateLimit
  let prospectiveCharge ← okOr
    (((checkedMul merge.resultRangeCount rangeMetadataCharge).bind
      (checkedAdd · storage.retainedPayload)).bind (checkedAdd · reconstructionBytes))
    r.aggregateLimit
  let aggregateMemoryCharge ← okOr
    ((((checkedSub r.retained.memoryCharge (existing.elim 0 memoryCharge)).bind
      (checkedAdd · prospectiveCharge)).bind (checkedAdd · newSlotCharge)).filter fun charge =>
        (checkedAdd charge externalCharge).any (· ≤ r.limits.maxAggregateBytes))
    r.aggregateLimit
  -- Old and new storage coexist until every replacement allocation succeeds.
  let replacementAllocation ← r.replacementAllocationCharge merge storage reconstructionAllocation
    newSlotCharge
  let replacementPeakCharge ← okOr
    (((checkedAdd r.retained.memoryCharge replacementAllocation).bind
      (checkedAdd · externalCharge)).filter (· ≤ r.limits.maxAggregateBytes))
    r.aggregateLimit
  let finalLength ← planFinalLength (existing.bind DatagramState.finalLength)
    (existing.bind maxNonFinalEnd) (retainedEnd existing) incoming
  r.admitCompletion finalLength merge replacementPeakCharge reconstructionBytes
  let aggregatePayloadBytes ← okOr
    (((checkedSub r.retained.payloadBytes oldUniqueBytes).bind
      (checkedAdd · uniqueBytes)).filter (· ≤ r.limits.maxAggregateBytes))
    r.aggregateLimit
  pure
    { uniqueBytes, duplicateFragments, overlapBytes, newSlotCharge, prospectiveCharge,
      aggregateMemoryCharge, replacementPeakCharge, aggregatePayloadBytes, lastUpdate,
      deadline := some deadline }

/-- The storage for a capacity, with the charges it is admitted with. -/
def admitCapacity (r : Reassembler) (existing : Option DatagramState) (x : Examined)
    (now externalCharge capacity : ℕ) : Exec Error (StoragePlan × Exec Error Charges) := do
  let storage ← r.storagePlan (existing.elim [] DatagramState.ranges) x.merge capacity
  pure (storage, r.admitCharges existing x.incoming x.merge storage now externalCharge)

/-- The capacity a growing range is given when the budget allows it. -/
def preferredCapacity (r : Reassembler) (ranges : List RetainedRange) (merge : MergePlan)
    (required : ℕ) : Exec Error ℕ :=
  if merge.kind.extends then
    match ranges[merge.firstAffected]? with
    | some range =>
      pure (min (max (saturatingMul range.capacity 2) required) r.limits.maxBytesPerDatagram)
    | none => abort .bounds
  else pure required

/-- The binary search for the largest admissible capacity in `[lower, upper]`. A round at least
shortens the interval by one, so that its length bounds the number of rounds. -/
def searchCapacity (r : Reassembler) (existing : Option DatagramState) (x : Examined)
    (now externalCharge : ℕ) :
    ℕ → ℕ → ℕ → StoragePlan → Charges → Exec Error (StoragePlan × Charges)
  | 0, _, _, storage, accepted => pure (storage, accepted)
  | rounds + 1, lower, upper, storage, accepted =>
    if lower < upper then do
      let candidate ← add lower ((upper - lower + 1) / 2)
      let (candidateStorage, charges) ← r.admitCapacity existing x now externalCharge candidate
      match charges with
      | .ok candidateCharges =>
        r.searchCapacity existing x now externalCharge rounds candidate upper candidateStorage
          candidateCharges
      | .error (.error (.resource (.aggregateMemoryLimit _))) => do
        let upper ← sub candidate 1
        r.searchCapacity existing x now externalCharge rounds lower upper storage accepted
      | .error e => .error e
    else pure (storage, accepted)

/-- The storage when the preferred capacity is over the budget. -/
def fallbackStorage (r : Reassembler) (existing : Option DatagramState) (x : Examined)
    (now externalCharge required preferred : ℕ) : Exec Error (StoragePlan × Charges) := do
  let (storage, charges) ← r.admitCapacity existing x now externalCharge required
  let accepted ← charges
  let upper ← sub preferred 1
  r.searchCapacity existing x now externalCharge (upper - required) required upper storage accepted

def chooseStorage (r : Reassembler) (existing : Option DatagramState) (x : Examined)
    (now externalCharge : ℕ) : Exec Error (StoragePlan × Charges) := do
  let required ← sub x.merge.unionEnd x.merge.unionStart
  let preferred ← r.preferredCapacity (existing.elim [] DatagramState.ranges) x.merge required
  let (storage, charges) ← r.admitCapacity existing x now externalCharge preferred
  match charges with
  | .error (.error (.resource (.aggregateMemoryLimit limit))) =>
    if preferred > required then
      r.fallbackStorage existing x now externalCharge required preferred
    else .error (.error (.resource (.aggregateMemoryLimit limit)))
  | .error e => .error e
  | .ok charges => pure (storage, charges)

/-! ### The update -/

/-- The charges for the capacity that was granted. -/
def settleCharges (r : Reassembler) (existing : Option DatagramState) (x : Examined)
    (now externalCharge : ℕ) (storage : StoragePlan) (charges : Charges) (capacity : ℕ) :
    Exec Error Charges :=
  if capacity ≠ storage.allocation then do
    let (_, charges) ← r.admitCapacity existing x now externalCharge capacity
    charges
  else pure charges

def chooseUpdate (alloc : Allocator) (r : Reassembler) (existing : Option DatagramState)
    (x : Examined) (now externalCharge : ℕ) (storage : StoragePlan) (charges : Charges) :
    Exec Error (RangeUpdate × Charges) :=
  if storage.allocation ≠ 0 then do
    let range ← mergeAffected alloc (existing.elim [] DatagramState.ranges) x.incoming x.merge
      r.overlapPolicy storage.allocation
    let charges ← r.settleCharges existing x now externalCharge storage charges range.capacity
    pure (.replace range, charges)
  else
    match x.merge.kind with
    | .unchanged => pure (.unchanged, charges)
    | .append => pure (.append, charges)
    | .prepend => pure (.prepend, charges)
    | .replace => fail incompleteReconstruction

def provision (alloc : Allocator) (r : Reassembler) (x : Examined) (now externalCharge : ℕ) :
    Exec Error Provision := do
  let existing := r.datagrams.find? x.incoming.key
  let (storage, charges) ← r.chooseStorage existing x now externalCharge
  let reconstruction ← materializeReconstruction alloc (existing.map DatagramState.reconstruction)
    x.incoming x.ecn
  let (update, charges) ← r.chooseUpdate alloc existing x now externalCharge storage charges
  pure ⟨charges, reconstruction, update⟩

end Reassembler

end PacketCraftr.Ip
