import PacketCraftr.Hpack.Encoding
import PacketCraftr.Hpack.Invariant

/-!
# The HPACK decoder and a conforming encoder

A conforming encoder is a peer with a dynamic table of its own. It may encode a header list in any
of the ways that RFC 7541 allows; what it sends is accepted here when it also stays within the
limits of the decoder. A decoder that reads the blocks in order returns the header lists.

The entries of the peer carry the origins that the decoder charges for. The peer makes no other use
of them.
-/

open List Option

namespace PacketCraftr.Hpack

open Eviction Decoder PacketCraftr.Hpack.Representation Entry

/-! ### The peer -/

/-- A header field as the two sides see it. -/
structure Header where
  name : Bytes
  value : Bytes
  neverIndexed : Bool
  deriving DecidableEq, Repr

def Header.size (h : Header) : ℕ := h.name.length + h.value.length + entryOverhead

def Field.header (f : Field) : Header := ⟨f.name, f.value, f.neverIndexed⟩

/-- The encoder's side: its table, the maximum in force, the maximum it may use and the smallest one
that it has acknowledged since its last block. -/
structure Peer where
  table : List Entry
  maximum : ℕ
  permitted : ℕ
  smallest : Option ℕ
  deriving DecidableEq, Repr

/-- What a representation means: a header field, the lineage of its name when it is inserted in the
table, and the number of origins that the decoder charges it for. -/
structure Emission where
  header : Header
  inserted : Option (List ℕ)
  lineageLen : ℕ

def Emission.originBytes (e : Emission) : ℕ := (e.lineageLen + 1) * Hpack.originBytes

namespace Peer

def initial : Peer := ⟨[], defaultMaximum, defaultMaximum, none⟩

/-- The entries of the static table have the indices from 1 on; those of the dynamic table follow,
the newest first. -/
def lookup (p : Peer) (index : ℕ) : Option Resolved :=
  if index = 0 then none
  else if index ≤ staticTable.length then
    staticTable[index - 1]?.map fun (name, value) => .static name value
  else p.table[index - staticTable.length - 1]?.map .dynamic

/-- A name, its lineage and the number of origins that are charged for it. -/
def name (p : Peer) : LiteralName → Option (Bytes × List ℕ × ℕ)
  | .index i => (p.lookup i).map fun r => (r.name, r.origins, r.originsLen)
  | .text s => some (s.text, [], 0)

/-- The field that a representation stands for. -/
def field (p : Peer) : Representation → Option Emission
  | .indexed index =>
    (p.lookup index).map fun r => ⟨⟨r.name, r.value, false⟩, none, r.originsLen⟩
  | .literal indexing name value =>
    (p.name name).map fun (name, lineage, lineageLen) =>
      { header := ⟨name, value.text, indexing = .never⟩
        inserted := if indexing = .incremental then some lineage else none
        lineageLen }

/-- Add an entry. The oldest ones make room for it, and one that is larger than the table empties
it. -/
def add (p : Peer) (entry : Entry) : Peer :=
  let kept := surviving size p.maximum entry.size p.table
  { p with table := if entry.size ≤ p.maximum then entry :: kept else kept }

/-- The peer after a representation. -/
def after (p : Peer) (origin : ℕ) (e : Emission) : Peer :=
  match e.inserted with
  | none => p
  | some lineage => p.add ⟨e.header.name, e.header.value, lineage, origin⟩

/-- The peer after a table size update. -/
def resize (p : Peer) (maximum : ℕ) : Peer :=
  { p with table := surviving size maximum 0 p.table, maximum }

/-- The fields of a block, when every index is valid and the table stays within a memory limit. -/
def fields (maxTableBytes origin : ℕ) : Peer → List Representation → Option (List Emission × Peer)
  | p, [] => some ([], p)
  | p, rep :: reps => do
    let e ← p.field rep
    let p := p.after origin e
    if weightOf charge p.table ≤ maxTableBytes then
      let (es, p) ← p.fields maxTableBytes origin reps
      some (e :: es, p)
    else none

/-- The updates of a block: none exceeds the permitted maximum, and a reduction of the maximum that
was acknowledged is signalled first. -/
def UpdatesAllowed (p : Peer) (updates : List ℕ) : Prop :=
  (∀ maximum ∈ updates, maximum ≤ p.permitted) ∧
    ∀ smallest ∈ p.smallest, smallest < p.maximum → ∃ first ∈ updates.head?, first ≤ smallest

instance (p : Peer) (updates : List ℕ) : Decidable (p.UpdatesAllowed updates) :=
  inferInstanceAs (Decidable (_ ∧ _))

/-- The limits of the decoder on a block. -/
structure Within (limits : Limits) (b : HeaderBlock) (es : List Emission) : Prop where
  block_le : b.encode.length ≤ limits.maxBlockBytes
  count_le : es.length ≤ limits.maxHeaders
  header_le : (es.map (·.header.size)).sum ≤ limits.maxHeaderBytes
  origin_le : (es.map Emission.originBytes).sum ≤ limits.maxHeaderBytes

instance (limits : Limits) (b : HeaderBlock) (es : List Emission) :
    Decidable (Within limits b es) :=
  decidable_of_iff (b.encode.length ≤ limits.maxBlockBytes ∧ es.length ≤ limits.maxHeaders ∧
      (es.map (·.header.size)).sum ≤ limits.maxHeaderBytes ∧
      (es.map Emission.originBytes).sum ≤ limits.maxHeaderBytes)
    ⟨fun h => ⟨h.1, h.2.1, h.2.2.1, h.2.2.2⟩,
      fun h => ⟨h.block_le, h.count_le, h.header_le, h.origin_le⟩⟩

/-- Send a block: the header list that it encodes, when the block conforms. -/
def send (limits : Limits) (p : Peer) (b : HeaderBlock) : Option (List Header × Peer) :=
  if p.UpdatesAllowed b.updates then do
    let (es, p) ← (b.updates.foldl resize p).fields limits.maxTableBytes b.origin b.fields
    if Within limits b es then some (es.map Emission.header, { p with smallest := none })
    else none
  else none

end Peer

/-! ### Runs -/

/-- A block, or a change of the maximum that the two sides take notice of. -/
inductive Event
  | block (b : HeaderBlock)
  | permit (maximum : UInt32)
  | require (minimum : UInt32)
  | acknowledge (maximum : UInt32)
  deriving DecidableEq

/-- The smaller of a number and another one, if there is one. -/
def lower (smallest : Option ℕ) (n : ℕ) : ℕ := smallest.elim n (min · n)

/-- The header lists of the blocks that a conforming encoder sends. -/
def Peer.run (limits : Limits) : Peer → List Event → Option (List (List Header))
  | _, [] => some []
  | p, .block b :: events => do
    let (headers, p) ← p.send limits b
    let rest ← p.run limits events
    some (headers :: rest)
  | p, .permit maximum :: events =>
    Peer.run limits { p with permitted := max p.permitted maximum.toNat } events
  | p, .require minimum :: events =>
    Peer.run limits { p with smallest := some (lower p.smallest minimum.toNat) } events
  | p, .acknowledge maximum :: events =>
    Peer.run limits { p with
      permitted := maximum.toNat
      smallest := some (lower p.smallest maximum.toNat) } events

/-- What a decoder returns for the blocks of a sequence of events. -/
def Decoder.receive {E : Type} (checks : ℕ → Option E) :
    Decoder → List Event → List (Except (DecodeError E) (List Header))
  | _, [] => []
  | d, .block b :: events =>
    let (result, d) := d.decodeChecked checks b.encode b.origin
    result.map (·.fields.map Field.header) :: d.receive checks events
  | d, .permit maximum :: events => (d.permitTableSize maximum.toNat).receive checks events
  | d, .require minimum :: events => (d.requireTableMinimum minimum.toNat).receive checks events
  | d, .acknowledge maximum :: events =>
    (d.acknowledgeTableSize maximum.toNat).2.receive checks events

/-- No table size update is missing. -/
abbrev Decoder.Progress.Ready (mustShrink : Bool) (pr : Progress) : Prop :=
  ¬ (pr.updating ∧ mustShrink ∧ pr.updated = false)

/-- The caller's check was called once more. -/
def Decoder.Progress.called (pr : Progress) : Progress :=
  { pr with cursor := ⟨pr.cursor.rest, pr.cursor.calls + 1⟩ }

namespace Peer

/-! ### The decoder that has followed a peer -/

/-- The decoder with the same table and bounds. -/
def decoder (limits : Limits) (p : Peer) : Decoder :=
  { table := p.table
    tableBytes := weightOf size p.table
    accountedBytes := weightOf charge p.table
    effectiveMax := p.maximum
    ceiling := p.permitted
    pendingMin := p.smallest
    limits
    poisoned := false }

/-- The bounds on a peer. Maximums are 32-bit words. -/
structure Bounded (limits : Limits) (p : Peer) : Prop where
  size_le : weightOf size p.table ≤ p.maximum
  charge_le : weightOf charge p.table ≤ limits.maxTableBytes
  maximum_lt : p.maximum < 2 ^ 32
  permitted_lt : p.permitted < 2 ^ 32

variable {limits : Limits} {p : Peer}

theorem Bounded.inv (h : p.Bounded limits) : (p.decoder limits).Inv :=
  ⟨⟨rfl, rfl⟩, h.size_le, h.charge_le⟩

theorem Bounded.resize (h : p.Bounded limits) {m : ℕ} (hle : m ≤ p.permitted) :
    (p.resize m).Bounded limits := by
  refine ⟨weightOf_surviving_le size m 0 p.table, ?_, hle.trans_lt h.permitted_lt, h.permitted_lt⟩
  change weightOf charge (surviving size m 0 p.table) ≤ limits.maxTableBytes
  exact (weightOf_surviving_mono _ _ _ _).trans h.charge_le

theorem Bounded.after (h : p.Bounded limits) {origin : ℕ} {e : Emission}
    (hc : weightOf charge (p.after origin e).table ≤ limits.maxTableBytes) :
    (p.after origin e).Bounded limits := by
  unfold Peer.after at *
  cases hi : e.inserted with
  | none => exact h
  | some lineage =>
    rw [hi] at hc
    refine ⟨?_, hc, h.maximum_lt, h.permitted_lt⟩
    have hk := weightOf_surviving_le size p.maximum
      (size ⟨e.header.name, e.header.value, lineage, origin⟩) p.table
    dsimp only [Peer.add]
    split_ifs with hf
    · rw [weightOf_cons]
      omega
    · omega

theorem length_mul_le_weightOf (table : List Entry) :
    table.length * entryOverhead ≤ weightOf size table := by
  induction table with
  | nil => exact Nat.zero_le _
  | cons en table ih =>
    rw [length_cons, weightOf_cons, Nat.add_mul, size]
    omega

theorem Bounded.index_lt (h : p.Bounded limits) {index : ℕ} {r : Resolved}
    (hl : p.lookup index = some r) : index < 2 ^ 64 := by
  have hlen := length_mul_le_weightOf p.table
  have hsz := h.size_le
  have hm := h.maximum_lt
  have hs : staticTable.length = 61 := by decide +kernel
  unfold lookup at hl
  split_ifs at hl with hz hfr
  · omega
  · obtain ⟨en, he, -⟩ := map_eq_some_iff.mp hl
    obtain ⟨hb, -⟩ := List.getElem?_eq_some_iff.mp he
    rw [entryOverhead] at hlen
    omega

theorem Bounded.indexField_lt (h : p.Bounded limits) {literal : LiteralName}
    {rs : Bytes × List ℕ × ℕ} (hnm : p.name literal = some rs) :
    literal.indexField < 2 ^ 64 := by
  cases literal with
  | text s => exact Nat.two_pow_pos 64
  | index i =>
    obtain ⟨r, hl, -⟩ := map_eq_some_iff.mp hnm
    exact h.index_lt hl

theorem resolve_of_lookup {index : ℕ} {r : Resolved} (h : p.lookup index = some r) :
    (p.decoder limits).resolve index = .ok r := by
  unfold lookup at h
  unfold resolve
  split_ifs at h with hz hs
  · obtain ⟨⟨name, value⟩, hg, rfl⟩ := map_eq_some_iff.mp h
    rw [if_neg hz, hg]
  · obtain ⟨en, hg, rfl⟩ := map_eq_some_iff.mp h
    have hn : staticTable[index - 1]? = none := getElem?_eq_none (by omega)
    rw [if_neg hz, hn]
    dsimp only [decoder]
    rw [hg]

theorem chargeOrigins_eq (hwr : limits.maxHeaderBytes < 2 ^ 64) {lineageLen remaining used : ℕ}
    (h : used + (lineageLen + 1) * originBytes ≤ limits.maxHeaderBytes) :
    (p.decoder limits).chargeOrigins lineageLen ⟨remaining, used⟩ =
      .ok ⟨remaining, used + (lineageLen + 1) * originBytes⟩ := by
  have hl : checkedAdd lineageLen 1 = some (lineageLen + 1) := by
    rw [checkedAdd_eq_some, wordLimit]
    rw [originBytes] at h
    omega
  have hm : checkedMul (lineageLen + 1) originBytes = some ((lineageLen + 1) * originBytes) := by
    rw [checkedMul_eq_some, wordLimit]
    omega
  have ha : checkedAdd used ((lineageLen + 1) * originBytes) =
      some (used + (lineageLen + 1) * originBytes) := by
    rw [checkedAdd_eq_some, wordLimit]
    omega
  have hle : ¬ used + (lineageLen + 1) * originBytes > (p.decoder limits).limits.maxHeaderBytes :=
    Nat.not_lt.mpr h
  rw [chargeOrigins, hl, bind_some, hm, bind_some, ha]
  exact if_neg hle

/-! ### Fields -/

/-- A decoder that follows a peer has the fields `es` ahead of it, encoded in `rest`, within the
limits. -/
structure Leaves (limits : Limits) (blockLength : ℕ) (mustShrink : Bool) (p : Peer) (rest : Bytes)
    (es : List Emission) (pr : Progress) : Prop where
  decoder_eq : pr.decoder = p.decoder limits
  rest_eq : pr.cursor.rest = rest
  block_le : rest.length ≤ blockLength
  ready : pr.Ready mustShrink
  count_le : pr.fields.length + es.length ≤ limits.maxHeaders
  header_le : pr.decodedBytes + (es.map (·.header.size)).sum ≤ limits.maxHeaderBytes
  origin_le : pr.originBytes + (es.map Emission.originBytes).sum ≤ limits.maxHeaderBytes

section Field

variable {E : Type} {c : ℕ → Option E} {b : ℕ} {literal : LiteralName}
  {lineage : List ℕ} {rest tail : Bytes} {remaining used origin : ℕ} {rep : Representation}
  {e : Emission} {first : UInt8} {ms : Bool} {pr : Progress} {es : List Emission}

theorem Leaves.called (h : Leaves limits b ms p rest es pr) :
    Leaves limits b ms p rest es pr.called :=
  ⟨h.decoder_eq, h.rest_eq, h.block_le, h.ready, h.count_le, h.header_le, h.origin_le⟩

theorem insert_eq_add (hp : p.Bounded limits) (field : Field) (lineage : List ℕ) (origin : ℕ)
    (hc : weightOf charge (p.add (entryOf field lineage origin)).table ≤ limits.maxTableBytes) :
    (p.decoder limits).insert field lineage origin =
      (.ok (), (p.add (entryOf field lineage origin)).decoder limits) := by
  rw [insert_eq hp.inv]
  by_cases hf : (entryOf field lineage origin).size ≤ p.maximum
  · have hnot : ¬ (entryOf field lineage origin).size > (p.decoder limits).effectiveMax :=
      Nat.not_lt.mpr hf
    simp only [add, if_pos hf, weightOf_cons] at hc
    rw [if_neg hnot, if_neg (by rw [Nat.add_comm]; exact Nat.not_lt.mpr hc), add, if_pos hf]
    rfl
  · have hl : (entryOf field lineage origin).size > (p.decoder limits).effectiveMax :=
      Nat.not_le.mp hf
    dsimp only
    rw [if_pos hl, add, if_neg hf]
    rfl

theorem insertField_eq (hp : p.Bounded limits) {field : Field} (hh : field.header = e.header)
    (hc : weightOf charge (p.after origin e).table ≤ limits.maxTableBytes) :
    (insertField origin (p.decoder limits) field e.inserted :
        Except (DecodeError E × Decoder) Decoder) = .ok ((p.after origin e).decoder limits) := by
  unfold Peer.after at *
  cases hi : e.inserted with
  | none => rfl
  | some lineage =>
    rw [hi, ← hh] at hc
    rw [← hh]
    dsimp only [insertField]
    rw [insert_eq_add hp field lineage origin hc]
    rfl

theorem sizeUpdate_eq (hp : p.Bounded limits) {m : ℕ} (hle : m ≤ p.permitted) {r : Bool}
    (hm : r → ∀ s ∈ p.smallest, m ≤ s) (rest : Bytes) :
    (p.decoder limits).sizeUpdate (encodeInteger 5 32 m ++ rest) r =
      (.ok rest, (p.resize m).decoder limits) := by
  have hi := integer_encodeInteger (show 32 % 2 ^ 5 = 0 from rfl)
    (show 32 + 2 ^ 5 ≤ 256 by omega) (show m < 2 ^ 64 by have := hp.permitted_lt; omega) rest
  have hc : ¬ m > (p.decoder limits).ceiling := Nat.not_lt.mpr hle
  have ha : ¬ (r ∧ (p.decoder limits).pendingMin.any (m > ·)) := by
    rintro ⟨hr, hany⟩
    obtain ⟨s, hs, hl⟩ := any_eq_true _ _ |>.mp hany
    have := hm hr s hs
    simp only [decide_eq_true_eq] at hl
    omega
  have hrs := evict_resize hp.inv m
  have hch : ¬ ((p.decoder limits).resize m).accountedBytes >
      ((p.decoder limits).resize m).limits.maxTableBytes :=
    Nat.not_lt.mpr (hp.inv.resize m).charge_le
  simp only [sizeUpdate, hi, if_neg hc, if_neg ha, hrs, if_neg hch]
  rfl

variable (hcc : ∀ n, c n = none)
include hcc

theorem check_eq (calls : ℕ) : check c calls = .ok (calls + 1) := by
  rw [check, hcc]

theorem decodeLoop_step (hc : pr.cursor.rest = first :: tail) (fuel : ℕ) :
    decodeLoop c origin b ms (fuel + 1) pr = (if first.toNat / 32 = 1 then updateStep ms pr.called
        else fieldStep c origin b ms pr.called first) >>=
      decodeLoop c origin b ms fuel := by
  rw [decodeLoop, hc]
  simp only [representation, check_eq hcc, leaving, Except.mapError, bind,
    Except.bind, hc, Progress.called]

theorem decodeLoop_updates (origin : ℕ) {u : List ℕ} (hp : p.Bounded limits)
    (hpr : ∀ mx ∈ u, mx ≤ p.permitted)
    (hd : pr.decoder = p.decoder limits)
    (hc : pr.cursor.rest = u.flatMap (encodeInteger 5 32) ++ rest)
    (hu : pr.updating = true)
    (hs : ms → pr.updated = false → ∀ first ∈ u.head?, ∀ s ∈ p.smallest,
      first ≤ s) {fuel : ℕ} (hf : pr.cursor.rest.length ≤ fuel) :
    (u.foldl resize p).Bounded limits ∧ ∃ calls' fuel', rest.length ≤ fuel' ∧
      decodeLoop c origin b ms fuel pr =
        decodeLoop c origin b ms fuel' { pr with
          decoder := (u.foldl resize p).decoder limits
          cursor := ⟨rest, calls'⟩
          updated := pr.updated || !u.isEmpty } := by
  induction u generalizing p pr fuel with
  | nil =>
    refine ⟨hp, pr.cursor.calls, fuel, ?_, ?_⟩
    · rwa [hc, flatMap_nil, nil_append] at hf
    · obtain ⟨d, ⟨_, calls⟩, fields, decodedBytes, used, updating, updated⟩ := pr
      simp_all
  | cons mx u ih =>
    obtain ⟨first, tail, hcn, hlw, hhg⟩ :=
      exists_encodeInteger_eq_cons (show 32 + 2 ^ 5 ≤ 256 by omega) mx
    rw [flatMap_cons, append_assoc] at hc
    have hh : pr.cursor.rest = first :: (tail ++ (u.flatMap (encodeInteger 5 32) ++ rest)) := by
      rw [hc, hcn, cons_append]
    have hlen : (u.flatMap (encodeInteger 5 32) ++ rest).length + 1 ≤ pr.cursor.rest.length := by
      rw [hh, length_cons]
      exact Nat.succ_le_succ (sublist_append_right tail _).length_le
    obtain ⟨fuel, rfl⟩ : ∃ n, fuel = n + 1 := ⟨fuel - 1, by omega⟩
    have hle : mx ≤ p.permitted := hpr mx mem_cons_self
    have hr : (ms && !pr.updated) = true → ∀ s ∈ p.smallest, mx ≤ s := by
      rw [Bool.and_eq_true, Bool.not_eq_true']
      exact fun h => hs h.1 h.2 mx rfl
    have hud := sizeUpdate_eq hp hle hr (u.flatMap (encodeInteger 5 32) ++ rest)
    let next : Progress := { pr with
      decoder := (p.resize mx).decoder limits
      cursor := ⟨u.flatMap (encodeInteger 5 32) ++ rest, pr.cursor.calls + 1⟩
      updated := true }
    have hst : (updateStep ms pr.called :
        Except (DecodeError E × Decoder) Progress) = .ok next := by
      simp only [updateStep, Progress.called, hu, hd, hc, hud,
        changed, bind, Except.bind, pure, Except.pure, Bool.true_eq_false, if_false, next]
    rw [decodeLoop_step hcc hh, if_pos (by omega), hst]
    obtain ⟨hb, calls', fuel', hf', hl⟩ := ih (hp.resize hle)
      (fun m hm => hpr m (mem_cons_of_mem _ hm)) (show next.decoder = _ from rfl) rfl
      hu (fun _ hnot => by cases hnot) (show List.length next.cursor.rest ≤ fuel by
        change List.length (u.flatMap (encodeInteger 5 32) ++ rest) ≤ fuel; omega)
    refine ⟨hb, calls', fuel', hf', ?_⟩
    rw [foldl_cons, isEmpty_cons, Bool.not_false, Bool.or_true]
    exact hl

variable (hbl : b < 2 ^ 64) (hwr : limits.maxHeaderBytes < 2 ^ 64)
include hbl hwr

section

variable {name : Bytes} {l : ℕ} (hnm : p.name literal = some (name, lineage, l))
include hnm

theorem literalName_eq (hb : (literal.encode ++ rest).length ≤ b) (hrm : name.length ≤ remaining)
    (ho : used + (l + 1) * originBytes ≤ limits.maxHeaderBytes) (calls : ℕ) :
    ∃ calls', literalName c b (p.decoder limits)
        ⟨literal.encode ++ rest, calls⟩ literal.indexField ⟨remaining, used⟩ =
      .ok (name, lineage, ⟨remaining, used + (l + 1) * originBytes⟩, ⟨rest, calls'⟩) := by
  cases literal with
  | text s =>
    obtain ⟨rfl, rfl, rfl⟩ : s.text = name ∧ [] = lineage ∧ 0 = l := by
      simpa [Peer.name] using hnm
    obtain ⟨calls', hs⟩ := string_encode hcc hbl s rest hb hrm calls
    refine ⟨calls', ?_⟩
    rw [literalName, LiteralName.indexField, if_pos rfl]
    simp only [LiteralName.encode, hs, chargeOrigins_eq hwr ho, wire, Except.mapError,
      bind, Except.bind, pure, Except.pure]
  | index i =>
    obtain ⟨r, hl, hr⟩ := map_eq_some_iff.mp hnm
    obtain ⟨rfl, rfl, rfl⟩ : r.name = name ∧ r.origins = lineage ∧ r.originsLen = l := by
      simpa using hr
    have hz : i ≠ 0 := by
      rintro rfl
      cases hl
    refine ⟨calls, ?_⟩
    rw [literalName, LiteralName.indexField, if_neg hz]
    simp only [LiteralName.encode, nil_append, resolve_of_lookup hl,
      chargeOrigins_eq hwr ho, wire, Except.mapError, bind, Except.bind, pure, Except.pure,
      if_neg (Nat.not_lt.mpr hrm)]

theorem literal_eq (value : StringLiteral)
    (hb : (literal.encode ++ (value.encode ++ rest)).length ≤ b)
    (hr : name.length + value.text.length ≤ remaining)
    (ho : used + (l + 1) * originBytes ≤ limits.maxHeaderBytes) (origin calls : ℕ) :
    ∃ calls', Decoder.literal c b (p.decoder limits)
        ⟨literal.encode ++ (value.encode ++ rest), calls⟩ literal.indexField origin
        ⟨remaining, used⟩ =
      .ok (⟨name, value.text, false, withOrigin lineage origin⟩, lineage,
        ⟨remaining, used + (l + 1) * originBytes⟩, ⟨rest, calls'⟩) := by
  obtain ⟨calls₁, hlt⟩ := literalName_eq hcc hbl hwr hnm hb (show name.length ≤ remaining by omega)
      ho calls
  have hv : (value.encode ++ rest).length ≤ b := by
    rw [length_append] at hb
    omega
  obtain ⟨calls₂, hs⟩ := string_encode hcc hbl value rest hv
    (show value.text.length ≤ remaining - name.length by omega) calls₁
  refine ⟨calls₂, ?_⟩
  simp only [Decoder.literal, hlt, hs, bind, Except.bind, pure, Except.pure]

end

section

variable (hp : p.Bounded limits) (hfl : p.field rep = some e)
  (hfr : rep.encode = first :: tail) (hlw : rep.flags ≤ first.toNat)
  (hhg : first.toNat < rep.flags + 2 ^ rep.width)
include hp hfl hfr hlw hhg

/-- A representation is read as the field that it stands for. -/
theorem readField_eq (hb : (rep.encode ++ rest).length ≤ b)
    (hr : e.header.name.length + e.header.value.length ≤ remaining)
    (ho : used + e.originBytes ≤ limits.maxHeaderBytes) (origin calls : ℕ) :
    ∃ calls' field, readField c b (p.decoder limits)
        ⟨rep.encode ++ rest, calls⟩ first origin ⟨remaining, used⟩ =
      .ok (field, e.inserted, ⟨remaining, used + e.originBytes⟩, ⟨rest, calls'⟩) ∧
      field.header = e.header := by
  cases rep with
  | indexed index =>
    obtain ⟨r, hl, rfl⟩ := map_eq_some_iff.mp hfl
    have hix : (p.decoder limits).indexed index origin ⟨remaining, used⟩ = .ok
        (⟨r.name, r.value, false, withOrigin r.origins origin⟩,
          ⟨remaining, used + (r.originsLen + 1) * originBytes⟩) := by
      simp only [Decoder.indexed, resolve_of_lookup hl, bind, Except.bind, pure, Except.pure,
        if_neg (Nat.not_lt.mpr hr), chargeOrigins_eq hwr ho]
    refine ⟨calls, ⟨r.name, r.value, false, withOrigin r.origins origin⟩, ?_, rfl⟩
    rw [readField, if_pos (show first.toNat ≥ 128 from hlw)]
    simp only [encode, integer_encodeInteger (show 128 % 2 ^ 7 = 0 from rfl)
      (show 128 + 2 ^ 7 ≤ 256 from le_rfl) (hp.index_lt hl) rest, hix, wire,
      Except.mapError, bind, Except.bind, pure, Except.pure]
    rfl
  | literal i name value =>
    obtain ⟨⟨n, lineage, lineageLen⟩, hnm, rfl⟩ := map_eq_some_iff.mp hfl
    have hi := integer_encodeInteger (show i.flags % 2 ^ i.width = 0 by cases i <;> rfl)
      (show i.flags + 2 ^ i.width ≤ 256 by cases i <;> decide)
      (hp.indexField_lt hnm) (name.encode ++ (value.encode ++ rest))
    have hlen : (name.encode ++ (value.encode ++ rest)).length ≤ b := by
      simp only [encode, length_append] at hb ⊢
      omega
    obtain ⟨calls', hlt⟩ := literal_eq hcc hbl hwr hnm value hlen hr ho origin calls
    have hrs : (Representation.literal i name value).encode ++ rest =
        encodeInteger i.width i.flags name.indexField ++
          (name.encode ++ (value.encode ++ rest)) := by
      simp only [encode, append_assoc]
    rw [hrs]
    cases i with
    | incremental =>
      simp only [flags, width, Indexing.flags, Indexing.width] at hlw hhg hi ⊢
      refine ⟨calls', ⟨n, value.text, false, withOrigin lineage origin⟩, ?_, rfl⟩
      rw [readField, if_neg (by omega), if_pos (by omega)]
      simp only [hi, hlt, wire, Except.mapError, bind, Except.bind, pure, Except.pure]
      rfl
    | _ =>
      -- The two literals that are not inserted differ in one bit of the first byte.
      simp only [flags, width, Indexing.flags, Indexing.width] at hlw hhg hi ⊢
      refine ⟨calls', ⟨n, value.text, decide (first.toNat / 16 % 2 = 1), withOrigin lineage origin⟩,
        ?_, ?_⟩
      · rw [readField, if_neg (by omega), if_neg (by omega)]
        simp only [hi, hlt, wire, Except.mapError, bind, Except.bind, pure, Except.pure]
        rfl
      · simp only [Field.header, Header.mk.injEq, true_and, decide_eq_decide, reduceCtorEq, iff_true,
          iff_false]
        omega

/-- The bytes of a field's representation are read as that field. -/
theorem fieldStep_eq (hch : weightOf charge (p.after origin e).table ≤ limits.maxTableBytes)
    (h : Leaves limits b ms p (rep.encode ++ rest) (e :: es) pr) :
    ∃ pr', fieldStep c origin b ms pr first = .ok pr' ∧
      Leaves limits b ms (p.after origin e) rest es pr' ∧
      pr'.fields.map Field.header = pr.fields.map Field.header ++ [e.header] := by
  obtain ⟨d, ⟨_, calls⟩, fields, decodedBytes, used, updating, updated⟩ := pr
  obtain ⟨hd, hc, hb, hr, hcn, hh, ho⟩ := h
  rw [map_cons, sum_cons] at hh ho
  dsimp only [length_cons] at hd hc hcn hh ho
  subst hd hc
  have hsz : e.header.size = e.header.name.length + e.header.value.length + entryOverhead := rfl
  have hbd : ((checkedSub limits.maxHeaderBytes decodedBytes).bind
      (checkedSub · entryOverhead)) = some (limits.maxHeaderBytes - decodedBytes - entryOverhead) := by
    rw [checkedSub_eq_some.mpr ⟨by omega, rfl⟩, bind_some, checkedSub_eq_some.mpr ⟨by omega, rfl⟩]
  obtain ⟨calls', field, hre, hs⟩ := readField_eq hcc hbl hwr hp hfl hfr hlw
    hhg hb (show e.header.name.length + e.header.value.length ≤
      limits.maxHeaderBytes - decodedBytes - entryOverhead by omega)
    (show used + e.originBytes ≤ _ by omega) origin calls
  have hi := insertField_eq (E := E) hp hs hch
  have hrm : fields.length < limits.maxHeaders := by omega
  rw [fieldStep, if_neg hr, if_neg (by exact Nat.not_le.mpr hrm)]
  dsimp only [decoder] at *
  simp only [hbd, hre, hi, leaving, Except.mapError, bind, Except.bind, pure, Except.pure]
  refine ⟨_, rfl, ⟨rfl, rfl, ?_, by simp, ?_, ?_, ?_⟩, by simp [hs]⟩
  · exact (sublist_append_right _ _).length_le.trans hb
  · rw [length_append, length_singleton]
    omega
  · rw [← hs] at hh
    exact (Nat.add_assoc ..).trans_le hh
  · exact (Nat.add_assoc ..).trans_le ho

end

theorem decodeLoop_fields {reps : List Representation} {p' : Peer} (hp : p.Bounded limits)
    (hf : p.fields limits.maxTableBytes origin reps = some (es, p'))
    (h : Leaves limits b ms p (reps.flatMap encode) es pr)
    {fuel : ℕ} (hfu : (reps.flatMap encode).length ≤ fuel) :
    p'.Bounded limits ∧ ∃ pr', decodeLoop c origin b ms fuel pr = .ok pr' ∧
        pr'.decoder = p'.decoder limits ∧ pr'.Ready ms ∧
        pr'.fields.map Field.header = pr.fields.map Field.header ++ es.map Emission.header := by
  induction reps generalizing p es pr fuel with
  | nil =>
    obtain ⟨rfl, rfl⟩ : [] = es ∧ p = p' := by simpa [Peer.fields] using hf
    refine ⟨hp, pr, ?_, h.decoder_eq, h.ready, by simp⟩
    cases fuel with
    | zero => rfl
    | succ fuel => rw [decodeLoop, h.rest_eq, flatMap_nil]
  | cons rep reps ih =>
    obtain ⟨e, hfl, hf⟩ := bind_eq_some_iff.mp hf
    dsimp only at hf
    split_ifs at hf with hc
    obtain ⟨⟨es', p''⟩, hr, he⟩ := bind_eq_some_iff.mp hf
    obtain ⟨rfl, rfl⟩ : e :: es' = es ∧ p'' = p' := by simpa using he
    obtain ⟨first, tail, hfr, hlw, hhg⟩ := rep.exists_encode_eq_cons
    have hh : (rep :: reps).flatMap encode = first :: (tail ++ reps.flatMap encode) := by
      rw [flatMap_cons, hfr, cons_append]
    rw [hh, length_cons, length_append] at hfu
    obtain ⟨fuel, rfl⟩ : ∃ n, fuel = n + 1 := ⟨fuel - 1, by omega⟩
    obtain ⟨next, hs, hn, ha⟩ := fieldStep_eq hcc hbl hwr hp hfl hfr hlw hhg hc h.called
    rw [decodeLoop_step hcc (h.rest_eq.trans hh), if_neg (rep.ne_update hlw hhg), hs]
    obtain ⟨hb, pr', hl, hd', hrd', hf'⟩ := ih (hp.after hc) hr hn (show _ ≤ fuel by omega)
    refine ⟨hb, pr', hl, hd', hrd', ?_⟩
    rw [hf', ha, append_assoc]
    rfl

end Field

/-! ### Blocks and runs -/

/-- An update is required when the smallest maximum is below the one in force. -/
theorem UpdatesAllowed.head {u : List ℕ} (h : p.UpdatesAllowed u)
    (hsh : p.smallest.any (· < p.maximum)) :
    ∃ first smallest, u.head? = some first ∧ p.smallest = some smallest ∧ first ≤ smallest := by
  obtain ⟨smallest, hs, hb⟩ := any_eq_true _ _ |>.mp hsh
  obtain ⟨first, hfr, hle⟩ := h.2 smallest hs (by simpa using hb)
  exact ⟨first, smallest, hfr, hs, hle⟩

section Run

variable {E : Type} {checks : ℕ → Option E} (hcc : ∀ n, checks n = none)
  (hbl : limits.maxBlockBytes < 2 ^ 64) (hwr : limits.maxHeaderBytes < 2 ^ 64)
include hcc hbl hwr

variable {headers : List Header}

section

variable {b : HeaderBlock} {p' : Peer} (hp : p.Bounded limits)
  (hsn : p.send limits b = some (headers, p'))
include hp hsn

/-- A block that conforms is decoded to its header list. -/
theorem decodeBlock_encode : p'.Bounded limits ∧ ∃ block,
      decodeBlock checks (p.decoder limits) b.encode b.origin =
        .ok (block, p'.decoder limits) ∧ block.fields.map Field.header = headers := by
  unfold send at hsn
  split_ifs at hsn with hu
  obtain ⟨⟨es, p₁⟩, hf, hsn⟩ := bind_eq_some_iff.mp hsn
  dsimp only at hsn
  split_ifs at hsn with hw
  obtain ⟨rfl, rfl⟩ : es.map Emission.header = headers ∧ { p₁ with smallest := none } = p' := by
    simpa using hsn
  set mustShrink := p.smallest.any (· < p.maximum) with hm
  let start : Progress := ⟨p.decoder limits, ⟨b.encode, 0⟩, [], 0, 0, true, false⟩
  have hs : mustShrink → start.updated = false →
      ∀ first ∈ b.updates.head?, ∀ smallest ∈ p.smallest, first ≤ smallest := by
    intro hsh _ first hfr smallest hs
    obtain ⟨first', smallest', hfirst', hs', hle⟩ := hu.head hsh
    obtain rfl : first' = first := some.inj (hfirst'.symm.trans hfr)
    obtain rfl : smallest' = smallest := some.inj (hs'.symm.trans hs)
    exact hle
  have hl : b.encode.length < 2 ^ 64 := hw.block_le.trans_lt hbl
  obtain ⟨hb, calls', fuel', hfu', hlp⟩ := decodeLoop_updates hcc b.origin hp hu.1
      (show start.decoder = _ from rfl) rfl rfl hs (le_refl b.encode.length)
  let fed : Progress := { start with
    decoder := (b.updates.foldl resize p).decoder limits
    cursor := ⟨b.fields.flatMap encode, calls'⟩
    updated := start.updated || !b.updates.isEmpty }
  have hr : fed.Ready mustShrink := by
    rintro ⟨-, hsh, hn⟩
    obtain ⟨first, smallest, hfr, -⟩ := hu.head hsh
    cases he : b.updates with
    | nil => simp [he] at hfr
    | cons => simp [fed, start, he] at hn
  have hrs : fed.cursor.rest.length ≤ b.encode.length := (sublist_append_right _ _).length_le
  have hlv : Leaves limits b.encode.length mustShrink _ _ es fed :=
    ⟨rfl, rfl, hrs, hr, (Nat.zero_add _).trans_le hw.count_le,
      (Nat.zero_add _).trans_le hw.header_le, (Nat.zero_add _).trans_le hw.origin_le⟩
  obtain ⟨hb', pr', hfed, hd, hr', hh⟩ := decodeLoop_fields hcc hl hwr hb hf hlv hfu'
  refine ⟨⟨hb'.size_le, hb'.charge_le, hb'.maximum_lt, hb'.permitted_lt⟩,
    ⟨pr'.fields, pr'.decodedBytes⟩, ?_, hh⟩
  have hft : ¬ b.encode.length > (p.decoder limits).limits.maxBlockBytes :=
    Nat.not_lt.mpr hw.block_le
  have hdd : decodeLoop checks b.origin b.encode.length mustShrink b.encode.length start =
      .ok pr' := hlp.trans hfed
  rw [decodeBlock, if_neg hft]
  change (decodeLoop checks b.origin b.encode.length mustShrink b.encode.length start >>= _) = _
  rw [hdd]
  refine (if_neg hr').trans ?_
  rw [hd]
  rfl

end

/-- A decoder that has followed a peer returns the header lists of the blocks that follow. -/
theorem receive_decoder (hp : p.Bounded limits) {events : List Event}
    {headers : List (List Header)} (hr : p.run limits events = some headers) :
    (p.decoder limits).receive checks events = headers.map .ok := by
  induction events generalizing p headers with
  | nil =>
    obtain rfl : [] = headers := by simpa [Peer.run] using hr
    rfl
  | cons ev events ih =>
    cases ev with
    | block b =>
      obtain ⟨⟨first, p'⟩, hsn, hr⟩ := bind_eq_some_iff.mp hr
      obtain ⟨rest, hrs, hh⟩ := bind_eq_some_iff.mp hr
      obtain rfl : first :: rest = headers := by simpa using hh
      obtain ⟨hp', block, hd, rfl⟩ := decodeBlock_encode hcc hbl hwr hp hsn
      rw [receive, decodeChecked, if_neg (by exact Bool.false_ne_true), hd]
      dsimp only
      rw [ih hp' hrs]
      rfl
    | permit m =>
      refine ih (p := { p with permitted := max p.permitted m.toNat })
        ⟨hp.size_le, hp.charge_le, hp.maximum_lt, ?_⟩ hr
      exact Nat.max_lt.mpr ⟨hp.permitted_lt, m.toNat_lt⟩
    | require mn =>
      exact ih (p := { p with smallest := some (lower p.smallest mn.toNat) })
        ⟨hp.size_le, hp.charge_le, hp.maximum_lt, hp.permitted_lt⟩ hr
    | acknowledge m =>
      exact ih (p := { p with
          permitted := m.toNat
          smallest := some (lower p.smallest m.toNat) })
        ⟨hp.size_le, hp.charge_le, hp.maximum_lt, m.toNat_lt⟩ hr

/-- The blocks of a conforming encoder that stay within the limits of a decoder are decoded, in
order, to the header lists that they encode. -/
theorem receive_run {d : Decoder} (hnew : new limits = .ok d) {events : List Event}
    {headers : List (List Header)} (hrun : initial.run limits events = some headers) :
    d.receive checks events = headers.map .ok := by
  unfold new at hnew
  split_ifs at hnew
  obtain rfl : initial.decoder limits = d := Except.ok.inj hnew
  refine receive_decoder hcc hbl hwr ⟨?_, ?_, ?_, ?_⟩ hrun
  · exact Nat.zero_le _
  · exact Nat.zero_le _
  · decide
  · decide

end Run

/-- A peer that reduces its table to 40 bytes and then inserts an entry whose name is that of the
entry which makes room for it. -/
def evictingName : HeaderBlock :=
  { origin := 7
    updates := [40]
    fields :=
      [.literal .incremental (.text ⟨[0x61], true⟩) ⟨[0x62], false⟩,
       .literal .incremental (.index 62) ⟨[0x63, 0x64], true⟩,
       .indexed 62,
       .literal .never (.index 62) ⟨[], false⟩] }

theorem receive_evictingName :
    ∃ d, new ⟨64, 256, 4, 256⟩ = .ok d ∧
      d.receive (E := Empty) (fun _ => none) [.acknowledge 40, .block evictingName] =
        [.ok [⟨[0x61], [0x62], false⟩, ⟨[0x61], [0x63, 0x64], false⟩,
          ⟨[0x61], [0x63, 0x64], false⟩, ⟨[0x61], [], true⟩]] := by
  have hr : initial.run ⟨64, 256, 4, 256⟩ [.acknowledge 40, .block evictingName] =
      some [[⟨[0x61], [0x62], false⟩, ⟨[0x61], [0x63, 0x64], false⟩,
        ⟨[0x61], [0x63, 0x64], false⟩, ⟨[0x61], [], true⟩]] := by decide +kernel
  exact ⟨_, rfl, receive_run (fun _ => rfl) (show 64 < 2 ^ 64 by decide)
    (show 256 < 2 ^ 64 by decide) rfl hr⟩

end Peer

end PacketCraftr.Hpack
