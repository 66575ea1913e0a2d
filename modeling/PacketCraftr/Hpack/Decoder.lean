import PacketCraftr.Hpack.Huffman

/-!
# The HPACK decoder

The decoder of `hpack.rs`: a dynamic table, newest entry first, with its size and the memory it is
charged, and the bounds on its size that the two sides have agreed on. A block that fails leaves the
table as it was when it failed, and poisons the decoder.
-/

namespace PacketCraftr.Hpack

/-- What a field may still take of the limits of its block. -/
structure Charge where
  remaining : ℕ
  origins : ℕ

/-- The bytes of a block that are still to be read, and the calls made of the caller's check. -/
structure Cursor where
  rest : Bytes
  calls : ℕ

structure Decoder where
  table : List Entry
  tableBytes : ℕ
  accountedBytes : ℕ
  effectiveMax : ℕ
  ceiling : ℕ
  pendingMin : Option ℕ
  limits : Limits
  poisoned : Bool
  deriving DecidableEq, Repr

/-- The field that an index stands for. -/
inductive Resolved
  | static (name value : Bytes)
  | dynamic (entry : Entry)

namespace Resolved

def name : Resolved → Bytes
  | static name _ => name
  | dynamic entry => entry.name

def value : Resolved → Bytes
  | static _ value => value
  | dynamic entry => entry.value

def originsLen : Resolved → ℕ
  | static .. => 0
  | dynamic entry => entry.nameOrigins.length + 1

def origins : Resolved → List ℕ
  | static .. => []
  | dynamic entry => entry.origins

end Resolved

namespace Decoder

def new (limits : Limits) : Except Error Decoder :=
  if limits.maxBlockBytes = 0 ∨ limits.maxHeaderBytes = 0 ∨ limits.maxHeaders = 0 ∨
      limits.maxTableBytes = 0 then
    .error (.invalid "HPACK limits must be nonzero")
  else .ok ⟨[], 0, 0, defaultMaximum, defaultMaximum, none, limits, false⟩

/-! ### The bounds on the table -/

def permitTableSize (d : Decoder) (maximum : ℕ) : Decoder :=
  { d with ceiling := max d.ceiling maximum }

def requireTableMinimum (d : Decoder) (minimum : ℕ) : Decoder :=
  { d with pendingMin := some (d.pendingMin.elim minimum (min · minimum)) }

def acknowledgeTableSize (d : Decoder) (maximum : ℕ) : Except Error Unit × Decoder :=
  if d.poisoned then (.error (.compression "decoder is poisoned"), d)
  else (.ok (), { d with
    ceiling := maximum
    pendingMin := some (d.pendingMin.elim maximum (min · maximum)) })

/-! ### The dynamic table -/

/-- Take the oldest entries out, until `size` more bytes fit or the table is empty. -/
def evictFor (size : ℕ) : ℕ → Decoder → Decoder
  | 0, d => d
  | fuel + 1, d =>
    if d.tableBytes + size > d.effectiveMax then
      match d.table.getLast? with
      | none => d
      | some entry => evictFor size fuel { d with
          table := d.table.dropLast
          tableBytes := d.tableBytes - entry.size
          accountedBytes := d.accountedBytes - entry.charge }
    else d

section

variable (d : Decoder)

def evict : Decoder := evictFor 0 d.table.length d

def sizeUpdate (rest : Bytes) (requireMinimum : Bool) :
    Except Error Bytes × Decoder :=
  match integer rest 5 with
  | .error e => (.error e, d)
  | .ok (maximum, rest) =>
    if maximum > d.ceiling then
      (.error (.compression "table size update exceeds the advertised maximum"), d)
    else if requireMinimum ∧ d.pendingMin.any (maximum > ·) then
      (.error (.compression "missing minimum table size update"), d)
    else
      let d := { d with effectiveMax := maximum }.evict
      if d.accountedBytes > d.limits.maxTableBytes then (.error (.limit .tableBytes), d)
      else (.ok rest, d)

def insert (field : Field) (nameLineage : List ℕ) (origin : ℕ) :
    Except Error Unit × Decoder :=
  let size := field.name.length + field.value.length + entryOverhead
  let charge := size + nameLineage.length * originBytes + entryStructBytes
  let d := evictFor size d.table.length d
  if size > d.effectiveMax then (.ok (), d)
  else if d.accountedBytes + charge > d.limits.maxTableBytes then (.error (.limit .tableBytes), d)
  else (.ok (), { d with
    table := ⟨field.name, field.value, nameLineage, origin⟩ :: d.table
    tableBytes := d.tableBytes + size
    accountedBytes := d.accountedBytes + charge })

def resolve (index : ℕ) : Except Error Resolved :=
  if index = 0 then .error (.compression "header index zero is invalid")
  else
    match staticTable[index - 1]? with
    | some (name, value) => .ok (.static name value)
    | none =>
      match d.table[index - staticTable.length - 1]? with
      | some entry => .ok (.dynamic entry)
      | none => .error (.compression "header index out of range")

/-! ### Fields -/

def chargeOrigins (lineageLen : ℕ) (charge : Charge) : Except Error Charge :=
  match ((checkedAdd lineageLen 1).bind (checkedMul · originBytes)).bind
    (checkedAdd charge.origins ·) with
  | none => .error (.limit .originBytes)
  | some origins =>
    if origins > d.limits.maxHeaderBytes then .error (.limit .originBytes)
    else .ok { charge with origins }

def indexed (index origin : ℕ) (charge : Charge) : Except Error (Field × Charge) := do
  let resolved ← d.resolve index
  if resolved.name.length + resolved.value.length > charge.remaining then
    .error (.limit .headerBytes)
  else
    let charge ← d.chargeOrigins resolved.originsLen charge
    pure (⟨resolved.name, resolved.value, false, withOrigin resolved.origins origin⟩, charge)

end

section Read

variable {E : Type} (checks : ℕ → Option E) (blockLength : ℕ)

/-- A string literal of a block of `blockLength` bytes. -/
def string (c : Cursor) (maxOutput : ℕ) : Except (DecodeError E) (Bytes × Cursor) :=
  match c.rest with
  | [] => .error (.wire (.compression "truncated string literal"))
  | first :: _ => do
    let (length, rest) ← wire (integer c.rest 7)
    match checkedAdd (blockLength - rest.length) length with
    | none => .error (.wire (.compression "string length overflows"))
    | some stop =>
      if stop > blockLength then .error (.wire (.compression "truncated string literal"))
      else if first.toNat ≥ 128 then do
        let (bytes, calls) ← huffmanDecode checks (rest.take length) maxOutput c.calls
        pure (bytes, ⟨rest.drop length, calls⟩)
      else if length > maxOutput then .error (.wire (.limit .headerBytes))
      else pure (rest.take length, ⟨rest.drop length, c.calls⟩)

/-- The name of a literal field, with its lineage. -/
def literalName (d : Decoder) (c : Cursor) (index : ℕ) (charge : Charge) :
    Except (DecodeError E) (Bytes × List ℕ × Charge × Cursor) :=
  if index = 0 then do
    let (name, c) ← string checks blockLength c charge.remaining
    let charge ← wire (d.chargeOrigins 0 charge)
    pure (name, [], charge, c)
  else do
    let resolved ← wire (d.resolve index)
    if resolved.name.length > charge.remaining then .error (.wire (.limit .headerBytes))
    else
      let charge ← wire (d.chargeOrigins resolved.originsLen charge)
      pure (resolved.name, resolved.origins, charge, c)

def literal (d : Decoder) (c : Cursor) (index origin : ℕ) (charge : Charge) :
    Except (DecodeError E) (Field × List ℕ × Charge × Cursor) := do
  let (name, lineage, charge, c) ← literalName checks blockLength d c index charge
  let (value, c) ← string checks blockLength c (charge.remaining - name.length)
  pure (⟨name, value, false, withOrigin lineage origin⟩, lineage, charge, c)

/-- The next field, with the lineage of its name when it is to be inserted in the table. -/
def readField (d : Decoder) (c : Cursor) (first : UInt8) (origin : ℕ) (charge : Charge) :
    Except (DecodeError E) (Field × Option (List ℕ) × Charge × Cursor) :=
  if first.toNat ≥ 128 then do
    let (index, rest) ← wire (integer c.rest 7)
    let (field, charge) ← wire (d.indexed index origin charge)
    pure (field, none, charge, ⟨rest, c.calls⟩)
  else if first.toNat / 64 = 1 then do
    let (index, rest) ← wire (integer c.rest 6)
    let (field, lineage, charge, c) ← literal checks blockLength d ⟨rest, c.calls⟩ index origin charge
    pure (field, some lineage, charge, c)
  else do
    let (index, rest) ← wire (integer c.rest 4)
    let (field, _, charge, c) ← literal checks blockLength d ⟨rest, c.calls⟩ index origin charge
    pure ({ field with neverIndexed := decide (first.toNat / 16 % 2 = 1) }, none, charge, c)

end Read

/-! ### Blocks -/

/-- How far a block is decoded. -/
structure Progress where
  decoder : Decoder
  cursor : Cursor
  fields : List Field
  decodedBytes : ℕ
  originBytes : ℕ
  updating : Bool
  updated : Bool

section Decode

variable {E : Type} (checks : ℕ → Option E) (origin blockLength : ℕ) (mustShrink : Bool)

/-- A failure leaves the decoder as it was at that point. -/
def leaving {ε α : Type} (d : Decoder) (x : Except ε α) : Except (ε × Decoder) α := x.mapError (·, d)

/-- The outcome of a change of the decoder. -/
def changed {α : Type} (x : Except Error α × Decoder) : Except (DecodeError E × Decoder) (α × Decoder) :=
  match x with
  | (.error e, d) => .error (.wire e, d)
  | (.ok a, d) => .ok (a, d)

/-- A table size update at the beginning of a block. -/
def updateStep (p : Progress) : Except (DecodeError E × Decoder) Progress :=
  if p.updating = false then
    .error (.wire (.compression "table size update after header fields"), p.decoder)
  else do
    let (rest, d) ← changed (p.decoder.sizeUpdate p.cursor.rest (mustShrink && !p.updated))
    pure { p with decoder := d, cursor := ⟨rest, p.cursor.calls⟩, updated := true }

/-- Insert a field in the table, when it is to be indexed. -/
def insertField (d : Decoder) (field : Field) (lineage : Option (List ℕ)) :
    Except (DecodeError E × Decoder) Decoder :=
  match lineage with
  | none => .ok d
  | some lineage => do
    let (_, d) ← changed (d.insert field lineage origin)
    pure d

def fieldStep (p : Progress) (first : UInt8) : Except (DecodeError E × Decoder) Progress :=
  if p.updating ∧ mustShrink ∧ p.updated = false then
    .error (.wire (.compression "missing required table size update"), p.decoder)
  else if p.fields.length ≥ p.decoder.limits.maxHeaders then
    .error (.wire (.limit .headerCount), p.decoder)
  else
    match (checkedSub p.decoder.limits.maxHeaderBytes p.decodedBytes).bind
      (checkedSub · entryOverhead) with
    | none => .error (.wire (.limit .headerBytes), p.decoder)
    | some budget => do
      let (field, lineage, charge, c) ← leaving p.decoder
        (readField checks blockLength p.decoder p.cursor first origin ⟨budget, p.originBytes⟩)
      let d ← insertField origin p.decoder field lineage
      pure
        { decoder := d
          cursor := c
          fields := p.fields ++ [field]
          decodedBytes := p.decodedBytes + (field.name.length + field.value.length + entryOverhead)
          originBytes := charge.origins
          updating := false
          updated := p.updated }

/-- One representation of a block. -/
def representation (p : Progress) (first : UInt8) : Except (DecodeError E × Decoder) Progress := do
  let calls ← leaving p.decoder (check checks p.cursor.calls)
  let p := { p with cursor := ⟨p.cursor.rest, calls⟩ }
  if first.toNat / 32 = 1 then updateStep mustShrink p
  else fieldStep checks origin blockLength mustShrink p first

/-- The representations of a block. Each of them reads a byte, so that `fuel` bytes are read. -/
def decodeLoop : ℕ → Progress → Except (DecodeError E × Decoder) Progress
  | 0, p => .ok p
  | fuel + 1, p =>
    match p.cursor.rest with
    | [] => .ok p
    | first :: _ => do
      let p ← representation checks origin blockLength mustShrink p first
      decodeLoop fuel p

end Decode

def decodeBlock {E : Type} (checks : ℕ → Option E) (d : Decoder) (block : Bytes) (origin : ℕ) :
    Except (DecodeError E × Decoder) (Block × Decoder) :=
  if block.length > d.limits.maxBlockBytes then .error (.wire (.limit .blockBytes), d)
  else do
    let mustShrink := d.pendingMin.any (· < d.effectiveMax)
    let p ← decodeLoop checks origin block.length mustShrink block.length
      ⟨d, ⟨block, 0⟩, [], 0, 0, true, false⟩
    if p.updating ∧ mustShrink ∧ p.updated = false then
      .error (.wire (.compression "missing required table size update"), p.decoder)
    else pure (⟨p.fields, p.decodedBytes⟩, { p.decoder with pendingMin := none })

def decodeChecked {E : Type} (checks : ℕ → Option E) (d : Decoder) (block : Bytes) (origin : ℕ) :
    Except (DecodeError E) Block × Decoder :=
  if d.poisoned then (.error (.wire (.compression "decoder is poisoned")), d)
  else
    match decodeBlock checks d block origin with
    | .error (e, d) => (.error e, { d with poisoned := true })
    | .ok (b, d) => (.ok b, d)

end Decoder

/-! ### Runs -/

/-- An operation on a decoder, with the caller's check of a decoded block. -/
inductive Op (E : Type)
  | decode (checks : ℕ → Option E) (block : Bytes) (origin : ℕ)
  | permit (maximum : ℕ)
  | require (minimum : ℕ)
  | acknowledge (maximum : ℕ)

namespace Decoder

variable {E : Type}

def step (d : Decoder) : Op E → Decoder
  | .decode checks block origin => (d.decodeChecked checks block origin).2
  | .permit maximum => d.permitTableSize maximum
  | .require minimum => d.requireTableMinimum minimum
  | .acknowledge maximum => (d.acknowledgeTableSize maximum).2

def run (d : Decoder) (ops : List (Op E)) : Decoder := ops.foldl step d

end Decoder

end PacketCraftr.Hpack
