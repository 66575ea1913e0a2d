import PacketCraftr.Hpack.Tables
import PacketCraftr.Foundation.Word
import Mathlib.Data.List.Sort

/-!
# Header compression of HTTP/2: errors, integers and table entries

The data of `hpack.rs`. Lengths are those of byte strings in memory, so their sums do not overflow.
The bytes of a block that are still to be read are a suffix of the block. The caller's check, which
may interrupt a decoder, is a function of the number of calls made to it.
-/

namespace PacketCraftr.Hpack

inductive Limit
  | frameBytes
  | blockBytes
  | headerBytes
  | headerCount
  | tableBytes
  | originBytes
  deriving DecidableEq, Repr

inductive Error
  | invalid (reason : String)
  | limit (limit : Limit)
  | compression (reason : String)
  deriving DecidableEq, Repr

/-- Malformed input, or an interruption by the caller. -/
inductive DecodeError (E : Type)
  | wire (e : Error)
  | interrupted (e : E)
  deriving DecidableEq, Repr

structure Limits where
  maxBlockBytes : ℕ
  maxHeaderBytes : ℕ
  maxHeaders : ℕ
  maxTableBytes : ℕ
  deriving DecidableEq, Repr

structure Field where
  name : Bytes
  value : Bytes
  neverIndexed : Bool
  origins : List ℕ
  deriving DecidableEq, Repr

structure Block where
  fields : List Field
  decodedBytes : ℕ
  deriving DecidableEq, Repr

def defaultMaximum : ℕ := 4096

def entryOverhead : ℕ := 32

def originBytes : ℕ := 8

/-- The size of the structure of an entry: two byte strings of four words, a vector of three words
and a word. -/
def entryStructBytes : ℕ := 96

/-- The lineage plus an origin: lineages stay ascending and duplicate-free. -/
def withOrigin (lineage : List ℕ) (origin : ℕ) : List ℕ :=
  if origin ∈ lineage then lineage else lineage.orderedInsert (· ≤ ·) origin

structure Entry where
  name : Bytes
  value : Bytes
  nameOrigins : List ℕ
  insertOrigin : ℕ
  deriving DecidableEq, Repr

namespace Entry

def size (e : Entry) : ℕ := e.name.length + e.value.length + entryOverhead

def charge (e : Entry) : ℕ := e.size + e.nameOrigins.length * originBytes + entryStructBytes

def origins (e : Entry) : List ℕ := withOrigin e.nameOrigins e.insertOrigin

end Entry

/-! ### The caller's check -/

section Check

variable {E : Type}

/-- A call of the caller's check, with the number of calls after it. -/
def check (checks : ℕ → Option E) (calls : ℕ) : Except (DecodeError E) ℕ :=
  match checks calls with
  | some e => .error (.interrupted e)
  | none => .ok (calls + 1)

/-- A failure to read the input, as a decoding error. -/
def wire {α : Type} (x : Except Error α) : Except (DecodeError E) α := x.mapError .wire

end Check

/-! ### Integers -/

/-- The continuation bytes of an integer, the least significant seven bits first. -/
def integerLoop : Bytes → ℕ → ℕ → Except Error (ℕ × Bytes)
  | [], _, _ => .error (.compression "truncated integer")
  | byte :: rest, value, shift =>
    let digit := byte.toNat % 128
    if shift ≥ 64 ∨ digit > (2 ^ 64 - 1) / 2 ^ shift then
      .error (.compression "integer overflows")
    else
      match checkedAdd value (digit * 2 ^ shift) with
      | none => .error (.compression "integer overflows")
      | some value => if byte.toNat < 128 then .ok (value, rest) else integerLoop rest value (shift + 7)

/-- An integer that starts in the low `width` bits of the next byte, with the bytes after it. -/
def integer (input : Bytes) (width : ℕ) : Except Error (ℕ × Bytes) :=
  match input with
  | [] => .error (.compression "truncated integer")
  | first :: rest =>
    let mask := 2 ^ width - 1
    let value := first.toNat % 2 ^ width
    if value < mask then .ok (value, rest) else integerLoop rest value 0

end PacketCraftr.Hpack
