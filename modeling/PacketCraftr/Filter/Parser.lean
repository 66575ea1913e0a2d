import PacketCraftr.Foundation.Outcome
import PacketCraftr.Foundation.Wire

/-!
# The display-filter parser

The shunting-yard parser of `filter/parser.rs`, from tokens to a program in postfix order. The
parser of one predicate and the predicates themselves are parameters: the parser takes at least one
token, and what it takes depends on the tokens only.
-/

namespace PacketCraftr.Filter

/-! ### Tokens -/

inductive CompareOperator
  | equal
  | notEqual
  | greater
  | greaterOrEqual
  | less
  | lessOrEqual
  deriving DecidableEq, Repr

inductive TextMode
  | startsWith
  | endsWith
  | containsFold
  | equalsFold
  deriving DecidableEq, Repr

inductive Token
  | leftParen
  | rightParen
  | leftBrace
  | rightBrace
  | comma
  | and
  | or
  | not
  | isIn
  | contains
  | textMatch (mode : TextMode)
  | ampersand
  | compare (operator : CompareOperator)
  | word (word : String)
  | text (contents : String)
  | byteString (contents : Bytes)
  | slice (contents : String)
  deriving DecidableEq, Repr

structure Spanned where
  token : Token
  offset : ℕ
  deriving DecidableEq, Repr

def describe : Token → String
  | .leftParen => "`(`"
  | .rightParen => "`)`"
  | .leftBrace => "`\x7b`"
  | .rightBrace => "`\x7d`"
  | .comma => "`,`"
  | .and => "`&&`"
  | .or => "`||`"
  | .not => "`!`"
  | .isIn => "`in`"
  | .contains => "`contains`"
  | .textMatch _ => "a text operator"
  | .ampersand => "`&`"
  | .compare _ => "a comparison operator"
  | .word word => "`" ++ word ++ "`"
  | .text _ => "quoted text"
  | .byteString _ => "a byte string"
  | .slice _ => "a byte slice"

/-! ### Programs -/

/-- An operation of a program in postfix order. -/
inductive Op (P : Type)
  | leaf (predicate : P)
  | not
  | and
  | or
  deriving DecidableEq, Repr

inductive Operator
  | not
  | and
  | or
  deriving DecidableEq, Repr

namespace Operator

def precedence : Operator → ℕ
  | .not => 3
  | .and => 2
  | .or => 1

def intoOp {P : Type} : Operator → Op P
  | .not => .not
  | .and => .and
  | .or => .or

end Operator

inductive Pending
  | operator (operator : Operator)
  | leftParen
  deriving DecidableEq, Repr

inductive Error (E : Type)
  | syntaxError (offset : ℕ) (message : String)
  | nestingLimit (limit : ℕ)
  | termLimit (limit : ℕ)
  | predicate (error : E)
  deriving DecidableEq, Repr

structure Limits where
  maxNesting : ℕ
  maxTerms : ℕ
  deriving DecidableEq, Repr

/-- The parser of one predicate that starts at an index: the predicate, the index behind it, and
what the predicate adds to the requirements of the filter. -/
structure PredicateParser (P R E : Type) where
  parse : List Spanned → ℕ → Except E (P × ℕ × (R → R))
  advances : ∀ {tokens start predicate next require},
    parse tokens start = .ok (predicate, next, require) → start < next ∧ next ≤ tokens.length

structure Compiler (P R : Type) where
  program : List (Op P)
  /-- The pending operators and parentheses, the last one first. -/
  operators : List Pending
  requirements : R
  expectOperand : Bool
  depth : ℕ
  terms : ℕ
  index : ℕ

structure Compiled (P R : Type) where
  program : List (Op P)
  requirements : R

section Compile

variable {P R E : Type} (parser : PredicateParser P R E) (limits : Limits) (tokens : List Spanned)

def consumeOperand (c : Compiler P R) (found : Spanned) : Except (Error E) (Compiler P R) :=
  match found.token with
  | .leftParen => do
    Except.rejectIf (c.depth + 1 > limits.maxNesting) (.nestingLimit limits.maxNesting)
    return { c with
      depth := c.depth + 1, operators := .leftParen :: c.operators, index := c.index + 1 }
  | .not =>
    .ok { c with operators := .operator .not :: c.operators, index := c.index + 1 }
  | .word _ => do
    Except.rejectIf (c.terms + 1 > limits.maxTerms) (.termLimit limits.maxTerms)
    let (predicate, next, require) ← (parser.parse tokens c.index).mapError .predicate
    return { c with
      program := c.program ++ [.leaf predicate], requirements := require c.requirements,
      terms := c.terms + 1, index := next, expectOperand := false }
  | other =>
    .error (.syntaxError found.offset ("expected a field or `(`, found " ++ describe other))

/-- The program and the pending operators once those that bind no weaker than the incoming one are
in the program. -/
def popOperators (incoming : Operator) : List (Op P) → List Pending → List (Op P) × List Pending
  | program, .operator top :: rest =>
    if top.precedence < incoming.precedence then (program, .operator top :: rest)
    else popOperators incoming (program ++ [top.intoOp]) rest
  | program, operators => (program, operators)

/-- The program and the pending operators once everything behind the last parenthesis is in the
program, if there is a parenthesis. -/
def closeParen : List (Op P) → List Pending → Option (List (Op P) × List Pending)
  | program, .operator top :: rest => closeParen (program ++ [top.intoOp]) rest
  | program, .leftParen :: rest => some (program, rest)
  | _, [] => none

/-- What an incoming `and` or `or` does. -/
def pushOperator (c : Compiler P R) (incoming : Operator) : Compiler P R :=
  let (program, operators) := popOperators incoming c.program c.operators
  { c with
    program, operators := .operator incoming :: operators, expectOperand := true,
    index := c.index + 1 }

def consumeOperator (c : Compiler P R) (found : Spanned) : Except (Error E) (Compiler P R) :=
  match found.token with
  | .and => .ok (pushOperator c .and)
  | .or => .ok (pushOperator c .or)
  | .rightParen => do
    Except.rejectIf (c.depth = 0) (.syntaxError found.offset "unmatched `)`")
    let (program, operators) ←
      Except.okOr (closeParen c.program c.operators) (.syntaxError found.offset "unmatched `)`")
    return { c with program, operators, depth := c.depth - 1, index := c.index + 1 }
  | other =>
    .error (.syntaxError found.offset
      ("expected `&&`, `||`, or `)`, found " ++ describe other))

/-- One turn of the loop, at a token. -/
def turn (c : Compiler P R) (found : Spanned) : Except (Error E) (Compiler P R) :=
  if c.expectOperand then consumeOperand parser limits tokens c found else consumeOperator c found

/-- The loop over the tokens. Each turn moves the index, so that it takes at most as many turns as
there are tokens. -/
def compileFrom : ℕ → Compiler P R → Except (Error E) (Compiler P R)
  | 0, c => .ok c
  | turns + 1, c =>
    match tokens[c.index]? with
    | none => .ok c
    | some found => do compileFrom turns (← turn parser limits tokens c found)

/-- The program once every pending operator is in it, if no parenthesis is pending. -/
def popAll : List (Op P) → List Pending → Option (List (Op P))
  | program, [] => some program
  | program, .operator top :: rest => popAll (program ++ [top.intoOp]) rest
  | _, .leftParen :: _ => none

def finish (sourceLen : ℕ) (c : Compiler P R) : Except (Error E) (Compiled P R) := do
  Except.rejectIf c.expectOperand
    (.syntaxError sourceLen "display filter ends where a field was expected")
  let program ← Except.okOr (popAll c.program c.operators) (.syntaxError sourceLen "unmatched `(`")
  return ⟨program, c.requirements⟩

/-- The compiler before the first token. -/
def Compiler.new (requirements : R) : Compiler P R := ⟨[], [], requirements, true, 0, 0, 0⟩

def compile (requirements : R) (sourceLen : ℕ) : Except (Error E) (Compiled P R) := do
  finish sourceLen (← compileFrom parser limits tokens tokens.length (.new requirements))

end Compile

end PacketCraftr.Filter
