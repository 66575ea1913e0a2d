import PacketCraftr.Filter.Parser

/-!
# The grammar of display filters

The grammar that the parser is for, over spans of the token sequence: an or-expression is built from
and-expressions, these from not-expressions, and these from primaries, which are predicates and
parenthesized or-expressions. The parser accepts exactly what derives from it within the limits, and
its program is the derived expression in postfix order.
-/

open List Except Nat

namespace PacketCraftr.Filter

open Operator Compiler

variable {P R E : Type}

/-- The operators with two operands. -/
inductive Connective
  | and
  | or

namespace Connective

def apply : Connective → Bool → Bool → Bool
  | and, a, b => a && b
  | or, a, b => a || b

def toOp : Connective → Op P
  | and => .and
  | or => .or

end Connective

/-- A parse tree. -/
inductive Expr (P : Type)
  | leaf (predicate : P)
  | not (operand : Expr P)
  | binary (connective : Connective) (left right : Expr P)
  | paren (inner : Expr P)

namespace Expr

/-- The meaning of a parse tree, given the predicates that hold. -/
def meaning (holds : P → Bool) : Expr P → Bool
  | leaf predicate => holds predicate
  | not operand => !operand.meaning holds
  | binary connective left right => connective.apply (left.meaning holds) (right.meaning holds)
  | paren inner => inner.meaning holds

def inPostfix : Expr P → List (Op P)
  | leaf predicate => [.leaf predicate]
  | not operand => operand.inPostfix ++ [.not]
  | binary connective left right => left.inPostfix ++ (right.inPostfix ++ [connective.toOp])
  | paren inner => inner.inPostfix

def terms : Expr P → ℕ
  | leaf _ => 1
  | not operand => operand.terms
  | binary _ left right => left.terms + right.terms
  | paren inner => inner.terms

def nesting : Expr P → ℕ
  | leaf _ => 0
  | not operand => operand.nesting
  | binary _ left right => max left.nesting right.nesting
  | paren inner => inner.nesting + 1

def Within (limits : Limits) (e : Expr P) : Prop :=
  e.nesting ≤ limits.maxNesting ∧ e.terms ≤ limits.maxTerms

end Expr

/-- The nonterminals of the grammar. -/
inductive Level
  | or
  | and
  | not
  | primary

/-- How tightly the operators of a level bind. -/
def Level.rank : Level → ℕ
  | .or => 1
  | .and => 2
  | .not => 3
  | .primary => 4

section Grammar

variable (parser : PredicateParser P R E) (tokens : List Spanned)

def tokenAt (i : ℕ) : Option Token := tokens[i]?.map Spanned.token

/-- The tokens from `i` to `j` derive the expression. -/
inductive Derives : Level → ℕ → ℕ → Expr P → Prop
  | orOfAnd {i j e} : Derives .and i j e → Derives .or i j e
  | or {i k j a b} : Derives .or i k a → tokenAt tokens k = some .or → Derives .and (k + 1) j b →
      Derives .or i j (.binary .or a b)
  | andOfNot {i j e} : Derives .not i j e → Derives .and i j e
  | and {i k j a b} : Derives .and i k a → tokenAt tokens k = some .and →
      Derives .not (k + 1) j b → Derives .and i j (.binary .and a b)
  | notOfPrimary {i j e} : Derives .primary i j e → Derives .not i j e
  | not {i j e} : tokenAt tokens i = some .not → Derives .not (i + 1) j e →
      Derives .not i j (.not e)
  | paren {i k e} : tokenAt tokens i = some .leftParen → Derives .or (i + 1) k e →
      tokenAt tokens k = some .rightParen → Derives .primary i (k + 1) (.paren e)
  | leaf {i j word predicate require} : tokenAt tokens i = some (.word word) →
      parser.parse tokens i = .ok (predicate, j, require) → Derives .primary i j (.leaf predicate)

variable {parser tokens} {l l' : Level} {i j : ℕ} {e : Expr P}

theorem Derives.weaken (h : Derives parser tokens l i j e) (hl : l'.rank ≤ l.rank) :
    Derives parser tokens l' i j e := by
  cases l <;> cases l' <;> simp only [Level.rank] at hl <;> first
    | exact h
    | exact .orOfAnd h
    | exact .orOfAnd (.andOfNot h)
    | exact .orOfAnd (.andOfNot (.notOfPrimary h))
    | exact .andOfNot h
    | exact .andOfNot (.notOfPrimary h)
    | exact .notOfPrimary h
    | omega

theorem tokenAt_eq_some {k : ℕ} {t : Token} :
    tokenAt tokens k = some t ↔ ∃ found, tokens[k]? = some found ∧ found.token = t :=
  Option.map_eq_some_iff

end Grammar

/-! ### What the pending operators stand for -/

/-- The parentheses among the pending operators. -/
def parens (ops : List Pending) : ℕ := ops.count .leftParen

/-- The predicates in a program. -/
def leaves (program : List (Op P)) : ℕ :=
  program.countP fun op => match op with
    | .leaf _ => true
    | _ => false

theorem Expr.leaves_inPostfix (e : Expr P) : leaves e.inPostfix = e.terms := by
  induction e with
  | leaf p => rfl
  | not e ih => simpa [inPostfix, leaves, terms] using ih
  | binary cn a b iha ihb =>
    simp only [leaves] at iha ihb
    cases cn <;> simp [inPostfix, Connective.toOp, leaves, terms, iha, ihb]
  | paren e ih => exact ih

theorem leaves_intoOp (program : List (Op P)) (o : Operator) :
    leaves (program ++ [o.intoOp]) = leaves program := by
  cases o <;> simp [leaves, intoOp]

/-- The last pending operator, if it is not a parenthesis, binds weaker than `o`. -/
def Below (o : Operator) (ops : List Pending) : Prop :=
  ∀ top rest, ops = .operator top :: rest → top.precedence < o.precedence

section Frames

variable (parser : PredicateParser P R E) (limits : Limits) (tokens : List Spanned)

/-- The tokens before the index have been read, an operand is expected there, and the pending
operators and the program are what the parser has then. -/
inductive Frames : List Pending → List (Op P) → ℕ → Prop
  | start : Frames [] [] 0
  | paren {ops program i} : Frames ops program i → tokenAt tokens i = some .leftParen →
      parens ops + 1 ≤ limits.maxNesting → Frames (.leftParen :: ops) program (i + 1)
  | not {ops program i} : Frames ops program i → tokenAt tokens i = some .not →
      Frames (.operator .not :: ops) program (i + 1)
  | and {ops program i k a} : Frames ops program i → Below .and ops →
      Derives parser tokens .and i k a → a.nesting + parens ops ≤ limits.maxNesting →
      tokenAt tokens k = some .and → Frames (.operator .and :: ops) (program ++ a.inPostfix) (k + 1)
  | or {ops program i k a} : Frames ops program i → Below .or ops →
      Derives parser tokens .or i k a → a.nesting + parens ops ≤ limits.maxNesting →
      tokenAt tokens k = some .or → Frames (.operator .or :: ops) (program ++ a.inPostfix) (k + 1)

/-- How tightly an operand must bind to be the right operand of a pending operator. -/
def operandRank : Operator → ℕ
  | .not => 3
  | .and => 3
  | .or => 2

/-- The parser has just read an operand of the level, up to the index. -/
structure Operand (l : Level) (ops : List Pending) (program : List (Op P)) (j : ℕ) : Prop where
  reads : ∃ before i e, Frames parser limits tokens ops before i ∧ Derives parser tokens l i j e ∧
    e.nesting + parens ops ≤ limits.maxNesting ∧ program = before ++ e.inPostfix
  ready : ∀ top rest, ops = .operator top :: rest → operandRank top ≤ l.rank

variable {parser limits tokens} {l : Level} {ops : List Pending} {program : List (Op P)} {j : ℕ}

/-- The level of the expressions that an operator builds. -/
def Operator.level : Operator → Level
  | .not => .not
  | .and => .and
  | .or => .or

theorem Operator.rank_level (o : Operator) : o.level.rank = o.precedence := by cases o <;> rfl

theorem operandRank_le {o top : Operator} (h : top.precedence < o.precedence) :
    operandRank top ≤ o.precedence := by
  cases o <;> cases top <;> simp_all [precedence, operandRank]

theorem Operand.reduce {o : Operator}
    (h : Operand parser limits tokens l (.operator o :: ops) program j) :
    Operand parser limits tokens o.level ops (program ++ [o.intoOp]) j := by
  obtain ⟨⟨before, i, e, hf, hd, hn, rfl⟩, hrd⟩ := h
  have hr := hrd o ops rfl
  have hn : e.nesting + parens ops ≤ limits.maxNesting := by
    simpa [parens] using hn
  cases hf with
  | not hb ht =>
    refine ⟨⟨_, _, .not e, hb, .not ht (hd.weaken hr), hn, ?_⟩, ?_⟩
    · rw [append_assoc]
      rfl
    · intro top rest _
      cases top <;> decide
  | @and _ first i k a hb hw hl hnt ht =>
    refine ⟨⟨first, i, .binary .and a e, hb, .and hl ht (hd.weaken hr), ?_, ?_⟩, ?_⟩
    · simp only [Expr.nesting]
      omega
    · simp only [Expr.inPostfix, append_assoc]
      rfl
    · intro top rest ho
      exact operandRank_le (hw top rest ho)
  | @or _ first i k a hb hw hl hnt ht =>
    refine ⟨⟨first, i, .binary .or a e, hb, .or hl ht (hd.weaken hr), ?_, ?_⟩, ?_⟩
    · simp only [Expr.nesting]
      omega
    · simp only [Expr.inPostfix, append_assoc]
      rfl
    · intro top rest ho
      exact operandRank_le (hw top rest ho)

variable (h : Operand parser limits tokens l ops program j)
include h

/-- The incoming operator finds its left operand. -/
theorem Operand.popOperators {incoming : Operator} (hr : incoming.precedence ≤ l.rank) :
    ∃ l', Operand parser limits tokens l' (popOperators incoming program ops).2
        (popOperators incoming program ops).1 j ∧
      incoming.precedence ≤ l'.rank ∧ Below incoming (Filter.popOperators incoming program ops).2 ∧
      parens (Filter.popOperators incoming program ops).2 = parens ops ∧
      leaves (Filter.popOperators incoming program ops).1 = leaves program := by
  induction ops generalizing l program with
  | nil => exact ⟨l, h, hr, nofun, rfl, rfl⟩
  | cons top rest ih =>
    cases top with
    | leftParen => exact ⟨l, h, hr, nofun, rfl, rfl⟩
    | operator top =>
      rw [Filter.popOperators]
      split_ifs with hlow
      · refine ⟨l, h, hr, ?_, rfl, rfl⟩
        rintro _ _ ⟨rfl, rfl⟩
        exact hlow
      · obtain ⟨l', h', hr', hb, hp, hl⟩ := ih h.reduce (by rw [rank_level]; omega)
        refine ⟨l', h', hr', hb, hp.trans ?_, hl.trans (leaves_intoOp _ _)⟩
        simp [parens]

variable {program' : List (Op P)}

theorem Operand.closeParen {ops' : List Pending} (ht : tokenAt tokens j = some .rightParen)
    (hc : closeParen program ops = some (program', ops')) :
    Operand parser limits tokens .primary ops' program' (j + 1) ∧
      parens ops = parens ops' + 1 ∧ leaves program' = leaves program := by
  induction ops generalizing l program with
  | nil => cases hc
  | cons top rest ih =>
    cases top with
    | operator top =>
      obtain ⟨ho, hp, hl⟩ := ih h.reduce hc
      refine ⟨ho, ?_, hl.trans (leaves_intoOp _ _)⟩
      rw [← hp]
      simp [parens]
    | leftParen =>
      cases hc
      obtain ⟨⟨before, i, e, hf, hd, hn, rfl⟩, -⟩ := h
      cases hf with
      | @paren _ _ i hb hoe hlim =>
        have hp : parens (.leftParen :: ops') = parens ops' + 1 := by simp [parens]
        refine ⟨⟨⟨before, i, .paren e, hb,
          .paren hoe (hd.weaken (by cases l <;> decide)) ht, ?_, rfl⟩, ?_⟩,
          hp, rfl⟩
        · rw [Expr.nesting]
          omega
        · intro top rest _
          cases top <;> decide

/-- At the end the program is that of an or-expression over all the tokens. -/
theorem Operand.popAll (hp : popAll program ops = some program') :
    ∃ e, Derives parser tokens .or 0 j e ∧ e.nesting ≤ limits.maxNesting ∧
      program' = e.inPostfix ∧ leaves program' = leaves program := by
  induction ops generalizing l program with
  | nil =>
    cases hp
    obtain ⟨⟨before, i, e, hf, hd, hn, rfl⟩, -⟩ := h
    cases hf
    exact ⟨e, hd.weaken (by cases l <;> decide), hn, rfl, rfl⟩
  | cons top rest ih =>
    cases top with
    | leftParen => cases hp
    | operator top =>
      obtain ⟨e, hd, hn, hpr, hl⟩ := ih h.reduce hp
      exact ⟨e, hd, hn, hpr, hl.trans (leaves_intoOp _ _)⟩

end Frames

/-! ### The parser accepts nothing else -/

section Sound

variable (parser : PredicateParser P R E) (limits : Limits) (tokens : List Spanned)

/-- What holds between turns of the loop. -/
structure ParserInv (c : Compiler P R) : Prop where
  depth : c.depth = parens c.operators
  depth_le : c.depth ≤ limits.maxNesting
  terms : c.terms = leaves c.program
  terms_le : c.terms ≤ limits.maxTerms
  index_le : c.index ≤ tokens.length
  expects : c.expectOperand → Frames parser limits tokens c.operators c.program c.index
  reads : ¬ c.expectOperand →
    Operand parser limits tokens .primary c.operators c.program c.index

variable {parser limits tokens} {c c' : Compiler P R} {f : Spanned}

theorem ParserInv.new (r : R) : ParserInv parser limits tokens (.new r : Compiler P R) :=
  ⟨rfl, zero_le _, rfl, zero_le _, zero_le _, fun _ => .start, fun h => absurd rfl h⟩

theorem index_lt_of_getElem? {i : ℕ} {f : Spanned} (h : tokens[i]? = some f) : i < tokens.length :=
  (List.getElem?_eq_some_iff.mp h).1

section

variable (h : ParserInv parser limits tokens c)
include h

theorem ParserInv.consumeOperand (he : c.expectOperand) (hfn : tokens[c.index]? = some f)
    (hs : consumeOperand parser limits tokens c f = .ok c') :
    ParserInv parser limits tokens c' := by
  have hlt := index_lt_of_getElem? hfn
  have hf := h.expects he
  obtain ⟨token, o⟩ := f
  have ht : tokenAt tokens c.index = some token := by rw [tokenAt, hfn]; rfl
  cases token with
  | leftParen =>
    obtain ⟨hl, hs⟩ := rejectIf_bind_eq_ok.mp hs
    cases hs
    have hpn : parens (.leftParen :: c.operators) = parens c.operators + 1 := by simp [parens]
    have hd := h.depth
    refine ⟨by rw [hpn, ← h.depth], by dsimp only; omega, h.terms, h.terms_le, hlt,
      fun _ => .paren hf ht (by omega), fun hr => absurd he hr⟩
  | not =>
    cases hs
    exact ⟨h.depth.trans (by simp [parens]), h.depth_le, h.terms, h.terms_le, hlt,
      fun _ => .not hf ht, fun hr => absurd he hr⟩
  | word word =>
    obtain ⟨hl, hs⟩ := rejectIf_bind_eq_ok.mp hs
    obtain ⟨⟨pred, next, r⟩, hp, hs⟩ := bind_eq_ok.mp hs
    rw [mapError_eq_ok] at hp
    cases hs
    refine ⟨h.depth, h.depth_le, ?_, by dsimp only; omega, (parser.advances hp).2, nofun,
      fun _ => ⟨⟨c.program, c.index, .leaf pred, hf, .leaf ht hp, ?_, rfl⟩, ?_⟩⟩
    · have htr := h.terms
      simp only [leaves] at htr ⊢
      simp [htr]
    · rw [← h.depth]
      simpa [Expr.nesting] using h.depth_le
    · intro top rest _
      cases top <;> decide
  | _ => cases hs

theorem ParserInv.pushOperator {o : Operator} (hr : ¬ c.expectOperand)
    (hlt : c.index < tokens.length)
    (hf : ∀ {l : Level} {ops : List Pending} {program : List (Op P)}, Operand parser limits
      tokens l ops program c.index → o.precedence ≤ l.rank → Below o ops → Frames parser limits
      tokens (.operator o :: ops) program (c.index + 1)) (ho : o.precedence ≤ 2) :
    ParserInv parser limits tokens (pushOperator c o) := by
  obtain ⟨l, hop, hrn, hb, hp, hl⟩ :=
    (h.reads hr).popOperators (show o.precedence ≤ Level.primary.rank from by
      simp only [Level.rank]; omega)
  refine ⟨?_, h.depth_le, h.terms.trans hl.symm, h.terms_le, hlt,
    fun _ => hf hop hrn hb, fun hnot => absurd rfl hnot⟩
  exact h.depth.trans hp.symm

theorem ParserInv.consumeOperator (hr : ¬ c.expectOperand)
    (hfn : tokens[c.index]? = some f) (hs : consumeOperator (E := E) c f = .ok c') :
    ParserInv parser limits tokens c' := by
  have hlt := index_lt_of_getElem? hfn
  obtain ⟨token, o⟩ := f
  have ht : tokenAt tokens c.index = some token := by rw [tokenAt, hfn]; rfl
  cases token with
  | and =>
    cases hs
    refine h.pushOperator hr hlt ?_ (by decide)
    rintro l ops _ ⟨⟨before, i, e, hf, hdr, hn, rfl⟩, -⟩ hrn hb
    exact .and hf hb (hdr.weaken hrn) hn ht
  | or =>
    cases hs
    refine h.pushOperator hr hlt ?_ (by decide)
    rintro l ops _ ⟨⟨before, i, e, hf, hdr, hn, rfl⟩, -⟩ hrn hb
    exact .or hf hb (hdr.weaken hrn) hn ht
  | rightParen =>
    obtain ⟨hdp, hs⟩ := rejectIf_bind_eq_ok.mp hs
    obtain ⟨⟨program, ops⟩, hc, hs⟩ := bind_eq_ok.mp hs
    cases hs
    obtain ⟨ho, hp, hl⟩ := (h.reads hr).closeParen ht (okOr_eq_ok.mp hc)
    have hd := h.depth
    have hle := h.depth_le
    exact ⟨by dsimp only; omega, by dsimp only; omega, h.terms.trans hl.symm, h.terms_le, hlt,
      fun he => absurd he hr, fun _ => ho⟩
  | _ => cases hs

theorem ParserInv.turn (hf : tokens[c.index]? = some f)
    (hs : turn parser limits tokens c f = .ok c') : ParserInv parser limits tokens c' := by
  unfold Filter.turn at hs
  split_ifs at hs with he
  · exact h.consumeOperand he hf hs
  · exact h.consumeOperator he hf hs

end

theorem index_lt_of_turn (hs : turn parser limits tokens c f = .ok c') : c.index < c'.index := by
  unfold turn at hs
  obtain ⟨token, o⟩ := f
  split_ifs at hs with he
  · cases token with
    | leftParen =>
      obtain ⟨-, hs⟩ := rejectIf_bind_eq_ok.mp hs
      cases hs
      exact lt_succ_self _
    | not =>
      cases hs
      exact lt_succ_self _
    | word word =>
      obtain ⟨-, hs⟩ := rejectIf_bind_eq_ok.mp hs
      obtain ⟨⟨pred, next, r⟩, hp, hs⟩ := bind_eq_ok.mp hs
      rw [mapError_eq_ok] at hp
      cases hs
      exact (parser.advances hp).1
    | _ => cases hs
  · cases token with
    | and | or =>
      cases hs
      exact lt_succ_self _
    | rightParen =>
      obtain ⟨-, hs⟩ := rejectIf_bind_eq_ok.mp hs
      obtain ⟨_, -, hs⟩ := bind_eq_ok.mp hs
      cases hs
      exact lt_succ_self _
    | _ => cases hs

/-- The loop keeps what holds between turns, and ends behind the last token. -/
theorem ParserInv.compileFrom {turns : ℕ} (h : ParserInv parser limits tokens c)
    (ht : tokens.length ≤ c.index + turns)
    (hl : compileFrom parser limits tokens turns c = .ok c') :
    ParserInv parser limits tokens c' ∧ c'.index = tokens.length := by
  induction turns generalizing c with
  | zero =>
    cases hl
    exact ⟨h, le_antisymm h.index_le ht⟩
  | succ turns ih =>
    rw [Filter.compileFrom] at hl
    split at hl
    · rename_i hn
      cases hl
      exact ⟨h, le_antisymm h.index_le (List.getElem?_eq_none_iff.mp hn)⟩
    · rename_i f hf
      obtain ⟨next, hs, hl⟩ := bind_eq_ok.mp hl
      have hlt := index_lt_of_turn hs
      exact ih (h.turn hf hs) (by omega) hl

/-- What the parser accepts derives from the grammar, within the limits. -/
theorem exists_derives_of_compile {r : R} {s : ℕ} {cm : Compiled P R}
    (h : compile parser limits tokens r s = .ok cm) :
    ∃ e, Derives parser tokens .or 0 tokens.length e ∧ e.Within limits ∧
      cm.program = e.inPostfix := by
  obtain ⟨c, hl, hf⟩ := bind_eq_ok.mp h
  obtain ⟨hinv, hi⟩ := (ParserInv.new r).compileFrom (le_add_left _ _) hl
  obtain ⟨hr, hf⟩ := rejectIf_bind_eq_ok.mp hf
  obtain ⟨program, hp, hf⟩ := bind_eq_ok.mp hf
  cases hf
  obtain ⟨e, hd, hn, rfl, hlv⟩ := (hinv.reads hr).popAll (okOr_eq_ok.mp hp)
  rw [hi] at hd
  refine ⟨e, hd, ⟨hn, ?_⟩, rfl⟩
  rw [← e.leaves_inPostfix, hlv, ← hinv.terms]
  exact hinv.terms_le

end Sound

/-! ### The parser accepts everything else -/

section Complete

variable (parser : PredicateParser P R E) (limits : Limits) (tokens : List Spanned)

/-- The parser takes a turn from one state to the next. -/
def Turns (c c' : Compiler P R) : Prop :=
  ∃ found, tokens[c.index]? = some found ∧ turn parser limits tokens c found = .ok c'

/-- The parser gets from one state to another. -/
abbrev Reaches : Compiler P R → Compiler P R → Prop :=
  Relation.ReflTransGen (Turns parser limits tokens)

variable {parser limits tokens} {c c' : Compiler P R}

theorem compileFrom_of_reaches (h : Reaches parser limits tokens c c')
    (hend : tokens.length ≤ c'.index) {turns : ℕ} (htr : tokens.length ≤ c.index + turns) :
    compileFrom parser limits tokens turns c = .ok c' := by
  induction h using Relation.ReflTransGen.head_induction_on generalizing turns with
  | refl =>
    cases turns with
    | zero => rfl
    | succ turns => rw [compileFrom, List.getElem?_eq_none_iff.mpr hend]
  | @head c mid ht _ ih =>
    obtain ⟨found, hf, hs⟩ := ht
    have hlt := index_lt_of_getElem? hf
    have hm := index_lt_of_turn hs
    obtain ⟨turns, rfl⟩ : ∃ n, turns = n + 1 := ⟨turns - 1, by omega⟩
    rw [compileFrom, hf]
    dsimp only
    rw [hs]
    exact ih (by omega)

variable {ops : List Operator} {e : Expr P} {program : List (Op P)}

theorem popOperators_append {incoming : Operator} {bl : List Pending}
    (hops : ∀ o ∈ ops, incoming.precedence ≤ o.precedence) (hb : Below incoming bl)
    (program : List (Op P)) :
    popOperators incoming program (ops.map .operator ++ bl) = (program ++ ops.map intoOp, bl) := by
  induction ops generalizing program with
  | nil =>
    rw [map_nil, nil_append, map_nil, append_nil]
    match bl, hb with
    | [], _ | .leftParen :: _, _ => rfl
    | .operator top :: rest, hb => rw [popOperators, if_pos (hb top rest rfl)]
  | cons o ops ih =>
    obtain ⟨ho, hops⟩ := forall_mem_cons.mp hops
    rw [map_cons, cons_append, popOperators, if_neg (by omega), ih hops, append_assoc]
    rfl

theorem closeParen_append (ops : List Operator) (bl : List Pending) (program : List (Op P)) :
    closeParen program (ops.map .operator ++ .leftParen :: bl) =
      some (program ++ ops.map intoOp, bl) := by
  induction ops generalizing program with
  | nil =>
    rw [map_nil, map_nil, append_nil]
    rfl
  | cons o ops ih =>
    rw [map_cons, cons_append, closeParen, ih, append_assoc]
    rfl

theorem popAll_map (ops : List Operator) (program : List (Op P)) :
    popAll program (ops.map .operator) = some (program ++ ops.map intoOp) := by
  induction ops generalizing program with
  | nil =>
    rw [map_nil, map_nil, append_nil]
    rfl
  | cons o ops ih =>
    rw [map_cons, popAll, ih, append_assoc]
    rfl

/-- The state behind an operand: `out` of its program is out, and the rest of it are the operators
`ops`, which are still pending. -/
def Compiler.behind (c : Compiler P R) (out : List (Op P)) (ops : List Operator) (require : R)
    (terms j : ℕ) : Compiler P R :=
  { program := c.program ++ out, operators := ops.map .operator ++ c.operators,
    requirements := require, expectOperand := false, depth := c.depth, terms := c.terms + terms,
    index := j }

/-- The operators below leave an operand of the level alone. -/
def Clear (l : Level) (ops : List Pending) : Prop :=
  ∀ top rest, ops = .operator top :: rest → l.rank ≤ 2 → top.precedence < l.rank

/-- The state behind an incoming operator, in which its right operand is expected. -/
def Compiler.between (c : Compiler P R) (left : List (Op P)) (o : Operator) (require : R)
    (terms k : ℕ) : Compiler P R :=
  { program := c.program ++ left, operators := .operator o :: c.operators, requirements := require,
    expectOperand := true, depth := c.depth, terms := c.terms + terms, index := k + 1 }

/-- The token of a binary operator. -/
def Operator.token : Operator → Token
  | .not => .not
  | .and => .and
  | .or => .or

theorem turns_between {o : Operator} (hb : o.precedence ≤ 2) {out : List (Op P)} {r : R}
    {terms k : ℕ} (ht : tokenAt tokens k = some o.token)
    (ho : ∀ p ∈ ops, o.level.rank ≤ p.precedence) (hc : Clear o.level c.operators) :
    Turns parser limits tokens (c.behind out ops r terms k)
      (c.between (out ++ ops.map intoOp) o r terms k) := by
  obtain ⟨⟨token, os⟩, hf, ht⟩ := tokenAt_eq_some.mp ht
  refine ⟨_, hf, ?_⟩
  have hbl : Below o c.operators := by
    intro top rest hr
    have hlt := hc top rest hr (by rw [rank_level]; exact hb)
    rwa [rank_level] at hlt
  rw [rank_level] at ho
  have hp : turn parser limits tokens (c.behind out ops r terms k) ⟨token, os⟩ =
      .ok (pushOperator (c.behind out ops r terms k) o) := by
    subst ht
    cases o with
    | not => exact absurd hb (by decide)
    | and | or => rfl
  rw [hp]
  simp only [pushOperator, behind, between, popOperators_append ho hbl, append_assoc]

variable (parser limits tokens) in
/-- The parser reads an operand up to `j`: it comes to the state behind it with no operator pending
that binds weaker than the level. -/
def Reads (l : Level) (c : Compiler P R) (j : ℕ) (e : Expr P) : Prop :=
  ∃ out ops require, Reaches parser limits tokens c (c.behind out ops require e.terms j) ∧
    out ++ ops.map intoOp = e.inPostfix ∧ ∀ o ∈ ops, l.rank ≤ o.precedence

theorem Reads.mono {l l' : Level} {j : ℕ} (h : Reads parser limits tokens l c j e)
    (hl : l'.rank ≤ l.rank) : Reads parser limits tokens l' c j e := by
  obtain ⟨out, ops, require, hr, hout, hops⟩ := h
  exact ⟨out, ops, require, hr, hout, fun o ho => hl.trans (hops o ho)⟩

theorem Reads.binary {o : Operator} (hb : o.precedence ≤ 2) {f : Connective}
    (hf : f.toOp = (o.intoOp : Op P)) {a b : Expr P} {k j : ℕ} (hc : Clear o.level c.operators)
    (htk : tokenAt tokens k = some o.token) (hl : Reads parser limits tokens o.level c k a)
    (hr : ∀ require,
      Reads parser limits tokens o.level (c.between a.inPostfix o require a.terms k) j b) :
    Reads parser limits tokens o.level c j (.binary f a b) := by
  obtain ⟨out, ops, require, hl, ho, hops⟩ := hl
  obtain ⟨outb, opsb, requireb, hr, hot, hop⟩ := hr require
  have ht : Turns parser limits tokens (c.behind out ops require a.terms k) _ :=
    turns_between hb htk hops hc
  refine ⟨a.inPostfix ++ outb, opsb ++ [o], requireb, ?_, ?_, ?_⟩
  · rw [ho] at ht
    refine (hl.tail ht).trans ?_
    simpa [behind, between, Expr.terms, add_assoc] using hr
  · simp [Expr.inPostfix, hf, ← hot]
  · intro p hp
    rcases mem_append.mp hp with hp | hp
    · exact hop p hp
    · exact (mem_singleton.mp hp).symm ▸ o.rank_level.le

theorem consumeOperator_rightParen {ops : List Pending} {o : ℕ} (hd : c.depth ≠ 0)
    (hc : closeParen c.program c.operators = some (program, ops)) :
    consumeOperator (E := E) c ⟨.rightParen, o⟩ =
      .ok { c with program, operators := ops, depth := c.depth - 1, index := c.index + 1 } := by
  rw [consumeOperator]
  rw [rejectIf_neg hd, hc]
  rfl

variable (limits) in
/-- An operand of the level is expected at `i`, and the limits leave room for it. -/
structure Awaits (l : Level) (i : ℕ) (e : Expr P) (c : Compiler P R) : Prop where
  index : c.index = i
  expects : c.expectOperand
  clear : Clear l c.operators
  nesting : c.depth + e.nesting ≤ limits.maxNesting
  terms : c.terms + e.terms ≤ limits.maxTerms

section Binary

variable {l l' : Level} {i k : ℕ} {f : Connective} {a b : Expr P}

theorem Awaits.left (h : Awaits limits l i (.binary f a b) c) : Awaits limits l i a c := by
  obtain ⟨hi, he, hc, hn, ht⟩ := h
  simp only [Expr.nesting, Expr.terms] at hn ht
  exact ⟨hi, he, hc, by omega, by omega⟩

theorem Awaits.right (h : Awaits limits l i (.binary f a b) c) {o : Operator}
    (hc : Clear l' (.operator o :: c.operators)) (r : R) :
    Awaits limits l' (k + 1) b (c.between a.inPostfix o r a.terms k) := by
  obtain ⟨-, -, -, hn, ht⟩ := h
  simp only [Expr.nesting, Expr.terms] at hn ht
  refine ⟨rfl, rfl, hc, ?_, ?_⟩ <;> dsimp only [between] <;> omega

end Binary

/-- From a state in which an operand is expected, the parser reads whatever derives there. -/
theorem reads_of_derives {l : Level} {i j : ℕ} (h : Derives parser tokens l i j e)
    {c : Compiler P R} (hc : Awaits limits l i e c) : Reads parser limits tokens l c j e := by
  have hfr : ∀ {l : Level} {ops : List Pending}, 2 < l.rank → Clear l ops :=
    fun hl _ _ _ h => absurd h (not_le.mpr hl)
  induction h generalizing c with
  | orOfAnd _ ih =>
    refine (ih { hc with clear := fun top rest h _ => ?_ }).mono (by decide)
    exact (hc.clear top rest h (by decide)).trans (by decide)
  | andOfNot _ ih => exact (ih { hc with clear := hfr (by decide) }).mono (by decide)
  | notOfPrimary _ ih => exact (ih { hc with clear := hfr (by decide) }).mono (by decide)
  | @or i k j a b _ ht _ iha ihb =>
    have hcl : Clear .and (.operator .or :: c.operators) := by
      rintro _ _ ⟨rfl, rfl⟩ _
      decide
    exact .binary (o := .or) (by decide) rfl hc.clear ht (iha hc.left)
      fun require => (ihb (hc.right hcl require)).mono (by decide)
  | @and i k j a b _ ht _ iha ihb =>
    exact .binary (o := .and) (by decide) rfl hc.clear ht (iha hc.left)
      fun require => (ihb (hc.right (hfr (by decide)) require)).mono (by decide)
  | @not i j e ht _ ih =>
    obtain ⟨⟨token, os⟩, hf, rfl⟩ := tokenAt_eq_some.mp ht
    have htn : Turns parser limits tokens c
        { c with operators := .operator .not :: c.operators, index := c.index + 1 } := by
      refine ⟨_, by rw [hc.index]; exact hf, ?_⟩
      rw [turn, if_pos hc.expects]
      rfl
    obtain ⟨out, ops, require, hr, hout, hops⟩ :=
      ih (c := { c with operators := .operator .not :: c.operators, index := c.index + 1 })
        ⟨congrArg (· + 1) hc.index, hc.expects, hfr (by decide), hc.nesting, hc.terms⟩
    refine ⟨out, ops ++ [.not], require, ?_, ?_, ?_⟩
    · refine .head htn ?_
      simpa [behind, Expr.terms] using hr
    · simp [Expr.inPostfix, ← hout, intoOp]
    · intro o ho
      rcases mem_append.mp ho with ho | ho
      · exact hops o ho
      · rw [mem_singleton.mp ho]
        decide
  | @paren i k e hop _ hcs ih =>
    obtain ⟨⟨token, os⟩, hf, rfl⟩ := tokenAt_eq_some.mp hop
    obtain ⟨⟨token', os'⟩, hf', rfl⟩ := tokenAt_eq_some.mp hcs
    obtain ⟨hi, he, -, hn, htr⟩ := hc
    simp only [Expr.nesting] at hn
    have htn : Turns parser limits tokens c
        { c with
          depth := c.depth + 1, operators := .leftParen :: c.operators, index := c.index + 1 } := by
      refine ⟨_, by rw [hi]; exact hf, ?_⟩
      rw [turn, if_pos he, consumeOperand]
      rw [rejectIf_neg (by omega)]
      rfl
    obtain ⟨out, ops, require, hr, hout, -⟩ :=
      ih (c := { c with
          depth := c.depth + 1, operators := .leftParen :: c.operators, index := c.index + 1 })
        ⟨congrArg (· + 1) hi, he, fun _ _ h => (nomatch h), by dsimp only; omega, htr⟩
    refine ⟨e.inPostfix, [], require, ?_, append_nil _, fun _ h => nomatch h⟩
    refine .head htn (hr.tail ⟨_, hf', ?_⟩)
    rw [turn, if_neg (by simp [behind]),
      consumeOperator_rightParen (succ_ne_zero c.depth) (closeParen_append _ _ _)]
    simp [behind, Expr.terms, ← hout]
  | @leaf i j word pred require ht hp =>
    obtain ⟨⟨token, os⟩, hf, rfl⟩ := tokenAt_eq_some.mp ht
    have htr := hc.terms
    simp only [Expr.terms] at htr
    refine ⟨[.leaf pred], [], require c.requirements, .single ⟨_,
      by rw [hc.index]; exact hf, ?_⟩, rfl, fun _ h => nomatch h⟩
    rw [turn, if_pos hc.expects, consumeOperand]
    dsimp only
    rw [rejectIf_neg (by omega), hc.index, hp]
    rfl

theorem finish_ok {s : ℕ} (hr : ¬ c.expectOperand)
    (hp : popAll c.program c.operators = some program) :
    finish (E := E) s c = .ok ⟨program, c.requirements⟩ := by
  rw [finish, rejectIf_neg hr, hp]
  rfl

/-- What derives from the grammar within the limits is accepted. -/
theorem compile_of_derives (h : Derives parser tokens .or 0 tokens.length e)
    (hw : e.Within limits) (r : R) (s : ℕ) :
    ∃ require, compile parser limits tokens r s = .ok ⟨e.inPostfix, require⟩ := by
  obtain ⟨out, ops, require, hr, ho, -⟩ :=
    reads_of_derives h (c := .new r) ⟨rfl, rfl, fun _ _ h => (nomatch h),
      by simpa [new] using hw.1, by simpa [new] using hw.2⟩
  refine ⟨require, ?_⟩
  rw [compile, compileFrom_of_reaches hr (le_refl _) (le_add_left _ _)]
  refine finish_ok (c := (new r).behind out ops require e.terms tokens.length) Bool.false_ne_true ?_
  rw [← ho]
  simpa [behind, new] using popAll_map ops out

end Complete

end PacketCraftr.Filter
