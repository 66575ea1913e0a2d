import PacketCraftr.Filter.Grammar

/-!
# Jump-threaded plans

`filter/plan.rs` lowers a program in postfix order to a table of predicates, each with the step to
go to when it holds and when it does not. Positions are 32-bit words as in the source; `none` is a
panic. The backward pass hands the targets of an operation down to its operands; `Expr.thread` says
the same by recursion over the expression.
-/

open List

namespace PacketCraftr.Filter

variable {P : Type}

/-! ### The plan -/

def word32 : ℕ := 2 ^ 32

def matchTarget : ℕ := word32 - 1

def missTarget : ℕ := word32 - 2

structure Step (P : Type) where
  predicate : P
  onTrue : ℕ
  onFalse : ℕ
  deriving DecidableEq, Repr

structure Plan (P : Type) where
  steps : List (Step P)
  deriving DecidableEq, Repr

namespace Plan

/-- One turn of the forward pass over the operations: the positions of left operands, and the
positions where the operands that are still open end. -/
def rootStep : List ℕ × List ℕ → Op P × ℕ → List ℕ × List ℕ
  | (leftRoot, roots), (.leaf _, index) => (leftRoot, index % word32 :: roots)
  | (leftRoot, roots), (.not, index) => (leftRoot, index % word32 :: roots.tail)
  | (leftRoot, roots), (.and, index) | (leftRoot, roots), (.or, index) =>
    (leftRoot.set index (roots.tail.head?.getD 0), index % word32 :: roots.tail.tail)

def store (values : List ℕ) (position value : ℕ) : Option (List ℕ) :=
  if position < values.length then some (values.set position value) else none

/-- The targets of the operations when they hold and when they do not. -/
structure Targets where
  onTrue : List ℕ
  onFalse : List ℕ
  deriving DecidableEq, Repr

/-- Give a position its two targets. -/
def Targets.assign (targets : Targets) (position onTrue onFalse : ℕ) : Option Targets := do
  return ⟨← store targets.onTrue position onTrue, ← store targets.onFalse position onFalse⟩

/-- One turn of the backward pass. In postfix order the right operand ends just before the
operation. -/
def targetStep (leftRoot : List ℕ) (targets : Targets) : Op P × ℕ → Option Targets
  | (.leaf _, _) => some targets
  | (.not, index) => do
    guard (0 < index)
    targets.assign (index - 1) (targets.onFalse[index]?.getD 0) (targets.onTrue[index]?.getD 0)
  | (.and, index) => do
    guard (0 < index)
    let onTrue := targets.onTrue[index]?.getD 0
    let onFalse := targets.onFalse[index]?.getD 0
    let left := leftRoot[index]?.getD 0
    let targets ← targets.assign (index - 1) onTrue onFalse
    guard (left + 1 < word32)
    targets.assign left (left + 1) onFalse
  | (.or, index) => do
    guard (0 < index)
    let onTrue := targets.onTrue[index]?.getD 0
    let onFalse := targets.onFalse[index]?.getD 0
    let left := leftRoot[index]?.getD 0
    let targets ← targets.assign (index - 1) onTrue onFalse
    guard (left + 1 < word32)
    targets.assign left onTrue (left + 1)

/-- The targets before the backward pass: those of the last operation are the two verdicts. -/
def verdicts (length : ℕ) : Option Targets :=
  let programLen := length % word32
  let zeros := replicate length 0
  if programLen = 0 then some ⟨zeros, zeros⟩
  else do
    guard (programLen + 1 < word32)
    return ⟨zeros.set (programLen - 1) programLen, zeros.set (programLen - 1) (programLen + 1)⟩

/-- One turn of the pass that numbers the predicates. -/
def numberStep (targets : Targets) : List ℕ × List (Step P) → Op P × ℕ → List ℕ × List (Step P)
  | (stepOf, steps), (.leaf predicate, index) =>
    (stepOf.set index (steps.length % word32),
      steps ++ [⟨predicate, targets.onTrue[index]?.getD 0, targets.onFalse[index]?.getD 0⟩])
  | acc, _ => acc

/-- The step behind a target. -/
def resolve (programLen : ℕ) (stepOf : List ℕ) (target : ℕ) : Option ℕ :=
  if target = programLen then some matchTarget
  else if target = programLen + 1 then some missTarget
  else stepOf[target]?

def resolveStep (programLen : ℕ) (stepOf : List ℕ) (step : Step P) : Option (Step P) := do
  return ⟨step.predicate, ← resolve programLen stepOf step.onTrue,
    ← resolve programLen stepOf step.onFalse⟩

def compile (program : List (Op P)) : Option (Plan P) := do
  let programLen := program.length % word32
  let (leftRoot, _) := program.zipIdx.foldl rootStep (replicate program.length 0, [])
  let targets ← verdicts program.length
  let targets ← program.zipIdx.reverse.foldlM (targetStep leftRoot) targets
  let (stepOf, steps) :=
    program.zipIdx.foldl (numberStep targets) (replicate program.length missTarget, [])
  return ⟨← steps.mapM (resolveStep programLen stepOf)⟩

/-- The loop of an evaluation: where it leaves the table, unless it is still in it after the given
number of turns. -/
def evaluateFrom (plan : Plan P) (holds : P → Bool) : ℕ → ℕ → Option ℕ
  | 0, _ => none
  | turns + 1, index =>
    match plan.steps[index]? with
    | none => some index
    | some step =>
      plan.evaluateFrom holds turns (if holds step.predicate then step.onTrue else step.onFalse)

def evaluate (plan : Plan P) (holds : P → Bool) (turns : ℕ) : Option Bool :=
  (plan.evaluateFrom holds turns 0).map (· == matchTarget)

/-- The steps that an evaluation visits, in order. -/
def visited (plan : Plan P) (holds : P → Bool) : ℕ → ℕ → List ℕ
  | 0, _ => []
  | turns + 1, index =>
    match plan.steps[index]? with
    | none => []
    | some step =>
      index :: plan.visited holds turns (if holds step.predicate then step.onTrue else step.onFalse)

/-- Every jump goes strictly forward to a step, or is one of the two verdicts. -/
def Forward (plan : Plan P) : Prop :=
  ∀ i step, plan.steps[i]? = some step → ∀ target, target = step.onTrue ∨ target = step.onFalse →
    i < target ∧ (target < plan.steps.length ∨ target = matchTarget ∨ target = missTarget)

end Plan

/-! ### The passes, by recursion over the expression -/

/-- The targets of a left operand, given those of the whole and the position behind the operand. -/
def Connective.leftTargets : Connective → ℕ → ℕ → ℕ → ℕ × ℕ
  | and, _, onFalse, behind => (behind, onFalse)
  | or, onTrue, _, behind => (onTrue, behind)

namespace Expr

section

variable (e : Expr P)

def size : ℕ := e.inPostfix.length

@[simp]
theorem size_leaf (p : P) : (leaf p).size = 1 := rfl

@[simp]
theorem size_not : (not e).size = e.size + 1 := by
  simp [size, inPostfix]

@[simp]
theorem size_binary (c : Connective) (a b : Expr P) :
    (binary c a b).size = a.size + b.size + 1 := by
  simp [size, inPostfix, Nat.add_assoc]

theorem size_pos : 0 < e.size := by
  induction e with
  | paren e ih => exact ih
  | _ => simp

theorem terms_pos : 0 < e.terms := by
  induction e with
  | leaf p => exact Nat.one_pos
  | not e ih => exact ih
  | binary c a b iha ihb =>
    rw [terms]
    omega
  | paren e ih => exact ih

theorem terms_le_size : e.terms ≤ e.size := by
  induction e with
  | leaf p => exact Nat.le_refl _
  | not e ih => exact ih.trans (by simp)
  | binary c a b iha ihb =>
    rw [terms, size_binary]
    omega
  | paren e ih => exact ih

/-- The operations with their positions, from a position on. -/
def placed (base : ℕ) : List (Op P × ℕ) := e.inPostfix.zipIdx base

theorem placed_not (base : ℕ) : (not e).placed base = e.placed base ++ [(.not, base + e.size)] := by
  simp [placed, inPostfix, size, zipIdx_append]

end

theorem placed_binary (c : Connective) (a b : Expr P) (base : ℕ) : (binary c a b).placed base =
      a.placed base ++ (b.placed (base + a.size) ++ [(c.toOp, base + a.size + b.size)]) := by
  simp [placed, inPostfix, size, zipIdx_append]

/-- The table has the position where the left operand ends, at every operation with two. -/
def Rooted (leftRoot : List ℕ) : Expr P → ℕ → Prop
  | leaf _, _ => True
  | not e, base => e.Rooted leftRoot base
  | binary _ a b, base =>
    a.Rooted leftRoot base ∧ b.Rooted leftRoot (base + a.size) ∧
      leftRoot[base + a.size + b.size]? = some (base + a.size - 1)
  | paren e, base => e.Rooted leftRoot base

/-- The targets of the predicates, when the expression has the targets `onTrue` and `onFalse`. -/
def Threaded (targets : Plan.Targets) : Expr P → ℕ → ℕ → ℕ → Prop
  | leaf _, base, onTrue, onFalse =>
    targets.onTrue[base]? = some onTrue ∧ targets.onFalse[base]? = some onFalse
  | not e, base, onTrue, onFalse => e.Threaded targets base onFalse onTrue
  | binary c a b, base, onTrue, onFalse =>
    let left := c.leftTargets onTrue onFalse (base + a.size)
    a.Threaded targets base left.1 left.2 ∧ b.Threaded targets (base + a.size) onTrue onFalse
  | paren e, base, onTrue, onFalse => e.Threaded targets base onTrue onFalse

/-- The steps of the predicates, with positions of the program as their targets. -/
def thread : Expr P → ℕ → ℕ → ℕ → List (Step P)
  | leaf predicate, _, onTrue, onFalse => [⟨predicate, onTrue, onFalse⟩]
  | not e, base, onTrue, onFalse => e.thread base onFalse onTrue
  | binary c a b, base, onTrue, onFalse =>
    let left := c.leftTargets onTrue onFalse (base + a.size)
    a.thread base left.1 left.2 ++ b.thread (base + a.size) onTrue onFalse
  | paren e, base, onTrue, onFalse => e.thread base onTrue onFalse

/-- The numbers of the first predicates of all operands, when the expression's own is `first`. -/
def Numbered (stepOf : List ℕ) : Expr P → ℕ → ℕ → Prop
  | leaf _, base, first => stepOf[base]? = some first
  | not e, base, first => e.Numbered stepOf base first
  | binary _ a b, base, first =>
    a.Numbered stepOf base first ∧ b.Numbered stepOf (base + a.size) (first + a.terms)
  | paren e, base, first => e.Numbered stepOf base first

/-- The steps of the predicates, with steps as their targets. -/
def code : Expr P → ℕ → ℕ → ℕ → List (Step P)
  | leaf predicate, _, onTrue, onFalse => [⟨predicate, onTrue, onFalse⟩]
  | not e, first, onTrue, onFalse => e.code first onFalse onTrue
  | binary c a b, first, onTrue, onFalse =>
    let left := c.leftTargets onTrue onFalse (first + a.terms)
    a.code first left.1 left.2 ++ b.code (first + a.terms) onTrue onFalse
  | paren e, first, onTrue, onFalse => e.code first onTrue onFalse

theorem length_code (e : Expr P) (first onTrue onFalse : ℕ) :
    (e.code first onTrue onFalse).length = e.terms := by
  induction e generalizing first onTrue onFalse with
  | leaf p => rfl
  | not e ih => exact ih _ _ _
  | binary c a b iha ihb => rw [code, length_append, iha, ihb, terms]
  | paren e ih => exact ih _ _ _

/-! ### The forward pass -/

/-- Whether a table is as before outside the positions of an expression. -/
def Frame (l l' : List ℕ) (first behind : ℕ) : Prop :=
  l'.length = l.length ∧ ∀ i, i < first ∨ behind ≤ i → l'[i]? = l[i]?

theorem Frame.refl (l : List ℕ) (first behind : ℕ) : Frame l l first behind := ⟨rfl, fun _ _ => rfl⟩

variable {first base onTrue onFalse : ℕ} {e : Expr P} {T : Plan.Targets} {S : List ℕ}

theorem Frame.trans {l₁ l₂ l₃ : List ℕ} {a b c d : ℕ} (h₁ : Frame l₁ l₂ a b) (h₂ : Frame l₂ l₃ c d)
    {behind : ℕ} (ha : first ≤ a) (hb : b ≤ behind) (hc : first ≤ c) (hd : d ≤ behind) :
    Frame l₁ l₃ first behind :=
  ⟨h₂.1.trans h₁.1, fun i hi => (h₂.2 i (by omega)).trans (h₁.2 i (by omega))⟩

theorem Frame.set (l : List ℕ) (i v : ℕ) : Frame l (l.set i v) i (i + 1) :=
  ⟨length_set, fun _ hi => getElem?_set_ne (by omega)⟩

theorem Rooted.congr {l l' : List ℕ} (h : e.Rooted l base)
    (heq : ∀ i, base ≤ i → i < base + e.size → l'[i]? = l[i]?) : e.Rooted l' base := by
  induction e generalizing base with
  | leaf p => exact trivial
  | not e ih =>
    rw [size_not] at heq
    exact ih h fun i hlow hh => heq i hlow (by omega)
  | binary c a b iha ihb =>
    rw [size_binary] at heq
    exact ⟨iha h.1 fun i hlow hh => heq i hlow (by omega),
      ihb h.2.1 fun i hlow hh => heq i (by omega) (by omega),
      (heq _ (by omega) (by omega)).trans h.2.2⟩
  | paren e ih => exact ih h heq

/-- The forward pass over an expression leaves its last position on top, and writes nothing outside
its positions. -/
theorem foldl_rootStep (e : Expr P) (base : ℕ) (l r : List ℕ)
    (hl : base + e.size ≤ l.length) (hw : base + e.size ≤ word32) :
    ∃ l', (e.placed base).foldl Plan.rootStep (l, r) = (l', (base + e.size - 1) :: r) ∧
      Frame l l' base (base + e.size) ∧ e.Rooted l' base := by
  induction e generalizing base l r with
  | leaf p =>
    refine ⟨l, ?_, .refl _ _ _, trivial⟩
    rw [size_leaf] at hw ⊢
    show (l, base % word32 :: r) = _
    rw [Nat.mod_eq_of_lt (by omega), Nat.add_sub_cancel]
  | not e ih =>
    rw [size_not] at hl hw ⊢
    obtain ⟨l', hfo, hfa, hr⟩ := ih base l r (by omega) (by omega)
    refine ⟨l', ?_, (hfa.trans (.refl _ base base) le_rfl (by omega) le_rfl (by omega)), hr⟩
    rw [placed_not, foldl_append, hfo]
    show (l', (base + e.size) % word32 :: r) = _
    rw [Nat.mod_eq_of_lt (by omega)]
    rfl
  | binary c a b iha ihb =>
    rw [size_binary] at hl hw ⊢
    obtain ⟨l₁, hfl, hf, hrd⟩ := iha base l r (by omega) (by omega)
    obtain ⟨l₂, hfd, hfm, hrb⟩ :=
      ihb (base + a.size) l₁ ((base + a.size - 1) :: r) (by rw [hf.1]; omega) (by omega)
    have hs := Frame.set l₂ (base + a.size + b.size) (base + a.size - 1)
    refine ⟨l₂.set (base + a.size + b.size) (base + a.size - 1), ?_, ?_, ?_, ?_, ?_⟩
    · rw [placed_binary, foldl_append, hfl, foldl_append, hfd]
      have hst : Plan.rootStep (l₂, (base + a.size + b.size - 1) :: (base + a.size - 1) :: r)
          ((c.toOp : Op P), base + a.size + b.size) =
            (l₂.set (base + a.size + b.size) (base + a.size - 1),
              (base + a.size + b.size) % word32 :: r) := by
        cases c <;> rfl
      have hls : base + (a.size + b.size + 1) - 1 = base + a.size + b.size := by omega
      rw [foldl_cons, foldl_nil, hst, Nat.mod_eq_of_lt (by omega), hls]
    · exact (hf.trans hfm le_rfl (by omega) (by omega) (by omega)).trans hs le_rfl
        le_rfl (by omega) (by omega)
    · exact hrd.congr fun i _ hi =>
        (hs.2 i (by omega)).trans (hfm.2 i (by omega))
    · exact hrb.congr fun i _ hi => hs.2 i (by omega)
    · exact getElem?_set_self (by rw [hfm.1, hf.1]; omega)
  | paren e ih => exact ih base l r hl hw

/-! ### The backward pass -/

theorem Threaded.congr {T' : Plan.Targets} (h : e.Threaded T base onTrue onFalse)
    (heq : ∀ i, base ≤ i → i < base + e.size →
      T'.onTrue[i]? = T.onTrue[i]? ∧ T'.onFalse[i]? = T.onFalse[i]?) :
    e.Threaded T' base onTrue onFalse := by
  induction e generalizing base onTrue onFalse with
  | leaf p =>
    obtain ⟨ht, hf⟩ := heq base le_rfl (by simp)
    exact ⟨ht.trans h.1, hf.trans h.2⟩
  | not e ih =>
    rw [size_not] at heq
    exact ih h fun i hlow hh => heq i hlow (by omega)
  | binary c a b iha ihb =>
    rw [size_binary] at heq
    exact ⟨iha h.1 fun i hlow hh => heq i hlow (by omega),
      ihb h.2 fun i hlow hh => heq i (by omega) (by omega)⟩
  | paren e ih => exact ih h heq

theorem assign_eq {position : ℕ} (ht : position < T.onTrue.length)
    (hf : position < T.onFalse.length) :
    T.assign position onTrue onFalse =
      some ⟨T.onTrue.set position onTrue, T.onFalse.set position onFalse⟩ := by
  rw [Plan.Targets.assign, Plan.store, if_pos ht, Plan.store, if_pos hf]
  rfl

section Backward

variable {l : List ℕ} {T : Plan.Targets} {index onTrue onFalse : ℕ}

theorem targetStep_not (hi : 0 < index) (ht : T.onTrue[index]? = some onTrue)
    (hf : T.onFalse[index]? = some onFalse) :
    Plan.targetStep l T ((.not : Op P), index) =
      some ⟨T.onTrue.set (index - 1) onFalse, T.onFalse.set (index - 1) onTrue⟩ := by
  have hlt := (List.getElem?_eq_some_iff.mp ht).1
  have hlt' := (List.getElem?_eq_some_iff.mp hf).1
  rw [Plan.targetStep, guard, if_pos hi, ht, hf]
  exact assign_eq (by omega) (by omega)

theorem targetStep_binary (c : Connective) {left : ℕ} (hi : 0 < index)
    (ht : T.onTrue[index]? = some onTrue) (hf : T.onFalse[index]? = some onFalse)
    (hl : l[index]? = some left) (hlt : left < index) (hw : left + 1 < word32) :
    Plan.targetStep l T ((c.toOp : Op P), index) =
      some ⟨(T.onTrue.set (index - 1) onTrue).set left (c.leftTargets onTrue onFalse (left + 1)).1,
        (T.onFalse.set (index - 1) onFalse).set left
          (c.leftTargets onTrue onFalse (left + 1)).2⟩ := by
  have hlen := (List.getElem?_eq_some_iff.mp ht).1
  have hlen' := (List.getElem?_eq_some_iff.mp hf).1
  cases c <;> simp [Connective.toOp, Plan.targetStep, hi, ht, hf, hl, hw,
      assign_eq (show index - 1 < T.onTrue.length by omega)
        (show index - 1 < T.onFalse.length by omega)] <;>
    exact assign_eq (by simp only [length_set]; omega) (by simp only [length_set]; omega)

end Backward

/-- The backward pass hands the targets of an expression down to its predicates, and writes nothing
outside its positions. -/
theorem foldlM_targetStep (e : Expr P) {leftRoot : List ℕ} (base onTrue onFalse : ℕ)
    (T : Plan.Targets) (hr : e.Rooted leftRoot base) (hw : base + e.size < word32)
    (ht : T.onTrue[base + e.size - 1]? = some onTrue)
    (hf : T.onFalse[base + e.size - 1]? = some onFalse) :
    ∃ T', (e.placed base).reverse.foldlM (Plan.targetStep leftRoot) T = some T' ∧
      Frame T.onTrue T'.onTrue base (base + e.size) ∧
      Frame T.onFalse T'.onFalse base (base + e.size) ∧ e.Threaded T' base onTrue onFalse := by
  induction e generalizing base onTrue onFalse T with
  | leaf p =>
    exact ⟨T, rfl, .refl _ _ _, .refl _ _ _, ht, hf⟩
  | not e ih =>
    have hp := e.size_pos
    rw [size_not, ← Nat.add_assoc, Nat.add_sub_cancel] at ht hf
    rw [size_not] at hw ⊢
    have hl := (List.getElem?_eq_some_iff.mp ht).1
    have hl' := (List.getElem?_eq_some_iff.mp hf).1
    have hse := Frame.set T.onTrue (base + e.size - 1) onFalse
    have hsf := Frame.set T.onFalse (base + e.size - 1) onTrue
    obtain ⟨T', hfo, hfe, hfra, hth⟩ := ih base onFalse onTrue
      ⟨T.onTrue.set (base + e.size - 1) onFalse, T.onFalse.set (base + e.size - 1) onTrue⟩ hr
      (by omega) (getElem?_set_self (by omega)) (getElem?_set_self (by omega))
    refine ⟨T', ?_, hse.trans hfe (by omega) (by omega) le_rfl (by omega),
      hsf.trans hfra (by omega) (by omega) le_rfl (by omega), hth⟩
    rw [placed_not, reverse_append, reverse_singleton, singleton_append,
      foldlM_cons, targetStep_not (by omega) ht hf]
    exact hfo
  | binary c a b iha ihb =>
    have hps := a.size_pos
    have hpb := b.size_pos
    obtain ⟨hrd, hrb, hlf⟩ := hr
    have hls : base + (binary c a b).size - 1 = base + a.size + b.size := by
      rw [size_binary]
      omega
    rw [hls] at ht hf
    rw [size_binary] at hw ⊢
    have hl := (List.getElem?_eq_some_iff.mp ht).1
    have hl' := (List.getElem?_eq_some_iff.mp hf).1
    have hb : base + a.size - 1 + 1 = base + a.size := by omega
    have hs := targetStep_binary (P := P) c (by omega) ht hf hlf (by omega) (by omega)
    rw [hb] at hs
    obtain ⟨T₂, hfl, hfr, hfm, htr⟩ := ihb (base + a.size) onTrue onFalse
      ⟨(T.onTrue.set (base + a.size + b.size - 1) onTrue).set (base + a.size - 1)
          (c.leftTargets onTrue onFalse (base + a.size)).1,
        (T.onFalse.set (base + a.size + b.size - 1) onFalse).set (base + a.size - 1)
          (c.leftTargets onTrue onFalse (base + a.size)).2⟩ hrb (by omega)
      (by rw [getElem?_set_ne (by omega), getElem?_set_self (by omega)])
      (by rw [getElem?_set_ne (by omega), getElem?_set_self (by omega)])
    obtain ⟨T₃, hfd, hft, hfa, htd⟩ := iha base (c.leftTargets onTrue onFalse (base + a.size)).1
      (c.leftTargets onTrue onFalse (base + a.size)).2 T₂ hrd (by omega)
      (by rw [hfr.2 _ (by omega), getElem?_set_self (by simp only [length_set]; omega)])
      (by rw [hfm.2 _ (by omega), getElem?_set_self (by simp only [length_set]; omega)])
    have hset : ∀ (l : List ℕ) (v w : ℕ),
        Frame l ((l.set (base + a.size + b.size - 1) v).set (base + a.size - 1) w) base
          (base + (a.size + b.size + 1)) :=
      fun l v w => (Frame.set l _ v).trans (.set _ _ w) (by omega) (by omega) (by omega) (by omega)
    refine ⟨T₃, ?_, ?_, ?_, htd, ?_⟩
    · rw [placed_binary, reverse_append, reverse_append, reverse_singleton,
        singleton_append, cons_append, foldlM_cons, hs]
      show foldlM _ _ (_ ++ _) = _
      rw [foldlM_append, hfl]
      exact hfd
    · exact ((hset _ _ _).trans hfr le_rfl le_rfl (by omega) (by omega)).trans hft le_rfl
        le_rfl le_rfl (by omega)
    · exact ((hset _ _ _).trans hfm le_rfl le_rfl (by omega) (by omega)).trans hfa le_rfl
        le_rfl le_rfl (by omega)
    · exact htr.congr fun i hi _ => ⟨hft.2 i (by omega), hfa.2 i (by omega)⟩
  | paren e ih => exact ih base onTrue onFalse T hr hw ht hf

/-! ### The numbering pass -/

theorem length_thread (e : Expr P) (base onTrue onFalse : ℕ) :
    (e.thread base onTrue onFalse).length = e.terms := by
  induction e generalizing base onTrue onFalse with
  | leaf p => rfl
  | not e ih => exact ih _ _ _
  | binary c a b iha ihb => rw [thread, length_append, iha, ihb, terms]
  | paren e ih => exact ih _ _ _

theorem Numbered.congr {S' : List ℕ} (h : e.Numbered S base first)
    (heq : ∀ i, base ≤ i → i < base + e.size → S'[i]? = S[i]?) : e.Numbered S' base first := by
  induction e generalizing base first with
  | leaf p => exact (heq base le_rfl (by simp)).trans h
  | not e ih =>
    rw [size_not] at heq
    exact ih h fun i hlow hh => heq i hlow (by omega)
  | binary c a b iha ihb =>
    rw [size_binary] at heq
    exact ⟨iha h.1 fun i hlow hh => heq i hlow (by omega),
      ihb h.2 fun i hlow hh => heq i (by omega) (by omega)⟩
  | paren e ih => exact ih h heq

theorem Numbered.head (h : e.Numbered S base first) : S[base]? = some first := by
  induction e generalizing base first with
  | leaf p => exact h
  | not e ih => exact ih h
  | binary c a b iha ihb => exact iha h.1
  | paren e ih => exact ih h

theorem foldl_numberStep (e : Expr P) (S : List ℕ) (steps : List (Step P))
    (ht : e.Threaded T base onTrue onFalse) (hl : base + e.size ≤ S.length)
    (hw : steps.length + e.terms ≤ word32) :
    ∃ S', (e.placed base).foldl (Plan.numberStep T) (S, steps) =
        (S', steps ++ e.thread base onTrue onFalse) ∧
      Frame S S' base (base + e.size) ∧ e.Numbered S' base steps.length := by
  induction e generalizing base onTrue onFalse S steps with
  | leaf p =>
    rw [size_leaf] at hl ⊢
    rw [terms] at hw
    refine ⟨S.set base steps.length, ?_, .set _ _ _, getElem?_set_self (by omega)⟩
    show (S.set base (steps.length % word32), steps ++ [(⟨p, _, _⟩ : Step P)]) = _
    rw [Nat.mod_eq_of_lt (by omega), ht.1, ht.2]
    rfl
  | not e ih =>
    rw [size_not] at hl ⊢
    obtain ⟨S', hfo, hfa, hnb⟩ := ih S steps ht (by omega) hw
    refine ⟨S', ?_, hfa.trans (.refl _ base base) le_rfl (by omega) le_rfl (by omega), hnb⟩
    rw [placed_not, foldl_append, hfo]
    rfl
  | binary c a b iha ihb =>
    rw [size_binary] at hl ⊢
    rw [terms] at hw
    obtain ⟨S₁, hfl, hf, hnr⟩ := iha S steps ht.1 (by omega) (by omega)
    obtain ⟨S₂, hfd, hfm, hn⟩ := ihb S₁
      (steps ++ a.thread base (c.leftTargets onTrue onFalse (base + a.size)).1
        (c.leftTargets onTrue onFalse (base + a.size)).2) ht.2
      (by rw [hf.1]; omega) (by rw [length_append, length_thread]; omega)
    rw [length_append, length_thread] at hn
    refine ⟨S₂, ?_, hf.trans hfm le_rfl (by omega) (by omega) (by omega),
      hnr.congr fun i _ hi => hfm.2 i (by omega), hn⟩
    have hls : ∀ acc, Plan.numberStep T acc ((c.toOp : Op P), base + a.size + b.size) = acc := by
      intro acc
      cases c <;> rfl
    rw [placed_binary, foldl_append, hfl, foldl_append, hfd, foldl_cons, hls, append_assoc]
    rfl
  | paren e ih => exact ih S steps ht hl hw

/-! ### The plan of an expression -/

theorem mapM_resolveStep (e : Expr P) {n : ℕ} {onTrue' onFalse' : ℕ}
    (hn : e.Numbered S base first) (hl : base + e.size ≤ n)
    (ht : Plan.resolve n S onTrue = some onTrue')
    (hf : Plan.resolve n S onFalse = some onFalse') :
    (e.thread base onTrue onFalse).mapM (Plan.resolveStep n S) =
      some (e.code first onTrue' onFalse') := by
  induction e generalizing base first onTrue onFalse onTrue' onFalse' with
  | leaf p => simp [thread, code, Plan.resolveStep, ht, hf]
  | not e ih =>
    rw [size_not] at hl
    exact ih hn (by omega) hf ht
  | binary c a b iha ihb =>
    rw [size_binary] at hl
    have hb : Plan.resolve n S (base + a.size) = some (first + a.terms) := by
      rw [Plan.resolve, if_neg (by omega), if_neg (by omega)]
      exact hn.2.head
    rw [thread, mapM_append, ihb hn.2 (by omega) ht hf]
    cases c with
    | and =>
      dsimp only [Connective.leftTargets]
      rw [iha hn.1 (by omega) hb hf]
      rfl
    | or =>
      dsimp only [Connective.leftTargets]
      rw [iha hn.1 (by omega) ht hb]
      rfl
  | paren e ih => exact ih hn hl ht hf

end Expr

theorem Plan.compile_inPostfix (e : Expr P) (hw : e.size + 1 < word32) :
    Plan.compile e.inPostfix = some ⟨e.code 0 matchTarget missTarget⟩ := by
  have hp := e.size_pos
  have htm := e.terms_le_size
  have hm : e.size % word32 = e.size := Nat.mod_eq_of_lt (by omega)
  obtain ⟨leftRoot, hr, -, hrd⟩ := e.foldl_rootStep 0 (replicate e.size 0) [] (by simp) (by omega)
  obtain ⟨T, ht, -, -, hth⟩ := e.foldlM_targetStep 0 e.size (e.size + 1)
      ⟨(replicate e.size 0).set (e.size - 1) e.size,
        (replicate e.size 0).set (e.size - 1) (e.size + 1)⟩ hrd (by omega)
      (by rw [Nat.zero_add, getElem?_set_self (by rw [length_replicate]; omega)])
      (by rw [Nat.zero_add, getElem?_set_self (by rw [length_replicate]; omega)])
  obtain ⟨S, hn, -, hnb⟩ := e.foldl_numberStep (replicate e.size missTarget) [] hth (by simp)
      (by rw [length_nil]; omega)
  have hrs : (e.thread 0 e.size (e.size + 1)).mapM (resolveStep e.size S) =
      some (e.code 0 matchTarget missTarget) :=
    e.mapM_resolveStep hnb (by omega) (by simp [resolve]) (by simp [resolve])
  have hv : verdicts e.size = some ⟨(replicate e.size 0).set (e.size - 1) e.size,
        (replicate e.size 0).set (e.size - 1) (e.size + 1)⟩ := by
    rw [verdicts, hm]
    simp [show e.size ≠ 0 by omega, hw]
  show (do
    let targets ← verdicts e.size
    let targets ← (e.placed 0).reverse.foldlM
      (targetStep ((e.placed 0).foldl rootStep (replicate e.size 0, [])).1) targets
    let acc := (e.placed 0).foldl (numberStep targets) (replicate e.size missTarget, [])
    let steps ← acc.2.mapM (resolveStep (e.size % word32) acc.1)
    pure (⟨steps⟩ : Plan P)) = _
  rw [hv, hr]
  simp only [Option.bind_eq_bind, Option.bind_some, ht, hn, hm, nil_append, hrs]
  rfl

end PacketCraftr.Filter
