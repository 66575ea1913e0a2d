import PacketCraftr.Filter.Plan

/-!
# Compiled filters mean what they say

The plan that a filter is compiled to evaluates to the meaning of the filter's parse tree, as long
as the positions of the program and the two verdicts behind it fit in 32 bits. With one operation
more there is no plan, and with two more there can be a wrong one.
-/

open List

namespace PacketCraftr.Filter

open PacketCraftr.Filter.Expr Plan

variable {P R E : Type}

/-! ### Evaluation -/

namespace Plan

variable {plan : Plan P} {holds : P → Bool}

def Jumps (plan : Plan P) (holds : P → Bool) (i j : ℕ) : Prop :=
  ∃ step, plan.steps[i]? = some step ∧
    j = if holds step.predicate then step.onTrue else step.onFalse

/-- An evaluation gets from one position to another. -/
abbrev RunsTo (plan : Plan P) (holds : P → Bool) : ℕ → ℕ → Prop :=
  Relation.ReflTransGen (Jumps plan holds)

/-- The code of an expression at its place in the plan runs to the target that its meaning
selects. -/
theorem runsTo_code (e : Expr P) {first onTrue o : ℕ}
    (hc : ∀ i < e.terms, plan.steps[first + i]? = (e.code first onTrue o)[i]?) :
    RunsTo plan holds first (if e.meaning holds then onTrue else o) := by
  induction e generalizing first onTrue o with
  | leaf p => exact .single ⟨⟨p, onTrue, o⟩, hc 0 Nat.one_pos, rfl⟩
  | not e ih =>
    have h : RunsTo plan holds first (if e.meaning holds then o else onTrue) := ih hc
    rw [meaning]
    cases hm : e.meaning holds <;> simpa [hm] using h
  | binary c a b iha ihb =>
    rw [terms] at hc
    have hl := a.length_code first (c.leftTargets onTrue o (first + a.terms)).1
      (c.leftTargets onTrue o (first + a.terms)).2
    have ha : ∀ i < a.terms, plan.steps[first + i]? =
        (a.code first (c.leftTargets onTrue o (first + a.terms)).1
          (c.leftTargets onTrue o (first + a.terms)).2)[i]? := by
      intro i hi
      rw [hc i (by omega), code, getElem?_append_left (by omega)]
    have hb : ∀ i < b.terms, plan.steps[first + a.terms + i]? =
        (b.code (first + a.terms) onTrue o)[i]? := by
      intro i hi
      rw [Nat.add_assoc, hc (a.terms + i) (by omega), code,
        getElem?_append_right (by omega), hl, Nat.add_sub_cancel_left]
    have hr := iha ha
    have hrb := ihb hb
    -- The left operand either decides or runs to the right one.
    rw [meaning]
    cases c <;> cases hm : a.meaning holds <;>
      simp only [hm, Connective.leftTargets, Connective.apply, Bool.true_and, Bool.false_and,
        Bool.true_or, Bool.false_or, if_true, Bool.false_eq_true, if_false] at hr ⊢
    · exact hr
    · exact hr.trans hrb
    · exact hr.trans hrb
    · exact hr
  | paren e ih => exact ih hc

/-- The jumps of an expression's code go forward, inside the code or to its targets. -/
theorem forward_code (e : Expr P) {first ot o : ℕ} (ht : first + e.terms ≤ ot)
    (hf : first + e.terms ≤ o) {i : ℕ} {step : Step P}
    (hs : (e.code first ot o)[i]? = some step) {t : ℕ}
    (htr : t = step.onTrue ∨ t = step.onFalse) :
    first + i < t ∧ (t < first + e.terms ∨ t = ot ∨ t = o) := by
  induction e generalizing first ot o i with
  | leaf p =>
    obtain ⟨hi, hg⟩ := List.getElem?_eq_some_iff.mp hs
    have hz : i = 0 := by
      simpa [code] using hi
    subst hz
    cases hg
    rw [terms] at ht hf
    rcases htr with rfl | rfl
    · exact ⟨by omega, .inr (.inl rfl)⟩
    · exact ⟨by omega, .inr (.inr rfl)⟩
  | not e ih =>
    obtain ⟨hlt, hw⟩ := ih hf ht hs
    exact ⟨hlt, hw.imp_right Or.symm⟩
  | binary c a b iha ihb =>
    rw [terms] at ht hf ⊢
    have hl : first + a.terms ≤ (c.leftTargets ot o (first + a.terms)).1 ∧
        first + a.terms ≤ (c.leftTargets ot o (first + a.terms)).2 := by
      cases c <;> simp only [Connective.leftTargets] <;> omega
    rw [code] at hs
    by_cases hi : i < a.terms
    · rw [getElem?_append_left (by rw [length_code]; exact hi)] at hs
      obtain ⟨hlt, hw⟩ := iha hl.1 hl.2 hs
      have hp : 0 < b.terms := b.terms_pos
      refine ⟨hlt, ?_⟩
      cases c <;> simp only [Connective.leftTargets] at hw <;> omega
    · rw [getElem?_append_right (by rw [length_code]; omega), length_code] at hs
      obtain ⟨hlt, hw⟩ := ihb (by omega) (by omega) hs
      omega
  | paren e ih => exact ih ht hf hs

theorem evaluateFrom_of_runsTo (hf : plan.Forward) {i j : ℕ} (h : RunsTo plan holds i j)
    (hend : plan.steps.length ≤ j) {turns : ℕ} (ht : plan.steps.length < i + turns) :
    turns ≠ 0 → plan.evaluateFrom holds turns i = some j := by
  induction h using Relation.ReflTransGen.head_induction_on generalizing turns with
  | refl =>
    intro hp
    obtain ⟨turns, rfl⟩ := Nat.exists_eq_succ_of_ne_zero hp
    rw [evaluateFrom, getElem?_eq_none_iff.mpr hend]
  | @head i mid hj _ ih =>
    intro hp
    obtain ⟨turns, rfl⟩ := Nat.exists_eq_succ_of_ne_zero hp
    obtain ⟨step, hs, rfl⟩ := hj
    have hi := (List.getElem?_eq_some_iff.mp hs).1
    rw [evaluateFrom, hs]
    have hlt := (hf i step hs (if holds step.predicate then step.onTrue else step.onFalse)
      (by split_ifs <;> simp)).1
    exact ih (by omega) (by omega)

/-- An evaluation visits the steps in order, each at most once. -/
theorem pairwise_visited (hf : plan.Forward) (turns i : ℕ) :
    (plan.visited holds turns i).Pairwise (· < ·) ∧ ∀ k ∈ plan.visited holds turns i, i ≤ k := by
  induction turns generalizing i with
  | zero => exact ⟨.nil, nofun⟩
  | succ turns ih =>
    rw [visited]
    split
    · exact ⟨.nil, nofun⟩
    · rename_i step hs
      have hlt := (hf i step hs
        (if holds step.predicate then step.onTrue else step.onFalse) (by split_ifs <;> simp)).1
      obtain ⟨hp, hb⟩ := ih (if holds step.predicate then step.onTrue else step.onFalse)
      refine ⟨.cons (fun k hk => lt_of_lt_of_le hlt (hb k hk)) hp, ?_⟩
      intro k hk
      rcases mem_cons.mp hk with rfl | hk
      · exact le_rfl
      · exact le_trans hlt.le (hb k hk)

/-- The plan of an expression computes its meaning, and every jump of it goes forward. -/
theorem code_correct (e : Expr P) (hw : e.terms + 1 < word32) :
    (⟨e.code 0 matchTarget missTarget⟩ : Plan P).Forward ∧ ∀ holds turns, e.terms < turns →
        (⟨e.code 0 matchTarget missTarget⟩ : Plan P).evaluate holds turns =
          some (e.meaning holds) := by
  have hl : (e.code 0 matchTarget missTarget).length = e.terms := e.length_code _ _ _
  have hm : e.terms ≤ matchTarget := by
    unfold matchTarget
    omega
  have hms : e.terms ≤ missTarget := by
    unfold missTarget
    omega
  have hne : missTarget ≠ matchTarget := by decide
  have hf : (⟨e.code 0 matchTarget missTarget⟩ : Plan P).Forward := by
    intro i step hs t ht
    obtain ⟨hlt, hwh⟩ := forward_code e (by omega) (by omega) hs ht
    exact ⟨by omega, by rw [hl]; omega⟩
  refine ⟨hf, fun holds turns htn => ?_⟩
  have hr : RunsTo ⟨e.code 0 matchTarget missTarget⟩ holds 0
      (if e.meaning holds then matchTarget else missTarget) :=
    runsTo_code e fun i _ => by rw [Nat.zero_add]
  have hend : (e.code 0 matchTarget missTarget).length ≤
      if e.meaning holds then matchTarget else missTarget := by
    split_ifs <;> omega
  rw [evaluate, evaluateFrom_of_runsTo hf hr hend (by rw [hl]; omega) (by omega)]
  cases e.meaning holds <;> simp [hne]

/-- The verdict of a miss has the position after the next one behind the program, which is not a
32-bit word for the longest program with a 32-bit length. -/
theorem compile_eq_none {program : List (Op P)} (h : program.length + 1 = word32) :
    Plan.compile program = none := by
  have hm : program.length % word32 = program.length := Nat.mod_eq_of_lt (by omega)
  have hp : program.length ≠ 0 := by
    unfold word32 at h
    omega
  have hv : verdicts program.length = none := by
    rw [verdicts, hm, if_neg hp, guard, if_neg (by omega)]
    rfl
  rw [Plan.compile, hv]
  rfl

end Plan

/-! ### The compiler -/

/-- A parser of predicates that are single words. -/
def wordParser : PredicateParser String Unit Unit where
  parse tokens start :=
    match tokens[start]? with
    | some ⟨.word word, _⟩ => .ok (word, start + 1, id)
    | _ => .error ()
  advances := by
    intro tokens start predicate next require h
    split at h
    · rename_i hfound
      cases h
      exact ⟨Nat.lt_succ_self _, (List.getElem?_eq_some_iff.mp hfound).1⟩
    · cases h

/-- The tokens of `a && !(b || c)`. -/
def sampleTokens : List Spanned :=
  [⟨.word "a", 0⟩, ⟨.and, 2⟩, ⟨.not, 5⟩, ⟨.leftParen, 6⟩, ⟨.word "b", 7⟩, ⟨.or, 9⟩, ⟨.word "c", 12⟩,
    ⟨.rightParen, 13⟩]

/-- The parse tree of `a && !(b || c)`. -/
def sampleTree : Expr String :=
  .binary .and (.leaf "a") (.not (.paren (.binary .or (.leaf "b") (.leaf "c"))))

/-- A predicate under a number of negations. -/
def negations (predicate : P) : ℕ → Expr P
  | 0 => .leaf predicate
  | n + 1 => .not (negations predicate n)

theorem inPostfix_negations (pred : P) (n : ℕ) :
    (negations pred n).inPostfix = .leaf pred :: replicate n .not := by
  induction n with
  | zero => rfl
  | succ n ih =>
    rw [negations, inPostfix, ih, replicate_succ', cons_append]

theorem meaning_negations (pred : P) (holds : P → Bool) (n : ℕ) :
    (negations pred (2 * n)).meaning holds = holds pred := by
  induction n with
  | zero => rfl
  | succ n ih =>
    rw [show 2 * (n + 1) = 2 * n + 1 + 1 from rfl, negations, meaning, negations, meaning,
      ih, Bool.not_not]

theorem within_negations (pred : P) (n : ℕ) : (negations pred n).Within ⟨0, 1⟩ := by
  induction n with
  | zero => exact ⟨le_rfl, le_rfl⟩
  | succ n ih => exact ih

/-- The tokens of a word behind a number of negations. -/
def negationTokens (word : String) (n : ℕ) : List Spanned :=
  replicate n ⟨.not, 0⟩ ++ [⟨.word word, n⟩]

theorem derives_negations (word : String) (n k : ℕ) :
    Derives wordParser (negationTokens word (k + n)) .not k (k + n + 1) (negations word n) := by
  induction n generalizing k with
  | zero =>
    have hfound : (negationTokens word k)[k]? = some ⟨.word word, k⟩ := by
      simp [negationTokens]
    have ht : tokenAt (negationTokens word k) k = some (.word word) := by
      rw [tokenAt, hfound]
      rfl
    have hp : wordParser.parse (negationTokens word k) k = .ok (word, k + 1, id) := by
      simp only [wordParser, hfound]
    exact .notOfPrimary (.leaf ht hp)
  | succ n ih =>
    have hnot : tokenAt (negationTokens word (k + (n + 1))) k = some .not := by
      rw [tokenAt, negationTokens, getElem?_append_left (by rw [length_replicate]; omega)]
      simp
    have hr := ih (k + 1)
    rw [show k + 1 + n = k + (n + 1) by omega] at hr
    exact .not hnot hr

/-- The backward pass over negations leaves targets that are zero everywhere as they are. -/
theorem foldlM_targetStep_zeros (lr : List ℕ) (length : ℕ) (l : List (Op P × ℕ))
    (hl : ∀ e ∈ l, (∃ p, e.1 = .leaf p) ∨ e.1 = .not ∧ 0 < e.2 ∧ e.2 < length) :
    l.foldlM (targetStep lr) ⟨replicate length 0, replicate length 0⟩ =
      some ⟨replicate length 0, replicate length 0⟩ := by
  induction l with
  | nil => rfl
  | cons e l ih =>
    obtain ⟨he, hl⟩ := forall_mem_cons.mp hl
    have hs : targetStep lr ⟨replicate length 0, replicate length 0⟩ e =
        some ⟨replicate length 0, replicate length 0⟩ := by
      obtain ⟨op, index⟩ := e
      rcases he with ⟨p, rfl⟩ | ⟨rfl, hp, hlt⟩
      · rfl
      · have hg : (replicate length 0)[index]? = some 0 := by
          rw [getElem?_replicate, if_pos hlt]
        have hset : (replicate length 0).set (index - 1) 0 = replicate length 0 := by
          simp
        rw [targetStep_not hp hg hg, hset]
    rw [foldlM_cons, hs]
    exact ih hl

theorem foldl_numberStep_negations (T : Targets) (acc : List ℕ × List (Step P)) (n first : ℕ) :
    ((replicate n (.not : Op P)).zipIdx first).foldl (numberStep T) acc = acc := by
  induction n generalizing first with
  | zero => rfl
  | succ n ih => exact ih (first + 1)

/-- With as many operations as there are words of 32 bits, the length of the program is zero, and
both targets of the predicate read as the verdict that the filter matches. -/
theorem compile_inPostfix_negations (pred : P) {n : ℕ} (hn : n + 1 = word32) :
    Plan.compile (negations pred n).inPostfix = some ⟨[⟨pred, matchTarget, matchTarget⟩]⟩ := by
  have hl : ((.leaf pred : Op P) :: replicate n .not).length = n + 1 := by simp
  have hm : (n + 1) % word32 = 0 := by rw [hn, Nat.mod_self]
  have hp : ((.leaf pred : Op P) :: replicate n .not).zipIdx =
      (.leaf pred, 0) :: (replicate n .not).zipIdx 1 := rfl
  have ht : ∀ l, (((.leaf pred : Op P), 0) :: (replicate n .not).zipIdx 1).reverse.foldlM
          (targetStep l) ⟨replicate (n + 1) 0, replicate (n + 1) 0⟩ =
        some ⟨replicate (n + 1) 0, replicate (n + 1) 0⟩ := by
    intro l
    apply foldlM_targetStep_zeros
    intro e he
    rcases mem_cons.mp (mem_reverse.mp he) with rfl | he
    · exact .inl ⟨pred, rfl⟩
    · obtain ⟨op, index⟩ := e
      obtain ⟨hlow, hh, ho⟩ := mem_zipIdx he
      rw [length_replicate] at hh
      refine .inr ⟨?_, by dsimp only; omega, by dsimp only; omega⟩
      rw [ho, getElem_replicate]
  have hv : verdicts (n + 1) = some ⟨replicate (n + 1) 0, replicate (n + 1) 0⟩ := by
    rw [verdicts, hm]
    rfl
  have hg : (replicate (n + 1) 0)[0]? = some 0 := rfl
  rw [inPostfix_negations, Plan.compile, hl, hp, hv, hm]
  simp only [Option.bind_eq_bind, Option.bind_some, ht, foldl_cons,
    foldl_numberStep_negations, numberStep, hg]
  rfl

end PacketCraftr.Filter
