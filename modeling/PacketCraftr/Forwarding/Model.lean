import PacketCraftr.Foundation.Polled
import PacketCraftr.Foundation.SortedMap
import Mathlib.Data.List.Lex

/-!
# The forwarding comparison

`analysis/forwarding`: the selected frames of two captures, reduced to observations, are grouped by
the cells of their identity fields. A group with one observation on each side is a matched pair, on
which the declared checks are evaluated; everything else is counted as evidence that is missing or
ambiguous. The verdict is read off the counters.

The cells hold values of an arbitrary type with decidable equality: the comparison only compares
them and serialises the identity cells. The serialisation is a parameter that loses nothing
(`CellEncoding`), as are the sizes by which retained details are charged (`Charges`).
-/

namespace PacketCraftr.Forwarding

open Polled

/-! ### Observations -/

inductive Side
  | ingress
  | egress
deriving DecidableEq, Repr

/-- Why the evidence of an observation is incomplete. -/
inductive Incomplete
  | truncated
  | fieldBudget
deriving DecidableEq, Repr

/-- What a projected cell establishes. -/
inductive ValueState
  | observed
  | absent
  | truncated
  | decodeIncomplete
  | fieldBudget
deriving DecidableEq, Repr

def ValueState.presence : ValueState → Option Bool
  | observed => some true
  | absent => some false
  | truncated | decodeIncomplete | fieldBudget => none

/-- The result of an expectation on one egress frame. -/
structure ExpectationOutcome (V : Type) where
  satisfied : Bool
  actual : Option V
  state : ValueState
deriving DecidableEq

/-- One selected frame, reduced to what the comparison needs. -/
structure Observation (V : Type) where
  frame : ℕ
  timestamp : ℕ
  interface : Option ℕ
  linkType : ℕ
  incomplete : Option Incomplete
  diagnostics : List String
  keyCells : List (Option V)
  keyStates : List ValueState
  preserved : List (Option V)
  preservedStates : List ValueState
  expectations : List (ExpectationOutcome V)
  ruleId : ℕ
  side : Side

variable {V : Type}

namespace Observation

/-- Whether every identity cell was read. -/
def isKeyed (o : Observation V) : Bool :=
  !o.keyCells.isEmpty && o.keyStates.all (· == .observed) && o.keyCells.all Option.isSome

/-- The complete identity key. -/
def key (o : Observation V) : Option (List V) :=
  if o.isKeyed then some (o.keyCells.filterMap id) else none

/-- The preserved cell at a position, with its state. -/
def cell (o : Observation V) (position : ℕ) : Option V × ValueState :=
  (o.preserved.getD position none, o.preservedStates.getD position .absent)

/-- The evidence of two observations differs under the rules. -/
def differs [DecidableEq V] (a b : Observation V) : Bool :=
  a.preserved != b.preserved || a.expectations != b.expectations ||
    a.preservedStates != b.preservedStates || a.incomplete != b.incomplete ||
    a.diagnostics != b.diagnostics

end Observation

/-- The observations of one capture, and how many frames its reader yielded. -/
structure SideInput (V : Type) where
  framesRead : ℕ
  observations : List (Observation V)

/-! ### Rules -/

inductive CheckKind
  | preserve
  | expect
  | preservePresence
  | expectAbsent
deriving DecidableEq, Repr

/-- An egress expectation: a value that the field must have, or its absence. -/
structure Expectation where
  field : String
  declared : String
  hasPredicate : Bool

def Expectation.kind (e : Expectation) : CheckKind :=
  if e.hasPredicate then .expect else .expectAbsent

structure Rules where
  identityFields : List String
  preserveNames : List String
  presenceNames : List String
  expectations : List Expectation
  ruleId : ℕ

def Rules.preservationSpecs (rules : Rules) : List (CheckKind × String) :=
  rules.preserveNames.map (.preserve, ·) ++ rules.presenceNames.map (.preservePresence, ·)

/-- How many expectations the observations of a side carry. -/
def Rules.expectationCount (rules : Rules) : Side → ℕ
  | .egress => rules.expectations.length
  | .ingress => 0

inductive Error
  | cancelled
  | interrupted
  | observationContract (side : Side) (frame : ℕ)
  | scratchBudget (limit : ℕ)
deriving DecidableEq, Repr

/-! ### The report -/

inductive Verdict
  | pass
  | fail
  | inconclusive
deriving DecidableEq, Repr

structure Sided (T : Type) where
  ingress : T
  egress : T

structure SideSummary where
  read : ℕ
  selected : ℕ := 0
  keyed : ℕ := 0
  unkeyed : ℕ := 0
  incomplete : ℕ := 0

@[ext]
structure Summary where
  uniqueMatches : ℕ := 0
  reorderedPairs : ℕ := 0
  ingressOnly : ℕ := 0
  egressOnly : ℕ := 0
  ambiguousGroups : ℕ := 0
  ambiguousObservations : ℕ := 0
  checksEvaluated : ℕ := 0
  checksSatisfied : ℕ := 0
  checksViolated : ℕ := 0
  checksUnevaluable : ℕ := 0

/-- A reference to one frame of its capture. -/
structure Evidence where
  frame : ℕ
  timestamp : ℕ
  interface : Option ℕ
  linkType : ℕ
  incomplete : Option Incomplete
  diagnostics : List String

def Observation.evidence (o : Observation V) : Evidence :=
  ⟨o.frame, o.timestamp, o.interface, o.linkType, o.incomplete, o.diagnostics⟩

section

variable (V : Type)

structure UnkeyedObservation where
  evidence : Evidence
  key : List (Option V)

/-- One rule, beside the outcome that it produced. -/
structure Check where
  kind : CheckKind
  field : String
  value : Option String

inductive Resolution
  | satisfied
  | violated
  | unevaluable
deriving DecidableEq, Repr

structure CheckEvaluation where
  check : Check
  outcome : Resolution
  expectedState : Option ValueState
  actualState : ValueState
  expected : Option V
  actual : Option V

structure Match where
  key : List V
  ingress : Evidence
  egress : Evidence
  ingressOrder : ℕ
  egressOrder : ℕ
  reordered : Bool
  checks : List (CheckEvaluation V)

structure Violation where
  check : Check
  key : Option (List V)
  ingress : Option Evidence
  egress : Evidence
  expected : Option V
  actual : Option V

structure AmbiguousGroup where
  key : List V
  ingress : List Evidence
  egress : List Evidence
  ingressTotal : ℕ
  egressTotal : ℕ
  ingressIndistinguishable : Bool
  egressIndistinguishable : Bool

/-! ### Budgets -/

structure Limits where
  maxDetails : ℕ
  maxDetailBytes : ℕ
  maxScratchBytes : ℕ

/-- How identity cells are serialised: without loss. -/
structure CellEncoding where
  json : List (Option V) → List (Fin 256)
  lossless : Function.Injective json

/-- What the retention of a detail is charged, by its kind. -/
structure Charges where
  evidence : Evidence → ℕ
  pair : Match V → ℕ
  violation : Violation V → ℕ
  unkeyed : UnkeyedObservation V → ℕ

structure ScratchBudget where
  used : ℕ
  limit : ℕ

def ScratchBudget.reserve (budget : ScratchBudget) (bytes : ℕ) : Except Error ScratchBudget := do
  Except.rejectIf (budget.limit < budget.used + bytes) (.scratchBudget budget.limit)
  .ok { budget with used := budget.used + bytes }

structure DetailBudget where
  maxDetails : ℕ
  remaining : ℕ

def DetailBudget.hasSlot (budget : DetailBudget) (retained : ℕ) : Bool :=
  retained < budget.maxDetails

/-- The budget after a detail of some size, if a list of some length may take one more. -/
def DetailBudget.admits (budget : DetailBudget) (retained bytes : ℕ) : Option DetailBudget :=
  if budget.hasSlot retained ∧ bytes ≤ budget.remaining then
    some { budget with remaining := budget.remaining - bytes }
  else none

/-- A bounded list of details, with the number of those left out. -/
structure Retained (T : Type) where
  items : List T := []
  omitted : ℕ := 0

/-- Keep a detail if the budget has room for it. -/
def pushBounded {T : Type} (charge : T → ℕ) (list : Retained T) (budget : DetailBudget) (item : T) :
    Retained T × DetailBudget :=
  match budget.admits list.items.length (charge item) with
  | some budget => ({ list with items := list.items ++ [item] }, budget)
  | none => ({ list with omitted := list.omitted + 1 }, budget)

/-- What the comparison has gathered. -/
structure Comparison where
  summary : Summary
  budget : DetailBudget
  violations : Retained (Violation V) := {}
  pairs : Retained (Match V) := {}
  unmatched : Sided (Retained Evidence) := ⟨{}, {}⟩
  ambiguous : Retained (AmbiguousGroup V) := {}
  groupMembersOmitted : ℕ := 0

structure Report where
  verdict : Verdict
  sides : Sided SideSummary
  summary : Summary
  pairs : Retained (Match V)
  violations : Retained (Violation V)
  unmatched : Sided (Retained Evidence)
  unkeyed : Sided (Retained (UnkeyedObservation V))
  ambiguous : Retained (AmbiguousGroup V)
  groupMembersOmitted : ℕ

end

/-! ### The passes over the observations -/

section Passes

variable (answers : ℕ → Except Error Unit)

/-- An observation was collected under these rules, behind the frame `previous`. -/
def Rules.accepts (rules : Rules) (side : Side) (framesRead previous : ℕ) (o : Observation V) :
    Bool :=
  rules.ruleId == o.ruleId && o.side == side && previous < o.frame && o.frame ≤ framesRead &&
    o.keyCells.length == rules.identityFields.length &&
    o.keyStates.length == o.keyCells.length &&
    o.preserved.length == rules.preserveNames.length + rules.presenceNames.length &&
    o.preservedStates.length == o.preserved.length &&
    o.expectations.length == rules.expectationCount side

def validateObservations (rules : Rules) (side : Side) (input : SideInput V) :
    Polled Error Unit := do
  let _ ← input.observations.foldlM (fun previous o => do
    poll answers
    lift (Except.rejectIf (!rules.accepts side input.framesRead previous o)
      (.observationContract side o.frame))
    pure o.frame) 0

def SideSummary.count (summary : SideSummary) (o : Observation V) : SideSummary :=
  { summary with
    selected := summary.selected + 1
    keyed := summary.keyed + o.isKeyed.toNat
    unkeyed := summary.unkeyed + (!o.isKeyed).toNat
    incomplete := summary.incomplete + o.incomplete.isSome.toNat }

def census (input : SideInput V) : Polled Error SideSummary :=
  input.observations.foldlM (fun summary o => do
    poll answers
    pure (summary.count o)) { read := input.framesRead }

/-- The positions of the keyed observations of a pool, by serialised key. -/
abbrev Index (pool : List (Observation V)) : Type :=
  SortedMap (List (Fin 256)) (List (Fin pool.length))

def Index.members {pool : List (Observation V)} (index : Index pool) (key : List (Fin 256)) :
    List (Fin pool.length) :=
  (index.find? key).getD []

def Index.push {pool : List (Observation V)} (index : Index pool) (key : List (Fin 256))
    (position : Fin pool.length) : Index pool :=
  index.insert key (index.members key ++ [position])

/-- Index one observation, if it is keyed, at the expense of the scratch budget. -/
def indexOne (encoding : CellEncoding V) (pool : List (Observation V))
    (state : Index pool × ScratchBudget) (position : Fin pool.length) :
    Except Error (Index pool × ScratchBudget) :=
  let o := pool.get position
  if o.isKeyed then do
    let budget ← state.2.reserve 128
    let key := encoding.json o.keyCells
    let budget ← budget.reserve key.length
    .ok (state.1.push key position, budget)
  else .ok state

def index (encoding : CellEncoding V) (pool : List (Observation V)) (budget : ScratchBudget) :
    Polled Error (Index pool × ScratchBudget) :=
  (List.finRange pool.length).foldlM (fun state position => do
    poll answers
    lift (indexOne encoding pool state position)) (SortedMap.empty, budget)

/-- The largest 64-bit number, which stands for the rank of an unkeyed observation. -/
def noRank : ℕ := 2 ^ 64 - 1

/-- The ranks so far, and the next rank. -/
def rankOne (state : List ℕ × ℕ) (o : Observation V) : List ℕ × ℕ :=
  if o.isKeyed then (state.1 ++ [state.2], state.2 + 1) else (state.1 ++ [noRank], state.2)

/-- The zero-based order of every keyed observation among the keyed ones. -/
def ranks (pool : List (Observation V)) : Polled Error (List ℕ) := do
  let state ← pool.foldlM (fun state o => do
    poll answers
    pure (rankOne state o)) ([], 0)
  pure state.1

/-- Note the egress rank of a unique pair at its ingress position. -/
def pairOrder {ingress egress : List (Observation V)} (egressIndex : Index egress)
    (egressRank : List ℕ) (orders : List (Option ℕ))
    (entry : List (Fin 256) × List (Fin ingress.length)) : List (Option ℕ) :=
  match entry.2, egressIndex.members entry.1 with
  | [member], [egressMember] => orders.set member (some (egressRank.getD egressMember 0))
  | _, _ => orders

/-- The egress rank of the unique pair of every ingress position that has one. -/
def pairOrders {ingress egress : List (Observation V)} (ingressIndex : Index ingress)
    (egressIndex : Index egress) (egressRank : List ℕ) : Polled Error (List (Option ℕ)) :=
  ingressIndex.entries.foldlM (fun orders entry => do
    poll answers
    pure (pairOrder egressIndex egressRank orders entry)) (List.replicate ingress.length none)

/-- Whether each order is below one that came before it. -/
def reorderedFlags (maxEgressOrder : ℕ) : List (Option ℕ) → List Bool
  | [] => []
  | none :: orders => false :: reorderedFlags maxEgressOrder orders
  | some order :: orders =>
    decide (order < maxEgressOrder) :: reorderedFlags (max maxEgressOrder order) orders

def indistinguishable [DecidableEq V] : List (Observation V) → Polled Error Bool
  | a :: b :: rest => do
    poll answers
    if a.differs b then pure false else indistinguishable (b :: rest)
  | _ => pure true

end Passes

/-! ### Checks -/

section Checks

variable [DecidableEq V]

def Resolution.ofEqual : Option Bool → Resolution
  | some true => satisfied
  | some false => violated
  | none => unevaluable

def preservationOutcome (kind : CheckKind) (expected actual : Option V × ValueState) :
    Resolution :=
  .ofEqual <|
    if kind = .preservePresence then
      match expected.2.presence, actual.2.presence with
      | some a, some b => some (a == b)
      | _, _ => none
    else if expected.2 = .observed ∧ actual.2 = .observed then
      match expected.1, actual.1 with
      | some a, some b => some (decide (a = b))
      | _, _ => none
    else none

def evaluateExpectation (kind : CheckKind) (stored : ExpectationOutcome V) : Resolution :=
  let available :=
    if kind = .expectAbsent then stored.state.presence.isSome
    else stored.state == .observed && stored.actual.isSome
  if !available then .unevaluable else if stored.satisfied then .satisfied else .violated

def Summary.record (summary : Summary) : Resolution → Summary
  | .violated => { summary with
      checksEvaluated := summary.checksEvaluated + 1
      checksViolated := summary.checksViolated + 1 }
  | .satisfied => { summary with
      checksEvaluated := summary.checksEvaluated + 1
      checksSatisfied := summary.checksSatisfied + 1 }
  | .unevaluable => { summary with checksUnevaluable := summary.checksUnevaluable + 1 }

variable (charges : Charges V)

/-- Count an outcome, and retain the violation if it is one. -/
def Comparison.record (c : Comparison V) (outcome : Resolution) (violation : Violation V) :
    Comparison V :=
  let c := { c with summary := c.summary.record outcome }
  match outcome with
  | .violated =>
    let kept := pushBounded charges.violation c.violations c.budget violation
    { c with violations := kept.1, budget := kept.2 }
  | .satisfied | .unevaluable => c

/-- A preservation rule with its position, evaluated on a pair. -/
def evaluatePreservation (ingress egress : Observation V) (spec : (CheckKind × String) × ℕ) :
    CheckEvaluation V :=
  let expected := ingress.cell spec.2
  let actual := egress.cell spec.2
  { check := ⟨spec.1.1, spec.1.2, none⟩
    outcome := preservationOutcome spec.1.1 expected actual
    expectedState := some expected.2
    actualState := actual.2
    expected := expected.1
    actual := actual.1 }

/-- An expectation with the result stored for it. -/
def evaluateStored (rule : Expectation × ExpectationOutcome V) : CheckEvaluation V :=
  { check := ⟨rule.1.kind, rule.1.field, if rule.1.kind = .expect then some rule.1.declared
      else none⟩
    outcome := evaluateExpectation rule.1.kind rule.2
    expectedState := none
    actualState := rule.2.state
    expected := none
    actual := rule.2.actual }

/-- Record an evaluated check, attributed to the observations it was evaluated on. -/
def Comparison.recordCheck (key : Option (List V)) (ingress : Option Evidence) (egress : Evidence)
    (c : Comparison V) (check : CheckEvaluation V) : Comparison V :=
  c.record charges check.outcome ⟨check.check, key, ingress, egress, check.expected, check.actual⟩

variable (rules : Rules)

/-- The preservation rules, evaluated on a pair. -/
def Rules.preservations (ingress egress : Observation V) :
    List (CheckEvaluation V) :=
  rules.preservationSpecs.zipIdx.map (evaluatePreservation ingress egress)

/-- The expectations, evaluated on an egress observation. -/
def Rules.expectationChecks (egress : Observation V) : List (CheckEvaluation V) :=
  (rules.expectations.zip egress.expectations).map evaluateStored

/-- Evaluate every rule on a matched pair. -/
def evaluatePair (ingress egress : Observation V)
    (ingressOrder egressOrder : ℕ) (c : Comparison V) : Match V × Comparison V :=
  let preservations := rules.preservations ingress egress
  let expectations := rules.expectationChecks egress
  let c := preservations.foldl
    (Comparison.recordCheck charges ingress.key (some ingress.evidence) egress.evidence) c
  let c := expectations.foldl
    (Comparison.recordCheck charges egress.key (some ingress.evidence) egress.evidence) c
  ({ key := ingress.key.getD []
     ingress := ingress.evidence
     egress := egress.evidence
     ingressOrder
     egressOrder
     reordered := false
     checks := preservations ++ expectations }, c)

/-- The expectations of an egress observation that has no pair. -/
def recordEgressExpectations (egress : Observation V) (c : Comparison V) :
    Comparison V :=
  (rules.expectationChecks egress).foldl
    (Comparison.recordCheck charges egress.key none egress.evidence) c

end Checks

/-! ### The comparison -/

section Compare

variable [DecidableEq V] (answers : ℕ → Except Error Unit) (charges : Charges V) (rules : Rules)

def Comparison.pushIngressOnly (c : Comparison V) (o : Observation V) : Comparison V :=
  let kept := pushBounded charges.evidence c.unmatched.ingress c.budget o.evidence
  { c with unmatched := { c.unmatched with ingress := kept.1 }, budget := kept.2 }

def Comparison.pushEgressOnly (c : Comparison V) (o : Observation V) : Comparison V :=
  let kept := pushBounded charges.evidence c.unmatched.egress c.budget o.evidence
  { c with unmatched := { c.unmatched with egress := kept.1 }, budget := kept.2 }

section

variable (members : List (Observation V))

/-- List the members of one side of an ambiguous group, within the budget. -/
def retainMembers (c : Comparison V) :
    Polled Error (Retained Evidence × Comparison V) :=
  members.foldlM (fun state o => do
    poll answers
    let kept := pushBounded charges.evidence state.1 state.2.budget o.evidence
    pure (kept.1, { state.2 with budget := kept.2 })) ({}, c)

/-- Retain an ambiguous group, if the budget has room for its description. -/
def retainGroup (keyLength : ℕ) (ingress egress : List (Observation V)) (c : Comparison V) :
    Polled Error (Comparison V) :=
  match c.budget.admits c.ambiguous.items.length (1024 + keyLength) with
  | some budget => do
    let (ingressKept, c) ← retainMembers answers charges ingress { c with budget }
    let (egressKept, c) ← retainMembers answers charges egress c
    let ingressIndistinguishable ← indistinguishable answers ingress
    let egressIndistinguishable ← indistinguishable answers egress
    let group : AmbiguousGroup V :=
      { key := (ingress.head?.bind Observation.key).getD []
        ingress := ingressKept.items
        egress := egressKept.items
        ingressTotal := ingress.length
        egressTotal := egress.length
        ingressIndistinguishable
        egressIndistinguishable }
    pure { c with
      ambiguous := { c.ambiguous with items := c.ambiguous.items ++ [group] }
      groupMembersOmitted := c.groupMembersOmitted + ingressKept.omitted + egressKept.omitted }
  | none =>
    pure { c with
      ambiguous := { c.ambiguous with omitted := c.ambiguous.omitted + 1 }
      groupMembersOmitted := c.groupMembersOmitted + (ingress.length + egress.length) }

/-- A pair, with the ranks of its observations and whether it is out of order. -/
structure RankedPair (V : Type) where
  ingress : Observation V
  egress : Observation V
  ingressOrder : ℕ
  egressOrder : ℕ
  reordered : Bool

def compareUnique (pair : RankedPair V) (c : Comparison V) : Comparison V :=
  let c := { c with summary.uniqueMatches := c.summary.uniqueMatches + 1 }
  let evaluated :=
    evaluatePair charges rules pair.ingress pair.egress pair.ingressOrder pair.egressOrder c
  let c := evaluated.2
  let kept := pushBounded charges.pair c.pairs c.budget
    { evaluated.1 with reordered := pair.reordered }
  { c with pairs := kept.1, budget := kept.2 }

def compareIngressOnly (c : Comparison V) :
    Polled Error (Comparison V) :=
  members.foldlM (fun c o => do
    poll answers
    pure (c.pushIngressOnly charges o))
    { c with summary.ingressOnly := c.summary.ingressOnly + members.length }

def compareEgressOnly (c : Comparison V) :
    Polled Error (Comparison V) :=
  members.foldlM (fun c o => do
    poll answers
    pure ((recordEgressExpectations charges rules o c).pushEgressOnly charges o))
    { c with summary.egressOnly := c.summary.egressOnly + members.length }

end

def compareAmbiguous (keyLength : ℕ) (ingress egress : List (Observation V)) (c : Comparison V) :
    Polled Error (Comparison V) := do
  let c ← egress.foldlM (fun c o => do
    poll answers
    pure (recordEgressExpectations charges rules o c))
    { c with
      summary.ambiguousGroups := c.summary.ambiguousGroups + 1
      summary.ambiguousObservations :=
        c.summary.ambiguousObservations + (ingress.length + egress.length) }
  retainGroup answers charges keyLength ingress egress c

/-- What the comparison of a key reads: the indexes, the ranks and the order flags. -/
structure Pools (V : Type) where
  ingress : List (Observation V)
  egress : List (Observation V)
  ingressIndex : Index ingress
  egressIndex : Index egress
  ingressRank : List ℕ
  egressRank : List ℕ
  reordered : List Bool

/-- The pair of two positions, with its ranks and its order flag. -/
def Pools.pairAt (pools : Pools V) (i : Fin pools.ingress.length) (j : Fin pools.egress.length) :
    RankedPair V where
  ingress := pools.ingress.get i
  egress := pools.egress.get j
  ingressOrder := pools.ingressRank.getD i 0
  egressOrder := pools.egressRank.getD j 0
  reordered := pools.reordered.getD i false

/-- Compare the observations that share a key. -/
def compareGroup (pools : Pools V) (c : Comparison V) (key : List (Fin 256)) :
    Polled Error (Comparison V) :=
  match pools.ingressIndex.members key, pools.egressIndex.members key with
  | [], [] => pure c
  | [i], [j] => pure (compareUnique charges rules (pools.pairAt i j) c)
  | is, [] => compareIngressOnly answers charges (is.map pools.ingress.get) c
  | [], js => compareEgressOnly answers charges rules (js.map pools.egress.get) c
  | is, js => compareAmbiguous answers charges rules key.length (is.map pools.ingress.get)
      (js.map pools.egress.get) c

def compareKey (pools : Pools V) (c : Comparison V) (key : List (Fin 256)) :
    Polled Error (Comparison V) := do
  poll answers
  compareGroup answers charges rules pools c key

/-- The keys of both indexes, in order. -/
def Pools.keys (pools : Pools V) : List (List (Fin 256)) :=
  ((pools.ingressIndex.keys ++ pools.egressIndex.keys).foldl (fun keys key => keys.insert key ())
    SortedMap.empty).keys

/-- The expectations of an egress observation without an identity. -/
def compareUnkeyed (c : Comparison V) (o : Observation V) : Polled Error (Comparison V) := do
  poll answers
  pure (if o.isKeyed then c else recordEgressExpectations charges rules o c)

/-- List the observations of one side without an identity, within the budget. -/
def retainUnkeyed (observations : List (Observation V)) (budget : DetailBudget) :
    Polled Error (Retained (UnkeyedObservation V) × DetailBudget) :=
  (observations.filter (!·.isKeyed)).foldlM (fun state o => do
    poll answers
    pure (pushBounded charges.unkeyed state.1 state.2 ⟨o.evidence, o.keyCells⟩)) ({}, budget)

def verdict (sides : Sided SideSummary) (summary : Summary) : Verdict :=
  if 0 < summary.checksViolated then .fail
  else
    let incomplete := 0 < summary.ingressOnly ∨ 0 < summary.egressOnly ∨
      0 < summary.ambiguousGroups ∨ 0 < summary.checksUnevaluable ∨ 0 < sides.ingress.unkeyed ∨
      0 < sides.egress.unkeyed ∨ 0 < sides.ingress.incomplete ∨ 0 < sides.egress.incomplete
    if incomplete ∨ sides.ingress.keyed = 0 then .inconclusive else .pass

/-- The indexes, ranks and order flags of the two sides. -/
def gather (encoding : CellEncoding V) (ingress egress : List (Observation V))
    (scratch : ScratchBudget) : Polled Error (Pools V) := do
  let ingressIndex ← index answers encoding ingress scratch
  let egressIndex ← index answers encoding egress ingressIndex.2
  let ingressRank ← ranks answers ingress
  let egressRank ← ranks answers egress
  let orders ← pairOrders answers ingressIndex.1 egressIndex.1 egressRank
  pure ⟨ingress, egress, ingressIndex.1, egressIndex.1, ingressRank, egressRank,
    reorderedFlags 0 orders⟩

def verifyWithLimits (encoding : CellEncoding V) (ingress egress : SideInput V) (limits : Limits) :
    Polled Error (Report V) := do
  poll answers
  validateObservations answers rules .ingress ingress
  validateObservations answers rules .egress egress
  let scratch ← lift (ScratchBudget.reserve ⟨0, limits.maxScratchBytes⟩
    ((ingress.observations.length + egress.observations.length) * 192))
  let ingressSide ← census answers ingress
  let egressSide ← census answers egress
  let pools ← gather answers encoding ingress.observations egress.observations scratch
  let start : Comparison V :=
    { summary := { reorderedPairs := pools.reordered.count true }
      budget := ⟨limits.maxDetails, limits.maxDetailBytes⟩ }
  let c ← pools.keys.foldlM (compareKey answers charges rules pools) start
  let c ← egress.observations.foldlM (compareUnkeyed answers charges rules) c
  let unkeyedIngress ← retainUnkeyed answers charges ingress.observations c.budget
  let unkeyedEgress ← retainUnkeyed answers charges egress.observations unkeyedIngress.2
  poll answers
  pure
    { verdict := verdict ⟨ingressSide, egressSide⟩ c.summary
      sides := ⟨ingressSide, egressSide⟩
      summary := c.summary
      pairs := { c.pairs with items := c.pairs.items.insertionSort fun a b =>
        a.ingressOrder ≤ b.ingressOrder }
      violations := c.violations
      unmatched := c.unmatched
      unkeyed := ⟨unkeyedIngress.1, unkeyedEgress.1⟩
      ambiguous := c.ambiguous
      groupMembersOmitted := c.groupMembersOmitted }

end Compare

end PacketCraftr.Forwarding
