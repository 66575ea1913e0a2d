import PacketCraftr.Forwarding.Model

/-!
# What the counters of the forwarding comparison mean

The comparison adds up, key by key, what the group of a key contributes to the counters. The
contribution of a group is a function of the positions that carry its key (`contribution`), and a
counter of the sum is positive exactly when some group contributes to it. So the verdict, which is
read off the counters, is a statement about the observations.
-/

open List

namespace PacketCraftr.Forwarding

open Summary Resolution

variable {V : Type}

/-! ### Correspondence and checks -/

/-- Exactly one keyed observation of the pool carries the cells, at position `i`. -/
def Carries (pool : List (Observation V)) (cells : List (Option V)) (i : Fin pool.length) : Prop :=
  ∀ j, ((pool.get j).isKeyed ∧ (pool.get j).keyCells = cells) ↔ j = i

/-- A matched pair: the two observations carry the same cells, and no others of their sides do. -/
def Paired (ingress egress : List (Observation V)) (i : Fin ingress.length)
    (j : Fin egress.length) : Prop :=
  ∃ cells, Carries ingress cells i ∧ Carries egress cells j

/-- The identity keys put all observations of the two sides into one-to-one correspondence. -/
structure Corresponds (ingress egress : List (Observation V)) : Prop where
  ingress_keyed : ∀ i, (ingress.get i).isKeyed
  egress_keyed : ∀ j, (egress.get j).isKeyed
  ingress_injective : Function.Injective fun i => (ingress.get i).keyCells
  egress_injective : Function.Injective fun j => (egress.get j).keyCells
  ingress_matched : ∀ i, ∃ j, (egress.get j).keyCells = (ingress.get i).keyCells
  egress_matched : ∀ j, ∃ i, (ingress.get i).keyCells = (egress.get j).keyCells

/-- The number of keyed observations in front of a position. -/
def rank (pool : List (Observation V)) (i : ℕ) : ℕ := (pool.take i).countP Observation.isKeyed

section

variable (kind : CheckKind)

/-- The two cells were read, or their presence is known, and they agree. -/
def CellsAgree (expected actual : Option V × ValueState) : Prop :=
  if kind = .preservePresence then
    ∃ present, expected.2.presence = some present ∧ actual.2.presence = some present
  else
    expected.2 = .observed ∧ actual.2 = .observed ∧ ∃ v, expected.1 = some v ∧ actual.1 = some v

/-- The two cells were read, or their presence is known, and they do not agree. -/
def CellsDisagree (expected actual : Option V × ValueState) : Prop :=
  if kind = .preservePresence then
    ∃ present, expected.2.presence = some present ∧ actual.2.presence = some !present
  else
    expected.2 = .observed ∧ actual.2 = .observed ∧
      ∃ v w, v ≠ w ∧ expected.1 = some v ∧ actual.1 = some w

variable (stored : ExpectationOutcome V)

/-- The cell that an expectation is about was read, or its absence is known. -/
def Available : Prop :=
  if kind = .expectAbsent then ∃ present, stored.state.presence = some present
  else stored.state = .observed ∧ ∃ v, stored.actual = some v

def ExpectationMet : Prop :=
  Available kind stored ∧ stored.satisfied = true

def ExpectationBroken : Prop :=
  Available kind stored ∧ stored.satisfied = false

end

/-! ### The outcome of a check -/

theorem evaluateExpectation_eq {kind : CheckKind} {stored : ExpectationOutcome V} :
    (evaluateExpectation kind stored = .satisfied ↔ ExpectationMet kind stored) ∧
      (evaluateExpectation kind stored = .violated ↔ ExpectationBroken kind stored) := by
  have ha : (if kind = .expectAbsent then stored.state.presence.isSome
      else stored.state == .observed && stored.actual.isSome) = true ↔ Available kind stored := by
    unfold Available
    split_ifs
    · rw [Option.isSome_iff_exists]
    · rw [Bool.and_eq_true, beq_iff_eq, Option.isSome_iff_exists]
  unfold evaluateExpectation ExpectationMet ExpectationBroken
  rw [← ha]
  generalize (if kind = .expectAbsent then stored.state.presence.isSome
    else stored.state == .observed && stored.actual.isSome) = available
  cases available <;> cases stored.satisfied <;> simp

theorem preservationOutcome_eq [DecidableEq V] {kind : CheckKind} {e a : Option V × ValueState} :
    (preservationOutcome kind e a = .satisfied ↔ CellsAgree kind e a) ∧
      (preservationOutcome kind e a = .violated ↔ CellsDisagree kind e a) := by
  obtain ⟨e, es⟩ := e
  obtain ⟨a, ac⟩ := a
  unfold preservationOutcome CellsAgree CellsDisagree
  by_cases hk : kind = .preservePresence
  · simp only [if_pos hk]
    cases es <;> cases ac <;> simp [ValueState.presence, ofEqual]
  · simp only [if_neg hk]
    by_cases hr : es = .observed ∧ ac = .observed
    · rw [if_pos hr]
      cases e with
      | none => simp [ofEqual]
      | some v =>
        cases a with
        | none => simp [ofEqual]
        | some w =>
          by_cases heq : v = w
          · simp [ofEqual, hr, heq]
          · have hne : ¬ w = v := fun h => heq h.symm
            simp [ofEqual, hr, heq, hne]
    · rw [if_neg hr]
      exact ⟨⟨nofun, fun h => absurd ⟨h.1, h.2.1⟩ hr⟩, ⟨nofun, fun h => absurd ⟨h.1, h.2.1⟩ hr⟩⟩

/-! ### The positions that carry a key -/

section Positions

variable (encoding : CellEncoding V)

/-- The observation carries a serialised key. -/
def Observation.carries (key : List (Fin 256)) (o : Observation V) : Bool :=
  o.isKeyed && encoding.json o.keyCells == key

/-- The positions of a pool whose observations carry a serialised key. -/
def positions (pool : List (Observation V)) (key : List (Fin 256)) : List (Fin pool.length) :=
  (List.finRange pool.length).filter fun i => (pool.get i).carries encoding key

variable {encoding} {pool ig e : List (Observation V)} {key : List (Fin 256)}

theorem Observation.carries_iff {o : Observation V} :
    o.carries encoding key ↔ o.isKeyed ∧ encoding.json o.keyCells = key := by
  rw [carries, Bool.and_eq_true, beq_iff_eq]

variable {i : Fin pool.length} {cells : List (Option V)} {j : Fin e.length}

theorem mem_positions : i ∈ positions encoding pool key ↔
      (pool.get i).isKeyed ∧ encoding.json (pool.get i).keyCells = key := by
  rw [positions, mem_filter, Observation.carries_iff]
  exact and_iff_right (mem_finRange i)

theorem mem_positions_self (encoding : CellEncoding V) (h : (pool.get i).isKeyed) :
    i ∈ positions encoding pool (encoding.json (pool.get i).keyCells) :=
  mem_positions.mpr ⟨h, rfl⟩

theorem nodup_positions : (positions encoding pool key).Nodup := (nodup_finRange _).filter _

theorem eq_singleton_iff_of_nodup {α : Type} {l : List α} (hl : l.Nodup) {a : α} :
    l = [a] ↔ ∀ b, b ∈ l ↔ b = a := by
  constructor
  · rintro rfl b
    exact mem_singleton
  · intro h
    exact perm_singleton.mp ((perm_ext_iff_of_nodup hl (nodup_singleton a)).mpr
      fun b => (h b).trans mem_singleton.symm)

theorem positions_eq_singleton :
    positions encoding pool (encoding.json cells) = [i] ↔ Carries pool cells i := by
  rw [eq_singleton_iff_of_nodup nodup_positions]
  refine forall_congr' fun j => ?_
  rw [mem_positions, encoding.lossless.eq_iff]

theorem paired_of_positions {i : Fin ig.length} (hi : positions encoding ig key = [i])
    (hj : positions encoding e key = [j]) :
    Paired ig e i j := by
  have hmem : i ∈ positions encoding ig key := hi ▸ mem_singleton_self i
  obtain ⟨-, rfl⟩ := mem_positions.mp hmem
  exact ⟨_, positions_eq_singleton.mp hi, positions_eq_singleton.mp hj⟩

theorem Carries.self (h : Carries pool cells i) :
    (pool.get i).isKeyed ∧ (pool.get i).keyCells = cells :=
  (h i).mpr rfl

theorem paired_iff (encoding : CellEncoding V) {i : Fin ig.length} : Paired ig e i j ↔
      positions encoding ig (encoding.json (ig.get i).keyCells) = [i] ∧
        positions encoding e (encoding.json (ig.get i).keyCells) = [j] := by
  constructor
  · rintro ⟨cells, hi, hj⟩
    rw [hi.self.2]
    exact ⟨positions_eq_singleton.mpr hi, positions_eq_singleton.mpr hj⟩
  · rintro ⟨hi, hj⟩
    exact paired_of_positions hi hj

end Positions

/-! ### Adding up the counters -/

def Summary.add (a b : Summary) : Summary where
  uniqueMatches := a.uniqueMatches + b.uniqueMatches
  reorderedPairs := a.reorderedPairs + b.reorderedPairs
  ingressOnly := a.ingressOnly + b.ingressOnly
  egressOnly := a.egressOnly + b.egressOnly
  ambiguousGroups := a.ambiguousGroups + b.ambiguousGroups
  ambiguousObservations := a.ambiguousObservations + b.ambiguousObservations
  checksEvaluated := a.checksEvaluated + b.checksEvaluated
  checksSatisfied := a.checksSatisfied + b.checksSatisfied
  checksViolated := a.checksViolated + b.checksViolated
  checksUnevaluable := a.checksUnevaluable + b.checksUnevaluable

instance : Add Summary := ⟨Summary.add⟩

instance : Zero Summary := ⟨{}⟩

theorem Summary.add_def (a b : Summary) : a + b = a.add b := rfl

theorem Summary.zero_def : (0 : Summary) = {} := rfl

instance : AddCommMonoid Summary where
  add_assoc a b c := by simp only [add_def, Summary.add, Nat.add_assoc]
  zero_add a := by simp only [add_def, zero_def, Summary.add, Nat.zero_add]
  add_zero a := by simp only [add_def, zero_def, Summary.add, Nat.add_zero]
  add_comm a b := by simp only [add_def, Summary.add, Nat.add_comm]
  nsmul := nsmulRec

/-- The counter of the checks with an outcome. -/
def Summary.withOutcome : Resolution → Summary →+ ℕ
  | .satisfied => ⟨⟨Summary.checksSatisfied, rfl⟩, fun _ _ => rfl⟩
  | .violated => ⟨⟨Summary.checksViolated, rfl⟩, fun _ _ => rfl⟩
  | .unevaluable => ⟨⟨Summary.checksUnevaluable, rfl⟩, fun _ _ => rfl⟩

/-- The one-sided observations and the ambiguous groups. -/
def Summary.loose : Summary →+ ℕ :=
  ⟨⟨fun s => s.ingressOnly + s.egressOnly + s.ambiguousGroups, rfl⟩, fun a b => by
    simp only [add_def, Summary.add]
    omega⟩

/-- What one outcome adds to the counters. -/
def tally (outcome : Resolution) : Summary := (0 : Summary).record outcome

theorem Summary.record_eq (s : Summary) (o : Resolution) : s.record o = s + tally o := by
  cases o <;> simp [tally, record, add_def, zero_def, Summary.add]

@[simp]
theorem loose_tally (o : Resolution) : loose (tally o) = 0 := by
  cases o <;> rfl

theorem withOutcome_tally (r o : Resolution) :
    withOutcome r (tally o) = if o = r then 1 else 0 := by
  cases r <;> cases o <;> rfl

/-- What a list of evaluated checks adds to the counters. -/
def tallyChecks (checks : List (CheckEvaluation V)) : Summary :=
  (checks.map fun c => tally c.outcome).sum

theorem sum_pos_iff {α : Type} {f : α → ℕ} {l : List α} : 0 < (l.map f).sum ↔ ∃ a ∈ l, 0 < f a := by
  induction l with
  | nil => simp
  | cons a l ih =>
    rw [map_cons, sum_cons, Nat.add_pos_iff_pos_or_pos, ih, exists_mem_cons_iff]

theorem hom_sum_pos_iff {α : Type} (c : Summary →+ ℕ) {f : α → Summary} {l : List α} :
    0 < c (l.map f).sum ↔ ∃ a ∈ l, 0 < c (f a) := by
  rw [map_list_sum, map_map]
  exact sum_pos_iff

theorem withOutcome_tallyChecks_pos {r : Resolution} {ch : List (CheckEvaluation V)} :
    0 < withOutcome r (tallyChecks ch) ↔ ∃ c ∈ ch, c.outcome = r := by
  rw [tallyChecks, hom_sum_pos_iff]
  refine exists_congr fun c => and_congr_right fun _ => ?_
  rw [withOutcome_tally]
  split_ifs with h
  · exact ⟨fun _ => h, fun _ => Nat.one_pos⟩
  · exact ⟨nofun, fun h' => absurd h' h⟩

theorem loose_tallyChecks (c : List (CheckEvaluation V)) : loose (tallyChecks c) = 0 := by
  rw [tallyChecks, map_list_sum, map_map]
  exact sum_eq_zero (by simp)

/-! ### The contribution of a group -/

section Contribution

variable (rules : Rules)

/-- What the expectations of some egress observations add to the counters. -/
def tallyExpectations (observations : List (Observation V)) : Summary :=
  (observations.map fun o => tallyChecks (rules.expectationChecks o)).sum

theorem withOutcome_tallyExpectations_pos {r : Resolution} {obs : List (Observation V)} :
    0 < withOutcome r (tallyExpectations rules obs) ↔
      ∃ o ∈ obs, ∃ c ∈ rules.expectationChecks o, c.outcome = r := by
  rw [tallyExpectations, hom_sum_pos_iff]
  exact exists_congr fun o => and_congr_right fun _ => withOutcome_tallyChecks_pos

theorem loose_tallyExpectations (obs : List (Observation V)) :
    loose (tallyExpectations rules obs) = 0 := by
  rw [tallyExpectations, map_list_sum, map_map]
  exact sum_eq_zero (by simp [loose_tallyChecks])

variable [DecidableEq V]

/-- What the observations that share a key add to the counters. -/
def contribution {ingress egress : List (Observation V)} (is : List (Fin ingress.length))
    (js : List (Fin egress.length)) : Summary :=
  match is, js with
  | [], [] => 0
  | [i], [j] => { uniqueMatches := 1 } +
      tallyChecks (rules.preservations (ingress.get i) (egress.get j)) +
      tallyExpectations rules [egress.get j]
  | is, [] => { ingressOnly := is.length }
  | [], js => { egressOnly := js.length } + tallyExpectations rules (js.map egress.get)
  | is, js =>
    { ambiguousGroups := 1, ambiguousObservations := is.length + js.length } +
      tallyExpectations rules (js.map egress.get)

variable {rules} {ir eg : List (Observation V)}

variable {is : List (Fin ir.length)} {js : List (Fin eg.length)}

/-- A group counts for an outcome when a check on its pair, or an expectation on one of its egress
observations, has it. -/
theorem withOutcome_contribution_pos {r : Resolution} :
    0 < withOutcome r (contribution rules is js) ↔ (∃ i j, is = [i] ∧ js = [j] ∧
        ∃ c ∈ rules.preservations (ir.get i) (eg.get j), c.outcome = r) ∨
      ∃ j ∈ js, ∃ c ∈ rules.expectationChecks (eg.get j), c.outcome = r := by
  have hz : ∀ u n m k l, withOutcome r
      { uniqueMatches := u, ingressOnly := n, egressOnly := m, ambiguousGroups := k,
        ambiguousObservations := l } = 0 := by
    cases r <;> exact fun _ _ _ _ _ => rfl
  -- No element, one or more on each side.
  rcases is with _ | ⟨i, _ | ⟨i', is⟩⟩ <;> rcases js with _ | ⟨j, _ | ⟨j', js⟩⟩ <;>
    simp [contribution, hz, withOutcome_tallyChecks_pos, withOutcome_tallyExpectations_pos]

/-- A group is loose unless it is empty or a pair. -/
theorem loose_contribution_eq_zero : loose (contribution rules is js) = 0 ↔
      (is = [] ∧ js = []) ∨ ∃ i j, is = [i] ∧ js = [j] := by
  have hl : ∀ u n m k l, loose
      { uniqueMatches := u, ingressOnly := n, egressOnly := m, ambiguousGroups := k,
        ambiguousObservations := l } = n + m + k := fun _ _ _ _ _ => rfl
  rcases is with _ | ⟨i, _ | ⟨i', is⟩⟩ <;> rcases js with _ | ⟨j, _ | ⟨j', js⟩⟩ <;>
    simp [contribution, hl, loose_tallyChecks, loose_tallyExpectations]

end Contribution

/-! ### The counters of a whole comparison -/

section Total

variable [DecidableEq V] (encoding : CellEncoding V) (rules : Rules)
  (ingress egress : List (Observation V))

/-- The counters after all keys and all unkeyed egress observations. -/
def total (reorderedPairs : ℕ) (keys : List (List (Fin 256))) : Summary :=
  { reorderedPairs } +
    (keys.map fun key => contribution rules (positions encoding ingress key)
      (positions encoding egress key)).sum +
    tallyExpectations rules (egress.filter (!·.isKeyed))

variable {encoding rules ingress egress} {reorderedPairs : ℕ} {keys : List (List (Fin 256))}
  (hky : ∀ key, key ∈ keys ↔
    positions encoding ingress key ≠ [] ∨ positions encoding egress key ≠ [])
include hky

/-- Some check has an outcome exactly when its counter is positive: a preservation rule on a matched
pair, or an expectation on an egress observation, paired or not. -/
theorem outcome_pos_total {r : Resolution} :
    0 < withOutcome r (total encoding rules ingress egress reorderedPairs keys) ↔
      (∃ i j, Paired ingress egress i j ∧
        ∃ c ∈ rules.preservations (ingress.get i) (egress.get j), c.outcome = r) ∨
      ∃ j : Fin egress.length, ∃ c ∈ rules.expectationChecks (egress.get j), c.outcome = r := by
  have hz : withOutcome r { reorderedPairs } = 0 := by cases r <;> rfl
  rw [total, map_add, map_add, hz, Nat.zero_add, Nat.add_pos_iff_pos_or_pos, hom_sum_pos_iff,
    withOutcome_tallyExpectations_pos]
  simp only [withOutcome_contribution_pos]
  constructor
  · rintro (⟨key, -, ⟨i, j, hi, hj, hc⟩ | ⟨j, -, hc⟩⟩ | ⟨o, ho, hc⟩)
    · exact .inl ⟨i, j, paired_of_positions hi hj, hc⟩
    · exact .inr ⟨j, hc⟩
    · obtain ⟨j, rfl⟩ := mem_iff_get.mp (mem_of_mem_filter ho)
      exact .inr ⟨j, hc⟩
  · rintro (⟨i, j, hp, hc⟩ | ⟨j, hc⟩)
    · obtain ⟨hi, hj⟩ := (paired_iff encoding).mp hp
      refine .inl ⟨_, (hky _).mpr (.inl ?_), .inl ⟨i, j, hi, hj, hc⟩⟩
      rw [hi]
      exact cons_ne_nil _ _
    · by_cases hk : (egress.get j).isKeyed
      · have hmem := mem_positions_self encoding hk
        exact .inl ⟨_, (hky _).mpr (.inr (ne_nil_of_mem hmem)), .inr ⟨j, hmem, hc⟩⟩
      · refine .inr ⟨_, mem_filter.mpr ⟨get_mem _ j, ?_⟩, hc⟩
        simpa using hk

/-- Nothing is loose exactly when every key is carried once by each side. -/
theorem loose_total_eq_zero : loose (total encoding rules ingress egress reorderedPairs keys) = 0 ↔
      ∀ key ∈ keys, ∃ i j, positions encoding ingress key = [i] ∧
        positions encoding egress key = [j] := by
  have hz : loose { reorderedPairs } = 0 := rfl
  rw [total, map_add, map_add, hz, Nat.zero_add, loose_tallyExpectations, Nat.add_zero,
    ← Nat.le_zero, ← Nat.not_lt, hom_sum_pos_iff]
  push Not
  refine forall₂_congr fun key hk => ?_
  rw [Nat.le_zero, loose_contribution_eq_zero]
  refine or_iff_right fun hn => ?_
  rcases (hky key).mp hk with h | h
  · exact h hn.1
  · exact h hn.2

theorem corresponds_iff : Corresponds ingress egress ↔
    (∀ i, (ingress.get i).isKeyed) ∧ (∀ j, (egress.get j).isKeyed) ∧
      loose (total encoding rules ingress egress reorderedPairs keys) = 0 := by
  rw [loose_total_eq_zero hky]
  constructor
  · intro h
    refine ⟨h.ingress_keyed, h.egress_keyed, fun key hk => ?_⟩
    -- A key of one side is the key of an observation, which has a partner on the other side.
    obtain ⟨i, j, rfl, hc⟩ : ∃ i j, key = encoding.json (ingress.get i).keyCells ∧
        (egress.get j).keyCells = (ingress.get i).keyCells := by
      rcases (hky key).mp hk with hi | hj
      · obtain ⟨i, hi⟩ := exists_mem_of_ne_nil _ hi
        obtain ⟨j, hj⟩ := h.ingress_matched i
        exact ⟨i, j, (mem_positions.mp hi).2.symm, hj⟩
      · obtain ⟨j, hj⟩ := exists_mem_of_ne_nil _ hj
        obtain ⟨i, hi⟩ := h.egress_matched j
        refine ⟨i, j, ?_, hi.symm⟩
        rw [hi, (mem_positions.mp hj).2]
    refine ⟨i, j, positions_eq_singleton.mpr fun i' => ?_, positions_eq_singleton.mpr fun j' => ?_⟩
    · refine ⟨fun h' => h.ingress_injective h'.2, ?_⟩
      rintro rfl
      exact ⟨h.ingress_keyed i', rfl⟩
    · refine ⟨fun h' => h.egress_injective (h'.2.trans hc.symm), ?_⟩
      rintro rfl
      exact ⟨h.egress_keyed j', hc⟩
  · rintro ⟨hin, he, hu⟩
    -- Each observation puts its key among the keys, so its group is a pair.
    have hl : ∀ i, ∃ j, Paired ingress egress i j := by
      intro i
      have hmem := mem_positions_self encoding (hin i)
      obtain ⟨i', j, hi, hj⟩ := hu _ ((hky _).mpr (.inl (ne_nil_of_mem hmem)))
      obtain rfl : i = i' := mem_singleton.mp (hi ▸ hmem)
      exact ⟨j, paired_of_positions hi hj⟩
    have hr : ∀ j, ∃ i, Paired ingress egress i j := by
      intro j
      have hmem := mem_positions_self encoding (he j)
      obtain ⟨i, j', hi, hj⟩ := hu _ ((hky _).mpr (.inr (ne_nil_of_mem hmem)))
      obtain rfl : j = j' := mem_singleton.mp (hj ▸ hmem)
      exact ⟨i, paired_of_positions hi hj⟩
    refine ⟨hin, he, ?_, ?_, ?_, ?_⟩
    · intro i i' heq
      obtain ⟨j, cells, hi, -⟩ := hl i
      exact ((hi i').mp ⟨hin i', heq.symm.trans hi.self.2⟩).symm
    · intro j j' heq
      obtain ⟨i, cells, -, hj⟩ := hr j
      exact ((hj j').mp ⟨he j', heq.symm.trans hj.self.2⟩).symm
    · intro i
      obtain ⟨j, cells, hi, hj⟩ := hl i
      exact ⟨j, hj.self.2.trans hi.self.2.symm⟩
    · intro j
      obtain ⟨i, cells, hi, hj⟩ := hr j
      exact ⟨i, hi.self.2.trans hj.self.2.symm⟩

end Total

end PacketCraftr.Forwarding
