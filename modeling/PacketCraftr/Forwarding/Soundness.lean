import PacketCraftr.Forwarding.Passes

/-!
# The forwarding verdict is sound and complete

The loop over the keys adds the contribution of every group to the counters and keeps one entry for
every matched pair, as long as the budget lasts. The verdict is therefore a statement about the
observations, and the comparison only fails for a stated reason.
-/

open List

namespace PacketCraftr.Forwarding

open Polled Summary

variable {V : Type} {answers : ℕ → Except Error Unit} {E : Error → Prop}

/-! ### The evidence that was gathered -/

/-- A matched pair in front of position `i` has a larger egress rank than the pair of `i`. -/
def OutOfOrder (ingress egress : List (Observation V)) (i : Fin ingress.length) : Prop :=
  ∃ j, Paired ingress egress i j ∧
    ∃ i' j', i' < i ∧ Paired ingress egress i' j' ∧ rank egress j < rank egress j'

/-- The indexes, ranks and order flags are those of the pools. -/
structure Gathered (encoding : CellEncoding V) (pools : Pools V) : Prop where
  ingress : Indexes encoding pools.ingressIndex
  egress : Indexes encoding pools.egressIndex
  ingressRanks : Ranks pools.ingress pools.ingressRank
  egressRanks : Ranks pools.egress pools.egressRank
  reordered : ∀ i : Fin pools.ingress.length,
    pools.reordered.getD i false = true ↔ OutOfOrder pools.ingress pools.egress i

theorem reordered_of_orders {ingress egress : List (Observation V)} {o : List (Option ℕ)}
    (h : Orders ingress egress o) (i : Fin ingress.length) :
    (reorderedFlags 0 o).getD i false = true ↔ OutOfOrder ingress egress i := by
  rw [reorderedFlags_getD]
  constructor
  · rintro ⟨r, hr, hlt | ⟨i', hi', r', hr', hlt⟩⟩
    · exact absurd hlt (Nat.not_lt_zero r)
    · obtain ⟨j, hp, rfl⟩ := (h i r).mp hr
      obtain ⟨j', hp', rfl⟩ := (h ⟨i', hi'.trans i.isLt⟩ r').mp hr'
      exact ⟨j, hp, _, j', hi', hp', hlt⟩
  · rintro ⟨j, hp, i', j', hi', hp', hlt⟩
    exact ⟨_, (h i _).mpr ⟨j, hp, rfl⟩, .inr ⟨i', hi', _, (h i' _).mpr ⟨j', hp', rfl⟩, hlt⟩⟩

section Loop

variable (hpo : ∀ n e, answers n = .error e → E e) {en : CellEncoding V}

include hpo in
theorem gather_meets {ingress egress : List (Observation V)} {sc : ScratchBudget}
    (hs : sc.limit < sc.used + scratchDemand en ingress +
      scratchDemand en egress → E (.scratchBudget sc.limit)) :
    Meets E (gather answers en ingress egress sc) fun pools =>
      pools.ingress = ingress ∧ pools.egress = egress ∧ Gathered en pools := by
  refine (index_meets hpo fun h => hs (by omega)).bind ?_
  rintro ⟨ii, b⟩ ⟨hi, hu, hl⟩
  refine (index_meets hpo fun h => ?_).bind ?_
  · dsimp only at hl hu h ⊢
    rw [hl]
    exact hs (by omega)
  rintro ⟨ei, b'⟩ ⟨he, -, -⟩
  refine (ranks_meets hpo ingress).bind fun ir hig => ?_
  refine (ranks_meets hpo egress).bind fun er her => ?_
  refine (pairOrders_meets hpo hi he her).bind fun o ho => ?_
  exact Meets.pure ⟨rfl, rfl, hi, he, hig, her, reordered_of_orders ho⟩

theorem mem_keys_foldl_insert {K : Type} [LinearOrder K] {l : List K} {m : SortedMap K Unit}
    {k : K} : k ∈ (l.foldl (fun keys key => keys.insert key ()) m).keys ↔ k ∈ m.keys ∨ k ∈ l := by
  induction l generalizing m with
  | nil => simp
  | cons a l ih =>
    rw [foldl_cons, ih, SortedMap.mem_keys, SortedMap.mem_keys, SortedMap.find?_insert,
      mem_cons, ← or_assoc]
    refine or_congr_left ?_
    split_ifs with h
    · exact ⟨fun _ => .inr h, fun _ => ⟨(), rfl⟩⟩
    · exact (or_iff_left h).symm

theorem Gathered.mem_keys {pools : Pools V} (h : Gathered en pools)
    (key : List (Fin 256)) : key ∈ pools.keys ↔
      positions en pools.ingress key ≠ [] ∨ positions en pools.egress key ≠ [] := by
  rw [Pools.keys, mem_keys_foldl_insert, mem_append, h.ingress.mem_keys, h.egress.mem_keys]
  refine or_iff_right ?_
  simp [SortedMap.keys, SortedMap.empty]

/-! ### What a step adds to the comparison -/

/-- A step adds `s` to the counters and leaves the retained pairs alone. -/
structure Adds (c c' : Comparison V) (s : Summary) : Prop where
  summary : c'.summary = c.summary + s
  pairs : c'.pairs = c.pairs

theorem Adds.trans {c c' c'' : Comparison V} {s s' : Summary} (h : Adds c c' s)
    (h' : Adds c' c'' s') : Adds c c'' (s + s') :=
  ⟨by rw [h'.summary, h.summary, add_assoc], h'.pairs.trans h.pairs⟩

theorem Adds.refl (c : Comparison V) : Adds c c 0 := ⟨(add_zero _).symm, rfl⟩

theorem foldlM_adds {α : Type} {f : Comparison V → α → Polled Error (Comparison V)}
    {g : α → Summary} (hf : ∀ c a, Meets E (f c a) fun c' => Adds c c' (g a))
    (l : List α) (c : Comparison V) :
    Meets E (l.foldlM f c) fun c' => Adds c c' (l.map g).sum := by
  induction l generalizing c with
  | nil => exact Meets.pure (Adds.refl c)
  | cons a l ih =>
    exact (hf c a).bind fun c' h => (ih c').weaken fun c'' h' => h.trans h'

variable {cr : Charges V}

theorem record_adds (c : Comparison V) (o : Resolution) (violation : Violation V) :
    Adds c (c.record cr o violation) (tally o) := by
  have hr := record_eq c.summary o
  cases o <;> exact ⟨hr, rfl⟩

theorem recordChecks_adds (cr : Charges V) (key : Option (List V)) (ingress : Option Evidence)
    (egress : Evidence) (ch : List (CheckEvaluation V)) (c : Comparison V) :
    Adds c (ch.foldl (Comparison.recordCheck cr key ingress egress) c) (tallyChecks ch) := by
  induction ch generalizing c with
  | nil => exact Adds.refl c
  | cons check ch ih => exact (record_adds c _ _).trans (ih _)

variable {r : Rules}

theorem recordEgressExpectations_adds (o : Observation V) (c : Comparison V) :
    Adds c (recordEgressExpectations cr r o c) (tallyChecks (r.expectationChecks o)) :=
  recordChecks_adds _ _ _ _ _ _

include hpo

theorem compareIngressOnly_meets (members : List (Observation V)) (c : Comparison V) :
    Meets E (compareIngressOnly answers cr members c)
      fun c' => Adds c c' { ingressOnly := members.length } := by
  have hl := foldlM_adds (E := E) (g := fun _ => 0) (f := fun c o => do
    poll answers
    pure (Comparison.pushIngressOnly cr c o)) (fun c o =>
      (Meets.poll hpo).bind fun _ _ => Meets.pure ⟨(add_zero _).symm, rfl⟩) members
    { c with summary.ingressOnly := c.summary.ingressOnly + members.length }
  refine hl.weaken fun c' h => ⟨?_, h.pairs⟩
  rw [h.summary, sum_eq_zero (by simp), add_zero]
  rfl

theorem compareEgressOnly_meets (members : List (Observation V)) (c : Comparison V) :
    Meets E (compareEgressOnly answers cr r members c)
      fun c' => Adds c c' ({ egressOnly := members.length } + tallyExpectations r members) := by
  have hl := foldlM_adds (E := E) (g := fun o => tallyChecks (r.expectationChecks o))
    (f := fun c o => do
      poll answers
      pure ((recordEgressExpectations cr r o c).pushEgressOnly cr o)) (fun c o =>
        (Meets.poll hpo).bind fun _ _ => Meets.pure ⟨(recordEgressExpectations_adds o c).summary,
            (recordEgressExpectations_adds o c).pairs⟩) members
    { c with summary.egressOnly := c.summary.egressOnly + members.length }
  refine hl.weaken fun c' h => ⟨?_, h.pairs⟩
  rw [h.summary]
  exact add_assoc c.summary { egressOnly := members.length } _

theorem indistinguishable_meets [DecidableEq V] (members : List (Observation V)) :
    Meets E (indistinguishable answers members) fun _ => True := by
  induction members with
  | nil => exact Meets.pure trivial
  | cons a members ih =>
    cases members with
    | nil => exact Meets.pure trivial
    | cons b rest =>
      refine (Meets.poll hpo).bind fun _ _ => ?_
      split_ifs
      · exact Meets.pure trivial
      · exact ih

theorem retainMembers_meets (members : List (Observation V)) (c : Comparison V) :
    Meets E (retainMembers answers cr members c) fun r => Adds c r.2 0 := by
  refine Meets.foldlM (fun (r : Retained Evidence × Comparison V) _ => Adds c r.2 0)
    (fun r o l h => ?_) (Adds.refl c)
  exact (Meets.poll hpo).bind fun _ _ => Meets.pure ⟨h.summary, h.pairs⟩

section

variable [DecidableEq V] (k : ℕ) (ingress egress : List (Observation V)) (c : Comparison V)

theorem retainGroup_meets :
    Meets E (retainGroup answers cr k ingress egress c) fun c' => Adds c c' 0 := by
  unfold retainGroup
  split
  · refine (retainMembers_meets hpo ingress _).bind ?_
    rintro ⟨ik, c₁⟩ h₁
    refine (retainMembers_meets hpo egress c₁).bind ?_
    rintro ⟨ek, c₂⟩ h₂
    refine (indistinguishable_meets hpo ingress).bind fun _ _ => ?_
    refine (indistinguishable_meets hpo egress).bind fun _ _ => Meets.pure ?_
    exact ⟨(h₁.trans h₂).summary.trans (by rw [add_zero]), (h₁.trans h₂).pairs⟩
  · exact Meets.pure ⟨(add_zero _).symm, rfl⟩

theorem compareAmbiguous_meets :
    Meets E (compareAmbiguous answers cr r k ingress egress c) fun c' => Adds c c' (
        { ambiguousGroups := 1, ambiguousObservations := ingress.length + egress.length } +
          tallyExpectations r egress) := by
  have hl := foldlM_adds (E := E) (g := fun o => tallyChecks (r.expectationChecks o))
    (f := fun c o => do
      poll answers
      pure (recordEgressExpectations cr r o c)) (fun c o =>
        (Meets.poll hpo).bind fun _ _ =>
          Meets.pure (recordEgressExpectations_adds o c)) egress
    { c with
      summary.ambiguousGroups := c.summary.ambiguousGroups + 1
      summary.ambiguousObservations :=
        c.summary.ambiguousObservations + (ingress.length + egress.length) }
  refine hl.bind fun c₁ h₁ => ?_
  refine (retainGroup_meets hpo k ingress egress c₁).weaken fun c' h => ⟨?_, ?_⟩
  · rw [h.summary, h₁.summary, add_zero]
    exact add_assoc c.summary
      { ambiguousGroups := 1, ambiguousObservations := ingress.length + egress.length } _
  · exact h.pairs.trans h₁.pairs

end

theorem compareUnkeyed_meets (obs : List (Observation V)) (c : Comparison V) :
    Meets E (obs.foldlM (compareUnkeyed answers cr r) c)
      fun c' => Adds c c' (tallyExpectations r (obs.filter (!·.isKeyed))) := by
  have hs : (obs.map fun o => if o.isKeyed then 0 else tallyChecks (r.expectationChecks o)).sum =
      tallyExpectations r (obs.filter (!·.isKeyed)) := by
    induction obs with
    | nil => rfl
    | cons o obs ih =>
      rw [map_cons, sum_cons, ih]
      by_cases hk : o.isKeyed
      · simp [hk]
      · simp [hk, tallyExpectations]
  rw [← hs]
  refine foldlM_adds (fun c o => (Meets.poll hpo).bind fun _ _ => Meets.pure ?_) obs c
  split_ifs
  · exact Adds.refl c
  · exact recordEgressExpectations_adds o c

theorem retainUnkeyed_meets (obs : List (Observation V)) (b : DetailBudget) :
    Meets E (retainUnkeyed answers cr obs b) fun _ => True :=
  Meets.foldlM (fun _ _ => True)
    (fun _ _ _ _ => (Meets.poll hpo).bind fun _ _ => Meets.pure trivial) trivial

/-! ### The loop over the keys -/

variable [DecidableEq V]

/-- The entry of a matched pair. -/
structure MatchOf (rules : Rules) (ingress egress : List (Observation V)) (i : Fin ingress.length)
    (j : Fin egress.length) (m : Match V) : Prop where
  paired : Paired ingress egress i j
  ingress_eq : m.ingress = (ingress.get i).evidence
  egress_eq : m.egress = (egress.get j).evidence
  ingressOrder_eq : m.ingressOrder = rank ingress i
  egressOrder_eq : m.egressOrder = rank egress j
  checks_eq : m.checks =
    rules.preservations (ingress.get i) (egress.get j) ++ rules.expectationChecks (egress.get j)
  reordered_iff : m.reordered = true ↔ OutOfOrder ingress egress i

/-- The entry that a pair is offered as. -/
def RankedPair.toMatch (rules : Rules) (pair : RankedPair V) : Match V where
  key := pair.ingress.key.getD []
  ingress := pair.ingress.evidence
  egress := pair.egress.evidence
  ingressOrder := pair.ingressOrder
  egressOrder := pair.egressOrder
  reordered := pair.reordered
  checks := rules.preservations pair.ingress pair.egress ++ rules.expectationChecks pair.egress

omit hpo in
theorem compareUnique_cases (cr : Charges V) (r : Rules) (pair : RankedPair V) (c : Comparison V) :
    (compareUnique cr r pair c).summary = c.summary + ({ uniqueMatches := 1 } +
      tallyChecks (r.preservations pair.ingress pair.egress) +
      tallyExpectations r [pair.egress]) ∧
    ((compareUnique cr r pair c).pairs =
        { c.pairs with items := c.pairs.items ++ [pair.toMatch r] } ∨
      (compareUnique cr r pair c).pairs = { c.pairs with omitted := c.pairs.omitted + 1 }) := by
  have h := (recordChecks_adds cr pair.ingress.key (some pair.ingress.evidence)
    pair.egress.evidence (r.preservations pair.ingress pair.egress)
    { c with summary.uniqueMatches := c.summary.uniqueMatches + 1 }).trans
    (recordChecks_adds cr pair.egress.key (some pair.ingress.evidence) pair.egress.evidence
      (r.expectationChecks pair.egress) _)
  constructor
  · have ho : tallyExpectations r [pair.egress] =
        tallyChecks (r.expectationChecks pair.egress) := by
      simp [tallyExpectations]
    rw [ho, add_assoc]
    exact h.summary.trans (add_assoc c.summary { uniqueMatches := 1 } _)
  · have hp := h.pairs
    rw [← hp]
    change (pushBounded _ _ _ _).1 = _ ∨ (pushBounded _ _ _ _).1 = _
    unfold pushBounded
    split
    · exact .inl rfl
    · exact .inr rfl

/-- What comparing the group of a key does: its contribution is added, and the pair, if it is one,
is retained or counted as left out. -/
structure ComparesGroup (encoding : CellEncoding V) (rules : Rules) (pools : Pools V)
    (key : List (Fin 256)) (c c' : Comparison V) : Prop where
  summary : c'.summary = c.summary + contribution rules (positions encoding pools.ingress key)
    (positions encoding pools.egress key)
  kept : c.pairs.items ⊆ c'.pairs.items ∧ c.pairs.omitted ≤ c'.pairs.omitted
  sound : ∀ m ∈ c'.pairs.items, m ∈ c.pairs.items ∨
    ∃ i j, MatchOf rules pools.ingress pools.egress i j m
  complete : ∀ i j, positions encoding pools.ingress key = [i] →
    positions encoding pools.egress key = [j] → 0 < c'.pairs.omitted ∨
      ∃ m ∈ c'.pairs.items, MatchOf rules pools.ingress pools.egress i j m

variable {p : Pools V}

variable {i : Fin p.ingress.length} {j : Fin p.egress.length} {key : List (Fin 256)}

omit hpo in
theorem Gathered.toMatch (h : Gathered en p) (r : Rules) (hp : Paired p.ingress p.egress i j) :
    MatchOf r p.ingress p.egress i j ((p.pairAt i j).toMatch r) := by
  obtain ⟨cl, hi, hj⟩ := hp
  exact ⟨⟨cl, hi, hj⟩, rfl, rfl, h.ingressRanks.get hi.self.1, h.egressRanks.get hj.self.1, rfl,
    h.reordered i⟩

omit hpo in
theorem Gathered.compareUnique_compares (h : Gathered en p) (hi : positions en p.ingress key = [i])
    (hj : positions en p.egress key = [j]) (c : Comparison V) :
    ComparesGroup en r p key c (compareUnique cr r (p.pairAt i j) c) := by
  have hmt := h.toMatch r (paired_of_positions hi hj)
  obtain ⟨hs, hp⟩ := compareUnique_cases cr r (p.pairAt i j) c
  have hsa : ∀ i' j', positions en p.ingress key = [i'] →
      positions en p.egress key = [j'] → i' = i ∧ j' = j := by
    intro i' j' hi' hj'
    rw [hi, List.cons.injEq] at hi'
    rw [hj, List.cons.injEq] at hj'
    exact ⟨hi'.1.symm, hj'.1.symm⟩
  rcases hp with hp | hp
  · refine ⟨by rw [hi, hj]; exact hs, ?_, ?_, ?_⟩
    · rw [hp]
      exact ⟨subset_append_left _ _, le_rfl⟩
    · intro m hm
      rw [hp] at hm
      rcases mem_append.mp hm with hm | hm
      · exact .inl hm
      · exact .inr ⟨i, j, mem_singleton.mp hm ▸ hmt⟩
    · intro i' j' hi' hj'
      obtain ⟨rfl, rfl⟩ := hsa i' j' hi' hj'
      rw [hp]
      exact .inr ⟨_, mem_append_right _ (mem_singleton_self _), hmt⟩
  · refine ⟨by rw [hi, hj]; exact hs, ?_, ?_, ?_⟩
    · rw [hp]
      exact ⟨List.Subset.refl _, Nat.le_succ _⟩
    · intro m hm
      rw [hp] at hm
      exact .inl hm
    · intro i' j' _ _
      rw [hp]
      exact .inl (Nat.succ_pos _)

theorem compareGroup_meets (h : Gathered en p) (c : Comparison V) (key : List (Fin 256)) :
    Meets E (compareGroup answers cr r p c key) (ComparesGroup en r p key c) := by
  have ho : ∀ {is js x s}, positions en p.ingress key = is →
      positions en p.egress key = js → (∀ i j, is = [i] → js ≠ [j]) →
      Meets E x (fun c' => Adds c c' s) → s = contribution r is js →
      Meets E x (ComparesGroup en r p key c) := by
    rintro is js x s rfl rfl hnot hx rfl
    refine hx.weaken fun c' ha =>
      ⟨ha.summary, ?_, ?_, fun i j hi hj => absurd hj (hnot i j hi)⟩
    · rw [ha.pairs]
      exact ⟨List.Subset.refl _, le_rfl⟩
    · intro m hm
      exact .inl (ha.pairs ▸ hm)
  unfold compareGroup
  rw [h.ingress.members, h.egress.members]
  generalize hi : positions en p.ingress key = is
  generalize hj : positions en p.egress key = js
  -- No member, one or more on each side.
  rcases is with _ | ⟨i, _ | ⟨i', is⟩⟩ <;> rcases js with _ | ⟨j, _ | ⟨j', js⟩⟩
  · exact ho hi hj (by simp) (Meets.pure (Adds.refl c)) rfl
  · exact ho hi hj (by simp) (compareEgressOnly_meets hpo _ c) rfl
  · exact ho hi hj (by simp) (compareEgressOnly_meets hpo _ c) (by simp [contribution])
  · exact ho hi hj (by simp) (compareIngressOnly_meets hpo _ c) rfl
  · exact Meets.pure (h.compareUnique_compares hi hj c)
  · exact ho hi hj (by simp) (compareAmbiguous_meets hpo _ _ _ c) (by simp [contribution])
  · exact ho hi hj (by simp) (compareIngressOnly_meets hpo _ c) (by simp [contribution])
  · exact ho hi hj (by simp) (compareAmbiguous_meets hpo _ _ _ c) (by simp [contribution])
  · exact ho hi hj (by simp) (compareAmbiguous_meets hpo _ _ _ c) (by simp [contribution])

/-- What the loop has done when some keys are still to come. -/
structure Compared (encoding : CellEncoding V) (rules : Rules) (pools : Pools V) (final : Summary)
    (c : Comparison V) (remaining : List (List (Fin 256))) : Prop where
  summary : c.summary + (remaining.map fun key => contribution rules
    (positions encoding pools.ingress key) (positions encoding pools.egress key)).sum = final
  sound : ∀ m ∈ c.pairs.items, ∃ i j, MatchOf rules pools.ingress pools.egress i j m
  complete : ∀ i j, Paired pools.ingress pools.egress i j →
    encoding.json (pools.ingress.get i).keyCells ∉ remaining → 0 < c.pairs.omitted ∨
      ∃ m ∈ c.pairs.items, MatchOf rules pools.ingress pools.egress i j m

theorem compareKey_meets (h : Gathered en p) {f : Summary} {c : Comparison V}
    {remaining : List (List (Fin 256))}
    (hc : Compared en r p f c (key :: remaining)) :
    Meets E (compareKey answers cr r p c key) fun c' => Compared en r p f c' remaining := by
  refine (Meets.poll hpo).bind fun _ _ => ?_
  refine (compareGroup_meets hpo h c key).weaken fun c' hg => ⟨?_, ?_, ?_⟩
  · rw [hg.summary, ← hc.summary, map_cons, sum_cons, add_assoc]
  · intro m hm
    rcases hg.sound m hm with hm | hmt
    · exact hc.sound m hm
    · exact hmt
  · intro i j hp hnot
    by_cases hk : en.json (p.ingress.get i).keyCells = key
    · obtain ⟨hi, hj⟩ := (paired_iff en).mp hp
      exact hg.complete i j (hk ▸ hi) (hk ▸ hj)
    · have hnot' : en.json (p.ingress.get i).keyCells ∉ key :: remaining :=
        fun hmem => (mem_cons.mp hmem).elim hk hnot
      rcases hc.complete i j hp hnot' with ho | ⟨m, hm, hmt⟩
      · exact .inl (ho.trans_le hg.kept.2)
      · exact .inr ⟨m, hg.kept.1 hm, hmt⟩

theorem compareKeys_meets (h : Gathered en p) (c : Comparison V) (he : c.pairs.items = []) :
    Meets E (p.keys.foldlM (compareKey answers cr r p) c) fun c' =>
      Compared en r p (c.summary + (p.keys.map fun key => contribution r
        (positions en p.ingress key) (positions en p.egress key)).sum) c' [] := by
  refine Meets.foldlM (Compared en r p _)
    (fun c key remaining hc => compareKey_meets hpo h hc) ⟨rfl, ?_, ?_⟩
  · intro m hm
    rw [he] at hm
    cases hm
  · intro i j hp hnot
    refine absurd ((h.mem_keys _).mpr (.inl ?_)) hnot
    rw [((paired_iff en).mp hp).1]
    exact cons_ne_nil _ _

end Loop

/-! ### The verdict -/

section Verdict

variable {c : CheckEvaluation V} {sd : Sided SideSummary} {s : SideSummary}
  {pool : List (Observation V)} {encoding : CellEncoding V} {keys : List (List (Fin 256))}

theorem mem_expectationChecks {rules : Rules} {egress : Observation V} :
    c ∈ rules.expectationChecks egress ↔
    ∃ (position : ℕ) (exp : Expectation) (stored : ExpectationOutcome V),
      rules.expectations[position]? = some exp ∧
      egress.expectations[position]? = some stored ∧ evaluateStored (exp, stored) = c := by
  rw [Rules.expectationChecks, mem_map]
  constructor
  · rintro ⟨⟨exp, stored⟩, hmem, heq⟩
    obtain ⟨position, hp⟩ := mem_iff_getElem?.mp hmem
    obtain ⟨he, hs⟩ := getElem?_zip_eq_some.mp hp
    exact ⟨position, exp, stored, he, hs, heq⟩
  · rintro ⟨position, exp, stored, he, hs, heq⟩
    exact ⟨_, mem_of_getElem? (getElem?_zip_eq_some.mpr ⟨he, hs⟩), heq⟩

theorem countP_eq_zero_get {p : Observation V → Bool} :
    pool.countP p = 0 ↔ ∀ i, ¬ p (pool.get i) := by
  rw [countP_eq_zero]
  exact ⟨fun h i => h _ (get_mem pool i), fun h o ho => by
    obtain ⟨i, rfl⟩ := mem_iff_get.mp ho
    exact h i⟩

theorem Corresponds.paired {ingress egress : List (Observation V)}
    (h : Corresponds ingress egress) (j : Fin egress.length) :
    ∃ i, Paired ingress egress i j := by
  obtain ⟨i, hi⟩ := h.egress_matched j
  refine ⟨i, (egress.get j).keyCells, fun i' => ⟨fun h' => ?_, ?_⟩, fun j' => ⟨fun h' => ?_, ?_⟩⟩
  · exact h.ingress_injective (h'.2.trans hi.symm)
  · rintro rfl
    exact ⟨h.ingress_keyed i', hi⟩
  · exact h.egress_injective h'.2
  · rintro rfl
    exact ⟨h.egress_keyed j', rfl⟩

theorem Counts.unkeyed_eq_zero (h : Counts pool s) : s.unkeyed = 0 ↔ ∀ i, (pool.get i).isKeyed := by
  rw [h.unkeyed, countP_eq_zero_get]
  exact forall_congr' fun i => by rw [Bool.not_eq_true', Bool.not_eq_false]

theorem Counts.incomplete_eq_zero (h : Counts pool s) :
    s.incomplete = 0 ↔ ∀ i, (pool.get i).incomplete = none := by
  rw [h.incomplete, countP_eq_zero_get]
  exact forall_congr' fun i => by rw [Bool.not_eq_true, Option.isSome_eq_false_iff, Option.isNone_iff_eq_none]

theorem Counts.keyed_pos (h : Counts pool s) : 0 < s.keyed ↔ ∃ i, (pool.get i).isKeyed := by
  rw [h.keyed, Nat.pos_iff_ne_zero, ne_eq, countP_eq_zero_get]
  push Not
  exact Iff.rfl

variable [DecidableEq V] (rules : Rules)

/-- Every declared check was evaluated on a pair and is satisfied. -/
structure Rules.SatisfiedOn (ingress egress : Observation V) : Prop where
  preserved : ∀ position kind field, rules.preservationSpecs[position]? = some (kind, field) →
    CellsAgree kind (ingress.cell position) (egress.cell position)
  expected : ∀ (position : ℕ) (expectation : Expectation),
    rules.expectations[position]? = some expectation → ∃ stored, egress.expectations[position]? = some stored ∧
      ExpectationMet expectation.kind stored

/-- A preservation rule was evaluated on a matched pair, or an expectation on an egress observation,
and is violated. -/
def Rules.ViolatedBy (ingress egress : List (Observation V)) : Prop :=
  (∃ i j, Paired ingress egress i j ∧ ∃ position kind field,
    rules.preservationSpecs[position]? = some (kind, field) ∧
      CellsDisagree kind ((ingress.get i).cell position) ((egress.get j).cell position)) ∨
  ∃ (j : Fin egress.length) (position : ℕ) (expectation : Expectation)
    (stored : ExpectationOutcome V), rules.expectations[position]? = some expectation ∧
      (egress.get j).expectations[position]? = some stored ∧
      ExpectationBroken expectation.kind stored

variable {rules} {ingress egress : Observation V}

theorem mem_preservations : c ∈ rules.preservations ingress egress ↔
    ∃ position kind field, rules.preservationSpecs[position]? = some (kind, field) ∧
      evaluatePreservation ingress egress ((kind, field), position) = c := by
  rw [Rules.preservations, mem_map]
  constructor
  · rintro ⟨⟨⟨kind, field⟩, position⟩, hmem, heq⟩
    exact ⟨position, kind, field, mem_zipIdx_iff_getElem?.mp hmem, heq⟩
  · rintro ⟨position, kind, field, hs, heq⟩
    exact ⟨_, mem_zipIdx_iff_getElem?.mpr hs, heq⟩

/-- The checks on a pair are all satisfied exactly when their outcomes are. -/
theorem satisfiedOn_iff (hlen : egress.expectations.length = rules.expectations.length) :
    rules.SatisfiedOn ingress egress ↔
      (∀ c ∈ rules.preservations ingress egress, c.outcome = .satisfied) ∧
        ∀ c ∈ rules.expectationChecks egress, c.outcome = .satisfied := by
  constructor
  · intro h
    refine ⟨fun c hc => ?_, fun c hc => ?_⟩
    · obtain ⟨position, kind, field, hs, rfl⟩ := mem_preservations.mp hc
      exact preservationOutcome_eq.1.mpr (h.preserved position kind field hs)
    · obtain ⟨position, exp, stored, he, hst, rfl⟩ := mem_expectationChecks.mp hc
      obtain ⟨stored', hst', hm⟩ := h.expected position exp he
      obtain rfl : stored = stored' := Option.some.inj (hst.symm.trans hst')
      exact evaluateExpectation_eq.1.mpr hm
  · rintro ⟨hp, hep⟩
    refine ⟨fun position kind field hs => ?_, fun position exp he => ?_⟩
    · exact preservationOutcome_eq.1.mp
        (hp _ (mem_preservations.mpr ⟨position, kind, field, hs, rfl⟩))
    · have hb : position < egress.expectations.length := hlen ▸ (List.getElem?_eq_some_iff.mp he).1
      refine ⟨_, getElem?_eq_getElem hb, evaluateExpectation_eq.1.mp ?_⟩
      exact hep _ (mem_expectationChecks.mpr ⟨position, exp, _, he, getElem?_eq_getElem hb, rfl⟩)

variable {ingress egress : List (Observation V)}

theorem violatedBy_iff : rules.ViolatedBy ingress egress ↔ (∃ i j, Paired ingress egress i j ∧
      ∃ c ∈ rules.preservations (ingress.get i) (egress.get j), c.outcome = .violated) ∨
    ∃ j : Fin egress.length, ∃ c ∈ rules.expectationChecks (egress.get j),
      c.outcome = .violated := by
  constructor
  · rintro (⟨i, j, hp, position, kind, field, hs, h⟩ | ⟨j, position, exp, stored, he, hst, h⟩)
    · exact .inl ⟨i, j, hp, _, mem_preservations.mpr ⟨position, kind, field, hs, rfl⟩,
        preservationOutcome_eq.2.mpr h⟩
    · exact .inr ⟨j, _, mem_expectationChecks.mpr ⟨position, exp, stored, he, hst, rfl⟩,
        evaluateExpectation_eq.2.mpr h⟩
  · rintro (⟨i, j, hp, c, hc, h⟩ | ⟨j, c, hc, h⟩)
    · obtain ⟨position, kind, field, hs, rfl⟩ := mem_preservations.mp hc
      exact .inl ⟨i, j, hp, position, kind, field, hs, preservationOutcome_eq.2.mp h⟩
    · obtain ⟨position, exp, stored, he, hst, rfl⟩ := mem_expectationChecks.mp hc
      exact .inr ⟨j, position, exp, stored, he, hst, evaluateExpectation_eq.2.mp h⟩

theorem verdict_eq_fail {s : Summary} : verdict sd s = .fail ↔ 0 < withOutcome .violated s := by
  unfold verdict
  dsimp only
  split_ifs with h
  · exact ⟨fun _ => h, fun _ => rfl⟩
  · exact ⟨nofun, fun hp => absurd hp h⟩
  · exact ⟨nofun, fun hp => absurd hp h⟩

theorem verdict_eq_pass {s : Summary} : verdict sd s = .pass ↔
      ¬ 0 < withOutcome .violated s ∧ ¬ 0 < withOutcome .unevaluable s ∧
      loose s = 0 ∧ sd.ingress.unkeyed = 0 ∧ sd.egress.unkeyed = 0 ∧
      sd.ingress.incomplete = 0 ∧ sd.egress.incomplete = 0 ∧ 0 < sd.ingress.keyed := by
  have hv : withOutcome .violated s = s.checksViolated := rfl
  have hu : withOutcome .unevaluable s = s.checksUnevaluable := rfl
  have hl : loose s = s.ingressOnly + s.egressOnly + s.ambiguousGroups := rfl
  unfold verdict
  dsimp only
  split_ifs with h h'
  · exact ⟨nofun, fun hp => absurd h hp.1⟩
  · exact ⟨nofun, fun hp => by omega⟩
  · exact ⟨fun _ => by omega, fun _ => rfl⟩

/-- What a report says about the observations. -/
structure Verified (rules : Rules) (ingress egress : List (Observation V)) (report : Report V) :
    Prop where
  pass_iff : report.verdict = .pass ↔
    (∃ i, (ingress.get i).isKeyed) ∧ Corresponds ingress egress ∧
    (∀ i, (ingress.get i).incomplete = none) ∧ (∀ j, (egress.get j).incomplete = none) ∧
    ∀ i j, Paired ingress egress i j → rules.SatisfiedOn (ingress.get i) (egress.get j)
  fail_iff : report.verdict = .fail ↔ rules.ViolatedBy ingress egress
  pairs_sound : ∀ m ∈ report.pairs.items, ∃ i j, MatchOf rules ingress egress i j m
  pairs_complete : ∀ i j, Paired ingress egress i j →
    0 < report.pairs.omitted ∨ ∃ m ∈ report.pairs.items, MatchOf rules ingress egress i j m

section

variable (hky : ∀ key, key ∈ keys ↔
    positions encoding ingress key ≠ [] ∨ positions encoding egress key ≠ [])
  (hlen : ∀ j, (egress.get j).expectations.length = rules.expectations.length)
include hky hlen

/-- When all observations correspond, the checks on the pairs are all there are. -/
theorem satisfied_iff_outcomes {rp : ℕ} (h : Corresponds ingress egress) :
    (∀ i j, Paired ingress egress i j → rules.SatisfiedOn (ingress.get i) (egress.get j)) ↔
      ¬ 0 < withOutcome .violated (total encoding rules ingress egress rp keys) ∧
      ¬ 0 < withOutcome .unevaluable (total encoding rules ingress egress rp keys) := by
  rw [outcome_pos_total hky, outcome_pos_total hky]
  constructor
  · intro ha
    have hnot : ∀ r, r ≠ .satisfied → ¬ ((∃ i j, Paired ingress egress i j ∧
        ∃ c ∈ rules.preservations (ingress.get i) (egress.get j), c.outcome = r) ∨
        ∃ j : Fin egress.length, ∃ c ∈ rules.expectationChecks (egress.get j), c.outcome = r) := by
      rintro r hr (⟨i, j, hp, c, hc, rfl⟩ | ⟨j, c, hc, rfl⟩)
      · exact hr (((satisfiedOn_iff (hlen j)).mp (ha i j hp)).1 c hc)
      · obtain ⟨i, hp⟩ := h.paired j
        exact hr (((satisfiedOn_iff (hlen j)).mp (ha i j hp)).2 c hc)
    exact ⟨hnot _ nofun, hnot _ nofun⟩
  · rintro ⟨hv, hu⟩ i j hp
    refine (satisfiedOn_iff (hlen j)).mpr ⟨fun c hc => ?_, fun c hc => ?_⟩
    · cases ho : c.outcome with
      | satisfied => rfl
      | violated => exact absurd (.inl ⟨i, j, hp, c, hc, ho⟩) hv
      | unevaluable => exact absurd (.inl ⟨i, j, hp, c, hc, ho⟩) hu
    · cases ho : c.outcome with
      | satisfied => rfl
      | violated => exact absurd (.inr ⟨j, c, hc, ho⟩) hv
      | unevaluable => exact absurd (.inr ⟨j, c, hc, ho⟩) hu

theorem verdict_total (sd : Sided SideSummary) (r : ℕ)
    (hi : Counts ingress sd.ingress) (he : Counts egress sd.egress) :
    (verdict sd (total encoding rules ingress egress r keys) = .pass ↔
      (∃ i, (ingress.get i).isKeyed) ∧ Corresponds ingress egress ∧
      (∀ i, (ingress.get i).incomplete = none) ∧ (∀ j, (egress.get j).incomplete = none) ∧
      ∀ i j, Paired ingress egress i j → rules.SatisfiedOn (ingress.get i) (egress.get j)) ∧
    (verdict sd (total encoding rules ingress egress r keys) = .fail ↔
      rules.ViolatedBy ingress egress) := by
  constructor
  · rw [verdict_eq_pass, hi.unkeyed_eq_zero, he.unkeyed_eq_zero,
      hi.incomplete_eq_zero, he.incomplete_eq_zero, hi.keyed_pos]
    constructor
    · rintro ⟨hv, hu, hl, hk, hk', hw, hw', hs⟩
      have hc := (corresponds_iff hky).mpr ⟨hk, hk', hl⟩
      exact ⟨hs, hc, hw, hw', (satisfied_iff_outcomes hky hlen hc).mpr ⟨hv, hu⟩⟩
    · rintro ⟨hs, hc, hw, hw', hst⟩
      obtain ⟨hv, hu⟩ := (satisfied_iff_outcomes hky hlen hc).mp hst
      obtain ⟨hk, hk', hl⟩ := (corresponds_iff hky).mp hc
      exact ⟨hv, hu, hl, hk, hk', hw, hw', hs⟩
  · rw [verdict_eq_fail, outcome_pos_total hky, violatedBy_iff]

end

variable (answers : ℕ → Except Error Unit)

/-- Why the comparison may fail: it was interrupted, the observations were not collected under the
rules, or the scratch budget does not suffice. -/
def Stops (encoding : CellEncoding V) (rules : Rules)
    (ingress egress : SideInput V) (limits : Limits) (e : Error) : Prop :=
  (∃ n, answers n = .error e) ∨
    (∃ side frame, e = .observationContract side frame) ∧
      ¬ (Collected rules .ingress ingress ∧ Collected rules .egress egress) ∨
    e = .scratchBudget limits.maxScratchBytes ∧
      limits.maxScratchBytes < (ingress.observations.length + egress.observations.length) * 192 +
        scratchDemand encoding ingress.observations + scratchDemand encoding egress.observations

theorem verifyWithLimits_meets (charges : Charges V)
    (rules : Rules) (encoding : CellEncoding V) (ingress egress : SideInput V) (limits : Limits) :
    Meets (Stops answers encoding rules ingress egress limits)
      (verifyWithLimits answers charges rules encoding ingress egress limits)
      (Verified rules ingress.observations egress.observations) := by
  have hpo : ∀ n e, answers n = .error e →
      Stops answers encoding rules ingress egress limits e := fun n e h => .inl ⟨n, h⟩
  refine (Meets.poll hpo).bind fun _ _ => ?_
  refine (validateObservations_meets hpo fun frame hnot =>
    .inr (.inl ⟨⟨_, frame, rfl⟩, fun h => hnot h.1⟩)).bind fun _ hig => ?_
  refine (validateObservations_meets hpo fun frame hnot =>
    .inr (.inl ⟨⟨_, frame, rfl⟩, fun h => hnot h.2⟩)).bind fun _ her => ?_
  refine (Meets.lift (ScratchBudget.reserve_outcome fun h => ?_)).bind ?_
  · dsimp only at h ⊢
    exact .inr (.inr ⟨rfl, by omega⟩)
  rintro sc ⟨hu, hl⟩
  refine (census_meets hpo ingress).bind fun ig hi => ?_
  refine (census_meets hpo egress).bind fun es he => ?_
  refine (gather_meets hpo fun h => ?_).bind ?_
  · dsimp only at hu hl
    exact .inr (.inr ⟨by rw [hl], by omega⟩)
  rintro pools ⟨hpl, hps, hgt⟩
  refine (compareKeys_meets hpo hgt _ rfl).bind fun c₁ hc₁ => ?_
  refine (compareUnkeyed_meets hpo egress.observations c₁).bind fun c₂ hc₂ => ?_
  refine (retainUnkeyed_meets hpo _ _).bind fun _ _ => ?_
  refine (retainUnkeyed_meets hpo _ _).bind fun _ _ => ?_
  refine (Meets.poll hpo).bind fun _ _ => Meets.pure ?_
  have hlen : ∀ j, (egress.observations.get j).expectations.length =
      rules.expectations.length := fun j => her.expectations_length _ (get_mem _ j)
  rw [← hpl] at hi ⊢
  rw [← hps] at he hlen hc₂ ⊢
  have ht : c₂.summary = total encoding rules pools.ingress pools.egress
      (pools.reordered.count true) pools.keys := by
    rw [hc₂.summary, total, ← hc₁.summary, map_nil, sum_nil, add_zero]
  obtain ⟨hp, hf⟩ := verdict_total hgt.mem_keys hlen ⟨ig, es⟩ (pools.reordered.count true) hi he
  rw [← ht] at hp hf
  refine ⟨hp, hf, fun m hm => ?_, fun i j hpr => ?_⟩
  · rw [hc₂.pairs] at hm
    exact hc₁.sound m ((mem_insertionSort _).mp hm)
  · rcases hc₁.complete i j hpr not_mem_nil with ho | ⟨m, hm, hmt⟩
    · exact .inl (hc₂.pairs ▸ ho)
    · refine .inr ⟨m, (mem_insertionSort _).mpr ?_, hmt⟩
      rw [hc₂.pairs]
      exact hm

/-- The verdict is sound and complete, and the pairs that are flagged are those out of order. A
comparison that is not interrupted, of observations collected under the rules, within its scratch
budget, returns a verdict. -/
theorem verifyWithLimits_correct (charges : Charges V)
    (rules : Rules) (encoding : CellEncoding V) (ingress egress : SideInput V) (limits : Limits) :
    (∀ report asked,
      verifyWithLimits answers charges rules encoding ingress egress limits 0 =
        .ok (report, asked) →
      Verified rules ingress.observations egress.observations report) ∧
    ((∀ n, answers n = .ok ()) → Collected rules .ingress ingress →
      Collected rules .egress egress →
      (ingress.observations.length + egress.observations.length) * 192 +
        scratchDemand encoding ingress.observations +
        scratchDemand encoding egress.observations ≤ limits.maxScratchBytes →
      ∃ report asked, verifyWithLimits answers charges rules encoding ingress egress limits 0 =
        .ok (report, asked)) := by
  have hm := verifyWithLimits_meets answers charges rules encoding ingress egress limits 0
  constructor
  · intro report asked h
    rw [h] at hm
    exact hm
  · intro ha hi he hs
    cases h : verifyWithLimits answers charges rules encoding ingress egress limits 0 with
    | ok r => exact ⟨r.1, r.2, rfl⟩
    | error e =>
      rw [h] at hm
      rcases hm with ⟨n, hn⟩ | ⟨-, hnot⟩ | ⟨-, hl⟩
      · rw [ha n] at hn
        cases hn
      · exact absurd ⟨hi, he⟩ hnot
      · exact absurd hl (Nat.not_lt.mpr hs)

end Verdict

/-! ### Two frames that swap places -/

/-- An encoding for boolean cells. -/
def boolEncoding : CellEncoding Bool where
  json := List.map fun cell => cell.elim 0 fun b => if b then 2 else 1
  lossless := by
    rw [map_injective_iff]
    rintro (_ | _ | _) (_ | _ | _) h <;> first | rfl | cases h

def swapRules : Rules := ⟨["ip.id"], ["ip.src"], [], [⟨"ip.ttl", "63", true⟩], 7⟩

/-- An observation with an identity, a preserved cell and the results of its expectations. -/
def sample (side : Side) (frame : ℕ) (id : Bool) (expectations : List (ExpectationOutcome Bool)) :
    Observation Bool where
  frame
  timestamp := 0
  interface := none
  linkType := 1
  incomplete := none
  diagnostics := []
  keyCells := [some id]
  keyStates := [.observed]
  preserved := [some true]
  preservedStates := [.observed]
  expectations
  ruleId := 7
  side

def swapIngress : SideInput Bool := ⟨2, [sample .ingress 1 true [], sample .ingress 2 false []]⟩

def swapEgress : SideInput Bool :=
  ⟨2, [sample .egress 1 false [⟨true, some true, .observed⟩],
    sample .egress 2 true [⟨true, some true, .observed⟩]]⟩

/-- Two frames come out in the other order: the verdict is pass, and the second pair is flagged. -/
theorem verifyWithLimits_correct_swap : ∃ report asked,
    verifyWithLimits (fun _ => .ok ()) ⟨fun _ => 1, fun _ => 1, fun _ => 1, fun _ => 1⟩ swapRules
      boolEncoding swapIngress swapEgress ⟨8, 100, 2000⟩ 0 = .ok (report, asked) ∧
    report.verdict = .pass ∧ report.pairs.items.map Match.reordered = [false, true] ∧
    Verified swapRules swapIngress.observations swapEgress.observations report :=
  ⟨_, _, rfl, rfl, rfl, (verifyWithLimits_correct (fun _ => .ok ())
    ⟨fun _ => 1, fun _ => 1, fun _ => 1, fun _ => 1⟩ swapRules boolEncoding swapIngress swapEgress
    ⟨8, 100, 2000⟩).1 _ _ rfl⟩

end PacketCraftr.Forwarding
