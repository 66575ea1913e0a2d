import PacketCraftr.Forwarding.Verdict

/-!
# What the passes over the observations establish

Every pass of the forwarding comparison is followed by what it establishes about the observations:
the census counts them, the index holds the positions of every key, the ranks count the keyed
observations in front, and the order flags are those of the matched pairs.
-/

open List SortedMap

namespace PacketCraftr.Forwarding

variable {V : Type} {an : ℕ → Except Error Unit} {E : Error → Prop}

/-! ### Observations collected under the rules -/

/-- The observations of a side were collected in order, under these rules. -/
structure Collected (rules : Rules) (side : Side) (input : SideInput V) : Prop where
  accepted : ∀ o ∈ input.observations, rules.accepts side input.framesRead 0 o
  increasing : input.observations.Pairwise fun a b => a.frame < b.frame

section Passes

variable (hpl : ∀ n e, an n = .error e → E e)

theorem Rules.accepts_iff {r : Rules} {side : Side} {read p : ℕ} {o : Observation V} :
    r.accepts side read p o ↔ r.accepts side read 0 o ∧ p < o.frame := by
  simp only [Rules.accepts, Bool.and_eq_true, decide_eq_true_eq]
  constructor
  · rintro ⟨⟨⟨⟨⟨⟨⟨⟨h1, h2⟩, h3⟩, h4⟩, h5⟩, h6⟩, h7⟩, h8⟩, h9⟩
    exact ⟨⟨⟨⟨⟨⟨⟨⟨⟨h1, h2⟩, by omega⟩, h4⟩, h5⟩, h6⟩, h7⟩, h8⟩, h9⟩, h3⟩
  · rintro ⟨⟨⟨⟨⟨⟨⟨⟨⟨h1, h2⟩, -⟩, h4⟩, h5⟩, h6⟩, h7⟩, h8⟩, h9⟩, h3⟩
    exact ⟨⟨⟨⟨⟨⟨⟨⟨h1, h2⟩, h3⟩, h4⟩, h5⟩, h6⟩, h7⟩, h8⟩, h9⟩

theorem Collected.expectations_length {r : Rules} {side : Side} {i : SideInput V}
    (h : Collected r side i) (o : Observation V) (ho : o ∈ i.observations) :
    o.expectations.length = r.expectationCount side := by
  have ha := h.accepted o ho
  simp only [Rules.accepts, Bool.and_eq_true, beq_iff_eq] at ha
  exact ha.2

include hpl in
theorem validateObservations_meets {r : Rules} {side : Side} {input : SideInput V}
    (hcn : ∀ f, ¬ Collected r side input → E (.observationContract side f)) :
    Polled.Meets E (validateObservations an r side input) fun _ => Collected r side input := by
  -- What is still to come is collected behind the previous frame exactly if all of it is.
  let behind (p : ℕ) (l : List (Observation V)) : Prop :=
    (∀ o ∈ l, r.accepts side input.framesRead p o) ∧ l.Pairwise fun a b => a.frame < b.frame
  have hcs : ∀ p o l, behind p (o :: l) ↔
      r.accepts side input.framesRead p o ∧ behind o.frame l := by
    intro p o l
    simp only [behind, forall_mem_cons, pairwise_cons]
    constructor
    · rintro ⟨⟨ho, hl⟩, hlt, hp⟩
      refine ⟨ho, fun x hx => ?_, hp⟩
      exact Rules.accepts_iff.mpr ⟨(Rules.accepts_iff.mp (hl x hx)).1, hlt x hx⟩
    · rintro ⟨ho, hl, hp⟩
      refine ⟨⟨ho, fun x hx => ?_⟩, fun x hx => (Rules.accepts_iff.mp (hl x hx)).2, hp⟩
      obtain ⟨hx0, hx⟩ := Rules.accepts_iff.mp (hl x hx)
      exact Rules.accepts_iff.mpr ⟨hx0, (Rules.accepts_iff.mp ho).2.trans hx⟩
  have hs : behind 0 input.observations ↔ Collected r side input :=
    ⟨fun h => ⟨h.1, h.2⟩, fun h => ⟨h.1, h.2⟩⟩
  refine Polled.Meets.bind (P := fun _ => Collected r side input) ?_ fun _ h =>
    Polled.Meets.pure h
  refine (Polled.Meets.foldlM (fun p l => behind p l ↔ Collected r side input)
    ?_ hs).weaken fun p h => h.mp ⟨by simp, List.Pairwise.nil⟩
  intro p o l h
  refine (Polled.Meets.poll hpl).bind fun _ _ => ?_
  refine (Polled.Meets.lift (P := fun _ => r.accepts side input.framesRead p o)
    ?_).bind fun _ ha => Polled.Meets.pure ?_
  · by_cases ha : r.accepts side input.framesRead p o
    · rw [Except.rejectIf, if_neg (by simpa using ha)]
      exact ha
    · rw [Except.rejectIf, if_pos (by simpa using ha)]
      refine hcn _ fun hc => ha ?_
      exact ((hcs p o l).mp (h.mpr hc)).1
  · rw [← h, hcs]
    exact (and_iff_right ha).symm

/-! ### The census -/

/-- What the census of one side counts. -/
structure Counts (pool : List (Observation V)) (s : SideSummary) : Prop where
  keyed : s.keyed = pool.countP (·.isKeyed)
  unkeyed : s.unkeyed = pool.countP (!·.isKeyed)
  incomplete : s.incomplete = pool.countP (·.incomplete.isSome)

include hpl in
theorem census_meets (i : SideInput V) : Polled.Meets E (census an i) (Counts i.observations) := by
  have hb : ∀ b : Bool, b.toNat = if b = true then 1 else 0 := by decide
  refine (Polled.Meets.foldlM (fun s l =>
    s.keyed + l.countP (·.isKeyed) = i.observations.countP (·.isKeyed) ∧
    s.unkeyed + l.countP (!·.isKeyed) = i.observations.countP (!·.isKeyed) ∧
    s.incomplete + l.countP (·.incomplete.isSome) =
      i.observations.countP (·.incomplete.isSome)) ?_ ?_).weaken ?_
  · rintro s o l ⟨hk, hu, hi⟩
    refine (Polled.Meets.poll hpl).bind fun _ _ => Polled.Meets.pure ?_
    simp only [countP_cons] at hk hu hi
    simp only [SideSummary.count, hb]
    omega
  · simp
  · rintro s ⟨hk, hu, hi⟩
    exact ⟨hk, hu, hi⟩

/-! ### The index -/

variable {en : CellEncoding V} {pool : List (Observation V)}

/-- What indexing a keyed observation reserves. -/
def scratchOf (encoding : CellEncoding V) (o : Observation V) : ℕ :=
  if o.isKeyed then 128 + (encoding.json o.keyCells).length else 0

/-- What indexing a pool reserves. -/
def scratchDemand (encoding : CellEncoding V) (pool : List (Observation V)) : ℕ :=
  (pool.map (scratchOf encoding)).sum

theorem ScratchBudget.reserve_outcome {bd : ScratchBudget} {bytes : ℕ}
    (h : bd.limit < bd.used + bytes → E (.scratchBudget bd.limit)) :
    Outcome E (bd.reserve bytes) fun b =>
      b.used = bd.used + bytes ∧ b.limit = bd.limit := by
  unfold ScratchBudget.reserve Except.rejectIf
  split_ifs with hl
  · exact h hl
  · exact ⟨rfl, rfl⟩

theorem Index.members_push (index : Index pool) (key key' : List (Fin 256))
    (position : Fin pool.length) :
    (index.push key position).members key' =
      if key' = key then index.members key' ++ [position] else index.members key' := by
  unfold Index.push Index.members
  rw [find?_insert]
  split_ifs with h
  · rw [h]
    rfl
  · rfl

theorem indexOne_outcome {state : Index pool × ScratchBudget} {position : Fin pool.length}
    (h : state.2.limit < state.2.used + scratchOf en (pool.get position) →
      E (.scratchBudget state.2.limit)) :
    Outcome E (indexOne en pool state position) fun s =>
      (s.1 = if (pool.get position).isKeyed then
        state.1.push (en.json (pool.get position).keyCells) position else state.1) ∧
      s.2.used = state.2.used + scratchOf en (pool.get position) ∧
      s.2.limit = state.2.limit := by
  unfold indexOne
  unfold scratchOf at h ⊢
  by_cases hk : (pool.get position).isKeyed
  · simp only [hk, if_true] at h ⊢
    refine (ScratchBudget.reserve_outcome fun hl => h (by omega)).bind ?_
    rintro b ⟨hu, hl⟩
    refine (ScratchBudget.reserve_outcome fun hb => ?_).bind ?_
    · rw [hl]
      exact h (by omega)
    · rintro b' ⟨hu', hl'⟩
      refine ⟨rfl, ?_, hl'.trans hl⟩
      rw [hu', hu, Nat.add_assoc]
  · simp only [hk] at h ⊢
    exact ⟨rfl, rfl, rfl⟩

/-- An index holds the positions of every key, and no key without a position. -/
structure Indexes (encoding : CellEncoding V) {pool : List (Observation V)} (index : Index pool) :
    Prop where
  members : ∀ key, index.members key = positions encoding pool key
  nonempty : ∀ key ms, index.find? key = some ms → ms ≠ []

theorem Indexes.mem_keys {index : Index pool} (h : Indexes en index)
    {key : List (Fin 256)} : key ∈ index.keys ↔ positions en pool key ≠ [] := by
  rw [SortedMap.mem_keys, ← h.members, Index.members]
  cases hf : index.find? key with
  | none => simp
  | some ms => simpa using h.nonempty key ms hf

theorem Indexes.eq_of_mem {index : Index pool} (h : Indexes en index)
    {entry : List (Fin 256) × List (Fin pool.length)} (hmem : entry ∈ index.entries) :
    entry.2 = positions en pool entry.1 := by
  rw [← h.members, Index.members, find?_eq_some.mpr hmem, Option.getD_some]

include hpl in
theorem index_meets {b : ScratchBudget} (hs : b.limit < b.used + scratchDemand en pool →
      E (.scratchBudget b.limit)) :
    Polled.Meets E (index an en pool b) fun s =>
      Indexes en s.1 ∧ s.2.used = b.used + scratchDemand en pool ∧
      s.2.limit = b.limit := by
  let demand (l : List (Fin pool.length)) : ℕ := (l.map fun i => scratchOf en (pool.get i)).sum
  have hd : demand (List.finRange pool.length) = scratchDemand en pool := by
    simp only [demand, scratchDemand]
    rw [← Function.comp_def, ← map_map, map_get_finRange]
  refine (Polled.Meets.foldlM (fun s l =>
    (∀ key, s.1.members key ++ l.filter (fun i => (pool.get i).carries en key) = positions en pool key) ∧
    (∀ key ms, s.1.find? key = some ms → ms ≠ []) ∧
    s.2.used + demand l = b.used + scratchDemand en pool ∧
    s.2.limit = b.limit) ?_ ?_).weaken ?_
  · rintro s i l ⟨hm, hn, hu, hl⟩
    refine (Polled.Meets.poll hpl).bind fun _ _ => Polled.Meets.lift ?_
    have hcn : demand (i :: l) = scratchOf en (pool.get i) + demand l := rfl
    refine (indexOne_outcome fun h => ?_).weaken (fun _ he => he) ?_
    · rw [hl] at h ⊢
      exact hs (by omega)
    rintro s' ⟨hi, hu', hl'⟩
    refine ⟨?_, ?_, by omega, hl'.trans hl⟩
    · intro key
      rw [← hm key, hi]
      by_cases hc : (pool.get i).carries en key
      · obtain ⟨hk, hkey⟩ := Observation.carries_iff.mp hc
        rw [if_pos hk, Index.members_push, if_pos hkey.symm, filter_cons,
          if_pos hc, append_assoc, singleton_append]
      · rw [filter_cons, if_neg hc]
        congr 1
        split_ifs with hk
        · rw [Index.members_push, if_neg]
          rintro rfl
          exact hc (Observation.carries_iff.mpr ⟨hk, rfl⟩)
        · rfl
    · intro key ms hf
      rw [hi] at hf
      split_ifs at hf
      · rw [Index.push, find?_insert] at hf
        split_ifs at hf
        · cases hf
          exact append_ne_nil_of_right_ne_nil _ (cons_ne_nil _ _)
        · exact hn key ms hf
      · exact hn key ms hf
  · refine ⟨fun key => ?_, fun key ms h => ?_, ?_, rfl⟩
    · rw [Index.members, find?_empty, Option.getD_none, nil_append]
      rfl
    · rw [find?_empty] at h
      cases h
    · rw [hd]
  · rintro s ⟨hm, hn, hu, hl⟩
    refine ⟨⟨fun key => ?_, hn⟩, by simpa [demand] using hu, hl⟩
    rw [← hm key, filter_nil, append_nil]

/-! ### Ranks and orders -/

/-- The list holds the rank of every keyed observation. -/
def Ranks (pool : List (Observation V)) (ranks : List ℕ) : Prop :=
  ∀ i o, pool[i]? = some o → o.isKeyed → ranks.getD i 0 = rank pool i

include hpl in
theorem ranks_meets (pool : List (Observation V)) :
    Polled.Meets E (ranks an pool) (Ranks pool) := by
  -- Behind the part `front` of the pool, the ranks of that part are known.
  let known (s : List ℕ × ℕ) (l : List (Observation V)) : Prop :=
    ∃ front, pool = front ++ l ∧ s.2 = front.countP (·.isKeyed) ∧ s.1.length = front.length ∧
      ∀ i o, i < front.length → pool[i]? = some o → o.isKeyed → s.1.getD i 0 = rank pool i
  refine Polled.Meets.bind (P := fun s => known s []) (Polled.Meets.foldlM known ?_ ?_) ?_
  · rintro s o l ⟨front, hp, hn, hl, hr⟩
    refine (Polled.Meets.poll hpl).bind fun _ _ => Polled.Meets.pure
      ⟨front ++ [o], by simpa using hp, ?_, ?_, ?_⟩
    · unfold rankOne
      split_ifs with h <;> simp [h, hn]
    · unfold rankOne
      split_ifs <;> simp [hl]
    · intro i x hi hx hk
      rw [length_append, length_singleton, Nat.lt_succ_iff_lt_or_eq] at hi
      rcases hi with hlt | rfl
      · rw [← hr i x hlt hx hk, rankOne]
        split_ifs <;> simp [getElem?_append_left (hl ▸ hlt)]
      · obtain rfl : o = x := by simpa [hp] using hx
        rw [rankOne, if_pos hk, rank, hp, take_left, ← hn, ← hl]
        simp
  · exact ⟨[], rfl, rfl, rfl, fun i o hi => absurd hi (Nat.not_lt_zero _)⟩
  · rintro s ⟨front, hp, -, -, hr⟩
    refine Polled.Meets.pure fun i o ho hk => hr i o ?_ ho hk
    rw [append_nil] at hp
    exact hp ▸ (List.getElem?_eq_some_iff.mp ho).1

theorem Ranks.get {pool : List (Observation V)} {ranks : List ℕ} (h : Ranks pool ranks)
    {i : Fin pool.length} (hk : (pool.get i).isKeyed) : ranks.getD i 0 = rank pool i :=
  h i (pool.get i) (getElem?_eq_getElem i.isLt) hk

section Orders

variable {ig eg : List (Observation V)} {ii : Index ig}
  {ei : Index eg} {er : List ℕ}

/-- The list holds the egress rank of every matched pair, at its ingress position. -/
def Orders (ingress egress : List (Observation V)) (orders : List (Option ℕ)) : Prop :=
  ∀ (i : Fin ingress.length) (r : ℕ), orders.getD i none = some r ↔
    ∃ j, Paired ingress egress i j ∧ r = rank egress j

variable (hin : Indexes en ii) (heg : Indexes en ei)
  {o : List (Option ℕ)} {et : List (Fin 256) × List (Fin ig.length)}
  (hen : et ∈ ii.entries)

include hin heg hen in
theorem pairOrder_of_paired (hr : Ranks eg er)
    (hl : o.length = ig.length) {i : Fin ig.length} {j : Fin eg.length}
    (hp : Paired ig eg i j)
    (hk : et.1 = en.json (ig.get i).keyCells) :
    (pairOrder ei er o et).getD i none = some (rank eg j) := by
  obtain ⟨hi, hj⟩ := (paired_iff en).mp hp
  obtain ⟨c, -, hc⟩ := hp
  rw [pairOrder, hin.eq_of_mem hen, heg.members, hk, hi, hj]
  have hb : (i : ℕ) < o.length := lt_of_lt_of_eq i.isLt hl.symm
  rw [← hr.get hc.self.1, getD_eq_getElem?_getD, getElem?_set_self hb, Option.getD_some]

include hin heg hen in
theorem pairOrder_of_not_paired {i : Fin ig.length}
    (hne : ∀ j, Paired ig eg i j → et.1 ≠ en.json (ig.get i).keyCells) :
    (pairOrder ei er o et).getD i none = o.getD i none := by
  unfold pairOrder
  split
  · rename_i m egressMember hm he
    rw [hin.eq_of_mem hen] at hm
    rw [heg.members] at he
    have hd : (m : ℕ) ≠ i := by
      intro heq
      obtain rfl : m = i := Fin.ext heq
      have hmem : m ∈ positions en ig et.1 := hm ▸ mem_singleton_self m
      exact hne egressMember (paired_of_positions hm he) (mem_positions.mp hmem).2.symm
    rw [getD_eq_getElem?_getD, getElem?_set_ne hd, getD_eq_getElem?_getD]
  · rfl

theorem pairOrder_length : (pairOrder ei er o et).length = o.length := by
  unfold pairOrder
  split
  · exact length_set
  · rfl

theorem Carries.unique {pool : List (Observation V)} {c : List (Option V)}
    {i j : Fin pool.length} (hi : Carries pool c i) (hj : Carries pool c j) : i = j :=
  (hj i).mp hi.self

theorem Paired.right_unique {i : Fin ig.length} {j j' : Fin eg.length}
    (h : Paired ig eg i j) (h' : Paired ig eg i j') : j = j' := by
  obtain ⟨cells, hi, hj⟩ := h
  obtain ⟨cells', hi', hj'⟩ := h'
  obtain rfl : cells = cells' := hi.self.2.symm.trans hi'.self.2
  exact hj.unique hj'

include hpl hin heg in
theorem pairOrders_meets (hr : Ranks eg er) : Polled.Meets E (pairOrders an ii ei er)
      (Orders ig eg) := by
  -- The orders of the pairs whose key is not still to come are noted.
  refine (Polled.Meets.foldlM (fun o l =>
    o.length = ig.length ∧ (∀ e ∈ l, e ∈ ii.entries) ∧
    (l.Pairwise fun a b => a.1 < b.1) ∧
    ∀ (i : Fin ig.length) (r : ℕ), o.getD i none = some r ↔ ∃ j, Paired ig eg i j ∧ r = rank eg j ∧
        en.json (ig.get i).keyCells ∉ l.map Prod.fst) ?_ ?_).weaken ?_
  · rintro o et l ⟨hl, hmem, hs, ho⟩
    refine (Polled.Meets.poll hpl).bind fun _ _ => Polled.Meets.pure
      ⟨pairOrder_length.trans hl, fun e he => hmem e (mem_cons_of_mem _ he), hs.of_cons, ?_⟩
    have hen := hmem et mem_cons_self
    have hf : et.1 ∉ l.map Prod.fst := by
      intro h
      obtain ⟨e, he, heq⟩ := mem_map.mp h
      exact (ne_of_lt ((pairwise_cons.mp hs).1 e he)) heq.symm
    intro i r
    by_cases hp : ∃ j, Paired ig eg i j ∧ et.1 = en.json (ig.get i).keyCells
    · obtain ⟨j, hp, hk⟩ := hp
      rw [pairOrder_of_paired hin heg hen hr hl hp hk, Option.some.injEq]
      constructor
      · rintro rfl
        exact ⟨j, hp, rfl, hk ▸ hf⟩
      · rintro ⟨j', hp', rfl, -⟩
        rw [hp.right_unique hp']
    · push Not at hp
      rw [pairOrder_of_not_paired hin heg hen hp, ho]
      refine exists_congr fun j => and_congr_right fun hj => and_congr_right fun _ => ?_
      rw [map_cons, mem_cons, not_or]
      exact and_iff_right (hp j hj).symm
  · refine ⟨length_replicate, fun e he => he, ii.sorted, fun i r => ?_⟩
    constructor
    · intro h
      simp at h
    · rintro ⟨j, hp, -, hnot⟩
      refine absurd (hin.mem_keys.mpr ?_) hnot
      rw [((paired_iff en).mp hp).1]
      exact cons_ne_nil _ _
  · rintro o ⟨-, -, -, ho⟩
    refine fun i r => (ho i r).trans ?_
    simp

end Orders

/-- A flag is set when an order in front, or the given bound, is larger. -/
theorem reorderedFlags_getD (b : ℕ) (orders : List (Option ℕ)) (i : ℕ) :
    (reorderedFlags b orders).getD i false = true ↔ ∃ r, orders.getD i none = some r ∧
        (r < b ∨ ∃ i' < i, ∃ r', orders.getD i' none = some r' ∧ r < r') := by
  induction orders generalizing b i with
  | nil => simp [reorderedFlags]
  | cons o orders ih =>
    cases i with
    | zero => cases o <;> simp [reorderedFlags]
    | succ i =>
      cases o with
      | none =>
        rw [reorderedFlags, getD_cons_succ, ih]
        refine exists_congr fun r => and_congr_right fun _ => or_congr_right ?_
        constructor
        · rintro ⟨i', hi', h⟩
          exact ⟨i' + 1, by omega, h⟩
        · rintro ⟨i', hi', r', h, hr'⟩
          cases i' with
          | zero => simp at h
          | succ i' => exact ⟨i', by omega, r', h, hr'⟩
      | some first =>
        rw [reorderedFlags, getD_cons_succ, ih]
        refine exists_congr fun r => and_congr_right fun _ => ?_
        constructor
        · rintro (h | ⟨i', hi', h⟩)
          · rcases lt_max_iff.mp h with h | h
            · exact .inl h
            · exact .inr ⟨0, by omega, first, rfl, h⟩
          · exact .inr ⟨i' + 1, by omega, h⟩
        · rintro (h | ⟨i', hi', r', h, hr'⟩)
          · exact .inl (lt_max_of_lt_left h)
          · cases i' with
            | zero =>
              obtain rfl : first = r' := by simpa using h
              exact .inl (lt_max_of_lt_right hr')
            | succ i' => exact .inr ⟨i', by omega, r', h, hr'⟩

end Passes

end PacketCraftr.Forwarding
