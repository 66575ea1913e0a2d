import PacketCraftr.Tcp.Delivery

/-!
# How TCP flows leave without being closed

A flow keeps its deadline, and an index orders the deadlines of all flows. An expiry reads only the
index, so that it is right only as long as every operation moves both together.
-/

open List SortedMap

namespace PacketCraftr.Tcp

open ExpiryIndex

/-- The deadline of a flow is not after `now`. -/
def TcpFlowState.Due (state : TcpFlowState) (now : ℕ) : Prop := ∃ t ≤ now, state.deadline = some t

namespace Reassembler

variable {K : Type} [LinearOrder K] {r : Reassembler K} {p : ℕ → Prop} {keys : List K}

/-- The index holds exactly the deadlines of the flows that satisfy `p`. -/
def Indexed (p : ℕ → Prop) (r : Reassembler K) : Prop :=
  ∀ t key, r.expiry.Holds t key ↔
    p t ∧ ∃ state, r.flows.find? key = some state ∧ state.deadline = some t

/-- Exactly the flows that satisfy `q` are dropped. They are reported in the order of their keys,
each as when it is dropped alone. -/
structure Drops (r : Reassembler K) (q : K → TcpFlowState → Prop)
    (out : List (Event K) × Reassembler K) : Prop where
  kept : ∀ key state, out.2.flows.find? key = some state ↔
    r.flows.find? key = some state ∧ ¬ q key state
  reported : ∃ keys : List K, keys.Pairwise (· < ·) ∧
    (∀ key state, r.flows.find? key = some state → (key ∈ keys ↔ q key state)) ∧
    out.1 = keys.flatMap fun key => (r.removeFlow key).1

/-! ### Dropping flows -/

theorem find?_removeFlow (r : Reassembler K) (key k : K) :
    (r.removeFlow key).2.flows.find? k = if k = key then none else r.flows.find? k := by
  unfold removeFlow
  cases hf : r.flows.find? key with
  | none =>
    split_ifs with hk
    · rw [hk, hf]
    · rfl
  | some state => exact find?_erase ..

/-- What a dropped flow reports depends on that flow alone. -/
theorem removeFlow_congr {r' : Reassembler K} {key : K}
    (h : r'.flows.find? key = r.flows.find? key) : (r'.removeFlow key).1 = (r.removeFlow key).1 := by
  unfold removeFlow
  rw [h]
  cases r.flows.find? key <;> rfl

theorem foldl_removeFlow {l : List K} (hn : l.Nodup) (acc : List (Event K) × Reassembler K) :
    let out := l.foldl (fun x key => (x.1 ++ (x.2.removeFlow key).1, (x.2.removeFlow key).2)) acc
    out.1 = acc.1 ++ l.flatMap (fun key => (acc.2.removeFlow key).1) ∧
      ∀ k, out.2.flows.find? k = if k ∈ l then none else acc.2.flows.find? k := by
  induction l generalizing acc with
  | nil => simp
  | cons key l ih =>
    obtain ⟨hk, hl⟩ := nodup_cons.mp hn
    obtain ⟨he, hf⟩ := ih hl (acc.1 ++ (acc.2.removeFlow key).1, (acc.2.removeFlow key).2)
    refine ⟨he.trans ?_, fun k => (hf k).trans ?_⟩
    · rw [flatMap_cons, append_assoc]
      congr 2
      -- A flow that is dropped later is still as it was.
      refine flatMap_congr fun k hkl => removeFlow_congr ?_
      rw [find?_removeFlow, if_neg (ne_of_mem_of_not_mem hkl hk)]
    · rw [find?_removeFlow]
      by_cases h : k = key <;> simp [h]

theorem drops_removeFlows {q : K → TcpFlowState → Prop} {r' : Reassembler K}
    (hr : r'.flows = r.flows) (hn : keys.Nodup)
    (hm : ∀ key state, r.flows.find? key = some state → (key ∈ keys ↔ q key state)) :
    r.Drops q (r'.removeFlows keys) := by
  have hs := pairwise_mergeSort' (· ≤ · : K → K → Prop) keys
  have hp := mergeSort_perm keys fun a b => decide (a ≤ b)
  unfold removeFlows
  generalize keys.mergeSort (fun a b => decide (a ≤ b)) = l at hs hp ⊢
  have hn' := hp.nodup_iff.mpr hn
  obtain ⟨he, hf⟩ := foldl_removeFlow hn' ([], r')
  refine ⟨fun key state => ?_, l, (hs.and hn').imp fun h => lt_of_le_of_ne h.1 h.2,
    fun key state h => hp.mem_iff.trans (hm key state h), he.trans (flatMap_congr fun key _ => ?_)⟩
  · rw [hf, hr]
    split_ifs with h
    · exact iff_of_false nofun fun hs => hs.2 ((hm key state hs.1).mp (hp.mem_iff.mp h))
    · exact (and_iff_left_of_imp fun hs hq => h (hp.mem_iff.mpr ((hm key state hs).mpr hq))).symm
  · exact removeFlow_congr (congrArg (find? · key) hr)

theorem drops_flush (r : Reassembler K) : r.Drops (fun _ _ => True) r.flush :=
  drops_removeFlows rfl r.flows.nodup_keys fun _ state h => iff_true_intro (mem_keys.mpr ⟨state, h⟩)

theorem drops_evictFlow (r : Reassembler K) (flow : K) :
    r.Drops (fun key _ => key = flow) (r.evictFlow flow) :=
  drops_removeFlows rfl (nodup_singleton flow) fun _ _ _ => mem_singleton

theorem Indexed.drops_expire (h : r.Indexed fun _ => True) (now : ℕ) :
    r.Drops (fun _ state => state.Due now) (r.expire now) := by
  have hd {key state t} (hs : r.flows.find? key = some state) :
      r.expiry.Holds t key ↔ state.deadline = some t := by simp [h t key, hs]
  refine drops_removeFlows rfl (nodup_takeExpired now fun key t u ht hu => ?_) fun key state hs => ?_
  · obtain ⟨-, state, hs, -⟩ := (h t key).mp ht
    exact Option.some.inj (((hd hs).mp ht).symm.trans ((hd hs).mp hu))
  · refine mem_takeExpired.trans (exists_congr fun t => ?_)
    rw [hd hs, and_comm]

/-! ### Every operation keeps the index -/

theorem Indexed.removeFlow (h : r.Indexed p) (key : K) : (r.removeFlow key).2.Indexed p := by
  unfold Reassembler.removeFlow
  cases hf : r.flows.find? key with
  | none => exact h
  | some state =>
    intro t k
    rw [holds_remove, h t k, find?_erase]
    split_ifs with hk
    · simp [hk, hf]
    · simp [Ne.symm hk]

theorem Indexed.removeFlows (h : r.Indexed p) (keys : List K) : (r.removeFlows keys).2.Indexed p :=
  removeFlows_induction (fun _ key h => h.removeFlow key) keys h

theorem Indexed.expire (h : r.Indexed fun _ => True) (now : ℕ) :
    (r.expire now).2.Indexed fun _ => True := by
  have hi : Indexed (now < ·) { r with expiry := (r.expiry.takeExpired now).2 } := by
    intro t key
    rw [holds_takeExpired, h, true_and, and_comm]
  intro t key
  refine (hi.removeFlows _ t key).trans (and_congr_left fun ⟨state, hs, hd⟩ => ?_)
  -- A flow that is left has a deadline after `now`.
  exact iff_true_intro (not_le.mp fun hle => (((h.drops_expire now).kept key state).mp hs).2
    ⟨t, hle, hd⟩)

theorem Indexed.store (h : r.Indexed fun _ => True) (segment : Segment K) (now : ℕ)
    (plan : PushPlan) (state : TcpFlowState) (events : List (Event K)) :
    (r.store segment now plan state events).2.Indexed fun _ => True := by
  have hd (u : ℕ) : r.expiry.Holds u segment.flow ↔
      (r.flows.find? segment.flow).bind TcpFlowState.deadline = some u := by
    rw [h, Option.bind_eq_some_iff, true_and]
  intro t k
  rw [find?_store]
  unfold Reassembler.store
  cases plan.closed with
  | true =>
    rw [if_pos rfl, if_pos rfl, holds_remove, ← hd t, h t k]
    split_ifs with hk
    · rw [hk, h]
      simp
    · simp [Ne.symm hk]
  | false =>
    rw [if_neg Bool.false_ne_true, if_neg Bool.false_ne_true, holds_move hd, h t k]
    split_ifs with hk
    · simp
    · rfl

/-- A push leaves the reassembler as it is, or stores a state that is brought up to date. -/
theorem push_stores (h : r.Inv) (a : Allocator) (segment : Segment K) (now : ℕ) :
    (r.push a segment now).2 = r ∨ ∃ plan state events,
      state.lastUpdate = r.lastUpdate segment now ∧
        (r.push a segment now).2 = (r.store segment now plan state events).2 := by
  have ho := push_outcome a h segment now
  generalize r.push a segment now = out at ho ⊢
  cases ho with
  | ignored => exact .inl rfl
  | failed => exact .inl rfl
  | @carried _ _ _ plan _ state events _ hc =>
    refine .inr ⟨plan, state, events, hc.committed.lastUpdate_eq.trans ?_, rfl⟩
    have hs := hc.state_eq
    unfold commitState at hs
    unfold lastUpdate at hs ⊢
    cases hf : r.flows.find? segment.flow <;> rw [hf] at hs <;> split_ifs at hs <;> cases hs
    · exact max_self now
    · exact max_eq_left (le_max_right _ _)
    · rfl

/-- What holds of a reassembler and its deadlines between two operations: every flow is due when it
has been idle for as long as the limits allow. -/
structure Clocked (r : Reassembler K) : Prop where
  inv : r.Inv
  indexed : r.Indexed fun _ => True
  timed : ∀ key state, r.flows.find? key = some state →
    state.deadline = checkedAddInstant state.lastUpdate r.limits.idleExpiry

theorem Drops.timed {q : K → TcpFlowState → Prop} {out} (h : r.Drops q out)
    {P : TcpFlowState → Prop} (hp : ∀ key state, r.flows.find? key = some state → P state) :
    ∀ key state, out.2.flows.find? key = some state → P state :=
  fun key state hs => hp key state ((h.kept key state).mp hs).1

theorem Clocked.step (h : r.Clocked) (op : Op K) : (r.step op).Clocked := by
  suffices hi : (r.step op).Indexed (fun _ => True) ∧ ∀ key state,
      (r.step op).flows.find? key = some state →
        state.deadline = checkedAddInstant state.lastUpdate r.limits.idleExpiry from
    ⟨h.inv.step op, hi.1, limits_step h.inv op ▸ hi.2⟩
  cases op with
  | push a segment now =>
    rw [Reassembler.step]
    obtain he | ⟨plan, state', events, hu, he⟩ := push_stores h.inv a segment now <;> rw [he]
    · exact ⟨h.indexed, h.timed⟩
    · refine ⟨h.indexed.store segment now plan state' events, fun key state hs => ?_⟩
      rw [find?_store] at hs
      split_ifs at hs
      · cases hs
        exact congrArg (checkedAddInstant · _) hu.symm
      · exact h.timed key state hs
  | expire now => exact ⟨h.indexed.expire now, (h.indexed.drops_expire now).timed h.timed⟩
  | flush => exact ⟨h.indexed.removeFlows _, r.drops_flush.timed h.timed⟩
  | evictFlow flow => exact ⟨h.indexed.removeFlows _, (r.drops_evictFlow flow).timed h.timed⟩

theorem clocked_run {c : ℕ} {limits : Limits} (h : Reassembler.new c limits = .ok r)
    (ops : List (Op K)) : (r.run ops).Clocked := by
  refine run_induction (fun _ op h => h.step op) ops ⟨(inv_new h).1, ?_, ?_⟩
  · obtain ⟨-, rfl⟩ := new_eq h
    intro t key
    exact iff_of_false (not_holds_empty t key) nofun
  · obtain ⟨-, rfl⟩ := new_eq h
    exact nofun

/-! ### Removals -/

def unused : Reassembler ℕ := ⟨.default, .empty, .empty, 0, 0⟩

theorem new_unused : Reassembler.new 0 .default = .ok unused := rfl

/-- A byte of one flow, and a second later one of another flow. -/
def twoFlows : List (Op ℕ) :=
  [.push ⟨fun _ => true, true, true⟩ ⟨0, 7, [1], false, false, false⟩ 0,
    .push ⟨fun _ => true, true, true⟩ ⟨1, 7, [1], false, false, false⟩ 1000000000]

/-- In every run a flow is due when it has been idle for as long as the limits allow. An expiry drops
exactly the flows that are due, a flush all, and an eviction the one it is asked for. -/
theorem removals_of_run {c : ℕ} {limits : Limits} (h : Reassembler.new c limits = .ok r)
    (ops : List (Op K)) :
    (∀ key state, (r.run ops).flows.find? key = some state →
      state.deadline = checkedAddInstant state.lastUpdate limits.idleExpiry) ∧
    (∀ now, (r.run ops).Drops (fun _ state => state.Due now) ((r.run ops).expire now)) ∧
    (r.run ops).Drops (fun _ _ => True) (r.run ops).flush ∧
    ∀ flow, (r.run ops).Drops (fun key _ => key = flow) ((r.run ops).evictFlow flow) := by
  have hc := clocked_run h ops
  exact ⟨(inv_run h ops).2 ▸ hc.timed, hc.indexed.drops_expire, drops_flush _, drops_evictFlow _⟩

/-- After two minutes the first flow expires. -/
theorem removals_of_run_idle :
    ((unused.run twoFlows).expire 120000000000).1 = [.evicted 0 0] ∧
      (unused.run twoFlows).Drops (fun _ state => state.Due 120000000000)
        ((unused.run twoFlows).expire 120000000000) :=
  ⟨by decide +kernel, (removals_of_run new_unused twoFlows).2.1 _⟩

/-! ### Isolation of flows -/

/-- Nothing is asked of the flow: an operation is about another flow, or an expiry is early. -/
def Spared (key : K) (state : TcpFlowState) : Op K → Prop
  | .push _ segment _ => key ≠ segment.flow
  | .expire now => ¬ state.Due now
  | .flush => False
  | .evictFlow flow => key ≠ flow

theorem Clocked.find?_step (h : r.Clocked) {key : K} {state : TcpFlowState} {op : Op K}
    (hs : r.flows.find? key = some state) (ho : Spared key state op) :
    (r.step op).flows.find? key = some state := by
  cases op with
  | push a segment now =>
    rw [Reassembler.step]
    obtain he | ⟨_, _, _, -, he⟩ := push_stores h.inv a segment now <;> rw [he]
    · exact hs
    · exact (find?_store ..).trans ((if_neg ho).trans hs)
  | expire now => exact ((h.indexed.drops_expire now).kept key state).mpr ⟨hs, ho⟩
  | flush => exact ho.elim
  | evictFlow flow => exact ((r.drops_evictFlow flow).kept key state).mpr ⟨hs, ho⟩

/-- Whatever the segments of other flows do, be they stored, refused or the end of their flow, and
whichever of these flows expire or are evicted, a flow stays as it is. -/
theorem flow_isolated {c : ℕ} {limits : Limits} (h : Reassembler.new c limits = .ok r)
    (ops later : List (Op K)) {key : K} {state : TcpFlowState}
    (hs : (r.run ops).flows.find? key = some state) (hl : ∀ op ∈ later, Spared key state op) :
    (r.run (ops ++ later)).flows.find? key = some state := by
  have hc := clocked_run h ops
  rw [run_append]
  generalize r.run ops = r' at hs hc
  induction later generalizing r' with
  | nil => exact hs
  | cons op later ih =>
    obtain ⟨ho, hl⟩ := forall_mem_cons.mp hl
    exact ih hl (r'.step op) (hc.find?_step hs ho) (hc.step op)

theorem flow_isolated_evicted :
    ((unused.run (twoFlows ++ [.evictFlow 0])).flows.find? 1).isSome := by
  have h : ((unused.run twoFlows).flows.find? 1).isSome := by decide +kernel
  obtain ⟨state, hs⟩ := Option.isSome_iff_exists.mp h
  rw [flow_isolated new_unused twoFlows [.evictFlow 0] hs
    (forall_mem_singleton.mpr Nat.one_ne_zero)]
  rfl

end Reassembler

end PacketCraftr.Tcp
