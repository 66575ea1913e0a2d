import PacketCraftr.Ip.Accounting
import PacketCraftr.Foundation.Lifecycle

/-!
# The fate of IP datagrams

A datagram key is opened by a fragment that is accepted without completing its datagram, and closed
when the datagram completes, expires or is flushed. What an expiry or a flush takes out of the table
is reported, or counted as omitted, exactly once.
-/

open List Option SortedMap

namespace PacketCraftr.Ip

open Lifecycle ExpiryIndex

/-- How a generation of a datagram key ends. -/
inductive Fate
  | completed
  | expired
  | flushed
  | omitted
  deriving DecidableEq, Repr

/-- The keys of the outcomes that an expiry or a flush reports. -/
def RetiredDatagrams.reported (d : RetiredDatagrams) : List DatagramKey :=
  d.outcomes.map IncompleteDatagram.key

namespace Reassembler

def live (r : Reassembler) : Set DatagramKey := {key | (r.datagrams.find? key).isSome}

/-- The keys that are in one table and not in another. -/
def gone (r r' : Reassembler) : List DatagramKey :=
  r.datagrams.keys.filter fun key => (r'.datagrams.find? key).isNone

/-- The keys that an operation took out of the table, with their fate as it is reported. -/
def closings (r r' : Reassembler) (retired : RetiredDatagrams) (fate : Fate) :
    List (Event DatagramKey Fate) :=
  (r.gone r').map fun key => .closed key (if key ∈ retired.reported then fate else .omitted)

/-- What an operation does to the generations of the keys, as its result tells. -/
def events (r : Reassembler) : Op → List (Event DatagramKey Fate)
  | .push alloc fragment now externalCharge =>
    match (r.push alloc fragment now externalCharge).1 with
    | .ok (.accepted outcome) =>
      if (r.datagrams.find? outcome.key).isNone then [.opened outcome.key] else []
    | .ok (.completed outcome _) => [.closed outcome.key .completed]
    | .error _ => []
  | .expire now =>
    match r.expire now with
    | .ok (retired, r') => r.closings r' retired .expired
    | .error _ => []
  | .flush order =>
    match r.flush order with
    | .ok (retired, r') => r.closings r' retired .flushed
    | .error _ => []

def history : Reassembler → List Op → List (Event DatagramKey Fate)
  | _, [] => []
  | r, op :: ops => r.events op ++ history (r.step op) ops

end Reassembler

/-- The keys taken out of the table are reported, or counted as omitted, exactly once. -/
structure Accounts (gone : List DatagramKey) (retired : RetiredDatagrams) : Prop where
  nodup : gone.Nodup
  once : ∃ omitted, (retired.reported ++ omitted).Perm gone ∧
    retired.omittedIpv4 = omitted.countP (fun key => key.family == .ipv4) ∧
    retired.omittedIpv6 = omitted.countP (fun key => key.family == .ipv6)

/-- A datagram has a deadline that is not after `now`. -/
def DatagramState.Due (state : DatagramState) (now : ℕ) : Prop :=
  ∃ deadline, state.deadline = some deadline ∧ deadline ≤ now

/-- An expiry retires exactly the datagrams whose deadline is not after `now`. -/
structure ExpiresExactly (r : Reassembler) (now : ℕ) (retired : RetiredDatagrams)
    (r' : Reassembler) : Prop where
  expire_eq : r.expire now = .ok (retired, r')
  kept : ∀ key state, r'.datagrams.find? key = some state ↔
    r.datagrams.find? key = some state ∧ ¬ state.Due now
  outcomes : ∀ outcome ∈ retired.outcomes, ∃ state,
    r.datagrams.find? outcome.key = some state ∧ state.Due now ∧
      outcome = incompleteDatagram .idleExpired outcome.key state
  accounts : Accounts (r.gone r') retired

/-- A flush reports the smallest keys in order and leaves an empty table. What stays charged are
the slots that the table keeps. -/
structure FlushesExactly (r : Reassembler) (order : IterationOrder) (retired : RetiredDatagrams)
    (r' : Reassembler) : Prop where
  flush_eq : r.flush order = .ok (retired, r')
  outcomes : retired.reported = r.datagrams.keys.take r.limits.maxRetainedOutcomes ∧
    ∀ outcome ∈ retired.outcomes, ∃ state, r.datagrams.find? outcome.key = some state ∧
      outcome = incompleteDatagram .endOfCapture outcome.key state
  accounts : Accounts (r.gone r') retired
  datagrams_eq : r'.datagrams = .empty
  expiry_eq : r'.expiry = .empty
  payload_eq : r'.retained.payloadBytes = 0
  charge_eq : r'.retained.memoryCharge = datagramMetadataCharge * r'.retained.datagramSlots

/-! ### The index of deadlines -/

namespace Reassembler

/-- The index holds exactly the deadlines of the datagrams. -/
def Indexed (r : Reassembler) : Prop :=
  ∀ t key, r.expiry.Holds t key ↔
    ∃ state, r.datagrams.find? key = some state ∧ state.deadline = some t

section Indexed

variable {r : Reassembler} {x : Examined} {p : Provision}

theorem indexed_new {c : ℕ} {limits : Limits} {pol : OverlapPolicy}
    (h : Reassembler.new c limits pol = .ok r) : r.Indexed := by
  rw [eq_of_new h]
  intro t key
  refine iff_of_false (not_holds_empty t key) ?_
  rintro ⟨state, hs, -⟩
  cases hs

theorem Indexed.deadline_eq (h : r.Indexed) {key : DatagramKey} {t : ℕ} :
    (r.datagrams.find? key).bind DatagramState.deadline = some t ↔ r.expiry.Holds t key := by
  rw [h, bind_eq_some_iff]

theorem Indexed.removed (h : r.Indexed) (key : DatagramKey) : (r.removed key).Indexed := by
  intro t k
  change (r.expiry.remove _ key).Holds t k ↔ ∃ state, (r.datagrams.erase key).find? k = _ ∧ _
  rw [holds_remove, find?_erase, h.deadline_eq, h t k]
  split_ifs with hk
  · subst hk
    rw [h t k]
    simp
  · simp [Ne.symm hk]

theorem Indexed.store (h : r.Indexed) (rn : List RetainedRange) : (r.store x p rn).Indexed := by
  intro t k
  change (if _ ≠ p.charges.deadline then (r.expiry.remove _ _).insert _ _ else _ :
    ExpiryIndex _).Holds t k ↔ ∃ state, (r.datagrams.insert _ _).find? k = _ ∧ _
  rw [holds_move fun u => h.deadline_eq.symm, find?_insert]
  split_ifs with hk
  · constructor
    · exact fun hd => ⟨_, rfl, hd⟩
    · rintro ⟨state, hs, hd⟩
      cases hs
      exact hd
  · exact h t k

theorem Indexed.push (h : r.Indexed) (hinv : r.Inv) (al : Allocator) (fragment : Fragment)
    (now e : ℕ) : (r.push al fragment now e).2.Indexed := by
  have hr := push_result al hinv fragment now e
  generalize r.push al fragment now e = out at hr
  cases hr with
  | refused => exact h
  | exhausted => exact h
  | completed => exact h.removed _
  | retained => exact h.store _

end Indexed

/-! ### Retiring a list of keys -/

section Retire

variable (record : RetiredDatagrams → DatagramKey → DatagramState → RetiredDatagrams)

/-- What retiring a list of keys leaves: their datagrams are recorded in order and taken out. -/
structure Retired (acc : RetiredDatagrams × Reassembler) (keys : List DatagramKey)
    (acc' : RetiredDatagrams × Reassembler) : Prop where
  inv : acc'.2.Inv
  limits_eq : acc'.2.limits = acc.2.limits
  expiry_eq : acc'.2.expiry = acc.2.expiry
  find?_eq : ∀ key, acc'.2.datagrams.find? key =
    if key ∈ keys then none else acc.2.datagrams.find? key
  record_eq : acc'.1 = keys.foldl
    (fun retired key => (acc.2.datagrams.find? key).elim retired (record retired key)) acc.1

theorem retireAll_eq (acc : RetiredDatagrams × Reassembler) (hinv : acc.2.Inv)
    {keys : List DatagramKey} (hn : keys.Nodup) :
    (keys.foldlM (retire record) acc).Returns (Retired record acc keys) := by
  induction keys generalizing acc with
  | nil => exact Exec.returns_pure ⟨hinv, rfl, rfl, fun key => by simp, rfl⟩
  | cons key keys ih =>
    obtain ⟨hnt, hn⟩ := nodup_cons.mp hn
    refine (retire_eq record hinv key).bind fun acc₁ h₁ => ?_
    obtain ⟨hinv₁, hl, he, hd, -, hr⟩ := h₁
    refine (ih acc₁ hinv₁ hn).mono fun acc' h => ?_
    refine ⟨h.inv, h.limits_eq.trans hl, h.expiry_eq.trans he, fun k => ?_, ?_⟩
    · rw [h.find?_eq, hd, find?_erase]
      simp only [mem_cons]
      split_ifs <;> simp_all
    · rw [h.record_eq, hr, foldl_cons]
      refine foldl_ext _ _ _ fun rt k hk => ?_
      have hne : k ≠ key := fun heq => hnt (heq ▸ hk)
      rw [hd, find?_erase_of_ne _ hne]

end Retire

/-- The outcomes of retiring a list of keys. -/
def outcomesOf (r : Reassembler) (reason : IncompleteReason) (keys : List DatagramKey) :
    List IncompleteDatagram :=
  keys.filterMap fun key => (r.datagrams.find? key).map (incompleteDatagram reason key)

variable {rs : IncompleteReason} {keys : List DatagramKey}

theorem mem_outcomesOf {r : Reassembler} {o : IncompleteDatagram} (h : o ∈ r.outcomesOf rs keys) :
    o.key ∈ keys ∧ ∃ state, r.datagrams.find? o.key = some state ∧
      o = incompleteDatagram rs o.key state := by
  obtain ⟨key, hk, hm⟩ := mem_filterMap.mp h
  obtain ⟨state, hs, rfl⟩ := map_eq_some_iff.mp hm
  exact ⟨hk, state, hs, rfl⟩

theorem map_key_outcomesOf {r : Reassembler} (h : ∀ key ∈ keys, (r.datagrams.find? key).isSome) :
    (r.outcomesOf rs keys).map IncompleteDatagram.key = keys := by
  induction keys with
  | nil => rfl
  | cons key keys ih =>
    obtain ⟨state, hs⟩ := isSome_iff_exists.mp (h key mem_cons_self)
    rw [outcomesOf, filterMap_cons_some (by rw [hs]; rfl), map_cons]
    exact congrArg _ (ih fun k hk => h k (mem_cons_of_mem _ hk))

end Reassembler

/-! ### What is reported and what is omitted -/

namespace RetiredDatagrams

def ofFamily (family : Family) (key : DatagramKey) : Bool := key.family == family

/-- The number of keys omitted of a family. -/
def omittedOf (d : RetiredDatagrams) : Family → ℕ
  | .ipv4 => d.omittedIpv4
  | .ipv6 => d.omittedIpv6

theorem omittedOf_omitOne (d : RetiredDatagrams) (key : DatagramKey) (family : Family)
    (h : ∀ f, d.omittedOf f + 1 < wordLimit) :
    (d.omitOne key.family).omittedOf family =
      d.omittedOf family + if ofFamily family key then 1 else 0 := by
  have h₄ := saturatingAdd_eq (h .ipv4)
  have h₆ := saturatingAdd_eq (h .ipv6)
  unfold ofFamily omitOne
  cases key.family <;> cases family <;> simp_all [omittedOf]

theorem foldl_omitOne (keys : List DatagramKey) (d : RetiredDatagrams)
    (h : ∀ f, d.omittedOf f + keys.length < wordLimit) :
    (keys.foldl (fun d key => d.omitOne key.family) d).outcomes = d.outcomes ∧
      ∀ family, (keys.foldl (fun d key => d.omitOne key.family) d).omittedOf family =
        d.omittedOf family + keys.countP (ofFamily family) := by
  induction keys generalizing d with
  | nil => exact ⟨rfl, fun _ => rfl⟩
  | cons key keys ih =>
    rw [foldl_cons]
    simp only [length_cons] at h
    have ho (family : Family) := d.omittedOf_omitOne key family fun f => by
      have := h f
      omega
    have hle (family : Family) : (d.omitOne key.family).omittedOf family ≤ d.omittedOf family + 1 := by
      rw [ho]
      split_ifs <;> omega
    obtain ⟨hot, hom⟩ := ih (d.omitOne key.family) fun f => by
      have := h f
      have := hle f
      omega
    refine ⟨hot.trans (by cases key.family <;> rfl), fun family => ?_⟩
    rw [hom, ho, countP_cons]
    omega

variable (outcomes : List IncompleteDatagram)

/-- Recording a list of outcomes reports them up to the limit and omits the others. -/
theorem foldl_push (d : RetiredDatagrams) (lm : ℕ) : outcomes.foldl (fun d o => d.push o lm) d =
      ((outcomes.drop (lm - d.outcomes.length)).map IncompleteDatagram.key).foldl
        (fun d key => d.omitOne key.family)
        { d with outcomes := d.outcomes ++ outcomes.take (lm - d.outcomes.length) } := by
  induction outcomes generalizing d with
  | nil => simp
  | cons o outcomes ih =>
    rw [foldl_cons, ih]
    unfold push
    split_ifs with hr
    · obtain ⟨n, hn⟩ : ∃ n, lm - d.outcomes.length = n + 1 := ⟨lm - d.outcomes.length - 1, by omega⟩
      have hn' : lm - (d.outcomes.length + 1) = n := by omega
      simp [hn, hn']
    · have hz : lm - d.outcomes.length = 0 := by omega
      have hz' : lm - (d.omitOne o.key.family).outcomes.length = 0 := by
        cases o.key.family <;> exact hz
      simp [hz, hz']

theorem foldl_push_default (lm : ℕ) (h : outcomes.length < wordLimit) :
    (outcomes.foldl (fun d o => d.push o lm) default).outcomes = outcomes.take lm ∧
      ∀ family, (outcomes.foldl (fun d o => d.push o lm) default).omittedOf family =
        ((outcomes.map IncompleteDatagram.key).drop lm).countP (ofFamily family) := by
  obtain ⟨ho, hom⟩ := foldl_omitOne
    ((outcomes.drop lm).map IncompleteDatagram.key) ⟨outcomes.take lm, 0, 0⟩ fun family => by
      have hl : ((outcomes.drop lm).map IncompleteDatagram.key).length ≤ outcomes.length := by
        rw [length_map, length_drop]
        omega
      cases family <;> exact (Nat.zero_add _).trans_lt (hl.trans_lt h)
  rw [foldl_push]
  refine ⟨ho, fun family => ?_⟩
  rw [← map_drop]
  refine (hom family).trans ?_
  cases family <;> exact Nat.zero_add _

theorem foldl_append (d : RetiredDatagrams) :
    outcomes.foldl (fun d o => { d with outcomes := d.outcomes ++ [o] }) d =
      { d with outcomes := d.outcomes ++ outcomes } := by
  induction outcomes generalizing d with
  | nil => simp
  | cons o outcomes ih => simp [ih]

end RetiredDatagrams

namespace Reassembler

/-! ### The smallest keys -/

variable {l : List DatagramKey}

theorem selectSmallest_take (hl : l.Pairwise (· < ·)) (lm : ℕ) (key : DatagramKey) :
    selectSmallest lm (l.take lm) key = (l.orderedInsert (· ≤ ·) key).take lm := by
  unfold selectSmallest
  by_cases hr : l.length < lm
  · rw [take_of_length_le hr.le, if_pos hr, take_of_length_le]
    rw [orderedInsert_length]
    omega
  · rw [if_neg (by rw [length_take]; omega)]
    cases lm with
    | zero => simp
    | succ n =>
      have hn : n < l.length := by omega
      have hls : (l.take (n + 1)).getLast? = some l[n] := by
        rw [getLast?_take]
        simp [hn]
      have hd : (l.take (n + 1)).dropLast = l.take n := by
        rw [dropLast_eq_take, take_take, length_take]
        congr 1
        omega
      rw [hls, any_some]
      by_cases hlt : key < l[n]
      · rw [if_pos (decide_eq_true hlt), hd, take_orderedInsert_of_lt (getElem?_eq_getElem hn) hlt]
      · rw [if_neg (by simpa using hlt),
          take_orderedInsert_of_le (getElem?_eq_getElem hn) (not_lt.mp hlt) hl]

/-- The keys selected from a list of distinct keys are the smallest ones in order. -/
theorem foldl_selectSmallest {keys : List DatagramKey} (lm : ℕ) (hl : l.Pairwise (· < ·))
    (hn : keys.Nodup) (hd : ∀ key ∈ keys, key ∉ l) :
    ∃ l' : List DatagramKey, l'.Pairwise (· < ·) ∧ l'.Perm (keys ++ l) ∧
      keys.foldl (selectSmallest lm) (l.take lm) = l'.take lm := by
  induction keys generalizing l with
  | nil => exact ⟨l, hl, .rfl, rfl⟩
  | cons key keys ih =>
    obtain ⟨hnt, hn⟩ := nodup_cons.mp hn
    have hp := perm_orderedInsert (· ≤ ·) key l
    have hn' : (l.orderedInsert (· ≤ ·) key).Nodup := hp.nodup_iff.mpr (nodup_cons.mpr
        ⟨hd key mem_cons_self, hl.imp ne_of_lt⟩)
    have hs : (l.orderedInsert (· ≤ ·) key).Pairwise (· < ·) :=
      ((List.Pairwise.orderedInsert key l (hl.imp le_of_lt)).and hn').imp
        fun h => lt_of_le_of_ne h.1 h.2
    obtain ⟨l', hl', hp', hf⟩ := ih hs hn fun k hk hmem => by
      rcases mem_cons.mp (hp.mem_iff.mp hmem) with rfl | hmem
      · exact hnt hk
      · exact hd k (mem_cons_of_mem _ hk) hmem
    refine ⟨l', hl', hp'.trans ?_, ?_⟩
    · exact (hp.append_left keys).trans (perm_middle)
    · rw [foldl_cons, selectSmallest_take hl, hf]

/-! ### Expiry and flush -/

section Exact

variable {r r' : Reassembler}

theorem Inv.size_lt (hinv : r.Inv) : r.datagrams.size < wordLimit := by
  have hs := hinv.size_le
  have hc := hinv.charge_eq
  have hlt := hinv.charge_lt
  simp only [datagramMetadataCharge] at hc
  omega

variable {keys : List DatagramKey}

theorem Inv.length_lt (hinv : r.Inv) (hn : keys.Nodup)
    (h : ∀ key ∈ keys, (r.datagrams.find? key).isSome) : keys.length < wordLimit := by
  have hs : keys ⊆ r.datagrams.keys := fun key hk =>
    mem_keys.mpr (isSome_iff_exists.mp (h key hk))
  have hle := (subperm_of_subset hn hs).length_le
  rw [SortedMap.keys, length_map] at hle
  exact hle.trans_lt hinv.size_lt

theorem accounts_of (hn : keys.Nodup)
    (hk : ∀ key, key ∈ keys ↔ (r.datagrams.find? key).isSome ∧ (r'.datagrams.find? key).isNone)
    {rt : RetiredDatagrams} {n : ℕ} (hr : rt.reported = keys.take n)
    (ho : ∀ family, rt.omittedOf family = (keys.drop n).countP (RetiredDatagrams.ofFamily family)) :
    Accounts (r.gone r') rt := by
  have hg : (r.gone r').Nodup := r.datagrams.nodup_keys.filter _
  refine ⟨hg, keys.drop n, ?_, ho .ipv4, ho .ipv6⟩
  rw [hr, take_append_drop, perm_ext_iff_of_nodup hn hg]
  intro key
  rw [hk, gone, mem_filter, SortedMap.mem_keys, isSome_iff_exists]

theorem foldl_elim_eq (keys : List DatagramKey) (reason : IncompleteReason)
    (f : RetiredDatagrams → IncompleteDatagram → RetiredDatagrams) (d : RetiredDatagrams) :
    keys.foldl (fun d key => (r.datagrams.find? key).elim d fun state =>
      f d (incompleteDatagram reason key state)) d = (r.outcomesOf reason keys).foldl f d := by
  rw [outcomesOf, foldl_filterMap]
  congr 1
  funext d key
  cases r.datagrams.find? key <;> rfl

theorem expire_exact (hinv : r.Inv) (hi : r.Indexed) (now : ℕ) :
    ∃ rt r', ExpiresExactly r now rt r' ∧ r'.Inv ∧ r'.limits = r.limits ∧ r'.Indexed := by
  set keys := (r.expiry.takeExpired now).1 with hky
  have hn : keys.Nodup := by
    refine nodup_takeExpired now fun key t u ht hu => ?_
    exact Option.some.inj ((hi.deadline_eq.mpr ht).symm.trans (hi.deadline_eq.mpr hu))
  have hmem (key : DatagramKey) : key ∈ keys ↔
      ∃ state, r.datagrams.find? key = some state ∧ state.Due now := by
    rw [hky, mem_takeExpired]
    constructor
    · rintro ⟨t, ht, hle⟩
      obtain ⟨state, hs, hd⟩ := (hi t key).mp ht
      exact ⟨state, hs, t, hd, hle⟩
    · rintro ⟨state, hs, t, hd, hle⟩
      exact ⟨t, (hi t key).mpr ⟨state, hs, hd⟩, hle⟩
  obtain ⟨⟨rt, r'⟩, he, hr⟩ := retireAll_eq (fun rt key state =>
      rt.push (incompleteDatagram .idleExpired key state) r.limits.maxRetainedOutcomes)
    (.default, { r with expiry := (r.expiry.takeExpired now).2 }) (hinv.with_expiry _) hn
  have hsm (key : DatagramKey) (hk : key ∈ keys) : (r.datagrams.find? key).isSome := by
    obtain ⟨state, hs, -⟩ := (hmem key).mp hk
    exact isSome_iff_exists.mpr ⟨state, hs⟩
  have hkp (key : DatagramKey) (state : DatagramState) : r'.datagrams.find? key = some state ↔
      r.datagrams.find? key = some state ∧ ¬ state.Due now := by
    rw [hr.find?_eq]
    split_ifs with hk
    · obtain ⟨state', hs', hdue⟩ := (hmem key).mp hk
      refine iff_of_false nofun ?_
      rintro ⟨hs, hnot⟩
      cases hs'.symm.trans hs
      exact hnot hdue
    · refine ⟨fun hs => ⟨hs, fun hdue => ?_⟩, And.left⟩
      exact hk ((hmem key).mpr ⟨state, hs, hdue⟩)
  have hm : (r.outcomesOf .idleExpired keys).map
      IncompleteDatagram.key = keys := map_key_outcomesOf hsm
  have hl : (r.outcomesOf .idleExpired keys).length < wordLimit := by
    have hlt := hinv.length_lt hn hsm
    rwa [← hm, length_map] at hlt
  obtain ⟨ho, hom⟩ := RetiredDatagrams.foldl_push_default _ r.limits.maxRetainedOutcomes hl
  have hrc : rt = (r.outcomesOf .idleExpired keys).foldl
      (fun d o => d.push o r.limits.maxRetainedOutcomes) .default :=
    hr.record_eq.trans (foldl_elim_eq (r := r) _ .idleExpired
      (fun d o => d.push o r.limits.maxRetainedOutcomes) _)
  rw [← hrc] at ho hom
  rw [hm] at hom
  refine ⟨rt, r', ⟨he, hkp, ?_, ?_⟩, hr.inv, hr.limits_eq, ?_⟩
  · intro o hoc
    rw [ho] at hoc
    obtain ⟨hk, state, hs, heq⟩ := mem_outcomesOf (mem_of_mem_take hoc)
    obtain ⟨state', hs', hdue⟩ := (hmem _).mp hk
    cases hs'.symm.trans hs
    exact ⟨state, hs, hdue, heq⟩
  · refine accounts_of hn (fun key => ?_) ?_ hom
    · rw [hr.find?_eq]
      refine ⟨fun hk => ⟨hsm key hk, by rw [if_pos hk]; rfl⟩, fun h => ?_⟩
      by_contra hk
      rw [if_neg hk] at h
      cases hf : r.datagrams.find? key <;> simp [hf] at h
    · rw [RetiredDatagrams.reported, ho, map_take, hm]
  · intro t key
    rw [hr.expiry_eq, holds_takeExpired, hi]
    constructor
    · rintro ⟨⟨state, hs, hd⟩, hlt⟩
      refine ⟨state, (hkp key state).mpr ⟨hs, ?_⟩, hd⟩
      rintro ⟨u, hu, hle⟩
      cases hd.symm.trans hu
      exact absurd hle (not_le.mpr hlt)
    · rintro ⟨state, hs, hd⟩
      obtain ⟨hs, hnot⟩ := (hkp key state).mp hs
      exact ⟨⟨state, hs, hd⟩, not_le.mp fun hle => hnot ⟨t, hd, hle⟩⟩

/-- The keys that a flush reports are the smallest ones, whatever the order of iteration. -/
theorem selected_keys (r : Reassembler) (o : IterationOrder) (n : ℕ) :
    (o.order r.datagrams.keys).foldl (selectSmallest (min n r.datagrams.size)) [] =
      r.datagrams.keys.take n := by
  have hp := o.perm r.datagrams.keys
  obtain ⟨l, hl, hlp, hs⟩ := foldl_selectSmallest (min n r.datagrams.size)
    (List.Pairwise.nil : [].Pairwise (· < ·)) (hp.nodup_iff.mpr r.datagrams.nodup_keys)
    fun _ _ => not_mem_nil
  rw [append_nil] at hlp
  have hk : l = r.datagrams.keys := (hlp.trans hp).eq_of_pairwise
    (fun a b _ _ ha hb => absurd ha (not_lt.mpr hb.le)) hl r.datagrams.sorted_keys
  rw [take_nil] at hs
  rw [hs, hk, size, ← length_map (f := Prod.fst), ← take_take]
  exact congrArg _ take_length

theorem keys_retired {record : RetiredDatagrams → DatagramKey → DatagramState → RetiredDatagrams}
    {acc acc' : RetiredDatagrams × Reassembler} {n : ℕ}
    (h : Retired record acc (acc.2.datagrams.keys.take n) acc') :
    acc'.2.datagrams.keys.Perm (acc.2.datagrams.keys.drop n) := by
  have hs := acc.2.datagrams.nodup_keys
  rw [← take_append_drop n acc.2.datagrams.keys, nodup_append] at hs
  obtain ⟨-, hn, hd⟩ := hs
  rw [perm_ext_iff_of_nodup acc'.2.datagrams.nodup_keys hn]
  intro key
  have hmem : (∃ state, acc.2.datagrams.find? key = some state) ↔
      key ∈ acc.2.datagrams.keys.take n ∨ key ∈ acc.2.datagrams.keys.drop n := by
    rw [← SortedMap.mem_keys, ← mem_append, take_append_drop]
  rw [SortedMap.mem_keys, h.find?_eq]
  split_ifs with hk
  · exact iff_of_false nofun fun hdr => hd key hk key hdr rfl
  · rw [hmem, or_iff_right hk]

theorem flush_exact (hinv : r.Inv) (od : IterationOrder) :
    ∃ rt r', FlushesExactly r od rt r' ∧ r'.Inv ∧ r'.limits = r.limits := by
  have hn : (r.datagrams.keys.take r.limits.maxRetainedOutcomes).Nodup :=
    r.datagrams.nodup_keys.sublist (take_sublist _ _)
  obtain ⟨reported, hrr, hr⟩ := retireAll_eq (fun rt key state =>
    { rt with outcomes :=
      rt.outcomes ++ [incompleteDatagram .endOfCapture key state] }) (.default, r) hinv hn
  obtain ⟨drained, hdr, hd⟩ := retireAll_eq (fun rt key _ => rt.omitOne key.family)
    reported hr.inv reported.2.datagrams.nodup_keys
  have hfl : r.flush od = .ok (drained.1, { drained.2 with expiry := .empty }) := by
    unfold flush
    dsimp only
    rw [selected_keys, hrr, Exec.ok_bind, hdr, Exec.ok_bind]
    rfl
  -- The first pass reports its keys, the second one counts those that are left.
  have hf : reported.1 =
      ⟨r.outcomesOf .endOfCapture (r.datagrams.keys.take r.limits.maxRetainedOutcomes), 0, 0⟩ :=
    (hr.record_eq.trans (foldl_elim_eq (r := r) _ .endOfCapture
      (fun d o => { d with outcomes := d.outcomes ++ [o] }) _)).trans
        (RetiredDatagrams.foldl_append _ _)
  have hp (key : DatagramKey) (hk : key ∈ reported.2.datagrams.keys) :
      (reported.2.datagrams.find? key).isSome :=
    isSome_iff_exists.mpr (mem_keys.mp hk)
  have hsc : drained.1 = reported.2.datagrams.keys.foldl
      (fun d key => d.omitOne key.family) reported.1 := by
    rw [hd.record_eq]
    refine foldl_ext _ _ _ fun d key hk => ?_
    obtain ⟨state, hs⟩ := isSome_iff_exists.mp (hp key hk)
    rw [hs]
    rfl
  obtain ⟨ho, hom⟩ := RetiredDatagrams.foldl_omitOne reported.2.datagrams.keys
    reported.1 fun family => by
      have hlt := hr.inv.length_lt reported.2.datagrams.nodup_keys hp
      rw [hf]
      cases family <;> exact (Nat.zero_add _).trans_lt hlt
  rw [← hsc, hf] at ho hom
  have he : drained.2.datagrams = .empty := by
    refine ext_find? fun key => ?_
    rw [hd.find?_eq, find?_empty]
    split_ifs with hk
    · rfl
    · by_contra hne
      obtain ⟨state, hs⟩ := ne_none_iff_exists'.mp hne
      exact hk (mem_keys.mpr ⟨state, hs⟩)
  have hsum (f : DatagramState → ℕ) : drained.2.datagrams.sum f = 0 := by
    rw [he]
    rfl
  have hrp : drained.1.reported = r.datagrams.keys.take r.limits.maxRetainedOutcomes := by
    rw [RetiredDatagrams.reported, ho]
    exact map_key_outcomesOf fun key hk =>
      isSome_iff_exists.mpr (mem_keys.mp (mem_of_mem_take hk))
  refine ⟨drained.1, { drained.2 with expiry := .empty },
    { flush_eq := hfl
      outcomes := ⟨hrp, fun o hoc => ?_⟩
      accounts := accounts_of r.datagrams.nodup_keys (fun key => ?_) hrp fun family => ?_
      datagrams_eq := he
      expiry_eq := rfl
      payload_eq := hd.inv.payload_eq.trans (hsum _)
      charge_eq := ?_ }, hd.inv.with_expiry _, hd.limits_eq.trans hr.limits_eq⟩
  · rw [ho] at hoc
    exact (mem_outcomesOf hoc).2
  · rw [SortedMap.mem_keys, ← isSome_iff_exists]
    rw [he]
    exact (and_iff_left rfl).symm
  · rw [hom, (keys_retired hr).countP_eq]
    cases family <;> exact Nat.zero_add _
  · have hc := hd.inv.charge_eq
    rwa [hsum, Nat.zero_add] at hc

end Exact

/-! ### The history of a run -/

section History

variable {r r' : Reassembler} {x : Examined} {b t a : List RetainedRange}

/-- No fragment completes a datagram on its own. -/
theorem exists_of_completes (hx : x.Sound r b t a) (hcm : completes x.finalLength x.merge = true) :
    ∃ state, r.datagrams.find? x.incoming.key = some state := by
  by_contra hn
  have hf : r.datagrams.find? x.incoming.key = none := by
    simpa [← ne_none_iff_exists'] using hn
  obtain ⟨length, hfn, hc⟩ := (Option.any_eq_true _ _).mp hcm
  simp only [Bool.and_eq_true, beq_iff_eq] at hc
  have hr := hx.merge.split.eq
  rw [hf] at hr
  obtain ⟨-, rfl, -⟩ : b = [] ∧ t = [] ∧ a = [] := by simpa [eq_comm] using hr
  have hu : x.merge.unionStart = x.incoming.offset := congrArg Prod.fst hx.merge.union_eq
  have hp := ((planFinalLength_spec _ _ _ _).of_eq_ok hx.final_eq).final_eq
  rw [hf] at hp
  have hm := hx.valid.not_atomic (hu.symm.trans hc.1.2)
  rw [if_pos hm, hfn] at hp
  cases hp

theorem mem_live {key : DatagramKey} : key ∈ r.live ↔ ∃ state, r.datagrams.find? key = some state :=
  isSome_iff_exists

theorem consistent_closings (hs : r'.live ⊆ r.live) (rt : RetiredDatagrams) (fate : Fate) :
    Consistent r.live (r.closings r' rt fate) r'.live := by
  have hmem (key : DatagramKey) : key ∈ r.gone r' ↔ key ∈ r.live ∧ key ∉ r'.live := by
    rw [gone, mem_filter, SortedMap.mem_keys, ← mem_live, isNone_iff_eq_none,
      ← not_isSome_iff_eq_none]
    rfl
  have hl : r.live \ {key | key ∈ r.gone r'} = r'.live := by
    ext key
    rw [Set.mem_sdiff, Set.mem_ofPred_eq, hmem]
    tauto
  rw [← hl]
  exact .closeAll (r.datagrams.nodup_keys.filter _) (fun key hk => ((hmem key).mp hk).1)
    fun key => if key ∈ rt.reported then fate else .omitted

theorem consistent_push (hinv : r.Inv) (al : Allocator) (fragment : Fragment) (now e : ℕ) :
    Consistent r.live (r.events (.push al fragment now e)) (r.push al fragment now e).2.live := by
  have hr := push_result al hinv fragment now e
  unfold events
  dsimp only
  generalize r.push al fragment now e = out at hr ⊢
  cases hr with
  | refused => exact .nil _
  | exhausted => exact .nil _
  | @completed x b t a p s he hx hp hc hsn hi hf =>
    refine .closed (mem_live.mpr (exists_of_completes hx hc)) ?_
    have hl : (r.removed x.incoming.key).live = r.live \ {x.incoming.key} := by
      ext key
      change ((r.datagrams.erase _).find? key).isSome ↔ (r.datagrams.find? key).isSome ∧ _
      rw [find?_erase]
      split_ifs with hk <;> simp [hk]
    rw [hl]
    exact .nil _
  | @retained x b t a p he hx hp hc =>
    have hl : (r.store x p (r.updated x p.update)).live = insert x.incoming.key r.live := by
      ext key
      change ((r.datagrams.insert _ _).find? key).isSome ↔ _ ∨ (r.datagrams.find? key).isSome
      rw [find?_insert]
      split_ifs with hk <;> simp [hk]
    rw [hl]
    change Consistent r.live (if (r.datagrams.find? x.incoming.key).isNone then
      [.opened x.incoming.key] else []) _
    split_ifs with hn
    · refine .opened (fun hmem => ?_) (.nil _)
      obtain ⟨state, hs⟩ := mem_live.mp hmem
      simp [hs] at hn
    · have hmem : x.incoming.key ∈ r.live := by
        rw [mem_live, ← ne_none_iff_exists']
        exact fun heq => hn (by rw [heq]; rfl)
      rw [Set.insert_eq_of_mem hmem]
      exact .nil _

/-- What the operations of a run keep. -/
structure Tracked (r : Reassembler) : Prop where
  inv : r.Inv
  indexed : r.Indexed

theorem Tracked.step (h : r.Tracked) (op : Op) :
    (r.step op).Tracked ∧ (r.step op).limits = r.limits ∧
      Consistent r.live (r.events op) (r.step op).live := by
  cases op with
  | push al fragment now e =>
    exact ⟨⟨h.inv.push al fragment now e, h.indexed.push h.inv al fragment now e⟩,
      limits_push h.inv al fragment now e,
      consistent_push h.inv al fragment now e⟩
  | expire now =>
    obtain ⟨rt, r', he, hinv, hl, hi⟩ := expire_exact h.inv h.indexed now
    simp only [Reassembler.step, Reassembler.events, he.expire_eq]
    refine ⟨⟨hinv, hi⟩, hl, consistent_closings (fun key hk => ?_) _ _⟩
    obtain ⟨state, hs⟩ := mem_live.mp hk
    exact mem_live.mpr ⟨state, ((he.kept key state).mp hs).1⟩
  | flush o =>
    obtain ⟨rt, r', he, hinv, hl⟩ := flush_exact h.inv o
    have hn (key : DatagramKey) : r'.datagrams.find? key = none := by
      rw [he.datagrams_eq]
      rfl
    simp only [Reassembler.step, Reassembler.events, he.flush_eq]
    refine ⟨⟨hinv, fun t key => ?_⟩, hl, consistent_closings (fun key hk => ?_) _ _⟩
    · rw [he.expiry_eq]
      refine iff_of_false (not_holds_empty t key) ?_
      rintro ⟨state, hs, -⟩
      cases (hn key).symm.trans hs
    · obtain ⟨state, hs⟩ := mem_live.mp hk
      cases (hn key).symm.trans hs

theorem Tracked.run (h : r.Tracked) (ops : List Op) :
    (r.run ops).Tracked ∧ (r.run ops).limits = r.limits ∧
      Consistent r.live (r.history ops) (r.run ops).live := by
  induction ops generalizing r with
  | nil => exact ⟨h, rfl, .nil _⟩
  | cons op ops ih =>
    obtain ⟨ht, hl, hc⟩ := h.step op
    obtain ⟨hr, hl', hrs⟩ := ih ht
    exact ⟨hr, hl'.trans hl, hc.append hrs⟩

/-- The slots are as many as the datagrams that the table held at most. -/
theorem isGreatest_slots (hi : r.Inv) (h : r.retained.datagramSlots = r.datagrams.size)
    (ops : List Op) : IsGreatest {n | ∃ before, before <+: ops ∧ (r.run before).datagrams.size = n}
      (r.run ops).retained.datagramSlots := by
  induction ops using reverseRecOn with
  | nil =>
    refine ⟨⟨[], prefix_rfl, h.symm⟩, ?_⟩
    rintro _ ⟨before, hb, rfl⟩
    rw [prefix_nil.mp hb]
    exact h.ge
  | append_singleton ops op ih =>
    have hs : r.run (ops ++ [op]) = (r.run ops).step op := foldl_concat ..
    rw [hs, (hi.run ops).1.slots_step op]
    constructor
    · rcases max_choice (r.run ops).retained.datagramSlots ((r.run ops).step op).datagrams.size with
        hc | hc
      · obtain ⟨before, hb, hn⟩ := ih.1
        exact ⟨before, hb.trans (prefix_append _ _), hn.trans hc.symm⟩
      · exact ⟨ops ++ [op], prefix_rfl, by rw [hs, hc]⟩
    · rintro _ ⟨before, hb, rfl⟩
      rcases prefix_concat_iff.mp hb with rfl | hb
      · rw [hs]
        exact le_max_right _ _
      · exact (ih.2 ⟨before, hb, rfl⟩).trans (le_max_left _ _)

theorem live_eq_empty (h : r.datagrams = .empty) : r.live = ∅ := by
  refine Set.eq_empty_of_forall_notMem fun key hk => ?_
  obtain ⟨state, hs⟩ := mem_live.mp hk
  rw [h] at hs
  cases hs

theorem live_new {c : ℕ} {limits : Limits} {pol : OverlapPolicy}
    (h : Reassembler.new c limits pol = .ok r) : r.live = ∅ := by
  refine live_eq_empty ?_
  rw [eq_of_new h]

theorem history_append (r : Reassembler) (ops : List Op) (op : Op) :
    r.history (ops ++ [op]) = r.history ops ++ (r.run ops).events op := by
  induction ops generalizing r with
  | nil => exact append_nil _
  | cons first ops ih =>
    rw [cons_append, history, history, ih, append_assoc]
    rfl

end History

/-- In a run that ends with a flush, every generation of a datagram key that a fragment opened meets
exactly one fate, as it is reported; every expiry retires exactly what is due; and the flush reports
the smallest keys and leaves no datagram, and no charge but that of the slots of the table, which are
as many as the datagrams it held at most. -/
theorem lifecycle_of_run {clock : ℕ} {limits : Limits} {overlapPolicy : OverlapPolicy}
    {r : Reassembler} (h : Reassembler.new clock limits overlapPolicy = .ok r) (ops : List Op)
    (order : IterationOrder) :
    (∀ key, Paired (eventsOf key (r.history (ops ++ [.flush order])))) ∧
      (∀ before now after, ops = before ++ .expire now :: after →
        ∃ retired r', ExpiresExactly (r.run before) now retired r') ∧
      ∃ retired r', FlushesExactly (r.run ops) order retired r' ∧
        retired.reported = (r.run ops).datagrams.keys.take limits.maxRetainedOutcomes ∧
        IsGreatest {n | ∃ before, before <+: ops ∧ (r.run before).datagrams.size = n}
          r'.retained.datagramSlots := by
  have ht : r.Tracked := ⟨(inv_new h).1, indexed_new h⟩
  obtain ⟨hr, hl, hh⟩ := ht.run ops
  obtain ⟨retired, r', he, -⟩ := flush_exact hr.inv order
  have hs : (r.run ops).step (.flush order) = r' := by
    simp only [Reassembler.step, he.flush_eq]
  refine ⟨fun key => ?_, ?_, retired, r', he, ?_, ?_⟩
  · have hf := (hr.step (.flush order)).2.2
    rw [live_new h] at hh
    rw [hs, live_eq_empty he.datagrams_eq] at hf
    rw [history_append]
    exact (hh.append hf).paired key
  · rintro before now after -
    have hb := (ht.run before).1
    obtain ⟨retired, r', he, -⟩ := expire_exact hb.inv hb.indexed now
    exact ⟨retired, r', he⟩
  · rw [he.outcomes.1, hl, (inv_new h).2.1]
  · have h0 : r.retained.datagramSlots = r.datagrams.size := by
      rw [eq_of_new h]
      rfl
    rw [← hs, (leaves_flush hr.inv order).slots_eq]
    exact isGreatest_slots ht.inv h0 ops

end Reassembler

/-! ### A datagram that is flushed -/

/-- The table iterates over its keys in increasing order. -/
def IterationOrder.increasing : IterationOrder := ⟨id, fun _ => .rfl⟩

def firstKey : DatagramKey := firstFragment.key

/-- Of two datagrams the first expires and the second is flushed. The table keeps both slots. -/
theorem lifecycle_of_run_flushed :
    let other := { hostsKey with scope := 1 }
    let ops : List Op := [.push .exact firstFragment 0 0, .push .exact (fragmentAt other 0) 1 0,
      .expire (30 * 1000000000)]
    idle.history (ops ++ [.flush .increasing]) = [.opened firstKey, .opened (.ipv4 other),
        .closed firstKey .expired, .closed (.ipv4 other) .flushed] ∧
      Paired (eventsOf firstKey (idle.history (ops ++ [.flush .increasing]))) ∧
      ∃ retired r', FlushesExactly (idle.run ops) .increasing retired r' ∧
        retired.reported = [.ipv4 other] ∧ r'.retained = ⟨0, 2 * 4096, 2⟩ := by
  intro other ops
  obtain ⟨hp, -, retired, r', hf, hr, -⟩ := Reassembler.lifecycle_of_run new_idle ops .increasing
  have he : ((idle.run ops).flush .increasing).toOption.map (fun out => out.2.retained) =
      some ⟨0, 2 * 4096, 2⟩ := by decide +kernel
  rw [hf.flush_eq] at he
  exact ⟨by decide +kernel, hp firstKey, retired, r', hf, hr.trans (by decide +kernel),
    Option.some.inj he⟩

/-- After a flush the slot of the flushed datagram stays charged. -/
theorem charge_after_flush :
    ((idle.run [.push .exact firstFragment 0 0]).flush .increasing).toOption.map
      (fun out => (out.1.outcomes.length, out.2.datagrams.size, out.2.retained)) =
        some (1, 0, ⟨0, 4096, 1⟩) := by
  decide +kernel

/-! ### Isolation of datagrams -/

/-- Nothing is asked of the datagram: a fragment has another key, or an expiry is early. -/
def Op.Spares (key : DatagramKey) (state : DatagramState) : Op → Prop
  | .push _ fragment _ _ => fragment.key ≠ key
  | .expire now => ¬ state.Due now
  | .flush _ => False

namespace Reassembler

variable {r : Reassembler} {key : DatagramKey} {state : DatagramState}

theorem Tracked.find?_step (h : r.Tracked) (hs : r.datagrams.find? key = some state) {op : Op}
    (ho : op.Spares key state) : (r.step op).datagrams.find? key = some state := by
  cases op with
  | push al fragment now e =>
    have hk {x : Examined} (he : r.examine fragment = .ok x) : key ≠ x.incoming.key := by
      rw [((examine_spec h.inv fragment).of_eq_ok he).1]
      exact Ne.symm ho
    have hr := push_result al h.inv fragment now e
    change (r.push al fragment now e).2.datagrams.find? key = _
    generalize r.push al fragment now e = out at hr ⊢
    cases hr with
    | refused => exact hs
    | exhausted => exact hs
    | completed he => exact (find?_erase ..).trans ((if_neg (hk he)).trans hs)
    | retained he => exact (find?_insert ..).trans ((if_neg (hk he)).trans hs)
  | expire now =>
    obtain ⟨rt, r', he, -⟩ := expire_exact h.inv h.indexed now
    simp only [Reassembler.step, he.expire_eq]
    exact (he.kept key state).mpr ⟨hs, ho⟩
  | flush o => exact ho.elim

/-- Whatever fragments of other datagrams do, be they stored, completed or refused, a datagram stays
as it is until it is due. -/
theorem isolation_of_run {c : ℕ} {limits : Limits} {pol : OverlapPolicy}
    (h : Reassembler.new c limits pol = .ok r) (ops later : List Op)
    (hs : (r.run ops).datagrams.find? key = some state) (hl : ∀ op ∈ later, op.Spares key state) :
    (r.run (ops ++ later)).datagrams.find? key = some state := by
  have ht := (Tracked.run ⟨(inv_new h).1, indexed_new h⟩ ops).1
  rw [show r.run (ops ++ later) = later.foldl step (r.run ops) from foldl_append]
  generalize r.run ops = r' at hs ht
  induction later generalizing r' with
  | nil => exact hs
  | cons op later ih =>
    obtain ⟨ho, hl⟩ := forall_mem_cons.mp hl
    exact ih hl (r'.step op) (ht.find?_step hs ho) (ht.step op).1

end Reassembler

theorem isolation_of_run_refused : ∃ state,
    (idle.run ([.push .exact firstFragment 0 0] ++ [.push .exact
      (.ipv4 ⟨{ hostsKey with scope := 1 }, 0, true, [], []⟩) 0 0])).datagrams.find? firstKey =
        some state := by
  have h : ((idle.run [.push .exact firstFragment 0 0]).datagrams.find? firstKey).isSome := by
    decide +kernel
  have hk : DatagramKey.ipv4 { hostsKey with scope := 1 } ≠ firstKey := by decide
  obtain ⟨state, hs⟩ := isSome_iff_exists.mp h
  exact ⟨state, Reassembler.isolation_of_run new_idle _ _ hs (forall_mem_singleton.mpr hk)⟩

end PacketCraftr.Ip
