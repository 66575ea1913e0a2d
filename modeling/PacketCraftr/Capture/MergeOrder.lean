import PacketCraftr.Capture.Lanes

/-!
# A merge is a stable sort

What was written and what each lane has read are followed along the loop of a merge: the frames
written are in order, and before those that the lanes hold or will read.
-/

open List Except Option

namespace PacketCraftr.Capture

open Reorder Writer Reader

/-! ### The output -/

section Run

variable {w w₁ w₂ : Writer} {ops : List Op} {op : Op} {written written' : List Written}
  {frames frames' : List Frame} {ids ids' : List ℕ}

theorem Writer.run_concat (h : w.run ops = .ok (ids, written, frames, w₁))
    (ho : w₁.apply op = .ok (ids', written', frames', w₂)) :
    w.run (ops ++ [op]) = .ok (ids ++ ids', written ++ written', frames ++ frames', w₂) := by
  induction ops generalizing w ids written frames with
  | nil =>
    cases h
    rw [nil_append, run, ho, ok_bind]
    simp [run, pure, Except.pure]
  | cons op' ops ih =>
    obtain ⟨⟨ids₁, written₁, frames₁, w'⟩, hf, h⟩ := bind_eq_ok.mp h
    obtain ⟨⟨ids₂, written₂, frames₂, w''⟩, hr, h⟩ := bind_eq_ok.mp h
    cases h
    rw [cons_append, run, hf, ok_bind]
    dsimp only
    rw [ih hr, ok_bind, append_assoc, append_assoc, append_assoc]
    rfl

theorem apply_writeFrame {f : Frame} {id : UInt32} (hf : w.state.isPcapNg = true)
    (hid : f.interface = some id) (h : w.writeFrame f = .ok w₁) :
    w₁.state = w.state ∧ ∃ written, w.apply (.writeFrame f) = .ok ([], written, [f], w₁) := by
  obtain ⟨plan, hp, -⟩ := bind_eq_ok.mp h
  cases hs : w.state with
  | pcap => rw [hs] at hf; cases hf
  | pcapNg e interfaces =>
    obtain ⟨c, t, ticks, bl, hc, -, -, -, -, -, he, -⟩ := prepareFrame_pcapNg hs hp
    rw [selectInterface, hid] at hc
    obtain ⟨interface, -, hc⟩ := bind_eq_ok.mp hc
    obtain ⟨-, hc⟩ := rejectIf_bind_eq_ok.mp hc
    obtain rfl := ok.inj hc
    obtain ⟨w', hw', hsm, -⟩ := writeFrame_pcapNg hs hp he h
    cases hw'
    refine ⟨hsm.trans hs, plan.encoding.written f, ?_⟩
    have hsr : plan.encoding.stored f = f := by
      rw [he]
      dsimp only [FrameEncoding.stored]
      rw [UInt32.ofNat_toNat, ← hid]
    rw [apply, hp, ok_bind, h, ok_bind, hsr]
    rfl

end Run

/-- A frame with the interface that it has in the output. -/
def stored (mappings : List ((ℕ × UInt32) × UInt32)) (x : ℕ × Pending) : Frame :=
  { x.2.frame with interface := mappings.lookup (x.1, x.2.globalInterface) }

/-- What was written of a merge. -/
structure OutputInv (sources : List MergeSource) (start : Writer)
    (mappings : List ((ℕ × UInt32) × UInt32)) (output : Writer) (out : List (ℕ × Pending)) :
    Prop where
  written : ∃ ops ids blocks, start.run ops = .ok (ids, blocks, out.map (stored mappings), output)
  format : output.state.isPcapNg = true
  known : ∀ x ∈ out, ∃ id, mappings.lookup (x.1, x.2.globalInterface) = some id
  described : ∀ k id, mappings.lookup k = some id → ∃ source description,
    sources[k.1]? = some source ∧
    source.reader.allInterfaces[k.2.toNat]? = some description ∧
    output.state.interfaces[id.toNat]? = some description
  injective : ∀ k k' id, mappings.lookup k = some id → mappings.lookup k' = some id → k = k'

section Output

variable {s : List MergeSource} {start o o' : Writer}
  {m : List ((ℕ × UInt32) × UInt32)} {out : List (ℕ × Pending)} {k : ℕ × UInt32}
  {id : UInt32} {k' : ℕ × UInt32} {sr : MergeSource}

theorem lookup_cons_of_known (hnew : m.lookup k = none) {id' : UInt32}
    (h : m.lookup k' = some id') : lookup k' ((k, id) :: m) = some id' := by
  have hne : k' ≠ k := by
    rintro rfl
    rw [hnew] at h
    cases h
  rw [lookup_cons, beq_false_of_ne hne]
  exact h

theorem lookup_cons_cases {id' : UInt32} (h : lookup k' ((k, id) :: m) = some id') :
    k' = k ∧ id' = id ∨ m.lookup k' = some id' := by
  rw [lookup_cons] at h
  by_cases heq : k' = k
  · rw [heq, beq_self_eq_true] at h
    exact .inl ⟨heq, (Option.some.inj h).symm⟩
  · rw [beq_false_of_ne heq] at h
    exact .inr h

theorem OutputInv.describe (h : OutputInv s start m o out)
    {description : Interface} {options : List PcapNgOption} {n : ℕ}
    (hnew : m.lookup k = none) (hsr : s[k.1]? = some sr)
    (hd : sr.reader.allInterfaces[k.2.toNat]? = some description)
    (ha : o.addInterfaceDescriptionWithOptions description options = .ok (n, o')) :
    OutputInv s start ((k, UInt32.ofNat n) :: m) o' out := by
  obtain ⟨-, e, interfaces, hst, rfl, hr, -, hw⟩ := addInterfaceDescriptionWithOptions_ok ha
  have hst' := (writeInterface_ok hw).1
  have hi : o.state.interfaces = interfaces := by rw [hst]; rfl
  have hi' : o'.state.interfaces = interfaces ++ [description] := by
    rw [hst']
    rfl
  have hid : (UInt32.ofNat interfaces.length).toNat = interfaces.length :=
    UInt32.toNat_ofNat_of_lt' hr
  obtain ⟨ops, ids, blocks, hrun⟩ := h.written
  have hap : o.apply (.addInterfaceDescription description options) =
      .ok ([interfaces.length], [.ofInterface description options], [], o') := by
    rw [apply, ha]
    rfl
  refine ⟨?_, by rw [hst']; rfl, ?_, ?_, ?_⟩
  · have hsd : out.map (stored ((k, UInt32.ofNat interfaces.length) :: m)) =
        out.map (stored m) := by
      refine map_congr_left fun x hx => ?_
      obtain ⟨id, hl⟩ := h.known x hx
      rw [stored, stored, hl, lookup_cons_of_known hnew hl]
    rw [hsd, ← append_nil (out.map (stored m))]
    exact ⟨_, _, _, run_concat hrun hap⟩
  · intro x hx
    obtain ⟨id, hl⟩ := h.known x hx
    exact ⟨id, lookup_cons_of_known hnew hl⟩
  · intro k' id' hl
    rcases lookup_cons_cases hl with ⟨rfl, rfl⟩ | hl
    · refine ⟨sr, description, hsr, hd, ?_⟩
      rw [hid, hi', getElem?_concat_length]
    · obtain ⟨sr', description', hsr', hd', hs⟩ := h.described k' id' hl
      refine ⟨sr', description', hsr', hd', ?_⟩
      rw [hi] at hs
      rw [hi', getElem?_append_left (List.getElem?_eq_some_iff.mp hs).1, hs]
  · -- An identifier that was given before is that of an interface described before.
    have hf : ∀ k', m.lookup k' ≠ some (UInt32.ofNat interfaces.length) := by
      intro k' hl
      obtain ⟨_, _, _, _, hs⟩ := h.described k' _ hl
      have := (List.getElem?_eq_some_iff.mp hs).1
      rw [hid, hi] at this
      omega
    intro k₁ k₂ id' h₁ h₂
    rcases lookup_cons_cases h₁ with ⟨rfl, rfl⟩ | h₁
    · rcases lookup_cons_cases h₂ with ⟨rfl, -⟩ | h₂
      · rfl
      · exact absurd h₂ (hf _)
    · rcases lookup_cons_cases h₂ with ⟨-, rfl⟩ | h₂
      · exact absurd h₁ (hf _)
      · exact h.injective k₁ k₂ id' h₁ h₂

theorem OutputInv.write (h : OutputInv s start m o out) {index : ℕ}
    {current : Pending} (hk : m.lookup (index, current.globalInterface) = some id)
    (hw : o.writeFrame { current.frame with interface := some id } = .ok o') :
    OutputInv s start m o' (out ++ [(index, current)]) := by
  obtain ⟨hs, blocks', ha⟩ := apply_writeFrame h.format rfl hw
  obtain ⟨ops, ids, blocks, hr⟩ := h.written
  refine ⟨?_, by rw [hs]; exact h.format, ?_, ?_, h.injective⟩
  · rw [map_append, map_singleton, stored, hk]
    exact ⟨_, _, _, run_concat hr ha⟩
  · exact forall_mem_append.mpr ⟨h.known, forall_mem_singleton.mpr ⟨id, hk⟩⟩
  · rw [hs]
    exact h.described

end Output

/-! ### The lanes -/

/-- A lane with the frames of its source that it has read and those that were written. -/
structure Track where
  source : MergeSource
  lane : Lane
  seen : List Pending
  written : List Pending

structure Track.Inv (limits : MergeLimits) (t : Track) : Prop where
  lane : LaneInv limits t.source t.lane t.seen (t.written ++ t.lane.pending.toList)
  drained : t.lane.pending = none → t.lane.window = [] ∧ t.lane.exhausted = true
  single : limits.window = 1 → t.lane.window = [] ∧ t.seen = t.written ++ t.lane.pending.toList

/-- The order of a chronological merge. -/
def mergeKey (index : ℕ) (p : Pending) : ℤ ×ₗ ℕ ×ₗ ℕ := toLex (p.nanos, toLex (index, p.number))

/-- The frames `out` were written, with the indices of their sources. -/
structure LanesInv (limits : MergeLimits) (sources : List MergeSource) (lanes : List Lane)
    (tracks : List Track) (out : List (ℕ × Pending)) : Prop where
  lanes : lanes = tracks.map Track.lane
  sources : sources = tracks.map Track.source
  each : ∀ t ∈ tracks, t.Inv limits
  perm : out.Perm (Reorder.concat 0 (tracks.map Track.written))
  merged : limits.order = .chronological →
    Merged mergeKey out (tracks.map fun t => t.lane.pending)
  appended : limits.order = .append → out = Reorder.concat 0 (tracks.map Track.written) ∧
    ∀ (i j : ℕ) (s t : Track), i < j → tracks[i]? = some s → tracks[j]? = some t → s.lane.pending.isSome →
      t.written = []

variable {lanes : List Lane} {i : ℕ} {od : MergeOrder}

theorem mem_heads {time : ℤ} : (time, i) ∈ heads lanes ↔
    ∃ lane p, lanes[i]? = some lane ∧ lane.pending = some p ∧ p.time.nanos = time := by
  constructor
  · intro h
    obtain ⟨⟨lane, k⟩, hl, hh⟩ := mem_filterMap.mp h
    obtain ⟨p, hp, heq⟩ := map_eq_some_iff.mp (show lane.pending.map _ = _ from hh)
    obtain ⟨rfl, rfl⟩ := Prod.mk.inj heq
    exact ⟨lane, p, mem_zipIdx_iff_getElem?.mp hl, hp, rfl⟩
  · rintro ⟨lane, p, hl, hp, rfl⟩
    exact mem_filterMap.mpr ⟨(lane, i), mem_zipIdx_iff_getElem?.mpr hl,
      map_eq_some_iff.mpr ⟨p, hp, rfl⟩⟩

theorem exists_of_takeNext (h : takeNext od lanes = some i) :
    ∃ lane p, lanes[i]? = some lane ∧ lane.pending = some p := by
  cases od with
  | chronological =>
    obtain ⟨⟨⟨time, i'⟩, rest⟩, hpop, hi⟩ := map_eq_some_iff.mp h
    obtain rfl : i' = i := hi
    obtain ⟨lane, p, hl, hp, -⟩ := mem_heads.mp ((perm_popMin hpop).mem_iff.mpr mem_cons_self)
    exact ⟨lane, p, hl, hp⟩
  | append =>
    obtain ⟨hlen, hs, -⟩ := findIdx?_eq_some_iff_getElem.mp h
    obtain ⟨p, hp⟩ := isSome_iff_exists.mp hs
    exact ⟨lanes[i], p, getElem?_eq_getElem hlen, hp⟩

theorem takeNext_eq_none (h : takeNext od lanes = none) : ∀ lane ∈ lanes, lane.pending = none := by
  intro lane hl
  cases od with
  | chronological =>
    have hn : heads lanes = [] := popMin_eq_none.mp (map_eq_none_iff.mp h)
    obtain ⟨i, hi⟩ := mem_iff_getElem?.mp hl
    cases hp : lane.pending with
    | none => rfl
    | some p =>
      have hmem := mem_heads.mpr ⟨lane, p, hi, hp, rfl⟩
      rw [hn] at hmem
      cases hmem
  | append =>
    have ha := findIdx?_eq_none_iff.mp h lane hl
    simpa using ha

/-- In chronological order the next frame is the least one. -/
theorem takeNext_chronological (h : takeNext .chronological lanes = some i) {lane : Lane}
    {p : Pending} (hl : lanes[i]? = some lane) (hp : lane.pending = some p) :
    ∀ j lane' q, j ≠ i → lanes[j]? = some lane' → lane'.pending = some q →
      mergeKey i p < mergeKey j q := by
  intro j lane' q hne hl' hq
  obtain ⟨⟨⟨time, i'⟩, rest⟩, hpop, hi⟩ := map_eq_some_iff.mp h
  obtain rfl : i' = i := hi
  have hpr := perm_popMin hpop
  obtain ⟨lane₁, p₁, hl₁, hp₁, rfl⟩ := mem_heads.mp (hpr.mem_iff.mpr mem_cons_self)
  obtain rfl : lane₁ = lane := Option.some.inj (hl₁.symm.trans hl)
  obtain rfl : p₁ = p := Option.some.inj (hp₁.symm.trans hp)
  have hr : (q.time.nanos, j) ∈ rest := by
    rcases mem_cons.mp (hpr.mem_iff.mp (mem_heads.mpr ⟨lane', q, hl', hq, rfl⟩)) with
      heq | hmem
    · exact absurd (congrArg Prod.snd heq) hne
    · exact hmem
  have hle := popMin_le hpop _ hr
  rw [Prod.Lex.toLex_le_toLex] at hle
  rw [mergeKey, mergeKey, Prod.Lex.toLex_lt_toLex]
  rcases hle with hlt | ⟨heq, hle⟩
  · exact .inl hlt
  · exact .inr ⟨heq, Prod.Lex.toLex_lt_toLex.mpr (.inl (lt_of_le_of_ne hle hne.symm))⟩

/-- In append order the lanes before the next one have ended. -/
theorem takeNext_append (h : takeNext .append lanes = some i) :
    ∀ j lane, j < i → lanes[j]? = some lane → lane.pending = none := by
  intro j lane hj hl
  obtain ⟨_, _, hb⟩ := findIdx?_eq_some_iff_getElem.mp h
  obtain ⟨hlen, rfl⟩ := List.getElem?_eq_some_iff.mp hl
  simpa using hb j hj

section Lanes

variable {limits : MergeLimits} {sources : List MergeSource} {lanes : List Lane}
  {tr : List Track} {out : List (ℕ × Pending)} {index : ℕ} {t : Track} {c : Pending}
  {lane' : Lane} {cn cn' : MergeCounts}

theorem Track.Inv.mem_seen (h : t.Inv limits) (hp : t.lane.pending = some c) : c ∈ t.seen := by
  have hmem : c ∈ (t.written ++ t.lane.pending.toList) ++ t.lane.window := by
    rw [hp]
    simp
  exact h.lane.inv.perm.mem_iff.mpr hmem

theorem Track.Inv.advance (h : t.Inv limits) (hp : t.lane.pending = some c)
    (ha : Capture.advance index limits t.lane cn = .ok (lane', cn')) :
    ∃ seen', Track.Inv limits ⟨t.source, lane', seen', t.written ++ [c]⟩ ∧
      (limits.order = .chronological → ∀ q ∈ lane'.pending, c.key < q.key) := by
  have hl := h.lane
  rw [hp, toList_some] at hl
  obtain ⟨more, hl', hd, hk, hsn⟩ := advance_ok hl ha
  refine ⟨t.seen ++ more, ⟨hl', hd, fun ho => ?_⟩, fun hc q hq => ?_⟩
  · obtain ⟨hw, hs⟩ := h.single ho
    obtain ⟨hw', rfl⟩ := hsn ho hw
    rw [hp, toList_some] at hs
    exact ⟨hw', by rw [hs]⟩
  · exact hk hc q hq c (by simp)

theorem mergeKey_lt {p q : Pending} (h : p.key < q.key) : mergeKey index p < mergeKey index q := by
  rw [Pending.key_eq, key_lt_iff] at h
  rw [mergeKey, mergeKey, Prod.Lex.toLex_lt_toLex]
  refine h.imp_right fun ⟨ht, hn⟩ => ⟨ht, ?_⟩
  exact Prod.Lex.toLex_lt_toLex.mpr (.inr ⟨rfl, hn⟩)

theorem LanesInv.step (h : LanesInv limits sources lanes tr out)
    (hn : takeNext limits.order lanes = some index) (ht : tr[index]? = some t)
    (hp : t.lane.pending = some c)
    (had : advance index limits t.lane cn = .ok (lane', cn')) :
    ∃ tr', LanesInv limits sources (lanes.set index lane') tr' (out ++ [(index, c)]) := by
  have hg {α : Type} (f : Track → α) : (tr.map f)[index]? = some (f t) := by
    rw [getElem?_map, ht]
    rfl
  have hln : lanes[index]? = some t.lane := h.lanes ▸ hg Track.lane
  obtain ⟨seen', hinv, hk⟩ := (h.each t (mem_of_getElem? ht)).advance hp had
  set t' : Track := ⟨t.source, lane', seen', t.written ++ [c]⟩ with ht'
  refine ⟨tr.set index t', ?_⟩
  exact
    { lanes := by rw [h.lanes, map_set]
      sources := by
        obtain ⟨hlen, hsr⟩ := List.getElem?_eq_some_iff.mp (hg Track.source)
        rw [h.sources, map_set, ← hsr]
        exact (set_getElem_self hlen).symm
      each := fun s hs => (mem_or_eq_of_mem_set hs).elim (h.each s) fun heq => heq ▸ hinv
      perm := by
        have hc := concat_set_perm 0 (hg Track.written) c
        rw [Nat.zero_add] at hc
        rw [map_set]
        exact (h.perm.append_right _).trans hc
      merged := by
        intro hch
        rw [map_set]
        refine (h.merged hch).step ((hg _).trans (congrArg some hp)) (fun j q hne hq => ?_)
          fun q hq => mergeKey_lt (hk hch q hq)
        obtain ⟨s, hs, hq⟩ := map_eq_some_iff.mp (getElem?_map ▸ hq)
        refine takeNext_chronological (hch ▸ hn) hln hp j s.lane q hne ?_ hq
        rw [h.lanes, getElem?_map, hs]
        rfl
      appended := by
        intro ha
        obtain ⟨ho, hlt⟩ := h.appended ha
        constructor
        · have hc := concat_set_eq 0 (hg Track.written) c ?_
          · rw [map_set, hc, Nat.zero_add, ho]
          · intro j l hj hl
            obtain ⟨s, hs, rfl⟩ := map_eq_some_iff.mp (getElem?_map ▸ hl)
            exact hlt index j t s hj ht hs (by rw [hp]; rfl)
        · intro i j r s hij hr hs hpn
          have hne : index ≠ j := by
            rintro rfl
            rw [getElem?_set_ne (by omega)] at hr
            have hln : lanes[i]? = some r.lane := by
              rw [h.lanes, getElem?_map, hr]
              rfl
            rw [takeNext_append (ha ▸ hn) i r.lane hij hln] at hpn
            cases hpn
          rw [getElem?_set_ne hne] at hs
          by_cases hi : index = i
          · subst hi
            exact hlt index j t s hij ht hs (by rw [hp]; rfl)
          · rw [getElem?_set_ne hi] at hr
            exact hlt i j r s hij hr hs hpn }

theorem LanesInv.length_le (h : LanesInv limits sources lanes tr out) :
    out.length + (lanes.countP fun lane => lane.pending.isSome) ≤
      (sources.map fun source => source.reader.rest.length).sum := by
  have htr : (tr.map fun t => t.written.length).sum +
      (tr.map Track.lane).countP (fun lane => lane.pending.isSome) ≤
      (tr.map fun t => t.source.reader.rest.length).sum := by
    have he := h.each
    clear h
    induction tr with
    | nil => exact le_rfl
    | cons t tr ih =>
      obtain ⟨ht, htr⟩ := forall_mem_cons.mp he
      have hr := ih htr
      have hrd := ht.lane.read.reads.bytes
      have hpr := ht.lane.inv.perm.length_eq
      rw [map_cons, sum_cons, map_cons, countP_cons, map_cons, sum_cons]
      cases hp : t.lane.pending with
      | none =>
        simp only [hp, toList_none, append_nil, length_append] at hpr
        simp only [isSome_none, Bool.false_eq_true, if_false]
        omega
      | some p =>
        simp only [hp, toList_some, length_append, length_singleton] at hpr
        simp only [isSome_some, if_true]
        omega
  rw [h.perm.length_eq, Reorder.length_concat, h.lanes, h.sources, List.map_map, List.map_map]
  exact htr

end Lanes

/-! ### The loop -/

structure MergeInv (limits : MergeLimits) (sources : List MergeSource) (start : Writer)
    (state : MergeState) (out : List (ℕ × Pending)) : Prop where
  lanes : ∃ tracks, LanesInv limits sources state.lanes tracks out
  output : OutputInv sources start state.mappings state.output out

section Loop

variable {limits : MergeLimits} {sc : List MergeSource} {start : Writer}
  {state state' : MergeState} {out : List (ℕ × Pending)} {index fuel : ℕ} {lane : Lane}
  {current : Pending} {p : MergedInterface → Bytes}

theorem LanesInv.track {lanes : List Lane} {tracks : List Track}
    (h : LanesInv limits sc lanes tracks out) (hl : lanes[index]? = some lane) :
    ∃ t, tracks[index]? = some t ∧ t.lane = lane ∧ sc[index]? = some t.source ∧ t.Inv limits := by
  rw [h.lanes, getElem?_map] at hl
  obtain ⟨t, ht, rfl⟩ := map_eq_some_iff.mp hl
  refine ⟨t, ht, rfl, ?_, h.each t (mem_of_getElem? ht)⟩
  rw [h.sources, getElem?_map, ht]
  rfl

theorem MergeInv.step (h : MergeInv limits sc start state out)
    (hn : takeNext limits.order state.lanes = some index)
    (hla : state.lanes[index]? = some lane) (hp : lane.pending = some current)
    (hs : mergeStep p limits state index lane current = .ok state') :
    MergeInv limits sc start state' (out ++ [(index, current)]) := by
  obtain ⟨tracks, hl⟩ := h.lanes
  obtain ⟨t, ht, rfl, hsr, htr⟩ := hl.track hla
  obtain ⟨⟨id, state₁⟩, hid, hs⟩ := bind_eq_ok.mp hs
  obtain ⟨output, hw, hs⟩ := bind_eq_ok.mp hs
  obtain ⟨⟨lane', counts'⟩, ha, hs⟩ := bind_eq_ok.mp hs
  cases hs
  have hd := htr.lane.read.reads.description current (htr.mem_seen hp)
  obtain ⟨tracks', hl'⟩ := hl.step hn ht hp ha
  unfold outputInterface at hid
  split at hid
  · next hlk =>
    cases hid
    exact ⟨⟨tracks', hl'⟩, h.output.write hlk hw⟩
  · next hlk =>
    obtain ⟨⟨n, output'⟩, hadd, hid⟩ := bind_eq_ok.mp hid
    cases hid
    exact ⟨⟨tracks', hl'⟩, (h.output.describe hlk hsr hd hadd).write lookup_cons_self hw⟩

theorem mergeLoop_ok (h : MergeInv limits sc start state out)
    (hf : (sc.map fun source => source.reader.rest.length).sum ≤ out.length + fuel)
    (hl : mergeLoop p limits fuel state = .ok state') :
    ∃ out', MergeInv limits sc start state' out' ∧ ∀ lane ∈ state'.lanes, lane.pending = none := by
  induction fuel generalizing state out with
  | zero =>
    obtain rfl := ok.inj hl
    refine ⟨out, h, fun lane hla => ?_⟩
    obtain ⟨tracks, hln⟩ := h.lanes
    have hle := hln.length_le
    have hn : (state.lanes.countP fun lane => lane.pending.isSome) = 0 := by omega
    simpa using countP_eq_zero.mp hn lane hla
  | succ fuel ih =>
    rw [mergeLoop] at hl
    split at hl
    · next hn =>
      cases hl
      exact ⟨out, h, takeNext_eq_none hn⟩
    · next index hnx =>
      obtain ⟨lane, current, hla, hp⟩ := exists_of_takeNext hnx
      simp only [hla, hp] at hl
      obtain ⟨state₁, hs, hl⟩ := bind_eq_ok.mp hl
      refine ih (h.step hnx hla hp hs) ?_ hl
      rw [length_append, length_singleton]
      omega

end Loop

/-! ### The start -/

section Start

variable {limits : MergeLimits} {sources : List MergeSource} {lanes lanes' : List Lane}
  {ct ct' : MergeCounts} {index interfaces total : ℕ}

theorem startLanes_ok (h : startLanes limits index interfaces sources = .ok (lanes, total)) :
    Forall₂ (fun source lane => LaneInv limits source lane [] [] ∧ lane.window = [])
      sources lanes := by
  induction sources generalizing index interfaces lanes with
  | nil =>
    cases h
    exact .nil
  | cons source sources ih =>
    obtain ⟨-, h⟩ := rejectIf_bind_eq_ok.mp h
    obtain ⟨_, _, h⟩ := bind_eq_ok.mp h
    obtain ⟨⟨lanes₁, total₁⟩, hr, h⟩ := bind_eq_ok.mp h
    cases h
    refine .cons ⟨⟨⟨rfl, .refl _, rfl⟩, .new _ _, nofun, rfl⟩, rfl⟩ (ih hr)

theorem advanceAll_ok
    (hln : Forall₂ (fun source lane => LaneInv limits source lane [] [] ∧ lane.window = [])
      sources lanes)
    (h : advanceAll limits index lanes ct = .ok (lanes', ct')) :
    ∃ tracks : List Track, lanes' = tracks.map Track.lane ∧ sources = tracks.map Track.source ∧
      ∀ t ∈ tracks, t.Inv limits ∧ t.written = [] := by
  induction hln generalizing index ct lanes' with
  | nil =>
    cases h
    exact ⟨[], rfl, rfl, by simp⟩
  | @cons source lane sources lanes hl _ ih =>
    obtain ⟨⟨lane₁, ct₁⟩, ha, h⟩ := bind_eq_ok.mp h
    obtain ⟨⟨lanes₁, ct₂⟩, hr, h⟩ := bind_eq_ok.mp h
    cases h
    obtain ⟨tracks, rfl, rfl, he⟩ := ih hr
    obtain ⟨more, hl', hd, -, hs⟩ := advance_ok hl.1 ha
    refine ⟨⟨source, lane₁, more, []⟩ :: tracks, rfl, rfl, forall_mem_cons.mpr
      ⟨⟨⟨hl', hd, fun ho => hs ho hl.2⟩, rfl⟩, he⟩⟩

theorem LanesInv.start {tracks : List Track} (hln : lanes = tracks.map Track.lane)
    (hs : sources = tracks.map Track.source)
    (he : ∀ t ∈ tracks, t.Inv limits ∧ t.written = []) :
    LanesInv limits sources lanes tracks [] := by
  have hemp : Reorder.concat 0 (tracks.map Track.written) = [] := by
    refine concat_eq_nil fun l hl => ?_
    obtain ⟨t, ht, rfl⟩ := mem_map.mp hl
    exact (he t ht).2
  exact
    { lanes := hln
      sources := hs
      each := fun t ht => (he t ht).1
      perm := by rw [hemp]
      merged := fun _ => .new _
      appended := fun _ => ⟨hemp.symm, fun _ _ _ t _ _ ht _ =>
        (he t (mem_of_getElem? ht)).2⟩ }

end Start

/-! ### The end -/

/-- A frame of a source, with its position in it, counted from one. -/
structure SourceFrame where
  source : ℕ
  position : ℕ
  frame : Frame

namespace SourceFrame

/-- The order by time, source and position. -/
def Before (a b : SourceFrame) : Prop :=
  ∃ s t, a.frame.timestamp = some s ∧ b.frame.timestamp = some t ∧
    toLex (s.nanos, toLex (a.source, a.position)) < toLex (t.nanos, toLex (b.source, b.position))

/-- The interface of a frame: a frame of a classic file has the one of its header. -/
def origin (x : SourceFrame) : ℕ × UInt32 := (x.source, x.frame.interface.getD 0)

def ofPending (x : ℕ × Pending) : SourceFrame := ⟨x.1, x.2.number, x.2.frame⟩

end SourceFrame

def sourceFrames (sources : List MergeSource) : List SourceFrame :=
  (Reorder.concat 0 (sources.map fun source => source.reader.frames.zipIdx 1)).map
    fun x => ⟨x.1, x.2.2, x.2.1⟩

/-- What a merge of sources writes: the frames `items`, for the interfaces that `id` gives to those
of the sources. -/
structure Merges (limits : MergeLimits) (sources : List MergeSource) (start output : Writer)
    (items : List SourceFrame) (id : ℕ × UInt32 → Option UInt32) : Prop where
  complete : ∀ source ∈ sources, source.reader.ReadsToEnd
  written : ∃ ops ids blocks, start.run ops =
    .ok (ids, blocks, items.map fun x => { x.frame with interface := id x.origin }, output)
  perm : items.Perm (sourceFrames sources)
  sorted : limits.order = .chronological → items.Pairwise SourceFrame.Before
  appended : limits.order = .append → items = sourceFrames sources
  described : ∀ x ∈ items, ∃ interface source description, id x.origin = some interface ∧
    sources[x.source]? = some source ∧
    source.reader.allInterfaces[x.origin.2.toNat]? = some description ∧
    output.state.interfaces[interface.toNat]? = some description
  injective : ∀ a b interface, id a = some interface → id b = some interface → a = b

section Finish

variable {limits : MergeLimits} {ss : List MergeSource} {start : Writer} {state : MergeState}
  {out : List (ℕ × Pending)} {t : Track}

/-- A track whose lane has no frame left has written all frames of its source. -/
theorem Track.Inv.finished (h : t.Inv limits) (hn : t.lane.pending = none) :
    t.source.reader.ReadsToEnd ∧ t.seen.Perm t.written ∧
      t.source.reader.frames.zipIdx 1 = t.seen.map fun p => (p.frame, p.number) := by
  obtain ⟨hw, he⟩ := h.drained hn
  obtain ⟨hf, hen⟩ := h.lane.ended he
  have hr := h.lane.read.reads
  have hp := h.lane.inv.perm
  rw [hn, hw, toList_none, append_nil, append_nil] at hp
  refine ⟨hr.ends.mp hen, hp, ?_⟩
  rw [hr.frames, hf, append_nil, zipIdx_eq_zip_range', length_map, ← hr.numbers, zip_map']

theorem MergeInv.merges (h : MergeInv limits ss start state out)
    (hsn : limits.order = .append → limits.window = 1)
    (hn : ∀ lane ∈ state.lanes, lane.pending = none) :
    Merges limits ss start state.output (out.map SourceFrame.ofPending)
      fun k => state.mappings.lookup k := by
  obtain ⟨tracks, hln⟩ := h.lanes
  have hf {t : Track} (ht : t ∈ tracks) : t.lane.pending = none :=
    hn t.lane (hln.lanes ▸ mem_map_of_mem ht)
  have hall {t : Track} (ht : t ∈ tracks) := (hln.each t ht).finished (hf ht)
  have hs : sourceFrames ss =
      (Reorder.concat 0 (tracks.map Track.seen)).map SourceFrame.ofPending := by
    have hfr : (ss.map fun source => source.reader.frames.zipIdx 1) =
        (tracks.map Track.seen).map (List.map fun p => (p.frame, p.number)) := by
      rw [hln.sources, List.map_map, List.map_map]
      exact map_congr_left fun t ht => (hall ht).2.2
    rw [sourceFrames, hfr, concat_map, List.map_map]
    rfl
  have hr : ∀ x ∈ out, ∃ t ∈ tracks, x.2 ∈ t.seen := by
    intro x hx
    obtain ⟨l, hl, hmem⟩ := exists_of_mem_concat (hln.perm.mem_iff.mp hx)
    obtain ⟨t, ht, rfl⟩ := mem_map.mp hl
    exact ⟨t, ht, (hall ht).2.1.mem_iff.mpr hmem⟩
  have htm : ∀ x ∈ out, x.2.frame.timestamp = some x.2.time := by
    intro x hx
    obtain ⟨t, ht, hmem⟩ := hr x hx
    exact (hln.each t ht).lane.read.reads.times x.2 hmem
  have ho : ∀ x ∈ out, (x.1, x.2.globalInterface) = (SourceFrame.ofPending x).origin := by
    intro x hx
    obtain ⟨t, ht, hmem⟩ := hr x hx
    rw [(hln.each t ht).lane.read.reads.interface x.2 hmem]
    rfl
  refine ⟨?_, ?_, ?_, ?_, ?_, ?_, h.output.injective⟩
  · rw [hln.sources]
    refine forall_mem_map.mpr fun t ht => ?_
    exact (hall ht).1
  · obtain ⟨ops, ids, blocks, hrun⟩ := h.output.written
    refine ⟨ops, ids, blocks, ?_⟩
    have hst : out.map (stored state.mappings) = (out.map SourceFrame.ofPending).map fun x =>
          { x.frame with interface := state.mappings.lookup x.origin } := by
      rw [List.map_map]
      refine map_congr_left fun x hx => ?_
      rw [stored, ho x hx]
      rfl
    rw [← hst, hrun]
  · rw [hs]
    refine Perm.map _ (hln.perm.trans (concat_perm (fun t ht => ?_) 0))
    exact (hall ht).2.1.symm
  · intro hc
    refine pairwise_map.mpr ((hln.merged hc).sorted.imp_of_mem ?_)
    intro a b ha hb hlt
    exact ⟨a.2.time, b.2.time, htm a ha, htm b hb, hlt⟩
  · intro hap
    rw [hs, (hln.appended hap).1]
    refine congrArg (fun l => (Reorder.concat 0 l).map _) (map_congr_left fun t ht => ?_)
    rw [((hln.each t ht).single (hsn hap)).2, hf ht, toList_none, append_nil]
  · intro y hy
    obtain ⟨x, hx, rfl⟩ := mem_map.mp hy
    obtain ⟨id, hid⟩ := h.output.known x hx
    rw [ho x hx] at hid
    obtain ⟨source, description, hsc, hi, hot⟩ := h.output.described _ id hid
    exact ⟨id, source, description, hid, hsc, hi, hot⟩

end Finish

/-! ### Errors -/

section Errors

variable {limits : MergeLimits} {so : List MergeSource} {start : Writer} {state : MergeState}
  {out : List (ℕ × Pending)} {index fuel : ℕ} {pr : MergedInterface → Bytes}

theorem steady_usizeToU32Limit (value : ℕ) : Steady (usizeToU32Limit value) := by
  unfold usizeToU32Limit
  split_ifs
  · exact .ok _
  · exact .error (by simp)

theorem TimestampResolution.steady_toTsresol (resolution : TimestampResolution) :
    Steady resolution.toTsresol := by
  cases resolution <;> rw [toTsresol] <;> split_ifs
  all_goals first | exact .ok _ | exact .error (by simp)

theorem steady_validateNewInterface (d : Interface) (e : List Interface) (ms m : ℕ) :
    Steady (validateNewInterface d e ms m) := by
  refine .bind (TimestampResolution.steady_toTsresol _) fun _ _ => ?_
  refine .reject (by simp) ?_
  refine .reject (by simp) ?_
  refine .reject (by simp) ?_
  refine .reject (by simp) ?_
  exact .pure _

theorem Writer.steady_writeInterface (w : Writer) (e : Endianness) (interfaces : List Interface)
    (d : Interface) (options : List PcapNgOption) :
    Steady (w.writeInterface e interfaces d options) := by
  refine .bind (.reject (by simp) ?_) fun _ _ => .pure _
  refine .bind (steady_usizeToU32Limit _) fun _ _ => ?_
  exact .bind (TimestampResolution.steady_toTsresol _) fun _ _ => .pure _

theorem Writer.steady_addInterfaceDescription (w : Writer) (d : Interface)
    (options : List PcapNgOption) :
    Steady (w.addInterfaceDescriptionWithOptions d options) := by
  refine .reject (by simp) ?_
  refine .reject (by simp) ?_
  split
  · exact .error (by simp)
  · refine .bind (steady_validateNewInterface _ _ _ _) fun _ _ => ?_
    exact .bind (steady_writeInterface _ _ _ _ _) fun _ _ => .pure _

theorem steady_selectInterface (f : Frame) (interfaces : List Interface) (ms m : ℕ) :
    Steady (selectInterface f interfaces ms m) := by
  unfold selectInterface
  split
  · refine .bind (.okOr (by simp)) fun _ _ => ?_
    exact .reject (by simp) (.pure _)
  · split
    · refine .bind (steady_usizeToU32Limit _) fun _ _ => ?_
      exact .bind (steady_validateNewInterface _ _ _ _) fun _ _ => .pure _
    · exact .ok _
    · exact .error (by simp)

theorem steady_timestampToTicks (tm : SystemTime) (resolution : TimestampResolution)
    (o : Int64) : Steady (timestampToTicks tm resolution o) := by
  unfold timestampToTicks
  dsimp only
  split_ifs
  · exact .error (by simp)
  · exact .ok _
  · refine .bind (.okOr (by simp)) fun _ _ => ?_
    refine .reject (by simp) ?_
    refine .reject (by simp) ?_
    refine .reject (by simp) ?_
    exact .reject (by simp) (.pure _)

theorem steady_preparePcapNgFrame (f : Frame) (plan : InterfacePlan) (m : ℕ)
    (b : Budget) : Steady (preparePcapNgFrame f plan m b) := by
  refine .reject (by simp) ?_
  refine .bind (.okOr (by simp)) fun _ _ => ?_
  refine .bind (steady_timestampToTicks _ _ _) fun _ _ => ?_
  refine .reject (by simp) ?_
  refine .reject (by simp) ?_
  exact .reject (by simp) (.pure _)

theorem steady_preparePcapFrame (f : Frame) (p : TimestampPrecision) (s lt : UInt32) (b : Budget) :
    Steady (preparePcapFrame f p s lt b) := by
  refine .bind (.reject (by simp) ?_) fun _ _ => .pure _
  refine .reject (by simp) ?_
  refine .reject (by simp) ?_
  refine .reject (by simp) ?_
  refine .bind (.okOr (by simp)) fun _ _ => ?_
  refine .reject (by simp) ?_
  refine .reject (by simp) ?_
  exact .reject (by simp) (.pure _)

theorem Writer.steady_writeFrame (w : Writer) (f : Frame) : Steady (w.writeFrame f) := by
  have hp : Steady (w.prepareFrame f) := by
    refine .reject (by simp) ?_
    refine .bind (steady_budget_after _ _) fun _ _ => ?_
    split
    · exact steady_preparePcapFrame _ _ _ _ _
    · exact .bind (steady_selectInterface _ _ _ _) fun _ _ => steady_preparePcapNgFrame _ _ _ _
  refine hp.bind fun plan _ => ?_
  split
  · exact .pure _
  · refine .bind ?_ fun _ _ => .pure _
    unfold writeNewInterface
    split
    · exact .ok _
    · exact steady_writeInterface _ _ _ _ _
  · exact .pure _

theorem steady_outputInterface (state : MergeState) (name : String) (current : Pending) :
    Steady (outputInterface pr state index name current) := by
  unfold outputInterface
  split
  · exact .ok _
  · exact .bind (steady_addInterfaceDescription _ _ _) fun _ _ => .pure _

/-- A chronological merge whose sources have no longer inversions than the window goes on without a
clock regression. -/
theorem steady_mergeLoop (h : MergeInv limits so start state out)
    (hr : ∀ source ∈ so, Repairable limits.window source.reader.frames) :
    Steady (mergeLoop pr limits fuel state) := by
  induction fuel generalizing state out with
  | zero => exact .ok _
  | succ fuel ih =>
    rw [mergeLoop]
    split
    · exact .ok _
    · next index hn =>
      obtain ⟨lane, current, hl, hp⟩ := exists_of_takeNext hn
      simp only [hl, hp]
      refine Steady.bind ?_ fun state' hs => ih (h.step hn hl hp hs)
      obtain ⟨tracks, hln⟩ := h.lanes
      obtain ⟨t, -, rfl, hsr, ht⟩ := hln.track hl
      refine .bind (steady_outputInterface _ _ _) fun _ _ => ?_
      refine .bind (steady_writeFrame _ _) fun _ _ => ?_
      refine .bind ?_ fun _ _ => .pure _
      exact advance_steady ht.lane (hr t.source (mem_of_getElem? hsr))

theorem steady_startLanes {interfaces : ℕ} : Steady (startLanes limits index interfaces so) := by
  induction so generalizing index interfaces with
  | nil => exact .ok _
  | cons source so ih =>
    refine .reject (by simp) ?_
    refine .bind (.okOr (by simp)) fun _ _ => ?_
    exact .bind ih fun _ _ => .pure _

theorem steady_advanceAll {lanes : List Lane} {counts : MergeCounts}
    (hl : Forall₂ (fun source lane => LaneInv limits source lane [] [] ∧ lane.window = []) so lanes)
    (hr : ∀ source ∈ so, Repairable limits.window source.reader.frames) :
    Steady (advanceAll limits index lanes counts) := by
  induction hl generalizing index counts with
  | nil => exact .ok _
  | cons hla _ ih =>
    obtain ⟨hs, hsc⟩ := forall_mem_cons.mp hr
    refine .bind (advance_steady hla.1 hs) fun _ _ => ?_
    exact .bind (ih hsc) fun _ _ => .pure _

theorem Limits.steady_validate (limits : Limits) : Steady limits.validate := by
  unfold Limits.validate
  split_ifs
  · exact .error (by simp)
  · exact .error (by simp)
  · exact .ok _

theorem MergeLimits.steady_validate (limits : MergeLimits) : Steady limits.validate := by
  refine .bind (Limits.steady_validate _) fun _ _ => ?_
  refine .reject (by simp) ?_
  refine .reject (by simp) ?_
  exact .rejectIf (by simp)

end Errors

/-! ### The merge -/

section Merge

variable {limits : MergeLimits} {sources : List MergeSource} {output : Writer}
  {provenance : MergedInterface → Bytes}

theorem MergeLimits.window_of_append (h : limits.validate = .ok ())
    (ha : limits.order = .append) : limits.window = 1 := by
  obtain ⟨_, _, h⟩ := bind_eq_ok.mp h
  obtain ⟨-, h⟩ := rejectIf_bind_eq_ok.mp h
  obtain ⟨-, h⟩ := rejectIf_bind_eq_ok.mp h
  have hz := rejectIf_eq_ok.mp h
  unfold MergeLimits.window
  simp only [ha, true_and, not_lt, Nat.le_zero] at hz
  rw [hz]
  rfl

theorem MergeInv.start {lanes lanes' : List Lane} {counts counts' : MergeCounts} {total : ℕ}
    (hf : output.format = .pcapNg) (hl : startLanes limits 0 0 sources = .ok (lanes, total))
    (ha : advanceAll limits 0 lanes counts = .ok (lanes', counts')) :
    MergeInv limits sources output ⟨lanes', counts', [], [], output⟩ [] := by
  obtain ⟨tracks, hl', hs, he⟩ := advanceAll_ok (startLanes_ok hl) ha
  refine ⟨⟨tracks, .start hl' hs he⟩, ⟨[], [], [], rfl⟩, ?_, by simp, by simp, by simp⟩
  unfold Writer.format at hf
  cases hst : output.state with
  | pcap => rw [hst] at hf; cases hf
  | pcapNg => rfl

theorem merges_of_merge {r : MergeReport} {output' : Writer}
    (h : merge provenance sources output limits = .ok (r, output')) :
    ∃ it id, Merges limits sources output output' it id := by
  obtain ⟨_, hv, h⟩ := bind_eq_ok.mp h
  obtain ⟨_, _, h⟩ := bind_eq_ok.mp h
  obtain ⟨-, h⟩ := rejectIf_bind_eq_ok.mp h
  obtain ⟨hf, h⟩ := rejectIf_bind_eq_ok.mp h
  obtain ⟨⟨lanes, total⟩, hl, h⟩ := bind_eq_ok.mp h
  obtain ⟨-, h⟩ := rejectIf_bind_eq_ok.mp h
  obtain ⟨⟨lanes', counts⟩, ha, h⟩ := bind_eq_ok.mp h
  obtain ⟨state, hlp, h⟩ := bind_eq_ok.mp h
  cases h
  have hs := MergeInv.start (not_not.mp hf) hl ha
  obtain ⟨out, hend, hn⟩ := mergeLoop_ok hs (by simp) hlp
  exact ⟨_, _, hend.merges (fun hap => MergeLimits.window_of_append hv hap) hn⟩

theorem steady_merge (hr : ∀ source ∈ sources, Repairable limits.window source.reader.frames) :
    Steady (merge provenance sources output limits) := by
  refine .bind limits.steady_validate fun _ _ => ?_
  refine .bind (.bind (Limits.steady_validate _) fun _ _ => .pure _) fun _ _ => ?_
  refine .reject (by simp) ?_
  refine .bind (.rejectIf (by simp)) fun _ hf => ?_
  refine .bind steady_startLanes fun lanes hl => ?_
  refine .reject (by simp) ?_
  refine .bind (steady_advanceAll (startLanes_ok hl) hr) fun _ ha => ?_
  refine .bind ?_ fun _ _ => .pure _
  exact steady_mergeLoop (MergeInv.start (not_not.mp (rejectIf_eq_ok.mp hf)) hl ha) hr

/-- A merge that succeeds writes all frames of its sources, in chronological order sorted by time,
source and position, in append order one source after the other. Each frame has an interface of the
output whose description is that of its own, and interfaces of different origin are different. A
merge does not fail with a clock regression when the frames of each source that are out of order are
less than the window apart. -/
theorem merge_sorted (provenance : MergedInterface → Bytes) (sources : List MergeSource)
    (output : Writer) (limits : MergeLimits) :
    (∀ report output', merge provenance sources output limits = .ok (report, output') →
      ∃ items id, Merges limits sources output output' items id) ∧
    ((∀ source ∈ sources, Repairable (max limits.maxReorderFrames 1) source.reader.frames) →
      ∀ index frame, merge provenance sources output limits ≠
        .error (.mergeClockRegression index frame)) :=
  ⟨fun _ _ => merges_of_merge, fun hr => (steady_merge hr).ne_error⟩

/-- A classic file with a frame of one byte at each of the given seconds. -/
def secondsCapture (seconds : List UInt8) : Bytes :=
  [0xd4, 0xc3, 0xb2, 0xa1, 2, 0, 4, 0, 0, 0, 0, 0, 0, 0, 0, 0, 64, 0, 0, 0, 1, 0, 0, 0] ++
    seconds.flatMap fun second => [second, 0, 0, 0, 0, 0, 0, 0, 1, 0, 0, 0, 1, 0, 0, 0, 7]

def secondsLimits : MergeLimits := ⟨⟨8, 64⟩, 2, 4, .chronological, 2⟩

/-- Two sources are merged, the first of which is out of order. -/
theorem merge_sorted_seconds : ∃ r r' w report output',
    withLimits (secondsCapture [3, 1, 4]) smallLimits = .ok r ∧
    withLimits (secondsCapture [2, 3]) smallLimits = .ok r' ∧
    pcapngWithOptions .little 4096 4 ⟨8, 64⟩ = .ok w ∧
    merge (fun _ => [0x61]) [⟨"a", r⟩, ⟨"b", r'⟩] w secondsLimits = .ok (report, output') ∧
    ∃ items id, Merges secondsLimits [⟨"a", r⟩, ⟨"b", r'⟩] w output' items id :=
  ⟨_, _, _, _, _, rfl, rfl, rfl, rfl, (merge_sorted (fun _ => [0x61]) _ _ secondsLimits).1 _ _ rfl⟩

end Merge

end PacketCraftr.Capture
