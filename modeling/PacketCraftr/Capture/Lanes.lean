import PacketCraftr.Capture.Lossless
import PacketCraftr.Capture.Merge
import PacketCraftr.Capture.RoundTrip

/-!
# The sources of a merge

What a reader holds is what it returns up to the end of its input: its frames and its interfaces. A
lane of a merge reads the frames of its source in their order, holds some of them in its window, and
takes them out by time and position. `Capture.LaneInv` says how far a lane has come, and
`Capture.advance_ok` what advancing it does.
-/

open List Option Except

namespace PacketCraftr.Capture

open Pending

/-! ### What a reader reads -/

namespace Reader

variable {r r' : Reader} {record : CaptureRecord}

theorem nextRecord_some (h : r.nextRecord = (.ok (some record), r')) :
    r.readRecord = .ok (some (record, r')) := by
  unfold nextRecord at h
  split_ifs at h
  · cases h
  · split at h
    · cases h
      assumption
    · cases h
    · cases h

theorem rest_lt_of_nextRecord (h : r.nextRecord = (.ok (some record), r')) :
    r'.rest.length < r.rest.length := by
  have ht := takes_of_readRecord (nextRecord_some h)
  have := length_pos_iff.mpr ht.ne_nil
  rw [ht.bytes, length_append]
  omega

/-- The records up to the end of the input or to the first error, and the reader after them. -/
def drain : ℕ → Reader → List CaptureRecord × Reader
  | 0, r => ([], r)
  | n + 1, r =>
    match r.nextRecord with
    | (.ok (some record), r') => (record :: (drain n r').1, (drain n r').2)
    | _ => ([], r)

theorem drain_of_stop (h : ∀ record r', r.nextRecord ≠ (.ok (some record), r')) (n : ℕ) :
    r.drain n = ([], r) := by
  cases n with
  | zero => rfl
  | succ n =>
    rw [drain]
    split
    · next hr => exact absurd hr (h _ _)
    · rfl

theorem drain_of_rest_eq_nil (h : r.rest.length = 0) (n : ℕ) : r.drain n = ([], r) :=
  drain_of_stop (fun _ _ hr => absurd (rest_lt_of_nextRecord hr) (by omega)) n

theorem drain_eq {n m : ℕ} (hn : r.rest.length ≤ n) (hm : r.rest.length ≤ m) :
    r.drain n = r.drain m := by
  induction n generalizing m r with
  | zero => rw [drain_of_rest_eq_nil (by omega), drain_of_rest_eq_nil (by omega)]
  | succ n ih =>
    cases m with
    | zero => rw [drain_of_rest_eq_nil (by omega), drain_of_rest_eq_nil (by omega)]
    | succ m =>
      rw [drain, drain]
      split
      · next record r' hr =>
        have := rest_lt_of_nextRecord hr
        have hrs : r'.drain n = r'.drain m := ih (by omega) (by omega)
        rw [hrs]
      · rfl

/-- The frames up to the end of the input or to the first error. -/
def frames (r : Reader) : List Frame :=
  (r.drain r.rest.length).1.filterMap CaptureRecord.frame

/-- The interfaces of the whole input. -/
def allInterfaces (r : Reader) : List Interface := (r.drain r.rest.length).2.interfaces

/-- Reading comes to the end of the input without an error. -/
def ReadsToEnd (r : Reader) : Prop := (r.drain r.rest.length).2.nextRecord.1 = .ok none

section Next

variable {r r' : Reader} {record : CaptureRecord}

section

variable (h : r.nextRecord = (.ok (some record), r'))
include h

theorem drain_of_nextRecord : r.drain r.rest.length =
      (record :: (r'.drain r'.rest.length).1, (r'.drain r'.rest.length).2) := by
  have hlt := rest_lt_of_nextRecord h
  obtain ⟨n, hn⟩ : ∃ n, r.rest.length = n + 1 := ⟨r.rest.length - 1, by omega⟩
  rw [hn, drain, h]
  dsimp only
  rw [drain_eq (n := n) (m := r'.rest.length) (by omega) le_rfl]

theorem frames_of_nextRecord : r.frames = record.frame.toList ++ r'.frames := by
  rw [frames, drain_of_nextRecord h, frames]
  cases hf : record.frame <;> simp [hf]

theorem allInterfaces_of_nextRecord : r.allInterfaces = r'.allInterfaces := by
  rw [allInterfaces, drain_of_nextRecord h, allInterfaces]

theorem readsToEnd_of_nextRecord : r.ReadsToEnd ↔ r'.ReadsToEnd := by
  rw [ReadsToEnd, drain_of_nextRecord h, ReadsToEnd]

end

theorem nextRecord_none (h : r.nextRecord = (.ok none, r')) :
    r'.nextRecord = (.ok none, r') ∧ r'.interfaces = r.interfaces ∧ r'.rest = r.rest := by
  unfold nextRecord at h
  split_ifs at h with hf
  · cases h
    exact ⟨by rw [nextRecord, if_pos hf], rfl, rfl⟩
  · split at h
    · cases h
    · cases h
      exact ⟨rfl, rfl, rfl⟩
    · cases h

theorem drain_of_none (h : r.nextRecord.1 = .ok none) (n : ℕ) : r.drain n = ([], r) :=
  drain_of_stop (fun _ _ hr => by rw [hr] at h; cases h) n

theorem prefix_allInterfaces (r : Reader) : r.interfaces <+: r.allInterfaces := by
  unfold allInterfaces
  generalize r.rest.length = n
  induction n generalizing r with
  | zero => exact prefix_rfl
  | succ n ih =>
    rw [drain]
    split
    · next hr => exact (takes_of_readRecord (nextRecord_some hr)).interfaces.trans (ih _)
    · exact prefix_rfl

end Next

end Reader

/-! ### What was read of a source -/

/-- A reader that was at `start` has read the frames `seen`, in this order. -/
structure Reads (start r : Reader) (seen : List Pending) : Prop where
  frames : start.frames = seen.map Pending.frame ++ r.frames
  interfaces : r.allInterfaces = start.allInterfaces
  ends : r.ReadsToEnd ↔ start.ReadsToEnd
  bytes : seen.length + r.rest.length ≤ start.rest.length
  numbers : seen.map number = List.range' 1 seen.length
  times : ∀ p ∈ seen, p.frame.timestamp = some p.time
  interface : ∀ p ∈ seen, p.globalInterface = p.frame.interface.getD 0
  description : ∀ p ∈ seen,
    start.allInterfaces[p.globalInterface.toNat]? = some p.description

namespace Reads

variable {start r r' : Reader} {seen : List Pending} {record : CaptureRecord}

theorem refl (start : Reader) : Reads start start [] :=
  ⟨rfl, rfl, .rfl, (Nat.zero_add _).le, rfl, by simp, by simp, by simp⟩

section

variable (h : Reads start r seen) (hnx : r.nextRecord = (.ok (some record), r'))
include h hnx

theorem skip {kind : MetadataBlockKind} (hk : record.kind = .metadata kind) :
    Reads start r' seen where
  frames := by
    have hf := (Reader.takes_of_readRecord (Reader.nextRecord_some hnx)).frame kind hk
    rw [h.frames, Reader.frames_of_nextRecord hnx, hf]
    rfl
  interfaces := (Reader.allInterfaces_of_nextRecord hnx).symm.trans h.interfaces
  ends := (Reader.readsToEnd_of_nextRecord hnx).symm.trans h.ends
  bytes := by
    have := Reader.rest_lt_of_nextRecord hnx
    have := h.bytes
    omega
  numbers := h.numbers
  times := h.times
  interface := h.interface
  description := h.description

theorem packet {p : Pending} (hf : record.frame = some p.frame)
    (hn : p.number = seen.length + 1) (ht : p.frame.timestamp = some p.time)
    (hi : p.globalInterface = p.frame.interface.getD 0)
    (hd : r'.interfaces[p.globalInterface.toNat]? = some p.description) :
    Reads start r' (seen ++ [p]) where
  frames := by
    rw [h.frames, Reader.frames_of_nextRecord hnx, hf, map_append, append_assoc]
    rfl
  interfaces := (Reader.allInterfaces_of_nextRecord hnx).symm.trans h.interfaces
  ends := (Reader.readsToEnd_of_nextRecord hnx).symm.trans h.ends
  bytes := by
    have := Reader.rest_lt_of_nextRecord hnx
    have := h.bytes
    rw [length_append, length_singleton]
    omega
  numbers := by
    rw [map_append, h.numbers, length_append, length_singleton, range'_concat]
    simp [hn, Nat.add_comm]
  times := forall_mem_append.mpr ⟨h.times, by simpa using ht⟩
  interface := forall_mem_append.mpr ⟨h.interface, by simpa using hi⟩
  description := by
    refine forall_mem_append.mpr ⟨h.description, forall_mem_singleton.mpr ?_⟩
    rw [← h.interfaces, Reader.allInterfaces_of_nextRecord hnx]
    obtain ⟨later, hlt⟩ := Reader.prefix_allInterfaces r'
    rw [← hlt, getElem?_append_left (List.getElem?_eq_some_iff.mp hd).1, hd]

end

theorem stop (h : Reads start r seen) (hnx : r.nextRecord = (.ok none, r')) :
    Reads start r' seen ∧ r'.frames = [] ∧ r'.ReadsToEnd := by
  obtain ⟨hn, hi, hr⟩ := Reader.nextRecord_none hnx
  have hb := Reader.drain_of_none (by rw [hnx]) r.rest.length
  have ha := Reader.drain_of_none (by rw [hn]) r'.rest.length
  have hf : r'.frames = [] := by rw [Reader.frames, ha]; rfl
  have he : r'.ReadsToEnd := by rw [Reader.ReadsToEnd, ha, hn]
  have he' : r.ReadsToEnd := by rw [Reader.ReadsToEnd, hb, hnx]
  refine ⟨?_, hf, he⟩
  exact
    { frames := by rw [h.frames, hf, Reader.frames, hb]; rfl
      interfaces := by
        rw [← h.interfaces, Reader.allInterfaces, Reader.allInterfaces, ha, hb, hi]
      ends := ⟨fun _ => h.ends.mp he', fun _ => he⟩
      bytes := by rw [hr]; exact h.bytes
      numbers := h.numbers
      times := h.times
      interface := h.interface
      description := h.description }

end Reads

/-! ### Reading a frame -/

/-- A lane has read the frames `seen` of its source. -/
structure Lane.HasRead (source : MergeSource) (lane : Lane) (seen : List Pending) : Prop where
  name : lane.name = source.name
  reads : Reads source.reader lane.reader seen
  count : lane.frames = seen.length

/-- A lane changes only in what it has read. -/
structure Lane.SameWindow (lane lane' : Lane) : Prop where
  previous : lane'.previous = lane.previous
  window : lane'.window = lane.window
  exhausted : lane'.exhausted = lane.exhausted

section ReadFrame

variable {s : MergeSource} {index next fuel : ℕ} {limits : MergeLimits} {lane lane' : Lane}
  {c c' : MergeCounts} {seen : List Pending}

theorem Lane.skip_ok {kind : MetadataBlockKind} (h : lane.skip index kind = .ok lane') :
    lane'.name = lane.name ∧ lane'.reader = lane.reader ∧ lane'.frames = lane.frames ∧
      lane.SameWindow lane' := by
  unfold Lane.skip at h
  split at h
  · cases h
    exact ⟨rfl, rfl, rfl, rfl, rfl, rfl⟩
  · split_ifs at h
    cases h
    exact ⟨rfl, rfl, rfl, rfl, rfl, rfl⟩
  · cases h
    exact ⟨rfl, rfl, rfl, rfl, rfl, rfl⟩

theorem Lane.packet_ok {record : CaptureRecord} {s l : Option ℕ}
    {options : List PcapNgOption} {p : Pending}
    (h : lane.packet index next c record s l options = .ok (p, lane', c')) :
    record.frame = some p.frame ∧ p.number = next ∧ p.frame.timestamp = some p.time ∧
      p.globalInterface = p.frame.interface.getD 0 ∧
      lane.reader.interfaces[p.globalInterface.toNat]? = some p.description ∧
      lane' = { lane with frames := next } := by
  obtain ⟨_, _, h⟩ := bind_eq_ok.mp h
  obtain ⟨frame, hf, h⟩ := bind_eq_ok.mp h
  obtain ⟨time, ht, h⟩ := bind_eq_ok.mp h
  obtain ⟨_, _, h⟩ := bind_eq_ok.mp h
  obtain ⟨d, hd, h⟩ := bind_eq_ok.mp h
  cases h
  exact ⟨okOr_eq_ok.mp hf, rfl, okOr_eq_ok.mp ht, rfl, okOr_eq_ok.mp hd, rfl⟩

variable {rs : Option Pending}

theorem readFrameLoop_ok (hr : lane.HasRead s seen) (hnx : next = seen.length + 1)
    (hf : lane.reader.rest.length ≤ fuel)
    (h : readFrameLoop index next limits fuel lane c = .ok (rs, lane', c')) :
    lane'.HasRead s (seen ++ rs.toList) ∧ lane.SameWindow lane' ∧
      (rs = none → lane'.reader.frames = [] ∧ lane'.reader.ReadsToEnd) := by
  induction fuel generalizing lane c with
  | zero =>
    rw [readFrameLoop] at h
    split at h
    · cases h
    · next record reader hrc =>
      cases h
      have hn : record = none := by
        cases record with
        | none => rfl
        | some record => exact absurd (Reader.rest_lt_of_nextRecord hrc) (by omega)
      obtain ⟨hrd, he⟩ := hr.reads.stop (hn ▸ hrc)
      exact ⟨⟨hr.name, by simpa using hrd, by simpa using hr.count⟩, ⟨rfl, rfl, rfl⟩, fun _ => he⟩
  | succ fuel ih =>
    rw [readFrameLoop] at h
    split at h
    · cases h
    · next reader hrc =>
      cases h
      obtain ⟨hrd, he⟩ := hr.reads.stop hrc
      exact ⟨⟨hr.name, by simpa using hrd, by simpa using hr.count⟩, ⟨rfl, rfl, rfl⟩, fun _ => he⟩
    · next record reader hrc =>
      obtain ⟨interfaces, -, h⟩ := bind_eq_ok.mp h
      split at h
      · next kind hk =>
        obtain ⟨_, _, h⟩ := bind_eq_ok.mp h
        obtain ⟨lane₁, hsk, h⟩ := bind_eq_ok.mp h
        obtain ⟨hna, hrr, hfr, hs⟩ := Lane.skip_ok hsk
        have hlt := Reader.rest_lt_of_nextRecord hrc
        have hr₁ : lane₁.HasRead s seen := ⟨hna.trans hr.name, hrr ▸ hr.reads.skip hrc hk,
            hfr.trans hr.count⟩
        have hf₁ : lane₁.reader.rest.length ≤ fuel := by
          rw [hrr]
          exact Nat.le_of_lt_succ (hlt.trans_le hf)
        obtain ⟨hr', hs', hend⟩ := ih hr₁ hf₁ h
        exact ⟨hr', ⟨hs'.previous.trans hs.previous, hs'.window.trans hs.window,
          hs'.exhausted.trans hs.exhausted⟩, hend⟩
      · obtain ⟨⟨p, lane₁, c₁⟩, hp, h⟩ := bind_eq_ok.mp h
        cases h
        obtain ⟨hfm, hnm, ht, hi, hd, rfl⟩ := Lane.packet_ok hp
        have hrd := hr.reads.packet hrc hfm (hnm.trans hnx) ht hi hd
        refine ⟨⟨hr.name, hrd, ?_⟩, ⟨rfl, rfl, rfl⟩, nofun⟩
        rw [hnx, length_append]
        rfl

theorem readFrame_ok (hr : lane.HasRead s seen)
    (h : readFrame index limits lane c = .ok (rs, lane', c')) :
    lane'.HasRead s (seen ++ rs.toList) ∧ lane.SameWindow lane' ∧
      (rs = none → lane'.reader.frames = [] ∧ lane'.reader.ReadsToEnd) := by
  obtain ⟨next, hnx, h⟩ := bind_eq_ok.mp h
  obtain ⟨-, hnx⟩ := checkedAdd_eq_some.mp (okOr_eq_ok.mp hnx)
  exact readFrameLoop_ok hr (by rw [hnx, hr.count]) le_rfl h

end ReadFrame

/-! ### The window of a lane -/

/-- The order of windows. -/
def Pending.nanos (p : Pending) : ℤ := p.time.nanos

theorem Pending.key_eq : key = Reorder.key nanos number := rfl

section Window

variable {sr : MergeSource} {index room : ℕ} {limits : MergeLimits} {lane lane' : Lane}
  {cn cn' : MergeCounts} {seen taken : List Pending}

/-- What filling a window does: the frames `more` are read and added to it, until the window is full
or the source has ended. -/
theorem fillWindow_ok (hr : lane.HasRead sr seen)
    (he : lane.exhausted = true → lane.reader.frames = [] ∧ lane.reader.ReadsToEnd)
    (h : fillWindow index limits room lane cn = .ok (lane', cn')) :
    ∃ more, lane'.HasRead sr (seen ++ more) ∧ lane'.window = lane.window ++ more ∧
      lane'.previous = lane.previous ∧ (lane.exhausted = true → more = []) ∧
      (lane'.exhausted = true ∨ more.length = room) ∧ more.length ≤ room ∧
      (lane'.exhausted = true → lane'.reader.frames = [] ∧ lane'.reader.ReadsToEnd) := by
  induction room generalizing lane cn seen with
  | zero =>
    cases h
    exact ⟨[], by rwa [append_nil], (append_nil _).symm, rfl, fun _ => rfl, .inr rfl, le_rfl, he⟩
  | succ room ih =>
    rw [fillWindow] at h
    split_ifs at h with hex
    · cases h
      exact ⟨[], by rwa [append_nil], (append_nil _).symm, rfl, fun _ => rfl,
        .inl hex, Nat.zero_le _, he⟩
    · obtain ⟨⟨result, lane₁, cn₁⟩, hf, h⟩ := bind_eq_ok.mp h
      obtain ⟨hr₁, hs, hend⟩ := readFrame_ok hr hf
      cases result with
      | none =>
        cases h
        exact ⟨[], ⟨hr₁.name, by simpa using hr₁.reads, by simpa using hr₁.count⟩,
          hs.window.trans (append_nil _).symm, hs.previous,
          fun ht => absurd ht hex, .inl rfl, Nat.zero_le _, fun _ => hend rfl⟩
      | some p =>
        have hr₂ : Lane.HasRead sr { lane₁ with window := lane₁.window ++ [p] }
            (seen ++ [p]) := ⟨hr₁.name, hr₁.reads, hr₁.count⟩
        obtain ⟨more, hr', hw, hp, -, hfl, hle, he'⟩ := ih hr₂
          (fun ht => absurd (hs.exhausted.symm.trans ht) hex) h
        refine ⟨p :: more, ?_, ?_, hp.trans hs.previous, fun ht => absurd ht hex, ?_, ?_, he'⟩
        · rwa [append_assoc] at hr'
        · rw [hw, hs.window, append_assoc]
          rfl
        · rw [length_cons]
          exact hfl.imp_right fun heq => by rw [heq]
        · rw [length_cons]
          omega

/-- What holds of a lane of which the frames `taken` were taken out, the last of them perhaps not
yet written. -/
structure LaneInv (limits : MergeLimits) (source : MergeSource) (lane : Lane)
    (seen taken : List Pending) : Prop where
  read : lane.HasRead source seen
  inv : Reorder.Inv nanos number limits.window seen taken lane.window
    lane.exhausted
  ended : lane.exhausted = true → lane.reader.frames = [] ∧ lane.reader.ReadsToEnd
  previous : lane.previous = taken.getLast?.map Pending.time

theorem Reads.pairwise_numbers {start r : Reader} (h : Reads start r seen) :
    seen.Pairwise (number · < number ·) := by
  rw [← pairwise_map (f := number), h.numbers]
  exact pairwise_lt_range'

theorem MergeLimits.window_pos (limits : MergeLimits) : 0 < limits.window :=
  Nat.lt_of_lt_of_le Nat.one_pos (Nat.le_max_right _ _)

/-- Advancing a lane takes out its next frame, if there is one. -/
theorem advance_ok (hl : LaneInv limits sr lane seen taken)
    (h : advance index limits lane cn = .ok (lane', cn')) :
    ∃ more, LaneInv limits sr lane' (seen ++ more) (taken ++ lane'.pending.toList) ∧
      (lane'.pending = none → lane'.window = [] ∧ lane'.exhausted = true) ∧
      (limits.order = .chronological → ∀ p ∈ lane'.pending, ∀ q ∈ taken.getLast?, q.key < p.key) ∧
      (limits.window = 1 → lane.window = [] → lane'.window = [] ∧ more = lane'.pending.toList) := by
  obtain ⟨⟨lane₁, cn₁⟩, hf, h⟩ := bind_eq_ok.mp h
  obtain ⟨more, hr, hw, hpr, -, hfu, hlen, he⟩ := fillWindow_ok hl.read hl.ended hf
  have hnm := hr.reads.pairwise_numbers
  refine ⟨more, ?_⟩
  have hwd : lane₁.exhausted = true ∨ limits.window ≤ (lane.window ++ more).length := by
    refine hfu.imp_right fun heq => ?_
    rw [length_append, heq]
    omega
  dsimp only at h
  split at h
  · next hp =>
    cases h
    have hn : lane₁.window = [] := Reorder.popMin_eq_none.mp hp
    have hb : lane.window = [] ∧ more = [] := append_eq_nil_iff.mp (hw ▸ hn)
    have hex : lane₁.exhausted = true := by
      refine hwd.resolve_right fun hle => ?_
      have := limits.window_pos
      rw [hb.1, hb.2] at hle
      exact absurd hle (by simp; omega)
    have hinv := hl.inv.finish
    rw [hb.1, ← hn, ← hex] at hinv
    rw [hb.2, append_nil] at hr ⊢
    refine ⟨⟨⟨hr.name, hr.reads, hr.count⟩, ?_, he, ?_⟩, fun _ => ⟨hn, hex⟩,
      fun _ => by simp, fun _ _ => ⟨hn, rfl⟩⟩
    · rwa [toList_none, append_nil]
    · rw [toList_none, append_nil]
      exact hpr.trans hl.previous
  · next p rest hp =>
    obtain ⟨hrg, h⟩ := rejectIf_bind_eq_ok.mp h
    cases h
    rw [hw, key_eq] at hp
    have hmem : p ∈ lane.window ++ more := (Reorder.perm_popMin hp).mem_iff.mpr mem_cons_self
    refine ⟨⟨⟨hr.name, hr.reads, hr.count⟩, hl.inv.next hnm hwd hp, he, by simp⟩, by simp, ?_, ?_⟩
    · intro hc p' hp' q hq
      obtain rfl : p = p' := by simpa using hp'
      refine hl.inv.key_lt hnm hmem hq ?_
      -- The check has compared the frame with the last one that was taken out.
      rw [hpr, hl.previous, mem_def.mp hq] at hrg
      simpa [hc, nanos] using hrg
    · intro ho hemp
      rw [hemp, ho] at hlen
      rw [hemp, nil_append] at hp
      have hpm := Reorder.perm_popMin hp
      have hs := hpm.length_eq
      rw [length_cons] at hs
      have hrs : rest = [] := length_eq_zero_iff.mp (by simp at hlen; omega)
      rw [hrs] at hpm
      exact ⟨hrs, perm_singleton.mp hpm⟩

theorem Reads.getElem?_number {start r : Reader} (h : Reads start r seen) {k : ℕ} {p : Pending}
    (hp : seen[k]? = some p) : p.number = k + 1 ∧ start.frames[k]? = some p.frame := by
  obtain ⟨hk, -⟩ := List.getElem?_eq_some_iff.mp hp
  constructor
  · have hn : (seen.map number)[k]? = some p.number := by
      rw [getElem?_map, hp, map_some]
    rw [h.numbers, getElem?_range' hk] at hn
    have := Option.some.inj hn
    omega
  · rw [h.frames, getElem?_append_left (by rwa [length_map]), getElem?_map, hp, map_some]

end Window

/-! ### Clock regressions -/

/-- Frames that come before an earlier one come less than `window` before it. -/
def Repairable (window : ℕ) (frames : List Frame) : Prop :=
  ∀ i j a b s t, frames[i]? = some a → frames[j]? = some b → i < j → a.timestamp = some s →
    b.timestamp = some t → t.nanos < s.nanos → j - i < window

/-- A computation that does not end in a clock regression. -/
def Steady {α : Type} (x : Except Error α) : Prop :=
  Outcome (fun e => ∀ index frame, e ≠ .mergeClockRegression index frame) x fun _ => True

namespace Steady

variable {α β : Type} {x : Except Error α} {f : α → Except Error β}

theorem ok (a : α) : Steady (.ok a) := trivial

theorem pure (a : α) : Steady (pure a : Except Error α) := trivial

variable {e : Error}

theorem error (h : ∀ index frame, e ≠ .mergeClockRegression index frame) :
    Steady (.error e : Except Error α) := h

theorem bind (hx : Steady x) (hf : ∀ a, x = .ok a → Steady (f a)) : Steady (x >>= f) :=
  Outcome.bind_eq hx fun a ha _ => hf a ha

section

variable (h : ∀ index frame, e ≠ .mergeClockRegression index frame)
include h

theorem rejectIf {c : Prop} [Decidable c] : Steady (.rejectIf c e) := by
  unfold Except.rejectIf
  split_ifs
  · exact .error h
  · exact .ok ()

theorem reject {c : Prop} [Decidable c] {f : Unit → Except Error β} (hf : Steady (f ())) :
    Steady (.rejectIf c e >>= f) :=
  bind (.rejectIf h) fun _ _ => hf

theorem okOr {o : Option α} : Steady (.okOr o e) := by
  cases o with
  | none => exact .error h
  | some a => exact .ok a

end

theorem mapError {ε : Type} {y : Except ε α} {g : ε → Error}
    (h : ∀ e index frame, g e ≠ .mergeClockRegression index frame) : Steady (y.mapError g) := by
  cases y with
  | error e => exact .error (h e)
  | ok a => exact .ok a

theorem ne_error (h : Steady x) (index frame : ℕ) :
    x ≠ .error (.mergeClockRegression index frame) := by
  rintro rfl
  exact h index frame rfl

end Steady

theorem steady_budget_after (b : Budget) (fb : ℕ) : Steady (b.after fb) := by
  unfold Budget.after
  split
  · exact .error (by simp)
  · split_ifs
    · exact .error (by simp)
    · split
      · exact .error (by simp)
      · split_ifs
        · exact .error (by simp)
        · exact .ok _

section Steady

variable {sc : MergeSource} {index next fuel room : ℕ} {limits : MergeLimits}
  {lane : Lane} {ct : MergeCounts} {seen taken : List Pending}

theorem Lane.steady_skip (kind : MetadataBlockKind) : Steady (lane.skip index kind) := by
  unfold Lane.skip
  split
  · exact .ok _
  · split_ifs
    · exact .error (by simp)
    · exact .ok _
  · exact .ok _

theorem Lane.steady_packet (record : CaptureRecord) (s l : Option ℕ) (options : List PcapNgOption) :
    Steady (lane.packet index next ct record s l options) := by
  refine .bind (.mapError (by simp)) fun _ _ => ?_
  refine .bind (.okOr (by simp)) fun _ _ => ?_
  refine .bind (.okOr (by simp)) fun _ _ => ?_
  refine .bind (steady_budget_after _ _) fun _ _ => ?_
  refine .bind (.okOr (by simp)) fun _ _ => ?_
  exact .pure _

theorem steady_readFrameLoop : Steady (readFrameLoop index next limits fuel lane ct) := by
  induction fuel generalizing lane ct with
  | zero =>
    rw [readFrameLoop]
    split
    · exact .error (by simp)
    · exact .ok _
  | succ fuel ih =>
    rw [readFrameLoop]
    split
    · exact .error (by simp)
    · exact .ok _
    · refine .bind (.okOr (by simp)) fun _ _ => ?_
      split
      · refine .bind (.okOr (by simp)) fun _ _ => ?_
        exact .bind (Lane.steady_skip _) fun _ _ => ih
      · exact .bind (Lane.steady_packet _ _ _ _) fun _ _ => .pure _

theorem steady_fillWindow : Steady (fillWindow index limits room lane ct) := by
  induction room generalizing lane ct with
  | zero => exact .ok _
  | succ room ih =>
    rw [fillWindow]
    split_ifs
    · exact .ok _
    · have hr : Steady (readFrame index limits lane ct) :=
        .bind (.okOr (by simp)) fun _ _ => steady_readFrameLoop
      refine hr.bind fun result _ => ?_
      obtain ⟨_ | p, lane₁, ct₁⟩ := result
      · exact .ok _
      · exact ih

theorem Repairable.of_reads {window : ℕ} {start r : Reader} (h : Repairable window start.frames)
    (hr : Reads start r seen) :
    Reorder.Repairable nanos number window seen := by
  intro a ha b hb hl hlt
  obtain ⟨i, hi⟩ := mem_iff_getElem?.mp ha
  obtain ⟨j, hj⟩ := mem_iff_getElem?.mp hb
  obtain ⟨hn, hf⟩ := hr.getElem?_number hi
  obtain ⟨hn', hf'⟩ := hr.getElem?_number hj
  have := h i j _ _ _ _ hf hf' (by omega) (hr.times a ha) (hr.times b hb) hlt
  omega

/-- Advancing a lane whose inversions are shorter than the window never finds a frame that is
earlier than the last one. -/
theorem advance_steady (hl : LaneInv limits sc lane seen taken)
    (hrp : Repairable limits.window sc.reader.frames) :
    Steady (advance index limits lane ct) := by
  refine steady_fillWindow.bind fun result hf => ?_
  obtain ⟨lane₁, ct₁⟩ := result
  obtain ⟨more, hr, hw, hpr, hm, -, -, -⟩ := fillWindow_ok hl.read hl.ended hf
  dsimp only
  split
  · exact .pure _
  · next p rest hp =>
    rw [hw, key_eq] at hp
    have hmem : p ∈ lane.window ++ more := (Reorder.perm_popMin hp).mem_iff.mpr mem_cons_self
    have hon : ¬ (limits.order = .chronological ∧ lane₁.previous.any (p.time.nanos < ·.nanos)) := by
      rintro ⟨-, hlt⟩
      rw [hpr, hl.previous, Option.any_map] at hlt
      obtain ⟨q, hq, hlt⟩ := (Option.any_eq_true _ _).mp hlt
      have hle := hl.inv.time_le limits.window_pos hr.reads.pairwise_numbers hm
        (hrp.of_reads hr.reads) hmem hq
      exact absurd (of_decide_eq_true hlt) (not_lt.mpr hle)
    rw [rejectIf_neg hon]
    exact .pure _

end Steady

end PacketCraftr.Capture
