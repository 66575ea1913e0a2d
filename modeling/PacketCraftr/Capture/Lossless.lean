import PacketCraftr.Capture.Reader

/-!
# Reading a capture loses nothing

The raw bytes of the header and of the records are the bytes that were read, in order. A record
takes at least one byte, and the blocks of a section stay within its declared length.
-/

open List Except

namespace PacketCraftr.Capture

/-! ### Reads -/

section Reads

variable {i taken rest : Bytes} {n : ℕ} {context : String}

theorem readExactOrEof_some (h : readExactOrEof i n context = .ok (some (taken, rest))) :
    i = taken ++ rest ∧ taken.length = n := by
  unfold readExactOrEof at h
  split_ifs at h with hn hnil
  · obtain ⟨rfl, rfl⟩ : i.take n = taken ∧ i.drop n = rest := by simpa using h
    exact ⟨(take_append_drop n i).symm, length_take_of_le hn⟩
  · cases h

theorem readExactOrEof_none (h : readExactOrEof i n context = .ok none) : i = [] := by
  unfold readExactOrEof at h
  split_ifs at h with hn hnil
  · cases h
  · exact hnil

theorem readExactCounted_ok (h : readExactCounted i n context = .ok (taken, rest)) :
    i = taken ++ rest := by
  obtain ⟨rs, hr, h⟩ := bind_eq_ok.mp h
  cases rs with
  | none => cases h
  | some rs =>
    cases h
    exact (readExactOrEof_some hr).1

theorem readExactAppend_ok (h : readExactAppend i n context = .ok (taken, rest)) :
    i = taken ++ rest ∧ taken.length = n := by
  unfold readExactAppend at h
  split_ifs at h with hn
  obtain ⟨rfl, rfl⟩ : i.take n = taken ∧ i.drop n = rest := by simpa using h
  exact ⟨(take_append_drop n i).symm, length_take_of_le hn⟩

end Reads

/-! ### Classic files -/

section Classic

variable {ip rest : Bytes}

variable {state : PcapState}

theorem readPcapHeader_ok {m : Bytes} {e : Endianness} {p : TimestampPrecision}
    {header : PcapHeader}
    (h : readPcapHeader ip m e p = .ok (state, header, rest)) :
    m ++ ip = header.raw ++ rest := by
  obtain ⟨⟨remaining, rest'⟩, hr, h⟩ := bind_eq_ok.mp h
  obtain ⟨-, h⟩ := rejectIf_bind_eq_ok.mp h
  obtain ⟨-, h⟩ := rejectIf_bind_eq_ok.mp h
  cases h
  rw [readExactCounted_ok hr, append_assoc]

theorem readNextPcapRecord_ok {m : ℕ} {rs : Option (CaptureRecord × Bytes)}
    (h : readNextPcapRecord ip state m = .ok rs) :
    match rs with
    | none => ip = []
    | some (record, rest) => ip = record.raw ++ rest ∧ record.raw ≠ [] ∧
      record.kind = .packet .classic none none [] := by
  obtain ⟨head, hr, h⟩ := bind_eq_ok.mp h
  cases head with
  | none =>
    cases h
    exact readExactOrEof_none hr
  | some head =>
    obtain ⟨-, h⟩ := rejectIf_bind_eq_ok.mp h
    obtain ⟨_, _, h⟩ := bind_eq_ok.mp h
    obtain ⟨-, h⟩ := rejectIf_bind_eq_ok.mp h
    obtain ⟨⟨data, rest₂⟩, hd, h⟩ := bind_eq_ok.mp h
    obtain ⟨_, _, h⟩ := bind_eq_ok.mp h
    obtain ⟨_, _, h⟩ := bind_eq_ok.mp h
    cases h
    obtain ⟨hi, hl⟩ := readExactOrEof_some hr
    refine ⟨?_, ?_, rfl⟩
    · rw [hi, (readExactAppend_ok hd).1, append_assoc]
    · intro hn
      rw [(append_eq_nil_iff.mp hn).1] at hl
      cases hl

end Classic

/-! ### Blocks -/

section Blocks

variable {it rest : Bytes} {limits : ReaderLimits} {s s' : PcapNgState} {all all' : List Interface}
  {record : CaptureRecord}

theorem readSectionHeaderWithLength_ok {rl : Bytes} {ms m : ℕ}
    {b : Option (ℕ × ℕ)} {header : SectionHeader}
    (h : readSectionHeaderWithLength it rl ms m b = .ok (header, rest)) :
    sectionHeaderMagic ++ (rl ++ it) = header.raw ++ rest ∧ header.raw ≠ [] := by
  obtain ⟨⟨bom, rest₁⟩, hb, h⟩ := bind_eq_ok.mp h
  obtain ⟨_, _, h⟩ := bind_eq_ok.mp h
  obtain ⟨_, _, h⟩ := bind_eq_ok.mp h
  obtain ⟨_, _, h⟩ := bind_eq_ok.mp h
  obtain ⟨-, h⟩ := rejectIf_bind_eq_ok.mp h
  obtain ⟨⟨sc, rest₂⟩, hs, h⟩ := bind_eq_ok.mp h
  obtain ⟨-, h⟩ := rejectIf_bind_eq_ok.mp h
  obtain ⟨_, _, h⟩ := bind_eq_ok.mp h
  cases h
  refine ⟨?_, cons_ne_nil _ _⟩
  rw [readExactCounted_ok hb, (readExactAppend_ok hs).1]
  simp only [append_assoc]

variable {block : FramedBlock}

/-- A block is as long as its header says, and ends before its section does. -/
theorem readBlock_ok {rh : Bytes} (h : readBlock it rh s limits = .ok (block, s', rest))
    (hh : rh.length = 8) :
    rh ++ it = block.raw ++ rest ∧ block.raw ≠ [] ∧
      (∀ remaining ∈ s.remainingInSection, block.raw.length ≤ remaining) ∧
      s'.remainingInSection = s.remainingInSection.map (· - block.raw.length) := by
  obtain ⟨_, hv, h⟩ := bind_eq_ok.mp h
  obtain ⟨hb, h⟩ := rejectIf_bind_eq_ok.mp h
  obtain ⟨s₁, ha, h⟩ := bind_eq_ok.mp h
  obtain ⟨⟨data, rest₁⟩, hd, h⟩ := bind_eq_ok.mp h
  obtain ⟨-, h⟩ := rejectIf_bind_eq_ok.mp h
  cases h
  obtain ⟨hi, hl⟩ := readExactAppend_ok hd
  have hln : ¬ field s.endianness rh 4 4 < 12 := fun hlt => (rejectIf_bind_eq_ok.mp hv).1 (.inl hlt)
  have hr : (rh ++ data).length = field s.endianness rh 4 4 := by
    rw [length_append, hh, hl]
    omega
  have hs : s₁.remainingInSection = s.remainingInSection := by
    unfold PcapNgState.accountBlock at ha
    split_ifs at ha
    · obtain ⟨-, ha⟩ := rejectIf_bind_eq_ok.mp ha
      obtain ⟨_, _, ha⟩ := bind_eq_ok.mp ha
      cases ha
      rfl
    · cases ha
      rfl
  refine ⟨?_, ?_, ?_, ?_⟩
  · rw [hi, append_assoc]
  · intro hn
    have hz : (rh ++ data).length = 0 := congrArg List.length hn
    omega
  · intro remaining hrm
    rw [hr]
    by_contra ho
    exact hb (by rw [hrm]; simpa using ho)
  · rw [hr, PcapNgState.commitBlock, hs]

/-- Decoding a block keeps its bytes, and starts no section. It adds at most the interface that it
describes, and then describes no frame. -/
theorem decodeBlock_ok (h : decodeBlock block s all limits = .ok (record, s', all')) :
    (record.raw = block.raw ∧ s'.remainingInSection = s.remainingInSection ∧
      ∀ sec, record.kind ≠ .metadata (.newSection sec)) ∧
    all <+: all' ∧ ∀ kind, record.kind = .metadata kind → record.frame = none := by
  unfold decodeBlock at h
  split_ifs at h
  · obtain ⟨_, _, h⟩ := bind_eq_ok.mp h
    obtain ⟨-, h⟩ := rejectIf_bind_eq_ok.mp h
    obtain ⟨_, _, h⟩ := bind_eq_ok.mp h
    cases h
    exact ⟨⟨rfl, rfl, nofun⟩, prefix_append _ _, fun _ _ => rfl⟩
  · split at h
    · obtain ⟨_, _, h⟩ := bind_eq_ok.mp h
      cases h
      exact ⟨⟨rfl, rfl, nofun⟩, prefix_rfl, nofun⟩
    · obtain ⟨kind, hk, h⟩ := bind_eq_ok.mp h
      cases h
      refine ⟨⟨rfl, rfl, ?_⟩, prefix_rfl, fun _ _ => rfl⟩
      rintro sec ⟨⟩
      unfold metadataKind at hk
      split_ifs at hk
      · cases hk
      · obtain ⟨-, hk⟩ := rejectIf_bind_eq_ok.mp hk
        obtain ⟨-, hk⟩ := rejectIf_bind_eq_ok.mp hk
        cases hk
      · cases hk
      · cases hk

theorem readSectionRecord_ok {rh : Bytes}
    (h : readSectionRecord it rh s all limits = .ok (record, s', rest)) :
    sectionHeaderMagic ++ (rh.drop 4 ++ it) = record.raw ++ rest ∧ record.raw ≠ [] ∧
      record.frame = none ∧
      ∃ sec, record.kind = .metadata (.newSection sec) ∧ s'.remainingInSection = sec.length := by
  obtain ⟨-, h⟩ := rejectIf_bind_eq_ok.mp h
  obtain ⟨⟨header, rest₁⟩, hh, h⟩ := bind_eq_ok.mp h
  obtain ⟨s₁, _, h⟩ := bind_eq_ok.mp h
  obtain ⟨s₂, hs, h⟩ := bind_eq_ok.mp h
  cases h
  obtain ⟨hb, hne⟩ := readSectionHeaderWithLength_ok hh
  obtain ⟨-, hs⟩ := rejectIf_bind_eq_ok.mp hs
  obtain ⟨_, _, hs⟩ := bind_eq_ok.mp hs
  cases hs
  exact ⟨hb, hne, rfl, _, rfl, rfl⟩

end Blocks

/-! ### Sections -/

/-- The blocks of each section fit in its declared length, the first section having some bytes
left. -/
def WithinSections : Option ℕ → List CaptureRecord → Prop
  | _, [] => True
  | remaining, record :: records =>
    match record.kind with
    | .metadata (.newSection sec) => WithinSections sec.length records
    | _ =>
      (∀ bytes ∈ remaining, record.raw.length ≤ bytes) ∧
        WithinSections (remaining.map (· - record.raw.length)) records

/-- The declared length of the section that a file starts with. -/
def CaptureHeader.sectionLength : CaptureHeader → Option ℕ
  | .pcap _ => none
  | .pcapNg sec => sec.length

/-- The bytes that are left of the current section. -/
def Reader.remaining (r : Reader) : Option ℕ :=
  match r.state with
  | .pcap _ => none
  | .pcapNg s => s.remainingInSection

/-- What is left of the section after a record. -/
def remainingAfter (remaining : Option ℕ) (record : CaptureRecord) : Option ℕ :=
  match record.kind with
  | .metadata (.newSection sec) => sec.length
  | _ => remaining.map (· - record.raw.length)

/-- A record that starts a section, or fits in the section. -/
def FitsSection (remaining : Option ℕ) (record : CaptureRecord) : Prop :=
  (∃ sec, record.kind = .metadata (.newSection sec)) ∨
    ∀ bytes ∈ remaining, record.raw.length ≤ bytes

theorem withinSections_cons {remaining : Option ℕ} {record : CaptureRecord}
    {rc : List CaptureRecord} (hf : FitsSection remaining record)
    (hr : WithinSections (remainingAfter remaining record) rc) :
    WithinSections remaining (record :: rc) := by
  unfold WithinSections
  unfold remainingAfter at hr
  split
  · next sec hk => rwa [hk] at hr
  · next hk =>
    refine ⟨hf.resolve_left fun ⟨sec, hs⟩ => hk sec hs, ?_⟩
    split at hr
    · next sec hs => exact absurd hs (hk sec)
    · exact hr

/-! ### The reader -/

namespace Reader

variable {r r' : Reader} {record : CaptureRecord}

/-- A record takes its bytes from the input, and at least one. It adds at most an interface, and a
record of metadata has no frame. -/
structure Takes (r : Reader) (record : CaptureRecord) (r' : Reader) : Prop where
  bytes : r.rest = record.raw ++ r'.rest
  ne_nil : record.raw ≠ []
  fits : FitsSection r.remaining record
  remaining : r'.remaining = remainingAfter r.remaining record
  interfaces : r.interfaces <+: r'.interfaces
  frame : ∀ kind, record.kind = .metadata kind → record.frame = none

theorem readRecord_ok {rs : Option (CaptureRecord × Reader)} (h : r.readRecord = .ok rs) :
    match rs with
    | none => r.rest = []
    | some (record, r') => r.Takes record r' ∧ r'.finished = r.finished := by
  unfold readRecord at h
  cases hs : r.state with
  | pcap state =>
    rw [hs] at h
    obtain ⟨f, hr, h⟩ := bind_eq_ok.mp h
    have hrc := readNextPcapRecord_ok hr
    cases f with
    | none =>
      cases h
      exact hrc
    | some f =>
      cases h
      obtain ⟨hb, hne, hk⟩ := hrc
      have hn : r.remaining = none := by rw [remaining, hs]
      refine ⟨⟨hb, hne, .inr ?_, ?_, prefix_rfl, ?_⟩, rfl⟩
      · rw [hn]
        exact nofun
      · rw [remainingAfter, hk, hn]
        rfl
      · rw [hk]
        exact nofun
  | pcapNg s =>
    rw [hs] at h
    obtain ⟨f, hr, h⟩ := bind_eq_ok.mp h
    have hrm : r.remaining = s.remainingInSection := by rw [remaining, hs]
    obtain ⟨-, hr⟩ := rejectIf_bind_eq_ok.mp hr
    obtain ⟨head, hh, hr⟩ := bind_eq_ok.mp hr
    cases head with
    | none =>
      obtain ⟨-, hr⟩ := rejectIf_bind_eq_ok.mp hr
      cases hr
      cases h
      exact readExactOrEof_none hh
    | some head =>
      obtain ⟨hi, hl⟩ := readExactOrEof_some hh
      dsimp only at hr
      split_ifs at hr with hm
      · obtain ⟨_, hsc, hr⟩ := bind_eq_ok.mp hr
        cases hr
        cases h
        obtain ⟨hb, hne, hf, sec, hk, hlen⟩ := readSectionRecord_ok hsc
        refine ⟨⟨?_, hne, .inl ⟨sec, hk⟩, ?_, prefix_rfl, fun _ _ => hf⟩, rfl⟩
        · rw [hi, ← hb, ← hm, ← append_assoc, take_append_drop]
        · rw [remainingAfter, hk]
          exact hlen
      · obtain ⟨⟨block, s₁, rest₂⟩, hbl, hr⟩ := bind_eq_ok.mp hr
        obtain ⟨⟨record₁, s₂, all₂⟩, hd, hr⟩ := bind_eq_ok.mp hr
        cases hr
        cases h
        obtain ⟨hb, hne, hft, ha⟩ := readBlock_ok hbl hl
        obtain ⟨⟨hraw, hsm, hk⟩, hit, hf⟩ := decodeBlock_ok hd
        rw [← hraw] at hb hne hft ha
        refine ⟨⟨hi.trans hb, hne, .inr (hrm ▸ hft), ?_, hit, hf⟩, rfl⟩
        change s₂.remainingInSection = _
        rw [hsm, ha, hrm]
        unfold remainingAfter
        split
        · next sec hsec => exact absurd hsec (hk sec)
        · rfl

theorem takes_of_readRecord (h : r.readRecord = .ok (some (record, r'))) : r.Takes record r' :=
  (readRecord_ok h).1

theorem withLimits_ok {input : Bytes} {limits : ReaderLimits}
    (h : withLimits input limits = .ok r) :
    input = r.header.raw ++ r.rest ∧ r.remaining = r.header.sectionLength ∧ r.finished = false := by
  obtain ⟨rs, hr, h⟩ := bind_eq_ok.mp h
  cases rs with
  | none => cases h
  | some rs =>
    obtain ⟨hi, -⟩ := readExactOrEof_some hr
    dsimp only at h
    split_ifs at h with hm
    · obtain ⟨⟨header, rest₁⟩, hh, h⟩ := bind_eq_ok.mp h
      cases h
      obtain ⟨⟨length, rest₂⟩, hl, hh⟩ := bind_eq_ok.mp hh
      refine ⟨?_, rfl, rfl⟩
      rw [hi, hm, readExactCounted_ok hl]
      exact (readSectionHeaderWithLength_ok hh).1
    · split at h
      · cases h
      · obtain ⟨⟨state, header, rest₁⟩, hh, h⟩ := bind_eq_ok.mp h
        obtain ⟨-, h⟩ := rejectIf_bind_eq_ok.mp h
        cases h
        exact ⟨hi.trans (readPcapHeader_ok hh), rfl, rfl⟩

/-! ### Calls -/

def returned (results : List (Except Error (Option CaptureRecord))) : List CaptureRecord :=
  results.filterMap fun
    | .ok record => record
    | .error _ => none

/-- What calls of a reader return. -/
structure Trace (r : Reader) (results : List (Except Error (Option CaptureRecord)))
    (r' : Reader) : Prop where
  nonempty : ∀ record ∈ returned results, record.raw ≠ []
  bytes : r.rest = (returned results).flatMap CaptureRecord.raw ++ r'.rest
  within : WithinSections r.remaining (returned results)
  quiet : results.Pairwise fun a b => (∀ record, a ≠ .ok (some record)) → b = .ok none
  ended : r.finished = false → (∀ e, .error e ∉ results) → .ok none ∈ results → r'.rest = []

theorem calls_of_finished (h : r.finished) (n : ℕ) :
    r.calls n = (List.replicate n (.ok none), r) := by
  induction n with
  | zero => rfl
  | succ n ih =>
    rw [calls, nextRecord, if_pos h]
    dsimp only
    rw [ih, replicate_succ]

theorem Trace.silent (a : Except Error (Option CaptureRecord)) (n : ℕ)
    (ha : ∀ record, a ≠ .ok (some record)) (hr : r'.rest = r.rest)
    (he : r.finished = false → a = .ok none → r.rest = []) :
    Trace r (a :: List.replicate n (.ok none)) r' := by
  have hn : returned (a :: List.replicate n (.ok none)) = [] := by
    unfold returned
    rw [filterMap_eq_nil_iff]
    intro b hb
    rcases mem_cons.mp hb with rfl | hb
    · cases b with
      | error e => rfl
      | ok record =>
        cases record with
        | none => rfl
        | some record => exact absurd rfl (ha record)
    · rw [eq_of_mem_replicate hb]
  refine ⟨?_, ?_, ?_, ?_, ?_⟩
  · simp [hn]
  · rw [hn, hr, flatMap_nil, nil_append]
  · rw [hn, WithinSections]
    trivial
  · refine pairwise_cons.mpr ⟨fun b hb _ => eq_of_mem_replicate hb, ?_⟩
    exact pairwise_replicate.mpr (.inr fun _ => rfl)
  · intro hf herr _
    refine hr.trans (he hf ?_)
    cases a with
    | error e => exact absurd mem_cons_self (herr e)
    | ok record =>
      cases record with
      | none => rfl
      | some record => exact absurd rfl (ha record)

theorem trace_calls (r : Reader) (n : ℕ) : Trace r (r.calls n).1 (r.calls n).2 := by
  induction n generalizing r with
  | zero =>
    exact ⟨forall_mem_nil _, rfl, trivial, .nil, fun _ _ h => absurd h not_mem_nil⟩
  | succ n ih =>
    cases hf : r.finished with
    | true =>
      rw [calls_of_finished hf, replicate_succ]
      exact .silent _ n (by simp) rfl (by simp [hf])
    | false =>
      rw [calls, nextRecord, if_neg (by simp [hf])]
      cases hr : r.readRecord with
      | error e =>
        dsimp only
        rw [calls_of_finished rfl]
        exact .silent _ n (by simp) rfl (by simp)
      | ok rs =>
        cases rs with
        | none =>
          dsimp only
          rw [calls_of_finished rfl]
          exact .silent _ n (by simp) rfl fun _ _ => readRecord_ok hr
        | some rs =>
          obtain ⟨record, r'⟩ := rs
          obtain ⟨hb, hne, hft, hrm, -, -⟩ := takes_of_readRecord hr
          have ht := ih r'
          have hc : returned (.ok (some record) :: (r'.calls n).1) =
              record :: returned (r'.calls n).1 := rfl
          refine ⟨?_, ?_, ?_, ?_, ?_⟩
          · rw [hc]
            exact forall_mem_cons.mpr ⟨hne, ht.nonempty⟩
          · rw [hc, flatMap_cons, append_assoc, ← ht.bytes]
            exact hb
          · rw [hc]
            exact withinSections_cons hft (hrm ▸ ht.within)
          · exact pairwise_cons.mpr ⟨fun _ _ h => absurd rfl (h record), ht.quiet⟩
          · intro _ herr hn
            have hn' := (mem_cons.mp hn).resolve_left (by simp)
            exact ht.ended ((readRecord_ok hr).2.trans hf)
              (fun e he => herr e (mem_cons_of_mem _ he)) hn'

theorem length_le_flatMap {rc : List CaptureRecord} (h : ∀ record ∈ rc, record.raw ≠ []) :
    rc.length ≤ (rc.flatMap CaptureRecord.raw).length := by
  induction rc with
  | nil => exact le_rfl
  | cons record rc ih =>
    obtain ⟨hne, hr⟩ := forall_mem_cons.mp h
    have hp := length_pos_iff.mpr hne
    have := ih hr
    rw [flatMap_cons, length_append, length_cons]
    omega

/-- A section of twelve bytes, which a block of an unknown type fills. -/
def smallCapture : Bytes :=
  [0x0a, 0x0d, 0x0d, 0x0a, 28, 0, 0, 0, 0x4d, 0x3c, 0x2b, 0x1a, 1, 0, 0, 0,
    12, 0, 0, 0, 0, 0, 0, 0, 28, 0, 0, 0,
    7, 0, 0, 0, 12, 0, 0, 0, 12, 0, 0, 0]

def smallLimits : ReaderLimits := ⟨64, 2, 2, 2, 64, 4⟩

end Reader

end PacketCraftr.Capture
