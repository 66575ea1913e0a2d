import PacketCraftr.Capture.Writer

/-!
# What the capture writer writes is read back

Each part of a capture file, as the writer encodes it, is decoded to what was encoded: words,
timestamps, option lists, interface descriptions and packets.
-/

open List Except Nat

namespace PacketCraftr.Capture

open TimestampResolution PacketCraftr.Capture.Frame

/-! ### Words -/

section Words

variable (e : Endianness)

theorem field_append_right {a b : Bytes} {o width : ℕ} (h : a.length ≤ o) :
    field e (a ++ b) o width = field e b (o - a.length) width := by
  unfold field
  rw [drop_append, drop_eq_nil_of_le h, nil_append]

theorem field_encode {width n : ℕ} (h : n < 256 ^ width) (b : Bytes) :
    field e (Endian.encode e width n ++ b) 0 width = n := by
  unfold field
  rw [drop_zero, take_left' (Endian.length_encode e width n), Endian.decode_encode e h]

@[simp]
theorem length_u16 (n : ℕ) : (u16 e n).length = 2 := Endian.length_encode e 2 n

@[simp]
theorem length_u32 (n : ℕ) : (u32 e n).length = 4 := Endian.length_encode e 4 n

@[simp]
theorem length_encodeI64 (value : Int64) : (encodeI64 e value).length = 8 :=
  Endian.length_encode e 8 _

theorem field_u16 {n : ℕ} (h : n < 2 ^ 16) (b : Bytes) : field e (u16 e n ++ b) 0 2 = n :=
  field_encode e (show n < 256 ^ 2 from h) b

theorem field_u32 {n : ℕ} (h : n < 2 ^ 32) (b : Bytes) : field e (u32 e n ++ b) 0 4 = n :=
  field_encode e (show n < 256 ^ 4 from h) b

theorem field_u32_self {n : ℕ} (h : n < 2 ^ 32) : field e (u32 e n) 0 4 = n := by
  simpa using field_u32 e h []

theorem field_words {words : List ℕ} (hw : ∀ w ∈ words, w < 2 ^ 32) (tail : Bytes) {k w : ℕ}
    (hk : words[k]? = some w) : field e (words.flatMap (u32 e) ++ tail) (4 * k) 4 = w := by
  induction words generalizing k with
  | nil => simp at hk
  | cons v words ih =>
    obtain ⟨hv, hr⟩ := forall_mem_cons.mp hw
    rw [flatMap_cons, append_assoc]
    cases k with
    | zero =>
      obtain rfl : v = w := by simpa using hk
      exact field_u32 e hv _
    | succ k =>
      rw [field_append_right e (by rw [length_u32]; omega), length_u32,
        show 4 * (k + 1) - 4 = 4 * k by omega]
      exact ih hr (by simpa using hk)

theorem field_words_self {words : List ℕ} (hw : ∀ w ∈ words, w < 2 ^ 32) {k w : ℕ}
    (hk : words[k]? = some w) : field e (words.flatMap (u32 e)) (4 * k) 4 = w := by
  simpa using field_words e hw [] hk

theorem length_words (words : List ℕ) : (words.flatMap (u32 e)).length = 4 * words.length := by
  induction words with
  | nil => rfl
  | cons v words ih =>
    rw [flatMap_cons, length_append, length_u32, ih, length_cons]
    omega

theorem decodeI64_encodeI64 (value : Int64) (b : Bytes) :
    decodeI64 e (encodeI64 e value ++ b) 0 = value := by
  unfold decodeI64 encodeI64
  rw [field_encode e value.toUInt64.toNat_lt]
  apply Int64.toBitVec_inj.mp
  simp

end Words

/-! ### Timestamps -/

theorem SystemTime.ofNanos?_nanos (t : SystemTime) : SystemTime.ofNanos? t.nanos = some t :=
  dif_pos ⟨t.low, t.high⟩

theorem SystemTime.unixFloor_spec (t : SystemTime) :
    t.unixFloor.1 * 1000000000 + t.unixFloor.2 = t.nanos ∧ t.unixFloor.2 < 1000000000 := by
  dsimp only [SystemTime.unixFloor]
  omega

variable {resolution : TimestampResolution} {tc : ℕ} {limits : ReaderLimits}

theorem TimestampResolution.ticksPerSecond_pos (h : resolution.ticksPerSecond = some tc) :
    0 < tc := by
  cases resolution with
  | decimal ex =>
    rw [ticksPerSecond] at h
    split_ifs at h
    obtain rfl := Option.some.inj h
    exact Nat.pow_pos (by omega)
  | binary ex =>
    rw [ticksPerSecond] at h
    split_ifs at h
    obtain rfl := Option.some.inj h
    exact Nat.two_pow_pos _

theorem secondsOfTicks_zero (resolution : TimestampResolution) :
    secondsOfTicks 0 resolution = .ok (0, 0) := by
  unfold secondsOfTicks
  split <;> simp

theorem secondsOfTicks_ticksOfSeconds {sc nn : ℕ} (hn : nn < 1000000000)
    (h : ticksOfSeconds sc nn resolution = .ok tc) :
    tc < 2 ^ 64 ∧ secondsOfTicks tc resolution = .ok (sc, nn) := by
  obtain ⟨tps, ht, h⟩ := bind_eq_ok.mp h
  rw [okOr_eq_ok] at ht
  obtain ⟨-, h⟩ := rejectIf_bind_eq_ok.mp h
  obtain ⟨hwh, h⟩ := rejectIf_bind_eq_ok.mp h
  obtain ⟨-, h⟩ := rejectIf_bind_eq_ok.mp h
  obtain ⟨hw, h⟩ := rejectIf_bind_eq_ok.mp h
  obtain rfl := ok.inj h
  have hp := ticksPerSecond_pos ht
  -- The fraction of a second is a whole number of ticks, less than those of a second.
  set fraction := nn * tps / 1000000000 with hf
  have hs : fraction * 1000000000 = nn * tps := by omega
  have hl : fraction < tps := by
    by_contra ho
    have h₂ : (nn + 1) * tps ≤ 1000000000 * tps := mul_le_mul_right _ (by omega)
    rw [add_mul] at h₂
    omega
  have hq : (sc * tps + fraction) / tps = sc := by
    rw [mul_comm, mul_add_div hp, div_eq_of_lt hl, add_zero]
  have hr : (sc * tps + fraction) % tps = fraction := by
    rw [mul_comm, mul_add_mod, mod_eq_of_lt hl]
  refine ⟨not_le.mp hw, ?_⟩
  simp only [secondsOfTicks, ht, hr, hq, hs, mul_mod_left,
    Nat.mul_div_cancel _ hp, ne_eq, not_true_eq_false, if_false]

theorem timestampFromTicks_timestampToTicks {t : SystemTime} {o : Int64}
    (h : timestampToTicks t resolution o = .ok tc) :
    tc < 2 ^ 64 ∧ timestampFromTicks tc resolution o = .ok t := by
  obtain ⟨hn, hl⟩ := t.unixFloor_spec
  have hm (sc : ℤ) (hs : sc = t.unixFloor.1) :
      systemTimeFromSignedUnix sc t.unixFloor.2 = .ok t := by
    rw [systemTimeFromSignedUnix, hs, hn, t.ofNanos?_nanos, okOr]
  unfold timestampToTicks at h
  dsimp only at h
  split_ifs at h with hng hz
  · obtain rfl := ok.inj h
    refine ⟨Nat.two_pow_pos 64, ?_⟩
    rw [timestampFromTicks, secondsOfTicks_zero]
    have ht := hm ((0 : ℕ) + o.toInt) (by omega)
    rwa [hz.2] at ht
  · obtain ⟨hw, htc⟩ := secondsOfTicks_ticksOfSeconds hl h
    refine ⟨hw, ?_⟩
    rw [timestampFromTicks, htc]
    exact hm _ (by omega)

/-! ### Options -/

theorem le_align4 (n : ℕ) : n ≤ align4 n := by
  unfold align4
  omega

theorem length_padding (n : ℕ) : (padding n).length = align4 n - n := length_replicate

theorem length_writeOption (e : Endianness) (o : PcapNgOption) :
    (writeOption e o).length = 4 + align4 o.value.length := by
  have := le_align4 o.value.length
  simp only [writeOption, length_append, length_u16, length_padding]
  omega

/-- An option that an option list may hold. -/
def PcapNgOption.Plain (o : PcapNgOption) : Prop := o.code ≠ optionEnd ∧ o.value.length < 2 ^ 16

section Options

variable (e : Endianness) (context : String) {m : ℕ}

theorem optionsLoop_end (before : Bytes) (p : List PcapNgOption) (fuel : ℕ) :
    optionsLoop e context m (before ++ endOfOptions e) (fuel + 1) before.length p = .ok p := by
  have hlen : (before ++ endOfOptions e).length = before.length + 4 := by
    simp [endOfOptions]
  have hc : field e (before ++ endOfOptions e) before.length 2 = 0 := by
    rw [field_append_right e le_rfl, Nat.sub_self]
    exact field_u16 e (by decide) _
  have hsz : field e (before ++ endOfOptions e) (before.length + 2) 2 = 0 := by
    rw [field_append_right e (by omega), Nat.add_sub_cancel_left, endOfOptions,
      field_append_right e (by rw [length_u16]), length_u16, Nat.sub_self]
    have := field_u16 e (show 0 < 2 ^ 16 by decide) []
    rwa [append_nil] at this
  have hr : (before ++ endOfOptions e).drop (before.length + 4) = [] := drop_eq_nil_of_le hlen.le
  rw [optionsLoop, if_pos (by omega)]
  rw [if_neg (by omega), hc, if_pos (show UInt16.ofNat 0 = optionEnd from rfl), hsz,
    if_neg (by omega), hr]
  rfl

theorem optionsLoop_cons (before after : Bytes) {o : PcapNgOption} (ho : o.Plain)
    {p : List PcapNgOption} (hr : p.length < m) (fuel : ℕ) :
    optionsLoop e context m (before ++ (writeOption e o ++ after)) (fuel + 1) before.length p =
      optionsLoop e context m (before ++ (writeOption e o ++ after)) fuel
        (before ++ writeOption e o).length (p ++ [o]) := by
  obtain ⟨hend, hl⟩ := ho
  have hlen := length_writeOption e o
  have hs : before.length + 4 + align4 o.value.length = (before ++ writeOption e o).length := by
    rw [length_append, hlen, add_assoc]
  have ht : (before ++ (writeOption e o ++ after)).length =
      before.length + (writeOption e o).length + after.length := by
    simp only [length_append]
    omega
  have hc : UInt16.ofNat (field e (before ++ (writeOption e o ++ after)) before.length 2) =
      o.code := by
    rw [field_append_right e le_rfl, Nat.sub_self, writeOption, append_assoc,
      field_u16 e o.code.toNat_lt, UInt16.ofNat_toNat]
  have hsz : field e (before ++ (writeOption e o ++ after)) (before.length + 2) 2 =
      o.value.length := by
    rw [field_append_right e (by omega), Nat.add_sub_cancel_left, writeOption, append_assoc,
      field_append_right e (by rw [length_u16]), length_u16, Nat.sub_self, append_assoc,
      field_u16 e hl]
  have hv : ((before ++ (writeOption e o ++ after)).drop (before.length + 4)).take
      o.value.length = o.value := by
    have hh : (before ++ (u16 e o.code.toNat ++ u16 e o.value.length)).length =
        before.length + 4 := by simp
    have hsp : before ++ (writeOption e o ++ after) =
        (before ++ (u16 e o.code.toNat ++ u16 e o.value.length)) ++
          (o.value ++ (padding o.value.length ++ after)) := by
      simp only [writeOption, append_assoc]
    rw [hsp, drop_left' hh, take_left]
  rw [optionsLoop, if_pos (by omega)]
  rw [if_neg (by omega), hc, if_neg hend, hsz, if_neg (by omega), if_neg (by omega), hv, hs]

variable {options : List PcapNgOption}

theorem optionsLoop_options (hp : ∀ o ∈ options, o.Plain) (before : Bytes)
    (p : List PcapNgOption) (fuel : ℕ) (hc : p.length + options.length ≤ m)
    (hf : options.length < fuel) :
    optionsLoop e context m
      (before ++ (options.flatMap (writeOption e) ++ endOfOptions e)) fuel before.length p =
      .ok (p ++ options) := by
  induction options generalizing before p fuel with
  | nil =>
    obtain ⟨fuel, rfl⟩ : ∃ n, fuel = n + 1 := ⟨fuel - 1, by simp at hf; omega⟩
    rw [flatMap_nil, nil_append, optionsLoop_end, append_nil]
  | cons o options ih =>
    obtain ⟨ho, hr⟩ := forall_mem_cons.mp hp
    rw [length_cons] at hc hf
    obtain ⟨fuel, rfl⟩ : ∃ n, fuel = n + 1 := ⟨fuel - 1, by omega⟩
    rw [flatMap_cons, append_assoc, optionsLoop_cons e context before _ ho (by omega),
      ← append_assoc before, ih hr _ _ _ (by simp; omega) (by omega), append_assoc,
      singleton_append]

theorem length_le_flatMap_writeOption (options : List PcapNgOption) :
    options.length ≤ (options.flatMap (writeOption e)).length := by
  induction options with
  | nil => exact le_rfl
  | cons o options ih =>
    rw [flatMap_cons, length_append, length_writeOption, length_cons]
    omega

theorem parseOptions_writeOption (hp : ∀ o ∈ options, o.Plain) (hc : options.length ≤ m) :
    parseOptions (options.flatMap (writeOption e) ++ endOfOptions e) e context m = .ok options := by
  refine optionsLoop_options e context hp [] [] _ (by simpa using hc) ?_
  have := length_le_flatMap_writeOption e options
  simp only [length_append, endOfOptions, length_u16]
  omega

end Options

/-! ### Interface descriptions -/

theorem fromTsresol_toTsresol {tsresol : UInt8} (h : resolution.toTsresol = .ok tsresol) :
    fromTsresol tsresol = resolution := by
  cases resolution with
  | decimal ex =>
    rw [toTsresol] at h
    split_ifs at h with hs
    obtain rfl := ok.inj h
    exact if_pos hs
  | binary ex =>
    rw [toTsresol] at h
    split_ifs at h with hs
    obtain rfl := ok.inj h
    have hsum : (ex + 128).toNat = ex.toNat + 128 := by
      rw [UInt8.toNat_add, show (128 : UInt8).toNat = 128 from rfl, mod_eq_of_lt (by omega)]
    rw [fromTsresol, if_neg (by omega), UInt8.add_sub_cancel]

def interfaceBody (e : Endianness) (description : Interface) (options : List PcapNgOption) : Bytes :=
  u16 e description.linkType.toNat ++ (u16 e 0 ++ (u32 e description.snapLen.toNat ++
    (options.flatMap (writeOption e) ++ endOfOptions e)))

section Interface

variable {e : Endianness} {d : Interface} {ts : UInt8}
  {options : List PcapNgOption}

theorem interfaceResolution_eq (ht : d.timestampResolution.toTsresol = .ok ts)
    (hc : ∀ o ∈ options, o.code ≠ optionIfTsresol) :
    interfaceResolution (timestampOptions e ts d.timestampOffset ++ options) =
      .ok d.timestampResolution := by
  have hf : options.filter (·.code = optionIfTsresol) = [] := by
    simpa [filter_eq_nil_iff] using hc
  have hu : uniqueOption (timestampOptions e ts d.timestampOffset ++ options)
      optionIfTsresol "if_tsresol option appears more than once" = .ok (some [ts]) := by
    rw [uniqueOption, filter_append, hf, timestampOptions]
    split_ifs <;> simp [optionIfTsresol, optionIfTsoffset]
  rw [interfaceResolution, hu]
  exact congrArg ok (fromTsresol_toTsresol ht)

theorem interfaceOffset_eq (hc : ∀ o ∈ options, o.code ≠ optionIfTsoffset) :
    interfaceOffset e (timestampOptions e ts d.timestampOffset ++ options) =
      .ok d.timestampOffset := by
  have hf : options.filter (·.code = optionIfTsoffset) = [] := by
    simpa [filter_eq_nil_iff] using hc
  have hlen : (encodeI64 e d.timestampOffset).length = 8 := length_encodeI64 e _
  have hv := decodeI64_encodeI64 e d.timestampOffset []
  rw [append_nil] at hv
  rw [interfaceOffset, uniqueOption, filter_append, hf, timestampOptions]
  split_ifs with hz
  · simp [optionIfTsresol, optionIfTsoffset, hlen, hv, bind, Except.bind, pure, Except.pure]
  · simp only [ne_eq, not_not] at hz
    simp [optionIfTsresol, optionIfTsoffset, hz, bind, Except.bind, pure, Except.pure]

theorem plain_of_not_refused {o : PcapNgOption} (h : ¬ Writer.optionRefused o) :
    o.Plain ∧ o.code ≠ optionIfTsresol ∧ o.code ≠ optionIfTsoffset := by
  simp only [Writer.optionRefused, decide_eq_true_eq, not_or, not_lt] at h
  exact ⟨⟨h.1, by omega⟩, h.2.1, h.2.2.1⟩

theorem plain_timestampOptions (ts : UInt8) (t : Int64) :
    ∀ o ∈ timestampOptions e ts t, o.Plain := by
  intro o ho
  unfold timestampOptions at ho
  split_ifs at ho
  · rcases mem_cons.mp ho with rfl | ho
    · exact ⟨show optionIfTsresol ≠ optionEnd by decide, by simp⟩
    · obtain rfl := mem_singleton.mp ho
      exact ⟨show optionIfTsoffset ≠ optionEnd by decide, by simp⟩
  · obtain rfl := mem_singleton.mp ho
    exact ⟨show optionIfTsresol ≠ optionEnd by decide, by simp⟩

theorem parseInterfaceDescription_write (ht : d.timestampResolution.toTsresol = .ok ts)
    (hl : d.linkType.toNat < 2 ^ 16)
    (hc : ∀ o ∈ options, ¬ Writer.optionRefused o) {maxOptions : ℕ}
    (hcn : (timestampOptions e ts d.timestampOffset ++ options).length ≤ maxOptions) :
    parseInterfaceDescription (interfaceBody e d
        (timestampOptions e ts d.timestampOffset ++ options)) e maxOptions =
      .ok (d, timestampOptions e ts d.timestampOffset ++ options) := by
  set all := timestampOptions e ts d.timestampOffset ++ options with ha
  have hp : ∀ o ∈ all, o.Plain := fun o ho => (mem_append.mp ho).elim
    (plain_timestampOptions _ _ o) fun ho => (plain_of_not_refused (hc o ho)).1
  have hlen : ¬ (interfaceBody e d all).length < 8 := by
    simp only [interfaceBody, length_append, length_u16, length_u32]
    omega
  have hd : (interfaceBody e d all).drop 8 = all.flatMap (writeOption e) ++ endOfOptions e := by
    have hh : (u16 e d.linkType.toNat ++ (u16 e 0 ++ u32 e d.snapLen.toNat)).length = 8 := by simp
    have hs : interfaceBody e d all = (u16 e d.linkType.toNat ++
        (u16 e 0 ++ u32 e d.snapLen.toNat)) ++ (all.flatMap (writeOption e) ++ endOfOptions e) := by
      simp only [interfaceBody, append_assoc]
    rw [hs, drop_left' hh]
  have hln : field e (interfaceBody e d all) 0 2 = d.linkType.toNat := field_u16 e hl _
  have hsn : field e (interfaceBody e d all) 4 4 = d.snapLen.toNat := by
    rw [interfaceBody, field_append_right e (by simp), field_append_right e (by simp)]
    simp only [length_u16]
    exact field_u32 e d.snapLen.toNat_lt _
  have hr : interfaceResolution all = .ok d.timestampResolution :=
    interfaceResolution_eq ht fun o ho => (plain_of_not_refused (hc o ho)).2.1
  have hof : interfaceOffset e all = .ok d.timestampOffset :=
    interfaceOffset_eq fun o ho => (plain_of_not_refused (hc o ho)).2.2
  rw [parseInterfaceDescription, rejectIf_neg hlen, ok_bind, hd,
    parseOptions_writeOption e _ hp hcn, ok_bind, hr, ok_bind,
    hof, ok_bind, hln, hsn, UInt32.ofNat_toNat, UInt32.ofNat_toNat]
  rfl

end Interface

/-! ### Packets -/

def packetWords (interfaceId ticks : ℕ) (frame : Frame) : List ℕ :=
  [interfaceId, ticks / 2 ^ 32, ticks % 2 ^ 32, frame.capturedLength, frame.originalLength]

def packetBody (e : Endianness) (interfaceId ticks : ℕ) (frame : Frame) : Bytes :=
  (packetWords interfaceId ticks frame).flatMap (u32 e) ++
    (frame.bytes ++ (padding frame.capturedLength ++ directionOptions e frame.direction))

def packetOptions (e : Endianness) (direction : Option Direction) : List PcapNgOption :=
  direction.toList.map fun d => ⟨optionEpbFlags, u32 e (directionFlags d)⟩

theorem Frame.tryNew_self (f : Frame) :
    tryNew f.timestamp f.linkType f.capturedLength (UInt32.ofNat f.originalLength) f.bytes =
      .ok { f with interface := none, direction := none } := by
  have ho : (UInt32.ofNat f.originalLength).toNat = f.originalLength :=
    UInt32.toNat_ofNat_of_lt' f.original_lt
  have hle := f.captured_le
  rw [tryNew, dif_neg (by simp [capturedLength]), dif_neg (by rw [ho, capturedLength]; omega)]
  simp only [ho]

theorem Frame.validateDeclaredLengths_eq (f : Frame) {maxSize : ℕ}
    (h : f.capturedLength ≤ maxSize) (context : String) :
    validateDeclaredLengths f.capturedLength f.originalLength maxSize context = .ok () := by
  have hle := f.captured_le
  rw [validateDeclaredLengths, rejectIf_neg (by rw [capturedLength]; omega), ok_bind,
    rejectIf_neg (by omega)]

section Packet

variable {e : Endianness}

section

variable (dr : Option Direction)

theorem parseOptions_directionOptions (context : String)
    {maxOptions : ℕ} (hc : (packetOptions e dr).length ≤ maxOptions) :
    parseOptions (directionOptions e dr) e context maxOptions = .ok (packetOptions e dr) := by
  cases dr with
  | none => rfl
  | some d =>
    have hp : ∀ o ∈ packetOptions e (some d), o.Plain := by
      intro o ho
      obtain rfl := mem_singleton.mp ho
      exact ⟨show optionEpbFlags ≠ optionEnd by decide, by simp⟩
    rw [← parseOptions_writeOption e context hp hc]
    simp [directionOptions, packetOptions]

theorem packetDirection_packetOptions : packetDirection (packetOptions e dr) e = .ok dr := by
  cases dr with
  | none => rfl
  | some d =>
    have hf : field e (u32 e (directionFlags d)) 0 4 = directionFlags d :=
      field_u32_self e (by cases d <;> decide)
    have hu : uniqueOption (packetOptions e (some d)) optionEpbFlags
        "packet flags option appears more than once" = .ok (some (u32 e (directionFlags d))) := by
      simp [uniqueOption, packetOptions]
    rw [packetDirection, hu, ok_bind]
    simp only [length_u32, ne_eq, not_true_eq_false, if_false, hf]
    cases d <;> rfl

theorem length_directionOptions : (directionOptions e dr).length = if dr.isSome then 12 else 0 := by
  cases dr with
  | none => rfl
  | some d =>
    simp only [directionOptions, length_append, length_writeOption, length_u32, endOfOptions,
      length_u16, Option.isSome_some, if_true]
    rfl

end

theorem length_append_padding (bytes : Bytes) :
    (bytes ++ padding bytes.length).length = align4 bytes.length := by
  have := le_align4 bytes.length
  rw [length_append, length_padding]
  omega

theorem length_packetBody (i tc : ℕ) (f : Frame) :
    (packetBody e i tc f).length = 20 + align4 f.capturedLength +
      if f.direction.isSome then 12 else 0 := by
  rw [packetBody, length_append, length_words, ← append_assoc, length_append,
    length_directionOptions, capturedLength, length_append_padding]
  simp only [packetWords, length_cons, length_nil]
  omega

theorem parsePacket_write {interfaces : List Interface} {iface tc base : ℕ}
    {interface : Interface} {f : Frame} {t : SystemTime} {maxSize maxOptions : ℕ}
    (hi : interfaces[iface]? = some interface)
    (hl : interface.linkType = f.linkType)
    (hs : ¬ (interface.snapLen ≠ 0 ∧ f.capturedLength > interface.snapLen.toNat))
    (ht : f.timestamp = some t)
    (htc : timestampToTicks t interface.timestampResolution interface.timestampOffset = .ok tc)
    (hid : base + iface < 2 ^ 32) (hsz : f.capturedLength ≤ maxSize)
    (hc : (packetOptions e f.direction).length ≤ maxOptions) :
    parsePacket (packetBody e iface tc f) e interfaces base maxSize maxOptions false =
      .ok ⟨{ f with interface := some (UInt32.ofNat (base + iface)) }, iface,
        packetOptions e f.direction⟩ := by
  obtain ⟨hwd, htm⟩ := timestampFromTicks_timestampToTicks htc
  have hcp := f.captured_lt
  have ho := f.original_lt
  set body := packetBody e iface tc f with hb
  have hw : ∀ w ∈ packetWords iface tc f, w < 2 ^ 32 := by
    simp only [packetWords, forall_mem_cons, capturedLength]
    refine ⟨by omega, by omega, by omega, hcp, ho, by simp⟩
  have hf {k w : ℕ} (hk : (packetWords iface tc f)[k]? = some w) :
      field e body (4 * k) 4 = w := field_words e hw _ hk
  have hit : field e body 0 4 = iface := hf (k := 0) rfl
  have hh : field e body 4 4 = tc / 2 ^ 32 := hf (k := 1) rfl
  have hlow : field e body 8 4 = tc % 2 ^ 32 := hf (k := 2) rfl
  have hct : field e body 12 4 = f.capturedLength := hf (k := 3) rfl
  have hog : field e body 16 4 = f.originalLength := hf (k := 4) rfl
  have htt : tc / 2 ^ 32 * 2 ^ 32 + tc % 2 ^ 32 = tc := by
    rw [mul_comm, div_add_mod]
  have hd : body.drop 20 = f.bytes ++
      (padding f.capturedLength ++ directionOptions e f.direction) :=
    drop_left' (length_words e _)
  have hbs : (body.drop 20).take f.capturedLength = f.bytes := by
    rw [hd, capturedLength, take_left]
  have hop : body.drop (20 + align4 f.capturedLength) = directionOptions e f.direction := by
    rw [← drop_drop, hd, ← append_assoc, capturedLength, drop_left' (length_append_padding _)]
  have hlen : 20 + align4 f.capturedLength ≤ body.length := by
    rw [hb, length_packetBody]
    omega
  rw [parsePacket, rejectIf_neg (by omega), ok_bind]
  simp only [Bool.false_eq_true, if_false, hit, hh, hlow, hct, hog, htt, hi, hop, hbs]
  rw [f.validateDeclaredLengths_eq hsz, ok_bind, okOr, ok_bind, rejectIf_neg hs,
    ok_bind, rejectIf_neg (by omega), ok_bind,
    parseOptions_directionOptions _ _ hc, ok_bind, packetDirection_packetOptions,
    ok_bind, htm, ok_bind, rejectIf_neg (by omega), ok_bind,
    ← ht, hl, f.tryNew_self]
  rfl

end Packet

/-! ### Blocks -/

section Framed

variable {e : Endianness}

variable {taken rest : Bytes} {limits : ReaderLimits}

section

variable {n : ℕ} (h : taken.length = n) (context : String)
include h context

theorem readExactOrEof_append :
    readExactOrEof (taken ++ rest) n context = .ok (some (taken, rest)) := by
  rw [readExactOrEof, if_pos (by rw [length_append]; omega), take_left' h, drop_left' h]

theorem readExactCounted_append :
    readExactCounted (taken ++ rest) n context = .ok (taken, rest) := by
  rw [readExactCounted, readExactOrEof_append h]
  rfl

theorem readExactAppend_append : readExactAppend (taken ++ rest) n context = .ok (taken, rest) := by
  rw [readExactAppend, if_pos (by rw [length_append]; omega), take_left' h, drop_left' h]

end

/-- A block: its type, its length, its body and its length again. -/
def framed (e : Endianness) (blockType : ℕ) (body : Bytes) : Bytes :=
  [blockType, body.length + 12].flatMap (u32 e) ++ (body ++ u32 e (body.length + 12))

section Framed

variable {blockType : ℕ} {body : Bytes} {s s' : PcapNgState} (he : s.endianness = e)
  (hty : blockType < 2 ^ 32) (hlen : body.length + 12 < 2 ^ 32)
  (hwh : body.length % 4 = 0) (hsz : body.length + 12 ≤ limits.maxSize)
  (hsc : s.remainingInSection = none)
  (hac : s.accountBlock blockType (body.length + 12) limits = .ok s')
  (hsm : s'.endianness = e) (hon : s'.remainingInSection = none)
include he hty hlen hwh hsz hsc hac hsm hon

theorem readBlock_framed : readBlock (body ++ u32 e (body.length + 12) ++ rest)
      ([blockType, body.length + 12].flatMap (u32 e)) s limits =
    .ok (⟨blockType, body, framed e blockType body⟩, s', rest) := by
  have hw : ∀ w ∈ [blockType, body.length + 12], w < 2 ^ 32 := by
    simp only [forall_mem_cons]
    exact ⟨hty, hlen, by simp⟩
  have hb : field e ([blockType, body.length + 12].flatMap (u32 e)) 0 4 = blockType :=
    field_words_self e hw (k := 0) rfl
  have hbc : field e ([blockType, body.length + 12].flatMap (u32 e)) 4 4 =
      body.length + 12 := field_words_self e hw (k := 1) rfl
  have hd : (body ++ u32 e (body.length + 12)).length = body.length + 12 - 8 := by
    rw [length_append, length_u32]
    omega
  have ht : field e (body ++ u32 e (body.length + 12)) body.length 4 = body.length + 12 := by
    rw [field_append_right e le_rfl, Nat.sub_self, field_u32_self e hlen]
  have hc : s'.commitBlock (body.length + 12) = s' := by
    rw [PcapNgState.commitBlock, hon, Option.map_none, ← hon]
  rw [readBlock]
  simp only [he, hb, hbc, hsc]
  rw [validatePcapngBlockLength, rejectIf_neg (by omega), ok_bind,
    rejectIf_neg (by omega), ok_bind, rejectIf_neg (by simp), ok_bind,
    hac, ok_bind, readExactAppend_append hd, ok_bind]
  simp only [hd, hsm, show body.length + 12 - 8 - 4 = body.length by omega, ht]
  rw [rejectIf_neg (by simp), ok_bind, take_left, hc]
  rfl

theorem readNextPcapngRecord_framed (rest : Bytes) (all : List Interface)
    (hm : u32 e blockType ≠ sectionHeaderMagic) :
    readNextPcapngRecord (framed e blockType body ++ rest) s all limits = (do
      let (record, s, all) ← decodeBlock ⟨blockType, body, framed e blockType body⟩ s' all limits
      pure (some (record, s, all, rest))) := by
  have hh : ([blockType, body.length + 12].flatMap (u32 e)).length = 8 := length_words e _
  have ht : ([blockType, body.length + 12].flatMap (u32 e)).take 4 = u32 e blockType := by
    rw [flatMap_cons, take_left' (length_u32 e _)]
  have hs : framed e blockType body ++ rest = [blockType, body.length + 12].flatMap (u32 e) ++
      (body ++ u32 e (body.length + 12) ++ rest) := by
    rw [framed, append_assoc]
  rw [hs, readNextPcapngRecord, hsc, rejectIf_neg (by simp), ok_bind,
    readExactOrEof_append hh, ok_bind]
  dsimp only
  rw [ht, if_neg hm, readBlock_framed he hty hlen hwh hsz hsc hac hsm hon, ok_bind]

end Framed

theorem length_interfaceBody {tsresol : UInt8} (description : Interface)
    (options : List PcapNgOption) :
    (interfaceBody e description
        (timestampOptions e tsresol description.timestampOffset ++ options)).length + 12 =
      interfaceDescriptionLength description.timestampOffset options := by
  have ho : (options.flatMap (writeOption e)).length =
      (options.map fun o => 4 + (o.value.length + 3) / 4 * 4).sum := by
    rw [length_flatMap]
    exact congrArg List.sum (map_congr_left fun o _ => length_writeOption e o)
  have hb : ((timestampOptions e tsresol description.timestampOffset).flatMap
      (writeOption e)).length + 24 = interfaceDescriptionBaseLength description.timestampOffset := by
    unfold timestampOptions interfaceDescriptionBaseLength
    split_ifs with hz hz' <;> simp_all [length_writeOption, align4]
  rw [interfaceDescriptionLength, ← hb, ← ho]
  simp only [interfaceBody, endOfOptions, length_append, flatMap_append, length_u16, length_u32]
  omega

theorem interfaceDescriptionLength_mod (t : Int64) (options : List PcapNgOption) :
    interfaceDescriptionLength t options % 4 = 0 := by
  have hb : interfaceDescriptionBaseLength t % 4 = 0 := by
    unfold interfaceDescriptionBaseLength
    split_ifs <;> rfl
  have ho : (options.map fun o => 4 + (o.value.length + 3) / 4 * 4).sum % 4 = 0 := by
    induction options with
    | nil => rfl
    | cons o options ih =>
      rw [map_cons, sum_cons]
      omega
  unfold interfaceDescriptionLength
  omega

theorem writeInterfaceDescription_ok {description : Interface} {options : List PcapNgOption}
    {bytes : Bytes} (h : writeInterfaceDescription e description options = .ok bytes) :
    interfaceDescriptionLength description.timestampOffset options < 2 ^ 32 ∧
      ∃ tsresol, description.timestampResolution.toTsresol = .ok tsresol ∧
        bytes = framed e blockTypeInterface (interfaceBody e description
          (timestampOptions e tsresol description.timestampOffset ++ options)) := by
  obtain ⟨-, h⟩ := rejectIf_bind_eq_ok.mp h
  obtain ⟨bl, hb, h⟩ := bind_eq_ok.mp h
  obtain ⟨tsresol, ht, h⟩ := bind_eq_ok.mp h
  obtain rfl := ok.inj h
  unfold usizeToU32Limit at hb
  split_ifs at hb with hlen
  obtain rfl := ok.inj hb
  refine ⟨hlen, tsresol, ht, ?_⟩
  rw [UInt32.toNat_ofNat_of_lt' hlen, framed, length_interfaceBody]
  simp only [interfaceBody, flatMap_cons, flatMap_nil, append_nil, append_assoc]

theorem writeEnhancedPacket_eq (i tc : ℕ) (f : Frame) :
    writeEnhancedPacket e i tc ((packetBody e i tc f).length + 12)
      f = framed e blockTypeEnhancedPacket (packetBody e i tc f) := by
  unfold writeEnhancedPacket framed
  simp only [packetBody, packetWords, flatMap_cons, flatMap_nil, append_nil, append_assoc]

end Framed

/-! ### Classic records -/

theorem readNextPcapRecord_write (state : PcapState) {maxSize seconds fraction : ℕ} {f : Frame}
    {t : SystemTime} (rest : Bytes) (ht : f.timestamp = some t)
    (hs : seconds < 2 ^ 32) (hfc : fraction < state.precision.denominator)
    (hn : (seconds * 1000000000 + fraction * state.precision.scale : ℤ) = t.nanos)
    (hl : state.linkType = f.linkType) (hsp : f.capturedLength ≤ state.snapLen.toNat)
    (hsz : f.capturedLength ≤ maxSize) :
    readNextPcapRecord (writePcapFrame state.endianness seconds fraction f ++ rest) state maxSize =
      .ok (some (⟨.packet .classic none none [],
        some { f with interface := none, direction := none }, .pcap,
        writePcapFrame state.endianness seconds fraction f⟩, rest)) := by
  set e := state.endianness
  set words := [seconds, fraction, f.capturedLength, f.originalLength] with hwd
  have hc := f.captured_lt
  have ho := f.original_lt
  have hw : ∀ w ∈ words, w < 2 ^ 32 := by
    have : state.precision.denominator ≤ 2 ^ 32 := by cases state.precision <;> decide
    simp only [hwd, forall_mem_cons, capturedLength]
    exact ⟨hs, by omega, hc, ho, by simp⟩
  have hwt : writePcapFrame e seconds fraction f = words.flatMap (u32 e) ++ f.bytes := by
    simp only [writePcapFrame, hwd, flatMap_cons, flatMap_nil, append_nil, append_assoc]
  have hh : (words.flatMap (u32 e)).length = 16 := length_words e words
  have hsn : field e (words.flatMap (u32 e)) 0 4 = seconds := field_words_self e hw (k := 0) rfl
  have hf : field e (words.flatMap (u32 e)) 4 4 = fraction := field_words_self e hw (k := 1) rfl
  have hct : field e (words.flatMap (u32 e)) 8 4 = f.capturedLength :=
    field_words_self e hw (k := 2) rfl
  have hog : field e (words.flatMap (u32 e)) 12 4 = f.originalLength :=
    field_words_self e hw (k := 3) rfl
  rw [hwt, append_assoc, readNextPcapRecord, readExactOrEof_append hh, ok_bind]
  simp only [show state.endianness = e from rfl, hsn, hf, hct, hog]
  rw [rejectIf_neg (by omega), ok_bind, f.validateDeclaredLengths_eq hsz, ok_bind,
    rejectIf_neg (by omega), ok_bind,
    readExactAppend_append (show f.bytes.length = f.capturedLength from rfl),
    ok_bind, hn, t.ofNanos?_nanos, okOr, ok_bind, ← ht, hl,
    f.tryNew_self]
  rfl

/-! ### Headers -/

/-- A section of unknown length begins, as the writer begins it. -/
theorem withLimits_writeSectionHeader (e : Endianness) (rest : Bytes) (hsz : 28 ≤ limits.maxSize) :
    ∃ r, Reader.withLimits (writeSectionHeader e ++ rest) limits = .ok r ∧ r.rest = rest ∧
      r.state = .pcapNg ⟨e, 0, 0, none, 0, 0⟩ ∧ r.interfaces = [] ∧ r.limits = limits ∧
      r.finished = false := by
  have hm : u32 e 0x0a0d0d0a = sectionHeaderMagic := by cases e <;> rfl
  have ho : sectionEndianness (u32 e 0x1a2b3c4d) = .ok e := by cases e <;> rfl
  have hlen : field e (u32 e 28) 0 4 = 28 := by cases e <;> rfl
  set fields := u16 e 1 ++ (u16 e 0 ++ encodeI64 e (-1)) with hf
  have hs : (fields ++ u32 e 28).length = 28 - 12 := by simp [hf]
  have ht : field e (fields ++ u32 e 28) 12 4 = 28 := by
    rw [field_append_right e (by simp [hf])]
    simpa [hf] using hlen
  have htk : (fields ++ u32 e 28).take 12 = fields := take_left' (by simp [hf])
  have hsp : writeSectionHeader e ++ rest =
      u32 e 0x0a0d0d0a ++ (u32 e 28 ++ (u32 e 0x1a2b3c4d ++ ((fields ++ u32 e 28) ++ rest))) := by
    simp only [writeSectionHeader, hf, append_assoc]
  have hd : sectionFields e fields limits.maxOptionsPerBlock = .ok (1, 0, none, []) := by
    cases e <;> rfl
  have hr : readSectionHeaderAfterType
      (u32 e 28 ++ (u32 e 0x1a2b3c4d ++ ((fields ++ u32 e 28) ++ rest))) limits.maxSize
        limits.maxOptionsPerBlock =
      .ok (⟨e, 1, 0, none, [], 28,
        sectionHeaderMagic ++ (u32 e 28 ++ (u32 e 0x1a2b3c4d ++ (fields ++ u32 e 28)))⟩, rest) := by
    rw [readSectionHeaderAfterType, readExactCounted_append (length_u32 e _), ok_bind]
    dsimp only
    rw [readSectionHeaderWithLength, readExactCounted_append (length_u32 e _), ok_bind]
    dsimp only
    rw [ho, ok_bind]
    simp only [hlen]
    rw [validatePcapngBlockLength, rejectIf_neg (by omega), ok_bind,
      rejectIf_neg (by omega), ok_bind, checkMetadataBudget, ok_bind,
      rejectIf_neg (by omega), ok_bind, readExactAppend_append hs,
      ok_bind]
    simp only [hs]
    rw [ht, rejectIf_neg (by omega), ok_bind, htk, hd]
    rfl
  rw [hsp, Reader.withLimits, readExactOrEof_append (length_u32 e _), ok_bind]
  simp only [hm, if_true]
  rw [hr]
  exact ⟨_, rfl, rfl, rfl, rfl, rfl, rfl⟩

theorem and_ffff_of_le {lt : UInt32} (h : lt.toNat ≤ 0xffff) : lt &&& 0xffff = lt := by
  apply UInt32.toNat_inj.mp
  rw [UInt32.toNat_and, show (0xffff : UInt32).toNat = 2 ^ 16 - 1 from rfl,
    and_two_pow_sub_one_eq_mod, mod_eq_of_lt (by omega)]

theorem withLimits_writePcapHeader (e : Endianness) (precision : TimestampPrecision)
    {snapLen lt : UInt32} (rest : Bytes) (hi : 1 ≤ limits.maxTotalInterfaces)
    (hs : snapLen ≠ 0) (hl : lt.toNat ≤ 0xffff) :
    ∃ r, Reader.withLimits (writePcapHeader e precision snapLen lt ++ rest) limits = .ok r ∧
      r.rest = rest ∧ r.state = .pcap ⟨e, precision, snapLen, lt⟩ ∧
      r.interfaces = [PcapState.interface ⟨e, precision, snapLen, lt⟩] ∧
      r.limits = limits ∧ r.finished = false := by
  have hm : (magic e precision).length = 4 := by cases e <;> cases precision <;> rfl
  have hsc : magic e precision ≠ sectionHeaderMagic := by
    cases e <;> cases precision <;> decide
  have hly : pcapLayout (magic e precision) = some (e, precision) := by
    cases e <;> cases precision <;> rfl
  set version := u16 e 2 ++ u16 e 4 with hv
  set words := [0, 0, snapLen.toNat, lt.toNat] with hw
  have hwd : ∀ w ∈ words, w < 2 ^ 32 := by
    simp only [hw, forall_mem_cons]
    exact ⟨by decide, by decide, snapLen.toNat_lt, lt.toNat_lt, by simp⟩
  have hlen : (version ++ words.flatMap (u32 e)).length = 20 := by
    simp [hv, hw]
  have hsp : writePcapHeader e precision snapLen lt ++ rest =
      magic e precision ++ ((version ++ words.flatMap (u32 e)) ++ rest) := by
    simp only [writePcapHeader, hv, hw, flatMap_cons, flatMap_nil, append_nil, append_assoc]
  have hmj : field e (version ++ words.flatMap (u32 e)) 0 2 = 2 := by
    rw [hv, append_assoc, field_u16 e (by decide)]
  have hmn : field e (version ++ words.flatMap (u32 e)) 2 2 = 4 := by
    rw [hv, append_assoc, field_append_right e (by simp), length_u16, Nat.sub_self,
      field_u16 e (by decide)]
  have hf {k w : ℕ} (hk : words[k]? = some w) :
      field e (version ++ words.flatMap (u32 e)) (4 * k + 4) 4 = w := by
    rw [field_append_right e (by simp [hv])]
    simpa [hv] using field_words_self e hwd hk
  have hsn : field e (version ++ words.flatMap (u32 e)) 12 4 = snapLen.toNat := hf (k := 2) rfl
  have hln : field e (version ++ words.flatMap (u32 e)) 16 4 = lt.toNat := hf (k := 3) rfl
  rw [hsp, Reader.withLimits, readExactOrEof_append hm, ok_bind]
  simp only [hsc, if_false, hly]
  rw [readPcapHeader, readExactCounted_append hlen, ok_bind]
  simp only [hmj, hmn, hsn, hln, UInt32.ofNat_toNat]
  rw [rejectIf_neg (by decide), ok_bind, rejectIf_neg hs, ok_bind]
  simp only [pure, Except.pure, ok_bind]
  rw [rejectIf_neg (by omega), ok_bind, and_ffff_of_le hl]
  exact ⟨_, rfl, rfl, rfl, rfl, rfl, rfl⟩

end PacketCraftr.Capture
