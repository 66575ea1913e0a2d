import PacketCraftr.Http.Collector

/-!
# How a stream is cut makes no difference to its HTTP/1 messages

Every turn of the collector over an input can be split after the first byte: a stretch of a header
is added byte by byte, with the same bytes refused, and a body is consumed byte by byte. The collector
then reads its input as a fold over the bytes, and two deliveries do what one does. The exception is
the configured limit of a body that ends with its connection: when a delivery exceeds it, the bytes
of that delivery are not counted.
-/

open List

namespace PacketCraftr.Http

open Messages Guarded BodyDecoder Fault

/-! ### Lines of the header -/

theorem lineRun_nil : lineRun [] = [] := rfl

theorem lineRun_cons (a : UInt8) (x : Bytes) :
    lineRun (a :: x) = if a = lf then [a] else a :: lineRun x := by
  unfold lineRun
  rw [idxOf?_cons]
  by_cases ha : a = lf
  · rw [if_pos ha, if_pos (beq_iff_eq.mpr ha)]
    rfl
  · rw [if_neg ha, if_neg (fun h => ha (beq_iff_eq.mp h))]
    cases x.idxOf? lf <;> rfl

theorem lineRun_ne_nil {x : Bytes} (h : x ≠ []) : lineRun x ≠ [] := by
  cases x with
  | nil => exact absurd rfl h
  | cons a x =>
    rw [lineRun_cons]
    split_ifs <;> exact cons_ne_nil _ _

/-- A line feed is the last byte of what is added. -/
theorem lineRun_eq_of_head {x : Bytes} (h : (lineRun x).head? = some lf) : lineRun x = [lf] := by
  cases x with
  | nil => cases h
  | cons a x =>
    rw [lineRun_cons] at h ⊢
    split_ifs at h ⊢ with ha
    · rw [ha]
    · exact absurd (Option.some.inj h) ha

variable {a : UInt8} {p : Option UInt8} {header : Bytes}

theorem bareCrlfOffset_of_cr (h : a ≠ lf) (rest : Bytes) :
    bareCrlfOffset (some cr) (a :: rest) = some 0 := by
  rw [bareCrlfOffset, if_pos ⟨rfl, fun hh => h (Option.some.inj hh)⟩]

theorem bareCrlfOffset_of_ne (h : p ≠ some cr) (run : Bytes) :
    bareCrlfOffset p run = bareInside p run := by
  rw [bareCrlfOffset, if_neg (fun hb => h hb.1)]

theorem bareCrlfOffset_singleton (p : Option UInt8) (a : UInt8) :
    bareCrlfOffset p [a] = if isBare p a then some 0 else none := by
  unfold isBare
  by_cases hp : p = some cr
  · subst hp
    by_cases ha : a = lf
    · subst ha
      rfl
    · rw [bareCrlfOffset_of_cr ha]
      simp [ha]
  · rw [bareCrlfOffset_of_ne hp, bareInside]
    by_cases ha : a = lf
    · subst ha
      simp [hp, show lf ≠ cr from by decide]
    · by_cases hc : a = cr
      · subst hc
        simp [hp, show cr ≠ lf from by decide]
      · simp [hp, ha, hc]

theorem bareInside_cons {rest : Bytes} (hc : a ≠ cr) (hr : rest ≠ []) :
    bareInside p (a :: rest) = (bareInside (some a) rest).map (· + 1) := by
  obtain ⟨b, rest, rfl⟩ := exists_cons_of_ne_nil hr
  unfold bareInside
  rw [idxOf?_cons, if_neg (fun h => hc (beq_iff_eq.mp h))]
  cases (b :: rest).idxOf? cr with
  | some i =>
    dsimp only [Option.map_some]
    rw [getElem?_cons_succ]
    cases (b :: rest)[i + 1]? with
    | none => rfl
    | some c =>
      dsimp only
      split_ifs <;> rfl
  | none =>
    dsimp only [Option.map_none]
    rw [getLast?_cons_cons]
    by_cases hl : (b :: rest).getLast? = some lf
    · rw [if_pos hl, if_pos hl, if_pos (show 2 ≤ (a :: b :: rest).length by simp)]
      have hb : (a :: b :: rest)[(a :: b :: rest).length - 2]? =
          if 2 ≤ (b :: rest).length then (b :: rest)[(b :: rest).length - 2]? else some a := by
        cases rest with
        | nil => rfl
        | cons c rest => simp
      rw [hb]
      split_ifs <;> rfl
    · rw [if_neg hl, if_neg hl]
      rfl

/-- A CR or LF is bare at the first byte, or where it is behind that. -/
theorem bareCrlfOffset_cons {rest : Bytes} (ha : a ≠ lf) (hr : rest ≠ [])
    (hl : rest.head? = some lf → rest = [lf]) :
    bareCrlfOffset p (a :: rest) =
      if p = some cr then some 0 else (bareCrlfOffset (some a) rest).map (· + 1) := by
  by_cases hp : p = some cr
  · subst hp
    rw [if_pos rfl, bareCrlfOffset_of_cr ha]
  rw [if_neg hp, bareCrlfOffset_of_ne hp]
  by_cases hc : a = cr
  · subst hc
    obtain ⟨b, rest, rfl⟩ := exists_cons_of_ne_nil hr
    by_cases hb : b = lf
    · rw [hl (by rw [hb]; rfl)]
      rfl
    · rw [bareCrlfOffset_of_cr hb]
      exact if_neg hb
  · rw [bareCrlfOffset_of_ne (fun h => hc (Option.some.inj h)), bareInside_cons hc hr]

/-! ### Soundness -/

/-- The header of a message is within its bound, and a body that has started is not complete. -/
structure Live.Sound (live : Live) : Prop where
  header_le : live.header.length ≤ maxHeaderBytes
  body : live.head.isSome = true → ∃ b, live.body = some b ∧ b.complete = false ∧ b.Sound

/-- Only limits end the analysis. -/
def Fault.IsLimit : Fault → Prop
  | .limit _ => True
  | .unreachable _ => False

theorem ensures_enforce (check : Except LimitError Unit) :
    Ensures IsLimit (enforce check) fun _ => True := by
  refine Ensures.check fun e he => ?_
  cases check with
  | ok _ => cases he
  | error error =>
    cases he
    trivial

namespace Collector

variable {c : Collector} {live : Live}

/-- The limit of some body was reached. -/
def Full (c : Collector) : Prop := ∃ m ∈ c.output, m.error = some (.limit .bodyBytes)

/-- What holds of a collector between two turns: its message is sound, and it is disabled once the
limit of a body was reached. -/
structure Sound (c : Collector) : Prop where
  live : ∀ live, c.live = some live → live.Sound
  full : c.Full → c.disabled = true

theorem ensures_flush (hf : c.Full → c.disabled = true) (status : Status) :
    Ensures IsLimit (c.flush status none) fun d =>
      d.Sound ∧ d.live = none ∧ d.disabled = c.disabled ∧ d.upgraded = c.upgraded := by
  unfold flush
  cases hl : c.live with
  | none => exact .pure ⟨⟨fun live h => (by rw [hl] at h; cases h), hf⟩, hl, rfl, rfl⟩
  | some live =>
    refine (ensures_enforce _).bind fun _ _ => .pure ⟨⟨nofun, ?_⟩, rfl, rfl, rfl⟩
    rintro ⟨m, hm, he⟩
    rcases mem_append.mp hm with hm | hm
    · exact hf ⟨m, hm, he⟩
    · rw [mem_singleton.mp hm] at he
      cases he

theorem ensures_reject (c : Collector) (error : Error) :
    Ensures IsLimit (c.reject error) fun d => d.Sound ∧ d.disabled = true := by
  have hf : Ensures IsLimit (c.flush (failureStatus error) (some error)) fun d =>
      d.live = none := by
    unfold flush
    cases hl : c.live with
    | none => exact .pure hl
    | some live => exact (ensures_enforce _).bind fun _ _ => .pure rfl
  refine hf.bind fun d hd => .pure ⟨⟨fun live h => ?_, fun _ => rfl⟩, rfl⟩
  rw [hd] at h
  cases h

theorem sound_new {framing : Body} {maximum : ℕ}
    (hr : ∀ length, framing = .length length → length ≤ maximum) :
    (new framing maximum).Sound := by
  cases framing with
  | length length =>
    have hle := hr length rfl
    show BodyDecoder.Sound { state := if length = 0 then .done else .length length, maximum }
    unfold BodyDecoder.Sound
    split_ifs with hz
    · trivial
    · show 0 < length ∧ 0 + length ≤ maximum
      omega
  | none | chunked | close | tunnel => trivial

section

variable (hf : c.Full → c.disabled = true) (hh : live.header.length ≤ maxHeaderBytes)
include hf hh

theorem ensures_startBody (framing : Body) :
    Ensures IsLimit (c.startBody live framing) Sound := by
  -- the message goes on, or is complete at once
  have hs : ∀ body : BodyDecoder, body.Sound → Ensures IsLimit (if body.complete then
          flush { c with live := some { live with framing := some framing, body := some body } }
            .complete none
        else pure { c with live := some { live with framing := some framing, body := some body } })
        Sound := by
    intro body hb
    split_ifs with hc
    · refine (ensures_flush ?_ _).mono fun d hd => hd.1
      exact hf
    · refine .pure ⟨fun live' h => ?_, hf⟩
      cases h
      exact ⟨hh, fun _ => ⟨body, rfl, eq_false_of_ne_true hc, hb⟩⟩
  unfold startBody
  cases framing with
  | none => exact hs _ (sound_new nofun)
  | chunked => exact hs _ (sound_new nofun)
  | close => exact hs _ (sound_new nofun)
  | tunnel =>
    refine (ensures_flush ?_ _).mono fun d hd => hd.1
    exact hf
  | length length =>
    dsimp only
    by_cases hl : c.maxBodyBytes < length
    · rw [if_pos hl]
      exact (ensures_reject _ _).mono fun d hd => hd.1
    · rw [if_neg hl]
      refine hs _ (sound_new ?_)
      rintro _ ⟨⟩
      exact Nat.le_of_not_lt hl

theorem ensures_endHeader (hend : crlfCrlf <:+ live.header) :
    Ensures IsLimit (c.endHeader live) Sound := by
  refine (ensures_enforce _).bind fun _ _ => ?_
  cases hpr : parseHead live.header with
  | error error => exact (ensures_reject _ _).mono fun d hd => hd.1
  | ok p =>
    cases p with
    | none => exact absurd hpr (parseHead_ne_none hh hend)
    | some p =>
      obtain ⟨head, length⟩ := p
      dsimp only
      -- the request that the message answers is looked up; what was emitted stays
      have hp : ∀ d : Collector, (d.pairRequest head live).1.output = d.output ∧
          (d.pairRequest head live).1.disabled = d.disabled := by
        intro d
        unfold pairRequest
        split <;> exact ⟨rfl, rfl⟩
      split
      · exact (ensures_reject _ _).mono fun d hd => hd.1
      · refine ensures_startBody ?_ (Nat.zero_le _) _
        rintro ⟨m, hm, he⟩
        rw [(hp _).1] at hm
        rw [(hp _).2]
        exact hf ⟨m, hm, he⟩

end

theorem ensures_settleHeader (hf : c.Full → c.disabled = true) (hh : live.head = none)
    (bare : Bool) : Ensures IsLimit (c.settleHeader live bare) Sound := by
  unfold settleHeader
  split_ifs with hl hb hend
  · exact (ensures_reject _ _).mono fun d hd => hd.1
  · exact (ensures_reject _ _).mono fun d hd => hd.1
  · exact ensures_endHeader hf (Nat.le_of_not_lt hl) hend
  · refine .pure ⟨fun live' h => ?_, hf⟩
    cases h
    exact ⟨Nat.le_of_not_lt hl, fun h => by rw [hh] at h; cases h⟩

variable {x : Bytes}

theorem ensures_headerTurn (hc : c.Sound) (hl : live.Sound) (hh : live.head = none) (hx : x ≠ []) :
    Ensures IsLimit (c.headerTurn live x) fun r => r.1.Sound ∧ 0 < r.2 := by
  refine (ensures_enforce _).bind fun _ _ => ?_
  refine (ensures_settleHeader hc.full ?_ _).bind fun d hd => .pure ⟨hd, ?_⟩
  · exact hh
  · have hr := length_pos_iff.mpr (lineRun_ne_nil hx)
    have hhd := hl.header_le
    cases bareCrlfOffset live.header.getLast? (lineRun x) with
    | none =>
      show 0 < min _ _
      omega
    | some i =>
      show 0 < min _ (i + 1)
      omega

theorem ensures_consumeBody (hc : c.Sound) (hl : live.Sound) (hh : live.head ≠ none) (hx : x ≠ []) :
    Ensures IsLimit (c.consumeBody live x) fun r =>
      r.1.Sound ∧ (0 < r.2 ∨ r.1.halted = true) := by
  obtain ⟨body, hb, ho, hs⟩ := hl.body (Option.isSome_iff_ne_none.mpr hh)
  unfold consumeBody
  rw [hb]
  refine (ensures_enforce _).bind fun _ _ => ?_
  cases hcn : body.consume x with
  | mk body' rs =>
    cases rs with
    | error error =>
      refine (ensures_reject _ _).bind fun d hd => .pure ⟨hd.1, .inr ?_⟩
      show (d.disabled || d.upgraded) = true
      rw [hd.2, Bool.true_or]
    | ok progress =>
      obtain ⟨hs', hcm, hp⟩ := consume_ok hs ho hx hcn
      dsimp only
      split_ifs with hdn
      · refine (ensures_flush ?_ _).bind fun d hd => .pure ⟨hd.1, .inl hp⟩
        exact hc.full
      · refine (Ensures.pure ?_).bind fun d hd => .pure ⟨hd, .inl hp⟩
        refine ⟨fun live' h => ?_, hc.full⟩
        cases h
        refine ⟨hl.header_le, fun _ => ⟨body', rfl, ?_, hs'⟩⟩
        rw [← hcm]
        exact eq_false_of_ne_true hdn

theorem ensures_startMessage (hc : c.Sound) :
    Ensures IsLimit c.startMessage fun d => d.Sound ∧ ∃ live, d.live = some live := by
  unfold startMessage
  cases hl : c.live with
  | some live => exact .pure ⟨hc, live, hl⟩
  | none =>
    refine (ensures_enforce _).bind fun _ _ => .pure ⟨⟨fun live h => ?_, hc.full⟩, _, rfl⟩
    cases h
    exact ⟨Nat.zero_le _, nofun⟩

/-- A turn keeps the collector sound, and takes at least one byte or is the last. -/
theorem ensures_turn (hc : c.Sound) (hx : x ≠ []) : Ensures IsLimit (c.turn x) fun r =>
      r.1.Sound ∧ (0 < r.2 ∨ r.1.halted = true) := by
  refine (ensures_startMessage hc).bind fun d hd => ?_
  obtain ⟨hs, live, hl⟩ := hd
  have hl' := hs.live live hl
  rw [hl]
  dsimp only
  split_ifs with hh
  · refine (ensures_headerTurn hs hl' (Option.isNone_iff_eq_none.mp hh) hx).mono ?_
    exact fun r hr => ⟨hr.1, .inl hr.2⟩
  · exact ensures_consumeBody hs hl' (fun h => hh (by rw [h]; rfl)) hx

theorem ensures_turns (hc : c.Sound) (fuel : ℕ) (x : Bytes) :
    Ensures IsLimit (c.turns fuel x) Sound := by
  induction fuel generalizing c x with
  | zero => exact .pure hc
  | succ fuel ih =>
    rw [turns]
    split_ifs with hs
    · exact .pure hc
    · exact (ensures_turn hc fun h => hs (.inl h)).bind fun r hr => ih hr.1 _

theorem ensures_data (hc : c.Sound) (x : Bytes) : Ensures IsLimit (c.data x) Sound :=
  (ensures_turns hc _ x).bind fun _ hd => (ensures_enforce _).bind fun _ _ => .pure hd

end Collector

/-! ### Splitting a turn within a header -/

/-- How many bytes of the input are added to a header. -/
def headerTake (header x : Bytes) : ℕ :=
  (bareCrlfOffset header.getLast? (lineRun x)).elim
    (min (lineRun x).length (maxHeaderBytes + 1 - header.length))
    fun i => min (min (lineRun x).length (maxHeaderBytes + 1 - header.length)) (i + 1)

/-- Whether one of these bytes is a bare CR or LF. -/
def headerBare (header x : Bytes) : Bool :=
  (bareCrlfOffset header.getLast? (lineRun x)).any (· < headerTake header x)

theorem lineRun_singleton (a : UInt8) : lineRun [a] = [a] := by
  rw [lineRun_cons, lineRun_nil, ite_self]

section

variable (hh : header.length ≤ maxHeaderBytes) (a : UInt8)
include hh

theorem headerTake_singleton : headerTake header [a] = 1 := by
  unfold headerTake
  rw [lineRun_singleton, bareCrlfOffset_singleton, length_singleton]
  split_ifs
  · show min (min 1 _) (0 + 1) = 1
    omega
  · show min 1 _ = 1
    omega

theorem headerBare_singleton : headerBare header [a] = isBare header.getLast? a := by
  unfold headerBare
  rw [headerTake_singleton hh, lineRun_singleton, bareCrlfOffset_singleton]
  cases isBare header.getLast? a <;> rfl

/-- What is added to a header: the first byte, or the first byte and then more of the input. -/
theorem headerTake_cons (x : Bytes) :
    (headerTake header (a :: x) = 1 ∧ headerBare header (a :: x) = headerBare header [a]) ∨
      (x ≠ [] ∧ a ≠ lf ∧ header.length < maxHeaderBytes ∧ headerBare header [a] = false ∧
        headerTake header (a :: x) = headerTake (header ++ [a]) x + 1 ∧
        headerBare header (a :: x) = headerBare (header ++ [a]) x) := by
  have hone := headerTake_singleton hh a
  by_cases hx : x = []
  · subst hx
    exact .inl ⟨hone, rfl⟩
  by_cases ha : a = lf
  · have hr : lineRun (a :: x) = lineRun [a] := by rw [lineRun_singleton, lineRun_cons, if_pos ha]
    left
    unfold headerBare headerTake at *
    rw [hr]
    exact ⟨hone, rfl⟩
  have hb := headerBare_singleton hh a
  have hr : lineRun (a :: x) = a :: lineRun x := by rw [lineRun_cons, if_neg ha]
  have ho : bareCrlfOffset header.getLast? (a :: lineRun x) = _ :=
    bareCrlfOffset_cons ha (lineRun_ne_nil hx) lineRun_eq_of_head
  by_cases hp : header.getLast? = some cr
  · -- the byte stands behind a CR
    rw [if_pos hp] at ho
    have ht : headerTake header (a :: x) = 1 := by
      unfold headerTake
      rw [hr, ho, length_cons]
      show min (min _ _) (0 + 1) = 1
      omega
    refine .inl ⟨ht, ?_⟩
    rw [hb, headerBare, ht, hr, ho, hp]
    simp [isBare, ha]
  rw [if_neg hp] at ho
  have hf : headerBare header [a] = false := by
    rw [hb]
    simp [isBare, ha, hp]
  by_cases hrm : header.length = maxHeaderBytes
  · -- there is room for one byte more than a header may have
    have ht : headerTake header (a :: x) = 1 := by
      unfold headerTake
      rw [hr, ho, length_cons]
      cases bareCrlfOffset (some a) (lineRun x) with
      | none =>
        show min _ _ = 1
        omega
      | some i =>
        show min (min _ _) (i + 1 + 1) = 1
        omega
    refine .inl ⟨ht, ?_⟩
    rw [hf, headerBare, ht, hr, ho]
    cases bareCrlfOffset (some a) (lineRun x) with
    | none => rfl
    | some i =>
      show decide (i + 1 < 1) = false
      exact decide_eq_false (by omega)
  · have hl : (header ++ [a]).getLast? = some a := getLast?_concat
    have ht : headerTake header (a :: x) = headerTake (header ++ [a]) x + 1 := by
      unfold headerTake
      rw [hr, ho, hl, length_cons, length_append, length_singleton]
      cases bareCrlfOffset (some a) (lineRun x) with
      | none =>
        show min _ _ = min _ _ + 1
        omega
      | some i =>
        show min (min _ _) (i + 1 + 1) = min (min _ _) (i + 1) + 1
        omega
    refine .inr ⟨hx, ha, by omega, hf, ht, ?_⟩
    rw [headerBare, headerBare, ht, hr, ho, hl]
    cases bareCrlfOffset (some a) (lineRun x) with
    | none => rfl
    | some i =>
      show decide (i + 1 < _ + 1) = decide (i < _)
      simp only [Nat.add_lt_add_iff_right]

end

namespace Collector

variable {c : Collector} {live : Live}

theorem value_headerTurn (c : Collector) (live : Live) (x : Bytes) : (c.headerTurn live x).value =
      ((c.settleHeader
          { live with header := live.header ++ (lineRun x).take (headerTake live.header x) }
          (headerBare live.header x)).value,
        headerTake live.header x) := rfl

theorem settleHeader_open (hh : live.header.length < maxHeaderBytes) {a : UInt8} (ha : a ≠ lf) :
    c.settleHeader { live with header := live.header ++ [a] } false =
      pure { c with live := some { live with header := live.header ++ [a] } } := by
  unfold settleHeader
  have hlen : ¬ maxHeaderBytes < (live.header ++ [a]).length := by
    rw [length_append, length_singleton]
    omega
  have hend : ¬ crlfCrlf <:+ live.header ++ [a] := by
    rintro ⟨front, hf⟩
    have hl := congrArg List.getLast? hf
    rw [getLast?_append, getLast?_append] at hl
    exact ha (Option.some.inj hl).symm
  rw [if_neg hlen, if_neg Bool.false_ne_true, if_neg hend]

/-- A turn within a header takes the first byte, or takes it and then more of the input. -/
theorem headerTurn_cons (hl : live.Sound) (a : UInt8) (x : Bytes) :
    (c.headerTurn live [a]).value.2 = 1 ∧
      ((c.headerTurn live (a :: x)).value = (c.headerTurn live [a]).value ∨
        (x ≠ [] ∧ ∃ live', live'.head = live.head ∧
          (c.headerTurn live [a]).value = ({ c with live := some live' }, 1) ∧
          (c.headerTurn live (a :: x)).value =
            ((headerTurn { c with live := some live' } live' x).value.1,
              (headerTurn { c with live := some live' } live' x).value.2 + 1))) := by
  have ho := headerTake_singleton hl.header_le a
  refine ⟨ho, ?_⟩
  have hf : (lineRun (a :: x)).take 1 = [a] := by
    rw [lineRun_cons]
    split_ifs <;> rfl
  have hv : (c.headerTurn live [a]).value =
      ((c.settleHeader { live with header := live.header ++ [a] }
          (headerBare live.header [a])).value, 1) := by
    rw [value_headerTurn, ho, lineRun_singleton]
    rfl
  rcases headerTake_cons hl.header_le a x with
    ⟨ht, hb⟩ | ⟨hx, ha, hr, hb, ht, hb'⟩
  · left
    rw [hv, value_headerTurn, ht, hb, hf]
  · refine .inr ⟨hx, { live with header := live.header ++ [a] }, rfl, ?_, ?_⟩
    · rw [hv, hb, settleHeader_open hr ha]
      rfl
    · rw [value_headerTurn, value_headerTurn, ht, hb', lineRun_cons, if_neg ha, take_succ_cons]
      simp only [append_assoc, singleton_append]
      rfl

/-! ### Splitting a turn within a body -/

/-- A message that goes on with another state of its body. -/
def withBody (c : Collector) (live : Live) (body : BodyDecoder) : Collector :=
  { c with live := some { live with body := some body } }

variable {body : BodyDecoder}

theorem value_consumeBody (hb : live.body = some body) (x : Bytes) : (c.consumeBody live x).value =
      match body.consume x with
      | (body, .error error) => (((c.withBody live body).reject error).value, 0)
      | (body, .ok progress) =>
        ((if progress.complete then (c.withBody live body).flush .complete none
          else pure (c.withBody live body)).value, progress.consumed) := by
  unfold consumeBody
  rw [hb]
  dsimp only
  cases body.consume x with
  | mk body' r =>
    cases r with
    | error error => rfl
    | ok progress =>
      dsimp only
      by_cases hc : progress.complete = true
      · rw [if_pos hc, if_pos hc]
        rfl
      · rw [if_neg hc, if_neg hc]
        rfl

/-- A body whose limit is reached is reported so. -/
theorem full_reject (c : Collector) (live : Live) (body : BodyDecoder) :
    ((c.withBody live body).reject (.limit .bodyBytes)).value.Full :=
  ⟨_, mem_append_right _ (mem_singleton_self _), rfl⟩

theorem halted_reject (c : Collector) (error : Error) : (c.reject error).value.halted = true :=
  Bool.true_or _

/-- A turn within a body takes the first byte, or takes it and then more of the input. -/
theorem consumeBody_cons (hb : live.body = some body) (hs : body.Sound)
    (hop : body.complete = false) (a : UInt8) {x : Bytes}
    (hg : ¬ (c.consumeBody live (a :: x)).value.1.Full) :
    ((c.consumeBody live (a :: x)).value = (c.consumeBody live [a]).value ∧
        ((c.consumeBody live [a]).value.1.halted = true ∨ (c.consumeBody live [a]).value.2 = 1)) ∨
      ∃ live', live'.head = live.head ∧
        (c.consumeBody live [a]).value = ({ c with live := some live' }, 1) ∧
        (c.consumeBody live (a :: x)).value.1 =
          (consumeBody { c with live := some live' } live' x).value.1 ∧
        ((c.consumeBody live (a :: x)).value.1.halted = true ∨
          (c.consumeBody live (a :: x)).value.2 =
            1 + (consumeBody { c with live := some live' } live' x).value.2) := by
  rw [value_consumeBody hb] at hg ⊢
  rw [value_consumeBody hb]
  have hr : (body.consume (a :: x)).2 ≠ .error (.limit .bodyBytes) := by
    intro hf
    cases hc : body.consume (a :: x) with
    | mk body' r =>
      rw [hc] at hf hg
      subst hf
      exact hg (full_reject c live body')
  rcases consume_cons hs hop hr with
    ⟨body', error, ho, ha⟩ | ⟨body', -, ho, ha⟩ | ⟨body', -, -, ho, ha⟩
  · rw [ho, ha]
    exact .inl ⟨rfl, .inl (halted_reject _ _)⟩
  · rw [ho, ha]
    exact .inl ⟨rfl, .inr rfl⟩
  · rw [ho, ha]
    refine .inr ⟨{ live with body := some body' }, rfl, rfl, ?_⟩
    rw [value_consumeBody rfl]
    cases body'.consume x with
    | mk body'' r =>
      cases r with
      | error error => exact ⟨rfl, .inl (halted_reject _ _)⟩
      | ok progress => exact ⟨rfl, .inr (Nat.add_comm _ _)⟩

def liveTurn (c : Collector) (live : Live) (x : Bytes) : Guarded Fault (Collector × ℕ) :=
  if live.head.isNone then c.headerTurn live x else c.consumeBody live x

theorem value_turn {d : Collector} (hs : c.startMessage.value = d) (hl : d.live = some live)
    (x : Bytes) : (c.turn x).value = (d.liveTurn live x).value := by
  unfold turn
  rw [value_bind, hs, hl]
  rfl

theorem startMessage_of_live (h : c.live = some live) : c.startMessage.value = c := by
  unfold startMessage
  rw [h]
  rfl

theorem halted_startMessage (c : Collector) : c.startMessage.value.halted = c.halted := by
  unfold startMessage
  cases c.live <;> rfl

/-- A turn takes the first byte, or takes it and then more of the input. -/
theorem liveTurn_cons (hl : live.Sound) (a : UInt8) {x : Bytes}
    (hg : ¬ (c.liveTurn live (a :: x)).value.1.Full) :
    ((c.liveTurn live (a :: x)).value = (c.liveTurn live [a]).value ∧
        ((c.liveTurn live [a]).value.1.halted = true ∨ (c.liveTurn live [a]).value.2 = 1)) ∨
      ∃ live', (c.liveTurn live [a]).value = ({ c with live := some live' }, 1) ∧
        (c.liveTurn live (a :: x)).value.1 =
          (liveTurn { c with live := some live' } live' x).value.1 ∧
        ((c.liveTurn live (a :: x)).value.1.halted = true ∨ (c.liveTurn live (a :: x)).value.2 =
            1 + (liveTurn { c with live := some live' } live' x).value.2) := by
  unfold liveTurn at hg ⊢
  by_cases hh : live.head.isNone = true
  · rw [if_pos hh, if_pos hh]
    obtain ⟨ho, hs | ⟨-, live', hh', hf, hr⟩⟩ := headerTurn_cons (c := c) hl a x
    · exact .inl ⟨hs, .inr ho⟩
    · refine .inr ⟨live', hf, ?_⟩
      rw [if_pos (by rw [hh', hh]), hr]
      exact ⟨rfl, .inr (Nat.add_comm _ _)⟩
  · rw [if_neg hh] at hg
    rw [if_neg hh, if_neg hh]
    obtain ⟨body, hb, hop, hsn⟩ := hl.body (by
      rw [Option.isSome_iff_ne_none]
      exact fun h => hh (by rw [h]; rfl))
    refine (consumeBody_cons hb hsn hop a hg).imp_right ?_
    rintro ⟨live', hh', hf, hr⟩
    refine ⟨live', hf, ?_⟩
    rw [if_neg (by rwa [hh'])]
    exact hr

end Collector

/-! ### The loop -/

/-- The loop of the collector, without its checks. -/
def collectorReader : Bulk.Reader UInt8 Collector where
  halted := Collector.halted
  turn c input := (c.turn input).value

open Collector in
theorem value_turns (fuel : ℕ) (c : Collector) (x : Bytes) :
    (c.turns fuel x).value = (collectorReader.turns fuel c x).1 := by
  induction fuel generalizing c x with
  | zero => rfl
  | succ fuel ih =>
    rw [turns, Bulk.Reader.turns]
    by_cases hs : x = [] ∨ c.halted = true
    · have hs' : x = [] ∨ collectorReader.halted c = true := hs
      rw [if_pos hs, if_pos hs']
      rfl
    · have hs' : ¬ (x = [] ∨ collectorReader.halted c = true) := hs
      rw [if_neg hs, if_neg hs']
      exact ih _ _

theorem value_data (c : Collector) (x : Bytes) :
    (c.data x).value = (collectorReader.drive c x).1 := value_turns _ c x

open Collector in
/-- A turn can be split after its first byte, unless the limit of a body is reached. -/
theorem splits_collectorReader : collectorReader.Splits Sound Full fun c => c.halted = true where
  invariant := by
    intro c x hc _ hx
    exact (ensures_turn hc hx).1.1
  progress := by
    intro c x hc _ hx
    exact (ensures_turn hc hx).1.2
  halted_of_bad := by
    intro c hc hfl
    show (c.disabled || c.upgraded) = true
    rw [hc.full hfl, Bool.true_or]
  halted_of_over := fun _ h => h
  split := by
    intro c a x hc hon hg
    obtain ⟨hsn, live, hl⟩ := (ensures_startMessage hc).1
    have hl' := hsn.live live hl
    have ht := value_turn rfl hl
    change ¬ (c.turn (a :: x)).value.1.Full at hg
    show ((c.turn (a :: x)).value = (c.turn [a]).value ∧
      ((c.turn [a]).value.1.halted = true ∨ (c.turn [a]).value.2 = 1)) ∨ _
    rw [ht] at hg
    rcases liveTurn_cons hl' a hg with hf | ⟨live', hf, hs, hcn⟩
    · rw [← ht, ← ht] at hf
      exact .inl hf
    rw [← ht] at hf hs hcn
    by_cases hx : x = []
    · subst hx
      exact .inl ⟨rfl, .inr (by rw [hf])⟩
    · have hr := value_turn (c := { c.startMessage.value with live := some live' })
        (startMessage_of_live rfl) rfl x
      have ho : collectorReader.turn c [a] =
        ({ c.startMessage.value with live := some live' }, 1) := hf
      rw [ho]
      exact .inr ⟨hx, (halted_startMessage c).trans hon, rfl, hs, hcn⟩

/-! ### Deliveries -/

namespace Collector

variable {c : Collector}

/-- Once the limit of a body is reached, nothing more is collected. -/
theorem value_foldlM_of_full (hc : c.Sound) (hf : c.Full) (dels : List Bytes) :
    (dels.foldlM data c).value = c := by
  rw [value_foldlM]
  induction dels with
  | nil => rfl
  | cons x dels ih =>
    rw [foldl_cons, value_data,
      Bulk.Reader.drive_of_halted (splits_collectorReader.halted_of_bad hc hf), ih]

/-- Deliveries that reach no limit of a body are read byte by byte. -/
theorem value_foldlM_data (hc : c.Sound) (dels : List Bytes)
    (hg : ¬ (dels.foldlM data c).value.Full) :
    (dels.foldlM data c).value =
      dels.flatten.foldl (fun c a => (collectorReader.drive c [a]).1) c := by
  induction dels generalizing c with
  | nil => rfl
  | cons x dels ih =>
    have hs := (ensures_data hc x).1
    rw [foldlM_cons, value_bind] at hg ⊢
    have hf : ¬ (c.data x).value.Full := by
      intro hfl
      rw [value_foldlM_of_full hs hfl] at hg
      exact hg hfl
    have hr : (c.data x).value = x.foldl (fun c a => (collectorReader.drive c [a]).1) c := by
      rw [value_data] at hf ⊢
      exact splits_collectorReader.drive_eq_foldl hc hf
    rw [ih hs hg, hr, flatten_cons, List.foldl_append]

theorem output_flush (c : Collector) (status : Status) (error : Option Error) :
    c.output <+: (c.flush status error).value.output := by
  unfold flush
  cases c.live with
  | none => exact prefix_rfl
  | some live => exact prefix_append _ _

theorem output_finish (c : Collector) (e : Ending) : c.output <+: (c.finish e).value.output := by
  cases e with
  | stopped status cl => exact output_flush { c with live := c.live.map _ } _ _
  | finished => exact output_flush _ _ _

theorem ensures_finish (hc : c.Sound) (e : Ending) :
    Ensures IsLimit (c.finish e) fun _ => True := by
  cases e with
  | stopped status cl =>
    refine (ensures_flush ?_ _).bind fun _ _ => .pure trivial
    exact hc.full
  | finished => exact (ensures_flush hc.full _).mono fun _ _ => trivial

theorem sound_of_fresh (hl : c.live = none) (ho : c.output = []) : c.Sound := by
  refine ⟨fun live h => ?_, fun h => ?_⟩
  · rw [hl] at h
    cases h
  · obtain ⟨m, hm, -⟩ := h
    rw [ho] at hm
    cases hm

theorem messagesOf_eq_ok {dels : List Bytes} {e : Ending} {messages : List Message}
    (h : c.messagesOf dels e = .ok messages) :
    ((dels.foldlM data c).value.finish e).value.output = messages :=
  (run_eq_ok.mp h).2

end Collector

open Collector in
/-- Collection does not depend on segmentation. For a direction that has received nothing, with any
requests that wait for an answer, no branch is reached that is not meant to be. When one stream is
delivered in two ways, the direction ends in the same way, and no limit is reached, neither one that
ends the analysis nor that of a body, then the messages are the same. -/
theorem messagesOf_eq_of_cut {c : Collector} (hlive : c.live = none) (houtput : c.output = []) :
    (∀ deliveries ending message,
        c.messagesOf deliveries ending ≠ .error (.unreachable message)) ∧
      ∀ deliveries others ending messages messages', deliveries.flatten = others.flatten →
        c.messagesOf deliveries ending = .ok messages →
        c.messagesOf others ending = .ok messages' →
        (∀ m ∈ messages ++ messages', m.error ≠ some (.limit .bodyBytes)) →
        messages = messages' := by
  have hc := sound_of_fresh hlive houtput
  constructor
  · intro deliveries ending message h
    have hl : Ensures IsLimit (do
          let c ← deliveries.foldlM data c
          let c ← c.finish ending
          pure c.output) fun _ => True :=
      (Ensures.foldlM deliveries hc fun c x hc => ensures_data hc x).bind
        fun d hd => (ensures_finish hd ending).bind fun _ _ => .pure trivial
    exact hl.2 _ (run_eq_error.mp h)
  · intro deliveries others ending messages messages' hcut hf hsc hl
    have hr : ∀ (cut : List Bytes) (m : List Message), c.messagesOf cut ending = .ok m →
        (∀ n ∈ m, n.error ≠ some (.limit .bodyBytes)) →
        (cut.foldlM data c).value =
          cut.flatten.foldl (fun c a => (collectorReader.drive c [a]).1) c := by
      intro cut m hm hg
      refine value_foldlM_data hc cut ?_
      rintro ⟨n, hn, he⟩
      refine hg n ?_ he
      rw [← messagesOf_eq_ok hm]
      exact (output_finish _ ending).subset hn
    have hs := hr deliveries messages hf fun n hn =>
      hl n (mem_append_left _ hn)
    have hs' := hr others messages' hsc fun n hn =>
      hl n (mem_append_right _ hn)
    rw [← hcut] at hs'
    rw [← messagesOf_eq_ok hf, ← messagesOf_eq_ok hsc, hs, hs']

/-- The message of a request with a chunked body of two bytes. -/
def chunkedRequest : Message where
  index := 1
  request := none
  status := .complete
  head := some
    { start := .request (ascii "P") (ascii "/") (ascii "HTTP/1.1")
      headers := [⟨ascii "Transfer-Encoding", ascii "chunked"⟩]
      wire := ascii "P / HTTP/1.1\r\nTransfer-Encoding:chunked\r\n\r\n" }
  headerWire := ascii "P / HTTP/1.1\r\nTransfer-Encoding:chunked\r\n\r\n"
  framing := some .chunked
  bodyBytes := 2
  trailers := []
  error := none

/-- A request that is cut within the end of a line, the size of a chunk and the data of a chunk. -/
theorem messagesOf_eq_of_cut_in_chunk :
    ∃ messages messages',
      Collector.messagesOf { limits := ⟨4, 1024, 65536⟩, maxBodyBytes := 16 }
          [ascii "P / HTTP/1.1\r\nTransfer-Encoding:chunked\r\n\r\n02\r\nab\r\n0\r\n\r\n"]
          .finished = .ok messages ∧
        Collector.messagesOf { limits := ⟨4, 1024, 65536⟩, maxBodyBytes := 16 }
          [ascii "P / HTTP/1.1\r", ascii "\nTransfer-Encoding:chunked\r\n\r\n0",
            ascii "2\r\na", ascii "b\r\n0\r\n\r\n"] .finished = .ok messages' ∧
        messages = [chunkedRequest] ∧ messages = messages' := by
  have hw : Collector.messagesOf { limits := ⟨4, 1024, 65536⟩, maxBodyBytes := 16 }
      [ascii "P / HTTP/1.1\r\nTransfer-Encoding:chunked\r\n\r\n02\r\nab\r\n0\r\n\r\n"]
      .finished = .ok [chunkedRequest] := by decide +kernel
  have hc : Collector.messagesOf { limits := ⟨4, 1024, 65536⟩, maxBodyBytes := 16 }
      [ascii "P / HTTP/1.1\r", ascii "\nTransfer-Encoding:chunked\r\n\r\n0",
        ascii "2\r\na", ascii "b\r\n0\r\n\r\n"] .finished = .ok [chunkedRequest] := by
    decide +kernel
  exact ⟨_, _, hw, hc, rfl, (messagesOf_eq_of_cut rfl rfl).2 _ _ _ _ _ (by decide +kernel)
    hw hc (by decide +kernel)⟩

end PacketCraftr.Http
