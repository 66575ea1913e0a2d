import PacketCraftr.Tls.Live

/-!
# How the deliveries to one handshake are cut

With no ceiling, feeding a direction is running a framing machine on the bytes it still holds
followed by the new ones: whether a record is framed straight from the delivery or through the
buffer that takes only the missing bytes makes no difference. Feeding two pieces one after the
other is then feeding their concatenation. A feed that reaches no ceiling is the feed without one.
-/

open List

namespace PacketCraftr.Tls

/-- A direction holds only the front of one record, and nothing once it is done. -/
structure DirectionState.Settled (state : DirectionState) : Prop where
  needMore : ∃ minimum, parseRecord state.partialRecord = .needMore minimum
  done : state.done = true → state.partialRecord = []

/-- What one record may do to a direction: leave its framing as it is, or finish it. -/
def DirectionState.Keeps (before after : DirectionState) : Prop :=
  (after.partialRecord = before.partialRecord ∧ after.done = before.done) ∨
    (after.partialRecord = [] ∧ after.done = true)

namespace DirectionState

theorem Keeps.refl (state : DirectionState) : state.Keeps state := .inl ⟨rfl, rfl⟩

theorem Keeps.trans {a b c : DirectionState} (ha : a.Keeps b) (hb : b.Keeps c) : a.Keeps c := by
  rcases hb with ⟨hp, hdn⟩ | hb
  · rcases ha with ⟨hp', hdone'⟩ | ⟨hp', hdone'⟩
    · exact .inl ⟨hp.trans hp', hdn.trans hdone'⟩
    · exact .inr ⟨hp.trans hp', hdn.trans hdone'⟩
  · exact .inr hb

theorem keeps_finish (state : DirectionState) : state.Keeps state.finish := .inr ⟨rfl, rfl⟩

variable {before after : DirectionState}

theorem Settled.keeps (h : before.Settled) (hk : before.Keeps after) : after.Settled := by
  rcases hk with ⟨hp, hdn⟩ | ⟨hp, hdn⟩
  · exact ⟨hp ▸ h.needMore, fun hd => hp.trans (h.done (hdn ▸ hd))⟩
  · exact ⟨hp ▸ ⟨_, rfl⟩, fun _ => hp⟩

theorem Keeps.partialRecord_eq_nil (hk : before.Keeps after) (h : before.partialRecord = []) :
    after.partialRecord = [] := by
  rcases hk with ⟨hp, -⟩ | ⟨hp, -⟩
  · exact hp.trans h
  · exact hp

end DirectionState

namespace Live

variable {C S : Type*} {hellos : Hellos C S} {live : Live C S} {direction : Side}
  {cl : Option ℕ} {lh : ℕ}

/-- What the buffers of both directions hold between two deliveries. -/
def Settled (live : Live C S) : Prop := ∀ side, (live.side side).Settled

/-- What one record may do to both directions. -/
def Keeps (before after : Live C S) : Prop := ∀ side, (before.side side).Keeps (after.side side)

theorem Keeps.refl (live : Live C S) : live.Keeps live := fun _ => .refl _

theorem Keeps.trans {a b c : Live C S} (ha : a.Keeps b) (hb : b.Keeps c) : a.Keeps c :=
  fun side => (ha side).trans (hb side)

theorem keeps_of_eq {before after : Live C S} (hf : after.firstDirection = before.firstDirection)
    (hr : after.reverseDirection = before.reverseDirection) : before.Keeps after := by
  intro side
  cases side with
  | first => exact .inl ⟨congrArg _ hf, congrArg _ hf⟩
  | reverse => exact .inl ⟨congrArg _ hr, congrArg _ hr⟩

variable {f : DirectionState → DirectionState} {rest x : Bytes} {next : Live C S → ℕ → Fed C S}
  {c uncapped : Fed C S}

section

variable (live : Live C S) (direction : Side)

theorem keeps_updateSide (h : ∀ s : DirectionState, s.Keeps (f s)) :
    live.Keeps (live.updateSide direction f) := by
  intro side
  by_cases hs : side = direction
  · subst hs
    rw [side_updateSide]
    exact h _
  · rw [side_updateSide_of_ne live hs]
    exact .refl _

/-! ### What one record does to the framing -/

theorem keeps_finish : live.Keeps (live.updateSide direction .finish) :=
  live.keeps_updateSide direction DirectionState.keeps_finish

theorem keeps_applyHandshake (message : Handshake C S) :
    live.Keeps (live.applyHandshake direction message).1 := by
  cases message with
  | clientHello hello =>
    rw [applyHandshake, applyClientHello]
    dsimp only
    split_ifs <;> exact keeps_of_eq rfl rfl
  | serverHello hello i =>
    rw [applyHandshake, applyServerHello]
    dsimp only
    split_ifs <;> first
      | exact keeps_of_eq rfl rfl
      | exact (keeps_of_eq rfl rfl).trans (keeps_finish _ direction)
  | other kind len => exact .refl live

end

theorem keeps_drainLoop (fuel : ℕ) (live : Live C S) :
    live.Keeps (drainLoop hellos direction fuel live).1 := by
  induction fuel generalizing live with
  | zero => exact .refl live
  | succ fuel ih =>
    rw [drainLoop]
    cases parseHandshake hellos (live.side direction).messages with
    | needMore m => exact .refl live
    | malformed message => exact live.keeps_finish direction
    | complete c value =>
      have hd := live.keeps_updateSide direction
        (f := fun s => { s with messages := s.messages.drop c }) fun s => .inl ⟨rfl, rfl⟩
      have ha := hd.trans (keeps_applyHandshake _ direction value)
      dsimp only
      generalize applyHandshake _ direction value = a at ha ⊢
      obtain ⟨a, verdict⟩ := a
      cases verdict with
      | finished status r => exact ha
      | «open» =>
        dsimp only
        split_ifs
        · exact ha
        · exact ha.trans (ih a)

theorem keeps_alertLoop (live : Live C S) (level : Option UInt8) (body : Bytes) :
    live.Keeps (live.alertLoop level body).1 := by
  induction body generalizing live level with
  | nil => exact .refl live
  | cons byte rest ih =>
    cases level with
    | none => exact ih live (some byte)
    | some level =>
      have hn : live.Keeps (live.noteAlert ⟨level, byte⟩) := by
        rw [noteAlert]
        split_ifs <;> exact keeps_of_eq rfl rfl
      rw [alertLoop]
      split_ifs
      · exact hn
      · exact hn.trans (ih _ none)

theorem keeps_refusePastCeiling {e : ℕ} {rs : String} {r : Fed C S}
    (h : live.refusePastCeiling direction e cl lh rs = some r) :
    live.Keeps r.live := by
  unfold refusePastCeiling at h
  split_ifs at h
  cases h
  exact live.keeps_finish direction

/-- A record leaves the framing of both directions as it is, or finishes them. -/
theorem keeps_applyRecord (hellos : Hellos C S) (live : Live C S) (direction : Side)
    (record : Record) (cl : Option ℕ) (lh : ℕ) :
    live.Keeps (live.applyRecord hellos direction record cl lh).live := by
  unfold applyRecord
  dsimp only
  split_ifs
  · cases hr : live.refusePastCeiling direction record.body.length cl lh reasonHandshakeCeiling with
    | some r => exact keeps_refusePastCeiling hr
    | none =>
      have hm := live.keeps_updateSide direction
        (f := fun s => { s with messages := s.messages ++ record.body }) fun s => .inl ⟨rfl, rfl⟩
      exact hm.trans (keeps_drainLoop _ _)
  · exact live.keeps_finish direction
  · exact live.keeps_updateSide direction
      (f := fun s => { s with changeCipherSpecSkipped := true }) fun s => .inl ⟨rfl, rfl⟩
  · have hc := live.keeps_updateSide direction
      (f := fun s => { s with alertLevel := none }) fun s => .inl ⟨rfl, rfl⟩
    have ha := hc.trans (keeps_alertLoop _ (live.side direction).alertLevel record.body)
    generalize alertLoop _ (live.side direction).alertLevel record.body = l at ha ⊢
    obtain ⟨l, level⟩ := l
    match level with
    | none =>
      exact ha.trans ((l.keeps_finish .first).trans (keeps_finish _ .reverse))
    | some none => exact ha
    | some (some level) =>
      dsimp only
      cases hr : l.refusePastCeiling direction 1 cl lh reasonRecordCeiling with
      | some r => exact ha.trans (keeps_refusePastCeiling hr)
      | none =>
        exact ha.trans (l.keeps_updateSide direction
          (f := fun s => { s with alertLevel := some level }) fun s => .inl ⟨rfl, rfl⟩)
  · exact live.keeps_finish direction
  · exact .refl live

/-! ### The framing machine of one direction -/

/-- The bytes of the record being framed taken out of a direction. -/
def clear (live : Live C S) (direction : Side) : Live C S :=
  live.updateSide direction fun s => { s with partialRecord := [] }

theorem updateSide_congr {g : DirectionState → DirectionState}
    (h : f (live.side direction) = g (live.side direction)) :
    live.updateSide direction f = live.updateSide direction g := by
  cases direction <;> simp only [updateSide, side] at h ⊢ <;> rw [h]

theorem clear_eq_self (h : (live.side direction).partialRecord = []) :
    live.clear direction = live := by
  apply updateSide_eq_self
  rw [← h]

theorem clear_hold (bytes : Bytes) : (live.hold direction bytes).clear direction =
    live.clear direction :=
  updateSide_updateSide ..

theorem hold_clear (h : (live.side direction).partialRecord = bytes) :
    (live.clear direction).hold direction bytes = live := by
  rw [clear, hold, updateSide_updateSide]
  apply updateSide_eq_self
  rw [← h]
  rfl

theorem hold_nil : live.hold direction [] = live := by
  apply updateSide_eq_self
  rw [append_nil]

theorem finish_clear : (live.clear direction).updateSide direction .finish =
    live.updateSide direction .finish :=
  updateSide_updateSide ..

@[simp]
theorem side_hold (bytes : Bytes) : (live.hold direction bytes).side direction =
    { live.side direction with
      partialRecord := (live.side direction).partialRecord ++ bytes } :=
  side_updateSide ..

@[simp]
theorem side_clear : (live.clear direction).side direction =
    { live.side direction with partialRecord := [] } :=
  side_updateSide ..

variable (hellos direction) in
/-- The framing machine of one direction, with no ceiling: it takes records until the direction is
done or the session has ended. -/
def machine : Framing.Machine UInt8 Record String (Live C S × Verdict) where
  parse _ := recordFront
  halted s := (s.2 != .open) || (s.1.side direction).done
  apply s record :=
    let fed := s.1.applyRecord hellos direction record none 0
    (fed.live, fed.verdict)
  fail s message :=
    (s.1.updateSide direction .finish, .because .malformed (renderInvalid message))
  frame_pos h := Nat.zero_lt_of_lt (parseRecord_complete (recordFront_eq_frame.mp h)).1
  frame_le h := (parseRecord_complete (recordFront_eq_frame.mp h)).2.1
  frame_append h y :=
    recordFront_eq_frame.mpr (parseRecord_complete_append (recordFront_eq_frame.mp h) y)
  fail_append h y :=
    recordFront_eq_fail.mpr (parseRecord_malformed_append (recordFront_eq_fail.mp h) y)
  halted_fail _ _ := rfl

variable (hellos direction) in
/-- What a run of the machine leaves behind: the bytes left are held, unless it halted. -/
def settle (r : (Live C S × Verdict) × Bytes) (limitHits : ℕ) : Fed C S :=
  ⟨if (machine hellos direction).halted r.1 then r.1.1 else r.1.1.hold direction r.2, r.1.2,
    limitHits⟩

theorem applyRecord_uncapped (record : Record) : live.applyRecord hellos direction record none lh =
      ⟨(live.applyRecord hellos direction record none 0).live,
        (live.applyRecord hellos direction record none 0).verdict, lh⟩ := by
  unfold applyRecord
  simp only [refusePastCeiling, fits, if_true]
  split_ifs
  · rfl
  · rfl
  · rfl
  · generalize alertLoop _ _ record.body = l
    obtain ⟨l, _ | _ | level⟩ := l <;> rfl
  · rfl
  · rfl

theorem halted_open : (machine hellos direction).halted (live, .open) =
    (live.side direction).done := rfl

theorem halted_finished (status : Status) (r : Option String) :
    (machine hellos direction).halted (live, .finished status r) = true := rfl

/-- A turn of the loop after a record: on with the rest, or out. -/
theorem settle_run_applied {record : Record} (hp : (live.side direction).partialRecord = [])
    (hn : ∀ after : Live C S, (after.side direction).partialRecord = [] → next after lh =
      settle hellos direction ((machine hellos direction).run (after.clear direction, .open) rest)
      lh) :
    (match live.applyRecord hellos direction record none lh with
      | ⟨after, .open, hi⟩ => next after hi
      | ⟨after, .finished status r, hi⟩ => ⟨after, .finished status r, hi⟩) =
      settle hellos direction ((machine hellos direction).run
        ((machine hellos direction).apply (live, .open) record) rest) lh := by
  have hk := keeps_applyRecord hellos live direction record none 0 direction
  rw [applyRecord_uncapped]
  show _ = settle hellos direction ((machine hellos direction).run
    ((live.applyRecord hellos direction record none 0).live,
      (live.applyRecord hellos direction record none 0).verdict) rest) lh
  generalize live.applyRecord hellos direction record none 0 = fed at hk ⊢
  obtain ⟨after, verdict, hi⟩ := fed
  have ha := hk.partialRecord_eq_nil hp
  cases verdict with
  | «open» =>
    dsimp only
    rw [hn after ha, clear_eq_self ha]
  | finished status r =>
    rw [Framing.Machine.run_of_halted (halted_finished status r), settle,
      if_pos (halted_finished status r)]

theorem refusePastCeiling_none (e : ℕ) (r : String) :
    live.refusePastCeiling direction e none lh r = none := rfl

section

variable (hdn : (live.side direction).done = false)
include hdn

theorem settle_run_needMore {m : ℕ} (h : parseRecord x = .needMore m) :
    settle hellos direction ((machine hellos direction).run (live, .open) x) lh =
      ⟨live.hold direction x, .open, lh⟩ := by
  have hm : (machine hellos direction).parse (live, .open) x = .more :=
    recordFront_eq_more.mpr ⟨m, h⟩
  have hh : ¬ (machine hellos direction).halted (live, .open) = true := by
    rw [halted_open, hdn]
    exact Bool.false_ne_true
  rw [Framing.Machine.run_of_more hm, settle, if_neg hh]

theorem settle_run_malformed {message : String} (h : parseRecord x = .malformed message) :
    settle hellos direction ((machine hellos direction).run (live, .open) x) lh =
      ⟨live.updateSide direction .finish, .because .malformed (renderInvalid message), lh⟩ := by
  have hf : (machine hellos direction).parse (live, .open) x = .fail message :=
    recordFront_eq_fail.mpr h
  rw [Framing.Machine.run_of_fail hdn hf, settle,
    if_pos ((machine hellos direction).halted_fail _ _)]
  rfl

theorem run_complete {n : ℕ} {record : Record} (h : parseRecord x = .complete n record) :
    (machine hellos direction).run (live, .open) x =
      (machine hellos direction).run ((machine hellos direction).apply (live, .open) record)
        (x.drop n) :=
  Framing.Machine.run_of_frame hdn (recordFront_eq_frame.mpr h)

end

def AtMostOneRecord (held : Bytes) : Prop :=
  ∀ n record, parseRecord held = .complete n record → n = held.length

theorem atMostOneRecord_nil : AtMostOneRecord [] := nofun

/-- Topping up to what the parser asked for brings in at most one record. -/
theorem atMostOneRecord_top_up {held : Bytes} {m : ℕ} (h : parseRecord held = .needMore m) :
    AtMostOneRecord (held ++ rest.take (min (m - held.length) rest.length)) := by
  intro n record hp
  obtain ⟨hs, hr⟩ := parseRecord_needMore h
  have hm := hr _ _ _ hp
  have hle := (parseRecord_complete hp).2.1
  simp only [length_append, length_take] at hle ⊢
  omega

/-- The loop, with no ceiling and enough turns, is a run of the machine on the bytes held followed
by those of the delivery. -/
theorem feedLoop_eq_settle {fuel : ℕ}
    (hf : 2 * rest.length + (live.side direction).partialRecord.length < fuel)
    (hhd : AtMostOneRecord (live.side direction).partialRecord)
    (hdn : (live.side direction).done = true → (live.side direction).partialRecord = []) :
    feedLoop hellos direction none fuel live rest lh =
      settle hellos direction ((machine hellos direction).run (live.clear direction, .open)
        ((live.side direction).partialRecord ++ rest)) lh := by
  -- by the number of turns; each branch of the loop is one step of the machine, or only moves
  -- bytes of the delivery into the buffer
  induction fuel generalizing live rest with
  | zero => exact absurd hf (Nat.not_lt_zero _)
  | succ fuel ih =>
    have hnil : ∀ (after : Live C S) (rest' : Bytes), 2 * rest'.length < fuel →
        (after.side direction).partialRecord = [] →
        feedLoop hellos direction none fuel after rest' lh =
          settle hellos direction ((machine hellos direction).run (after.clear direction, .open)
            rest') lh := by
      intro after rest' hf' ha
      have h : feedLoop hellos direction none fuel after rest' lh = _ :=
        ih (by rwa [ha]) (ha ▸ atMostOneRecord_nil) fun _ => ha
      rwa [ha, nil_append] at h
    rw [feedLoop]
    by_cases hd : (live.side direction).done = true
    · have hh : (machine hellos direction).halted (live, .open) = true := hd
      rw [if_pos hd, clear_eq_self (hdn hd), Framing.Machine.run_of_halted hh, settle, if_pos hh]
    rw [if_neg hd]
    replace hd := eq_false_of_ne_true hd
    by_cases hp : (live.side direction).partialRecord = []
    · -- records are framed straight from the delivery
      rw [if_pos hp, hp, nil_append, clear_eq_self hp]
      split_ifs with hr
      · have he : parseRecord [] = .needMore recordHeaderLen := rfl
        rw [hr, settle_run_needMore hd he, hold_nil]
      · cases hpr : parseRecord rest with
        | needMore m => rw [settle_run_needMore hd hpr, refusePastCeiling_none]
        | malformed message => rw [settle_run_malformed hd hpr]
        | complete n record =>
          rw [run_complete hd hpr]
          have hn := parseRecord_complete hpr
          refine settle_run_applied hp fun after ha => hnil after _ ?_ ha
          rw [length_drop]
          omega
    · have hdc : ((live.clear direction).side direction).done = false := by
        rwa [side_clear]
      rw [if_neg hp]
      cases hpr : parseRecord (live.side direction).partialRecord with
      | malformed message =>
        rw [settle_run_malformed hdc (parseRecord_malformed_append hpr rest), finish_clear]
      | complete n record =>
        -- the buffer holds just this record
        have hn := hhd n record hpr
        have hc : (live.updateSide direction fun s =>
            { s with partialRecord := s.partialRecord.drop n }) = live.clear direction := by
          apply updateSide_congr
          rw [hn, drop_length]
        have hpos := length_pos_iff.mpr hp
        rw [run_complete hdc (parseRecord_complete_append hpr rest), hn, drop_left]
        dsimp only
        rw [hn] at hc
        rw [hc]
        exact settle_run_applied (by rw [side_clear]) fun after ha =>
          hnil after rest (by omega) ha
      | needMore m =>
        have hs := (parseRecord_needMore hpr).1
        dsimp only
        split_ifs with ht
        · -- nothing was delivered
          have hr : rest = [] := length_eq_zero_iff.mp (by omega)
          rw [hr, append_nil, settle_run_needMore hdc hpr, hold_clear rfl]
        · rw [refusePastCeiling_none]
          dsimp only
          rw [ih, clear_hold, side_hold, append_assoc, take_append_drop]
          · rw [side_hold]
            simp only [length_append, length_take, length_drop]
            omega
          · rw [side_hold]
            exact atMostOneRecord_top_up hpr
          · rw [side_hold]
            exact fun h => absurd (hd.symm.trans h) Bool.false_ne_true

/-- A feed with no ceiling is a run of the machine on the bytes held followed by the new ones. -/
theorem feed_eq_settle (hs : live.Settled) (c : Bytes) : live.feed hellos direction c none lh =
      settle hellos direction ((machine hellos direction).run (live.clear direction, .open)
        ((live.side direction).partialRecord ++ c)) lh := by
  obtain ⟨⟨m, hm⟩, hdn⟩ := hs direction
  refine feedLoop_eq_settle (Nat.lt_succ_self _) (fun n record h => ?_) hdn
  rw [hm] at h
  cases h

/-- What holds along a run of the machine: the bytes of the direction are with the machine. -/
theorem settled_run (hellos : Hellos C S) (direction : Side) (hst : live.Settled) (x : Bytes) :
    ((machine hellos direction).run (live.clear direction, .open) x).1.1.Settled ∧
      ((((machine hellos direction).run (live.clear direction, .open) x).1.1.side
        direction).partialRecord = []) := by
  refine Framing.Machine.run_invariant (fun (s : Live C S × Verdict) _ =>
      s.1.Settled ∧ (s.1.side direction).partialRecord = []) ?_ ?_ ?_
  · rintro ⟨s, verdict⟩ y n record - - ⟨hs, hp⟩
    have hk := keeps_applyRecord hellos s direction record none 0
    exact ⟨fun side => (hs side).keeps (hk side), (hk direction).partialRecord_eq_nil hp⟩
  · rintro ⟨s, verdict⟩ y message - - ⟨hs, hp⟩
    have hk := s.keeps_finish direction
    exact ⟨fun side => (hs side).keeps (hk side), (hk direction).partialRecord_eq_nil hp⟩
  · refine ⟨fun side => ?_, by rw [side_clear]⟩
    by_cases hsd : side = direction
    · subst hsd
      rw [side_clear]
      exact ⟨⟨_, rfl⟩, fun _ => rfl⟩
    · rw [clear, side_updateSide_of_ne live hsd]
      exact hst side

theorem settled_feed (hellos : Hellos C S) (direction : Side) (lh : ℕ)
    (hst : live.Settled) (c : Bytes) :
    (live.feed hellos direction c none lh).live.Settled := by
  rw [feed_eq_settle hst]
  obtain ⟨hs, hp⟩ := settled_run hellos direction hst ((live.side direction).partialRecord ++ c)
  have hm := Framing.Machine.parse_run (m := machine hellos direction)
    (s := (live.clear direction, .open)) (x := (live.side direction).partialRecord ++ c)
  unfold settle
  split_ifs with hh
  · exact hs
  · replace hh := eq_false_of_ne_true hh
    intro side
    by_cases hsd : side = direction
    · subst hsd
      rw [side_hold, hp, nil_append]
      refine ⟨recordFront_eq_more.mp (hm hh), fun hdn => ?_⟩
      have ho := Bool.or_eq_false_iff.mp hh
      exact absurd (ho.2.symm.trans hdn) Bool.false_ne_true
    · rw [hold, side_updateSide_of_ne _ hsd]
      exact hs side

/-- With no ceiling, feeding a concatenation is feeding its first part and, if the session has not
ended, its second. -/
theorem feed_append (hst : live.Settled) (a b : Bytes) :
    live.feed hellos direction (a ++ b) none lh = match live.feed hellos direction a none lh with
      | ⟨after, .open, hi⟩ => after.feed hellos direction b none hi
      | ⟨after, .finished status rs, hi⟩ => ⟨after, .finished status rs, hi⟩ := by
  have ha := settled_feed hellos direction lh hst a
  obtain ⟨hs, hp⟩ := settled_run hellos direction hst ((live.side direction).partialRecord ++ a)
  rw [feed_eq_settle hst, feed_eq_settle hst] at *
  rw [← append_assoc, Framing.Machine.run_append]
  generalize (machine hellos direction).run _ _ = r at hs hp ha ⊢
  obtain ⟨⟨l, verdict⟩, left⟩ := r
  cases verdict with
  | finished status rs =>
    have hh : (machine hellos direction).halted (l, .finished status rs) = true := rfl
    rw [Framing.Machine.run_of_halted hh, settle, settle, if_pos hh, if_pos hh]
  | «open» =>
    cases hdn : (l.side direction).done with
    | true =>
      have hh : (machine hellos direction).halted (l, .open) = true := hdn
      rw [settle, settle, if_pos hh, Framing.Machine.run_of_halted hh, if_pos hh]
      dsimp only
      rw [feed_eq_settle hs, clear_eq_self hp, Framing.Machine.run_of_halted hh, settle, if_pos hh]
    | false =>
      have hh : ¬ (machine hellos direction).halted (l, .open) = true := by
        rw [halted_open, hdn]
        exact Bool.false_ne_true
      have hhd : settle hellos direction ((l, .open), left) lh =
          ⟨l.hold direction left, .open, lh⟩ := by
        rw [settle, if_neg hh]
      rw [hhd] at ha ⊢
      dsimp only at ha ⊢
      rw [feed_eq_settle ha, clear_hold, clear_eq_self hp, side_hold, hp, nil_append]

/-! ### Feeds that reach no ceiling -/

/-- A function that counts the ceilings it reaches does what it does without a ceiling, or has
counted one. -/
def Agrees (limitHits : ℕ) (capped uncapped : Fed C S) : Prop :=
  limitHits < capped.limitHits ∨ (capped = uncapped ∧ capped.limitHits = limitHits)

theorem Agrees.le (h : Agrees lh c uncapped) : lh ≤ c.limitHits :=
  h.elim Nat.le_of_lt fun h => Nat.le_of_eq h.2.symm

/-- Where the ceiling is checked: it counts, or the function goes on as it does without one. -/
theorem agrees_refuse {e : ℕ} {rs : String} (h : Agrees lh c uncapped) :
    Agrees lh (match live.refusePastCeiling direction e cl lh rs with
        | some r => r
        | none => c)
      uncapped := by
  unfold refusePastCeiling
  split_ifs
  · exact h
  · exact .inl (Nat.lt_succ_self lh)

theorem agrees_applyRecord (hellos : Hellos C S) (live : Live C S) (direction : Side)
    (record : Record) (cl : Option ℕ) (lh : ℕ) :
    Agrees lh (live.applyRecord hellos direction record cl lh)
      (live.applyRecord hellos direction record none lh) := by
  unfold applyRecord
  dsimp only
  split_ifs
  · exact agrees_refuse (.inr ⟨rfl, rfl⟩)
  · exact .inr ⟨rfl, rfl⟩
  · exact .inr ⟨rfl, rfl⟩
  · generalize alertLoop _ _ record.body = looped
    match looped with
    | (_, none) => exact .inr ⟨rfl, rfl⟩
    | (_, some none) => exact .inr ⟨rfl, rfl⟩
    | (_, some (some level)) => exact agrees_refuse (.inr ⟨rfl, rfl⟩)
  · exact .inr ⟨rfl, rfl⟩
  · exact .inr ⟨rfl, rfl⟩

theorem agrees_applied (record : Record) {next' : Live C S → ℕ → Fed C S}
    (hn : ∀ after hi, Agrees hi (next after hi) (next' after hi)) :
    Agrees lh (match live.applyRecord hellos direction record cl lh with
        | ⟨after, .open, hi⟩ => next after hi
        | ⟨after, .finished status r, hi⟩ => ⟨after, .finished status r, hi⟩)
      (match live.applyRecord hellos direction record none lh with
        | ⟨after, .open, hi⟩ => next' after hi
        | ⟨after, .finished status r, hi⟩ => ⟨after, .finished status r, hi⟩) := by
  rcases agrees_applyRecord hellos live direction record cl lh with
    hlt | ⟨heq, hh⟩
  · -- a ceiling was counted by the record itself
    left
    generalize live.applyRecord hellos direction record cl lh = fed at hlt ⊢
    obtain ⟨after, verdict, hi⟩ := fed
    cases verdict with
    | «open» => exact Nat.lt_of_lt_of_le hlt (hn after hi).le
    | finished status r => exact hlt
  · rw [← heq]
    generalize live.applyRecord hellos direction record cl lh = fed at hh ⊢
    obtain ⟨after, verdict, hi⟩ := fed
    subst hh
    cases verdict with
    | «open» => exact hn after hi
    | finished status r => exact .inr ⟨rfl, rfl⟩

theorem agrees_feedLoop (fuel : ℕ) (live : Live C S) (rest : Bytes) (lh : ℕ) :
    Agrees lh (feedLoop hellos direction cl fuel live rest lh)
      (feedLoop hellos direction none fuel live rest lh) := by
  induction fuel generalizing live rest lh with
  | zero => exact .inr ⟨rfl, rfl⟩
  | succ fuel ih =>
    rw [feedLoop, feedLoop]
    split_ifs
    · exact .inr ⟨rfl, rfl⟩
    · exact .inr ⟨rfl, rfl⟩
    · cases parseRecord rest with
      | complete n record => exact agrees_applied record fun after hi => ih after _ hi
      | needMore m => exact agrees_refuse (.inr ⟨rfl, rfl⟩)
      | malformed message => exact .inr ⟨rfl, rfl⟩
    · cases parseRecord (live.side direction).partialRecord with
      | complete n record => exact agrees_applied record fun after hi => ih after _ hi
      | needMore m =>
        dsimp only
        split_ifs
        · exact .inr ⟨rfl, rfl⟩
        · exact agrees_refuse (ih _ _ lh)
      | malformed message => exact .inr ⟨rfl, rfl⟩

/-- A feed that reaches no ceiling is the feed without one. -/
theorem agrees_feed (hellos : Hellos C S) (live : Live C S) (direction : Side) (c : Bytes)
    (cl : Option ℕ) (lh : ℕ) :
    Agrees lh (live.feed hellos direction c cl lh) (live.feed hellos direction c none lh) :=
  agrees_feedLoop _ live c lh

theorem feed_of_done (c : Bytes) (h : (live.side direction).done = true) :
    live.feed hellos direction c cl lh = ⟨live, .open, lh⟩ := by
  rw [feed, feedLoop, if_pos h]

end Live

end PacketCraftr.Tls
