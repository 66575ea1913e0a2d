import PacketCraftr.Foundation.Framing
import PacketCraftr.Messages.Framer

/-!
# Nested values

A nested value is a sequence of lines and bulk strings. They are the frames of a machine that
counts the elements the open arrays still lack and halts when the outermost value is complete. The
loop of the framer, which resumes where it was and does not search again what it has searched, is a
run of this machine.
-/

open List

namespace PacketCraftr.Messages

open Search

/-- How far a nested value is. -/
inductive RespVerdict
  | running
  | complete
  | failed
  deriving DecidableEq, Repr

/-- A state of the machine, with the bytes taken so far. -/
structure RespState where
  consumed : ℕ := 0
  remaining : List ℕ := []
  /-- The length of the bulk string that comes next. -/
  bulk : Option ℕ := none
  nodes : ℕ := 0
  verdict : RespVerdict := .running
  deriving DecidableEq, Repr

/-- A frame of a nested value. -/
inductive RespToken
  | line (kind : UInt8) (value : Bytes)
  | bulk (count : ℕ)
  deriving DecidableEq, Repr

namespace RespState

/-- The next line or bulk string. -/
def parse (s : RespState) (x : Bytes) : Framing.Front RespToken Unit :=
  match s.bulk with
  | some count =>
    if x.length < count + 2 then .more
    else if slice x count (count + 2) ≠ crlf then .fail ()
    else .frame (count + 2) (.bulk count)
  | none =>
    match x with
    | [] => .more
    | kind :: rest =>
      if kind ∉ respKinds then .fail ()
      else
        match position crlf rest with
        | none => .more
        | some i => .frame (i + 3) (.line kind (rest.take i))

/-- A value is complete: count it in the arrays it is an element of. -/
def complete (s : RespState) : RespState :=
  { s with
    remaining := (countDown s.remaining).2
    verdict := if (countDown s.remaining).1 then .complete else .running }

/-- What the line of a value calls for. -/
def applyLine (s : RespState) : RespLine → RespState
  | .bulk count => { s with bulk := some count }
  | .array count => { s with remaining := count :: s.remaining }
  | .complete => s.complete

/-- Take a line or a bulk string. -/
def apply (name : String) (s : RespState) : RespToken → RespState
  | .bulk count => complete { s with consumed := s.consumed + (count + 2), bulk := none }
  | .line kind value =>
    let s : RespState :=
      { s with consumed := s.consumed + (value.length + 3), nodes := s.nodes + 1 }
    if maxNesting ≤ s.remaining.length ∨ maxRecords < s.nodes then { s with verdict := .failed }
    else
      match respLine name kind value s.remaining.length with
      | .error _ => { s with verdict := .failed }
      | .ok line => s.applyLine line

end RespState

variable {s : RespState} {x : Bytes} {name : String}

theorem parse_bulk {count : ℕ} (hb : s.bulk = some count) (x : Bytes) : s.parse x =
      if x.length < count + 2 then .more
      else if slice x count (count + 2) ≠ crlf then .fail ()
      else .frame (count + 2) (.bulk count) := by
  unfold RespState.parse
  rw [hb]

theorem parse_line (hb : s.bulk = none) (kind : UInt8) (rest : Bytes) : s.parse (kind :: rest) =
      if kind ∉ respKinds then .fail ()
      else
        match position crlf rest with
        | none => .more
        | some i => .frame (i + 3) (.line kind (rest.take i)) := by
  rw [RespState.parse, hb]

/-- What a frame of a nested value is, and that it is the same when more of the stream is there. -/
theorem parse_frame {n : ℕ} {token : RespToken} (h : s.parse x = .frame n token) :
    n ≤ x.length ∧ (∀ y, s.parse (x ++ y) = .frame n token) ∧
      ((∃ kind value, token = .line kind value ∧ n = value.length + 3) ∨
        ∃ count, token = .bulk count ∧ n = count + 2) := by
  cases hb : s.bulk with
  | some count =>
    rw [parse_bulk hb] at h
    split_ifs at h with hsh hend
    cases h
    refine ⟨by omega, fun y => ?_, .inr ⟨count, rfl, rfl⟩⟩
    have hs : slice (x ++ y) count (count + 2) = slice x count (count + 2) := by
      rw [slice, take_append_of_le_length (by omega), slice]
    rw [parse_bulk hb, if_neg (by rw [length_append]; omega), hs, if_neg hend]
  | none =>
    cases x with
    | nil =>
      rw [RespState.parse, hb] at h
      cases h
    | cons kind rest =>
      rw [parse_line hb] at h
      split_ifs at h with hk
      cases hf : position crlf rest with
      | none =>
        rw [hf] at h
        cases h
      | some i =>
        rw [hf] at h
        cases h
        have hend := add_length_le_of_position hf
        rw [show crlf.length = 2 from rfl] at hend
        have hl : (rest.take i).length = i := length_take_of_le (by omega)
        refine ⟨by rw [length_cons]; omega, fun y => ?_, .inl ⟨kind, rest.take i, rfl, by rw [hl]⟩⟩
        rw [cons_append, parse_line hb, if_neg (not_not.mpr hk), position_append hf]
        dsimp only
        rw [take_append_of_le_length (by omega)]

theorem parse_fail (h : s.parse x = .fail ()) (y : Bytes) : s.parse (x ++ y) = .fail () := by
  cases hb : s.bulk with
  | some count =>
    rw [parse_bulk hb] at h
    split_ifs at h with hsh hend
    have hs : slice (x ++ y) count (count + 2) = slice x count (count + 2) := by
      rw [slice, take_append_of_le_length (by omega), slice]
    rw [parse_bulk hb, if_neg (by rw [length_append]; omega), hs, if_pos hend]
  | none =>
    cases x with
    | nil =>
      rw [RespState.parse, hb] at h
      cases h
    | cons kind rest =>
      rw [parse_line hb] at h
      rw [cons_append, parse_line hb]
      split_ifs at h ⊢ with hk
      · split at h <;> cases h
      · rfl

/-- The machine of nested values. -/
def respMachine (name : String) : Framing.Machine UInt8 RespToken Unit RespState where
  parse := RespState.parse
  halted s := s.verdict != .running
  apply := RespState.apply name
  fail s _ := { s with verdict := .failed }
  frame_pos h := by
    obtain ⟨-, -, ⟨kind, value, -, rfl⟩ | ⟨count, -, rfl⟩⟩ := parse_frame h <;> omega
  frame_le h := (parse_frame h).1
  frame_append h := (parse_frame h).2.1
  fail_append h := parse_fail h
  halted_fail _ _ := rfl

/-! ### The loop and the machine -/

/-- A state of the loop and a running state of the machine that has taken the same bytes of the
stream; what the loop will not search again has no end of line. -/
structure Resp.Tracks (r : Resp) (s : RespState) (b : Bytes) : Prop where
  consumed : s.consumed = r.pos
  remaining : s.remaining = r.remaining
  nodes : s.nodes = r.nodes
  bulk : r.bulkEnd = s.bulk.map fun count => r.pos + count + 2
  running : s.verdict = .running
  pos_le : r.pos ≤ b.length
  searched : ∀ j, r.pos < j → j < r.scan → j + 1 < b.length ∧ ¬ crlf <+: b.drop j

/-- What a turn of the loop comes to, when the machine comes to `whole`. -/
def RespTurn.Meets (name : String) (b : Bytes) (whole : RespState × Bytes) (pos : ℕ) :
    RespTurn → Prop
  | .next r => pos < r.pos ∧ ∃ s, r.Tracks s b ∧ whole = (respMachine name).run s (b.drop r.pos)
  | .message length => whole.1.verdict = .complete ∧ whole.1.consumed = length
  | .wait r => ∃ s, r.Tracks s b ∧ whole = (s, b.drop r.pos)
  | .fail (.codec _) => whole.1.verdict = .failed
  | .fail (.bufferLimit _) => True

theorem RespTurn.Meets.mono {b : Bytes} {w : RespState × Bytes} {pos pos' : ℕ} {turn : RespTurn}
    (h : turn.Meets name b w pos) (hp : pos' ≤ pos) :
    turn.Meets name b w pos' := by
  cases turn with
  | next r => exact ⟨Nat.lt_of_le_of_lt hp h.1, h.2⟩
  | message length => exact h
  | wait r => exact h
  | fail error => cases error <;> exact h

namespace Resp

variable {name : String} {r : Resp} {s : RespState} {b : Bytes}

section

variable (h : r.Tracks s b)
include h

theorem Tracks.append (y : Bytes) : r.Tracks s (b ++ y) := by
  have hl : (b ++ y).length = b.length + y.length := length_append
  refine { h with pos_le := by have := h.pos_le; omega, searched := fun j hp hs => ?_ }
  obtain ⟨hj, hnot⟩ := h.searched j hp hs
  refine ⟨by omega, ?_⟩
  rwa [prefix_drop_append (by rw [show crlf.length = 2 from rfl]; omega)]

theorem Tracks.halted : (respMachine name).halted s = false := by
  show (s.verdict != .running) = false
  rw [h.running]
  rfl

/-- Where the next line ends is found without searching again. -/
theorem Tracks.position_eq (hp : r.pos < b.length) : position crlf (b.drop (r.pos + 1)) =
      (position crlf (b.drop (max r.scan (r.pos + 1)))).map
        (· + (max r.scan (r.pos + 1) - (r.pos + 1))) := by
  have hs : max r.scan (r.pos + 1) ≤ b.length := by
    rcases Nat.lt_or_ge (r.pos + 1) r.scan with hlt | hge
    · have := (h.searched (r.scan - 1) (by omega) (by omega)).1
      omega
    · omega
  rw [position_drop (k := max r.scan (r.pos + 1) - (r.pos + 1))]
  · rw [drop_drop, show r.pos + 1 + (max r.scan (r.pos + 1) - (r.pos + 1)) =
      max r.scan (r.pos + 1) by omega]
  · rw [length_drop]
    omega
  · intro j hj
    rw [drop_drop]
    exact (h.searched _ (by omega) (by omega)).2

theorem Tracks.wait (hn : position crlf (b.drop (r.pos + 1)) = none) :
    Tracks { r with scan := b.length - 1 } s b := by
  refine { h with searched := fun j hp hs => ?_ }
  dsimp only at hp hs
  refine ⟨by omega, fun hi => ?_⟩
  refine not_prefix_of_position_eq_none hn (j - (r.pos + 1)) ?_
  rwa [drop_drop, show r.pos + 1 + (j - (r.pos + 1)) = j by omega]

theorem Tracks.complete (hb : s.bulk = none) :
    if r.complete.1 then s.complete.verdict = .complete ∧ s.complete.consumed = r.pos
    else r.complete.2.Tracks s.complete b ∧ s.complete.bulk = none := by
  have hc : countDown s.remaining = countDown r.remaining := by rw [h.remaining]
  unfold RespState.complete Resp.complete
  rw [hc]
  split_ifs with hd
  · exact ⟨rfl, h.consumed⟩
  · exact ⟨{ h with remaining := rfl, running := rfl }, hb⟩

end

theorem applyLine_meets (name : String) (h : r.Tracks s b) (hb : s.bulk = none)
    (line : RespLine) {pos : ℕ} (hp : pos < r.pos) :
    (r.applyLine line).Meets name b
      ((respMachine name).run (s.applyLine line) (b.drop r.pos)) pos := by
  cases line with
  | bulk count => exact ⟨hp, s.applyLine (.bulk count), { h with bulk := rfl }, rfl⟩
  | array count =>
    exact ⟨hp, s.applyLine (.array count),
      { h with remaining := congrArg (count :: ·) h.remaining }, rfl⟩
  | complete =>
    have hc := h.complete hb
    show RespTurn.Meets name b ((respMachine name).run s.complete (b.drop r.pos)) pos
      (if r.complete.1 then .message r.pos else .next r.complete.2)
    split_ifs at hc ⊢ with hd
    · have hh : (respMachine name).halted s.complete = true := by
        show (s.complete.verdict != .running) = true
        rw [hc.1]
        rfl
      rw [Framing.Machine.run_of_halted hh]
      exact hc
    · exact ⟨hp, _, hc.1, rfl⟩

theorem run_of_failed (hs : s.verdict = .failed) (x : Bytes) :
    ((respMachine name).run s x).1.verdict = .failed := by
  have hh : (respMachine name).halted s = true := by
    show (s.verdict != .running) = true
    rw [hs]
    rfl
  rw [Framing.Machine.run_of_halted hh, hs]

theorem lineTurn_meets (name : String) (h : r.Tracks s b) (hb : s.bulk = none) :
    (r.lineTurn b name).Meets name b ((respMachine name).run s (b.drop r.pos)) r.pos := by
  unfold lineTurn
  cases hk : b[r.pos]? with
  | none =>
    have hend : b.drop r.pos = [] := drop_eq_nil_of_le (List.getElem?_eq_none_iff.mp hk)
    have hm : (respMachine name).parse s (b.drop r.pos) = .more := by
      rw [hend]
      show s.parse [] = .more
      rw [RespState.parse, hb]
    exact ⟨s, h, Framing.Machine.run_of_more hm⟩
  | some kind =>
    obtain ⟨hpos, hg⟩ := List.getElem?_eq_some_iff.mp hk
    have hc : b.drop r.pos = kind :: b.drop (r.pos + 1) := by
      rw [drop_eq_getElem_cons hpos, hg]
    have hp := parse_line hb kind (b.drop (r.pos + 1))
    have hps := h.position_eq hpos
    rw [← hc] at hp
    dsimp only
    by_cases hmem : kind ∉ respKinds
    · rw [if_pos hmem] at hp ⊢
      rw [Framing.Machine.run_of_fail h.halted hp]
      rfl
    rw [if_neg hmem] at hp ⊢
    have hge := Nat.le_max_right r.scan (r.pos + 1)
    generalize max r.scan (r.pos + 1) = start at hps hge ⊢
    cases hf : position crlf (b.drop start) with
    | none =>
      rw [hf, Option.map_none] at hps
      rw [hps] at hp
      exact ⟨s, h.wait hps, Framing.Machine.run_of_more hp⟩
    | some i =>
      rw [hf, Option.map_some] at hps
      rw [hps] at hp
      -- the line found is the frame of the machine
      have hend := add_length_le_of_position hf
      rw [show crlf.length = 2 from rfl, length_drop] at hend
      have hv : (b.drop (r.pos + 1)).take (i + (start - (r.pos + 1))) =
          slice b (r.pos + 1) (start + i) := by
        rw [slice, drop_take]
        congr 1
        omega
      have hlen : (slice b (r.pos + 1) (start + i)).length + 3 + r.pos = start + i + 2 := by
        rw [slice, length_drop, length_take]
        omega
      dsimp only at hp
      rw [hv] at hp
      rw [Framing.Machine.run_of_frame h.halted hp, drop_drop,
        show r.pos + (i + (start - (r.pos + 1)) + 3) = start + i + 2 by omega]
      dsimp only
      generalize slice b (r.pos + 1) (start + i) = value at hlen ⊢
      show RespTurn.Meets name b ((respMachine name).run (s.apply name (.line kind value))
        (b.drop (start + i + 2))) r.pos _
      unfold RespState.apply
      dsimp only
      rw [h.remaining, h.nodes]
      by_cases hn : maxNesting ≤ r.remaining.length
      · rw [if_pos hn, if_pos (.inl hn)]
        exact run_of_failed rfl _
      by_cases hr : maxRecords < r.nodes + 1
      · rw [if_neg hn, if_pos hr, if_pos (.inr hr)]
        exact run_of_failed rfl _
      rw [if_neg hn, if_neg hr, if_neg (not_or.mpr ⟨hn, hr⟩)]
      cases respLine name kind value r.remaining.length with
      | error error =>
        refine run_of_failed ?_ _
        rfl
      | ok line =>
        have ht : Tracks
            { r with pos := start + i + 2, scan := start + i + 2, nodes := r.nodes + 1 }
            { s with consumed := s.consumed + (value.length + 3), nodes := s.nodes + 1 } b :=
          { h with
            consumed := by
              show s.consumed + (value.length + 3) = start + i + 2
              rw [h.consumed]
              omega
            nodes := by rw [h.nodes]
            bulk := by rw [h.bulk, hb]; rfl
            pos_le := show start + i + 2 ≤ b.length by omega
            searched := fun j hlt hgt => absurd hlt (Nat.not_lt_of_lt hgt) }
        have hlt : r.pos < start + i + 2 := by omega
        have hl := applyLine_meets name ht hb line hlt
        rw [h.remaining, h.nodes] at hl
        exact hl

theorem turn_meets (name : String) (h : r.Tracks s b) (m : ℕ) :
    (r.turn b m name).Meets name b ((respMachine name).run s (b.drop r.pos)) r.pos := by
  have hend := h.bulk
  unfold turn
  cases hb : s.bulk with
  | none =>
    rw [hb, Option.map_none] at hend
    rw [hend]
    exact lineTurn_meets name h hb
  | some count =>
    rw [hb, Option.map_some] at hend
    rw [hend]
    have hp := parse_bulk hb (b.drop r.pos)
    have hsl : slice (b.drop r.pos) count (count + 2) =
        slice b (r.pos + count + 2 - 2) (r.pos + count + 2) := by
      rw [slice, slice, take_drop, drop_drop, Nat.add_sub_cancel, Nat.add_assoc]
    dsimp only
    by_cases hl : m < r.pos + count + 2
    · rw [if_pos hl]
      trivial
    rw [if_neg hl]
    rw [hsl] at hp
    by_cases hs : b.length < r.pos + count + 2
    · rw [if_pos hs]
      rw [if_pos (by rw [length_drop]; omega)] at hp
      exact ⟨s, h, Framing.Machine.run_of_more hp⟩
    rw [if_neg hs]
    rw [if_neg (by rw [length_drop]; omega)] at hp
    by_cases hcr : slice b (r.pos + count + 2 - 2) (r.pos + count + 2) ≠ crlf
    · rw [if_pos hcr] at hp ⊢
      show ((respMachine name).run s (b.drop r.pos)).1.verdict = .failed
      rw [Framing.Machine.run_of_fail h.halted hp]
      rfl
    rw [if_neg hcr] at hp ⊢
    rw [Framing.Machine.run_of_frame h.halted hp, drop_drop]
    -- the value of the bulk string is complete; the turn goes on with the next line
    have ht : Tracks { r with pos := r.pos + count + 2, scan := r.pos + count + 2, bulkEnd := none }
        { s with consumed := s.consumed + (count + 2), bulk := none } b :=
      { h with
        consumed := by
          show s.consumed + (count + 2) = r.pos + count + 2
          rw [h.consumed, Nat.add_assoc]
        bulk := rfl
        pos_le := show r.pos + count + 2 ≤ b.length by omega
        searched := fun j hlt hgt => absurd hlt (Nat.not_lt_of_lt hgt) }
    have hc := ht.complete rfl
    show RespTurn.Meets name b ((respMachine name).run
      (RespState.complete { s with consumed := s.consumed + (count + 2), bulk := none })
      (b.drop (r.pos + (count + 2)))) r.pos _
    generalize RespState.complete _ = after at hc ⊢
    split_ifs at hc ⊢ with hd
    · have hh : (respMachine name).halted after = true := by
        show (after.verdict != .running) = true
        rw [hc.1]
        rfl
      rw [Framing.Machine.run_of_halted hh]
      exact hc
    · have hln := lineTurn_meets name hc.1 hc.2
      rw [show r.pos + (count + 2) = r.pos + count + 2 from (Nat.add_assoc ..).symm]
      exact hln.mono (show r.pos ≤ r.pos + count + 2 by omega)

/-- The loop, with enough turns, is a run of the machine. -/
theorem loop_spec (name : String) {fuel : ℕ} (hf : b.length - r.pos < fuel)
    (h : r.Tracks s b) (m : ℕ) :
    match loop b m name fuel r with
    | .ok (.message length, _) =>
      ((respMachine name).run s (b.drop r.pos)).1.verdict = .complete ∧
        ((respMachine name).run s (b.drop r.pos)).1.consumed = length
    | .ok (.incomplete, r') =>
      ∃ s', r'.Tracks s' b ∧ (respMachine name).run s (b.drop r.pos) = (s', b.drop r'.pos)
    | .ok (.skip _, _) => False
    | .error (.codec _) => ((respMachine name).run s (b.drop r.pos)).1.verdict = .failed
    | .error (.bufferLimit _) => True := by
  induction fuel generalizing r s with
  | zero => exact absurd hf (Nat.not_lt_zero _)
  | succ fuel ih =>
    rw [loop]
    have ht := turn_meets name h m
    generalize r.turn b m name = turn at ht ⊢
    cases turn with
    | next r' =>
      obtain ⟨hlt, s', htr, hr⟩ := ht
      have hp := htr.pos_le
      have hrs := ih (r := r') (s := s') (by omega) htr
      rwa [← hr] at hrs
    | message length => exact ht
    | wait r' => exact ht
    | fail error =>
      cases error with
      | codec error => exact ht
      | bufferLimit l => trivial

end Resp

/-! ### What the front of a stream of nested values holds -/

/-- The outermost value at the front of a stream: how many bytes it has. -/
def respFront (name : String) (x : Bytes) : Framing.Front ℕ Unit :=
  let s := ((respMachine name).run {} x).1
  match s.verdict with
  | .running => .more
  | .complete => .frame s.consumed s.consumed
  | .failed => .fail ()

theorem consumed_applyLine (s : RespState) (line : RespLine) :
    (s.applyLine line).consumed = s.consumed := by
  cases line <;> rfl

theorem consumed_apply (name : String) {n : ℕ} {token : RespToken}
    (h : s.parse x = .frame n token) : (s.apply name token).consumed = s.consumed + n := by
  obtain ⟨-, -, ⟨kind, value, rfl, rfl⟩ | ⟨count, rfl, rfl⟩⟩ := parse_frame h
  · unfold RespState.apply
    dsimp only
    split_ifs
    · rfl
    · split
      · rfl
      · exact consumed_applyLine _ _
  · rfl

/-- Along a run the bytes taken and those left are the bytes of the stream; a value that has ended
has some. -/
theorem consumed_run (name : String) (x : Bytes) :
    ((respMachine name).run {} x).1.consumed + ((respMachine name).run {} x).2.length = x.length ∧
      (((respMachine name).run {} x).1.verdict = .complete →
        0 < ((respMachine name).run {} x).1.consumed) := by
  refine Framing.Machine.run_invariant
    (fun (s : RespState) (y : Bytes) => s.consumed + y.length = x.length ∧
      (s.verdict = .complete → 0 < s.consumed)) ?_ ?_ ⟨Nat.zero_add _, nofun⟩
  · rintro s y n token - hp ⟨hb, -⟩
    have hle := (parse_frame hp).1
    have hpos := (respMachine name).frame_pos hp
    have hc := consumed_apply name hp
    refine ⟨?_, fun _ => ?_⟩
    · show (s.apply name token).consumed + (y.drop n).length = x.length
      rw [hc, length_drop]
      omega
    · show 0 < (s.apply name token).consumed
      omega
  · rintro s y error - - ⟨hb, -⟩
    exact ⟨hb, nofun⟩

theorem respFront_eq_frame {n m : ℕ} :
    respFront name x = .frame n m ↔ ((respMachine name).run {} x).1.verdict = .complete ∧
      ((respMachine name).run {} x).1.consumed = n ∧ m = n := by
  unfold respFront
  dsimp only
  generalize ((respMachine name).run {} x).1 = s
  cases hv : s.verdict <;> simp [eq_comm]
  intro hn
  rw [hn, eq_comm]

theorem respFront_eq_fail :
    respFront name x = .fail () ↔ ((respMachine name).run {} x).1.verdict = .failed := by
  unfold respFront
  dsimp only
  generalize ((respMachine name).run {} x).1 = s
  cases hv : s.verdict <;> simp

theorem respFront_eq_more :
    respFront name x = .more ↔ ((respMachine name).run {} x).1.verdict = .running := by
  unfold respFront
  dsimp only
  generalize ((respMachine name).run {} x).1 = s
  cases hv : s.verdict <;> simp

/-- Once the value has ended, or failed, what follows makes no difference. -/
theorem run_append_of_ne_running (h : ((respMachine name).run {} x).1.verdict ≠ .running)
    (y : Bytes) :
    ((respMachine name).run {} (x ++ y)).1 = ((respMachine name).run {} x).1 := by
  have hh : (respMachine name).halted ((respMachine name).run {} x).1 = true := bne_iff_ne.mpr h
  rw [Framing.Machine.run_append, Framing.Machine.run_of_halted hh]

end PacketCraftr.Messages
