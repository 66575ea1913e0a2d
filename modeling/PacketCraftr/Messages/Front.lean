import PacketCraftr.Messages.Values

/-!
# What the front of a stream holds

What a new framer says of the front of a stream, as a function of the bytes: the length of the
message there, when enough of it has arrived. It never changes its mind about a longer front.
-/

open List

namespace PacketCraftr.Messages

open Search

/-! ### Messages that announce their length -/

/-- What is known of the length of the message at the front of a stream. -/
inductive Extent
  | unknown
  | skip (length : ℕ)
  | length (length : ℕ)
  deriving DecidableEq, Repr

/-- The length of a message whose head says it. -/
def headExtent (kind : Framing) (name : String) (b : Bytes) : Except CodecError Extent :=
  match position crlfCrlf b with
  | none =>
    if 65536 < b.length then .error (.invalid name "header exceeds 65536 bytes") else .ok .unknown
  | some offset => (textLength kind name (b.take (offset + 4))).map .length

/-- The length of a text message, or of the bytes that stand for none. -/
def textExtent (kind : Framing) (name : String) (b : Bytes) : Except CodecError Extent :=
  if kind = .sip ∧ crlf <+: b then .ok (.skip 2)
  else if kind = .rtsp ∧ b.head? = some 36 then
    .ok (if b.length < 4 then .unknown else .length (4 + be16At b 2))
  else headExtent kind name b

/-- What is known of the length of the message at the front of a stream, for a protocol whose
messages announce it. No stream has LACP messages: there one byte is taken for a message whose
version is not looked at any more. -/
def extent (kind : Framing) (name : String) (b : Bytes) : Except CodecError Extent :=
  match kind with
  | .sip | .rtsp => textExtent kind name b
  | .lacp => .ok .unknown
  | _ => (lengthOf kind name b).map fun length => length.elim .unknown .length

variable {b x : Bytes} {n length len : ℕ} {read : Bytes → Except CodecError ℕ}
  {r : Except CodecError (Option ℕ)} {name : String} {kind : Framing} {error : CodecError}
  {isMessage : Bool}

theorem byteAt_append {i : ℕ} (h : i < b.length) (y : Bytes) : byteAt (b ++ y) i = byteAt b i := by
  unfold byteAt
  rw [getD_eq_getElem?_getD, getD_eq_getElem?_getD, getElem?_append_left h]

theorem slice_append {i j : ℕ} (h : j ≤ b.length) (y : Bytes) :
    slice (b ++ y) i j = slice b i j := by
  rw [slice, take_append_of_le_length h, slice]

theorem whenHeld_append (hr : r ≠ .ok none) (h : whenHeld n b read = r) (y : Bytes) :
    whenHeld n (b ++ y) read = r := by
  unfold whenHeld at h ⊢
  split_ifs at h with hl
  · exact absurd h.symm hr
  · rw [if_neg (by rw [length_append]; omega), take_append_of_le_length (by omega)]
    exact h

theorem remainingLength_append {left : ℕ} (hr : r ≠ .ok none)
    (h : remainingLength name left length b = r) (y : Bytes) :
    remainingLength name left length (b ++ y) = r := by
  induction left generalizing length b with
  | zero =>
    exact h
  | succ left ih =>
    cases b with
    | nil =>
      rw [remainingLength] at h
      exact absurd h.symm hr
    | cons v rest =>
      rw [cons_append]
      rw [remainingLength] at h ⊢
      split_ifs at h ⊢
      · exact h
      · exact h
      · exact ih h

theorem berLength_append (hr : r ≠ .ok none) (h : berLength name b = r) (y : Bytes) :
    berLength name (b ++ y) = r := by
  unfold berLength at h ⊢
  dsimp only at h ⊢
  by_cases hs : b.length < 2
  · rw [if_pos hs] at h
    exact absurd h.symm hr
  have hl : (b ++ y).length = b.length + y.length := length_append
  rw [if_neg hs] at h
  rw [if_neg (by omega), byteAt_append (by omega), byteAt_append (by omega)]
  -- the bytes of a long length are there, or the length is not known
  by_cases hh : b.length < (byteAt b 1 &&& 127).toNat + 2
  · rw [if_pos hh] at h
    split_ifs at h ⊢ <;> first | exact h | exact absurd h.symm hr
  · rw [if_neg hh] at h
    by_cases hc : (byteAt b 1 &&& 127).toNat = 0
    · rw [if_pos hc] at h ⊢
      exact h
    · rw [if_neg (by omega : ¬ (b ++ y).length < _), slice_append (by omega),
        byteAt_append (by omega)]
      exact h

/-- A length that is announced, or an error, is the same when more of the stream is there. -/
theorem lengthOf_append (hk : kind ≠ .lacp) (hr : r ≠ .ok none) (h : lengthOf kind name b = r)
    (y : Bytes) : lengthOf kind name (b ++ y) = r := by
  unfold lengthOf at h ⊢
  cases kind with
  | ber => exact berLength_append hr h y
  | datagram | resp | sip | rtsp => exact absurd h.symm hr
  | mqtt =>
    dsimp only at h ⊢
    split_ifs at h with hs
    · exact absurd h.symm hr
    · rw [if_neg (by rw [length_append]; omega), drop_append_of_le_length (by omega)]
      exact remainingLength_append hr h y
  | lacp => exact absurd rfl hk
  | amqp =>
    dsimp only at h ⊢
    by_cases hp : amqpPreface.take 4 <+: b
    · rw [if_pos hp] at h
      rw [if_pos (hp.trans (prefix_append b y))]
      exact h
    · rw [if_neg hp] at h
      have hln : ¬ b.length < 7 := by
        intro hs
        rw [whenHeld, if_pos hs] at h
        exact hr h.symm
      rw [if_neg]
      · exact whenHeld_append hr h y
      · intro hp'
        have hl : (amqpPreface.take 4).length ≤ b.length := by
          rw [show (amqpPreface.take 4).length = 4 from rfl]
          omega
        exact hp (prefix_of_prefix_length_le hp' (prefix_append b y) hl)
  | memcached =>
    cases b with
    | nil => exact absurd h.symm hr
    | cons v rest =>
      have hh : (v :: rest ++ y).head? = (v :: rest).head? := rfl
      rw [hh]
      by_cases hm : ((v :: rest).head?.any fun v => !isMemcachedMagic v) = true
      · rw [if_pos hm] at h ⊢
        exact h
      · rw [if_neg hm] at h ⊢
        exact whenHeld_append hr h y
  | control | bgp | ipfix | radius | stun | modbusTcp | dnp3 | ethernetIp | iec104 | opcuaTcp =>
    exact whenHeld_append hr h y

theorem be16At_append {i : ℕ} (h : i + 1 < b.length) (y : Bytes) :
    be16At (b ++ y) i = be16At b i := by
  rw [be16At, be16At, byteAt_append (by omega), byteAt_append h]

theorem crlf_prefix_append (h : 2 ≤ b.length) (y : Bytes) : crlf <+: b ++ y ↔ crlf <+: b := by
  have hend : 0 + crlf.length ≤ b.length := by
    rw [show crlf.length = 2 from rfl]
    omega
  have hp := prefix_drop_append hend y
  rwa [drop_zero, drop_zero] at hp

theorem head?_append (h : b ≠ []) (y : Bytes) : (b ++ y).head? = b.head? := by
  cases b with
  | nil => exact absurd rfl h
  | cons v rest => rfl

/-- A head that was not found in the bytes that were there ends behind them. -/
theorem length_lt_of_position_append {y : Bytes} {o : ℕ} (hn : position crlfCrlf b = none)
    (hs : position crlfCrlf (b ++ y) = some o) : b.length < o + 4 := by
  by_contra hle
  obtain ⟨hf, -, -⟩ := position_eq_some.mp hs
  rw [prefix_drop_append (by rw [show crlfCrlf.length = 4 from rfl]; omega)] at hf
  exact not_prefix_of_position_eq_none hn o hf

/-- Bytes of which a head says something are neither of the other kinds of text. -/
theorem textExtent_append_eq (hl : 2 ≤ b.length) (hs : ¬ (kind = .sip ∧ crlf <+: b))
    (hf : ¬ (kind = .rtsp ∧ b.head? = some 36)) (y : Bytes) :
    textExtent kind name (b ++ y) = headExtent kind name (b ++ y) := by
  have hne : b ≠ [] := by
    rintro rfl
    exact absurd hl (by simp)
  rw [textExtent, if_neg, if_neg]
  · rwa [head?_append hne]
  · rwa [crlf_prefix_append hl]

theorem headExtent_append (kind : Framing) (name : String) {o : ℕ}
    (hf : position crlfCrlf b = some o) (y : Bytes) :
    4 ≤ b.length ∧ headExtent kind name (b ++ y) = headExtent kind name b := by
  have hend := add_length_le_of_position hf
  rw [show crlfCrlf.length = 4 from rfl] at hend
  rw [headExtent, headExtent, position_append hf, hf]
  dsimp only
  rw [take_append_of_le_length hend]
  exact ⟨by omega, rfl⟩

/-- What is known of the message at the front stays when more of the stream is there. -/
def Settles (r r' : Except CodecError Extent) : Prop :=
  match r with
  | .ok .unknown => True
  | .ok e => r' = .ok e
  | .error _ => ∃ error, r' = .error error

theorem Settles.refl (r : Except CodecError Extent) : Settles r r := by
  rcases r with error | (_ | _ | _)
  exacts [⟨error, rfl⟩, trivial, rfl, rfl]

theorem textExtent_settles (kind : Framing) (name : String) (b y : Bytes) :
    Settles (textExtent kind name b) (textExtent kind name (b ++ y)) := by
  have hl : (b ++ y).length = b.length + y.length := length_append
  by_cases hs : kind = .sip ∧ crlf <+: b
  · rw [textExtent, if_pos hs, textExtent, if_pos ⟨hs.1, hs.2.trans (prefix_append b y)⟩]
    exact .refl _
  by_cases hf : kind = .rtsp ∧ b.head? = some 36
  · rw [textExtent, if_neg hs, if_pos hf]
    split_ifs with hsh
    · trivial
    · have hne : b ≠ [] := by
        rintro rfl
        exact hsh (by decide)
      have hnot : ¬ (kind = .sip ∧ crlf <+: b ++ y) := by
        rintro ⟨hk, -⟩
        rw [hf.1] at hk
        cases hk
      rw [textExtent, if_neg hnot, if_pos ⟨hf.1, (head?_append hne y).trans hf.2⟩,
        if_neg (by omega), be16At_append (by omega)]
      exact .refl _
  rw [textExtent, if_neg hs, if_neg hf]
  cases hfn : position crlfCrlf b with
  | some o =>
    obtain ⟨hl, hsm⟩ := headExtent_append kind name hfn y
    rw [textExtent_append_eq (by omega) hs hf, hsm]
    exact .refl _
  | none =>
    rw [headExtent, hfn]
    split_ifs with hlr
    swap
    · trivial
    rw [textExtent_append_eq (by omega) hs hf, headExtent]
    cases hfn' : position crlfCrlf (b ++ y) with
    | none =>
      dsimp only
      rw [if_pos (by omega)]
      exact .refl _
    | some o =>
      -- the head ends behind the bytes that were there, so that it is too long
      have hlt := length_lt_of_position_append hfn hfn'
      obtain ⟨error', he⟩ := contentLength_of_too_large name (position_take hfn') (by omega)
      rw [show o + crlfCrlf.length = o + 4 from rfl] at he
      refine ⟨error', ?_⟩
      simp only [textLength, he]
      rfl

theorem extent_of_length (ht : ¬ (kind = .sip ∨ kind = .rtsp)) (hl : kind ≠ .lacp) :
    extent kind name b = (lengthOf kind name b).map fun length => length.elim .unknown .length := by
  cases kind with
  | sip => exact absurd (.inl rfl) ht
  | rtsp => exact absurd (.inr rfl) ht
  | lacp => exact absurd rfl hl
  | _ => rfl

/-- A length that is known is the same when more of the stream is there, and so is an error. -/
theorem extent_settles (kind : Framing) (name : String) (b y : Bytes) :
    Settles (extent kind name b) (extent kind name (b ++ y)) := by
  by_cases ht : kind = .sip ∨ kind = .rtsp
  · rcases ht with rfl | rfl <;> exact textExtent_settles _ name b y
  by_cases hl : kind = .lacp
  · subst hl
    trivial
  rw [extent_of_length ht hl, extent_of_length ht hl]
  cases hlen : lengthOf kind name b with
  | error error =>
    rw [lengthOf_append hl (by simp) hlen y]
    exact .refl _
  | ok length =>
    cases length with
    | none => trivial
    | some n =>
      rw [lengthOf_append hl (by simp) hlen y]
      exact .refl _

theorem extent_append {e : Extent} (he : e ≠ .unknown) (h : extent kind name b = .ok e)
    (y : Bytes) : extent kind name (b ++ y) = .ok e := by
  have hs := extent_settles kind name b y
  rw [h] at hs
  cases e with
  | unknown => exact absurd rfl he
  | skip n => exact hs
  | length n => exact hs

/-! ### Lengths are positive -/

theorem whenHeld_pos (hr : ∀ head len, read head = .ok len → 0 < len)
    (h : whenHeld n b read = .ok (some len)) :
    0 < len := by
  unfold whenHeld at h
  split_ifs at h
  · cases h
  cases hl : read (b.take n) with
  | error error =>
    rw [hl] at h
    cases h
  | ok len' =>
    rw [hl] at h
    cases h
    exact hr _ _ hl

theorem within_ok {low high : ℕ} (h : within low high length error = .ok len) : low ≤ len := by
  unfold within at h
  split_ifs at h with hb
  cases h
  exact hb.1

theorem remainingLength_pos {left : ℕ} (h : remainingLength name left length b = .ok (some len)) :
    0 < len := by
  induction left generalizing length b with
  | zero => cases h
  | succ left ih =>
    cases b with
    | nil => cases h
    | cons v rest =>
      rw [remainingLength] at h
      split_ifs at h
      · cases h
        omega
      · exact ih h

theorem berLength_pos (h : berLength name b = .ok (some len)) : 0 < len := by
  unfold berLength at h
  dsimp only at h
  split_ifs at h <;> cases h <;> omega

theorem lengthOf_pos (h : lengthOf kind name b = .ok (some len)) : 0 < len := by
  unfold lengthOf at h
  cases kind with
  | datagram | resp | sip | rtsp => cases h
  | lacp =>
    cases b with
    | nil => cases h
    | cons s rest =>
      dsimp only at h
      split_ifs at h
      cases h
      decide
  | mqtt =>
    dsimp only at h
    split_ifs at h
    · cases h
    · exact remainingLength_pos h
  | amqp =>
    dsimp only at h
    split_ifs at h
    · cases h
      decide
    · refine whenHeld_pos (fun head len hr => ?_) h
      cases hr
      omega
  | ber => exact berLength_pos h
  | memcached =>
    dsimp only at h
    split_ifs at h
    refine whenHeld_pos (fun head len hr => ?_) h
    cases hr
    omega
  | bgp => exact whenHeld_pos (fun head len hr => Nat.lt_of_lt_of_le (by omega)
      (within_ok hr)) h
  | radius => exact whenHeld_pos (fun head len hr => Nat.lt_of_lt_of_le (by omega)
      (within_ok hr)) h
  | modbusTcp =>
    refine whenHeld_pos (fun head len hr => ?_) h
    obtain ⟨l, -, hr⟩ := Except.bind_eq_ok.mp hr
    cases hr
    omega
  | stun | ethernetIp =>
    refine whenHeld_pos (fun head len hr => ?_) h
    cases hr
    omega
  | control | ipfix | dnp3 | iec104 | opcuaTcp =>
    refine whenHeld_pos (fun head len hr => ?_) h
    split_ifs at hr
    cases hr
    omega

theorem textLength_pos {head : Bytes} (h : textLength kind name head = .ok len) :
    head.length ≤ len := by
  obtain ⟨length, -, h⟩ := Except.bind_eq_ok.mp h
  obtain ⟨-, h⟩ := Except.rejectIf_bind_eq_ok.mp h
  obtain ⟨-, h⟩ := Except.rejectIf_bind_eq_ok.mp h
  cases h
  omega

/-- The bytes that stand for no message are an end of line between SIP messages, and those that are
known to be a message are at least one. -/
theorem extent_known {e : Extent} (h : extent kind name b = .ok e) : match e with
    | .unknown => True
    | .skip n => kind = .sip ∧ crlf <+: b ∧ n = 2
    | .length n => 0 < n := by
  by_cases ht : kind = .sip ∨ kind = .rtsp
  · have h : textExtent kind name b = .ok e := by rcases ht with rfl | rfl <;> exact h
    unfold textExtent at h
    split_ifs at h with hs
    · cases h
      exact ⟨hs.1, hs.2, rfl⟩
    · cases h
      trivial
    · cases h
      omega
    · unfold headExtent at h
      split at h
      · split_ifs at h
        cases h
        trivial
      · rename_i offset hf
        have hend := add_length_le_of_position hf
        rw [show crlfCrlf.length = 4 from rfl] at hend
        cases hl : textLength kind name (b.take (offset + 4)) with
        | error error =>
          rw [hl] at h
          cases h
        | ok len =>
          have hle := textLength_pos hl
          rw [hl] at h
          rw [length_take] at hle
          cases h
          dsimp only
          omega
  by_cases hlc : kind = .lacp
  · subst hlc
    cases h
    trivial
  rw [extent_of_length ht hlc] at h
  cases hl : lengthOf kind name b with
  | error error =>
    rw [hl] at h
    cases h
  | ok length =>
    rw [hl] at h
    cases length with
    | none =>
      cases h
      trivial
    | some len =>
      cases h
      exact lengthOf_pos hl

/-! ### The front of a stream -/

/-- A piece of a stream: a message, or bytes that stand for none. -/
structure Piece where
  isMessage : Bool
  bytes : Bytes
  deriving DecidableEq, Repr

/-- A piece of this length at the front of a stream, when all of it is there. -/
def piece (isMessage : Bool) (n : ℕ) (x : Bytes) : Framing.Front Piece Unit :=
  if n ≤ x.length then .frame n ⟨isMessage, x.take n⟩ else .more

/-- What the front of a stream holds. -/
def front (kind : Framing) (name : String) (x : Bytes) : Framing.Front Piece Unit :=
  match kind with
  | .resp =>
    match respFront name x with
    | .more => .more
    | .frame n _ => piece true n x
    | .fail error => .fail error
  | _ =>
    match extent kind name x with
    | .error _ => .fail ()
    | .ok .unknown => .more
    | .ok (.skip n) => piece false n x
    | .ok (.length n) => piece true n x

theorem front_resp (name : String) (x : Bytes) : front .resp name x = match respFront name x with
      | .more => .more
      | .frame n _ => piece true n x
      | .fail error => .fail error := rfl

theorem front_of_ne_resp (h : kind ≠ .resp) (name : String) (x : Bytes) : front kind name x =
      match extent kind name x with
      | .error _ => .fail ()
      | .ok .unknown => .more
      | .ok (.skip n) => piece false n x
      | .ok (.length n) => piece true n x := by
  cases kind <;> first | rfl | exact absurd rfl h

variable {p : Piece}

theorem piece_eq_frame {m : ℕ} (h : piece isMessage n x = .frame m p) :
    n = m ∧ m ≤ x.length ∧ p = ⟨isMessage, x.take m⟩ := by
  unfold piece at h
  split_ifs at h with hle
  cases h
  exact ⟨rfl, hle, rfl⟩

theorem piece_append {m : ℕ} (h : piece isMessage n x = .frame m p) (y : Bytes) :
    piece isMessage n (x ++ y) = .frame m p := by
  obtain ⟨rfl, hle, rfl⟩ := piece_eq_frame h
  rw [piece, if_pos (by rw [length_append]; omega), take_append_of_le_length hle]

theorem piece_ne_fail {error : Unit} : piece isMessage n x ≠ .fail error := by
  unfold piece
  split_ifs <;> exact nofun

/-- A piece at the front of a stream, and that it is the same when more of the stream is there. -/
theorem front_frame (h : front kind name x = .frame n p) :
    0 < n ∧ n ≤ x.length ∧ p.bytes = x.take n ∧ ∀ y, front kind name (x ++ y) = .frame n p := by
  by_cases hr : kind = .resp
  · subst hr
    rw [front_resp] at h
    cases hf : respFront name x with
    | more =>
      rw [hf] at h
      cases h
    | fail error =>
      rw [hf] at h
      cases h
    | frame m k =>
      rw [hf] at h
      obtain ⟨hc, hcn, rfl⟩ := respFront_eq_frame.mp hf
      obtain ⟨rfl, hle, rfl⟩ := piece_eq_frame h
      refine ⟨hcn ▸ (consumed_run name x).2 hc, hle, rfl, fun y => ?_⟩
      have hs := run_append_of_ne_running (x := x) (by rw [hc]; exact nofun) y
      have hf' : respFront name (x ++ y) = .frame k k :=
        respFront_eq_frame.mpr ⟨hs ▸ hc, hs ▸ hcn, rfl⟩
      rw [front_resp, hf']
      exact piece_append h y
  · rw [front_of_ne_resp hr] at h
    cases he : extent kind name x with
    | error error =>
      rw [he] at h
      cases h
    | ok e =>
      rw [he] at h
      cases e with
      | unknown => cases h
      | skip m =>
        have hk : Extent.skip m ≠ .unknown := nofun
        obtain ⟨rfl, hle, rfl⟩ := piece_eq_frame h
        refine ⟨by rw [(extent_known he).2.2]; decide, hle, rfl, fun y => ?_⟩
        rw [front_of_ne_resp hr, extent_append hk he y]
        exact piece_append h y
      | length m =>
        have hk : Extent.length m ≠ .unknown := nofun
        obtain ⟨rfl, hle, rfl⟩ := piece_eq_frame h
        refine ⟨extent_known he, hle, rfl, fun y => ?_⟩
        rw [front_of_ne_resp hr, extent_append hk he y]
        exact piece_append h y

theorem front_fail {error : Unit} (h : front kind name x = .fail error) (y : Bytes) :
    front kind name (x ++ y) = .fail error := by
  by_cases hr : kind = .resp
  · subst hr
    rw [front_resp] at h
    cases hf : respFront name x with
    | more =>
      rw [hf] at h
      cases h
    | frame m k =>
      rw [hf] at h
      exact absurd h piece_ne_fail
    | fail error =>
      have hfl := respFront_eq_fail.mp hf
      have hsm := run_append_of_ne_running (x := x) (by rw [hfl]; exact nofun) y
      rw [front_resp, respFront_eq_fail.mpr (hsm ▸ hfl)]
  · rw [front_of_ne_resp hr] at h
    cases he : extent kind name x with
    | error error =>
      have hs := extent_settles kind name x y
      rw [he] at hs
      obtain ⟨error', herr⟩ := hs
      rw [front_of_ne_resp hr, herr]
    | ok e =>
      rw [he] at h
      cases e with
      | unknown => cases h
      | skip m => exact absurd h piece_ne_fail
      | length m => exact absurd h piece_ne_fail

theorem front_nil (kind : Framing) (name : String) : front kind name [] = .more := by
  by_cases hr : kind = .resp
  · subst hr
    have hrn : ((respMachine name).run {} []).1.verdict = .running := by
      rw [Framing.Machine.run_of_more rfl]
    rw [front_resp, respFront_eq_more.mpr hrn]
  · rw [front_of_ne_resp hr]
    cases kind <;> rfl

theorem front_skip (h : front kind name x = .frame n p) (hp : p.isMessage = false) :
    p.bytes = crlf := by
  by_cases hr : kind = .resp
  · subst hr
    rw [front_resp] at h
    split at h
    · cases h
    · obtain ⟨-, -, rfl⟩ := piece_eq_frame h
      cases hp
    · cases h
  rw [front_of_ne_resp hr] at h
  split at h
  · cases h
  · cases h
  · rename_i m he
    obtain ⟨rfl, -, rfl⟩ := piece_eq_frame h
    obtain ⟨-, hc, rfl⟩ := extent_known he
    exact (prefix_iff_eq_take.mp hc).symm
  · obtain ⟨-, -, rfl⟩ := piece_eq_frame h
    cases hp

end PacketCraftr.Messages
