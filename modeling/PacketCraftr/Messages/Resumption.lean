import PacketCraftr.Messages.Front

/-!
# Framers that resume

A framer that has been asked about the front of a stream says of a longer front what a new framer
says of it: what it kept has not become wrong.
-/

namespace PacketCraftr.Messages

namespace Framer

variable {kind : Framing} {name : String} {f : Framer} {b : Bytes}

/-- What a framer of a stream keeps about the bytes it has seen. -/
structure Resumes (kind : Framing) (name : String) (f : Framer) (b : Bytes) : Prop where
  kind_eq : f.kind = kind
  name_eq : f.name = name
  /-- The length it found is the length of the message. -/
  expected : ∀ stop, f.expected = some stop →
    kind ≠ .resp ∧ extent kind name b = .ok (.length stop)
  scan_le : f.scan ≤ b.length
  /-- No head ends where it has searched. -/
  scanned : ∀ j, j + 4 ≤ f.scan → ¬ crlfCrlf <+: b.drop j
  resp : kind = .resp →
    ∃ s, f.resp.Tracks s b ∧ (respMachine name).run {} b = (s, b.drop f.resp.pos)

theorem resumes_new (kind : Framing) (name : String) : Resumes kind name (new kind name) [] where
  kind_eq := rfl
  name_eq := rfl
  expected := nofun
  scan_le := Nat.zero_le _
  scanned _ h := absurd h (by simp [new])
  resp _ := by
    refine ⟨{}, ⟨rfl, rfl, rfl, rfl, rfl, Nat.zero_le _, fun j _ h => absurd h ?_⟩, ?_⟩
    · exact Nat.not_lt_zero j
    · exact Framing.Machine.run_of_more rfl

/-- What a framer that is asked about `x` comes to. -/
def Meets (kind : Framing) (name : String) (x : Bytes) : Except Error (Progress × Framer) → Prop
  | .ok (.incomplete, f) => front kind name x = .more ∧ f.Resumes kind name x
  | .ok (.skip n, _) => front kind name x = .frame n ⟨false, x.take n⟩
  | .ok (.message n, _) => front kind name x = .frame n ⟨true, x.take n⟩
  | .error (.codec _) => front kind name x = .fail ()
  | .error (.bufferLimit _) => True

variable {x : Bytes}

theorem ready_meets (hr : kind ≠ .resp) {len : ℕ}
    (he : extent kind name x = .ok (.length len)) (hf : f.Resumes kind name x) (m : ℕ) :
    Meets kind name x ((ready x len m).map fun progress => (progress, f)) := by
  have hfr : front kind name x = piece true len x := by rw [front_of_ne_resp hr, he]
  unfold ready
  split_ifs with hl hle
  · trivial
  · show front kind name x = _
    rw [hfr, piece, if_pos hle]
  · refine ⟨?_, hf⟩
    rw [hfr, piece, if_neg hle]

theorem extent_length_append {stop : ℕ} (h : extent kind name b = .ok (.length stop)) (y : Bytes) :
    extent kind name (b ++ y) = .ok (.length stop) := by
  have hk : Extent.length stop ≠ .unknown := nofun
  exact extent_append hk h y

theorem Resumes.append (h : f.Resumes kind name b) (hr : kind ≠ .resp) (y : Bytes) :
    f.Resumes kind name (b ++ y) where
  kind_eq := h.kind_eq
  name_eq := h.name_eq
  expected stop hs := ⟨hr, extent_length_append (h.expected stop hs).2 y⟩
  scan_le := by
    have := h.scan_le
    rw [List.length_append]
    omega
  scanned j hj := by
    have := h.scan_le
    rw [Search.prefix_drop_append (by rw [show crlfCrlf.length = 4 from rfl]; omega)]
    exact h.scanned j hj
  resp hk := absurd hk hr

theorem settle_meets (hr : kind ≠ .resp) {len : ℕ}
    (he : extent kind name x = .ok (.length len)) (hf : f.Resumes kind name x) (m : ℕ) :
    Meets kind name x (f.settle x len m) := by
  have hk : Resumes kind name { f with expected := some len } x :=
    { hf with
      expected := fun stop hs => by
        cases hs
        exact ⟨hr, he⟩
      resp := fun hkn => absurd hkn hr }
  exact ready_meets hr he hk m

/-- The end of a head is found without searching again. -/
theorem Resumes.position_eq (hf : f.Resumes kind name x) : Search.position crlfCrlf x =
      (Search.position crlfCrlf (x.drop (f.scan - 3))).map (· + (f.scan - 3)) := by
  have hle := hf.scan_le
  exact Search.position_drop (by omega) fun j hj => hf.scanned j (by omega)

theorem textProgress_meets (ht : kind = .sip ∨ kind = .rtsp) (hf : f.Resumes kind name x) (m : ℕ) :
    Meets kind name x (f.textProgress x m) := by
  have hr : kind ≠ .resp := by rcases ht with rfl | rfl <;> exact nofun
  have he : extent kind name x = textExtent kind name x := by
    rcases ht with rfl | rfl <;> rfl
  have hp := hf.position_eq
  have hfr := front_of_ne_resp hr name x
  rw [he] at hfr
  unfold textProgress
  rw [hf.kind_eq, hf.name_eq]
  unfold textExtent at he hfr
  by_cases hs : kind = .sip ∧ crlf <+: x
  · rw [if_pos hs] at hfr ⊢
    show front kind name x = _
    rw [hfr]
    exact if_pos hs.2.length_le
  rw [if_neg hs] at hfr he ⊢
  by_cases hfm : kind = .rtsp ∧ x.head? = some 36
  · rw [if_pos hfm] at hfr he ⊢
    split_ifs at hfr he ⊢ with hsh
    · exact ⟨hfr, hf⟩
    · exact settle_meets hr he hf m
  rw [if_neg hfm] at hfr he ⊢
  dsimp only
  unfold headExtent at hfr he
  cases hfn : Search.position crlfCrlf (x.drop (f.scan - 3)) with
  | none =>
    rw [hfn, Option.map_none] at hp
    rw [hp] at hfr
    split_ifs at hfr ⊢
    · exact hfr
    · exact ⟨hfr, { hf with
        kind_eq := rfl
        name_eq := rfl
        scan_le := Nat.le_refl _
        scanned := fun j _ => Search.not_prefix_of_position_eq_none hp j }⟩
  | some o =>
    rw [hfn, Option.map_some] at hp
    rw [hp, Nat.add_comm o] at hfr he
    dsimp only at hfr he ⊢
    cases hl : textLength kind name (x.take (f.scan - 3 + o + 4)) with
    | error error =>
      rw [hl] at hfr
      exact hfr
    | ok len =>
      rw [hl] at he
      exact settle_meets hr he hf m

theorem lengthOf_meets (ht : ¬ (kind = .sip ∨ kind = .rtsp)) (hlc : kind ≠ .lacp)
    (hr : kind ≠ .resp) (hf : f.Resumes kind name x) (m : ℕ) :
    Meets kind name x (match lengthOf kind name x with
        | .error error => .error (.codec error)
        | .ok none => .ok (.incomplete, f)
        | .ok (some len) => f.settle x len m) := by
  have hfr := front_of_ne_resp hr name x
  have he : extent kind name x = _ := extent_of_length ht hlc
  rw [he] at hfr
  cases hl : lengthOf kind name x with
  | error error =>
    rw [hl] at hfr
    exact hfr
  | ok length =>
    rw [hl] at hfr he
    cases length with
    | none => exact ⟨hfr, hf⟩
    | some len => exact settle_meets hr he hf m

theorem resp_meets (h : f.Resumes .resp name b) (y : Bytes) (m : ℕ) :
    Meets .resp name (b ++ y) ((f.resp.progress (b ++ y) m name).map fun r =>
      (r.1, { f with resp := r.2 })) := by
  obtain ⟨s, ht, hr⟩ := h.resp rfl
  have hp := ht.pos_le
  -- the machine, too, goes on from where it was
  have hrs : (respMachine name).run {} (b ++ y) =
      (respMachine name).run s ((b ++ y).drop f.resp.pos) := by
    rw [Framing.Machine.run_append, hr, List.drop_append_of_le_length hp]
  have hfl : (b ++ y).length - f.resp.pos < (b ++ y).length + 1 := by omega
  have hl := Resp.loop_spec name hfl (ht.append y) m
  have hf := front_resp name (b ++ y)
  have hc := (consumed_run name (b ++ y)).1
  rw [← hrs] at hl
  unfold Resp.progress
  generalize Resp.loop (b ++ y) m name ((b ++ y).length + 1) f.resp = result at hl ⊢
  match result with
  | .error (.bufferLimit limit) => trivial
  | .error (.codec error) =>
    show front .resp name (b ++ y) = .fail ()
    rw [hf, respFront_eq_fail.mpr hl]
  | .ok (.skip n, r) => exact hl.elim
  | .ok (.message n, r) =>
    show front .resp name (b ++ y) = _
    rw [hf, respFront_eq_frame.mpr ⟨hl.1, hl.2, rfl⟩]
    exact if_pos (by rw [hl.2] at hc; omega)
  | .ok (.incomplete, r) =>
    obtain ⟨s', ht', hr'⟩ := hl
    have hrn : ((respMachine name).run {} (b ++ y)).1.verdict = .running := by
      rw [hr']
      exact ht'.running
    refine ⟨?_, ?_⟩
    · rw [hf, respFront_eq_more.mpr hrn]
    · have hlen : (b ++ y).length = b.length + y.length := List.length_append
      have hs := h.scan_le
      exact {
        kind_eq := h.kind_eq
        name_eq := h.name_eq
        expected := fun stop hst => absurd rfl (h.expected stop hst).1
        scan_le := show f.scan ≤ _ by omega
        scanned := fun j hj => by
          rw [Search.prefix_drop_append (by
            exact Nat.le_trans hj hs)]
          exact h.scanned j hj
        resp := fun _ => ⟨s', ht', hr'⟩ }

/-- A framer of a stream that resumes says of a longer front what the front holds. -/
theorem progress_meets (hd : kind ≠ .datagram) (hl : kind ≠ .lacp)
    (h : f.Resumes kind name b) (y : Bytes) (m : ℕ) :
    Meets kind name (b ++ y) (f.progress (b ++ y) m) := by
  obtain ⟨fk, fname, expected, scan, resp⟩ := f
  obtain rfl : fk = kind := h.kind_eq
  obtain rfl : fname = name := h.name_eq
  cases expected with
  | some stop =>
    obtain ⟨hr, he⟩ := h.expected stop rfl
    exact ready_meets hr (extent_length_append he y) (h.append hr y) m
  | none =>
    by_cases hr : fk = .resp
    · subst hr
      exact resp_meets h y m
    have hf := h.append hr y
    by_cases ht : fk = .sip ∨ fk = .rtsp
    · have hp := textProgress_meets ht hf m
      rcases ht with rfl | rfl <;> exact hp
    have hlen := lengthOf_meets ht hl hr hf m
    cases fk with
    | datagram => exact absurd rfl hd
    | lacp => exact absurd rfl hl
    | resp => exact absurd rfl hr
    | sip => exact absurd (.inl rfl) ht
    | rtsp => exact absurd (.inr rfl) ht
    | _ => exact hlen

end Framer

end PacketCraftr.Messages
