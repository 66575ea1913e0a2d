import PacketCraftr.Tls.Segmentation
import Mathlib.Data.List.Induction

/-!
# Sessions out of one conversation

The part of `Collector` in `analysis/tls.rs` that follows one conversation: it tracks it from its
first frame, feeds it the payloads each frame delivers, and retires it when the handshake ends, a
gap or a close is reported, or the capture ends. A conversation that ends with no hello seen is
forgotten, and its next frame is tracked as a new one.

The limits on all conversations together, the removal of retransmitted bytes, frame numbers and
times are left out. A payload is what the reassembler delivers, once.
-/

open List

namespace PacketCraftr.Tls

/-- One of the two flows of a conversation. -/
inductive Flow
  | forward
  | backward
  deriving DecidableEq, Repr

def Flow.reverse : Flow → Flow
  | .forward => .backward
  | .backward => .forward

/-- What the collector is told of one conversation, in the order it folds it in. -/
inductive Event
  /-- A frame of the conversation, whether it has the SYN flag, and the payloads delivered. -/
  | frame (flow : Flow) (syn : Bool) (payloads : List Bytes)
  | gap
  | closed
  | evicted
  deriving DecidableEq, Repr

structure Session (C S : Type*) where
  /-- The flow of the client, of which the endpoints are read off. -/
  clientFlow : Flow
  client : Option C
  server : Option S
  helloRetry : Bool
  alerts : List Alert
  alertsDropped : ℕ
  status : Status
  reason : Option String
  deriving DecidableEq, Repr

/-- The table entry of the conversation: none, or `Tracked`, with `first_flow` of a live one. -/
inductive Entry (C S : Type*)
  | absent
  | live (firstFlow : Flow) (live : Live C S)
  | closed
  deriving DecidableEq, Repr

def reasonReassemblyGap : String := "TCP reassembly reported missing handshake bytes"

def reasonFlowEvicted : String := "the TCP flow was evicted before the handshake finished"

def reasonTruncated : String := "the capture ended while the handshake was in flight"

variable {C S : Type*}

def Live.intoSession (live : Live C S) (firstFlow : Flow) (status : Status)
    (reason : Option String) : Session C S where
  clientFlow := if live.clientSide = .first then firstFlow else firstFlow.reverse
  client := live.client
  server := live.server
  helloRetry := live.helloRetry
  alerts := live.alerts
  alertsDropped := live.alertsDropped
  status := status
  reason := reason

/-- `Live::direction_of`, for a flow of the conversation. -/
def directionOf (firstFlow sender : Flow) : Side := if sender = firstFlow then .first else .reverse

/-- The collector as far as it concerns the conversation. -/
structure Collected (C S : Type*) where
  entry : Entry C S := .absent
  sessions : List (Session C S) := []
  /-- `buffer_limit_hits`. -/
  limitHits : ℕ := 0
  deriving DecidableEq, Repr

namespace Collected

section

variable (collected : Collected C S)

def retire (status : Status) (reason : Option String) :
    Collected C S :=
  match collected.entry with
  | .live firstFlow live =>
    if live.isSession then
      { collected with
        entry := .closed
        sessions := collected.sessions ++ [live.intoSession firstFlow status reason] }
    else { collected with entry := .absent }
  | .absent | .closed => collected

def discard : Collected C S :=
  match collected.entry with
  | .live _ live => { collected with entry := if live.isSession then .closed else .absent }
  | .absent | .closed => collected

def discardClosed : Collected C S :=
  match collected.entry with
  | .closed => { collected with entry := .absent }
  | .absent | .live _ _ => collected

/-- `Collector::track`, when the conversation has no entry. -/
def track (flow : Flow) : Collected C S :=
  match collected.entry with
  | .absent => { collected with entry := .live flow {} }
  | .closed | .live _ _ => collected

end

/-- One payload of `Collector::fold_deliveries`. -/
def deliver (hellos : Hellos C S) (ceiling : Option ℕ) (sender : Flow)
    (collected : Collected C S) (payload : Bytes) : Collected C S :=
  if payload = [] then collected
  else
    match collected.entry with
    | .live firstFlow live =>
      -- `retainable`: a direction that is done retains nothing
      if (live.side (directionOf firstFlow sender)).done then collected
      else
        let fed := live.feed hellos (directionOf firstFlow sender) payload ceiling 0
        let collected : Collected C S :=
          { collected with
            entry := .live firstFlow fed.live
            limitHits := collected.limitHits + fed.limitHits }
        match fed.verdict with
        | .open => collected
        | .finished status reason => collected.retire status reason
    | .absent | .closed => collected

/-- `Collector::observe` and `Collector::fold_reassembly_events`. -/
def observe (hellos : Hellos C S) (ceiling : Option ℕ) (collected : Collected C S) :
    Event → Collected C S
  | .frame flow syn payloads =>
    let collected := if syn then collected.discardClosed else collected
    payloads.foldl (deliver hellos ceiling flow) (collected.track flow)
  | .gap => collected.retire .gap (some reasonReassemblyGap)
  | .closed =>
    match collected.entry with
    | .live _ live =>
      match live.closeStatus with
      | some status => collected.retire status none
      | none => collected.discard
    | .absent | .closed => collected
  | .evicted => (collected.retire .gap (some reasonFlowEvicted)).discardClosed

end Collected

def collect (hellos : Hellos C S) (ceiling : Option ℕ) (events : List Event) : Collected C S :=
  events.foldl (Collected.observe hellos ceiling) {}

/-- The sessions of a conversation, to the end of the capture. -/
def extract (hellos : Hellos C S) (events : List Event) : Collected C S :=
  (collect hellos (some maxDirectionBuffer) events).retire .truncated (some reasonTruncated)

/-- The frames that deliver a stretch of one flow's bytes, each with its payloads. A SYN flag with
payloads is the same as a frame with the flag before a frame with the payloads. -/
def frames (flow : Flow) (cut : List (List Bytes)) : List Event :=
  cut.map (.frame flow false)

namespace Collected

variable {hellos : Hellos C S} {c : Option ℕ} {flow : Flow} {cl : Collected C S}

/-! ### Runs that reach no ceiling -/

@[simp]
theorem limitHits_retire (status : Status) (r : Option String) :
    (cl.retire status r).limitHits = cl.limitHits := by
  unfold retire
  split
  · split_ifs <;> rfl
  · rfl
  · rfl

@[simp]
theorem limitHits_discard : cl.discard.limitHits = cl.limitHits := by
  unfold discard
  split <;> rfl

@[simp]
theorem limitHits_discardClosed : cl.discardClosed.limitHits = cl.limitHits := by
  unfold discardClosed
  split <;> rfl

@[simp]
theorem limitHits_track : (cl.track flow).limitHits = cl.limitHits := by
  unfold track
  split <;> rfl

/-- A step that counts no ceiling does what it does without one. -/
def AgreesOn (collected capped uncapped : Collected C S) : Prop :=
  collected.limitHits < capped.limitHits ∨
    (capped = uncapped ∧ capped.limitHits = collected.limitHits)

theorem agrees_deliver (hellos : Hellos C S) (c : Option ℕ) (flow : Flow)
    (cl : Collected C S) (payload : Bytes) :
    AgreesOn cl (deliver hellos c flow cl payload) (deliver hellos none flow cl payload) := by
  unfold deliver
  split_ifs
  · exact .inr ⟨rfl, rfl⟩
  cases cl.entry with
  | absent => exact .inr ⟨rfl, rfl⟩
  | closed => exact .inr ⟨rfl, rfl⟩
  | live ff live =>
    dsimp only
    split_ifs
    · exact .inr ⟨rfl, rfl⟩
    rcases live.agrees_feed hellos (directionOf ff flow) payload c 0 with
      hlt | ⟨heq, hh⟩
    · left
      split <;> simp only [limitHits_retire] <;> omega
    · right
      rw [← heq]
      refine ⟨rfl, ?_⟩
      split <;> simp only [limitHits_retire, hh, Nat.add_zero]

theorem agrees_foldl {α : Type*} {f g : Collected C S → α → Collected C S}
    (hs : ∀ cl a, AgreesOn cl (f cl a) (g cl a))
    (cl : Collected C S) (l : List α) :
    AgreesOn cl (l.foldl f cl) (l.foldl g cl) := by
  induction l generalizing cl with
  | nil => exact .inr ⟨rfl, rfl⟩
  | cons a l ih =>
    rw [foldl_cons, foldl_cons]
    have hr := ih (f cl a)
    rcases hs cl a with hlt | ⟨heq, hh⟩
    · left
      rcases hr with hr | ⟨-, hr⟩ <;> omega
    · rw [← heq]
      rcases hr with hr | ⟨hr, hr'⟩
      · exact .inl (hh ▸ hr)
      · exact .inr ⟨hr, hr'.trans hh⟩

theorem agrees_observe (hellos : Hellos C S) (c : Option ℕ) (cl : Collected C S) (e : Event) :
    AgreesOn cl (cl.observe hellos c e) (cl.observe hellos none e) := by
  cases e with
  | gap => exact .inr ⟨rfl, limitHits_retire ..⟩
  | evicted => exact .inr ⟨rfl, by rw [observe, limitHits_discardClosed, limitHits_retire]⟩
  | closed =>
    refine .inr ⟨rfl, ?_⟩
    unfold observe
    dsimp only
    split
    · split
      · exact limitHits_retire ..
      · exact limitHits_discard
    · rfl
    · rfl
  | frame flow syn p =>
    have h := agrees_foldl (agrees_deliver hellos c flow)
      (track (if syn then cl.discardClosed else cl) flow) p
    have hh : (track (if syn then cl.discardClosed else cl) flow).limitHits = cl.limitHits := by
      rw [limitHits_track]
      split_ifs
      · exact limitHits_discardClosed
      · rfl
    rw [AgreesOn, hh] at h
    exact h

/-- A sequence of events that reaches no ceiling is collected as without one. -/
theorem foldl_observe_eq (events : List Event)
    (h : (events.foldl (observe hellos c) cl).limitHits = cl.limitHits) :
    events.foldl (observe hellos c) cl = events.foldl (observe hellos none) cl := by
  rcases agrees_foldl (agrees_observe hellos c) cl events with hlt | ⟨heq, -⟩
  · exact absurd h.symm (Nat.ne_of_lt hlt)
  · exact heq

theorem limitHits_le_foldl (events : List Event) :
    cl.limitHits ≤ (events.foldl (observe hellos c) cl).limitHits := by
  rcases agrees_foldl (agrees_observe hellos c) cl events with hlt | ⟨-, heq⟩
  · exact Nat.le_of_lt hlt
  · exact Nat.le_of_eq heq.symm

/-! ### Deliveries with no ceiling -/

/-- The buffers of a live conversation are settled. -/
def Settled (collected : Collected C S) : Prop :=
  ∀ firstFlow live, collected.entry = .live firstFlow live → live.Settled

theorem settled_track (h : cl.Settled) : (cl.track flow).Settled := by
  intro ff live hl
  unfold track at hl
  split at hl
  · cases hl
    intro side
    cases side <;> exact ⟨⟨_, rfl⟩, fun _ => rfl⟩
  · exact h ff live hl
  · exact h ff live hl

theorem Settled.of_not_live (h : ∀ ff live, cl.entry ≠ .live ff live) : cl.Settled :=
  fun ff live hl => absurd hl (h ff live)

theorem settled_discardClosed (h : cl.Settled) : cl.discardClosed.Settled := by
  intro ff live hl
  unfold discardClosed at hl
  split at hl
  · cases hl
  · exact h ff live hl
  · exact h ff live hl

theorem deliver_live {ff : Flow} {live : Live C S} {payload : Bytes}
    (he : cl.entry = .live ff live) (hp : payload ≠ [])
    (hd : (live.side (directionOf ff flow)).done = false) :
    deliver hellos c flow cl payload = match live.feed hellos (directionOf ff flow) payload c 0 with
      | ⟨after, .open, hi⟩ =>
        { cl with
          entry := .live ff after
          limitHits := cl.limitHits + hi }
      | ⟨after, .finished status reason, hi⟩ =>
        retire
          { cl with
            entry := .live ff after
            limitHits := cl.limitHits + hi } status reason := by
  unfold deliver
  rw [if_neg hp, he]
  dsimp only
  rw [hd]
  generalize live.feed hellos (directionOf ff flow) payload c 0 = fed
  obtain ⟨after, verdict, hi⟩ := fed
  cases verdict <;> rfl

@[simp]
theorem deliver_nil : deliver hellos c flow cl [] = cl := by
  rw [deliver, if_pos rfl]

theorem deliver_of_not_live (h : ∀ ff live, cl.entry ≠ .live ff live)
    (payload : Bytes) : deliver hellos c flow cl payload = cl := by
  unfold deliver
  split_ifs
  · rfl
  · split
    · exact absurd ‹_› (h _ _)
    · rfl
    · rfl

theorem deliver_of_done {ff : Flow} {live : Live C S} (he : cl.entry = .live ff live)
    (hd : (live.side (directionOf ff flow)).done = true) (payload : Bytes) :
    deliver hellos c flow cl payload = cl := by
  unfold deliver
  split_ifs
  · rfl
  · rw [he]
    dsimp only
    rw [if_pos hd]

theorem discard_not_live (ff : Flow) (live : Live C S) : cl.discard.entry ≠ .live ff live := by
  unfold discard
  split
  · split_ifs <;> exact nofun
  · rename_i h
    rw [h]
    exact nofun
  · rename_i h
    rw [h]
    exact nofun

theorem retire_not_live (status : Status) (r : Option String) (ff : Flow)
    (live : Live C S) : (cl.retire status r).entry ≠ .live ff live := by
  unfold retire
  split
  · split_ifs <;> exact nofun
  · rename_i h
    rw [h]
    exact nofun
  · rename_i h
    rw [h]
    exact nofun

section

variable (h : cl.Settled)
include h

/-- With no ceiling, a payload is delivered as its parts are. -/
theorem deliver_append (a b : Bytes) : deliver hellos none flow cl (a ++ b) =
      deliver hellos none flow (deliver hellos none flow cl a) b := by
  by_cases ha : a = []
  · rw [ha, nil_append, deliver_nil]
  by_cases hb : b = []
  · rw [hb, append_nil, deliver_nil]
  by_cases hl : ∃ ff live, cl.entry = .live ff live
  swap
  · have hnot : ∀ ff live, cl.entry ≠ .live ff live := fun ff live he => hl ⟨ff, live, he⟩
    rw [deliver_of_not_live hnot, deliver_of_not_live hnot, deliver_of_not_live hnot]
  obtain ⟨ff, live, he⟩ := hl
  cases hd : (live.side (directionOf ff flow)).done with
  | true =>
    rw [deliver_of_done he hd, deliver_of_done he hd, deliver_of_done he hd]
  | false =>
    have hab : a ++ b ≠ [] := append_ne_nil_of_left_ne_nil ha b
    rw [deliver_live he hab hd, deliver_live he ha hd, Live.feed_append (h ff live he)]
    have hh : (live.feed hellos (directionOf ff flow) a none 0).limitHits = 0 := by
      rw [Live.feed_eq_settle (h ff live he)]
      rfl
    generalize live.feed hellos (directionOf ff flow) a none 0 = fed at hh ⊢
    obtain ⟨after, verdict, hi⟩ := fed
    obtain rfl : hi = 0 := hh
    cases verdict with
    | finished status r =>
      rw [deliver_of_not_live (retire_not_live status r)]
    | «open» =>
      dsimp only
      cases hd' : (after.side (directionOf ff flow)).done with
      | true =>
        rw [Live.feed_of_done b hd', deliver_of_done rfl hd']
      | false => rw [deliver_live rfl hb hd']; rfl

theorem settled_deliver (payload : Bytes) : (deliver hellos none flow cl payload).Settled := by
  by_cases hp : payload = []
  · rwa [hp, deliver_nil]
  by_cases hl : ∃ ff live, cl.entry = .live ff live
  swap
  · rwa [deliver_of_not_live fun ff live he => hl ⟨ff, live, he⟩]
  obtain ⟨ff, live, he⟩ := hl
  cases hd : (live.side (directionOf ff flow)).done with
  | true => rwa [deliver_of_done he hd]
  | false =>
    have ha := Live.settled_feed hellos (directionOf ff flow) 0 (h ff live he) payload
    rw [deliver_live he hp hd]
    generalize live.feed hellos (directionOf ff flow) payload none 0 = fed at ha ⊢
    obtain ⟨after, verdict, hi⟩ := fed
    have hf : Settled (C := C) (S := S)
        { cl with
          entry := .live ff after
          limitHits := cl.limitHits + hi } := by
      intro ff' live' he'
      cases he'
      exact ha
    cases verdict with
    | «open» => exact hf
    | finished status r => exact .of_not_live (retire_not_live status r)

theorem foldl_deliver (p : List Bytes) : p.foldl (deliver hellos none flow) cl =
      deliver hellos none flow cl p.flatten := by
  induction p generalizing cl with
  | nil => rw [foldl_nil, flatten_nil, deliver_nil]
  | cons payload p ih =>
    rw [foldl_cons, ih (settled_deliver h payload), flatten_cons, deliver_append h]

/-- A frame tracks the conversation, if it is not, and delivers its payloads. -/
theorem observe_frame (p : List Bytes) : cl.observe hellos none (.frame flow false p) =
      deliver hellos none flow (cl.track flow) p.flatten :=
  foldl_deliver (settled_track h) p

theorem settled_observe (e : Event) : (cl.observe hellos none e).Settled := by
  cases e with
  | gap => exact .of_not_live (retire_not_live _ _)
  | evicted => exact settled_discardClosed (.of_not_live (retire_not_live _ _))
  | closed =>
    unfold observe
    dsimp only
    split
    · split
      · exact .of_not_live (retire_not_live _ _)
      · exact .of_not_live discard_not_live
    · exact h
    · exact h
  | frame flow syn p =>
    have hs : (if syn then cl.discardClosed else cl).Settled := by
      split_ifs
      · exact settled_discardClosed h
      · exact h
    show (p.foldl (deliver hellos none flow) _).Settled
    rw [foldl_deliver (settled_track hs)]
    exact settled_deliver (settled_track hs) _

theorem settled_foldl (events : List Event) : (events.foldl (observe hellos none) cl).Settled := by
  induction events generalizing cl with
  | nil => exact h
  | cons e events ih => exact ih (settled_observe h e)

end

/-! ### The frames of a stretch of bytes -/

theorem track_of_ne_absent (h : cl.entry ≠ .absent) : cl.track flow = cl := by
  unfold track
  split
  · exact absurd ‹_› h
  · rfl
  · rfl

/-- The first frame tracks the conversation, if it is not. -/
theorem foldl_frames_singleton (h : cl.Settled) (last : List Bytes) :
    (frames flow [last]).foldl (observe hellos none) cl =
      deliver hellos none flow (cl.track flow) [last].flatten.flatten := by
  rw [flatten_singleton]
  exact observe_frame h last

section

variable (h : cl.Settled) {cut : List (List Bytes)}
include h

/-- One more frame, when those before it left the conversation tracked, delivers more bytes. -/
theorem foldl_frames_concat (last : List Bytes)
    (hk : (deliver hellos none flow (cl.track flow) cut.flatten.flatten).entry ≠ .absent)
    (hb : (frames flow cut).foldl (observe hellos none) cl =
      deliver hellos none flow (cl.track flow) cut.flatten.flatten) :
    (frames flow (cut ++ [last])).foldl (observe hellos none) cl =
      deliver hellos none flow (cl.track flow) (cut ++ [last]).flatten.flatten := by
  have hf : frames flow (cut ++ [last]) = frames flow cut ++ [.frame flow false last] := map_append
  rw [hf, List.foldl_append, hb, foldl_cons, foldl_nil,
    observe_frame (settled_deliver (settled_track h) _), track_of_ne_absent hk,
    flatten_concat, flatten_append, deliver_append (settled_track h)]

/-- A payload that leaves the conversation tracked does so up to each of its bytes: a conversation
once forgotten takes no bytes of the same payload. -/
theorem deliver_ne_absent {rest : List (List Bytes)}
    (hk : (deliver hellos none flow (cl.track flow) (cut ++ rest).flatten.flatten).entry ≠ .absent) :
    (deliver hellos none flow (cl.track flow) cut.flatten.flatten).entry ≠ .absent := by
  intro ha
  rw [flatten_append, flatten_append, deliver_append (settled_track h),
    deliver_of_not_live (fun _ _ he => nomatch ha.symm.trans he)] at hk
  exact hk ha

/-- Frames deliver their bytes as one payload, when none but the last leaves the conversation
forgotten, or that payload does not up to there. -/
theorem foldl_frames (hc : cut ≠ []) (hk : ∀ sent, sent <+: cut → sent ≠ [] → sent ≠ cut →
      ((frames flow sent).foldl (observe hellos none) cl).entry ≠ .absent ∨
        (deliver hellos none flow (cl.track flow) sent.flatten.flatten).entry ≠ .absent) :
    (frames flow cut).foldl (observe hellos none) cl =
      deliver hellos none flow (cl.track flow) cut.flatten.flatten := by
  induction cut using List.reverseRecOn with
  | nil => exact absurd rfl hc
  | append_singleton cut last ih =>
    by_cases hf : cut = []
    · subst hf
      exact foldl_frames_singleton h last
    · have hp := prefix_append cut [last]
      have hb := ih hf fun sent hs hne _ => hk sent (hs.trans hp) hne fun heq => by
        have hl := hs.length_le
        rw [heq, length_append] at hl
        exact absurd hl (by simp)
      have ha := hk cut hp hf (by simp)
      rw [hb, or_self] at ha
      exact foldl_frames_concat h last ha hb

end

end Collected

theorem settled_start : Collected.Settled (C := C) (S := S) {} := by
  intro ff live h
  cases h

theorem collect_append (hellos : Hellos C S) (ceiling : Option ℕ) (before after : List Event) :
    collect hellos ceiling (before ++ after) =
      after.foldl (Collected.observe hellos ceiling) (collect hellos ceiling before) :=
  List.foldl_append ..

/-- A sequence of events that reaches no ceiling, and each of its beginnings, is collected as
without one. -/
theorem collect_eq_uncapped {hellos : Hellos C S} {ceiling : Option ℕ} {before after : List Event}
    (h : (collect hellos ceiling (before ++ after)).limitHits = 0) :
    collect hellos ceiling before = collect hellos none before := by
  apply Collected.foldl_observe_eq
  have hle : (collect hellos ceiling before).limitHits ≤
      (collect hellos ceiling (before ++ after)).limitHits := by
    rw [collect_append]
    exact Collected.limitHits_le_foldl after
  rw [h] at hle
  exact Nat.le_zero.mp hle

/-- A record whose body is a ClientHello with one cipher suite and no extensions. -/
def helloRecord : Bytes :=
  [22, 3, 1, 0, 45, 1, 0, 0, 41, 3, 3] ++ List.replicate 32 0 ++ [0, 0, 2, 0, 0x2f, 1, 0]

/-- Five bytes that start no record. -/
def noRecord : Bytes := [0, 0, 0, 0, 0]

/-- Hellos with an empty summary, whatever their bodies. -/
def anyHello : Hellos Unit Unit where
  parseClientHello _ := .ok ()
  parseServerHello _ := .ok ((), false)

/-- No frame of a stretch but the last leaves the conversation forgotten. -/
def Kept (hellos : Hellos C S) (before : List Event) (flow : Flow) (cut : List (List Bytes)) : Prop :=
  ∀ sent, sent <+: cut → sent ≠ [] → sent ≠ cut →
    (collect hellos (some maxDirectionBuffer) (before ++ frames flow sent)).entry ≠ .absent

/-- Without the ceiling, a stretch delivers one payload. -/
theorem collect_frames {hellos : Hellos C S} {before after : List Event} {flow : Flow}
    {cut : List (List Bytes)} (hcut : cut ≠ []) (h : (collect hellos (some maxDirectionBuffer)
      (before ++ frames flow cut ++ after)).limitHits = 0)
    (hkept : Kept hellos before flow cut ∨ (Collected.deliver hellos none flow
      ((collect hellos none before).track flow) cut.flatten.flatten).entry ≠ .absent) :
    collect hellos none (before ++ frames flow cut) = Collected.deliver hellos none flow
      ((collect hellos none before).track flow) cut.flatten.flatten := by
  have hst : (collect hellos none before).Settled := Collected.settled_foldl settled_start before
  rw [collect_append]
  refine Collected.foldl_frames hst hcut fun sent hs hne hlt => ?_
  cases hkept with
  | inl hkept =>
    have hk := hkept sent hs hne hlt
    obtain ⟨rest, rfl⟩ := hs
    have hsp : before ++ frames flow (sent ++ rest) ++ after =
        before ++ frames flow sent ++ (frames flow rest ++ after) := by
      rw [frames, map_append, ← frames, ← frames]
      simp only [append_assoc]
    rw [hsp] at h
    rw [collect_eq_uncapped h, collect_append] at hk
    exact .inl hk
  | inr hk =>
    obtain ⟨rest, rfl⟩ := hs
    exact .inr (Collected.deliver_ne_absent hst hk)

/-- The sessions of a conversation do not depend on how a stretch of one flow's bytes is cut into
payloads and frames, when neither run reaches a ceiling and in neither the conversation is forgotten
before the last frame of that stretch. In the second run it is not, if the first keeps it to the
end. -/
theorem extract_eq_of_cut (hellos : Hellos C S) (before after : List Event) (flow : Flow)
    (cut other : List (List Bytes)) (hcut : cut ≠ []) (hother : other ≠ [])
    (hbytes : other.flatten.flatten = cut.flatten.flatten)
    (hceiling : (extract hellos (before ++ frames flow cut ++ after)).limitHits = 0)
    (hceiling' : (extract hellos (before ++ frames flow other ++ after)).limitHits = 0)
    (hkept : Kept hellos before flow cut)
    (hkept' : (collect hellos (some maxDirectionBuffer) (before ++ frames flow cut)).entry =
      .absent → Kept hellos before flow other) :
    (extract hellos (before ++ frames flow other ++ after)).sessions =
      (extract hellos (before ++ frames flow cut ++ after)).sessions := by
  rw [extract, Collected.limitHits_retire] at hceiling hceiling'
  have hone := collect_frames hcut hceiling (.inl hkept)
  have hsm : collect hellos none (before ++ frames flow other) =
      collect hellos none (before ++ frames flow cut) := by
    rw [collect_frames hother hceiling' ?_, hone, hbytes]
    rw [collect_eq_uncapped hceiling, hone, ← hbytes] at hkept'
    exact or_iff_not_imp_right.mpr fun ha => hkept' (not_not.mp ha)
  have hu : ∀ events, (collect hellos (some maxDirectionBuffer) events).limitHits = 0 →
      collect hellos (some maxDirectionBuffer) events = collect hellos none events :=
    fun events h => Collected.foldl_observe_eq events h
  rw [extract, extract, hu _ hceiling, hu _ hceiling', collect_append, hsm, ← collect_append]

/-- A ClientHello cut within its record header. -/
theorem extract_eq_of_cut_in_header :
    (extract anyHello (frames .forward [[helloRecord.take 3], [helloRecord.drop 3]])).sessions =
        (extract anyHello (frames .forward [[helloRecord]])).sessions ∧
      (extract anyHello (frames .forward [[helloRecord]])).sessions =
        [⟨.forward, some (), none, false, [], 0, .truncated, some reasonTruncated⟩] := by
  refine ⟨extract_eq_of_cut anyHello [] [] .forward [[helloRecord]]
    [[helloRecord.take 3], [helloRecord.drop 3]] nofun nofun (by decide) (by decide) (by decide)
    ?_ fun ha => absurd ha (by decide), by decide⟩
  intro sent hs hne hlt
  exact absurd (hs.eq_of_length_le (length_pos_iff.mpr hne)) hlt

/-- A conversation that is forgotten within a stretch of bytes: bytes that start no record and a
ClientHello behind them give no session when one frame delivers them, and one when two do. -/
theorem extract_ne_after_malformed :
    (extract anyHello (frames .forward [[noRecord ++ helloRecord]])).limitHits = 0 ∧
      (extract anyHello (frames .forward [[noRecord], [helloRecord]])).limitHits = 0 ∧
      (extract anyHello (frames .forward [[noRecord ++ helloRecord]])).sessions = [] ∧
      (extract anyHello (frames .forward [[noRecord], [helloRecord]])).sessions =
        [⟨.forward, some (), none, false, [], 0, .truncated, some reasonTruncated⟩] := by
  decide

end PacketCraftr.Tls
