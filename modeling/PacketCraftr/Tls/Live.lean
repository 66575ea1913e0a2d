import PacketCraftr.Tls.Records

/-!
# The handshake of one conversation

`analysis/tls/live.rs`: the state one conversation carries while either direction can still
contribute handshake bytes. Bytes are framed into records, the bodies of handshake records are
concatenated, and complete handshake messages are taken from them. The capture times of the
hellos, the frame numbers and the flows are left out: they follow the frames, not the bytes.

The ceiling of a direction's buffers is `MAX_DIRECTION_BUFFER` in the source. Here it is an
optional number, so that the same functions also say what happens with no ceiling at all.
-/

namespace PacketCraftr.Tls

inductive Status
  | complete
  | clientOnly
  | retry
  | alert
  | malformed
  | gap
  | truncated
  deriving DecidableEq, Repr

structure Alert where
  level : UInt8
  description : UInt8
  deriving DecidableEq, Repr

def alertLevelFatal : UInt8 := 2

def maxAlerts : ℕ := 32

def maxDirectionBuffer : ℕ := 132 * 1024

inductive Verdict
  | open
  | finished (status : Status) (reason : Option String)
  deriving DecidableEq, Repr

/-- `finished`: a terminal verdict with a reason. -/
def Verdict.because (status : Status) (reason : String) : Verdict := .finished status (some reason)

/-- `crate::error::render` of an invalid record or handshake message. -/
def renderInvalid (message : String) : String := "invalid tls layer: " ++ message

def reasonRecordCeiling : String := "one direction's record buffer reached its ceiling"

def reasonHandshakeCeiling : String := "one direction's handshake buffer reached its ceiling"

structure DirectionState where
  /-- Bytes of the record being framed (`partial`). -/
  partialRecord : Bytes := []
  /-- Handshake record bodies not yet consumed by a complete message. -/
  messages : Bytes := []
  alertLevel : Option UInt8 := none
  changeCipherSpecSkipped : Bool := false
  /-- The direction has stopped contributing handshake bytes. -/
  done : Bool := false
  deriving DecidableEq, Repr

namespace DirectionState

def charged (state : DirectionState) : ℕ :=
  state.partialRecord.length + state.messages.length + if state.alertLevel.isSome then 1 else 0

def finish (state : DirectionState) : DirectionState :=
  { state with done := true, partialRecord := [], messages := [], alertLevel := none }

end DirectionState

/-- `Side`: a captured direction, named after the flow of the first captured frame. -/
inductive Side
  | first
  | reverse
  deriving DecidableEq, Repr

def Side.other : Side → Side
  | .first => .reverse
  | .reverse => .first

inductive Role
  | client
  | server
  deriving DecidableEq, Repr

structure Live (C S : Type*) where
  clientSide : Side := .first
  firstDirection : DirectionState := {}
  reverseDirection : DirectionState := {}
  client : Option C := none
  server : Option S := none
  helloRetry : Bool := false
  alerts : List Alert := []
  alertsDropped : ℕ := 0
  deriving DecidableEq, Repr

/-- The outcome of a function that also counts the ceilings it reached. -/
structure Fed (C S : Type*) where
  live : Live C S
  verdict : Verdict
  limitHits : ℕ
  deriving DecidableEq, Repr

/-- Whether a charge stays under a ceiling, if there is one. -/
def fits : Option ℕ → ℕ → Bool
  | none, _ => true
  | some ceiling, charge => charge ≤ ceiling

namespace Live

variable {C S : Type*}

section

variable (live : Live C S)

def side : Side → DirectionState
  | .first => live.firstDirection
  | .reverse => live.reverseDirection

variable (direction : Side)

/-- `Live::side_mut`: the state of one direction changed. -/
def updateSide (f : DirectionState → DirectionState) :
    Live C S :=
  match direction with
  | .first => { live with firstDirection := f live.firstDirection }
  | .reverse => { live with reverseDirection := f live.reverseDirection }

def isSession : Bool := live.client.isSome || live.server.isSome

def role : Role :=
  if direction = live.clientSide then .client else .server

def closeStatus : Option Status :=
  if live.client.isNone then none
  else if live.helloRetry then some .retry
  else some .clientOnly

/-- More bytes of the record being framed. -/
def hold (bytes : Bytes) : Live C S :=
  live.updateSide direction fun s => { s with partialRecord := s.partialRecord ++ bytes }

def refusePastCeiling (extra : ℕ) (ceiling : Option ℕ)
    (limitHits : ℕ) (reason : String) : Option (Fed C S) :=
  if fits ceiling ((live.side direction).charged + extra) then none
  else some ⟨live.updateSide direction .finish, .because .malformed reason, limitHits + 1⟩

def applyClientHello (hello : C) : Live C S × Verdict :=
  if live.role direction = .server ∧ (live.clientSide = .reverse ∨ live.client.isSome) then
    (live, .because .malformed "ClientHello observed in both directions of one connection")
  else
    -- the capture began with a server frame: the roles are swapped, once
    let live : Live C S :=
      if live.role direction = .server then { live with clientSide := direction } else live
    if live.client.isSome then (live, .open)
    else ({ live with client := some hello }, .open)

def applyServerHello (hello : S)
    (isHelloRetryRequest : Bool) : Live C S × Verdict :=
  if live.role direction = .client ∧ (live.clientSide = .reverse ∨ live.client.isSome) then
    (live, .because .malformed "ServerHello observed on the client's direction")
  else
    let live : Live C S :=
      if live.role direction = .client then { live with clientSide := direction.other } else live
    if isHelloRetryRequest then ({ live with helloRetry := true }, .open)
    else
      let live : Live C S := updateSide { live with server := some hello } direction .finish
      if live.client.isNone then (live, .because .gap "no ClientHello observed")
      else (live, .finished .complete none)

def applyHandshake : Handshake C S → Live C S × Verdict
  | .clientHello hello => live.applyClientHello direction hello
  | .serverHello hello isHelloRetryRequest =>
    live.applyServerHello direction hello isHelloRetryRequest
  | .other _ _ => (live, .open)

end

/-- The loop of `Live::drain_messages`. -/
def drainLoop (hellos : Hellos C S) (direction : Side) : ℕ → Live C S → Live C S × Verdict
  | 0, live => (live, .open)
  | fuel + 1, live =>
    match parseHandshake hellos (live.side direction).messages with
    | .complete consumed value =>
      let live := live.updateSide direction fun s => { s with messages := s.messages.drop consumed }
      match live.applyHandshake direction value with
      | (live, .open) =>
        if (live.side direction).done then (live, .open) else drainLoop hellos direction fuel live
      | (live, .finished status reason) => (live, .finished status reason)
    | .needMore _ => (live, .open)
    | .malformed message =>
      (live.updateSide direction .finish, .because .malformed (renderInvalid message))

/-- `Live::drain_messages`. A message has at least one byte, so that the loop ends before it has
gone round once for every byte held. -/
def drainMessages (hellos : Hellos C S) (live : Live C S) (direction : Side) :
    Live C S × Verdict :=
  drainLoop hellos direction ((live.side direction).messages.length + 1) live

/-- An alert kept or counted: past the ceiling a fatal one displaces the last. -/
def noteAlert (live : Live C S) (alert : Alert) : Live C S :=
  if live.alerts.length < maxAlerts then { live with alerts := live.alerts ++ [alert] }
  else if alert.level = alertLevelFatal then
    { live with
      alerts := live.alerts.dropLast ++ [alert]
      alertsDropped := live.alertsDropped + 1 }
  else { live with alertsDropped := live.alertsDropped + 1 }

/-- The loop over the body of an alert record, with the level whose description is still to come.
With no level it ended in a fatal alert. -/
def alertLoop (live : Live C S) (level : Option UInt8) : Bytes → Live C S × Option (Option UInt8)
  | [] => (live, some level)
  | byte :: rest =>
    match level with
    | none => alertLoop live (some byte) rest
    | some level =>
      let live := live.noteAlert ⟨level, byte⟩
      if level = alertLevelFatal then (live, none) else alertLoop live none rest

def applyRecord (hellos : Hellos C S) (live : Live C S) (direction : Side) (record : Record)
    (ceiling : Option ℕ) (limitHits : ℕ) : Fed C S :=
  if record.contentType = contentTypeHandshake then
    match live.refusePastCeiling direction record.body.length ceiling limitHits
        reasonHandshakeCeiling with
    | some refused => refused
    | none =>
      let live := live.updateSide direction fun s =>
        { s with messages := s.messages ++ record.body }
      let drained := drainMessages hellos live direction
      ⟨drained.1, drained.2, limitHits⟩
  else if record.contentType = contentTypeChangeCipherSpec then
    if (live.side direction).changeCipherSpecSkipped then
      ⟨live.updateSide direction .finish, .open, limitHits⟩
    else
      ⟨live.updateSide direction fun s => { s with changeCipherSpecSkipped := true }, .open,
        limitHits⟩
  else if record.contentType = contentTypeAlert then
    let level := (live.side direction).alertLevel
    let live := live.updateSide direction fun s => { s with alertLevel := none }
    match live.alertLoop level record.body with
    | (live, none) =>
      ⟨(live.updateSide .first .finish).updateSide .reverse .finish, .finished .alert none,
        limitHits⟩
    | (live, some none) => ⟨live, .open, limitHits⟩
    | (live, some (some level)) =>
      match live.refusePastCeiling direction 1 ceiling limitHits reasonRecordCeiling with
      | some refused => refused
      | none =>
        ⟨live.updateSide direction fun s => { s with alertLevel := some level }, .open, limitHits⟩
  else if record.contentType = contentTypeApplicationData then
    ⟨live.updateSide direction .finish, .open, limitHits⟩
  else
    ⟨live, .open, limitHits⟩

/-- The loop of `Live::feed`, with what is left of the delivery. -/
def feedLoop (hellos : Hellos C S) (direction : Side) (ceiling : Option ℕ) :
    ℕ → Live C S → Bytes → ℕ → Fed C S
  | 0, live, _, limitHits => ⟨live, .open, limitHits⟩
  | fuel + 1, live, rest, limitHits =>
    if (live.side direction).done then ⟨live, .open, limitHits⟩
    else if (live.side direction).partialRecord = [] then
      if rest = [] then ⟨live, .open, limitHits⟩
      else
        match parseRecord rest with
        | .complete consumed record =>
          match live.applyRecord hellos direction record ceiling limitHits with
          | ⟨live, .open, limitHits⟩ =>
            feedLoop hellos direction ceiling fuel live (rest.drop consumed) limitHits
          | ⟨live, .finished status reason, limitHits⟩ =>
            ⟨live, .finished status reason, limitHits⟩
        | .needMore _ =>
          match live.refusePastCeiling direction rest.length ceiling limitHits
              reasonRecordCeiling with
          | some refused => refused
          | none => ⟨live.hold direction rest, .open, limitHits⟩
        | .malformed message =>
          ⟨live.updateSide direction .finish, .because .malformed (renderInvalid message),
            limitHits⟩
    else
      match parseRecord (live.side direction).partialRecord with
      | .complete consumed record =>
        let live := live.updateSide direction fun s =>
          { s with partialRecord := s.partialRecord.drop consumed }
        match live.applyRecord hellos direction record ceiling limitHits with
        | ⟨live, .open, limitHits⟩ => feedLoop hellos direction ceiling fuel live rest limitHits
        | ⟨live, .finished status reason, limitHits⟩ =>
          ⟨live, .finished status reason, limitHits⟩
      | .needMore minimum =>
        let taken := min (minimum - (live.side direction).partialRecord.length) rest.length
        if taken = 0 then ⟨live, .open, limitHits⟩
        else
          match live.refusePastCeiling direction taken ceiling limitHits reasonRecordCeiling with
          | some refused => refused
          | none =>
            feedLoop hellos direction ceiling fuel (live.hold direction (rest.take taken))
              (rest.drop taken) limitHits
      | .malformed message =>
        ⟨live.updateSide direction .finish, .because .malformed (renderInvalid message), limitHits⟩

/-- `Live::feed`. Every turn of the loop takes a record off or tops one up from the delivery, so
that it goes round at most twice for every byte of it. -/
def feed (hellos : Hellos C S) (live : Live C S) (direction : Side) (chunk : Bytes)
    (ceiling : Option ℕ) (limitHits : ℕ) : Fed C S :=
  feedLoop hellos direction ceiling
    (2 * chunk.length + (live.side direction).partialRecord.length + 1) live chunk limitHits

/-! ### The state of one direction -/

variable (live : Live C S)

@[simp]
theorem side_updateSide (direction : Side) (f : DirectionState → DirectionState) :
    (live.updateSide direction f).side direction = f (live.side direction) := by
  cases direction <;> rfl

theorem side_updateSide_of_ne {direction other : Side} (h : other ≠ direction)
    (f : DirectionState → DirectionState) :
    (live.updateSide direction f).side other = live.side other := by
  cases direction <;> cases other <;> first | rfl | exact absurd rfl h

theorem updateSide_updateSide (direction : Side) (f g : DirectionState → DirectionState) :
    (live.updateSide direction f).updateSide direction g = live.updateSide direction (g ∘ f) := by
  cases direction <;> rfl

theorem updateSide_eq_self (direction : Side)
    {f : DirectionState → DirectionState} (h : f (live.side direction) = live.side direction) :
    live.updateSide direction f = live := by
  cases direction <;> simp only [updateSide, side] at h ⊢ <;> rw [h]

end Live

end PacketCraftr.Tls
