import PacketCraftr.Foundation.Guarded
import PacketCraftr.Messages.Limits
import PacketCraftr.Http.Body

/-!
# HTTP/1 messages out of one direction of a connection

`Collector` of `analysis/http.rs`, for one direction of one connection. Bytes are added to the
header of a message up to the next line feed, until the header ends with an empty line; then its head is
parsed, paired with the request it answers, and the body is consumed. A message that is malformed or
exceeds a fixed bound disables the direction, and an upgrade ends the collection for the connection.

The requests of the other direction that wait for an answer are part of the state, as are the bytes
buffered for other directions, which count against the same limit. The frames that carry a message
are left out, with the limit on their number.
-/

namespace PacketCraftr.Http

open Messages

inductive Status
  | complete
  | incomplete
  | malformed
  | limit
  | gap
  | conflict
  | reset
  | evicted
  | upgrade
  deriving DecidableEq, Repr

/-- `Message`, without the flow and the frames it comes from. -/
structure Message where
  index : ℕ
  request : Option ℕ
  status : Status
  head : Option Head
  headerWire : Bytes
  framing : Option Body
  bodyBytes : ℕ
  trailers : List Header
  error : Option Error
  deriving DecidableEq, Repr

/-- `Summary`, as far as one direction counts. -/
structure Summary where
  messages : ℕ := 0
  completeMessages : ℕ := 0
  incompleteMessages : ℕ := 0
  malformedMessages : ℕ := 0
  upgradedConnections : ℕ := 0
  responsesWithoutRequest : ℕ := 0
  deriving DecidableEq, Repr

/-- A message is counted by its status. -/
def Summary.count (s : Summary) (status : Status) : Summary :=
  match status with
  | .complete | .upgrade => { s with completeMessages := s.completeMessages + 1 }
  | .malformed | .limit => { s with malformedMessages := s.malformedMessages + 1 }
  | _ => { s with incompleteMessages := s.incompleteMessages + 1 }

/-- `Pending`: a request that waits for its answer. -/
structure Pending where
  index : ℕ
  method : Bytes
  deriving DecidableEq, Repr

/-- `Live`: the message that is being received. -/
structure Live where
  index : ℕ
  header : Bytes := []
  head : Option Head := none
  body : Option BodyDecoder := none
  framing : Option Body := none
  request : Option ℕ := none
  deriving DecidableEq, Repr

namespace Live

def bodyBuffered (live : Live) : ℕ := live.body.elim 0 BodyDecoder.bufferedBytes

def buffered (live : Live) : ℕ :=
  live.header.length + live.head.elim 0 (·.wire.length) + live.bodyBuffered

/-- The message that is emitted. -/
def message (live : Live) (status : Status) (error : Option Error) : Message where
  index := live.index
  request := live.request
  status := status
  head := live.head
  headerWire := live.head.elim live.header Head.wire
  framing := live.framing
  bodyBytes := live.body.elim 0 BodyDecoder.bytes
  trailers := live.body.elim [] BodyDecoder.trailers
  error := error

end Live

/-- What ends the analysis: a limit, or a branch that is not meant to be reached. -/
inductive Fault
  | limit (error : LimitError)
  | unreachable (message : String)
  deriving DecidableEq, Repr

def enforce (check : Except LimitError Unit) : Guarded Fault Unit :=
  .check (check.mapError .limit)

def failureStatus (error : Error) : Status :=
  match error with
  | .limit _ => .limit
  | .invalid _ => .malformed

/-! ### Lines of the header -/

/-- The input up to its first line feed. -/
def lineRun (input : Bytes) : Bytes :=
  input.take (match input.idxOf? lf with | some i => i + 1 | none => input.length)

/-- `bare_crlf_offset` of bytes that do not stand behind a CR, or start with LF. -/
def bareInside (previous : Option UInt8) (run : Bytes) : Option ℕ :=
  match run.idxOf? cr with
  | some i =>
    match run[i + 1]? with
    | none => none
    | some c => if c = lf then none else some (i + 1)
  | none =>
    if run.getLast? = some lf then
      let before := if 2 ≤ run.length then run[run.length - 2]? else previous
      if before ≠ some cr then some (run.length - 1) else none
    else none

def bareCrlfOffset (previous : Option UInt8) (run : Bytes) : Option ℕ :=
  if previous = some cr ∧ run.head? ≠ some lf then some 0 else bareInside previous run

/-! ### The collector -/

/-- `Collector` and its `Direction`, for one direction. -/
structure Collector where
  limits : Limits
  maxBodyBytes : ℕ
  /-- The bytes buffered for other directions. -/
  others : ℕ := 0
  retained : ℕ := 0
  summary : Summary := {}
  /-- The requests of the other direction that wait for an answer. -/
  requests : List Pending := []
  /-- The requests of this direction that wait for an answer. -/
  asked : List Pending := []
  upgraded : Bool := false
  disabled : Bool := false
  live : Option Live := none
  output : List Message := []
  deriving DecidableEq, Repr

namespace Collector

section

variable (c : Collector)

def checkBuffer (current : ℕ) : Guarded Fault Unit :=
  enforce (c.limits.checkBuffer (c.others + current))

def flush (status : Status) (error : Option Error) : Guarded Fault Collector :=
  match c.live with
  | none => pure c
  | some live => do
    let extra := live.bodyBuffered + if live.head.isNone then live.header.length else 0
    let c :=
      { c with
        live := none
        summary := c.summary.count status
        retained := c.retained + Limits.decodedCharge extra }
    enforce (c.limits.checkRetained c.retained)
    pure { c with output := c.output ++ [live.message status error] }

def reject (error : Error) : Guarded Fault Collector := do
  let c ← c.flush (failureStatus error) (some error)
  pure { c with disabled := true }

/-- `Collector::pair_request`, with the message and the method of the request it answers. -/
def pairRequest (head : Head) (live : Live) : Collector × Live × Option Bytes :=
  match head.start with
  | .response _ status _ =>
    let front := c.requests.head?
    let live := { live with request := front.elim live.request fun request => some request.index }
    let requests := if 200 ≤ status ∨ status = 101 then c.requests.drop 1 else c.requests
    let unpaired := if live.request.isNone then 1 else 0
    ({ c with
        requests
        summary :=
          { c.summary with
            responsesWithoutRequest := c.summary.responsesWithoutRequest + unpaired } },
      live, front.map Pending.method)
  | .request method _ _ => ({ c with asked := c.asked ++ [⟨live.index, method⟩] }, live, none)

/-- The body of a message starts. -/
def startBody (live : Live) (framing : Body) : Guarded Fault Collector :=
  let body := BodyDecoder.new framing c.maxBodyBytes
  let c := { c with live := some { live with framing := some framing, body := some body } }
  match framing with
  | .length length =>
    if c.maxBodyBytes < length then c.reject (.limit .bodyBytes)
    else if body.complete then c.flush .complete none
    else pure c
  | .tunnel =>
    let upgradedConnections := c.summary.upgradedConnections + 1
    let c := { c with upgraded := true, summary := { c.summary with upgradedConnections } }
    c.flush .upgrade none
  | _ => if body.complete then c.flush .complete none else pure c

/-- The header of a message is complete. -/
def endHeader (live : Live) : Guarded Fault Collector := do
  let c := { c with retained := c.retained + Limits.decodedCharge live.header.length }
  enforce (c.limits.checkRetained c.retained)
  match parseHead live.header with
  | .ok none => .fail (.unreachable "terminator present") c
  | .error error => c.reject error
  | .ok (some (head, _)) =>
    let (c, live, method) := c.pairRequest head live
    let live := { live with header := [], head := some head }
    match head.body method with
    | .error error => reject { c with live := some live } error
    | .ok framing => c.startBody live framing

/-- What becomes of a header to which bytes were added, the last of them with a bare CR or LF or
not. -/
def settleHeader (live : Live) (bare : Bool) : Guarded Fault Collector :=
  let c := { c with live := some live }
  if maxHeaderBytes < live.header.length then c.reject (.limit .headerBytes)
  else if bare then c.reject (.invalid "header uses a bare CR or LF")
  else if crlfCrlf <:+ live.header then c.endHeader live
  else pure c

/-- A turn of the loop of `Collector::data` within a header. -/
def headerTurn (live : Live) (input : Bytes) : Guarded Fault (Collector × ℕ) := do
  let run := lineRun input
  let bare := bareCrlfOffset live.header.getLast? run
  let room := maxHeaderBytes + 1 - live.header.length
  let take := bare.elim (min run.length room) fun i => min (min run.length room) (i + 1)
  c.checkBuffer (live.buffered + take)
  let c ← c.settleHeader { live with header := live.header ++ run.take take } (bare.any (· < take))
  pure (c, take)

def consumeBody (live : Live) (input : Bytes) : Guarded Fault (Collector × ℕ) :=
  match live.body with
  | none => .fail (.unreachable "head has body state") (c, 0)
  | some body => do
    c.checkBuffer (live.buffered + body.additionalBufferBound input.length)
    let (body, result) := body.consume input
    let c := { c with live := some { live with body := some body } }
    match result with
    | .error error => do
      let c ← c.reject error
      pure (c, 0)
    | .ok progress => do
      let c ← if progress.complete then c.flush .complete none else pure c
      pure (c, progress.consumed)

/-- A message is started when there is none. -/
def startMessage : Guarded Fault Collector :=
  match c.live with
  | some _ => pure c
  | none => do
    enforce (c.limits.checkMessages c.summary.messages)
    let messages := c.summary.messages + 1
    pure { c with summary := { c.summary with messages }, live := some { index := messages } }

/-- A turn of the loop of `Collector::data`, and how much of the input it takes. -/
def turn (input : Bytes) : Guarded Fault (Collector × ℕ) := do
  let c ← c.startMessage
  match c.live with
  | none => .fail (.unreachable "initialized live message") (c, 0)
  | some live => if live.head.isNone then c.headerTurn live input else c.consumeBody live input

/-- Nothing more is collected. -/
def halted : Bool := c.disabled || c.upgraded

end

/-- The loop of `Collector::data`. -/
def turns : ℕ → Collector → Bytes → Guarded Fault Collector
  | 0, c, _ => pure c
  | fuel + 1, c, input =>
    if input = [] ∨ c.halted then pure c
    else do
      let (c, n) ← c.turn input
      turns fuel c (input.drop n)

variable (c : Collector)

/-- `Collector::data`. Every turn of its loop takes at least one byte, or is the last. -/
def data (bytes : Bytes) : Guarded Fault Collector := do
  let c ← c.turns (bytes.length + 1) bytes
  c.checkBuffer (c.live.elim 0 Live.buffered)
  pure c

/-- `Collector::stop`: the direction was closed, or cannot be followed any more. -/
def stop (status : Status) (clean : Bool) : Guarded Fault Collector := do
  let close (live : Live) : Live :=
    if clean then { live with body := live.body.map BodyDecoder.close } else live
  let c := { c with live := c.live.map close }
  let complete := clean && c.live.any fun live => live.body.any BodyDecoder.complete
  let c ← c.flush (if complete then .complete else status) none
  pure { c with disabled := true }

/-- How the direction ends: it is stopped, or the capture ends. -/
inductive Ending
  | stopped (status : Status) (clean : Bool)
  | finished
  deriving DecidableEq, Repr

/-- The direction ends. -/
def finish : Ending → Guarded Fault Collector
  | .stopped status clean => c.stop status clean
  | .finished => c.flush .incomplete none

/-- The messages of a direction, given its deliveries and how it ends. -/
def messagesOf (deliveries : List Bytes) (ending : Ending) :
    Except Fault (List Message) :=
  Guarded.run do
    let c ← deliveries.foldlM data c
    let c ← c.finish ending
    pure c.output

end Collector

end PacketCraftr.Http
