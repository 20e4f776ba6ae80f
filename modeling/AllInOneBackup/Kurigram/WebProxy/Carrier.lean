import AllInOneBackup.Concurrency.Pool
import AllInOneBackup.Data.Bytes
import AllInOneBackup.Data.Chunked

/-! The carrier of a connection through a WEB proxy, from the end of `start()` on: its
fields, the frames of the downlink, and the coroutines of `recv`, `send`, the grant flushes,
`close` and the tracked background tasks. A turn of a coroutine runs from one suspension
point to the next. `_send_frames` is one `await`: the lock and the sequence number inside it
order the POSTs and touch nothing else. -/

namespace AllInOneBackup.Kurigram

open Bytes Chunked Concurrency

namespace WebProxyCarrier

def frameMaxPayload : ℕ := 1024 * 1024
def controlStreamId : ℕ := 0
def streamId : ℕ := 1
def initialStreamWindow : ℕ := 4 * 1024 * 1024
def uplinkFrameMax : ℕ := 64 * 1024
def downlinkGrantThreshold : ℤ := 256 * 1024
def windowPayloadSize : ℕ := 4

inductive FrameType
  | open | data | close | window | ping | pong | hello | welcome | authChallenge
  | authResponse | bye
  deriving DecidableEq

/-- A frame as `parse_frames` returns it. -/
structure Frame where
  type : FrameType
  streamId : ℕ
  payload : Bytes
  capped : payload.length ≤ frameMaxPayload

/-- The `WebCarrierError`s a carrier fails with. A request that raises one and an answer
with another status than 200 keep their own message. -/
inductive Failure
  | bye | beyondCredit | streamClosed | malformedWindow | creditTimeout
  | request (message : String)
  deriving DecidableEq

def Failure.text : Failure → String
  | .bye => "relay sent BYE"
  | .beyondCredit => "relay sent DATA beyond granted receive credit"
  | .streamClosed => "relay closed the stream"
  | .malformedWindow => "malformed WINDOW frame"
  | .creditTimeout => "timed out waiting for uplink WINDOW credit"
  | .request message => message

/-- A coroutine at a suspension point; `recv`, `send`, `pong` and `close` may not have run
yet, `recv` awaits the queue otherwise and `send` the lock of `TCP.send`. `granting` and
`flushingGrant` await the POST of a grant, inside `recv` and inside the delayed flush;
`flushingFrames`, `awaitingCredit` and `postingFrames` are the awaits of `send`, the first
two with the chunk at hand and the chunks behind it. -/
inductive Task
  | recv (length : ℤ)
  | granting
  | delayedGrantFlush
  | flushingGrant
  | send (data : Bytes)
  | flushingFrames (chunk : Bytes) (rest : List Bytes)
  | awaitingCredit (chunk : Bytes) (rest : List Bytes)
  | postingFrames
  | fail (why : Failure)
  | pong (payload : Bytes)
  | ponging
  | close
  | closing
  | finished
  deriving DecidableEq

/-- What an awaited call did: a POST returned, or failed with a `WebCarrierError`; the wait
for credit timed out; or another exception came out of it, a cancellation included. -/
inductive Outcome
  | returned
  | failed (why : Failure)
  | timeout
  | raised
  deriving DecidableEq

/-- One answer of the downlink poll, the end of the poll loop, or a call. -/
inductive Call
  | frames (frames : List Frame)
  | pollFailed (why : Failure)
  | recv (length : ℤ)
  | send (data : Bytes)
  | close

/-- What an observer of the carrier sees. -/
inductive Event
  /-- a DATA payload beyond the credit was dropped -/
  | overrun (payload : Bytes)
  /-- bytes left the buffer for the caller of `recv` -/
  | received (data : Bytes)
  /-- a WINDOW grant was handed to `_send_frames` -/
  | granted (amount : ℤ)
  /-- a WINDOW frame gave uplink credit -/
  | credited (amount : ℕ)
  /-- `send` was called with some data -/
  | passed (data : Bytes)
  /-- DATA frames were handed to `_send_frames` -/
  | posted (payloads : List Bytes)
  /-- `send` returned normally -/
  | sent
  | ponged (payload : Bytes)
  deriving DecidableEq

end WebProxyCarrier

/-- `grantFlushTask` says whether the attribute holds a task, `sendLocked` is the lock that
`TCP.send` holds around `send`. -/
structure WebProxyCarrier where
  sendWindow : ℤ := WebProxyCarrier.initialStreamWindow
  sendWindowEvent : Bool := true
  recvWindowRemaining : ℤ := WebProxyCarrier.initialStreamWindow
  recvBuffer : Bytes := []
  pendingGrant : ℤ := 0
  grantFlushTask : Bool := false
  recvQueue : List (Option Bytes) := []
  closed : Bool := false
  failExc : Option WebProxyCarrier.Failure := none
  sendLocked : Bool := false

namespace WebProxyCarrier

abbrev CarrierEffect := Effect WebProxyCarrier Task Event

abbrev CarrierTurn := Turn WebProxyCarrier Task Event

def finish (s : WebProxyCarrier) : CarrierTurn := { shared := s, task := .finished }

/-- `_fail`. -/
def fail (s : WebProxyCarrier) (why : Failure) : WebProxyCarrier :=
  if s.failExc.isSome then s
  else { s with failExc := some why, sendWindowEvent := true, recvQueue := s.recvQueue ++ [none] }

/-! ### The downlink -/

def handleControlFrame (s : WebProxyCarrier) (frame : Frame) : CarrierEffect :=
  match frame.type with
  | .ping => { shared := s, spawned := [.pong frame.payload] }
  | .bye => { shared := s, spawned := [.fail .bye] }
  | _ => { shared := s }

def handleStreamFrame (s : WebProxyCarrier) (frame : Frame) : CarrierEffect :=
  match frame.type with
  | .data =>
    let s := { s with recvWindowRemaining := s.recvWindowRemaining - frame.payload.length }
    if s.recvWindowRemaining < 0 then
      { shared := s, spawned := [.fail .beyondCredit], seen := [.overrun frame.payload] }
    else { shared := { s with recvQueue := s.recvQueue ++ [some frame.payload] } }
  | .close => { shared := s, spawned := [.fail .streamClosed] }
  | .window =>
    if frame.payload.length ≠ windowPayloadSize then
      { shared := s, spawned := [.fail .malformedWindow] }
    else
      let amount := ofBE frame.payload
      { shared := { s with sendWindow := s.sendWindow + amount, sendWindowEvent := true },
        seen := [.credited amount] }
  | _ => { shared := s }

def handleFrame (s : WebProxyCarrier) (frame : Frame) : CarrierEffect :=
  if frame.streamId = controlStreamId then s.handleControlFrame frame
  else if frame.streamId ≠ streamId then { shared := s }
  else s.handleStreamFrame frame

/-- The loop over the frames of one answer. -/
def handleFrames (s : WebProxyCarrier) : List Frame → CarrierEffect
  | [] => { shared := s }
  | frame :: rest =>
    let e := s.handleFrame frame
    let e' := e.shared.handleFrames rest
    { shared := e'.shared, spawned := e.spawned ++ e'.spawned, seen := e.seen ++ e'.seen }

/-- `_flush_grant`, up to its POST at `posting`; `left` is what follows where it returns, or
where `to_bytes` raises an `OverflowError`. -/
def flushGrant (s : WebProxyCarrier) (posting : Task) (left : WebProxyCarrier → CarrierTurn) :
    CarrierTurn :=
  let amount := s.pendingGrant
  let s := { s with pendingGrant := 0 }
  if amount ≤ 0 ∨ s.failExc.isSome then left s
  else
    let s := { s with recvWindowRemaining := s.recvWindowRemaining + amount }
    if 256 ^ windowPayloadSize ≤ amount then left s
    else { shared := s, task := posting, seen := [.granted amount] }

/-- The `finally:` of `_delayed_grant_flush`. -/
def endGrantFlush (s : WebProxyCarrier) : CarrierTurn := finish { s with grantFlushTask := false }

/-- `_grant_credit` and the end of `recv`. -/
def grantCredit (s : WebProxyCarrier) (amount : ℤ) : CarrierTurn :=
  if amount ≤ 0 ∨ s.closed ∨ s.failExc.isSome then s.finish
  else
    let s := { s with pendingGrant := s.pendingGrant + amount }
    if s.pendingGrant ≥ downlinkGrantThreshold then s.flushGrant .granting finish
    else if s.grantFlushTask then s.finish
    else { finish { s with grantFlushTask := true } with spawned := [.delayedGrantFlush] }

/-- How the loop of `recv` ends: with enough in the buffer, at an empty queue, or at the
`None` that marks the end. -/
inductive Filled
  | enough | empty | ended
  deriving DecidableEq

/-- The loop of `recv`, on the buffer and the queue. -/
def fill (length : ℤ) (buffer : Bytes) (queue : List (Option Bytes)) :
    Filled × Bytes × List (Option Bytes) :=
  if length ≤ buffer.length then (.enough, buffer, queue)
  else match queue with
    | [] => (.empty, buffer, [])
    | none :: queue => (.ended, buffer, queue)
    | some chunk :: queue => fill length (buffer ++ chunk) queue

def resumeRecv (s : WebProxyCarrier) (length : ℤ) : CarrierTurn :=
  match fill length s.recvBuffer s.recvQueue with
  | (.empty, buffer, queue) =>
    { shared := { s with recvBuffer := buffer, recvQueue := queue }, task := .recv length }
  | (.ended, buffer, queue) => finish { s with recvBuffer := buffer, recvQueue := queue }
  | (.enough, buffer, queue) =>
    let data := sliceTo buffer length
    let turn := grantCredit
      { s with recvBuffer := sliceFrom buffer length, recvQueue := queue } length
    { turn with seen := .received data :: turn.seen }

/-! ### The uplink -/

/-- `send` leaves `TCP.send` by an exception. -/
def leaveSend (s : WebProxyCarrier) : CarrierTurn := finish { s with sendLocked := false }

/-- `send` returns. -/
def returnSend (s : WebProxyCarrier) : CarrierTurn := { s.leaveSend with seen := [.sent] }

/-- A round of the loop of `_spend_send_window`, where the window is too small. -/
def awaitCredit (s : WebProxyCarrier) (chunk : Bytes) (rest : List Bytes) : CarrierTurn :=
  if s.failExc.isSome then s.leaveSend
  else { shared := { s with sendWindowEvent := false }, task := .awaitingCredit chunk rest }

/-- The loop of `send` over the chunks to come, with the frames that are `pending`. -/
def sendChunks (s : WebProxyCarrier) (pending : List Bytes) : List Bytes → CarrierTurn
  | [] =>
    if pending ≠ [] then { shared := s, task := .postingFrames, seen := [.posted pending] }
    else s.returnSend
  | chunk :: rest =>
    if s.sendWindow < chunk.length then
      if pending ≠ [] then
        { shared := s, task := .flushingFrames chunk rest, seen := [.posted pending] }
      else s.awaitCredit chunk rest
    else
      { s with sendWindow := s.sendWindow - chunk.length }.sendChunks (pending ++ [chunk]) rest

/-- `_spend_send_window` from the head of its loop, and the rest of `send`. -/
def spendSendWindow (s : WebProxyCarrier) (chunk : Bytes) (rest : List Bytes) : CarrierTurn :=
  if s.sendWindow < chunk.length then s.awaitCredit chunk rest
  else { s with sendWindow := s.sendWindow - chunk.length }.sendChunks [chunk] rest

/-- `send` from its start, with the lock of `TCP.send` just taken. -/
def enterSend (s : WebProxyCarrier) (data : Bytes) : CarrierTurn :=
  let s := { s with sendLocked := true }
  let turn :=
    if s.failExc.isSome then s.leaveSend
    else if data = [] then s.returnSend
    else s.sendChunks [] (pieces uplinkFrameMax data)
  { turn with seen := .passed data :: turn.seen }

/-! ### The coroutines -/

def enterClose (s : WebProxyCarrier) : CarrierTurn :=
  if s.closed then s.finish else { shared := { s with closed := true }, task := .closing }

/-- Only `close` cancels the tracked tasks. -/
def resume (s : WebProxyCarrier) : Task → Outcome → Option CarrierTurn
  | .recv length, .returned => some (s.resumeRecv length)
  | .recv _, .raised => some s.finish
  | .granting, .returned | .granting, .raised => some s.finish
  | .granting, .failed why => some (s.fail why).finish
  | .delayedGrantFlush, .returned => some (s.flushGrant .flushingGrant endGrantFlush)
  | .delayedGrantFlush, .raised => if s.closed then some s.endGrantFlush else none
  | .flushingGrant, .returned | .flushingGrant, .raised => some s.endGrantFlush
  | .flushingGrant, .failed why => some (s.fail why).endGrantFlush
  | .send data, .returned => if s.sendLocked then none else some (s.enterSend data)
  | .send _, .raised => some s.finish
  | .flushingFrames chunk rest, .returned => some (s.spendSendWindow chunk rest)
  | .awaitingCredit chunk rest, .returned =>
    if s.sendWindowEvent then some (s.spendSendWindow chunk rest) else none
  | .awaitingCredit _ _, .timeout => some (s.fail .creditTimeout).leaveSend
  | .postingFrames, .returned => some s.returnSend
  | .flushingFrames _ _, .failed why | .postingFrames, .failed why => some (s.fail why).leaveSend
  | .flushingFrames _ _, .raised | .awaitingCredit _ _, .raised | .postingFrames, .raised =>
    some s.leaveSend
  | .fail why, .returned => some (s.fail why).finish
  | .pong payload, .returned =>
    some { shared := s, task := .ponging, seen := [.ponged payload] }
  | .fail _, .raised | .pong _, .raised => if s.closed then some s.finish else none
  | .ponging, .returned | .ponging, .raised => some s.finish
  | .ponging, .failed why => some (s.fail why).finish
  | .close, .returned => some s.enterClose
  | .closing, .returned => some (finish { s with recvQueue := s.recvQueue ++ [none] })
  | .closing, .raised => some s.finish
  | _, _ => none

/-- The poll loop has ended where the carrier has failed or is closed. -/
def call (s : WebProxyCarrier) : Call → Option CarrierEffect
  | .frames frames => if s.failExc.isSome ∨ s.closed then none else some (s.handleFrames frames)
  | .pollFailed why =>
    if s.failExc.isSome ∨ s.closed then none else some { shared := s.fail why }
  | .recv length => some { shared := s, spawned := [.recv length] }
  | .send data => some { shared := s, spawned := [.send data] }
  | .close => some { shared := s, spawned := [.close] }

def system : System WebProxyCarrier Task Event Outcome Call where
  resume := resume
  event := call

abbrev CarrierPool := Pool WebProxyCarrier Task Event

def initial : CarrierPool := { shared := {} }

/-- Neither failed nor closed. -/
def Live (s : WebProxyCarrier) : Prop := s.failExc = none ∧ s.closed = false

instance (s : WebProxyCarrier) : Decidable s.Live := inferInstanceAs (Decidable (_ ∧ _))

theorem fail_not_live (s : WebProxyCarrier) (why : Failure) : ¬(s.fail why).Live := by
  unfold fail
  split_ifs with h
  · exact fun hl => by simp [hl.1] at h
  · exact fun hl => by cases hl.1

end WebProxyCarrier

end AllInOneBackup.Kurigram
