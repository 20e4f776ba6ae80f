import AllInOneBackup.Concurrency.Pool
import AllInOneBackup.Kurigram.Session.Packet

/-! The coroutines of a session and their interleavings: any number of `handle_packet`
tasks, of `start()`, `stop()` and `restart()` calls. A turn of a coroutine runs from one
suspension point to the next, through the calls it returns from on the way. What the
network, a worker or a user's handler does to an awaited call is its outcome. -/

namespace AllInOneBackup.Kurigram.Session

open Concurrency

/-- Who awaits a `start()`. -/
inductive Caller
  | direct | restart
  deriving DecidableEq

/-- Who awaits a `_stop()`: `stop()`, the `stop()` of a `start()` that failed, `restart()`
ahead of its `start()`, or `restart()` behind it. -/
inductive StopCaller
  | stop | failedStart (caller : Caller) | beforeStart | afterStart
  deriving DecidableEq

/-- The suspension points of `start`, by the call awaited. -/
inductive StartPoint
  | connect | ping | apiId | initConnection | connectHandler
  deriving DecidableEq

/-- The suspension points of `_stop`, by the call awaited. -/
inductive StopPoint
  | pingTask | connectionClose | recvTask | pendingTasks | disconnectHandler
  deriving DecidableEq

/-- A coroutine at a suspension point. `handlePacket` awaits `mtproto.unpack`, the two acks
points are inside `send(MsgsAck)`; `start`, `stop` and `restart` have not run yet, where
`restart` may also wait for `restart_lock`. -/
inductive Task
  | handlePacket
  | packingAcks (msgIds : Finset ℤ)
  | sendingAcks (msgIds : Finset ℤ)
  | start
  | stop
  | restart
  | starting (caller : Caller) (point : StartPoint)
  | stopping (caller : StopCaller) (point : StopPoint)
  | finished
  deriving DecidableEq

/-- The classes of exceptions the `except` clauses tell apart. -/
inductive Raised
  | authKey | osError | rpcError | valueError | other
  deriving DecidableEq

inductive Outcome
  | returned
  | unpacked (messages : List (ℤ × Message))
  | raised (e : Raised)
  deriving DecidableEq

/-- A packet read by `recv_worker`, or a call. -/
inductive Call
  | packet | start | stop | restart
  deriving DecidableEq

abbrev SessionTurn := Turn Session Task Event

def finish (s : Session) : SessionTurn := { shared := s, task := .finished }

/-- The end of `async with self.restart_lock`. -/
def release (s : Session) : SessionTurn := finish { s with restartLocked := false }

/-- The statements of `_stop` ahead of its first `await`. -/
def beginStop (s : Session) : Session :=
  { s with state := .stopping, ignoreCount := 0, isStarted := false, storedMsgIds := [],
           results := [] }

/-- A call of `_stop`; `returned` is what follows where it returns at once. -/
def enterStop (caller : StopCaller) (returned : Session → SessionTurn) (s : Session) :
    SessionTurn :=
  if s.state = .stopped ∨ s.state = .stopping then returned s
  else { shared := s.beginStop, seen := [.cleared],
         task := .stopping caller (if s.pingTask then .pingTask else .connectionClose) }

/-- What follows a `start()` that returned. -/
def startReturned (s : Session) : Caller → SessionTurn
  | .direct => s.finish
  | .restart => if s.mustStayStopped then s.enterStop .afterStart release else s.release

def enterStart (s : Session) (caller : Caller) : SessionTurn :=
  if s.state = .started ∨ s.state = .starting then s.startReturned caller
  else { shared := { s with state := .starting }, task := .starting caller .connect }

/-- What follows a `_stop()` that returned. The exception of a failed `start()` leaves
`restart()` through its lock. -/
def stopReturned (caller : StopCaller) (s : Session) : SessionTurn :=
  match caller with
  | .stop | .failedStart .direct => s.finish
  | .failedStart .restart | .afterStart => s.release
  | .beforeStart => if s.mustStayStopped then s.release else s.enterStart .restart

def resumeStop (s : Session) (caller : StopCaller) : StopPoint → SessionTurn
  | .pingTask =>
    { shared := { s with pingTask := false }, task := .stopping caller .connectionClose }
  | .connectionClose =>
    { shared := s, task := .stopping caller (if s.recvTask then .recvTask else .pendingTasks) }
  | .recvTask =>
    { shared := { s with recvTask := false }, task := .stopping caller .pendingTasks }
  | .pendingTasks =>
    { shared := { s with state := .stopped }, task := .stopping caller .disconnectHandler }
  | .disconnectHandler => s.stopReturned caller

/-- The end of `start`'s `try:` and the two statements after it. -/
def becomeStarted (s : Session) (caller : Caller) : SessionTurn :=
  { shared := { s with pingTask := true, state := .started, isStarted := true },
    task := .starting caller .connectHandler }

def resumeStart (isCdn : Bool) (s : Session) (caller : Caller) : StartPoint → SessionTurn
  | .connect => { shared := { s with recvTask := true }, task := .starting caller .ping }
  | .ping =>
    if isCdn then s.becomeStarted caller else { shared := s, task := .starting caller .apiId }
  | .apiId => { shared := s, task := .starting caller .initConnection }
  | .initConnection => s.becomeStarted caller
  | .connectHandler => s.startReturned caller

/-- `stop()`, and the `await self.stop()` of a `start()` that failed. -/
def callStop (s : Session) (caller : StopCaller) : SessionTurn :=
  { s with mustStayStopped := true }.enterStop caller (stopReturned caller)

/-- The `except` clauses of `start`. -/
def startRaised (s : Session) (caller : Caller) : Raised → SessionTurn
  | .osError | .rpcError => { s.startReturned caller with spawned := [.restart] }
  | _ => s.callStop (.failedStart caller)

/-- `if self.stored_msg_ids: self.recent_msg_ids = self.stored_msg_ids[:30]`. -/
def snapshotRecent (s : Session) : Session :=
  if s.storedMsgIds ≠ [] then { s with recentMsgIds := s.storedMsgIds.take 30 } else s

/-- `restart()` from the moment it holds `restart_lock`. -/
def beginRestart (s : Session) : SessionTurn :=
  { s.snapshotRecent with restartLocked := true }.enterStop .beforeStart (stopReturned .beforeStart)

/-- `handle_packet` from the moment the packet is unpacked. -/
def resumePacket (s : Session) (messages : List (ℤ × Message)) : SessionTurn :=
  let h := s.handleMessages messages
  { shared := h.session, seen := h.seen, spawned := .replicate h.restarts .restart,
    task := if acksThreshold ≤ h.session.pendingAcks.card then
      .packingAcks h.session.pendingAcks else .finished }

def resume (isCdn : Bool) (s : Session) : Task → Outcome → Option SessionTurn
  | .handlePacket, .unpacked messages => some (s.resumePacket messages)
  | .handlePacket, .raised .valueError => some { s.finish with spawned := [.restart] }
  | .handlePacket, .raised _ => some s.finish
  | .packingAcks msgIds, .returned => some { shared := s, task := .sendingAcks msgIds }
  | .sendingAcks msgIds, .returned =>
    some { shared := { s with pendingAcks := ∅ }, task := .finished, seen := [.acked msgIds] }
  | .packingAcks _, .raised _ | .sendingAcks _, .raised _ => some s.finish
  | .start, .returned => some (s.enterStart .direct)
  | .stop, .returned => some (s.callStop .stop)
  | .restart, .returned => if s.restartLocked then none else some s.beginRestart
  | .starting caller point, .returned => some (resumeStart isCdn s caller point)
  | .starting caller .connectHandler, .raised _ => some (s.startReturned caller)
  | .starting caller _, .raised e => some (s.startRaised caller e)
  | .stopping caller point, .returned => some (s.resumeStop caller point)
  | .stopping caller .disconnectHandler, .raised _ => some (s.stopReturned caller)
  | _, _ => none

def call (s : Session) : Call → Option (Effect Session Task Event)
  | .packet => some { shared := s, spawned := [.handlePacket] }
  | .start => some { shared := s, spawned := [.start] }
  | .stop => some { shared := s, spawned := [.stop] }
  | .restart => some { shared := s, spawned := [.restart] }

/-- The coroutines of one session; `isCdn` is `self.is_cdn`. -/
def system (isCdn : Bool) : System Session Task Event Outcome Call where
  resume := resume isCdn
  event := call

abbrev SessionPool := Pool Session Task Event

/-- A session as `__init__` leaves it. -/
def initial : SessionPool := { shared := {} }

/-- A direct `start()` from its call to its end. -/
def startRun : List (Action Outcome Call) := .event .start :: .replicate 6 (.resume 0 .returned)

/-! ### What the lifecycle coroutines do to the message fields -/

/-- The turn keeps `pending_acks` and `recent_msg_ids`, and either keeps `stored_msg_ids`
unseen or clears it. -/
def Steers (s : Session) (r : SessionTurn) : Prop :=
  r.shared.pendingAcks = s.pendingAcks ∧ r.shared.recentMsgIds = s.recentMsgIds ∧
    (r.seen = [] ∧ r.shared.storedMsgIds = s.storedMsgIds ∨
      r.seen = [.cleared] ∧ r.shared.storedMsgIds = [])

theorem steers_same (s : Session) (task : Task) (spawned : List Task) :
    Steers s { shared := s, task := task, spawned := spawned } :=
  ⟨rfl, rfl, .inl ⟨rfl, rfl⟩⟩

theorem steers_release (s : Session) : Steers s s.release := ⟨rfl, rfl, .inl ⟨rfl, rfl⟩⟩

theorem steers_enterStop {s : Session} {returned : Session → SessionTurn} (caller : StopCaller)
    (h : Steers s (returned s)) : Steers s (s.enterStop caller returned) := by
  unfold enterStop
  split
  · exact h
  · exact ⟨rfl, rfl, .inr ⟨rfl, rfl⟩⟩

theorem steers_startReturned (s : Session) (caller : Caller) :
    Steers s (s.startReturned caller) := by
  cases caller with
  | direct => exact steers_same s _ _
  | restart =>
    unfold startReturned
    split_ifs
    · exact steers_enterStop _ (steers_release s)
    · exact steers_release s

theorem steers_enterStart (s : Session) (caller : Caller) : Steers s (s.enterStart caller) := by
  unfold enterStart
  split_ifs
  · exact steers_startReturned s caller
  · exact ⟨rfl, rfl, .inl ⟨rfl, rfl⟩⟩

theorem steers_stopReturned (s : Session) (caller : StopCaller) :
    Steers s (s.stopReturned caller) := by
  cases caller with
  | stop => exact steers_same s _ _
  | afterStart => exact steers_release s
  | failedStart caller =>
    cases caller with
    | direct => exact steers_same s _ _
    | restart => exact steers_release s
  | beforeStart =>
    unfold stopReturned
    split_ifs
    · exact steers_release s
    · exact steers_enterStart s .restart

theorem steers_callStop (s : Session) (caller : StopCaller) : Steers s (s.callStop caller) :=
  steers_enterStop (s := { s with mustStayStopped := true }) caller (steers_stopReturned _ caller)

theorem steers_resumeStop (s : Session) (caller : StopCaller) (point : StopPoint) :
    Steers s (s.resumeStop caller point) := by
  cases point
  case disconnectHandler => exact steers_stopReturned s caller
  all_goals exact ⟨rfl, rfl, .inl ⟨rfl, rfl⟩⟩

theorem steers_resumeStart (isCdn : Bool) (s : Session) (caller : Caller) (point : StartPoint) :
    Steers s (resumeStart isCdn s caller point) := by
  cases point
  case connectHandler => exact steers_startReturned s caller
  case ping => cases isCdn <;> exact ⟨rfl, rfl, .inl ⟨rfl, rfl⟩⟩
  all_goals exact ⟨rfl, rfl, .inl ⟨rfl, rfl⟩⟩

theorem steers_startRaised (s : Session) (caller : Caller) (e : Raised) :
    Steers s (s.startRaised caller e) := by
  cases e
  case osError | rpcError => exact steers_startReturned s caller
  all_goals exact steers_callStop s _

@[simp] theorem snapshotRecent_pendingAcks (s : Session) :
    s.snapshotRecent.pendingAcks = s.pendingAcks := by
  unfold snapshotRecent; split_ifs <;> rfl

@[simp] theorem snapshotRecent_storedMsgIds (s : Session) :
    s.snapshotRecent.storedMsgIds = s.storedMsgIds := by
  unfold snapshotRecent; split_ifs <;> rfl

theorem steers_beginRestart (s : Session) : Steers s.snapshotRecent s.beginRestart :=
  steers_enterStop (s := { s.snapshotRecent with restartLocked := true }) _
    (steers_stopReturned _ _)

/-- Every turn is the message loop of a packet, the end of a completed `send(MsgsAck)`, a
`restart` that got its lock, or keeps to what `Steers` says. -/
theorem resume_cases {isCdn : Bool} {s : Session} {t : Task} {o : Outcome} {r : SessionTurn}
    (h : resume isCdn s t o = some r) :
    (∃ messages, t = .handlePacket ∧ o = .unpacked messages ∧ r = s.resumePacket messages) ∨
    (∃ msgIds, t = .sendingAcks msgIds ∧ o = .returned ∧ r =
      { shared := { s with pendingAcks := ∅ }, task := .finished, seen := [.acked msgIds] }) ∨
    (t = .restart ∧ r = s.beginRestart) ∨
    (Steers s r ∧ (o = .returned → ∀ msgIds, t ≠ .sendingAcks msgIds)) := by
  unfold resume at h
  split at h
  case h_1 => exact .inl ⟨_, rfl, rfl, (Option.some.inj h).symm⟩
  case h_5 => exact .inr (.inl ⟨_, rfl, rfl, (Option.some.inj h).symm⟩)
  case h_10 =>
    split_ifs at h
    exact .inr (.inr (.inl ⟨rfl, (Option.some.inj h).symm⟩))
  case h_16 => cases h
  all_goals
    refine .inr (.inr (.inr ⟨Option.some.inj h ▸ ?_, by simp⟩))
    first
      | exact steers_same s _ _
      | exact steers_enterStart s _
      | exact steers_callStop s _
      | exact steers_resumeStart isCdn s _ _
      | exact steers_startReturned s _
      | exact steers_startRaised s _ _
      | exact steers_resumeStop s _ _
      | exact steers_stopReturned s _

end AllInOneBackup.Kurigram.Session
