import Mathlib.Algebra.Group.Int.Defs
import Mathlib.Data.Finset.Card
import AllInOneBackup.Order.ReplayWindow

/-! The session's fields and what `Session.handle_packet` does with an unpacked packet.
The message loop holds an `await` of `MsgFactory.allocate_message_identity`, which never
suspends: `_msg_id_lock` is only held over statements without an `await`, so it is free
whenever a task runs. The whole loop is therefore one turn of its task, and so is every
`_set_state`, for the same reason. A clock reading is what
`int(client.server_time * 2 ** 32)` comes to when it is asked for. -/

namespace AllInOneBackup.Kurigram

open ReplayWindow

inductive SessionState
  | starting | started | stopping | stopped
  deriving DecidableEq

namespace Session

/-- A TL object `handle_packet` passes on without looking inside. -/
structure RawObject where
  id : ℕ
  fields : List UInt8
  deriving DecidableEq

/-- The bodies `handle_packet` tells apart, with the fields it reads. -/
inductive Body
  | msgDetailedInfo (answerMsgId : ℤ)
  | msgNewDetailedInfo (answerMsgId : ℤ)
  | newSessionCreated
  | badServerSalt (badMsgId newServerSalt : ℤ)
  | badMsgNotification (badMsgId errorCode : ℤ)
  | futureSalts (reqMsgId : ℤ) (salts : List RawObject)
  | rpcResult (reqMsgId : ℤ) (result : RawObject)
  | pong (msgId pingId : ℤ)
  | other (object : RawObject)
  deriving DecidableEq

structure Message where
  msgId : ℤ
  seqNo : ℤ
  body : Body
  deriving DecidableEq

/-- `getattr(msg.body, "result", msg.body)`. -/
inductive Answer
  | result (object : RawObject)
  | body (body : Body)
  deriving DecidableEq

def Body.answer : Body → Answer
  | .rpcResult _ result => .result result
  | body => .body body

structure Result where
  value : Option Answer := none
  event : Bool := false
  deriving DecidableEq

end Session

/-- `restartLocked` is `restart_lock.locked()`; `pingTask` and `recvTask` say whether the
attribute holds a task. -/
structure Session where
  state : SessionState := .stopped
  isStarted : Bool := false
  mustStayStopped : Bool := false
  restartLocked : Bool := false
  pingTask : Bool := false
  recvTask : Bool := false
  salt : ℤ := 0
  ignoreCount : ℕ := 0
  pendingAcks : Finset ℤ := ∅
  results : List (ℤ × Session.Result) := []
  storedMsgIds : List ℤ := []
  recentMsgIds : List ℤ := []
  lastMsgId : ℤ := 0
  deriving DecidableEq

namespace Session

def acksThreshold : ℕ := 10
def storedMsgIdsMaxSize : ℕ := 1000 * 2
def maxConsecutiveIgnored : ℕ := 30

/-- The `SecurityCheckMismatch`es of `handle_packet`. -/
inductive Mismatch
  | recentConnection | lowerThanStored | equalToStored | inFuture | inPast
  deriving DecidableEq

def Mismatch.text : Mismatch → String
  | .recentConnection => "The msg_id is belong to most recent closed connection."
  | .lowerThanStored => "The msg_id is lower than all the stored values"
  | .equalToStored => "The msg_id is equal to any of the stored values"
  | .inFuture => "The msg_id belongs to over 30 seconds in the future. " ++
      "Most likely the client time has to be synchronized."
  | .inPast => "The msg_id belongs to over 300 seconds in the past. " ++
      "Most likely the client time has to be synchronized."

/-- What the session does that its fields do not keep. -/
inductive Event
  /-- `client._set_server_time(msg_id)` -/
  | serverTime (msgId : ℤ)
  /-- a content-related `msg_id` was added to `pending_acks` -/
  | contentAdded (msgId : ℤ)
  | discarded (msgId : ℤ) (why : Mismatch)
  /-- the message passed the checks -/
  | dispatched (msgId : ℤ)
  | handleUpdates (body : Body)
  /-- `stored_msg_ids.clear()` -/
  | cleared
  /-- `send(MsgsAck(msg_ids))` completed -/
  | acked (msgIds : Finset ℤ)
  deriving DecidableEq

/-- `MsgFactory.allocate_message_identity`. -/
def allocateMessageIdentity (s : Session) (now : ℤ) : Session × ℤ :=
  let base := now - now % 4
  let base := if base ≤ s.lastMsgId then s.lastMsgId + 4 else base
  ({ s with lastMsgId := base }, base)

/-- The cut made before the checks. -/
def prune (s : Session) : Session :=
  if s.storedMsgIds.length > storedMsgIdsMaxSize then
    { s with storedMsgIds := s.storedMsgIds.drop (storedMsgIdsMaxSize / 2) }
  else s

/-- The checks between `try:` and `except`, and what they raise. `time_diff` is compared in
units of `2 ** -32` s. -/
def checkMsgId (s : Session) (now msgId : ℤ) : Session × Option Mismatch :=
  let s := s.prune
  if msgId ∈ s.recentMsgIds then
    ({ s with recentMsgIds := s.recentMsgIds.erase msgId }, some .recentConnection)
  else match s.storedMsgIds with
    | [] => (s, none)
    | low :: _ =>
      if msgId < low then (s, some .lowerThanStored)
      else if msgId ∈ s.storedMsgIds then (s, some .equalToStored)
      else
        let (s, identity) := s.allocateMessageIdentity now
        if msgId - identity > 30 * 2 ^ 32 then (s, some .inFuture)
        else if msgId - identity < -300 * 2 ^ 32 then (s, some .inPast)
        else ({ s with ignoreCount := 0 }, none)

/-- `if msg_id in self.results: ...`. -/
def resolve (s : Session) (msgId : ℤ) (body : Body) : Session :=
  { s with results := s.results.map fun (id, r) =>
      if id = msgId then (id, { r with value := some body.answer, event := true }) else (id, r) }

/-- The part of the loop after the checks. -/
def dispatch (s : Session) (body : Body) : Session × List Event :=
  match body with
  | .msgDetailedInfo answer | .msgNewDetailedInfo answer =>
    ({ s with pendingAcks := insert answer s.pendingAcks }, [])
  | .newSessionCreated => (s, [])
  | .badServerSalt badMsgId newServerSalt =>
    (({ s with salt := newServerSalt }).resolve badMsgId body, [])
  | .badMsgNotification msgId _ | .futureSalts msgId _ | .rpcResult msgId _ | .pong msgId _ =>
    (s.resolve msgId body, [])
  | .other _ => (s, [.handleUpdates body])

/-- `restarts` counts the `asyncio.create_task(self.restart())`. -/
structure Handled where
  session : Session
  seen : List Event := []
  restarts : ℕ := 0

/-- A message past the `pending_acks` block. -/
def checkAndDispatch (s : Session) (now : ℤ) (msg : Message) : Handled :=
  match s.checkMsgId now msg.msgId with
  | (s, some e) =>
    let s := { s with ignoreCount := s.ignoreCount + 1 }
    ⟨s, [.discarded msg.msgId e], if s.ignoreCount ≥ maxConsecutiveIgnored then 1 else 0⟩
  | (s, none) =>
    let s := { s with storedMsgIds := insort msg.msgId s.storedMsgIds }
    let (s, seen) := s.dispatch msg.body
    ⟨s, .dispatched msg.msgId :: seen, 0⟩

def setServerTime (msg : Message) : List Event :=
  if msg.seqNo = 0 then [.serverTime msg.msgId] else []

/-- One round of the message loop. -/
def handleMessage (s : Session) (now : ℤ) (msg : Message) : Handled :=
  if msg.seqNo % 2 ≠ 0 then
    if msg.msgId ∈ s.pendingAcks then ⟨s, setServerTime msg, 0⟩
    else
      let h := checkAndDispatch { s with pendingAcks := insert msg.msgId s.pendingAcks } now msg
      { h with seen := setServerTime msg ++ .contentAdded msg.msgId :: h.seen }
  else
    let h := s.checkAndDispatch now msg
    { h with seen := setServerTime msg ++ h.seen }

/-- The loop over the messages, each with the clock it would read. -/
def handleMessages (s : Session) : List (ℤ × Message) → Handled
  | [] => ⟨s, [], 0⟩
  | (now, msg) :: rest =>
    let h := s.handleMessage now msg
    let h' := h.session.handleMessages rest
    ⟨h'.session, h.seen ++ h'.seen, h.restarts + h'.restarts⟩

/-! ### What a packet leaves alone -/

/-- The fields `start`, `_stop` and `restart` steer by. -/
def lifecycle (s : Session) : SessionState × Bool × Bool × Bool × Bool × Bool :=
  (s.state, s.isStarted, s.mustStayStopped, s.restartLocked, s.pingTask, s.recvTask)

/-- The checks cut the store and forget a replayed id; of the other fields they touch only
the id factory and the count of ignored messages. -/
theorem checkMsgId_fst (s : Session) (now msgId : ℤ) : ∃ last ignored,
    (s.checkMsgId now msgId).1 = { s with
      storedMsgIds := s.prune.storedMsgIds, recentMsgIds := s.recentMsgIds.erase msgId,
      lastMsgId := last, ignoreCount := ignored } := by
  have hp : s.prune = { s with storedMsgIds := s.prune.storedMsgIds } := by
    unfold prune; split_ifs <;> rfl
  rw [checkMsgId, hp]
  by_cases hr : msgId ∈ s.recentMsgIds
  · exact ⟨s.lastMsgId, s.ignoreCount, by simp [hr]⟩
  · rw [List.erase_of_not_mem hr]
    cases hs : s.prune.storedMsgIds with
    | nil => exact ⟨s.lastMsgId, s.ignoreCount, by simp [hr]⟩
    | cons low rest =>
      simp only [hr, ↓reduceIte, allocateMessageIdentity]
      split_ifs <;> exact ⟨_, _, rfl⟩

/-- What the checks let through is not refused by the store they checked it against. -/
theorem checkMsgId_eq_none {s : Session} {now msgId : ℤ} (h : (s.checkMsgId now msgId).2 = none) :
    ¬Refuses s.prune.storedMsgIds msgId := by
  rintro ⟨hne, href⟩
  obtain ⟨low, rest, hs⟩ := List.exists_cons_of_ne_nil hne
  rw [hs] at href
  by_cases hr : msgId ∈ s.prune.recentMsgIds
  · simp [checkMsgId, hr] at h
  · by_cases hlow : msgId < low
    · simp [checkMsgId, hr, hs, hlow] at h
    · have hmem : msgId ∈ low :: rest := href.resolve_right fun hlt => hlow (hlt low (by simp))
      simp [checkMsgId, hr, hs, hlow, List.mem_cons.mp hmem] at h

theorem checkMsgId_recent {s : Session} {msgId : ℤ} (h : msgId ∈ s.recentMsgIds) (now : ℤ) :
    (s.checkMsgId now msgId).2 = some .recentConnection := by
  have hp : s.prune.recentMsgIds = s.recentMsgIds := by unfold prune; split_ifs <;> rfl
  simp [checkMsgId, hp, h]

/-- Past the checks only `pending_acks`, which grows, the salt and the results change, and
nothing is seen but updates handed on. -/
theorem dispatch_cases (s : Session) (body : Body) : ∃ acks salt results,
    (s.dispatch body).1 = { s with pendingAcks := acks, salt := salt, results := results } ∧
    s.pendingAcks ⊆ acks ∧ ∀ e ∈ (s.dispatch body).2, e = .handleUpdates body := by
  cases body <;> exact ⟨_, _, _, rfl, by simp, by simp [dispatch]⟩

/-- A message past the `pending_acks` block is discarded, or stored and dispatched. -/
theorem checkAndDispatch_cases (s : Session) (now : ℤ) (msg : Message) :
    (∃ e last ignored, (s.checkMsgId now msg.msgId).2 = some e ∧
      (s.checkAndDispatch now msg).session = { s with
        storedMsgIds := s.prune.storedMsgIds, recentMsgIds := s.recentMsgIds.erase msg.msgId,
        lastMsgId := last, ignoreCount := ignored } ∧
      (s.checkAndDispatch now msg).seen = [.discarded msg.msgId e]) ∨
    (∃ last ignored acks salt results updates, (s.checkMsgId now msg.msgId).2 = none ∧
      (s.checkAndDispatch now msg).session = { s with
        storedMsgIds := insort msg.msgId s.prune.storedMsgIds,
        recentMsgIds := s.recentMsgIds.erase msg.msgId,
        lastMsgId := last, ignoreCount := ignored,
        pendingAcks := acks, salt := salt, results := results } ∧
      s.pendingAcks ⊆ acks ∧
      (s.checkAndDispatch now msg).seen = .dispatched msg.msgId :: updates ∧
      ∀ e ∈ updates, e = .handleUpdates msg.body) := by
  obtain ⟨last, ignored, hfst⟩ := s.checkMsgId_fst now msg.msgId
  unfold checkAndDispatch
  generalize s.checkMsgId now msg.msgId = c at hfst
  obtain ⟨s', _ | e⟩ := c <;> simp only at hfst <;> subst hfst
  · obtain ⟨acks, salt, results, hd, hacks, hseen⟩ := dispatch_cases _ msg.body
    exact .inr ⟨last, ignored, acks, salt, results, _, rfl, hd, hacks, rfl, hseen⟩
  · exact .inl ⟨e, last, ignored + 1, rfl, rfl, rfl⟩

end Session

end AllInOneBackup.Kurigram
