import AllInOneBackup.Kurigram.Raw.Core
import AllInOneBackup.Kurigram.Session.Packet

/-! `MsgFactory`: a message gets its `msg_id` from the clock and its `seq_no` from the count of the
content-related messages, each under a lock of its own. Nothing is awaited under a lock, so a call
that finds the locks free runs in one turn. The body is written, for its length, only after both
numbers were allocated. -/

namespace AllInOneBackup.Kurigram

structure MsgFactory where
  lastMsgId : ℤ := 0
  msgIdLocked : Bool := false
  seqNoLocked : Bool := false
  contentRelatedMessagesSent : ℕ := 0

namespace MsgFactory

/-- The classes that `create` tells apart. -/
inductive BodyClass
  | ping
  | httpWait
  | msgsAck
  | msgContainer
  | other
  deriving DecidableEq

/-- `written` is what `body.write()` returns or raises. -/
structure Body where
  cls : BodyClass
  written : Except Exc Bytes

structure Message where
  body : Body
  msgId : ℤ
  seqNo : ℕ
  length : ℕ

/-- A turn of a coroutine; `none` where it has to wait for a lock. -/
abbrev Turn (α : Type) := StateT MsgFactory Option α

/-- `int(self.client.server_time * (2**32)) & ~0b11`, and what is made of it; `now` is the
`int`. -/
def nextMsgId (m : MsgFactory) (now : ℤ) : ℤ :=
  let base := now - now % 4
  if base ≤ m.lastMsgId then m.lastMsgId + 4 else base

def allocateMessageIdentity (now : ℤ) : Turn ℤ := fun m =>
  if m.msgIdLocked then none
  else
    let m := { m with msgIdLocked := true }
    let base := m.nextMsgId now
    let m := { m with lastMsgId := base }
    some (base, { m with msgIdLocked := false })

def allocateMessageSequence (isContentRelated : Bool) : Turn ℕ := fun m =>
  if m.seqNoLocked then none
  else
    let m := { m with seqNoLocked := true }
    let seqNo := m.contentRelatedMessagesSent * 2 + (if isContentRelated then 1 else 0)
    let m :=
      if isContentRelated then
        { m with contentRelatedMessagesSent := m.contentRelatedMessagesSent + 1 }
      else m
    some (seqNo, { m with seqNoLocked := false })

def Body.isContentRelated (b : Body) : Bool :=
  ¬(b.cls ∈ [.ping, .httpWait, .msgsAck, .msgContainer])

def create (now : ℤ) (body : Body) : Turn (Except Exc Message) := do
  let msgId ← allocateMessageIdentity now
  let seqNo ← allocateMessageSequence body.isContentRelated
  return body.written.map fun bs => { body, msgId, seqNo, length := bs.length }

/-- The session also takes identities alone, for its pings and to look at the clock. -/
inductive Call
  | create (now : ℤ) (body : Body)
  | identity (now : ℤ)

inductive Outcome
  | created (message : Message)
  | raised (e : Exc)
  | identity (msgId : ℤ)

def Call.run : Call → Turn Outcome
  | .create now body => do
    match ← MsgFactory.create now body with
    | .ok message => return .created message
    | .error e => return .raised e
  | .identity now => return .identity (← allocateMessageIdentity now)

def Outcome.message? : Outcome → Option Message
  | .created message => some message
  | _ => none

def Outcome.msgId? : Outcome → Option ℤ
  | .created message => some message.msgId
  | .raised _ => none
  | .identity msgId => some msgId

/-- The messages and the ids that came of some calls, in their order. -/
def created (outcomes : List Outcome) : List Message := outcomes.filterMap Outcome.message?

def issued (outcomes : List Outcome) : List ℤ := outcomes.filterMap Outcome.msgId?

/-- What is claimed of the identities: the ids grow, in steps of four; a `seq_no` counts the
content-related messages that were created before; and the two orders agree. -/
structure Right (outcomes : List Outcome) : Prop where
  increasing : (issued outcomes).Pairwise (· < ·)
  aligned : ∀ msgId ∈ issued outcomes, 4 ∣ msgId
  seqNo : ∀ before message after, created outcomes = before ++ message :: after →
    message.seqNo = 2 * before.countP (·.body.isContentRelated) +
      if message.body.isContentRelated then 1 else 0
  agree : (created outcomes).Pairwise fun a b => a.msgId < b.msgId ∧ a.seqNo ≤ b.seqNo

/-- The call creates a message. -/
def Call.Creates : Call → Prop
  | .create _ body => ∃ bs, body.written = .ok bs
  | .identity _ => False

/-- The call counts a content-related message and raises. -/
def Call.Loses : Call → Prop
  | .create _ body => body.isContentRelated = true ∧ ∃ e, body.written = .error e
  | .identity _ => False

/-! ### One call -/

theorem lt_nextMsgId (m : MsgFactory) (now : ℤ) : m.lastMsgId < m.nextMsgId now := by
  dsimp only [nextMsgId]
  split_ifs with h
  · omega
  · omega

theorem four_dvd_nextMsgId {m : MsgFactory} (h : 4 ∣ m.lastMsgId) (now : ℤ) :
    4 ∣ m.nextMsgId now := by
  dsimp only [nextMsgId]
  split_ifs
  · omega
  · omega

/-- The locks are free, as they are between two turns. -/
def Idle (m : MsgFactory) : Prop := m.msgIdLocked = false ∧ m.seqNoLocked = false

theorem allocateMessageIdentity_run {m : MsgFactory} (h : m.Idle) (now : ℤ) :
    (allocateMessageIdentity now).run m =
      some (m.nextMsgId now, { m with lastMsgId := m.nextMsgId now }) := by
  obtain ⟨last, idLocked, noLocked, sent⟩ := m
  obtain rfl : idLocked = false := h.1
  rfl

/-- How much a body adds to the count. -/
def Body.weight (b : Body) : ℕ := if b.isContentRelated then 1 else 0

theorem allocateMessageSequence_run {m : MsgFactory} (h : m.Idle) (b : Body) :
    (allocateMessageSequence b.isContentRelated).run m =
      some (m.contentRelatedMessagesSent * 2 + b.weight,
        { m with contentRelatedMessagesSent := m.contentRelatedMessagesSent + b.weight }) := by
  obtain ⟨last, idLocked, noLocked, sent⟩ := m
  obtain rfl : noLocked = false := h.2
  change allocateMessageSequence _ _ = _
  cases hrelated : b.isContentRelated with
  | false => simp [allocateMessageSequence, Body.weight, hrelated]
  | true => simp [allocateMessageSequence, Body.weight, hrelated]

/-- What comes of a call, and what the factory is after it. -/
def Call.outcome (m : MsgFactory) : Call → Outcome
  | .create now body =>
    match body.written with
    | .ok bs => .created
        { body
          msgId := m.nextMsgId now
          seqNo := m.contentRelatedMessagesSent * 2 + body.weight
          length := bs.length }
    | .error e => .raised e
  | .identity now => .identity (m.nextMsgId now)

def Call.next (m : MsgFactory) : Call → MsgFactory
  | .create now body => { m with
      lastMsgId := m.nextMsgId now
      contentRelatedMessagesSent := m.contentRelatedMessagesSent + body.weight }
  | .identity now => { m with lastMsgId := m.nextMsgId now }

theorem Call.run_eq {m : MsgFactory} (h : m.Idle) (c : Call) :
    c.run.run m = some (c.outcome m, c.next m) := by
  cases c with
  | create now body =>
    have hidentity := allocateMessageIdentity_run h now
    have hidle : Idle { m with lastMsgId := m.nextMsgId now } := h
    have hsequence := allocateMessageSequence_run hidle body
    simp only [Call.run, MsgFactory.create, StateT.run_bind, hidentity, hsequence,
      Option.bind_eq_bind, Option.bind_some, StateT.run_pure, Option.pure_def, Call.outcome]
    cases body.written with
    | ok bs => rfl
    | error e => rfl
  | identity now =>
    simp only [Call.run, StateT.run_bind, allocateMessageIdentity_run h now, Option.bind_eq_bind,
      Option.bind_some, StateT.run_pure, Option.pure_def]
    rfl

/-! ### Runs -/

/-- What comes of the calls, one after the other. -/
def outcomes (m : MsgFactory) : List Call → List Outcome
  | [] => []
  | c :: calls => c.outcome m :: outcomes (c.next m) calls

/-- No call waits, whatever the clock reads. -/
theorem run_eq {m : MsgFactory} (h : m.Idle) (calls : List Call) :
    ∃ m', (calls.mapM Call.run).run m = some (m.outcomes calls, m') := by
  induction calls generalizing m with
  | nil => exact ⟨m, rfl⟩
  | cons c calls ih =>
    have hnext : (c.next m).Idle := by
      cases c with
      | create now body => exact h
      | identity now => exact h
    obtain ⟨m', hrun⟩ := ih hnext
    refine ⟨m', ?_⟩
    rw [List.mapM_cons, StateT.run_bind, c.run_eq h]
    change ((calls.mapM Call.run >>= fun os => pure (c.outcome m :: os)).run (c.next m)) = _
    rw [StateT.run_bind, hrun]
    rfl

theorem Call.lt_next (m : MsgFactory) (c : Call) : m.lastMsgId < (c.next m).lastMsgId := by
  cases c with
  | create now body => exact m.lt_nextMsgId now
  | identity now => exact m.lt_nextMsgId now

theorem Call.four_dvd_next {m : MsgFactory} (h : 4 ∣ m.lastMsgId) (c : Call) :
    4 ∣ (c.next m).lastMsgId := by
  cases c with
  | create now body => exact four_dvd_nextMsgId h now
  | identity now => exact four_dvd_nextMsgId h now

/-- An id that is issued is the last one of the factory from then on. -/
theorem Call.msgId_outcome {m : MsgFactory} {c : Call} {msgId : ℤ}
    (h : (c.outcome m).msgId? = some msgId) : msgId = (c.next m).lastMsgId := by
  cases c with
  | create now body =>
    dsimp only [outcome] at h
    cases hwritten : body.written with
    | ok bs =>
      rw [hwritten] at h
      exact (Option.some.inj h).symm
    | error e =>
      rw [hwritten] at h
      exact nomatch h
  | identity now => exact (Option.some.inj h).symm

/-- The numbers of a message that is created. -/
theorem Call.message_outcome {m : MsgFactory} {c : Call} {message : Message}
    (h : (c.outcome m).message? = some message) :
    message.msgId = (c.next m).lastMsgId ∧
      message.seqNo = 2 * m.contentRelatedMessagesSent + message.body.weight ∧
      (c.next m).contentRelatedMessagesSent =
        m.contentRelatedMessagesSent + message.body.weight ∧ c.Creates ∧ ¬c.Loses := by
  cases c with
  | create now body =>
    dsimp only [outcome] at h
    cases hwritten : body.written with
    | ok bs =>
      rw [hwritten] at h
      obtain rfl := Option.some.inj h
      refine ⟨rfl, by dsimp only; omega, rfl, ⟨bs, hwritten⟩, fun hloses => ?_⟩
      obtain ⟨-, e, he⟩ := hloses
      exact nomatch hwritten.symm.trans he
    | error e =>
      rw [hwritten] at h
      exact nomatch h
  | identity now => exact nomatch h

/-- A call that creates nothing counts a message exactly where it loses one. -/
theorem Call.no_message_outcome {m : MsgFactory} {c : Call}
    (h : (c.outcome m).message? = none) : ¬c.Creates ∧
      (c.Loses ∧ (c.next m).contentRelatedMessagesSent = m.contentRelatedMessagesSent + 1 ∨
        ¬c.Loses ∧ (c.next m).contentRelatedMessagesSent = m.contentRelatedMessagesSent) := by
  cases c with
  | create now body =>
    dsimp only [outcome] at h
    cases hwritten : body.written with
    | ok bs =>
      rw [hwritten] at h
      exact nomatch h
    | error e =>
      have hcreates : ¬(Call.create now body).Creates := by
        rintro ⟨bs, hbs⟩
        exact nomatch hwritten.symm.trans hbs
      refine ⟨hcreates, ?_⟩
      by_cases hrelated : body.isContentRelated = true
      · left
        exact ⟨⟨hrelated, e, hwritten⟩, by simp [next, Body.weight, hrelated]⟩
      · right
        exact ⟨fun hloses => hrelated hloses.1, by simp [next, Body.weight, hrelated]⟩
  | identity now =>
    exact ⟨id, .inr ⟨id, rfl⟩⟩

/-- All ids lie above the last one, and grow. -/
theorem issued_increasing (m : MsgFactory) (calls : List Call) :
    (m.lastMsgId :: issued (m.outcomes calls)).Pairwise (· < ·) := by
  induction calls generalizing m with
  | nil => exact List.pairwise_singleton _ _
  | cons c calls ih =>
    have hrest := List.pairwise_cons.mp (ih (c.next m))
    have hlt := c.lt_next m
    cases hid : (c.outcome m).msgId? with
    | none =>
      rw [outcomes, issued, List.filterMap_cons_none hid]
      exact List.pairwise_cons.mpr ⟨fun id hmem => hlt.trans (hrest.1 id hmem), hrest.2⟩
    | some msgId =>
      rw [outcomes, issued, List.filterMap_cons_some hid, Call.msgId_outcome hid]
      apply List.pairwise_cons.mpr
      refine ⟨fun id hmem => ?_, ih (c.next m)⟩
      rcases List.mem_cons.mp hmem with rfl | hmem
      · exact hlt
      · exact hlt.trans (hrest.1 id hmem)

theorem issued_aligned {m : MsgFactory} (h : 4 ∣ m.lastMsgId) (calls : List Call) :
    ∀ msgId ∈ issued (m.outcomes calls), 4 ∣ msgId := by
  induction calls generalizing m with
  | nil => exact fun _ hmem => nomatch hmem
  | cons c calls ih =>
    have hnext := c.four_dvd_next h
    cases hid : (c.outcome m).msgId? with
    | none =>
      rw [outcomes, issued, List.filterMap_cons_none hid]
      exact ih hnext
    | some msgId =>
      rw [outcomes, issued, List.filterMap_cons_some hid]
      exact List.forall_mem_cons.mpr ⟨Call.msgId_outcome hid ▸ hnext, ih hnext⟩

/-- All messages lie above the last id and the count, in both orders. -/
theorem created_agree (m : MsgFactory) (calls : List Call) :
    (∀ message ∈ created (m.outcomes calls),
      m.lastMsgId < message.msgId ∧ 2 * m.contentRelatedMessagesSent ≤ message.seqNo) ∧
    (created (m.outcomes calls)).Pairwise fun a b => a.msgId < b.msgId ∧ a.seqNo ≤ b.seqNo := by
  induction calls generalizing m with
  | nil => exact ⟨by simp [outcomes, created], .nil⟩
  | cons c calls ih =>
    obtain ⟨hall, hpairs⟩ := ih (c.next m)
    have hlt := c.lt_next m
    cases hmessage : (c.outcome m).message? with
    | none =>
      rw [outcomes, created, List.filterMap_cons_none hmessage]
      obtain ⟨-, hcount⟩ := Call.no_message_outcome hmessage
      refine ⟨fun message hmem => ?_, hpairs⟩
      obtain ⟨hid, hseq⟩ := hall message hmem
      exact ⟨hlt.trans hid, by omega⟩
    | some first =>
      rw [outcomes, created, List.filterMap_cons_some hmessage]
      obtain ⟨hid, hseq, hcount, -, -⟩ := Call.message_outcome hmessage
      constructor
      · intro message hmem
        rcases List.mem_cons.mp hmem with rfl | hmem
        · exact ⟨by omega, by omega⟩
        · obtain ⟨hid', hseq'⟩ := hall message hmem
          exact ⟨hlt.trans hid', by omega⟩
      · apply List.pairwise_cons.mpr
        refine ⟨fun message hmem => ?_, hpairs⟩
        obtain ⟨hid', hseq'⟩ := hall message hmem
        exact ⟨hid ▸ hid', by omega⟩

/-- The `seq_no`s count on from `k` content-related messages. -/
def SeqNosFrom : ℕ → List Message → Prop
  | _, [] => True
  | k, message :: messages =>
    message.seqNo = 2 * k + message.body.weight ∧ SeqNosFrom (k + message.body.weight) messages

theorem seqNosFrom_iff {k : ℕ} {messages : List Message} : SeqNosFrom k messages ↔
    ∀ before message after, messages = before ++ message :: after →
      message.seqNo = 2 * (k + before.countP (·.body.isContentRelated)) +
        message.body.weight := by
  induction messages generalizing k with
  | nil => exact iff_of_true trivial fun before message after h => absurd h (by simp)
  | cons first messages ih =>
    have hcount (before : List Message) :
        (first :: before).countP (·.body.isContentRelated) =
          first.body.weight + before.countP (·.body.isContentRelated) := by
      rw [List.countP_cons, Body.weight, Nat.add_comm]
    rw [SeqNosFrom, ih]
    constructor
    · rintro ⟨hfirst, hrest⟩ before message after h
      cases before with
      | nil =>
        obtain ⟨rfl, -⟩ := List.cons.inj h
        exact hfirst
      | cons other before =>
        obtain ⟨rfl, rfl⟩ := List.cons.inj h
        rw [hrest before message after rfl, hcount]
        omega
    · intro h
      refine ⟨h [] first messages rfl, fun before message after hsplit => ?_⟩
      rw [h (first :: before) message after (congrArg (first :: ·) hsplit), hcount]
      omega

theorem created_eq_nil_iff (m : MsgFactory) (calls : List Call) :
    created (m.outcomes calls) = [] ↔ ∀ c ∈ calls, ¬c.Creates := by
  induction calls generalizing m with
  | nil => exact iff_of_true rfl fun _ hmem => nomatch hmem
  | cons c calls ih =>
    rw [List.forall_mem_cons]
    cases hmessage : (c.outcome m).message? with
    | none =>
      rw [outcomes, created, List.filterMap_cons_none hmessage]
      exact (ih (c.next m)).trans (by simp [(Call.no_message_outcome hmessage).1])
    | some first =>
      rw [outcomes, created, List.filterMap_cons_some hmessage]
      obtain ⟨-, -, -, hcreates, -⟩ := Call.message_outcome hmessage
      exact iff_of_false (List.cons_ne_nil _ _) fun h => h.1 hcreates

/-- A count that is ahead of the messages shows in the first of them. -/
theorem not_seqNosFrom {m : MsgFactory} {k : ℕ} (h : k < m.contentRelatedMessagesSent)
    (calls : List Call) : SeqNosFrom k (created (m.outcomes calls)) ↔
      created (m.outcomes calls) = [] := by
  have hall := (created_agree m calls).1
  cases hcreated : created (m.outcomes calls) with
  | nil => exact iff_of_true trivial rfl
  | cons first messages =>
    refine iff_of_false (fun hseq => ?_) (List.cons_ne_nil _ _)
    obtain ⟨-, hle⟩ := hall first (by rw [hcreated]; exact List.mem_cons_self)
    have hone : first.body.weight ≤ 1 := by
      rw [Body.weight]
      split_ifs
      · exact le_rfl
      · exact Nat.zero_le 1
    have hfirst := hseq.1
    omega

theorem seqNosFrom_created_iff (m : MsgFactory) (calls : List Call) :
    SeqNosFrom m.contentRelatedMessagesSent (created (m.outcomes calls)) ↔
      calls.Pairwise fun c d => c.Loses → ¬d.Creates := by
  induction calls generalizing m with
  | nil => exact iff_of_true trivial .nil
  | cons c calls ih =>
    rw [List.pairwise_cons]
    have hnext := ih (c.next m)
    cases hmessage : (c.outcome m).message? with
    | none =>
      rw [outcomes, created, List.filterMap_cons_none hmessage]
      obtain ⟨-, ⟨hloses, hsent⟩ | ⟨hloses, hsent⟩⟩ := Call.no_message_outcome hmessage
      · have hahead : m.contentRelatedMessagesSent < (c.next m).contentRelatedMessagesSent := by
          omega
        have hnil := (not_seqNosFrom hahead calls).trans (created_eq_nil_iff _ calls)
        refine hnil.trans ⟨fun h => ⟨fun d hd _ => h d hd, ?_⟩, fun h d hd => h.1 d hd hloses⟩
        exact List.pairwise_iff_forall_sublist.mpr fun hsub _ =>
          h _ (hsub.subset (List.mem_cons_of_mem _ List.mem_cons_self))
      · rw [hsent] at hnext
        exact hnext.trans ⟨fun h => ⟨fun _ _ hl => absurd hl hloses, h⟩, And.right⟩
    | some first =>
      rw [outcomes, created, List.filterMap_cons_some hmessage]
      obtain ⟨-, hseq, hsent, -, hloses⟩ := Call.message_outcome hmessage
      rw [hsent] at hnext
      constructor
      · rintro ⟨-, hrest⟩
        exact ⟨fun _ _ hl => absurd hl hloses, hnext.mp hrest⟩
      · rintro ⟨-, hrest⟩
        exact ⟨hseq, hnext.mpr hrest⟩

theorem right_outcomes_iff (calls : List Call) : Right (({} : MsgFactory).outcomes calls) ↔
    calls.Pairwise fun c d => c.Loses → ¬d.Creates := by
  rw [← seqNosFrom_created_iff {} calls, seqNosFrom_iff]
  constructor
  · intro h before message after hsplit
    rw [h.seqNo before message after hsplit, Nat.zero_add]
    rfl
  · intro h
    refine ⟨(List.pairwise_cons.mp (issued_increasing {} calls)).2,
      issued_aligned (dvd_zero 4) calls, fun before message after hsplit => ?_,
      (created_agree {} calls).2⟩
    rw [h before message after hsplit, Nat.zero_add]
    rfl

/-- Every run of calls goes through, and its identities are right exactly where no call that loses
a content-related message comes before one that creates a message. -/
theorem identities_right_iff (calls : List Call) :
    ∃ outcomes m, (calls.mapM Call.run).run {} = some (outcomes, m) ∧
      (Right outcomes ↔ calls.Pairwise fun c d => c.Loses → ¬d.Creates) := by
  obtain ⟨m, hrun⟩ := run_eq (m := {}) ⟨rfl, rfl⟩ calls
  exact ⟨_, m, hrun, right_outcomes_iff calls⟩

/-- A request that cannot be written, and then one that can: its `seq_no` is 3, though no message
was created before it. -/
theorem lost_message_counted : ¬∀ (calls : List Call) outcomes m,
    (calls.mapM Call.run).run {} = some (outcomes, m) → Right outcomes := by
  intro h
  let calls : List Call :=
    [.create 0 ⟨.other, .error (.overflowError "int too big to convert")⟩,
      .create 0 ⟨.other, .ok [0, 0, 0, 0]⟩]
  obtain ⟨m, hrun⟩ := run_eq (m := {}) ⟨rfl, rfl⟩ calls
  have hpairs := (right_outcomes_iff calls).mp (h calls _ m hrun)
  exact (List.pairwise_cons.mp hpairs).1 _ List.mem_cons_self ⟨rfl, _, rfl⟩ ⟨_, rfl⟩

end MsgFactory

end AllInOneBackup.Kurigram
