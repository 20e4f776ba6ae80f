import AllInOneBackup.Kurigram.Session.Acks

/-! Acknowledgements of dropped messages. The message loop adds a content-related msg_id to
`pending_acks` before it checks the message, and nothing takes it out again where a check fails: a
message that is dropped and was never dispatched is acknowledged with the others. -/

namespace AllInOneBackup.Kurigram.Session

open Concurrency

/-- One round of the message loop: what was seen before it, the session, the clock and the
message. -/
structure Round where
  trace : List Event
  session : Session
  now : ℤ
  msg : Message

/-- The rounds of a packet in a session with a history. -/
def rounds (trace : List Event) (s : Session) : List (ℤ × Message) → List Round
  | [] => []
  | (now, msg) :: rest =>
    let h := s.handleMessage now msg
    ⟨trace, s, now, msg⟩ :: rounds (trace ++ h.seen) h.session rest

/-- The three discards of a message that was not received before. -/
def Mismatch.dropping : List Mismatch := [.lowerThanStored, .inFuture, .inPast]

namespace Round

variable (r : Round)

/-- The message is content-related and was not dispatched before. -/
def Fresh : Prop := r.msg.seqNo % 2 ≠ 0 ∧ .dispatched r.msg.msgId ∉ r.trace

/-- The round discards its message as too old, in the future, or below the store. -/
def Drops : Prop :=
  ∃ why ∈ Mismatch.dropping, .discarded r.msg.msgId why ∈ (r.session.handleMessage r.now r.msg).seen

/-- The store does not refuse the msg_id as too low, and it is known or near the clock. -/
def InWindow (s : Session) (now msgId : ℤ) : Prop :=
  match s.prune.storedMsgIds with
  | [] => True
  | low :: rest =>
    let d := msgId - (s.prune.allocateMessageIdentity now).2
    low ≤ msgId ∧ (msgId ∈ low :: rest ∨ -300 * 2 ^ 32 ≤ d ∧ d ≤ 30 * 2 ^ 32)

/-- The message is not dropped: it is pending already, of the closed connection, or in the
window. -/
def Kept : Prop :=
  r.msg.msgId ∈ r.session.pendingAcks ∨ r.msg.msgId ∈ r.session.recentMsgIds ∨
    InWindow r.session r.now r.msg.msgId

end Round

/-! ### One round -/

theorem prune_recentMsgIds (s : Session) : s.prune.recentMsgIds = s.recentMsgIds := by
  unfold prune
  split_ifs <;> rfl

/-- What the checks raise. -/
theorem checkMsgId_snd (s : Session) (now msgId : ℤ) :
    (s.checkMsgId now msgId).2 =
      if msgId ∈ s.recentMsgIds then some .recentConnection
      else match s.prune.storedMsgIds with
        | [] => none
        | low :: rest =>
          let d := msgId - (s.prune.allocateMessageIdentity now).2
          if msgId < low then some .lowerThanStored
          else if msgId ∈ low :: rest then some .equalToStored
          else if d > 30 * 2 ^ 32 then some .inFuture
          else if d < -300 * 2 ^ 32 then some .inPast
          else none := by
  unfold checkMsgId
  rw [← prune_recentMsgIds s]
  generalize s.prune = p
  obtain ⟨_, _, _, _, _, _, _, _, _, _, stored, _, _⟩ := p
  cases stored with
  | nil =>
    dsimp only
    split_ifs <;> rfl
  | cons low rest =>
    dsimp only
    split_ifs <;> rfl

/-- The checks drop a msg_id exactly where it is neither recent nor in the window. -/
theorem checkMsgId_drops_iff (s : Session) (now msgId : ℤ) :
    (∃ why ∈ Mismatch.dropping, (s.checkMsgId now msgId).2 = some why) ↔
      ¬(msgId ∈ s.recentMsgIds ∨ Round.InWindow s now msgId) := by
  rw [checkMsgId_snd, Round.InWindow]
  by_cases hr : msgId ∈ s.recentMsgIds
  · simp [hr, Mismatch.dropping]
  · rw [if_neg hr]
    cases s.prune.storedMsgIds with
    | nil => simp [Mismatch.dropping]
    | cons low rest =>
      simp only [hr, false_or]
      generalize msgId - (s.prune.allocateMessageIdentity now).2 = d
      by_cases hlow : msgId < low
      · simp [hlow, Mismatch.dropping]
      · by_cases hmem : msgId ∈ low :: rest
        · simp only [hlow, if_false, hmem, if_true]
          simp [Mismatch.dropping, not_lt.mp hlow]
        · simp only [hlow, if_false, hmem, false_or, not_lt.mp hlow, true_and]
          by_cases hfuture : d > 30 * 2 ^ 32
          · have hnot : ¬(-300 * 2 ^ 32 ≤ d ∧ d ≤ 30 * 2 ^ 32) :=
              fun h => absurd h.2 (not_le.mpr hfuture)
            rw [if_pos hfuture]
            exact iff_of_true ⟨_, by simp [Mismatch.dropping], rfl⟩ hnot
          · by_cases hpast : d < -300 * 2 ^ 32
            · have hnot : ¬(-300 * 2 ^ 32 ≤ d ∧ d ≤ 30 * 2 ^ 32) :=
                fun h => absurd h.1 (not_le.mpr hpast)
              rw [if_neg hfuture, if_pos hpast]
              exact iff_of_true ⟨_, by simp [Mismatch.dropping], rfl⟩ hnot
            · have hin : -300 * 2 ^ 32 ≤ d ∧ d ≤ 30 * 2 ^ 32 := ⟨not_lt.mp hpast, not_lt.mp hfuture⟩
              rw [if_neg hfuture, if_neg hpast]
              exact iff_of_false (by simp) (not_not_intro hin)

/-- The checks do not look at `pending_acks`. -/
theorem checkMsgId_pendingAcks (s : Session) (acks : Finset ℤ) (now msgId : ℤ) :
    (({ s with pendingAcks := acks } : Session).checkMsgId now msgId).2 =
      (s.checkMsgId now msgId).2 := by
  have hstored : ({ s with pendingAcks := acks } : Session).prune.storedMsgIds =
      s.prune.storedMsgIds := by
    unfold prune
    dsimp only
    split_ifs <;> rfl
  have hlast : ({ s with pendingAcks := acks } : Session).prune.lastMsgId = s.prune.lastMsgId := by
    unfold prune
    dsimp only
    split_ifs <;> rfl
  rw [checkMsgId_snd, checkMsgId_snd, hstored]
  simp only [allocateMessageIdentity, hlast]
  rfl

/-- The message loop discards a content-related message exactly where it is not pending and the
checks fail. -/
theorem discarded_mem_handleMessage {s : Session} {now : ℤ} {msg : Message} {why : Mismatch}
    (hodd : msg.seqNo % 2 ≠ 0) :
    .discarded msg.msgId why ∈ (s.handleMessage now msg).seen ↔
      msg.msgId ∉ s.pendingAcks ∧ (s.checkMsgId now msg.msgId).2 = some why := by
  have htime : .discarded msg.msgId why ∉ setServerTime msg := by
    unfold setServerTime
    split_ifs <;> simp
  unfold handleMessage
  rw [if_pos hodd]
  by_cases hmem : msg.msgId ∈ s.pendingAcks
  · rw [if_pos hmem]
    exact iff_of_false htime fun h => h.1 hmem
  · rw [if_neg hmem]
    rw [← checkMsgId_pendingAcks s (insert msg.msgId s.pendingAcks)]
    simp only [List.mem_append, htime, false_or, List.mem_cons, hmem, not_false_eq_true, true_and]
    obtain ⟨e, last, ignored, hcheck, -, hseen⟩ |
      ⟨last, ignored, acks, salt, results, updates, hcheck, -, -, hseen, hupd⟩ :=
        checkAndDispatch_cases { s with pendingAcks := insert msg.msgId s.pendingAcks } now msg
    · rw [hseen, hcheck]
      simp [eq_comm]
    · rw [hseen, hcheck]
      refine iff_of_false ?_ (by simp)
      rintro (h | h)
      · cases h
      · rcases List.mem_cons.mp h with h | h
        · cases h
        · cases hupd _ h

namespace Round

variable {r : Round}

theorem drops_iff (hodd : r.msg.seqNo % 2 ≠ 0) : r.Drops ↔ ¬r.Kept := by
  rw [Drops, Kept]
  simp only [discarded_mem_handleMessage hodd]
  have hcheck := checkMsgId_drops_iff r.session r.now r.msg.msgId
  by_cases hmem : r.msg.msgId ∈ r.session.pendingAcks
  · simp [hmem]
  · simp only [hmem, not_false_eq_true, true_and, false_or]
    exact hcheck

/-- A dropped message is pending after its round. -/
theorem pending_of_odd (hodd : r.msg.seqNo % 2 ≠ 0) :
    r.msg.msgId ∈ (r.session.handleMessage r.now r.msg).session.pendingAcks := by
  have hadds := addsAcks_handleMessage r.session r.now r.msg
  by_cases hmem : r.msg.msgId ∈ r.session.pendingAcks
  · exact hadds.1 hmem
  · apply hadds.2
    unfold handleMessage
    rw [if_pos hodd, if_neg hmem]
    simp

end Round

/-! ### A packet -/

theorem pendingAcks_rounds {trace : List Event} {s : Session} {messages : List (ℤ × Message)}
    {r : Round} (hr : r ∈ rounds trace s messages) :
    (r.session.handleMessage r.now r.msg).session.pendingAcks ⊆
      (s.handleMessages messages).session.pendingAcks := by
  induction messages generalizing trace s with
  | nil => exact absurd hr List.not_mem_nil
  | cons m messages ih =>
    rcases List.mem_cons.mp hr with rfl | hr
    · exact (addsAcks_handleMessages _ messages).1
    · exact ih hr

/-- A packet leaves no dropped message to be acknowledged if and only if it drops none: in every
session with every history, for every packet. -/
theorem dropped_unacked_iff (trace : List Event) (s : Session) (messages : List (ℤ × Message)) :
    (∀ r ∈ rounds trace s messages, r.Fresh → r.Drops →
        r.msg.msgId ∉ (s.handleMessages messages).session.pendingAcks) ↔
      ∀ r ∈ rounds trace s messages, r.Fresh → r.Kept := by
  constructor
  · intro h r hr hfresh
    by_contra hkept
    apply h r hr hfresh ((Round.drops_iff hfresh.1).mpr hkept)
    exact pendingAcks_rounds hr (Round.pending_of_odd hfresh.1)
  · intro h r hr hfresh hdrops
    exact absurd (h r hr hfresh) ((Round.drops_iff hfresh.1).mp hdrops)

/-- Ten content-related messages, the last one below the others. -/
def droppedRun : List (Action Outcome Call) :=
  startRun ++ [.event .packet,
    .resume 1 (.unpacked ((List.range 9).map updatesTooLong ++
      [(1700000000 * 2 ^ 32, ⟨1700000000 * 2 ^ 32 - 3, 1, .other ⟨0xE317AF7E, []⟩⟩)])),
    .resume 1 .returned, .resume 1 .returned]

/-- After that run the last message has been discarded, was never dispatched, and is
acknowledged. -/
theorem dropped_acked : ∃ p msgId, (system false).run initial droppedRun = some p ∧
    .discarded msgId .lowerThanStored ∈ p.trace ∧ .contentAdded msgId ∈ p.trace ∧
    .dispatched msgId ∉ p.trace ∧ Acked p.trace msgId := by
  refine ⟨_, 1700000000 * 2 ^ 32 - 3, rfl, ?_⟩
  decide +kernel

end AllInOneBackup.Kurigram.Session
