import AllInOneBackup.Kurigram.Session.Coroutines

/-! Acknowledgements. `handle_packet` sends a snapshot of `pending_acks` and, once the send
has completed, clears the set. Any other task may add to it in between, so an id is lost
exactly when a send completes over a `pending_acks` that holds an id neither in its
snapshot nor in an earlier completed one. -/

namespace AllInOneBackup.Kurigram.Session

open Concurrency

/-- `msgId` was in a `MsgsAck` whose `send()` completed. -/
def Acked (trace : List Event) (msgId : ℤ) : Prop :=
  ∃ msgIds, .acked msgIds ∈ trace ∧ msgId ∈ msgIds

instance (trace : List Event) (msgId : ℤ) : Decidable (Acked trace msgId) :=
  decidable_of_iff (trace.any fun | .acked msgIds => decide (msgId ∈ msgIds) | _ => false) <| by
    simp only [List.any_eq_true, Acked]
    constructor
    · rintro ⟨e, he, h⟩
      cases e
      case acked msgIds => exact ⟨msgIds, he, of_decide_eq_true h⟩
      all_goals cases h
    · rintro ⟨msgIds, he, h⟩
      exact ⟨_, he, decide_eq_true h⟩

theorem acked_append {trace seen : List Event} {msgId : ℤ} :
    Acked (trace ++ seen) msgId ↔ Acked trace msgId ∨ Acked seen msgId := by
  simp only [Acked, List.mem_append, or_and_right, exists_or]

/-- Every content-related msg_id added to `pending_acks` is still there or was acknowledged. -/
def NoAckLost (p : SessionPool) : Prop :=
  ∀ msgId, .contentAdded msgId ∈ p.trace → msgId ∈ p.shared.pendingAcks ∨ Acked p.trace msgId

/-- If the step completes a `send(MsgsAck)`, the content-related ids in `pending_acks` are
among those it sent or acknowledged already. -/
def FlushCovers (p : SessionPool) : Action Outcome Call → Prop
  | .resume i .returned => ∀ msgIds, p.tasks[i]? = some (.sendingAcks msgIds) →
      ∀ msgId ∈ p.shared.pendingAcks, .contentAdded msgId ∈ p.trace →
        msgId ∈ msgIds ∨ Acked p.trace msgId
  | _ => True

/-- The ids a piece of code adds are in `pending_acks` after it, with all that were there. -/
def AddsAcks (s s' : Session) (seen : List Event) : Prop :=
  s.pendingAcks ⊆ s'.pendingAcks ∧ ∀ msgId, .contentAdded msgId ∈ seen → msgId ∈ s'.pendingAcks

theorem AddsAcks.append {s s' s'' : Session} {seen seen' : List Event} (h : AddsAcks s s' seen)
    (h' : AddsAcks s' s'' seen') : AddsAcks s s'' (seen ++ seen') := by
  refine ⟨h.1.trans h'.1, fun msgId hm => ?_⟩
  obtain hm | hm := List.mem_append.mp hm
  · exact h'.1 (h.2 msgId hm)
  · exact h'.2 msgId hm

theorem addsAcks_checkAndDispatch (s : Session) (now : ℤ) (msg : Message) :
    AddsAcks s (s.checkAndDispatch now msg).session (s.checkAndDispatch now msg).seen := by
  obtain ⟨e, last, ignored, -, hs, hseen⟩ |
    ⟨last, ignored, acks, salt, results, updates, -, hs, hacks, hseen, hupd⟩ :=
      s.checkAndDispatch_cases now msg
  · rw [hs, hseen]
    exact ⟨subset_rfl, by simp⟩
  · rw [hs, hseen]
    refine ⟨hacks, fun msgId hm => ?_⟩
    obtain hm | hm := List.mem_cons.mp hm
    · cases hm
    · cases hupd _ hm

theorem addsAcks_handleMessage (s : Session) (now : ℤ) (msg : Message) :
    AddsAcks s (s.handleMessage now msg).session (s.handleMessage now msg).seen := by
  have htime : AddsAcks s s (setServerTime msg) := by
    refine ⟨subset_rfl, fun msgId hm => ?_⟩
    unfold setServerTime at hm
    split_ifs at hm <;> simp at hm
  unfold Session.handleMessage
  split_ifs with hodd hmem
  · exact htime
  · refine htime.append (?_ : AddsAcks s _ ([.contentAdded msg.msgId] ++ _))
    have hadd : AddsAcks s { s with pendingAcks := insert msg.msgId s.pendingAcks }
        [.contentAdded msg.msgId] := by
      refine ⟨Finset.subset_insert _ _, fun msgId hm => ?_⟩
      cases List.mem_singleton.mp hm
      exact Finset.mem_insert_self _ _
    exact hadd.append (addsAcks_checkAndDispatch _ now msg)
  · exact htime.append (addsAcks_checkAndDispatch s now msg)

theorem addsAcks_handleMessages (s : Session) (messages : List (ℤ × Message)) :
    AddsAcks s (s.handleMessages messages).session (s.handleMessages messages).seen := by
  induction messages generalizing s with
  | nil => exact ⟨subset_rfl, by simp [Session.handleMessages]⟩
  | cons m rest ih => exact (addsAcks_handleMessage s m.1 m.2).append (ih _)

theorem Steers.addsAcks {s : Session} {r : SessionTurn} (h : s.Steers r) :
    AddsAcks s r.shared r.seen := by
  obtain ⟨hacks, -, hseen⟩ := h
  refine ⟨hacks.ge, fun msgId hm => ?_⟩
  obtain ⟨hs, -⟩ | ⟨hs, -⟩ := hseen <;> simp [hs] at hm

/-- A turn adds to `pending_acks`, or is the end of a completed `send(MsgsAck)`. -/
theorem resume_addsAcks {isCdn : Bool} {s : Session} {t : Task} {o : Outcome} {r : SessionTurn}
    (h : resume isCdn s t o = some r) :
    (∃ msgIds, t = .sendingAcks msgIds ∧ o = .returned ∧ r.shared.pendingAcks = ∅ ∧
      r.seen = [.acked msgIds]) ∨
    (AddsAcks s r.shared r.seen ∧ (o = .returned → ∀ msgIds, t ≠ .sendingAcks msgIds)) := by
  obtain ⟨messages, rfl, rfl, rfl⟩ | ⟨msgIds, rfl, rfl, rfl⟩ | ⟨rfl, rfl⟩ | ⟨hs, hne⟩ :=
    resume_cases h
  · exact .inr ⟨addsAcks_handleMessages s messages, by simp⟩
  · exact .inl ⟨msgIds, rfl, rfl, rfl, rfl⟩
  · have hs := (steers_beginRestart s).addsAcks
    exact .inr ⟨⟨by simpa using hs.1, hs.2⟩, by simp⟩
  · exact .inr ⟨hs.addsAcks, hne⟩

/-- Adding loses nothing. -/
theorem NoAckLost.addsAcks {p q : SessionPool} (h : NoAckLost p) {seen : List Event}
    (hadd : AddsAcks p.shared q.shared seen) (htrace : q.trace = p.trace ++ seen) : NoAckLost q := by
  intro msgId hm
  rw [htrace] at hm ⊢
  obtain hm | hm := List.mem_append.mp hm
  · obtain hp | hp := h msgId hm
    · exact .inl (hadd.1 hp)
    · exact .inr (acked_append.mpr (.inl hp))
  · exact .inl (hadd.2 msgId hm)

/-- The end of a completed send loses nothing exactly when the sent ids cover what it clears. -/
theorem noAckLost_flush_iff {p q : SessionPool} {msgIds : Finset ℤ} (h : NoAckLost p)
    (hacks : q.shared.pendingAcks = ∅) (htrace : q.trace = p.trace ++ [.acked msgIds]) :
    NoAckLost q ↔ ∀ msgId ∈ p.shared.pendingAcks, .contentAdded msgId ∈ p.trace →
      msgId ∈ msgIds ∨ Acked p.trace msgId := by
  have hadded : ∀ msgId, .contentAdded msgId ∈ q.trace ↔ .contentAdded msgId ∈ p.trace := by
    simp [htrace]
  have hack : ∀ msgId, Acked q.trace msgId ↔ msgId ∈ msgIds ∨ Acked p.trace msgId := by
    intro msgId
    rw [htrace, acked_append, or_comm]
    simp [Acked]
  simp only [NoAckLost, hadded, hack, hacks, Finset.notMem_empty, false_or]
  constructor
  · exact fun hq msgId _ hm => hq msgId hm
  · intro hq msgId hm
    obtain hp | hp := h msgId hm
    · exact hq msgId hp hm
    · exact .inr hp

theorem flushCovers_iff {isCdn : Bool} {p q : SessionPool} {a : Action Outcome Call}
    (h : NoAckLost p) (hstep : (system isCdn).step p a = some q) :
    FlushCovers p a ↔ NoAckLost q := by
  obtain ⟨i, o, t, r, rfl, hi, hr, rfl⟩ | ⟨e, r, rfl, he, rfl⟩ := System.step_cases hstep
  · obtain ⟨msgIds, rfl, rfl, hacks, hseen⟩ | ⟨hadd, hne⟩ := resume_addsAcks hr
    · rw [noAckLost_flush_iff h hacks (congrArg (p.trace ++ ·) hseen)]
      simp only [FlushCovers, hi, Option.some.injEq, Task.sendingAcks.injEq, forall_eq']
    · refine iff_of_true ?_ (h.addsAcks hadd rfl)
      cases o with
      | returned =>
        intro msgIds hi'
        exact absurd (Option.some.inj (hi.symm.trans hi')) (hne rfl msgIds)
      | unpacked _ | raised _ => trivial
  · have hadd : AddsAcks p.shared r.shared r.seen := by
      cases e <;> cases he <;> exact ⟨subset_rfl, by simp⟩
    exact iff_of_true trivial (h.addsAcks hadd rfl)

/-- In every run, no acknowledgement is lost in any state exactly when every send of acks
that completes covers the ids pending at that moment. -/
theorem no_ack_lost_iff (isCdn : Bool) (actions : List (Action Outcome Call)) :
    (system isCdn).Throughout NoAckLost initial actions ↔
      (system isCdn).Along FlushCovers initial actions :=
  System.throughout_iff_along (I := fun _ => True) (fun _ _ _ _ _ => trivial)
    (fun _ _ _ _ h hstep => flushCovers_iff h hstep) trivial (by simp [NoAckLost, initial]) actions

/-- `UpdatesTooLong`, content-related, as the `n`-th message within one second. -/
def updatesTooLong (n : ℕ) : ℤ × Message :=
  let now : ℤ := 1700000000 * 2 ^ 32
  (now, ⟨now + 4 * n + 1, 1, .other ⟨0xE317AF7E, []⟩⟩)

/-- One task sends the acks of ten messages; while it waits, a second one adds an eleventh
msg_id and starts its own send; the first send completes and the second fails with an
`OSError`. -/
def lostAckRun : List (Action Outcome Call) :=
  startRun ++ [.event .packet, .event .packet,
    .resume 1 (.unpacked ((List.range 10).map updatesTooLong)), .resume 1 .returned,
    .resume 2 (.unpacked [updatesTooLong 10]), .resume 2 .returned,
    .resume 1 .returned, .resume 2 (.raised .osError)]

/-- After that run the eleventh msg_id is neither pending nor acknowledged, and no task is
left to send it. -/
theorem ack_lost : ∃ p, (system false).run initial lostAckRun = some p ∧
    ¬NoAckLost p ∧ ∀ t ∈ p.tasks, t = .finished := by
  refine ⟨_, rfl, fun h => ?_, by decide +kernel⟩
  have hlost := h (1700000000 * 2 ^ 32 + 41) (by decide +kernel)
  revert hlost
  decide +kernel

end AllInOneBackup.Kurigram.Session
