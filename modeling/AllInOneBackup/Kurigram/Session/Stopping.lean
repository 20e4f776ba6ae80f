import AllInOneBackup.Kurigram.Session.Coroutines

/-! `stop()` and the coroutines it races with. A `stop()` that lands inside the `start()` of
a `restart()` is undone by that `restart()`; nothing undoes one that lands inside a direct
`start()`. A second way to end with `is_started` set is a `_stop()` that began before a
direct `start()` set it and closes with `STOPPED` afterwards: the `stop()` that follows
finds the session stopped and returns at once. -/

namespace AllInOneBackup.Kurigram.Session

open Concurrency

/-- A coroutine of `start`, `stop` or `restart`. -/
def Task.ofLifecycle : Task → Bool
  | .handlePacket | .packingAcks _ | .sendingAcks _ | .finished => false
  | _ => true

/-- Neither `STARTED` nor `is_started`. -/
def Down (s : Session) : Prop := s.state ≠ .started ∧ s.isStarted = false

instance (s : Session) : Decidable s.Down := inferInstanceAs (Decidable (_ ∧ _))

/-- If `stop()` has been called and no `start`, `stop` or `restart` is left to run, the
session is down. -/
def StopIsFinal (p : SessionPool) : Prop :=
  p.shared.mustStayStopped = true → (∀ t ∈ p.tasks, t.ofLifecycle = false) → p.shared.Down

/-- The awaits of `start` that `_set_state(STARTED)` follows. -/
def setsStarted (isCdn : Bool) : StartPoint → Bool
  | .ping => isCdn
  | .initConnection => true
  | _ => false

/-- The task, if it is resumed now, neither sets `STARTED` in a direct `start()` after
`stop()` was called, nor closes a `_stop()` with `STOPPED` while `is_started` is set. -/
def Task.respectsStop (isCdn : Bool) (s : Session) : Task → Bool
  | .starting .direct point => !(setsStarted isCdn point && s.mustStayStopped)
  | .stopping _ .pendingTasks => !s.isStarted
  | _ => true

def StopRespected (isCdn : Bool) (p : SessionPool) : Action Outcome Call → Prop
  | .resume i .returned => ∀ t ∈ p.tasks[i]?, t.respectsStop isCdn p.shared = true
  | _ => True

instance (isCdn : Bool) (p : SessionPool) : ∀ a, Decidable (StopRespected isCdn p a)
  | .resume i .returned =>
    inferInstanceAs (Decidable (∀ t ∈ p.tasks[i]?, t.respectsStop isCdn p.shared = true))
  | .resume _ (.unpacked _) | .resume _ (.raised _) | .event _ => .isTrue trivial

/-! ### What one turn does to the state -/

def Consistent (s : Session) : Prop := s.isStarted = true ↔ s.state = .started

theorem Consistent.down {s : Session} (h : s.Consistent) (hs : s.state ≠ .started) : s.Down :=
  ⟨hs, Bool.eq_false_iff.mpr (mt h.mp hs)⟩

theorem Down.consistent {s : Session} (h : s.Down) : s.Consistent := by
  simp [Consistent, h.1, h.2]

/-- The three fields `stop()` is about are the same. -/
def SameControl (s s' : Session) : Prop :=
  s'.state = s.state ∧ s'.isStarted = s.isStarted ∧ s'.mustStayStopped = s.mustStayStopped

def Settles (s : Session) (r : SessionTurn) : Prop := s.SameControl r.shared ∨ r.shared.Down

theorem enterStop_down {s : Session} (caller : StopCaller) {returned : Session → SessionTurn}
    (hr : s.state = .stopped ∨ s.state = .stopping → (returned s).shared.Down) :
    (s.enterStop caller returned).shared.Down := by
  unfold enterStop
  split
  case isTrue hs => exact hr hs
  case isFalse => exact (⟨by simp [beginStop], rfl⟩ : s.beginStop.Down)

theorem down_of_stopped {s : Session} (h : s.Consistent)
    (hs : s.state = .stopped ∨ s.state = .stopping) : s.Down := by
  refine h.down ?_
  obtain hs | hs := hs <;> simp [hs]

/-- The second `_stop()` of `restart` undoes a `stop()` that landed inside its `start()`. -/
theorem startReturned_restart_down {s : Session} (h : s.Consistent)
    (hm : s.mustStayStopped = true) : (s.startReturned .restart).shared.Down := by
  simp only [startReturned, hm, ↓reduceIte]
  exact enterStop_down _ fun hs => down_of_stopped h hs

theorem startReturned_same {s : Session} {caller : Caller}
    (hm : caller = .restart → s.mustStayStopped = false) :
    s.SameControl (s.startReturned caller).shared := by
  cases caller with
  | direct => exact ⟨rfl, rfl, rfl⟩
  | restart => simp [startReturned, hm rfl, SameControl, release, finish]

theorem settles_startReturned {s : Session} (h : s.Consistent) (caller : Caller) :
    s.Settles (s.startReturned caller) := by
  by_cases hm : caller = .restart ∧ s.mustStayStopped = true
  · obtain ⟨rfl, hm⟩ := hm
    exact .inr (startReturned_restart_down h hm)
  · refine .inl (startReturned_same fun hc => ?_)
    simpa [hc] using hm

theorem settles_enterStart {s : Session} (h : s.Consistent) (caller : Caller) :
    s.Settles (s.enterStart caller) := by
  unfold enterStart
  split_ifs with hs
  · exact settles_startReturned h caller
  · exact .inr ⟨by simp, (h.down fun hst => hs (.inl hst)).2⟩

theorem settles_stopReturned {s : Session} (h : s.Consistent) (caller : StopCaller) :
    s.Settles (s.stopReturned caller) := by
  unfold stopReturned
  split
  · exact .inl ⟨rfl, rfl, rfl⟩
  · exact .inl ⟨rfl, rfl, rfl⟩
  · exact .inl ⟨rfl, rfl, rfl⟩
  · exact .inl ⟨rfl, rfl, rfl⟩
  · split_ifs
    · exact .inl ⟨rfl, rfl, rfl⟩
    · exact settles_enterStart h .restart

/-- Whoever finds the session down leaves it down. -/
theorem Settles.down {s : Session} {r : SessionTurn} (hr : s.Settles r) (h : s.Down) :
    r.shared.Down := by
  obtain ⟨hstate, hset, -⟩ | hr := hr
  · exact ⟨hstate ▸ h.1, hset.trans h.2⟩
  · exact hr

theorem callStop_down {s : Session} (h : s.Consistent) (caller : StopCaller) :
    (s.callStop caller).shared.Down := by
  have h' : Consistent { s with mustStayStopped := true } := h
  exact enterStop_down caller fun hs =>
    (settles_stopReturned h' caller).down (down_of_stopped h' hs)

theorem snapshotRecent_sameControl (s : Session) :
    s.SameControl { s.snapshotRecent with restartLocked := true } := by
  unfold snapshotRecent
  split_ifs <;> exact ⟨rfl, rfl, rfl⟩

theorem SameControl.consistent {s s' : Session} (hs : s.SameControl s') (h : s.Consistent) :
    s'.Consistent := by
  unfold Consistent
  rw [hs.1, hs.2.1]
  exact h

theorem beginRestart_down {s : Session} (h : s.Consistent) : s.beginRestart.shared.Down := by
  have h' := s.snapshotRecent_sameControl.consistent h
  exact enterStop_down _ fun hs => (settles_stopReturned h' _).down (down_of_stopped h' hs)

theorem settles_startRaised {s : Session} (h : s.Consistent) (caller : Caller) (e : Raised) :
    s.Settles (s.startRaised caller e) := by
  cases e
  case osError | rpcError => exact settles_startReturned h caller
  all_goals exact .inr (callStop_down h _)

theorem handleMessage_lifecycle (s : Session) (now : ℤ) (msg : Message) :
    (s.handleMessage now msg).session.lifecycle = s.lifecycle := by
  have hcheck : ∀ s : Session, (s.checkAndDispatch now msg).session.lifecycle = s.lifecycle := by
    intro s
    obtain ⟨_, _, _, -, hs, -⟩ | ⟨_, _, _, _, _, _, -, hs, -⟩ := s.checkAndDispatch_cases now msg
    all_goals rw [hs]; rfl
  unfold handleMessage
  split_ifs
  · rfl
  · exact hcheck _
  · exact hcheck s

theorem handleMessages_lifecycle (s : Session) (messages : List (ℤ × Message)) :
    (s.handleMessages messages).session.lifecycle = s.lifecycle := by
  induction messages generalizing s with
  | nil => rfl
  | cons m rest ih => exact (ih _).trans (s.handleMessage_lifecycle m.1 m.2)

theorem resumePacket_sameControl (s : Session) (messages : List (ℤ × Message)) :
    s.SameControl (s.resumePacket messages).shared := by
  have h := s.handleMessages_lifecycle messages
  simp only [lifecycle, Prod.mk.injEq] at h
  exact ⟨h.1, h.2.1, h.2.2.1⟩

/-- A turn from a consistent session is the end of a `start`, the step of it that sets
`STARTED`, the close of a `_stop`, or settles. -/
theorem resume_control {isCdn : Bool} {s : Session} {t : Task} {o : Outcome} {r : SessionTurn}
    (hc : s.Consistent) (h : resume isCdn s t o = some r) :
    (∃ caller, t = .starting caller .connectHandler ∧ r = s.startReturned caller) ∨
    (∃ caller point, t = .starting caller point ∧ o = .returned ∧
      setsStarted isCdn point = true ∧ r = s.becomeStarted caller) ∨
    (∃ caller, t = .stopping caller .pendingTasks ∧ o = .returned ∧
      r = s.resumeStop caller .pendingTasks) ∨
    (s.Settles r ∧ ∀ caller, t ≠ .starting caller .connectHandler) := by
  unfold resume at h
  split at h
  case h_16 => cases h
  case h_10 =>
    split_ifs at h
    exact .inr (.inr (.inr ⟨.inr (Option.some.inj h ▸ beginRestart_down hc), by simp⟩))
  all_goals
    have hr := (Option.some.inj h).symm
    clear h
  case h_11 caller point =>
    cases point with
    | connect | apiId => exact .inr (.inr (.inr ⟨.inl (hr ▸ ⟨rfl, rfl, rfl⟩), by simp⟩))
    | ping =>
      cases isCdn with
      | true => exact .inr (.inl ⟨caller, _, rfl, rfl, rfl, hr⟩)
      | false => exact .inr (.inr (.inr ⟨.inl (hr ▸ ⟨rfl, rfl, rfl⟩), by simp⟩))
    | initConnection => exact .inr (.inl ⟨caller, _, rfl, rfl, rfl, hr⟩)
    | connectHandler => exact .inl ⟨caller, rfl, hr⟩
  case h_12 caller _ => exact .inl ⟨caller, rfl, hr⟩
  case h_14 caller point =>
    cases point with
    | pendingTasks => exact .inr (.inr (.inl ⟨caller, rfl, rfl, hr⟩))
    | disconnectHandler =>
      exact .inr (.inr (.inr ⟨hr ▸ settles_stopReturned hc _, by simp⟩))
    | pingTask | connectionClose | recvTask =>
      exact .inr (.inr (.inr ⟨.inl (hr ▸ ⟨rfl, rfl, rfl⟩), by simp⟩))
  all_goals refine .inr (.inr (.inr ⟨?_, ?_⟩))
  case h_1.refine_1 messages => exact .inl (hr ▸ s.resumePacket_sameControl messages)
  case h_8.refine_1 => exact hr ▸ settles_enterStart hc _
  case h_9.refine_1 => exact .inr (hr ▸ callStop_down hc _)
  case h_13.refine_1 => exact hr ▸ settles_startRaised hc _ _
  case h_13.refine_2 hne =>
    rintro caller ⟨⟩
    exact hne rfl
  case h_15.refine_1 => exact hr ▸ settles_stopReturned hc _
  all_goals first
    | exact .inl (hr ▸ ⟨rfl, rfl, rfl⟩)
    | simp

/-! ### Every run -/

/-- A session that started although it must stay stopped has a `restart()` under way that
will stop it again. -/
structure Controlled (p : SessionPool) : Prop where
  consistent : p.shared.Consistent
  undone : p.shared.mustStayStopped = true → p.shared.state = .started →
    ∃ t ∈ p.tasks, t = .starting .restart .connectHandler

theorem controlled_initial : Controlled initial :=
  ⟨by simp [Consistent, initial], by simp [initial]⟩

theorem Controlled.stopIsFinal {p : SessionPool} (h : Controlled p) : StopIsFinal p := by
  intro hm ht
  refine h.consistent.down fun hs => ?_
  obtain ⟨t, hmem, rfl⟩ := h.undone hm hs
  exact absurd (ht _ hmem) (by simp [Task.ofLifecycle])

theorem controlled_of_down {p : SessionPool} (h : p.shared.Down) : Controlled p :=
  ⟨h.consistent, fun _ hs => absurd hs h.1⟩

theorem Controlled.of_same {p : SessionPool} {i : ℕ} {t : Task} {r : SessionTurn}
    (h : Controlled p) (hr : p.shared.SameControl r.shared) (hi : p.tasks[i]? = some t)
    (ht : p.shared.mustStayStopped = true → t ≠ .starting .restart .connectHandler) :
    Controlled ⟨r.shared, p.tasks.set i r.task ++ r.spawned, p.trace ++ r.seen⟩ := by
  refine ⟨hr.consistent h.consistent, fun hm hs => ?_⟩
  have hm' : p.shared.mustStayStopped = true := hr.2.2 ▸ hm
  exact exists_mem_set_append hi (fun h => absurd h (ht hm')) (h.undone hm' (hr.1 ▸ hs))

theorem Controlled.step {isCdn : Bool} {p q : SessionPool} {a : Action Outcome Call}
    (h : Controlled p) (hok : StopRespected isCdn p a)
    (hstep : (system isCdn).step p a = some q) : Controlled q := by
  obtain ⟨i, o, t, r, rfl, hi, hr, rfl⟩ | ⟨e, r, rfl, he, rfl⟩ := System.step_cases hstep
  · obtain ⟨caller, rfl, rfl⟩ | ⟨caller, point, rfl, rfl, hpoint, rfl⟩ |
      ⟨caller, rfl, rfl, rfl⟩ | ⟨hsame | hdown, hne⟩ := resume_control h.consistent hr
    · by_cases hcaller : caller = .restart ∧ p.shared.mustStayStopped = true
      · obtain ⟨rfl, hm⟩ := hcaller
        exact controlled_of_down (startReturned_restart_down h.consistent hm)
      · have hsame : p.shared.SameControl (p.shared.startReturned caller).shared :=
          startReturned_same fun hc => by simpa [hc] using hcaller
        refine h.of_same hsame hi ?_
        rintro hm ⟨⟩
        exact hcaller ⟨rfl, hm⟩
    · refine ⟨by simp [Consistent, becomeStarted], fun hm _ => ?_⟩
      cases caller with
      | direct =>
        have hm' := hok _ (Option.mem_def.mpr hi)
        simp only [Task.respectsStop, hpoint, Bool.true_and, Bool.not_eq_true'] at hm'
        exact absurd (hm'.symm.trans hm) (by simp)
      | restart =>
        refine ⟨_, List.mem_append_left _ ?_, rfl⟩
        exact List.mem_set (List.getElem?_eq_some_iff.mp hi).1 _
    · have hset := hok _ (Option.mem_def.mpr hi)
      simp only [Task.respectsStop, Bool.not_eq_true'] at hset
      exact controlled_of_down ⟨by simp [resumeStop], hset⟩
    · exact h.of_same hsame hi fun _ ht => absurd ht (hne _)
    · exact controlled_of_down hdown
  · obtain ⟨hc, hu⟩ := h
    have hsame : r.shared = p.shared := by cases e <;> cases he <;> rfl
    refine ⟨by simpa [hsame] using hc, fun hm hs => ?_⟩
    obtain ⟨t, ht, hteq⟩ := hu (hsame ▸ hm) (hsame ▸ hs)
    exact ⟨t, List.mem_append_left _ ht, hteq⟩

/-- `stop()` is final in every run in which every direct `start()` that gets to
`_set_state(STARTED)` does so before `stop()` is called, and no `_stop()` closes while
`is_started` is set. -/
theorem stop_final_of_respected (isCdn : Bool) (actions : List (Action Outcome Call))
    (h : (system isCdn).Along (StopRespected isCdn) initial actions) :
    (system isCdn).Throughout StopIsFinal initial actions :=
  (System.throughout_of_along (fun _ _ _ hp hok hstep => hp.step hok hstep)
    controlled_initial h).mono fun _ hp => hp.stopIsFinal

/-- A session started and stopped. -/
theorem stop_final_of_start_stop : (system false).Throughout StopIsFinal initial
    (startRun ++ .event .stop :: .replicate 6 (.resume 1 .returned)) :=
  stop_final_of_respected false _ (by decide +kernel)

/-- A direct `start()` waits for its connection; `stop()` is called and runs to its end; the
connection is made and `start()` runs to its end. -/
def stoppedDuringStart : List (Action Outcome Call) :=
  [.event .start, .resume 0 .returned, .event .stop] ++ .replicate 4 (.resume 1 .returned) ++
    .replicate 5 (.resume 0 .returned)

/-- After that run both calls have finished and the session is started. -/
theorem start_outlives_stop : ∃ p,
    (system false).run initial stoppedDuringStart = some p ∧ ¬StopIsFinal p ∧
      p.shared.state = .started ∧ p.shared.isStarted = true := by
  refine ⟨_, rfl, fun h => ?_, by decide +kernel, by decide +kernel⟩
  have hdown := h (by decide +kernel) (by decide +kernel)
  revert hdown
  decide +kernel

end AllInOneBackup.Kurigram.Session
