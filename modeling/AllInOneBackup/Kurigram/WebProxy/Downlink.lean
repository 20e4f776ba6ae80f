import Mathlib.Algebra.BigOperators.Group.List.Basic
import AllInOneBackup.Kurigram.WebProxy.Carrier

/-! Downlink credit. As long as the carrier is live, the window that is left, the grants to
come, the buffer and the queue add up to the initial window, less what the relay sent
beyond its credit; a payload beyond the credit is dropped, and the carrier lives until its
scheduled `_fail` runs. Reads of a negative length take bytes without a grant. Below the
threshold a credit waits for the delayed flush, and it is stranded exactly when that flush
is still in its POST: it has taken its amount, but `_grant_flush_task` is set. -/

namespace AllInOneBackup.Kurigram.WebProxyCarrier

open Bytes Concurrency

/-- The total length of the payloads in a queue. -/
def queued (queue : List (Option Bytes)) : ℤ := (queue.map fun c => ((c.getD []).length : ℤ)).sum

def overrunOf : Event → ℤ
  | .overrun payload => payload.length
  | _ => 0

def receivedOf : Event → ℤ
  | .received data => data.length
  | _ => 0

def grantedOf : Event → ℤ
  | .granted amount => amount
  | _ => 0

/-- The bytes dropped because they were beyond the credit. -/
def overrun (trace : List Event) : ℤ := (trace.map overrunOf).sum

/-- The bytes delivered to the callers of `recv`. -/
def received (trace : List Event) : ℤ := (trace.map receivedOf).sum

/-- The sum of the WINDOW grants. -/
def granted (trace : List Event) : ℤ := (trace.map grantedOf).sum

def credit (s : WebProxyCarrier) : ℤ :=
  s.recvWindowRemaining + s.pendingGrant + s.recvBuffer.length + queued s.recvQueue

@[simp] theorem queued_nil : queued [] = 0 := rfl

@[simp] theorem queued_cons (c : Option Bytes) (queue : List (Option Bytes)) :
    queued (c :: queue) = (c.getD []).length + queued queue := by simp [queued]

@[simp] theorem queued_append (q q' : List (Option Bytes)) :
    queued (q ++ q') = queued q + queued q' := by simp [queued]

@[simp] theorem overrun_nil : overrun [] = 0 := rfl

@[simp] theorem overrun_cons (x : Event) (l : List Event) : overrun (x :: l) = overrunOf x + overrun l := by
  simp [overrun]

@[simp] theorem overrun_append (l l' : List Event) : overrun (l ++ l') = overrun l + overrun l' := by
  simp [overrun]

@[simp] theorem received_nil : received [] = 0 := rfl

@[simp] theorem received_cons (x : Event) (l : List Event) : received (x :: l) = receivedOf x + received l := by
  simp [received]

@[simp] theorem received_append (l l' : List Event) :
    received (l ++ l') = received l + received l' := by simp [received]

@[simp] theorem granted_nil : granted [] = 0 := rfl

@[simp] theorem granted_cons (x : Event) (l : List Event) : granted (x :: l) = grantedOf x + granted l := by
  simp [granted]

@[simp] theorem granted_append (l l' : List Event) : granted (l ++ l') = granted l + granted l' := by
  simp [granted]

/-! ### What a turn does to the credit -/

/-- Where the carrier lives on, the credit and what was dropped beyond it stay the same;
grants are made of what was delivered. -/
structure Conserves (s : WebProxyCarrier) (e : CarrierEffect) : Prop where
  credit : 0 ≤ s.pendingGrant → e.shared.Live →
    s.Live ∧ credit e.shared + overrun e.seen = WebProxyCarrier.credit s
  pending : 0 ≤ s.pendingGrant → 0 ≤ e.shared.pendingGrant
  granted : 0 ≤ s.pendingGrant →
    granted e.seen + e.shared.pendingGrant ≤ s.pendingGrant + received e.seen

/-- The turn keeps off the downlink, but for a `None` that marks the end of the queue. -/
structure Idle (s : WebProxyCarrier) (e : CarrierEffect) : Prop where
  remaining : e.shared.recvWindowRemaining = s.recvWindowRemaining
  pending : e.shared.pendingGrant = s.pendingGrant
  buffer : e.shared.recvBuffer = s.recvBuffer
  live : e.shared.Live → s.Live ∧ queued e.shared.recvQueue = queued s.recvQueue
  seen : ∀ x ∈ e.seen, overrunOf x = 0 ∧ receivedOf x = 0 ∧ grantedOf x = 0

theorem Idle.conserves {s : WebProxyCarrier} {e : CarrierEffect} (h : Idle s e) :
    Conserves s e := by
  have hsum : ∀ f : Event → ℤ, (∀ x ∈ e.seen, f x = 0) → (e.seen.map f).sum = 0 := by
    intro f hf
    exact List.sum_eq_zero fun y hy => by
      obtain ⟨x, hx, rfl⟩ := List.mem_map.mp hy
      exact hf x hx
  have ho : overrun e.seen = 0 := hsum _ fun x hx => (h.seen x hx).1
  have hr : received e.seen = 0 := hsum _ fun x hx => (h.seen x hx).2.1
  have hg : WebProxyCarrier.granted e.seen = 0 := hsum _ fun x hx => (h.seen x hx).2.2
  refine ⟨fun _ hl => ⟨(h.live hl).1, ?_⟩, fun hp => h.pending ▸ hp, fun _ => ?_⟩
  · rw [ho, WebProxyCarrier.credit, h.remaining, h.pending, h.buffer, (h.live hl).2, add_zero]
    rfl
  · rw [hg, hr, h.pending]
    omega

theorem Conserves.append {s : WebProxyCarrier} {e e' : CarrierEffect} (h : Conserves s e)
    (h' : Conserves e.shared e') :
    Conserves s { e' with spawned := e.spawned ++ e'.spawned, seen := e.seen ++ e'.seen } := by
  refine ⟨fun hp hl => ?_, fun hp => h'.pending (h.pending hp), fun hp => ?_⟩
  · obtain ⟨hl', hc'⟩ := h'.credit (h.pending hp) hl
    obtain ⟨hl'', hc⟩ := h.credit hp hl'
    refine ⟨hl'', ?_⟩
    simp only [overrun_append]
    omega
  · have hg := h.granted hp
    have hg' := h'.granted (h.pending hp)
    simp only [granted_append, received_append]
    omega

/-- A turn that is seen by nobody and does nothing to the carrier. -/
theorem idle_same (s : WebProxyCarrier) (spawned : List Task) :
    Idle s { shared := s, spawned := spawned } :=
  ⟨rfl, rfl, rfl, fun h => ⟨h, rfl⟩, fun _ h => absurd h List.not_mem_nil⟩

theorem conserves_handleStreamFrame (s : WebProxyCarrier) (frame : Frame) :
    Conserves s (s.handleStreamFrame frame) := by
  unfold handleStreamFrame
  split
  case h_1 =>
    dsimp only
    split_ifs with hneg
    · refine ⟨fun _ hl => ⟨hl, ?_⟩, fun hp => hp, fun _ => ?_⟩
      · simp only [credit, overrun_cons, overrun_nil, overrunOf]
        omega
      · simp [grantedOf, receivedOf]
    · refine ⟨fun _ hl => ⟨hl, ?_⟩, fun hp => hp, fun _ => ?_⟩
      · simp only [credit, overrun_nil, queued_append, queued_cons, queued_nil, Option.getD_some]
        omega
      · simp
  case h_3 =>
    split_ifs
    · exact (idle_same s _).conserves
    · refine Idle.conserves ⟨rfl, rfl, rfl, fun h => ⟨h, rfl⟩, fun x hx => ?_⟩
      obtain rfl := List.mem_singleton.mp hx
      exact ⟨rfl, rfl, rfl⟩
  all_goals exact (idle_same s _).conserves

theorem conserves_handleFrame (s : WebProxyCarrier) (frame : Frame) :
    Conserves s (s.handleFrame frame) := by
  unfold handleFrame
  split_ifs
  · unfold handleControlFrame
    split <;> exact (idle_same s _).conserves
  · exact (idle_same s _).conserves
  · exact s.conserves_handleStreamFrame frame

theorem conserves_handleFrames (s : WebProxyCarrier) (frames : List Frame) :
    Conserves s (s.handleFrames frames) := by
  induction frames generalizing s with
  | nil => exact (idle_same s []).conserves
  | cons frame rest ih => exact (s.conserves_handleFrame frame).append (ih _)

/-- A flush moves the pending grants into the window. -/
theorem conserves_flushGrant {s : WebProxyCarrier} {posting : Task}
    {left : WebProxyCarrier → CarrierTurn} (hleft : ∀ s, Idle s (left s).toEffect) :
    Conserves s (s.flushGrant posting left).toEffect := by
  unfold flushGrant
  dsimp only
  split_ifs with hnone hbig
  · have h := (hleft { s with pendingGrant := 0 }).conserves
    refine ⟨fun hp hl => ?_, fun _ => h.pending le_rfl, fun hp => ?_⟩
    · obtain ⟨hl', hc⟩ := h.credit le_rfl hl
      refine ⟨hl', hc.trans ?_⟩
      have hfail : s.failExc = none := hl'.1
      have hzero : s.pendingGrant ≤ 0 := hnone.resolve_right (by simp [hfail])
      simp only [credit]
      omega
    · have hg := h.granted le_rfl
      dsimp only at hg
      omega
  · have h := (hleft { s with
      pendingGrant := 0, recvWindowRemaining := s.recvWindowRemaining + s.pendingGrant }).conserves
    refine ⟨fun hp hl => ?_, fun _ => h.pending le_rfl, fun hp => ?_⟩
    · obtain ⟨hl', hc⟩ := h.credit le_rfl hl
      refine ⟨hl', hc.trans ?_⟩
      simp only [credit]
      omega
    · have hg := h.granted le_rfl
      dsimp only at hg
      omega
  · refine ⟨fun _ hl => ⟨hl, ?_⟩, fun _ => le_rfl, fun _ => ?_⟩
    · simp only [credit, overrun_cons, overrun_nil, overrunOf]
      omega
    · simp [grantedOf, receivedOf]

theorem idle_finish (s : WebProxyCarrier) : Idle s s.finish.toEffect := idle_same s []

theorem idle_endGrantFlush (s : WebProxyCarrier) : Idle s s.endGrantFlush.toEffect :=
  ⟨rfl, rfl, rfl, fun h => ⟨h, rfl⟩, fun _ h => absurd h List.not_mem_nil⟩

/-- A credit is passed over, or counts as pending. -/
theorem grantCredit_cases (s : WebProxyCarrier) (amount : ℤ) :
    (¬(s.Live ∧ 0 < amount) ∧ s.grantCredit amount = s.finish) ∨
    (s.Live ∧ 0 < amount ∧ Conserves { s with pendingGrant := s.pendingGrant + amount }
      (s.grantCredit amount).toEffect) := by
  unfold grantCredit
  dsimp only
  split_ifs with hskip hbig htask
  · refine .inl ⟨fun ⟨⟨hf, hc⟩, hpos⟩ => ?_, rfl⟩
    simp only [hf, hc, Option.isSome_none, Bool.false_eq_true, or_false] at hskip
    omega
  all_goals
    push Not at hskip
    have hl : s.Live := ⟨by simpa using hskip.2.2, by simpa using hskip.2.1⟩
    refine .inr ⟨hl, hskip.1, ?_⟩
  · exact conserves_flushGrant idle_finish
  · exact (idle_finish _).conserves
  · exact Idle.conserves
      ⟨rfl, rfl, rfl, fun h => ⟨h, rfl⟩, fun _ h => absurd h List.not_mem_nil⟩

/-- The loop of `recv` moves bytes from the queue into the buffer. -/
theorem fill_credit (length : ℤ) (buffer : Bytes) (queue : List (Option Bytes)) :
    ((fill length buffer queue).2.1.length : ℤ) + queued (fill length buffer queue).2.2 =
      buffer.length + queued queue ∧
    ((fill length buffer queue).1 = .enough → length ≤ (fill length buffer queue).2.1.length) := by
  fun_induction fill length buffer queue with
  | case1 buffer queue hle => exact ⟨rfl, fun _ => hle⟩
  | case2 buffer hlt => exact ⟨rfl, by simp⟩
  | case3 buffer queue hlt => exact ⟨by simp, by simp⟩
  | case4 buffer chunk queue hlt ih =>
    refine ⟨ih.1.trans ?_, ih.2⟩
    simp only [List.length_append, queued_cons, Option.getD_some]
    omega

/-- A read of a length that is not negative moves bytes from the buffer to the pending
grants. -/
theorem conserves_resumeRecv (s : WebProxyCarrier) {length : ℤ} (h : 0 ≤ length) :
    Conserves s (s.resumeRecv length).toEffect := by
  obtain ⟨hsum, henough⟩ := fill_credit length s.recvBuffer s.recvQueue
  unfold resumeRecv
  generalize fill length s.recvBuffer s.recvQueue = filled at hsum henough
  obtain ⟨filled, buffer, queue⟩ := filled
  cases filled with
  | empty =>
    refine ⟨fun _ hl => ⟨hl, ?_⟩, fun hp => hp, fun _ => by simp⟩
    simp only [credit, overrun_nil] at hsum ⊢
    omega
  | ended =>
    refine ⟨fun _ hl => ⟨hl, ?_⟩, fun hp => hp, fun _ => by simp [finish]⟩
    simp only [credit, finish, overrun_nil] at hsum ⊢
    omega
  | enough =>
    obtain ⟨n, rfl⟩ := Int.eq_ofNat_of_zero_le h
    have hn : n ≤ buffer.length := by exact_mod_cast henough rfl
    simp only [sliceTo_natCast, sliceFrom_natCast]
    have hover : ∀ l, overrun (.received (buffer.take n) :: l) = overrun l := by
      simp [overrunOf]
    have hrec : ∀ l, received (.received (buffer.take n) :: l) = n + received l := by
      simp [receivedOf, hn]
    have hgr : ∀ l, granted (.received (buffer.take n) :: l) = granted l := by
      simp [grantedOf]
    set s₁ : WebProxyCarrier :=
      { s with recvBuffer := buffer.drop n, recvQueue := queue } with hs₁
    have hcredit : credit s = credit s₁ + n := by
      simp only [credit, hs₁, List.length_drop] at hsum ⊢
      omega
    obtain ⟨hskip, hr⟩ | ⟨hl, hpos, hc⟩ := s₁.grantCredit_cases n
    · rw [hr]
      refine ⟨fun _ hl => ⟨hl, ?_⟩, fun hp => hp, fun _ => ?_⟩
      · have hzero : n = 0 := by
          by_contra hne
          exact hskip ⟨hl, by omega⟩
        simp only [finish, hover, overrun_nil, hcredit]
        omega
      · simp only [finish, hrec, hgr, granted_nil, received_nil, hs₁]
        omega
    · have hp' : 0 ≤ s.pendingGrant → 0 ≤ s₁.pendingGrant + n := fun hp => by
        simp only [hs₁]
        omega
      refine ⟨fun hp hl => ⟨(hc.credit (hp' hp) hl).1, ?_⟩, fun hp => hc.pending (hp' hp),
        fun hp => ?_⟩
      · rw [hover, hcredit, (hc.credit (hp' hp) hl).2]
        simp only [credit]
        omega
      · have hg := hc.granted (hp' hp)
        simp only [hs₁, hrec, hgr] at hg ⊢
        omega

/-! ### Turns that keep off the downlink -/

/-- What follows a change that the downlink does not see. -/
theorem Idle.trans {s s' : WebProxyCarrier} {e : CarrierEffect} (h : Idle s { shared := s' })
    (h' : Idle s' e) : Idle s e where
  remaining := h'.remaining.trans h.remaining
  pending := h'.pending.trans h.pending
  buffer := h'.buffer.trans h.buffer
  live hl := ⟨(h.live (h'.live hl).1).1, (h'.live hl).2.trans (h.live (h'.live hl).1).2⟩
  seen := h'.seen

theorem Idle.see {s : WebProxyCarrier} {e : CarrierEffect} {x : Event} (h : Idle s e)
    (hx : overrunOf x = 0 ∧ receivedOf x = 0 ∧ grantedOf x = 0) :
    Idle s { e with seen := x :: e.seen } :=
  ⟨h.remaining, h.pending, h.buffer, h.live, List.forall_mem_cons.mpr ⟨hx, h.seen⟩⟩

theorem idle_fail (s : WebProxyCarrier) (why : Failure) : Idle s { shared := s.fail why } := by
  refine ⟨?_, ?_, ?_, fun h => absurd h (s.fail_not_live why), fun _ h => absurd h List.not_mem_nil⟩
  all_goals unfold fail; split_ifs <;> rfl

theorem idle_leaveSend (s : WebProxyCarrier) : Idle s s.leaveSend.toEffect :=
  ⟨rfl, rfl, rfl, fun h => ⟨h, rfl⟩, fun _ h => absurd h List.not_mem_nil⟩

theorem idle_returnSend (s : WebProxyCarrier) : Idle s s.returnSend.toEffect :=
  s.idle_leaveSend.see ⟨rfl, rfl, rfl⟩

theorem idle_awaitCredit (s : WebProxyCarrier) (chunk : Bytes) (rest : List Bytes) :
    Idle s (s.awaitCredit chunk rest).toEffect := by
  unfold awaitCredit
  split_ifs
  · exact s.idle_leaveSend
  · exact ⟨rfl, rfl, rfl, fun h => ⟨h, rfl⟩, fun _ h => absurd h List.not_mem_nil⟩

/-- The uplink window is none of the downlink's business. -/
theorem idle_spend (s : WebProxyCarrier) (window : ℤ) :
    Idle s { shared := { s with sendWindow := window } } :=
  ⟨rfl, rfl, rfl, fun h => ⟨h, rfl⟩, fun _ h => absurd h List.not_mem_nil⟩

theorem idle_sendChunks (s : WebProxyCarrier) (pending chunks : List Bytes) :
    Idle s (s.sendChunks pending chunks).toEffect := by
  induction chunks generalizing s pending with
  | nil =>
    unfold sendChunks
    split_ifs
    · exact (idle_same s []).see ⟨rfl, rfl, rfl⟩
    · exact s.idle_returnSend
  | cons chunk rest ih =>
    unfold sendChunks
    split_ifs
    · exact (idle_same s []).see ⟨rfl, rfl, rfl⟩
    · exact s.idle_awaitCredit chunk rest
    · exact (s.idle_spend _).trans (ih _ _)

theorem idle_spendSendWindow (s : WebProxyCarrier) (chunk : Bytes) (rest : List Bytes) :
    Idle s (s.spendSendWindow chunk rest).toEffect := by
  unfold spendSendWindow
  split_ifs
  · exact s.idle_awaitCredit chunk rest
  · exact (s.idle_spend _).trans (idle_sendChunks _ _ _)

theorem idle_enterSend (s : WebProxyCarrier) (data : Bytes) :
    Idle s (s.enterSend data).toEffect := by
  have hlock : Idle s { shared := { s with sendLocked := true } } :=
    ⟨rfl, rfl, rfl, fun h => ⟨h, rfl⟩, fun _ h => absurd h List.not_mem_nil⟩
  refine (hlock.trans ?_).see ⟨rfl, rfl, rfl⟩
  split_ifs
  · exact idle_leaveSend _
  · exact idle_returnSend _
  · exact idle_sendChunks _ _ _

theorem idle_enterClose (s : WebProxyCarrier) : Idle s s.enterClose.toEffect := by
  unfold enterClose
  split_ifs
  · exact s.idle_finish
  · exact ⟨rfl, rfl, rfl, fun h => absurd h.2 (by simp), fun _ h => absurd h List.not_mem_nil⟩

/-- A turn is a read, a delayed flush, the end of one, or keeps off the downlink. -/
theorem resume_downlink {s : WebProxyCarrier} {t : Task} {o : Outcome} {r : CarrierTurn}
    (h : s.resume t o = some r) :
    (∃ length, t = .recv length ∧ o = .returned ∧ r = s.resumeRecv length) ∨
    (t = .delayedGrantFlush ∧ o = .returned ∧ r = s.flushGrant .flushingGrant endGrantFlush) ∨
    (Idle s r.toEffect ∧ (t = .delayedGrantFlush → ¬r.shared.Live) ∧
      (o = .returned → ∀ length, t ≠ .recv length)) := by
  unfold resume at h
  split at h
  case h_1 => exact .inl ⟨_, rfl, rfl, (Option.some.inj h).symm⟩
  case h_6 => exact .inr (.inl ⟨rfl, rfl, (Option.some.inj h).symm⟩)
  case h_7 =>
    split_ifs at h with hclosed
    cases h
    refine .inr (.inr ⟨s.idle_endGrantFlush, fun _ hl => ?_, by simp⟩)
    exact absurd (hclosed.symm.trans hl.2) (by simp)
  case h_32 => cases h
  all_goals
    try split_ifs at h
    cases h
    refine .inr (.inr ⟨?_, by simp, by simp⟩)
  all_goals first
    | exact s.idle_finish
    | exact s.idle_endGrantFlush
    | exact s.idle_leaveSend
    | exact s.idle_returnSend
    | exact (s.idle_fail _).trans (idle_finish _)
    | exact (s.idle_fail _).trans (idle_endGrantFlush _)
    | exact (s.idle_fail _).trans (idle_leaveSend _)
    | exact s.idle_enterSend _
    | exact s.idle_spendSendWindow _ _
    | exact s.idle_enterClose
    | exact (idle_same s []).see ⟨rfl, rfl, rfl⟩
    | exact ⟨rfl, rfl, rfl, fun h => ⟨h, by simp [finish]⟩, fun _ h => absurd h List.not_mem_nil⟩

/-! ### Conservation -/

def Task.readsForward : Task → Bool
  | .recv length => 0 ≤ length
  | _ => true

/-- The `recv` that is resumed, if one is, asks for a length that is not negative. -/
def ReadsForward (p : CarrierPool) : Action Outcome Call → Prop
  | .resume i .returned => ∀ t ∈ p.tasks[i]?, t.readsForward = true
  | _ => True

instance (p : CarrierPool) : ∀ a, Decidable (ReadsForward p a)
  | .resume i .returned => inferInstanceAs (Decidable (∀ t ∈ p.tasks[i]?, t.readsForward = true))
  | .resume _ (.failed _) | .resume _ .timeout | .resume _ .raised | .event _ => .isTrue trivial

/-- While the carrier is live, its credit and what was dropped beyond it make up the initial
window; and no more is granted than was delivered. -/
def CreditConserved (p : CarrierPool) : Prop :=
  (p.shared.Live → p.shared.credit + overrun p.trace = initialStreamWindow) ∧
    granted p.trace ≤ received p.trace

/-- What the steps keep: grants, given or pending, are made of what was delivered. -/
structure Ledger (p : CarrierPool) : Prop where
  credit : p.shared.Live → p.shared.credit + overrun p.trace = initialStreamWindow
  pending : 0 ≤ p.shared.pendingGrant
  granted : granted p.trace + p.shared.pendingGrant ≤ received p.trace

theorem Ledger.creditConserved {p : CarrierPool} (h : Ledger p) : CreditConserved p := by
  refine ⟨h.credit, ?_⟩
  have hp := h.pending
  have hg := h.granted
  omega

theorem Ledger.conserves {p : CarrierPool} {e : CarrierEffect} (h : Ledger p)
    (he : Conserves p.shared e) (tasks : List Task) :
    Ledger ⟨e.shared, tasks, p.trace ++ e.seen⟩ := by
  refine ⟨fun hl => ?_, he.pending h.pending, ?_⟩
  · obtain ⟨hl', hc⟩ := he.credit h.pending hl
    have hi := h.credit hl'
    simp only [overrun_append]
    omega
  · have hg := he.granted h.pending
    have hi := h.granted
    simp only [granted_append, received_append]
    omega

theorem Ledger.step {p q : CarrierPool} {a : Action Outcome Call} (h : Ledger p)
    (hok : ReadsForward p a) (hstep : system.step p a = some q) : Ledger q := by
  obtain ⟨i, o, t, r, rfl, hi, hr, rfl⟩ | ⟨e, r, rfl, he, rfl⟩ := System.step_cases hstep
  · refine h.conserves (e := r.toEffect) ?_ _
    obtain ⟨length, rfl, rfl, rfl⟩ | ⟨rfl, rfl, rfl⟩ | ⟨hidle, -⟩ := resume_downlink hr
    · exact conserves_resumeRecv _ (of_decide_eq_true (hok _ (Option.mem_def.mpr hi)))
    · exact conserves_flushGrant idle_endGrantFlush
    · exact hidle.conserves
  · refine h.conserves ?_ _
    cases e with
    | frames frames =>
      simp only [system, call] at he
      split_ifs at he
      cases he
      exact conserves_handleFrames _ _
    | pollFailed why =>
      simp only [system, call] at he
      split_ifs at he
      cases he
      exact (idle_fail _ why).conserves
    | recv | send | close =>
      cases he
      exact (idle_same _ _).conserves

theorem ledger_initial : Ledger initial :=
  ⟨fun _ => rfl, le_rfl, le_rfl⟩

/-- In every state of every run whose reads ask for lengths that are not negative, the
credit is conserved. -/
theorem credit_conserved (actions : List (Action Outcome Call))
    (h : system.Along ReadsForward initial actions) :
    system.Throughout CreditConserved initial actions :=
  (System.throughout_of_along (fun _ _ _ hp hok hstep => hp.step hok hstep)
    ledger_initial h).mono fun _ hp => hp.creditConserved

/-- A DATA frame on the carrier's stream. -/
def dataFrame (payload : Bytes) (h : payload.length ≤ frameMaxPayload) : Frame :=
  ⟨.data, streamId, payload, h⟩

/-- Ten bytes arrive, eight of them are read in two reads, and a grant is flushed. -/
theorem credit_conserved_two_reads : system.Throughout CreditConserved initial
    [.event (.frames [dataFrame (List.replicate 10 0) (by decide)]), .event (.recv 3),
      .resume 0 .returned, .event (.recv 5), .resume 2 .returned, .resume 1 .returned,
      .resume 1 .returned] :=
  credit_conserved _ (by decide +kernel)

/-- A DATA frame of the greatest size. -/
def fullFrame : Frame :=
  dataFrame (List.replicate frameMaxPayload 0) (List.length_replicate ..).le

/-- Four of them use up the initial window; a fifth frame is beyond it and dropped. -/
def overrunFrames : List Frame :=
  [fullFrame, fullFrame, fullFrame, fullFrame, dataFrame [0] (by decide)]

theorem handleFrames_overrun {full : Frame} (htype : full.type = .data)
    (hid : full.streamId = streamId) (hlen : full.payload.length = 1048576)
    (h : [0].length ≤ frameMaxPayload) :
    (handleFrames {} [full, full, full, full, dataFrame [0] h]).shared.Live ∧
      (handleFrames {} [full, full, full, full, dataFrame [0] h]).shared.credit =
        initialStreamWindow - 1 := by
  simp [handleFrames, handleFrame, dataFrame, handleStreamFrame, hlen, htype, hid,
    controlStreamId, streamId, initialStreamWindow, Live, credit]

theorem handleFrames_overrunFrames :
    (handleFrames {} overrunFrames).shared.Live ∧
      (handleFrames {} overrunFrames).shared.credit = initialStreamWindow - 1 :=
  handleFrames_overrun rfl rfl (List.length_replicate ..) (by decide)

theorem run_frames (frames : List Frame) : ∃ p,
    system.run initial [.event (.frames frames)] = some p ∧
      p.shared = (handleFrames {} frames).shared := ⟨_, rfl, rfl⟩

/-- The credit is not the initial window between a DATA frame beyond it and the `_fail` that
the frame schedules; and it is not after a read of length -4 from a buffer of eight bytes. -/
theorem credit_missing :
    (∃ p, system.run initial [.event (.frames overrunFrames)] = some p ∧ p.shared.Live ∧
      p.shared.credit ≠ initialStreamWindow) ∧
    (∃ p, system.run initial
        [.event (.frames [dataFrame (List.replicate 10 0) (by decide)]), .event (.recv 2),
          .resume 0 .returned, .event (.recv (-4)), .resume 2 .returned] = some p ∧
      p.shared.Live ∧ p.shared.credit ≠ initialStreamWindow) := by
  constructor
  · obtain ⟨hlive, hcredit⟩ := handleFrames_overrunFrames
    obtain ⟨p, hrun, hp⟩ := run_frames overrunFrames
    refine ⟨p, hrun, hp ▸ hlive, ?_⟩
    rw [hp, hcredit]
    omega
  · exact ⟨_, rfl, by decide +kernel, by decide +kernel⟩

/-! ### Stranded credit -/

/-- A `recv(length)` that is resumed now returns bytes whose credit stays below the threshold. -/
def CreditsBelow (s : WebProxyCarrier) (length : ℤ) : Prop :=
  s.Live ∧ 0 < length ∧ (fill length s.recvBuffer s.recvQueue).1 = .enough ∧
    s.pendingGrant + length < downlinkGrantThreshold

instance (s : WebProxyCarrier) (length : ℤ) : Decidable (s.CreditsBelow length) :=
  inferInstanceAs (Decidable (_ ∧ _))

/-- Where credit is pending, a flush sleeps that has not taken its amount yet. -/
def NoCreditStranded (p : CarrierPool) : Prop :=
  p.shared.Live → 0 < p.shared.pendingGrant → ∃ t ∈ p.tasks, t = .delayedGrantFlush

/-- A `recv` that adds credit below the threshold while `_grant_flush_task` is set finds the
delayed flush still asleep. -/
def FlushAsleep (p : CarrierPool) : Action Outcome Call → Prop
  | .resume i .returned => ∀ length, p.tasks[i]? = some (.recv length) →
      p.shared.CreditsBelow length → p.shared.grantFlushTask = true →
        ∃ t ∈ p.tasks, t = .delayedGrantFlush
  | _ => True

theorem flushGrant_pendingGrant {s : WebProxyCarrier} {posting : Task}
    {left : WebProxyCarrier → CarrierTurn} (hleft : ∀ s, Idle s (left s).toEffect) :
    (s.flushGrant posting left).shared.pendingGrant = 0 := by
  unfold flushGrant
  dsimp only
  split_ifs
  · exact (hleft _).pending
  · exact (hleft _).pending
  · rfl

/-- What a read does to the pending grants: it adds its credit and leaves it to the delayed
flush, or has no grants pending behind it, or leaves them as they are. -/
theorem resumeRecv_pendingGrant (s : WebProxyCarrier) (length : ℤ) :
    (s.CreditsBelow length ∧ (s.resumeRecv length).shared.Live ∧
      (s.resumeRecv length).shared.pendingGrant = s.pendingGrant + length ∧
      (s.resumeRecv length).task = .finished ∧
      (s.resumeRecv length).spawned = if s.grantFlushTask then [] else [.delayedGrantFlush]) ∨
    (¬s.CreditsBelow length ∧ (s.resumeRecv length).shared.pendingGrant = 0) ∨
    (¬s.CreditsBelow length ∧ ((s.resumeRecv length).shared.Live → s.Live) ∧
      (s.resumeRecv length).shared.pendingGrant = s.pendingGrant) := by
  unfold resumeRecv CreditsBelow
  generalize fill length s.recvBuffer s.recvQueue = filled
  obtain ⟨filled, buffer, queue⟩ := filled
  cases filled with
  | empty => exact .inr (.inr ⟨by simp, fun h => h, rfl⟩)
  | ended => exact .inr (.inr ⟨by simp, fun h => h, rfl⟩)
  | enough =>
    unfold grantCredit
    dsimp only
    by_cases hskip : length ≤ 0 ∨ s.closed = true ∨ s.failExc.isSome = true
    · rw [if_pos hskip]
      refine .inr (.inr ⟨fun ⟨⟨hf, hc⟩, hpos, _⟩ => ?_, fun h => h, rfl⟩)
      simp only [hf, hc, Option.isSome_none, Bool.false_eq_true, or_false] at hskip
      omega
    · rw [if_neg hskip]
      push Not at hskip
      have hl : s.Live := ⟨by simpa using hskip.2.2, by simpa using hskip.2.1⟩
      by_cases hbig : s.pendingGrant + length ≥ downlinkGrantThreshold
      · rw [if_pos hbig]
        exact .inr (.inl ⟨fun hb => absurd hb.2.2.2 (by omega), flushGrant_pendingGrant idle_finish⟩)
      · rw [if_neg hbig]
        refine .inl ⟨⟨hl, hskip.1, rfl, by omega⟩, ?_⟩
        cases s.grantFlushTask <;> exact ⟨hl, rfl, rfl, rfl⟩

theorem resume_pendingGrant_nonneg {s : WebProxyCarrier} {t : Task} {o : Outcome}
    {r : CarrierTurn} (h : s.resume t o = some r) (hp : 0 ≤ s.pendingGrant) :
    0 ≤ r.shared.pendingGrant := by
  obtain ⟨length, rfl, rfl, rfl⟩ | ⟨rfl, rfl, rfl⟩ | ⟨hidle, -⟩ := resume_downlink h
  · obtain ⟨hb, -, hr, -⟩ | ⟨-, hr⟩ | ⟨-, -, hr⟩ := s.resumeRecv_pendingGrant length
    · have := hb.2.1
      omega
    · exact hr.ge
    · exact hr ▸ hp
  · exact (flushGrant_pendingGrant idle_endGrantFlush).ge
  · exact hidle.pending ▸ hp

theorem handleFrames_pendingGrant (s : WebProxyCarrier) (frames : List Frame) :
    (s.handleFrames frames).shared.pendingGrant = s.pendingGrant ∧
      ((s.handleFrames frames).shared.Live → s.Live) := by
  induction frames generalizing s with
  | nil => exact ⟨rfl, fun h => h⟩
  | cons frame rest ih =>
    have hone : (s.handleFrame frame).shared.pendingGrant = s.pendingGrant ∧
        ((s.handleFrame frame).shared.Live → s.Live) := by
      unfold handleFrame handleControlFrame handleStreamFrame
      dsimp only
      repeat' split
      all_goals exact ⟨rfl, fun h => h⟩
    obtain ⟨hp, hl⟩ := ih (s.handleFrame frame).shared
    exact ⟨hp.trans hone.1, fun h => hone.2 (hl h)⟩

theorem call_pendingGrant {s : WebProxyCarrier} {c : Call} {e : CarrierEffect}
    (h : s.call c = some e) :
    e.shared.pendingGrant = s.pendingGrant ∧ (e.shared.Live → s.Live) := by
  unfold call at h
  split at h
  case h_1 frames =>
    split_ifs at h
    cases h
    exact s.handleFrames_pendingGrant frames
  case h_2 why =>
    split_ifs at h
    cases h
    exact ⟨(s.idle_fail why).pending, fun hl => absurd hl (s.fail_not_live why)⟩
  all_goals
    cases h
    exact ⟨rfl, fun h => h⟩

theorem flushAsleep_iff {p q : CarrierPool} {a : Action Outcome Call}
    (hp : 0 ≤ p.shared.pendingGrant) (h : NoCreditStranded p)
    (hstep : system.step p a = some q) : FlushAsleep p a ↔ NoCreditStranded q := by
  obtain ⟨i, o, t, r, rfl, hi, hr, rfl⟩ | ⟨e, r, rfl, he, rfl⟩ := System.step_cases hstep
  · obtain ⟨length, rfl, rfl, rfl⟩ | ⟨rfl, rfl, rfl⟩ | ⟨hidle, hne, hrecv⟩ := resume_downlink hr
    · have hok : FlushAsleep p (.resume i .returned) ↔ (p.shared.CreditsBelow length →
          p.shared.grantFlushTask = true → ∃ t ∈ p.tasks, t = .delayedGrantFlush) := by
        simp only [FlushAsleep, hi, Option.some.injEq, Task.recv.injEq, forall_eq']
      rw [hok]
      obtain ⟨hb, hl, hpend, htask, hspawn⟩ | ⟨hb, hpend⟩ | ⟨hb, hl, hpend⟩ :=
        p.shared.resumeRecv_pendingGrant length
      · have hpos : 0 < (p.shared.resumeRecv length).shared.pendingGrant := by
          have := hb.2.1
          omega
        simp only [NoCreditStranded, hl, hpos, hb, htask, hspawn, forall_const]
        cases hset : p.shared.grantFlushTask with
        | false => simp
        | true =>
          simp only [forall_const, ↓reduceIte, List.append_nil]
          constructor
          · intro hex
            have hkeep : ∃ x ∈ p.tasks.set i .finished ++ [], x = Task.delayedGrantFlush :=
              exists_mem_set_append hi (by simp) hex
            simpa using hkeep
          · rintro ⟨t, ht, rfl⟩
            exact ⟨_, (List.mem_or_eq_of_mem_set ht).resolve_right (by simp), rfl⟩
      · exact iff_of_true (fun h => absurd h hb) fun _ hpos => absurd hpos (by simp [hpend])
      · refine iff_of_true (fun h => absurd h hb) fun hl' hpos => ?_
        exact exists_mem_set_append hi (by simp) (h (hl hl') (hpend ▸ hpos))
    · refine iff_of_true ?_ fun _ hpos => ?_
      · intro length hi'
        rw [hi] at hi'
        cases hi'
      · exact absurd hpos (by simp [flushGrant_pendingGrant idle_endGrantFlush])
    · refine iff_of_true ?_ fun hl hpos => ?_
      · cases o with
        | returned =>
          intro length hi'
          exact absurd (Option.some.inj (hi.symm.trans hi')) (hrecv rfl length)
        | failed _ | timeout | raised => trivial
      · refine exists_mem_set_append hi (fun ht => absurd hl (hne ht)) ?_
        exact h (hidle.live hl).1 (hidle.pending ▸ hpos)
  · obtain ⟨hpend, hlive⟩ := call_pendingGrant he
    refine iff_of_true trivial fun hl hpos => ?_
    obtain ⟨t, ht, hteq⟩ := h (hlive hl) (hpend ▸ hpos)
    exact ⟨t, List.mem_append_left _ ht, hteq⟩

/-- In every run, no credit is stranded in any state exactly when every `recv` that adds
credit below the threshold while `_grant_flush_task` is set finds the flush still asleep. -/
theorem no_credit_stranded_iff (actions : List (Action Outcome Call)) :
    system.Throughout NoCreditStranded initial actions ↔
      system.Along FlushAsleep initial actions := by
  refine System.throughout_iff_along (I := fun p => 0 ≤ p.shared.pendingGrant)
    (fun p a q hp hstep => ?_) (fun _ _ _ hp h hstep => flushAsleep_iff hp h hstep) le_rfl
    (fun _ hpos => absurd hpos (lt_irrefl _)) actions
  obtain ⟨i, o, t, r, -, -, hr, rfl⟩ | ⟨e, r, -, he, rfl⟩ := System.step_cases hstep
  · exact resume_pendingGrant_nonneg hr hp
  · exact (call_pendingGrant he).1 ▸ hp

/-- Of two bytes one is read and its credit is left to the delayed flush; the flush takes it
and waits for its POST; meanwhile the other byte is read; then the POST returns. -/
def strandedRun : List (Action Outcome Call) :=
  [.event (.frames [dataFrame [1, 2] (by decide)]), .event (.recv 1), .resume 0 .returned,
    .resume 1 .returned, .event (.recv 1), .resume 2 .returned, .resume 1 .returned]

/-- After that run the carrier is live, one byte of credit is pending and no task is left. -/
theorem credit_stranded : ∃ p, system.run initial strandedRun = some p ∧
    ¬NoCreditStranded p ∧ p.shared.pendingGrant = 1 ∧ ∀ t ∈ p.tasks, t = .finished := by
  refine ⟨_, rfl, fun h => ?_, by decide +kernel, by decide +kernel⟩
  have hex := h (by decide +kernel) (by decide +kernel)
  revert hex
  decide +kernel

end AllInOneBackup.Kurigram.WebProxyCarrier
