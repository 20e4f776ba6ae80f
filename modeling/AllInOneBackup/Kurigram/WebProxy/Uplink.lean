import Mathlib.Algebra.BigOperators.Group.List.Basic
import AllInOneBackup.Kurigram.WebProxy.Carrier

/-! Uplink flow control. What `send` hands to `_send_frames` is paid out of the window, so
it never exceeds the initial window and the WINDOW credit. It is a prefix of what was
passed to `send` as long as no exception leaves a `send` half way without failing the
carrier: after one, the next `send` posts its own data behind the first half. -/

namespace AllInOneBackup.Kurigram.WebProxyCarrier

open Bytes Chunked Concurrency

def postedOf : Event → Bytes
  | .posted payloads => payloads.flatten
  | _ => []

def passedOf : Event → Bytes
  | .passed data => data
  | _ => []

def creditedOf : Event → ℕ
  | .credited amount => amount
  | _ => 0

/-- The concatenated payloads of the DATA frames handed to `_send_frames`. -/
def posted (trace : List Event) : Bytes := trace.flatMap postedOf

/-- The concatenated data passed to `send`. -/
def passed (trace : List Event) : Bytes := trace.flatMap passedOf

/-- The WINDOW credit received. -/
def credited (trace : List Event) : ℕ := (trace.map creditedOf).sum

@[simp] theorem posted_nil : posted [] = [] := rfl

@[simp] theorem posted_cons (x : Event) (l : List Event) : posted (x :: l) = postedOf x ++ posted l :=
  rfl

@[simp] theorem posted_append (l l' : List Event) : posted (l ++ l') = posted l ++ posted l' :=
  List.flatMap_append

@[simp] theorem passed_nil : passed [] = [] := rfl

@[simp] theorem passed_cons (x : Event) (l : List Event) : passed (x :: l) = passedOf x ++ passed l :=
  rfl

@[simp] theorem passed_append (l l' : List Event) : passed (l ++ l') = passed l ++ passed l' :=
  List.flatMap_append

@[simp] theorem credited_nil : credited [] = 0 := rfl

@[simp] theorem credited_cons (x : Event) (l : List Event) :
    credited (x :: l) = creditedOf x + credited l := by simp [credited]

@[simp] theorem credited_append (l l' : List Event) :
    credited (l ++ l') = credited l + credited l' := by simp [credited]

/-- Every payload in the trace is at most 64 KiB long. -/
def Small (trace : List Event) : Prop :=
  ∀ payloads, .posted payloads ∈ trace → ∀ payload ∈ payloads, payload.length ≤ uplinkFrameMax

/-- Whenever a `send` returned normally, all that had been passed had been posted. -/
def ReturnsPosted (trace : List Event) : Prop :=
  ∀ before after, trace = before ++ .sent :: after → posted before = passed before

/-- The chunks that a suspended `send` has still to hand to `_send_frames`. -/
def Task.owed : Task → Option (List Bytes)
  | .flushingFrames chunk rest | .awaitingCredit chunk rest => some (chunk :: rest)
  | .postingFrames => some []
  | _ => none

/-- What the uplink promises. -/
structure UplinkSafe (p : CarrierPool) : Prop where
  bound : (posted p.trace).length ≤ initialStreamWindow + credited p.trace
  window : 0 ≤ p.shared.sendWindow
  small : Small p.trace
  order : posted p.trace <+: passed p.trace
  returned : ReturnsPosted p.trace

/-- If an exception that does not fail the carrier leaves a `send`, all of its data has been
handed to `_send_frames`, or the carrier has failed already. -/
def SendsWhole (p : CarrierPool) : Action Outcome Call → Prop
  | .resume i .raised =>
    ∀ t ∈ p.tasks[i]?, t.owed = none ∨ t.owed = some [] ∨ p.shared.failExc.isSome
  | _ => True

instance (p : CarrierPool) : ∀ a, Decidable (SendsWhole p a)
  | .resume i .raised => inferInstanceAs
      (Decidable (∀ t ∈ p.tasks[i]?, t.owed = none ∨ t.owed = some [] ∨ p.shared.failExc.isSome))
  | .resume _ .returned | .resume _ (.failed _) | .resume _ .timeout | .event _ => .isTrue trivial

/-! ### Traces -/

theorem small_append {l l' : List Event} (h : Small l) (h' : Small l') : Small (l ++ l') := by
  intro payloads hm
  obtain hm | hm := List.mem_append.mp hm
  · exact h payloads hm
  · exact h' payloads hm

theorem small_of_not_posted {l : List Event} (h : ∀ payloads, .posted payloads ∉ l) : Small l :=
  fun payloads hm => absurd hm (h payloads)

/-- A piece of a trace in which no `send` returns. -/
theorem ReturnsPosted.append {l l' : List Event} (h : ReturnsPosted l) (hs : .sent ∉ l') :
    ReturnsPosted (l ++ l') := by
  intro before after heq
  obtain ⟨m, -, hm⟩ | ⟨m, hm, hm'⟩ := List.append_eq_append_iff.mp heq
  · exact absurd (hm ▸ List.mem_append_right m (by simp)) hs
  · cases m with
    | nil =>
      obtain rfl : .sent :: after = l' := hm'
      exact absurd List.mem_cons_self hs
    | cons x m =>
      obtain ⟨rfl, -⟩ := List.cons_eq_cons.mp hm'
      exact h before m hm

theorem ReturnsPosted.sent {l : List Event} (h : ReturnsPosted l) (heq : posted l = passed l) :
    ReturnsPosted (l ++ [.sent]) := by
  intro before after hl
  obtain ⟨m, hm, hm'⟩ | ⟨m, hm, hm'⟩ := List.append_eq_append_iff.mp hl
  · cases m with
    | nil => rwa [hm, List.append_nil]
    | cons x m => exact absurd (congrArg List.length hm') (by simp)
  · cases m with
    | nil => rwa [hm, List.append_nil] at heq
    | cons x m =>
      obtain ⟨rfl, -⟩ := List.cons_eq_cons.mp hm'
      exact h before m hm

/-! ### What a turn of a `send` does -/

/-- The turn goes on with a `send` that owes `owed` and has spent `spent` on frames it has
not handed over yet: it owes less in the end, or leaves because the carrier has failed, or
returns with nothing owed. -/
structure Continues (s : WebProxyCarrier) (spent : ℕ) (owed : Bytes) (r : CarrierTurn) : Prop where
  failExc : r.shared.failExc = s.failExc
  closed : r.shared.closed = s.closed
  window : 0 ≤ r.shared.sendWindow
  balance : (posted r.seen).length + r.shared.sendWindow = s.sendWindow + spent
  small : Small r.seen
  nothingPassed : passed r.seen = []
  nothingCredited : credited r.seen = 0
  spawned : r.spawned = []
  rest : (∃ chunks, r.task.owed = some chunks ∧ (∀ c ∈ chunks, c.length ≤ uplinkFrameMax) ∧
      posted r.seen ++ chunks.flatten = owed ∧ r.shared.sendLocked = s.sendLocked ∧
      .sent ∉ r.seen) ∨
    (r.task.owed = none ∧ r.shared.sendLocked = false ∧
      (s.failExc.isSome ∧ r.seen = [] ∨ owed = [] ∧ r.seen = [.sent]))

theorem continues_awaitCredit {s : WebProxyCarrier} (hw : 0 ≤ s.sendWindow) {chunk : Bytes}
    {rest : List Bytes} (hc : ∀ c ∈ chunk :: rest, c.length ≤ uplinkFrameMax) :
    Continues s 0 (chunk :: rest).flatten (s.awaitCredit chunk rest) := by
  unfold awaitCredit
  split_ifs with hf
  · exact ⟨rfl, rfl, hw, by simp [leaveSend, finish], by simp [Small, leaveSend, finish], rfl, rfl, rfl,
      .inr ⟨rfl, rfl, .inl ⟨hf, rfl⟩⟩⟩
  · exact ⟨rfl, rfl, hw, by simp, by simp [Small], rfl, rfl, rfl,
      .inl ⟨_, rfl, hc, rfl, rfl, List.not_mem_nil⟩⟩

theorem continues_sendChunks {s : WebProxyCarrier} (hw : 0 ≤ s.sendWindow) {pending : List Bytes}
    (hp : ∀ c ∈ pending, c.length ≤ uplinkFrameMax) {chunks : List Bytes}
    (hc : ∀ c ∈ chunks, c.length ≤ uplinkFrameMax) :
    Continues s pending.flatten.length (pending.flatten ++ chunks.flatten)
      (s.sendChunks pending chunks) := by
  have hpost : Small [.posted pending] := by
    intro payloads hm
    cases List.mem_singleton.mp hm
    exact hp
  induction chunks generalizing s pending with
  | nil =>
    unfold sendChunks
    split_ifs with hne
    · exact ⟨rfl, rfl, hw, by simp [postedOf, add_comm], hpost, rfl, rfl, rfl,
        .inl ⟨[], rfl, by simp, by simp [postedOf], rfl, by simp⟩⟩
    · obtain rfl : pending = [] := not_not.mp hne
      refine ⟨rfl, rfl, hw, ?_, small_of_not_posted ?_, rfl, rfl, rfl,
        .inr ⟨rfl, rfl, .inr ⟨rfl, rfl⟩⟩⟩
      · simp [returnSend, leaveSend, finish, postedOf]
      · simp [returnSend]
  | cons chunk rest ih =>
    unfold sendChunks
    split_ifs with hlt hne
    · exact ⟨rfl, rfl, hw, by simp [postedOf, add_comm], hpost, rfl, rfl, rfl,
        .inl ⟨chunk :: rest, rfl, hc, by simp [postedOf], rfl, by simp⟩⟩
    · obtain rfl : pending = [] := not_not.mp hne
      exact continues_awaitCredit hw hc
    · have hp' : ∀ c ∈ pending ++ [chunk], c.length ≤ uplinkFrameMax := by
        intro c hm
        obtain hm | hm := List.mem_append.mp hm
        · exact hp c hm
        · exact hc c (List.mem_singleton.mp hm ▸ List.mem_cons_self)
      have h := ih (s := { s with sendWindow := s.sendWindow - chunk.length })
        (by dsimp only; omega) hp' (fun c hm => hc c (List.mem_cons_of_mem _ hm)) (by
          intro payloads hm
          cases List.mem_singleton.mp hm
          exact hp')
      have hflat : (pending ++ [chunk]).flatten ++ rest.flatten =
          pending.flatten ++ (chunk :: rest).flatten := by simp
      rw [hflat] at h
      refine ⟨h.failExc, h.closed, h.window, h.balance.trans ?_, h.small, h.nothingPassed, h.nothingCredited,
      h.spawned,
        h.rest⟩
      simp only [List.flatten_append, List.flatten_cons, List.flatten_nil, List.append_nil,
        List.length_append]
      omega

/-- `spendSendWindow` is the loop of `send` at its `_spend_send_window`. -/
theorem continues_spendSendWindow {s : WebProxyCarrier} (hw : 0 ≤ s.sendWindow) {chunk : Bytes}
    {rest : List Bytes} (hc : ∀ c ∈ chunk :: rest, c.length ≤ uplinkFrameMax) :
    Continues s 0 (chunk :: rest).flatten (s.spendSendWindow chunk rest) := by
  unfold spendSendWindow
  split_ifs with hlt
  · exact continues_awaitCredit hw hc
  · have hpending : ∀ c ∈ [chunk], c.length ≤ uplinkFrameMax := by simpa using hc chunk (by simp)
    have h := continues_sendChunks (s := { s with sendWindow := s.sendWindow - chunk.length })
      (by dsimp only; omega) hpending fun c hm => hc c (List.mem_cons_of_mem _ hm)
    refine ⟨h.failExc, h.closed, h.window, h.balance.trans ?_, h.small, h.nothingPassed, h.nothingCredited,
      h.spawned, ?_⟩
    · simp
    · simpa using h.rest

/-- A `send` on a failed carrier raises; any other owes its data. -/
theorem enterSend_cases {s : WebProxyCarrier} (hw : 0 ≤ s.sendWindow) (data : Bytes) :
    ∃ turn : CarrierTurn, s.enterSend data = { turn with seen := .passed data :: turn.seen } ∧
      (s.failExc.isSome ∧ turn = leaveSend { s with sendLocked := true } ∨
        s.failExc = none ∧ Continues { s with sendLocked := true } 0 data turn) := by
  refine ⟨_, rfl, ?_⟩
  dsimp only
  split_ifs with hf hdata
  · exact .inl ⟨hf, rfl⟩
  all_goals refine .inr ⟨by simpa using hf, ?_⟩
  · exact ⟨rfl, rfl, hw, by simp [returnSend, leaveSend, finish, postedOf],
      small_of_not_posted (by simp [returnSend]), rfl, rfl, rfl,
      .inr ⟨rfl, rfl, .inr ⟨hdata, rfl⟩⟩⟩
  · have hnone : ∀ c ∈ ([] : List Bytes), c.length ≤ uplinkFrameMax := by simp
    have hchunks : ∀ c ∈ pieces uplinkFrameMax data, c.length ≤ uplinkFrameMax :=
      fun c hc => length_of_mem_pieces hc
    have h := continues_sendChunks (s := { s with sendLocked := true }) hw hnone hchunks
    rw [flatten_pieces (by decide)] at h
    exact h

/-! ### Turns that keep off the uplink -/

/-- The turn hands over nothing and starts no `send`; it may add WINDOW credit. -/
structure Aside (s : WebProxyCarrier) (e : CarrierEffect) : Prop where
  window : e.shared.sendWindow = s.sendWindow + credited e.seen
  locked : e.shared.sendLocked = s.sendLocked
  failExc : s.failExc.isSome → e.shared.failExc.isSome
  seen : ∀ x ∈ e.seen, postedOf x = [] ∧ passedOf x = [] ∧ x ≠ .sent ∧ ∀ l, x ≠ .posted l
  spawned : ∀ t ∈ e.spawned, t.owed = none

theorem Aside.posted_seen {s : WebProxyCarrier} {e : CarrierEffect} (h : Aside s e) :
    posted e.seen = [] := List.flatMap_eq_nil_iff.mpr fun x hx => (h.seen x hx).1

theorem Aside.passed_seen {s : WebProxyCarrier} {e : CarrierEffect} (h : Aside s e) :
    passed e.seen = [] := List.flatMap_eq_nil_iff.mpr fun x hx => (h.seen x hx).2.1

theorem Aside.small {s : WebProxyCarrier} {e : CarrierEffect} (h : Aside s e) : Small e.seen :=
  small_of_not_posted fun l hl => (h.seen _ hl).2.2.2 l rfl

theorem Aside.not_sent {s : WebProxyCarrier} {e : CarrierEffect} (h : Aside s e) :
    .sent ∉ e.seen := fun hs => (h.seen _ hs).2.2.1 rfl

theorem Aside.failExc_none {s : WebProxyCarrier} {e : CarrierEffect} (h : Aside s e)
    (hf : e.shared.failExc = none) : s.failExc = none :=
  Option.not_isSome_iff_eq_none.mp fun hs => by simpa [hf] using h.failExc hs

theorem Aside.append {s : WebProxyCarrier} {e e' : CarrierEffect} (h : Aside s e)
    (h' : Aside e.shared e') :
    Aside s { e' with spawned := e.spawned ++ e'.spawned, seen := e.seen ++ e'.seen } where
  window := by
    have hw := h.window
    have hw' := h'.window
    simp only [credited_append]
    omega
  locked := h'.locked.trans h.locked
  failExc hf := h'.failExc (h.failExc hf)
  seen := List.forall_mem_append.mpr ⟨h.seen, h'.seen⟩
  spawned := List.forall_mem_append.mpr ⟨h.spawned, h'.spawned⟩

theorem Aside.trans {s s' : WebProxyCarrier} {e : CarrierEffect} (h : Aside s { shared := s' })
    (h' : Aside s' e) : Aside s e := h.append h'

theorem aside_same (s : WebProxyCarrier) {spawned : List Task}
    (h : ∀ t ∈ spawned, t.owed = none) : Aside s { shared := s, spawned := spawned } :=
  ⟨by simp, rfl, fun h => h, fun _ h => absurd h List.not_mem_nil, h⟩

theorem aside_handleFrame (s : WebProxyCarrier) (frame : Frame) :
    Aside s (s.handleFrame frame) := by
  unfold handleFrame handleControlFrame handleStreamFrame
  dsimp only
  repeat' split
  all_goals refine ⟨by simp [creditedOf], rfl, fun h => h, ?_, ?_⟩
  all_goals simp [Task.owed, postedOf, passedOf]

theorem aside_handleFrames (s : WebProxyCarrier) (frames : List Frame) :
    Aside s (s.handleFrames frames) := by
  induction frames generalizing s with
  | nil => exact aside_same s (by simp)
  | cons frame rest ih => exact (s.aside_handleFrame frame).append (ih _)

theorem aside_fail (s : WebProxyCarrier) (why : Failure) : Aside s { shared := s.fail why } := by
  unfold fail
  split_ifs with hf
  · exact aside_same s (by simp)
  · exact ⟨by simp, rfl, fun _ => rfl, fun _ h => absurd h List.not_mem_nil, by simp⟩

theorem aside_finish (s : WebProxyCarrier) : Aside s s.finish.toEffect := aside_same s (by simp)

/-- The downlink's numbers are none of the uplink's business. -/
theorem aside_downlink (s : WebProxyCarrier) (remaining pending : ℤ) :
    Aside s { shared := { s with recvWindowRemaining := remaining, pendingGrant := pending } } :=
  ⟨by simp, rfl, fun h => h, fun _ h => absurd h List.not_mem_nil, by simp⟩

theorem aside_flushGrant {s : WebProxyCarrier} {posting : Task}
    {left : WebProxyCarrier → CarrierTurn} (hleft : ∀ s, Aside s (left s).toEffect) :
    Aside s (s.flushGrant posting left).toEffect := by
  unfold flushGrant
  dsimp only
  split_ifs
  · exact (s.aside_downlink _ _).trans (hleft _)
  · exact (s.aside_downlink _ _).trans (hleft _)
  · exact ⟨by simp [creditedOf], rfl, fun h => h, by simp [postedOf, passedOf], by simp⟩

theorem aside_endGrantFlush (s : WebProxyCarrier) : Aside s s.endGrantFlush.toEffect :=
  ⟨by simp [endGrantFlush, finish], rfl, fun h => h, fun _ h => absurd h List.not_mem_nil,
    by simp [endGrantFlush, finish]⟩

theorem aside_resumeRecv (s : WebProxyCarrier) (length : ℤ) :
    Aside s (s.resumeRecv length).toEffect := by
  have hcredit : ∀ s : WebProxyCarrier, Aside s (s.grantCredit length).toEffect := by
    intro s
    unfold grantCredit
    dsimp only
    split_ifs
    · exact s.aside_finish
    · exact (s.aside_downlink _ _).trans (aside_flushGrant aside_finish)
    · exact ⟨by simp [finish], rfl, fun h => h, by simp [finish], by simp [finish]⟩
    · exact ⟨by simp [finish], rfl, fun h => h, by simp [finish], by simp [Task.owed]⟩
  unfold resumeRecv
  split
  · exact ⟨by simp, rfl, fun h => h, by simp, by simp⟩
  · exact ⟨by simp [finish], rfl, fun h => h, by simp [finish], by simp [finish]⟩
  · rename_i buffer queue _
    have h := hcredit { s with recvBuffer := sliceFrom buffer length, recvQueue := queue }
    exact ⟨by simpa [creditedOf] using h.window, h.locked, h.failExc,
      List.forall_mem_cons.mpr ⟨by simp [postedOf, passedOf], h.seen⟩, h.spawned⟩

theorem flushGrant_owed {s : WebProxyCarrier} {posting : Task}
    {left : WebProxyCarrier → CarrierTurn} (hposting : posting.owed = none)
    (hleft : ∀ s, (left s).task.owed = none) : (s.flushGrant posting left).task.owed = none := by
  unfold flushGrant
  dsimp only
  split_ifs
  · exact hleft _
  · exact hleft _
  · exact hposting

theorem resumeRecv_owed (s : WebProxyCarrier) (length : ℤ) :
    (s.resumeRecv length).task.owed = none := by
  unfold resumeRecv
  split
  · rfl
  · rfl
  · unfold grantCredit
    dsimp only
    split_ifs
    · rfl
    · exact flushGrant_owed rfl fun _ => rfl
    · rfl
    · rfl

theorem aside_enterClose (s : WebProxyCarrier) :
    s.enterClose.task.owed = none ∧ Aside s s.enterClose.toEffect := by
  unfold enterClose
  split_ifs
  · exact ⟨rfl, s.aside_finish⟩
  · exact ⟨rfl, by simp, rfl, fun h => h, by simp, by simp⟩

/-- A turn begins a `send`, goes on with one, returns from one or leaves one by an exception,
or has nothing to do with the uplink. -/
theorem resume_uplink {s : WebProxyCarrier} {t : Task} {o : Outcome} {r : CarrierTurn}
    (h : s.resume t o = some r) :
    (∃ data, t = .send data ∧ s.sendLocked = false ∧ r = s.enterSend data) ∨
    (∃ chunk rest, t.owed = some (chunk :: rest) ∧ r = s.spendSendWindow chunk rest) ∨
    (t.owed = some [] ∧ r = s.returnSend) ∨
    (t.owed.isSome ∧ ∃ s', Aside s { shared := s' } ∧ r = s'.leaveSend ∧
      (s'.failExc.isSome ∨ o = .raised ∧ s' = s)) ∨
    (t.owed = none ∧ r.task.owed = none ∧ Aside s r.toEffect) := by
  have hfail : ∀ why, (s.fail why).failExc.isSome := by
    intro why
    unfold fail
    split_ifs with hf
    · exact hf
    · rfl
  unfold resume at h
  split at h
  case h_32 => cases h
  case h_11 =>
    split_ifs at h with hlock
    exact .inl ⟨_, rfl, by simpa using hlock, (Option.some.inj h).symm⟩
  case h_13 => exact .inr (.inl ⟨_, _, rfl, (Option.some.inj h).symm⟩)
  case h_14 =>
    split_ifs at h
    exact .inr (.inl ⟨_, _, rfl, (Option.some.inj h).symm⟩)
  case h_16 => exact .inr (.inr (.inl ⟨rfl, (Option.some.inj h).symm⟩))
  case h_15 | h_17 | h_18 =>
    exact .inr (.inr (.inr (.inl
      ⟨rfl, _, s.aside_fail _, (Option.some.inj h).symm, .inl (hfail _)⟩)))
  case h_19 | h_20 | h_21 =>
    exact .inr (.inr (.inr (.inl
      ⟨rfl, s, aside_same s (by simp), (Option.some.inj h).symm, .inr ⟨rfl, rfl⟩⟩)))
  case h_29 =>
    cases h
    exact .inr (.inr (.inr (.inr ⟨rfl, s.aside_enterClose⟩)))
  all_goals
    try split_ifs at h
    cases h
    refine .inr (.inr (.inr (.inr ⟨rfl, ?_, ?_⟩)))
  all_goals first
    | rfl
    | exact s.aside_finish
    | exact s.aside_endGrantFlush
    | exact (s.aside_fail _).trans (aside_finish _)
    | exact (s.aside_fail _).trans (aside_endGrantFlush _)
    | exact s.aside_resumeRecv _
    | exact s.resumeRecv_owed _
    | exact aside_flushGrant aside_endGrantFlush
    | exact flushGrant_owed rfl fun _ => rfl
    | exact ⟨by simp [creditedOf, finish], rfl, fun h => h, by simp [postedOf, passedOf, finish],
        by simp [finish]⟩

theorem aside_call {s : WebProxyCarrier} {c : Call} {e : CarrierEffect} (h : s.call c = some e) :
    Aside s e := by
  unfold call at h
  split at h
  case h_1 frames =>
    split_ifs at h
    cases h
    exact s.aside_handleFrames frames
  case h_2 why =>
    split_ifs at h
    cases h
    exact s.aside_fail why
  all_goals
    cases h
    exact aside_same s (by simp [Task.owed])

/-! ### The window -/

/-- What was posted and the window that is left make up the initial window and the credit. -/
structure Metered (p : CarrierPool) : Prop where
  window : 0 ≤ p.shared.sendWindow
  balance : (posted p.trace).length + p.shared.sendWindow = initialStreamWindow + credited p.trace
  small : Small p.trace
  chunks : ∀ t ∈ p.tasks, ∀ chunks, t.owed = some chunks → ∀ c ∈ chunks, c.length ≤ uplinkFrameMax

/-- The turn pays for what it posts out of the window. -/
structure Pays (s : WebProxyCarrier) (r : CarrierTurn) : Prop where
  window : 0 ≤ r.shared.sendWindow
  balance : (posted r.seen).length + r.shared.sendWindow = s.sendWindow + credited r.seen
  small : Small r.seen
  chunks : ∀ chunks, r.task.owed = some chunks → ∀ c ∈ chunks, c.length ≤ uplinkFrameMax
  spawned : ∀ t ∈ r.spawned, t.owed = none

theorem Continues.pays {s : WebProxyCarrier} {owed : Bytes} {r : CarrierTurn}
    (h : Continues s 0 owed r) : Pays s r := by
  refine ⟨h.window, by simpa [h.nothingCredited] using h.balance, h.small, fun chunks hc => ?_,
    by simp [h.spawned]⟩
  obtain ⟨chunks', hc', hsmall, -⟩ | ⟨hnone, -⟩ := h.rest
  · obtain rfl := Option.some.inj (hc'.symm.trans hc)
    exact hsmall
  · rw [hnone] at hc
    cases hc

theorem Aside.pays {s : WebProxyCarrier} {r : CarrierTurn} (h : Aside s r.toEffect)
    (hw : 0 ≤ s.sendWindow) (ht : r.task.owed = none) : Pays s r := by
  have hwindow := h.window
  refine ⟨by omega, ?_, h.small, by simp [ht], h.spawned⟩
  rw [h.posted_seen, List.length_nil]
  omega

theorem Pays.passed {s : WebProxyCarrier} {r : CarrierTurn} (h : Pays s r) (data : Bytes) :
    Pays s { r with seen := .passed data :: r.seen } :=
  ⟨h.window, by simpa [postedOf, creditedOf] using h.balance,
    small_append (l := [.passed data]) (small_of_not_posted (by simp)) h.small, h.chunks, h.spawned⟩

theorem pays_leaveSend {s s' : WebProxyCarrier} (h : Aside s { shared := s' })
    (hw : 0 ≤ s.sendWindow) : Pays s s'.leaveSend := by
  have hwindow : s'.sendWindow = s.sendWindow := by simpa using h.window
  refine ⟨?_, ?_, small_of_not_posted (by simp [leaveSend, finish]),
    by simp [leaveSend, finish, Task.owed], by simp [leaveSend, finish]⟩
  · exact hwindow ▸ hw
  · simp [leaveSend, finish, hwindow]

theorem pays_returnSend {s : WebProxyCarrier} (hw : 0 ≤ s.sendWindow) : Pays s s.returnSend :=
  ⟨hw, by simp [returnSend, leaveSend, finish, postedOf, creditedOf],
    small_of_not_posted (by simp [returnSend]), by simp [returnSend, leaveSend, finish, Task.owed],
    by simp [returnSend, leaveSend, finish]⟩

theorem Metered.pays {p : CarrierPool} {r : CarrierTurn} (h : Metered p) (hr : Pays p.shared r)
    (i : ℕ) : Metered ⟨r.shared, p.tasks.set i r.task ++ r.spawned, p.trace ++ r.seen⟩ := by
  have hb := h.balance
  have hbr := hr.balance
  refine ⟨hr.window, ?_, small_append h.small hr.small, ?_⟩
  · simp only [posted_append, List.length_append, credited_append]
    omega
  · exact forall_mem_set_append h.chunks hr.chunks fun t ht => by simp [hr.spawned t ht]

theorem enterSend_pays {s : WebProxyCarrier} (hw : 0 ≤ s.sendWindow) (data : Bytes) :
    Pays s (s.enterSend data) := by
  obtain ⟨turn, hturn, ⟨-, rfl⟩ | ⟨-, hc⟩⟩ := enterSend_cases hw data <;> rw [hturn]
  · have hleft : Pays s s.leaveSend := pays_leaveSend (aside_same s (by simp)) hw
    exact hleft.passed data
  · have h := hc.pays
    have hs : Pays s turn := ⟨h.window, h.balance, h.small, h.chunks, h.spawned⟩
    exact hs.passed data

theorem Metered.step {p q : CarrierPool} {a : Action Outcome Call} (h : Metered p)
    (hstep : system.step p a = some q) : Metered q := by
  obtain ⟨i, o, t, r, -, hi, hr, rfl⟩ | ⟨e, r, -, he, rfl⟩ := System.step_cases hstep
  · refine h.pays ?_ i
    obtain ⟨data, rfl, -, rfl⟩ | ⟨chunk, rest, ht, rfl⟩ | ⟨-, rfl⟩ | ⟨-, s', hs', rfl, -⟩ |
      ⟨-, ht', haside⟩ := resume_uplink hr
    · exact enterSend_pays h.window data
    · have hchunks := h.chunks t (List.mem_of_getElem? hi) _ ht
      exact (continues_spendSendWindow h.window hchunks).pays
    · exact pays_returnSend h.window
    · exact pays_leaveSend hs' h.window
    · exact haside.pays h.window ht'
  · have haside := aside_call he
    have hw := haside.window
    have hw₀ := h.window
    have hb := h.balance
    refine ⟨by simp only; omega, ?_, small_append h.small haside.small, ?_⟩
    · simp only [posted_append, haside.posted_seen, List.append_nil, credited_append]
      omega
    · intro t ht
      obtain ht | ht := List.mem_append.mp ht
      · exact h.chunks t ht
      · simp [haside.spawned t ht]

theorem metered_initial : Metered initial :=
  ⟨by simp [initial], by simp [initial], fun _ h => absurd h List.not_mem_nil,
    fun _ h => absurd h List.not_mem_nil⟩

/-! ### The order -/

/-- Only the holder of the lock owes anything, and what it owes is what is missing from the
posted data. If the lock is free, nothing is missing, or the carrier has failed. -/
structure Ordered (p : CarrierPool) : Prop where
  exclusive : Exclusive (fun t : Task => t.owed.isSome) p.tasks
  locked : ∀ t ∈ p.tasks, t.owed.isSome → p.shared.sendLocked = true
  owed : ∀ t ∈ p.tasks, ∀ chunks, t.owed = some chunks →
    posted p.trace ++ chunks.flatten = passed p.trace
  free : p.shared.sendLocked = false → p.shared.failExc = none → posted p.trace = passed p.trace
  order : posted p.trace <+: passed p.trace
  returned : ReturnsPosted p.trace

theorem ordered_initial : Ordered initial where
  exclusive _ _ _ _ h := by simp [initial] at h
  locked _ h := absurd h List.not_mem_nil
  owed _ h := absurd h List.not_mem_nil
  free _ _ := rfl
  order := List.nil_prefix
  returned _ _ h := by simp [initial] at h

/-- A turn of a task that owes nothing and will owe nothing. -/
theorem Ordered.aside {p : CarrierPool} {t : Task} {i : ℕ} {r : CarrierTurn} (h : Ordered p)
    (hi : p.tasks[i]? = some t) (ht : r.task.owed = none) (hr : Aside p.shared r.toEffect) :
    Ordered ⟨r.shared, p.tasks.set i r.task ++ r.spawned, p.trace ++ r.seen⟩ where
  exclusive := h.exclusive.set_append hi (by simp [ht]) fun t ht => by simp [hr.spawned t ht]
  locked := forall_mem_set_append (hr.locked ▸ h.locked) (by simp [ht])
    fun t ht => by simp [hr.spawned t ht]
  owed := by
    simp only [posted_append, hr.posted_seen, passed_append, hr.passed_seen, List.append_nil]
    exact forall_mem_set_append h.owed (by simp [ht]) fun t ht => by simp [hr.spawned t ht]
  free hlock hfail := by
    simp only [posted_append, hr.posted_seen, passed_append, hr.passed_seen, List.append_nil]
    exact h.free (hr.locked ▸ hlock) (hr.failExc_none hfail)
  order := by simpa [hr.posted_seen, hr.passed_seen] using h.order
  returned := h.returned.append hr.not_sent

theorem Ordered.call {p : CarrierPool} {e : CarrierEffect} (h : Ordered p)
    (he : Aside p.shared e) : Ordered ⟨e.shared, p.tasks ++ e.spawned, p.trace ++ e.seen⟩ where
  exclusive := h.exclusive.append fun t ht => by simp [he.spawned t ht]
  locked := List.forall_mem_append.mpr
    ⟨he.locked ▸ h.locked, fun t ht => by simp [he.spawned t ht]⟩
  owed := by
    simp only [posted_append, he.posted_seen, passed_append, he.passed_seen, List.append_nil]
    exact List.forall_mem_append.mpr ⟨h.owed, fun t ht => by simp [he.spawned t ht]⟩
  free hlock hfail := by
    simp only [posted_append, he.posted_seen, passed_append, he.passed_seen, List.append_nil]
    exact h.free (he.locked ▸ hlock) (he.failExc_none hfail)
  order := by simpa [he.posted_seen, he.passed_seen] using h.order
  returned := h.returned.append he.not_sent

/-- The promises about the order, for the one task that may hold the lock. -/
structure Accounted (trace : List Event) (s : WebProxyCarrier) (t : Task) : Prop where
  locked : t.owed.isSome → s.sendLocked = true
  owed : ∀ chunks, t.owed = some chunks → posted trace ++ chunks.flatten = passed trace
  free : s.sendLocked = false → s.failExc = none → posted trace = passed trace
  order : posted trace <+: passed trace
  returned : ReturnsPosted trace

/-- A turn of the task that holds the lock, or that takes it. -/
theorem Ordered.holder {p : CarrierPool} {t : Task} {i : ℕ} {r : CarrierTurn} (h : Ordered p)
    (hi : p.tasks[i]? = some t) (hold : t.owed.isSome ∨ p.shared.sendLocked = false)
    (hspawned : r.spawned = []) (hr : Accounted (p.trace ++ r.seen) r.shared r.task) :
    Ordered ⟨r.shared, p.tasks.set i r.task ++ r.spawned, p.trace ++ r.seen⟩ := by
  have hnone : ∀ t ∈ r.spawned, ¬t.owed.isSome := by simp [hspawned]
  have hfree : p.shared.sendLocked = false → ∀ x ∈ p.tasks, ¬x.owed.isSome := by
    intro hlock x hx ho
    rw [h.locked x hx ho] at hlock
    cases hlock
  have hone : ∀ x ∈ p.tasks.set i r.task ++ r.spawned, x.owed.isSome → x = r.task := by
    intro x hx ho
    obtain ht | hlock := hold
    · exact h.exclusive.eq_of_mem hi ht hnone hx ho
    · rw [hspawned, List.append_nil] at hx
      exact (List.mem_or_eq_of_mem_set hx).resolve_left fun hx => hfree hlock x hx ho
  refine ⟨h.exclusive.set_append hi (fun _ => hold.imp_right hfree) hnone, fun x hx ho => ?_,
    fun x hx chunks hc => ?_, hr.free, hr.order, hr.returned⟩
  · exact hr.locked (hone x hx ho ▸ ho)
  · obtain rfl := hone x hx (by simp [hc])
    exact hr.owed chunks hc

theorem Continues.accounted {s : WebProxyCarrier} {owed : Bytes} {r : CarrierTurn}
    {trace : List Event} (hr : Continues s 0 owed r) (hlock : s.sendLocked = true)
    (howed : posted trace ++ owed = passed trace) (hret : ReturnsPosted trace) :
    Accounted (trace ++ r.seen) r.shared r.task := by
  obtain ⟨chunks, ht, -, hflat, hl, hsent⟩ | ⟨ht, -, ⟨hf, hseen⟩ | ⟨hnil, hseen⟩⟩ := hr.rest
  · have heq : posted (trace ++ r.seen) ++ chunks.flatten = passed (trace ++ r.seen) := by
      rw [posted_append, passed_append, hr.nothingPassed, List.append_assoc, hflat, List.append_nil, howed]
    refine ⟨fun _ => hl.trans hlock, fun chunks' hc => ?_, fun hfree => ?_, ⟨_, heq⟩,
      hret.append hsent⟩
    · obtain rfl := Option.some.inj (ht.symm.trans hc)
      exact heq
    · rw [hl, hlock] at hfree
      cases hfree
  · rw [hseen, List.append_nil]
    refine ⟨by simp [ht], by simp [ht], fun _ hfail => ?_, ⟨_, howed⟩, hret⟩
    rw [hr.failExc] at hfail
    simp [hfail] at hf
  · have heq : posted trace = passed trace := by rw [← howed, hnil, List.append_nil]
    rw [hseen]
    refine ⟨by simp [ht], by simp [ht], fun _ _ => ?_, ?_, hret.sent heq⟩ <;>
      simp [postedOf, passedOf, heq]

/-- A `send` that leaves by an exception on a failed carrier, or with nothing owed. -/
theorem accounted_leaveSend {trace : List Event} {s : WebProxyCarrier}
    (hfree : s.failExc = none → posted trace = passed trace)
    (horder : posted trace <+: passed trace) (hret : ReturnsPosted trace) :
    Accounted trace s.leaveSend.shared s.leaveSend.task :=
  ⟨by simp [leaveSend, finish, Task.owed], by simp [leaveSend, finish, Task.owed],
    fun _ => hfree, horder, hret⟩

theorem Ordered.enterSend {p : CarrierPool} {i : ℕ} {data : Bytes} (h : Ordered p)
    (hw : 0 ≤ p.shared.sendWindow) (hi : p.tasks[i]? = some (.send data))
    (hlock : p.shared.sendLocked = false) :
    let r := p.shared.enterSend data
    Ordered ⟨r.shared, p.tasks.set i r.task ++ r.spawned, p.trace ++ r.seen⟩ := by
  obtain ⟨turn, hturn, hcases⟩ := enterSend_cases hw data
  have hret : ReturnsPosted (p.trace ++ [.passed data]) := h.returned.append (by simp)
  have hpre : posted (p.trace ++ [.passed data]) <+: passed (p.trace ++ [.passed data]) := by
    simpa [postedOf, passedOf] using h.order.trans (List.prefix_append _ data)
  rw [hturn]
  obtain ⟨hf, rfl⟩ | ⟨hf, hc⟩ := hcases
  · refine h.holder hi (.inr hlock) rfl (accounted_leaveSend (fun hn => ?_) hpre hret)
    rw [show p.shared.failExc = none from hn] at hf
    cases hf
  · refine h.holder hi (.inr hlock) hc.spawned ?_
    have howed : posted (p.trace ++ [.passed data]) ++ data =
        passed (p.trace ++ [.passed data]) := by
      simp [postedOf, passedOf, h.free hlock hf]
    have hacc := hc.accounted rfl howed hret
    rwa [List.append_assoc] at hacc

theorem Ordered.step {p q : CarrierPool} {a : Action Outcome Call} (h : Ordered p)
    (hm : Metered p) (hok : SendsWhole p a) (hstep : system.step p a = some q) : Ordered q := by
  obtain ⟨i, o, t, r, rfl, hi, hr, rfl⟩ | ⟨e, r, rfl, he, rfl⟩ := System.step_cases hstep
  · have hmem := List.mem_of_getElem? hi
    obtain ⟨data, rfl, hlock, rfl⟩ | ⟨chunk, rest, ht, rfl⟩ | ⟨ht, rfl⟩ | ⟨ht, s', hs', rfl, hwhy⟩ |
      ⟨-, ht', haside⟩ := resume_uplink hr
    · exact h.enterSend hm.window hi hlock
    · have hsome : t.owed.isSome := by simp [ht]
      have hc := continues_spendSendWindow hm.window (hm.chunks t hmem _ ht)
      exact h.holder hi (.inl hsome) hc.spawned
        (hc.accounted (h.locked t hmem hsome) (h.owed t hmem _ ht) h.returned)
    · have heq : posted p.trace = passed p.trace := by simpa using h.owed t hmem _ ht
      refine h.holder hi (.inl (by simp [ht])) rfl ⟨?_, ?_, fun _ _ => ?_, ?_, h.returned.sent heq⟩
      · simp [returnSend, leaveSend, finish, Task.owed]
      · simp [returnSend, leaveSend, finish, Task.owed]
      · simp [returnSend, postedOf, passedOf, heq]
      · simp [returnSend, postedOf, passedOf, heq]
    · refine h.holder hi (.inl ht) rfl ?_
      simp only [leaveSend, finish, List.append_nil]
      refine accounted_leaveSend (s := s') (fun hn => ?_) h.order h.returned
      obtain hf | ⟨rfl, rfl⟩ := hwhy
      · simp [hn] at hf
      · -- nothing was owed, by the condition on the step
        obtain hnone | hnil | hf := hok t (Option.mem_def.mpr hi)
        · simp [hnone] at ht
        · simpa using h.owed t hmem _ hnil
        · simp [hn] at hf
    · exact h.aside hi ht' haside
  · exact h.call (aside_call he)

theorem Metered.uplinkSafe {p : CarrierPool} (hm : Metered p) (ho : Ordered p) : UplinkSafe p := by
  have hw := hm.window
  have hb := hm.balance
  exact ⟨by omega, hw, hm.small, ho.order, ho.returned⟩

/-- The window promises hold in every state of every run. -/
theorem metered_throughout (actions : List (Action Outcome Call)) :
    system.Throughout Metered initial actions :=
  System.throughout_of_step (fun _ _ _ h hstep => h.step hstep) metered_initial actions

/-- One byte more than the initial window lets through. -/
def oversized : Bytes := List.replicate (initialStreamWindow + 1) 0

/-- `send` flushes what the window lets through, and an exception that does not fail the
carrier comes out of the POST, as a `ValueError` for a negative `Content-Length`; the relay
grants one byte more; the next `send` posts its byte. -/
def brokenSendRun (data : Bytes) : List (Action Outcome Call) :=
  [.event (.send data), .resume 0 .returned, .resume 0 .raised,
    .event (.frames [⟨.window, streamId, [0, 0, 0, 1], by decide⟩]), .event (.send [1]),
    .resume 1 .returned]

theorem resume_raised_of_owed {s : WebProxyCarrier} {t : Task} {chunk : Bytes} {rest : List Bytes}
    (h : t.owed = some (chunk :: rest)) : s.resume t .raised = some s.leaveSend := by
  cases t <;> first | rfl | cases h

/-- A `send` of a single byte that the window lets through. -/
theorem enterSend_byte {s : WebProxyCarrier} (hf : s.failExc = none) (hw : 1 ≤ s.sendWindow)
    (b : UInt8) : s.enterSend [b] =
      { shared := { s with sendLocked := true, sendWindow := s.sendWindow - 1 },
        task := .postingFrames, seen := [.passed [b], .posted [[b]]] } := by
  have hpieces : pieces uplinkFrameMax [b] = [[b]] := by simp [pieces, uplinkFrameMax]
  have hlt : ¬s.sendWindow < 1 := by omega
  simp [enterSend, hf, hpieces, sendChunks, hlt]

/-- The carrier after the broken `send` has left and one byte has been granted. -/
def afterBreak (s : WebProxyCarrier) : WebProxyCarrier :=
  { s with sendLocked := false, sendWindow := s.sendWindow + 1, sendWindowEvent := true }

theorem order_lost_of_oversized {data : Bytes} (hlen : data.length = initialStreamWindow + 1)
    (hone : 1 ∉ data) : ∃ p, system.run initial (brokenSendRun data) = some p ∧
      ¬posted p.trace <+: passed p.trace := by
  obtain ⟨turn, hturn, ⟨hf, -⟩ | ⟨-, hc⟩⟩ :=
    enterSend_cases (s := {}) (Int.natCast_nonneg _) data
  · cases hf
  have hbal := hc.balance
  have hwin := hc.window
  obtain ⟨chunks, ht, -, hflat, hlock, -⟩ | ⟨-, -, ⟨hf, -⟩ | ⟨hnil, -⟩⟩ := hc.rest
  · have hpost : (posted turn.seen).length ≤ initialStreamWindow := by
      simp only [Nat.cast_zero, add_zero] at hbal
      omega
    obtain ⟨chunk, rest, rfl⟩ : ∃ chunk rest, chunks = chunk :: rest := by
      refine List.exists_cons_of_ne_nil fun hnil => ?_
      rw [hnil, List.flatten_nil, List.append_nil] at hflat
      rw [hflat] at hpost
      omega
    set trace := .passed data :: turn.seen with htrace
    have h₁ : system.step initial (.event (.send data)) =
        some ⟨{}, [.send data], []⟩ := rfl
    have h₂ : system.step ⟨{}, [.send data], []⟩ (.resume 0 .returned) =
        some ⟨turn.shared, [turn.task], trace⟩ := by
      simp [System.step, system, resume, hturn, hc.spawned, htrace]
    have h₃ : system.step ⟨turn.shared, [turn.task], trace⟩ (.resume 0 .raised) =
        some ⟨{ turn.shared with sendLocked := false }, [.finished], trace⟩ := by
      simp [System.step, system, resume_raised_of_owed ht, leaveSend, finish]
    have h₄ : system.step ⟨{ turn.shared with sendLocked := false }, [.finished], trace⟩
        (.event (.frames [⟨.window, streamId, [0, 0, 0, 1], by decide⟩])) =
        some ⟨afterBreak turn.shared, [.finished], trace ++ [.credited 1]⟩ := by
      simp [System.step, system, call, hc.failExc, hc.closed, handleFrames, handleFrame,
        handleStreamFrame, controlStreamId, streamId, windowPayloadSize, ofBE, ofLE, afterBreak]
    have h₅ : system.step ⟨afterBreak turn.shared, [.finished], trace ++ [.credited 1]⟩
        (.event (.send [1])) =
        some ⟨afterBreak turn.shared, [.finished, .send [1]], trace ++ [.credited 1]⟩ := by
      simp [System.step, system, call]
    have hbyte := enterSend_byte (s := afterBreak turn.shared) hc.failExc
      (by simp only [afterBreak]; omega) 1
    have hfree : (afterBreak turn.shared).sendLocked = false := rfl
    have h₆ : system.step ⟨afterBreak turn.shared, [.finished, .send [1]],
        trace ++ [.credited 1]⟩ (.resume 1 .returned) =
        some ⟨{ afterBreak turn.shared with
            sendLocked := true, sendWindow := (afterBreak turn.shared).sendWindow - 1 },
          [.finished, .postingFrames],
          trace ++ [.credited 1] ++ [.passed [1], .posted [[1]]]⟩ := by
      simp [System.step, system, resume, hbyte, hfree]
    obtain ⟨p, hrun, htrace'⟩ : ∃ p, system.run initial (brokenSendRun data) = some p ∧
        p.trace = trace ++ [.credited 1] ++ [.passed [1], .posted [[1]]] := by
      simp only [brokenSendRun, System.run, h₁, h₂, h₃, h₄, h₅, h₆, Option.bind_some,
        Option.some.injEq, exists_eq_left']
    refine ⟨p, hrun, fun hpre => ?_⟩
    rw [htrace', htrace] at hpre
    have hpre : posted turn.seen ++ [1] <+: data := by
      refine List.prefix_of_prefix_length_le ?_ (List.prefix_append data [1]) ?_
      · simpa [postedOf, passedOf, hc.nothingPassed] using hpre
      · rw [List.length_append, hlen, List.length_singleton]
        omega
    exact hone (hpre.subset (by simp))
  · cases hf
  · rw [hnil] at hlen
    cases hlen

end AllInOneBackup.Kurigram.WebProxyCarrier
