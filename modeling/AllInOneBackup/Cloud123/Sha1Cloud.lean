import AllInOneBackup.Concurrency.Pool
import Mathlib.Algebra.BigOperators.Group.List.Basic
import Mathlib.Algebra.Order.Ring.Nat

/-! The shared library of hashes: `Sha1ApiClient._request` on many threads. What a thread does
between two accesses of the shared fields is a turn; a lock is held within one turn. What is
answered to a request, and how long anything takes, is arbitrary. -/

namespace AllInOneBackup.Cloud123.Sha1Cloud

open Concurrency

/-! ### The breaker -/

/-- `breaker_threshold` and `breaker_open_seconds`. -/
structure Limits where
  breakerThreshold : ℕ
  breakerOpenSeconds : ℕ

def Sha1ApiClient.limits : Limits := ⟨5, 300⟩

/-- The fields under `_state_lock`; `_open_until` is zero where nothing was opened. -/
structure Breaker where
  failureCount : ℕ := 0
  openUntil : ℕ := 0
  halfOpen : Bool := false

namespace Breaker

variable (limits : Limits) (now : ℕ) (b : Breaker)

/-- `_enter_half_open_if_expired`. -/
def enterHalfOpenIfExpired : Breaker :=
  if b.openUntil ≠ 0 ∧ b.openUntil ≤ now then { b with openUntil := 0, halfOpen := true } else b

/-- `_record_success`. -/
def recordSuccess (force : Bool) : Breaker :=
  if ¬force ∧ b.openUntil ≠ 0 ∧ now < b.openUntil then b else {}

/-- `_record_failure`. -/
def recordFailure : Breaker :=
  if b.halfOpen then { b with halfOpen := false, openUntil := now + limits.breakerOpenSeconds }
  else if limits.breakerThreshold ≤ b.failureCount + 1 then
    { failureCount := 0, openUntil := now + limits.breakerOpenSeconds, halfOpen := false }
  else { b with failureCount := b.failureCount + 1 }

end Breaker

/-! ### Requests -/

/-- The three calls of `_breaker_open`: before anything, with the gate, and after the expiry. -/
inductive Check
  | first
  | inGate
  | again
  deriving DecidableEq

/-- The points of `_request`. -/
inductive Request
  /-- About to read the clock, in `_breaker_open`. -/
  | checking (c : Check)
  /-- The clock is read, `_open_until` is not. -/
  | comparing (c : Check) (clock : ℕ)
  /-- The address and the token are read. -/
  | preparing
  | waiting
  /-- At `if self._open_until`. -/
  | reading
  | expiring
  | direct
  | directSent
  | viaProxy
  | proxySent
  /-- Leaving the gate, with the result or an exception. -/
  | leaving (ok : Bool)
  /-- Leaving the gate with `None`. -/
  | refused
  | recording (ok : Bool)
  | done

/-- What a call did; `connectFailed` says whether the system has a proxy. -/
inductive Outcome
  | turn
  | ok
  | connectFailed (proxy : Bool)
  | failed

inductive External
  | tick (d : ℕ)
  | request
  /-- `set_pool_token_override`, which forces a success. -/
  | setToken

structure Client where
  breaker : Breaker := {}
  now : ℕ := 0
  /-- The taken slots of `_gate`. -/
  gate : ℕ := 0

/-- A call of `_send`. -/
inductive Sent
  | sent

abbrev RequestTurn := Turn Client Request Sent

abbrev ClientPool := Pool Client Request Sent

/-- `BoundedSemaphore(3)`. -/
def gateSize : ℕ := 3

variable (limits : Limits)

namespace Client

variable (s : Client)

/-- The comparison in `_breaker_open`, and where its caller goes on. -/
def compare (c : Check) (clock : ℕ) : Request :=
  if clock < s.breaker.openUntil then match c with
    | .first => .done
    | .inGate | .again => .refused
  else match c with
    | .first => .preparing
    | .inGate => .reading
    | .again => .direct

def record (ok : Bool) : Breaker :=
  if ok then s.breaker.recordSuccess s.now false else s.breaker.recordFailure limits s.now

def resume : Request → Outcome → Option RequestTurn
  | .checking c, .turn => some { shared := s, task := .comparing c s.now }
  | .comparing c clock, .turn => some { shared := s, task := s.compare c clock }
  | .preparing, .turn => some { shared := s, task := .waiting }
  | .preparing, .failed => some { shared := s, task := .recording false }
  | .waiting, .turn =>
    if s.gate < gateSize then
      some { shared := { s with gate := s.gate + 1 }, task := .checking .inGate }
    else none
  | .reading, .turn =>
    some { shared := s, task := if s.breaker.openUntil ≠ 0 then .expiring else .direct }
  | .expiring, .turn => some
    { shared := { s with breaker := s.breaker.enterHalfOpenIfExpired s.now }
      task := .checking .again }
  | .direct, .turn => some { shared := s, task := .directSent, seen := [.sent] }
  | .directSent, .ok => some { shared := s, task := .leaving true }
  | .directSent, .connectFailed proxy =>
    some { shared := s, task := if proxy then .viaProxy else .leaving false }
  | .directSent, .failed => some { shared := s, task := .leaving false }
  | .viaProxy, .turn => some { shared := s, task := .proxySent, seen := [.sent] }
  | .proxySent, .ok => some { shared := s, task := .leaving true }
  | .proxySent, .connectFailed _ | .proxySent, .failed =>
    some { shared := s, task := .leaving false }
  | .leaving ok, .turn => some { shared := { s with gate := s.gate - 1 }, task := .recording ok }
  | .refused, .turn => some { shared := { s with gate := s.gate - 1 }, task := .done }
  | .recording ok, .turn =>
    some { shared := { s with breaker := s.record limits ok }, task := .done }
  | _, _ => none

def event : External → Option (Effect Client Request Sent)
  | .tick d => some { shared := { s with now := s.now + d }, spawned := [] }
  | .request => some { shared := s, spawned := [.checking .first] }
  | .setToken =>
    some { shared := { s with breaker := s.breaker.recordSuccess s.now true }, spawned := [] }

end Client

def system : System Client Request Sent Outcome External := ⟨Client.resume limits, Client.event⟩

def start : ClientPool := { shared := {} }

/-! ### An opened breaker -/

variable {limits}

namespace Breaker

variable {now : ℕ} {b b' : Breaker}

/-- The period ends within a whole period from now, and nothing is half open before its end. -/
structure Fits (limits : Limits) (now : ℕ) (b : Breaker) : Prop where
  period : b.openUntil ≤ now + limits.breakerOpenSeconds
  halfOpen : b.halfOpen = true → b.openUntil = 0

/-- What a turn does to the breaker. -/
inductive Moves (limits : Limits) (now : ℕ) (b : Breaker) : Breaker → Prop
  | none : Moves limits now b b
  | expired : Moves limits now b (b.enterHalfOpenIfExpired now)
  | success : Moves limits now b (b.recordSuccess now false)
  | failure : Moves limits now b (b.recordFailure limits now)

theorem Fits.recordSuccess (h : b.Fits limits now) (force : Bool) :
    (b.recordSuccess now force).Fits limits now := by
  unfold Breaker.recordSuccess
  split_ifs with hlate
  · exact h
  · exact ⟨Nat.zero_le _, fun hhalf => by cases hhalf⟩

theorem Fits.moves (h : b.Fits limits now) (hmoves : Moves limits now b b') :
    b'.Fits limits now := by
  cases hmoves with
  | none => exact h
  | expired =>
    unfold enterHalfOpenIfExpired
    split_ifs with hexpired
    · exact ⟨Nat.zero_le _, fun _ => rfl⟩
    · exact h
  | success => exact h.recordSuccess false
  | failure =>
    unfold recordFailure
    split_ifs with hhalf hlimit
    · exact ⟨le_refl _, fun hhalf => by cases hhalf⟩
    · exact ⟨le_refl _, fun hhalf => by cases hhalf⟩
    · exact ⟨h.period, h.halfOpen⟩

/-- Before the end of the period nothing shortens it: a late success is ignored, and a late failure
can only make it longer. -/
theorem Moves.openUntil_le (hmoves : Moves limits now b b') (h : b.Fits limits now)
    (hopen : now < b.openUntil) : b.openUntil ≤ b'.openUntil := by
  cases hmoves with
  | none => exact le_refl _
  | expired =>
    rw [enterHalfOpenIfExpired, if_neg (by omega)]
  | success =>
    rw [Breaker.recordSuccess, if_pos ⟨by decide, by omega, hopen⟩]
  | failure =>
    unfold recordFailure
    split_ifs with hhalf hlimit
    · exact h.period
    · exact h.period
    · exact le_refl _

end Breaker

/-! ### Turns -/

/-- The thread has a slot of the gate. -/
def Request.holds : Request → Bool
  | .checking .first | .comparing .first _ | .preparing | .waiting | .recording _ | .done => false
  | _ => true

/-- The calls of `_send` that are made without another look at the breaker. -/
def Request.sendsLeft : Request → ℕ
  | .direct => 2
  | .directSent | .viaProxy => 1
  | _ => 0

/-- The clock was not read in the future. -/
def Request.Past (now : ℕ) : Request → Prop
  | .comparing _ clock => clock ≤ now
  | _ => True

structure Turned (limits : Limits) (s : Client) (t : Request) (r : RequestTurn) : Prop where
  spawned : r.spawned = []
  now : r.shared.now = s.now
  gate : r.shared.gate + t.holds.toNat = s.gate + r.task.holds.toNat
  gate_le : r.shared.gate ≤ gateSize
  breaker : Breaker.Moves limits s.now s.breaker r.shared.breaker
  past : r.task.Past s.now
  sends : s.now < s.breaker.openUntil → r.seen.length + r.task.sendsLeft ≤ t.sendsLeft

theorem compare_spec {s : Client} {c : Check} {clock : ℕ} (hclock : clock ≤ s.now) :
    (s.compare c clock).holds = (Request.comparing c clock).holds ∧
      (s.compare c clock).Past s.now ∧
      (s.now < s.breaker.openUntil → (s.compare c clock).sendsLeft = 0) := by
  unfold Client.compare
  cases c <;> split_ifs with hlate <;> refine ⟨rfl, trivial, fun hopen => ?_⟩ <;>
    first | rfl | exact absurd (hclock.trans_lt hopen) hlate

/-- A turn that leaves the client as it is. -/
theorem Turned.of_task {s : Client} {t t' : Request} {seen : List Sent} (hgate : s.gate ≤ gateSize)
    (hholds : t'.holds = t.holds) (hpast : t'.Past s.now)
    (hsends : s.now < s.breaker.openUntil → seen.length + t'.sendsLeft ≤ t.sendsLeft) :
    Turned limits s t { shared := s, task := t', seen := seen } :=
  ⟨rfl, rfl, by rw [hholds], hgate, .none, hpast, hsends⟩

theorem turned {s : Client} {t : Request} {o : Outcome} {r : RequestTurn}
    (h : s.resume limits t o = some r) (hgate : s.gate ≤ gateSize)
    (hholds : t.holds = true → 0 < s.gate) (hpast : t.Past s.now) : Turned limits s t r := by
  have hleave : t.holds = true → s.gate - 1 + t.holds.toNat = s.gate := by
    intro hh
    have hpos := hholds hh
    rw [hh, Bool.toNat_true]
    omega
  unfold Client.resume at h
  split at h
  case h_1 c => cases h; exact .of_task hgate (by cases c <;> rfl) (le_refl _) fun _ => le_refl _
  case h_2 c clock =>
    cases h
    obtain ⟨hh, hp, hs⟩ := compare_spec (c := c) hpast
    exact .of_task hgate hh hp fun hopen =>
      (Nat.zero_add _).le.trans (hs hopen).le
  case h_3 => cases h; exact .of_task hgate rfl trivial fun _ => le_refl _
  case h_4 => cases h; exact .of_task hgate rfl trivial fun _ => le_refl _
  case h_5 =>
    split_ifs at h with hfree
    cases h
    exact ⟨rfl, rfl, rfl, hfree, .none, trivial, fun _ => le_refl _⟩
  case h_6 =>
    cases h
    split_ifs with hzero
    · exact .of_task hgate rfl trivial fun _ => le_refl _
    · exact .of_task hgate rfl trivial fun hopen => absurd hopen (by omega)
  case h_7 => cases h; exact ⟨rfl, rfl, rfl, hgate, .expired, trivial, fun _ => le_refl _⟩
  case h_8 => cases h; exact .of_task hgate rfl trivial fun _ => le_refl _
  case h_9 => cases h; exact .of_task hgate rfl trivial fun _ => Nat.zero_le _
  case h_10 proxy =>
    cases h
    cases proxy with
    | false => exact .of_task hgate rfl trivial fun _ => Nat.zero_le _
    | true => exact .of_task hgate rfl trivial fun _ => le_refl _
  case h_11 => cases h; exact .of_task hgate rfl trivial fun _ => Nat.zero_le _
  case h_12 => cases h; exact .of_task hgate rfl trivial fun _ => le_refl _
  case h_13 => cases h; exact .of_task hgate rfl trivial fun _ => Nat.zero_le _
  case h_14 => cases h; exact .of_task hgate rfl trivial fun _ => Nat.zero_le _
  case h_15 => cases h; exact .of_task hgate rfl trivial fun _ => Nat.zero_le _
  case h_16 ok =>
    cases h
    exact ⟨rfl, rfl, hleave rfl, (Nat.sub_le _ 1).trans hgate, .none, trivial, fun _ => le_refl _⟩
  case h_17 =>
    cases h
    exact ⟨rfl, rfl, hleave rfl, (Nat.sub_le _ 1).trans hgate, .none, trivial, fun _ => le_refl _⟩
  case h_18 ok =>
    cases h
    refine ⟨rfl, rfl, rfl, hgate, ?_, trivial, fun _ => le_refl _⟩
    cases ok with
    | false => exact .failure
    | true => exact .success
  case h_19 => cases h

/-! ### Runs -/

/-- The gate counts the threads in it, and lets no more in than its size. -/
structure Right (limits : Limits) (p : ClientPool) : Prop where
  gate : p.shared.gate = p.tasks.countP Request.holds
  gate_le : p.shared.gate ≤ gateSize
  breaker : p.shared.breaker.Fits limits p.shared.now
  past : ∀ t ∈ p.tasks, t.Past p.shared.now

/-- The calls of `_send` that are left. -/
def pending (p : ClientPool) : ℕ := (p.tasks.map Request.sendsLeft).sum

def NotForced (_ : ClientPool) : Action Outcome External → Prop
  | .event .setToken => False
  | _ => True

theorem Right.turned {p : ClientPool} (hp : Right limits p) {i : ℕ} {o : Outcome} {t : Request}
    {r : RequestTurn} (ht : p.tasks[i]? = some t)
    (hr : (system limits).resume p.shared t o = some r) : Turned limits p.shared t r := by
  refine Sha1Cloud.turned hr hp.gate_le (fun hh => ?_) (hp.past t (List.mem_of_getElem? ht))
  rw [hp.gate]
  exact List.countP_pos_iff.mpr ⟨t, List.mem_of_getElem? ht, hh⟩

theorem Request.Past.mono {now later : ℕ} {t : Request} (h : t.Past now) (hle : now ≤ later) :
    t.Past later := by
  cases t with
  | comparing c clock => exact le_trans h hle
  | _ => trivial

theorem right_step (p : ClientPool) (a : Action Outcome External) (q : ClientPool)
    (hp : Right limits p) (h : (system limits).step p a = some q) : Right limits q := by
  obtain ⟨i, o, t, r, rfl, ht, hr, rfl⟩ | ⟨e, r, rfl, hr, rfl⟩ := System.step_cases h
  · have hturned := hp.turned ht hr
    have hcount := countP_set_append Request.holds r.task r.spawned ht
    have hgate := hturned.gate
    rw [hturned.spawned, List.countP_nil] at hcount
    refine ⟨?_, hturned.gate_le, ?_, ?_⟩
    · rw [hturned.spawned]
      have hheld := hp.gate
      dsimp only
      omega
    · rw [hturned.now]
      exact hp.breaker.moves hturned.breaker
    · rw [hturned.now, hturned.spawned]
      exact forall_mem_set_append hp.past hturned.past fun x hx => absurd hx List.not_mem_nil
  · cases e with
    | tick d =>
      cases hr
      rw [List.append_nil]
      exact ⟨hp.gate, hp.gate_le, ⟨hp.breaker.period.trans (by dsimp only; omega),
        hp.breaker.halfOpen⟩, fun t ht => (hp.past t ht).mono (Nat.le_add_right _ d)⟩
    | request =>
      cases hr
      refine ⟨?_, hp.gate_le, hp.breaker, fun t ht => ?_⟩
      · rw [List.countP_append]
        exact hp.gate
      · rcases List.mem_append.mp ht with ht | ht
        · exact hp.past t ht
        · cases List.mem_singleton.mp ht
          trivial
    | setToken =>
      cases hr
      rw [List.append_nil]
      exact ⟨hp.gate, hp.gate_le, hp.breaker.recordSuccess true, hp.past⟩

theorem right_start : Right limits start :=
  ⟨rfl, Nat.zero_le _, ⟨Nat.zero_le _, fun h => by cases h⟩, fun t ht => absurd ht List.not_mem_nil⟩

/-- A step while the breaker is open. -/
theorem open_step {p q : ClientPool} {a : Action Outcome External} (hp : Right limits p)
    (ha : NotForced p a) (h : (system limits).step p a = some q)
    (hopen : p.shared.now < p.shared.breaker.openUntil) :
    p.shared.now ≤ q.shared.now ∧ p.shared.breaker.openUntil ≤ q.shared.breaker.openUntil ∧
      q.trace.length + pending q ≤ p.trace.length + pending p := by
  obtain ⟨i, o, t, r, others, rfl, ht, hr, hshared, htrace, hbefore, hafter⟩ |
    ⟨e, r, rfl, hr, hshared, htrace, hafter⟩ := System.step_perm h
  · have hturned := hp.turned ht hr
    have hsends := hturned.sends hopen
    have hsum : pending p = t.sendsLeft + (others.map Request.sendsLeft).sum :=
      (hbefore.map _).sum_eq
    have hsum' : pending q = r.task.sendsLeft + (others.map Request.sendsLeft).sum := by
      rw [hturned.spawned] at hafter
      exact (hafter.map _).sum_eq
    rw [hshared, htrace, List.length_append]
    exact ⟨hturned.now.ge, hturned.breaker.openUntil_le hp.breaker hopen, by omega⟩
  · have hsum : pending q = ((r.spawned ++ p.tasks).map Request.sendsLeft).sum :=
      (hafter.map _).sum_eq
    rw [hshared, htrace, hsum]
    cases e with
    | tick d => cases hr; exact ⟨Nat.le_add_right _ d, le_refl _, by simp [pending]⟩
    | request => cases hr; exact ⟨le_refl _, le_refl _, by simp [pending, Request.sendsLeft]⟩
    | setToken => exact absurd ha id

/-- Each thread in the gate calls `_send` twice at most. -/
theorem pending_le (p : ClientPool) : pending p ≤ 2 * p.tasks.countP Request.holds := by
  unfold pending
  induction p.tasks with
  | nil => exact le_refl _
  | cons t ts ih =>
    have ht : t.sendsLeft ≤ if t.holds = true then 2 else 0 := by
      cases t <;> first | exact Nat.zero_le _ | decide
    rw [List.map_cons, List.sum_cons, List.countP_cons]
    split_ifs at ht ⊢ <;> omega

theorem now_le_step {p q : ClientPool} {a : Action Outcome External} (hp : Right limits p)
    (h : (system limits).step p a = some q) : p.shared.now ≤ q.shared.now := by
  obtain ⟨i, o, t, r, rfl, ht, hr, rfl⟩ | ⟨e, r, rfl, hr, rfl⟩ := System.step_cases h
  · exact (hp.turned ht hr).now.ge
  · cases e <;> cases hr <;> first | exact le_refl _ | exact Nat.le_add_right _ _

theorem now_le_run {p q : ClientPool} {as : List (Action Outcome External)} (hp : Right limits p)
    (h : (system limits).run p as = some q) : p.shared.now ≤ q.shared.now := by
  induction as generalizing p with
  | nil => exact (Option.some.inj h) ▸ le_refl _
  | cons a as ih =>
    obtain ⟨p', hs, hrun⟩ := (System.run_cons _).mp h
    exact (now_le_step hp hs).trans (ih (right_step p a p' hp hs) hrun)

theorem open_run {p q : ClientPool} {as : List (Action Outcome External)} (hp : Right limits p)
    (ha : (system limits).Along NotForced p as) (h : (system limits).run p as = some q)
    (hopen : q.shared.now < p.shared.breaker.openUntil) :
    p.shared.breaker.openUntil ≤ q.shared.breaker.openUntil ∧
      q.trace.length + pending q ≤ p.trace.length + pending p := by
  induction as generalizing p with
  | nil =>
    obtain rfl := Option.some.inj h
    exact ⟨le_refl _, le_refl _⟩
  | cons a as ih =>
    obtain ⟨p', hs, hrun⟩ := (System.run_cons _).mp h
    obtain ⟨ha, has⟩ := ha p' hs
    have hp' := right_step p a p' hp hs
    have hnow := now_le_step hp hs
    have hlater := now_le_run hp' hrun
    obtain ⟨-, hle, hsends⟩ := open_step hp ha hs (by omega)
    obtain ⟨hle', hsends'⟩ := ih hp' has hrun (by omega)
    exact ⟨hle.trans hle', hsends'.trans hsends⟩

/-- Whatever the threads do, an opened breaker stays open until its period is over, unless a token
is set; until then `_send` is called twice at most for each of the threads that were in the gate. -/
theorem open_stays {p q : ClientPool} {as : List (Action Outcome External)}
    (hp : (system limits).Reachable start p) (h : (system limits).run p as = some q)
    (hforced : (system limits).Along NotForced p as)
    (hopen : q.shared.now < p.shared.breaker.openUntil) :
    p.shared.breaker.openUntil ≤ q.shared.breaker.openUntil ∧
      q.trace.length ≤ p.trace.length + 2 * p.tasks.countP Request.holds ∧
      p.tasks.countP Request.holds ≤ gateSize := by
  have hright := System.Reachable.invariant right_step right_start hp
  obtain ⟨hle, hsends⟩ := open_run hright hforced h hopen
  have hpending := pending_le p
  have hgate := hright.gate_le
  rw [hright.gate] at hgate
  exact ⟨hle, by omega, hgate⟩

instance (p : ClientPool) : ∀ a : Action Outcome External, Decidable (NotForced p a)
  | .event .setToken => .isFalse id
  | .event (.tick _) | .event .request | .resume _ _ => .isTrue trivial

/-- A request comes to the gate and through its checks, and five others fail before the gate. -/
def failures : List (Action Outcome External) :=
  .event .request :: List.replicate 7 (.resume 0 .turn) ++ (List.range 5).flatMap fun i =>
    [.event .request, .resume (i + 1) .turn, .resume (i + 1) .turn, .resume (i + 1) .failed,
      .resume (i + 1) .turn]

/-- The first request is made, directly and with the proxy, and another one is refused. -/
def late : List (Action Outcome External) :=
  [.event (.tick 298), .resume 0 .turn, .resume 0 (.connectFailed true), .event .request,
    .resume 6 .turn, .resume 6 .turn, .resume 0 .turn, .resume 0 .failed, .resume 0 .turn,
    .resume 0 .turn, .event (.tick 1)]

theorem open_stays_failures : ∃ p q, (system Sha1ApiClient.limits).Reachable start p ∧
    (system Sha1ApiClient.limits).run p late = some q ∧
    p.shared.breaker.openUntil = 300 ∧ p.tasks.countP Request.holds = 1 ∧ q.trace.length = 2 ∧
    p.shared.breaker.openUntil ≤ q.shared.breaker.openUntil ∧
    q.trace.length ≤ p.trace.length + 2 * p.tasks.countP Request.holds ∧
    p.tasks.countP Request.holds ≤ gateSize := by
  obtain ⟨p, q, hp, hq, hforced, hopen, hholds, hsent, hnow⟩ :
      ∃ p q, (system Sha1ApiClient.limits).run start failures = some p ∧
        (system Sha1ApiClient.limits).run p late = some q ∧
        (system Sha1ApiClient.limits).Along NotForced p late ∧
        p.shared.breaker.openUntil = 300 ∧ p.tasks.countP Request.holds = 1 ∧
        q.trace.length = 2 ∧ q.shared.now = 299 :=
    ⟨_, _, rfl, rfl, by decide, rfl, rfl, rfl, rfl⟩
  refine ⟨p, q, ⟨failures, hp⟩, hq, hopen, hholds, hsent, open_stays ⟨failures, hp⟩ hq hforced ?_⟩
  omega

end AllInOneBackup.Cloud123.Sha1Cloud
