import AllInOneBackup.LitePan.Playback.Transfer

/-! `accountRangeLimiter`: the requests of an account share one semaphore, which the first call for
the account makes with its own limit. A later call with a lower limit waits at the same semaphore. -/

namespace AllInOneBackup.LitePan.Playback.RangeLimiter

open Concurrency

/-! ### Calls -/

/-- A channel of `cap` slots, `len` of them in use. -/
structure Sem where
  cap : ℕ
  len : ℕ := 0

/-- `make(chan struct{}, limit)`. -/
def newSem (limit : ℤ) : Sem where
  cap := (if limit > maximumRangeConcurrency then maximumRangeConcurrency else limit).toNat

/-- `accounts`. -/
abbrev AccountRangeLimiter := ℤ → Option Sem

inductive AcquireError
  | ctx
  | timeout
  deriving DecidableEq

/-- A call of `acquireWithTimeout` before its section and in its `select`, and what it returned. Of a
granted one, `released` is the `once` of `rangeLimitRelease`; `body` is that of the `rangeLimitBody`
which has the release function since there is a response. -/
inductive Goroutine
  | acquiring (accountID limit : ℤ) (timed : Bool)
  | selecting (accountID limit : ℤ) (timed : Bool)
  | unlimited
  | granted (accountID limit : ℤ) (released : Bool) (body : Option Bool)
  | failed (err : AcquireError)
  deriving DecidableEq

/-- `sent`, `ctxDone` and `timer` are the cases of the `select`; the others are calls of the release
function, or of the methods of the body that has it. `Read` calls it when it returns an error. -/
inductive Outcome
  | turn
  | sent
  | ctxDone
  | timer
  | release
  | responded
  | read (err : Bool)
  | close
  deriving DecidableEq

/-- A call of `acquire` or `acquireBlocking`. -/
inductive Call
  | acquire (accountID limit : ℤ) (timed : Bool)
  deriving DecidableEq

abbrev LimiterTurn := Turn AccountRangeLimiter Goroutine Empty

abbrev LimiterPool := Pool AccountRangeLimiter Goroutine Empty

/-- `once.Do(func() { <-sem })`; a channel without a value would block. -/
def releaseOnce (l : AccountRangeLimiter) (accountID : ℤ) (released : Bool) :
    Option AccountRangeLimiter :=
  if released then some l
  else (l accountID).bind fun sem =>
    if 0 < sem.len then some (Function.update l accountID (some { sem with len := sem.len - 1 }))
    else none

def resume (l : AccountRangeLimiter) : Goroutine → Outcome → Option LimiterTurn
  | .acquiring accountID limit timed, .turn =>
    if accountID ≤ 0 ∨ limit ≤ 0 then some { shared := l, task := .unlimited }
    else some
      { shared := Function.update l accountID (some ((l accountID).getD (newSem limit)))
        task := .selecting accountID limit timed }
  | .selecting accountID limit _, .sent => (l accountID).bind fun sem =>
    if sem.len < sem.cap then some
      { shared := Function.update l accountID (some { sem with len := sem.len + 1 })
        task := .granted accountID limit false none }
    else none
  | .selecting _ _ _, .ctxDone => some { shared := l, task := .failed .ctx }
  | .selecting _ _ true, .timer => some { shared := l, task := .failed .timeout }
  | .granted accountID limit released none, .release =>
    (releaseOnce l accountID released).map fun l =>
      { shared := l, task := .granted accountID limit true none }
  | .granted accountID limit released none, .responded =>
    some { shared := l, task := .granted accountID limit released (some false) }
  | .granted accountID limit released (some once), .read err =>
    if err ∧ ¬once then (releaseOnce l accountID released).map fun l =>
      { shared := l, task := .granted accountID limit true (some true) }
    else some { shared := l, task := .granted accountID limit released (some once) }
  | .granted accountID limit released (some once), .close =>
    if once then some { shared := l, task := .granted accountID limit released (some true) }
    else (releaseOnce l accountID released).map fun l =>
      { shared := l, task := .granted accountID limit true (some true) }
  | _, _ => none

def event (l : AccountRangeLimiter) : Call → Option (Effect AccountRangeLimiter Goroutine Empty)
  | .acquire accountID limit timed =>
    some { shared := l, spawned := [.acquiring accountID limit timed] }

def system : System AccountRangeLimiter Goroutine Empty Outcome Call := ⟨resume, event⟩

def newLimiter : LimiterPool where
  shared := fun _ => none

/-! ### The property and the condition -/

/-- Granted, and its release function has not been called. -/
def Goroutine.holds (accountID : ℤ) : Goroutine → Bool
  | .granted a _ false _ => a = accountID
  | _ => false

def holders (p : LimiterPool) (accountID : ℤ) : ℕ := p.tasks.countP (·.holds accountID)

def slots (l : AccountRangeLimiter) (accountID : ℤ) : ℕ := (l accountID).elim 0 Sem.len

/-- A call that is granted now is, with those that hold a slot, within the limit it was given. -/
def WithinLimit (p : LimiterPool) : Action Outcome Call → Prop
  | .resume i .sent => match p.tasks[i]? with
    | some (.selecting accountID limit _) => (holders p accountID : ℤ) + 1 ≤ limit
    | _ => True
  | _ => True

instance (p : LimiterPool) (a : Action Outcome Call) : Decidable (WithinLimit p a) := by
  unfold WithinLimit
  split
  · split <;> infer_instance
  · infer_instance

/-- A call that comes to a semaphore is not given a limit below its size. -/
def Agrees (p : LimiterPool) : Action Outcome Call → Prop
  | .resume i .turn => match p.tasks[i]? with
    | some (.acquiring accountID limit _) =>
      0 < accountID → 0 < limit → ((p.shared accountID).elim 0 Sem.cap : ℕ) ≤ limit
    | _ => True
  | _ => True

instance (p : LimiterPool) (a : Action Outcome Call) : Decidable (Agrees p a) := by
  unfold Agrees
  split
  · split <;> infer_instance
  · infer_instance

/-! ### Turns -/

section Turns

variable {l l' : AccountRangeLimiter} {t : Goroutine} {o : Outcome} {r : LimiterTurn}

theorem releaseOnce_slots {accountID : ℤ} {released : Bool}
    (h : releaseOnce l accountID released = some l') (a : ℤ) :
    slots l' a + (!released && decide (accountID = a)).toNat = slots l a := by
  cases released with
  | true =>
    obtain rfl := Option.some.inj h
    rfl
  | false =>
    obtain ⟨sem, hsem, h⟩ := Option.bind_eq_some_iff.mp h
    split_ifs at h with hpos
    obtain rfl := Option.some.inj h
    by_cases ha : accountID = a
    · subst ha
      simp only [slots, Function.update_self, hsem, Option.elim_some, Bool.not_false,
        decide_true, Bool.and_self, Bool.toNat_true]
      omega
    · simp [slots, ha, Function.update_of_ne (Ne.symm ha)]

/-- A semaphore stays, with its size. -/
def Keeps (l l' : AccountRangeLimiter) : Prop :=
  ∀ a sem, l a = some sem → ∃ sem', l' a = some sem' ∧ sem'.cap = sem.cap

theorem Keeps.refl (l : AccountRangeLimiter) : Keeps l l := fun _ sem h => ⟨sem, h, rfl⟩

theorem keeps_update {accountID : ℤ} {sem : Sem}
    (h : ∀ old, l accountID = some old → sem.cap = old.cap) :
    Keeps l (Function.update l accountID (some sem)) := by
  intro a old ha
  by_cases haccount : a = accountID
  · subst haccount
    exact ⟨sem, Function.update_self .., h old ha⟩
  · exact ⟨old, by rwa [Function.update_of_ne haccount], rfl⟩

theorem releaseOnce_keeps {accountID : ℤ} {released : Bool}
    (h : releaseOnce l accountID released = some l') : Keeps l l' := by
  cases released with
  | true =>
    obtain rfl := Option.some.inj h
    exact .refl _
  | false =>
    obtain ⟨sem, hsem, h⟩ := Option.bind_eq_some_iff.mp h
    split_ifs at h with hpos
    obtain rfl := Option.some.inj h
    exact keeps_update fun old hold => by simp [Option.some.inj (hsem.symm.trans hold)]

theorem slots_update_getD (accountID limit a : ℤ) :
    slots (Function.update l accountID (some ((l accountID).getD (newSem limit)))) a =
      slots l a := by
  by_cases ha : a = accountID
  · subst ha
    cases hl : l a <;> simp [slots, hl, newSem]
  · simp [slots, Function.update_of_ne ha]

theorem slots_update (accountID : ℤ) (sem : Sem) (a : ℤ) :
    slots (Function.update l accountID (some sem)) a =
      if a = accountID then sem.len else slots l a := by
  by_cases ha : a = accountID
  · simp [slots, ha]
  · simp [slots, ha]

/-- A task that does not hold a slot, before or after it releases one that it held. -/
theorem holds_granted (a accountID limit : ℤ) (released : Bool) (body : Option Bool) :
    (Goroutine.granted accountID limit released body).holds a =
      (!released && decide (accountID = a)) := by
  cases released <;> rfl

/-- What a turn does to the slots of each account, that it keeps the semaphores, and which calls it
brings to one. -/
structure Spec (l : AccountRangeLimiter) (t : Goroutine) (r : LimiterTurn) : Prop where
  slots : ∀ a, slots r.shared a + (t.holds a).toNat = slots l a + (r.task.holds a).toNat
  keeps : Keeps l r.shared
  spawned : r.spawned = []
  selecting : ∀ a limit timed, r.task = .selecting a limit timed →
    t = .acquiring a limit timed ∧ 0 < a ∧ 0 < limit ∧
      r.shared a = some ((l a).getD (newSem limit))

theorem spec_unchanged (ht : ∀ a, t.holds a = r.task.holds a) (hshared : r.shared = l)
    (hspawned : r.spawned = []) (htask : ∀ a limit timed, r.task ≠ .selecting a limit timed) :
    Spec l t r where
  slots a := by rw [hshared, ht]
  keeps := hshared ▸ .refl l
  spawned := hspawned
  selecting a limit timed h := absurd h (htask a limit timed)

theorem spec_released {accountID limit : ℤ} {released : Bool} {body once : Option Bool}
    (h : releaseOnce l accountID released = some l') :
    Spec l (.granted accountID limit released body)
      { shared := l', task := .granted accountID limit true once } where
  slots a := by
    have hslots := releaseOnce_slots h a
    simp only [holds_granted, Bool.not_true, Bool.false_and, Bool.toNat_false, Nat.add_zero,
      hslots]
  keeps := releaseOnce_keeps h
  spawned := rfl
  selecting _ _ _ h := by cases h

theorem spec_acquiring {accountID limit : ℤ} {timed : Bool} (hno : ¬(accountID ≤ 0 ∨ limit ≤ 0)) :
    Spec l (.acquiring accountID limit timed)
      { shared := Function.update l accountID (some ((l accountID).getD (newSem limit)))
        task := .selecting accountID limit timed } where
  slots a := by
    rw [slots_update_getD]
    rfl
  keeps := keeps_update fun old hold => by simp [hold]
  spawned := rfl
  selecting a limit' timed' h := by
    cases h
    rw [not_or, not_le, not_le] at hno
    exact ⟨rfl, hno.1, hno.2, Function.update_self ..⟩

theorem spec_granted {accountID limit : ℤ} {timed : Bool} {sem : Sem}
    (hsem : l accountID = some sem) :
    Spec l (.selecting accountID limit timed)
      { shared := Function.update l accountID (some { sem with len := sem.len + 1 })
        task := .granted accountID limit false none } where
  slots a := by
    have hold : RangeLimiter.slots l accountID = sem.len := by simp [RangeLimiter.slots, hsem]
    simp only [slots_update, Goroutine.holds]
    by_cases ha : a = accountID
    · subst ha
      simp [hold]
    · simp [ha, Ne.symm ha]
  keeps := keeps_update fun old hold => by simp [Option.some.inj (hsem.symm.trans hold)]
  spawned := rfl
  selecting _ _ _ h := by cases h

theorem resume_spec (h : resume l t o = some r) : Spec l t r := by
  cases t with
  | acquiring accountID limit timed =>
    cases o <;> simp only [resume, reduceCtorEq] at h
    split_ifs at h with hno
    · obtain rfl := Option.some.inj h
      exact spec_unchanged (fun _ => rfl) rfl rfl (by simp)
    · obtain rfl := Option.some.inj h
      exact spec_acquiring hno
  | selecting accountID limit timed =>
    cases o <;> simp only [resume, reduceCtorEq] at h
    case sent =>
      obtain ⟨sem, hsem, h⟩ := Option.bind_eq_some_iff.mp h
      split_ifs at h with hlt
      obtain rfl := Option.some.inj h
      exact spec_granted hsem
    case ctxDone =>
      obtain rfl := Option.some.inj h
      exact spec_unchanged (fun _ => rfl) rfl rfl (by simp)
    case timer =>
      cases timed <;> simp only [reduceCtorEq] at h
      obtain rfl := Option.some.inj h
      exact spec_unchanged (fun _ => rfl) rfl rfl (by simp)
  | unlimited => cases o <;> simp [resume] at h
  | granted accountID limit released body =>
    cases body with
    | none =>
      cases o <;> simp only [resume, reduceCtorEq] at h
      case release =>
        obtain ⟨l', hl', rfl⟩ := Option.map_eq_some_iff.mp h
        exact spec_released hl'
      case responded =>
        obtain rfl := Option.some.inj h
        exact spec_unchanged (fun _ => by simp only [holds_granted]) rfl rfl (by simp)
    | some once =>
      cases o <;> simp only [resume, reduceCtorEq] at h
      case read err =>
        split_ifs at h
        · obtain ⟨l', hl', rfl⟩ := Option.map_eq_some_iff.mp h
          exact spec_released hl'
        · obtain rfl := Option.some.inj h
          exact spec_unchanged (fun _ => rfl) rfl rfl (by simp)
      case close =>
        split_ifs at h
        · obtain rfl := Option.some.inj h
          exact spec_unchanged (fun _ => by simp only [holds_granted]) rfl rfl (by simp)
        · obtain ⟨l', hl', rfl⟩ := Option.map_eq_some_iff.mp h
          exact spec_released hl'
  | failed err => cases o <;> simp [resume] at h

end Turns

/-! ### Runs -/

/-- The slots in use are those of the holders; a second release frees no slot of another one. -/
def SlotsRight (p : LimiterPool) : Prop := ∀ a, slots p.shared a = holders p a

theorem slotsRight_step {p q : LimiterPool} {a : Action Outcome Call} (hp : SlotsRight p)
    (h : system.step p a = some q) : SlotsRight q := by
  intro account
  obtain ⟨i, o, t, r, rfl, ht, hr, rfl⟩ | ⟨⟨accountID, limit, timed⟩, r, rfl, he, rfl⟩ :=
    System.step_cases h
  · have hspec := resume_spec hr
    have hcount := countP_set_append (·.holds account) r.task r.spawned ht
    have hslots := hspec.slots account
    have hold : slots p.shared account = p.tasks.countP (·.holds account) := hp account
    rw [hspec.spawned, List.countP_nil, Nat.add_zero] at hcount
    rw [holders, hspec.spawned]
    simp only
    omega
  · obtain rfl := Option.some.inj he
    rw [holders, List.countP_append]
    exact hp account

/-- A call waits at a semaphore whose size is within its limit. -/
def Fits (l : AccountRangeLimiter) : Goroutine → Prop
  | .selecting accountID limit _ => ∃ sem, l accountID = some sem ∧ (sem.cap : ℤ) ≤ limit
  | _ => True

theorem Fits.keeps {l l' : AccountRangeLimiter} {t : Goroutine} (ht : Fits l t) (h : Keeps l l') :
    Fits l' t := by
  cases t with
  | selecting accountID limit timed =>
    obtain ⟨sem, hsem, hle⟩ := ht
    obtain ⟨sem', hsem', hcap⟩ := h accountID sem hsem
    exact ⟨sem', hsem', hcap ▸ hle⟩
  | _ => trivial

theorem newSem_cap_le {limit : ℤ} (h : 0 < limit) : ((newSem limit).cap : ℤ) ≤ limit := by
  simp only [newSem, maximumRangeConcurrency]
  split_ifs <;> omega

/-- A call that agrees with the semaphore of its account fits it. -/
theorem fits_resume {p : LimiterPool} {i : ℕ} {t : Goroutine} {o : Outcome} {r : LimiterTurn}
    (ht : p.tasks[i]? = some t) (hagrees : Agrees p (.resume i o))
    (h : resume p.shared t o = some r) : Fits r.shared r.task := by
  cases htask : r.task with
  | selecting accountID limit timed =>
    obtain ⟨rfl, haccount, hlimit, hshared⟩ := (resume_spec h).selecting _ _ _ htask
    have ho : o = .turn := by
      cases o <;> simp [resume] at h ⊢
    subst ho
    simp only [Agrees, ht] at hagrees
    have hle := hagrees haccount hlimit
    refine ⟨_, hshared, ?_⟩
    cases hold : p.shared accountID with
    | none => exact newSem_cap_le hlimit
    | some sem => simpa [hold] using hle
  | _ => trivial

theorem fits_step {p q : LimiterPool} {a : Action Outcome Call}
    (hp : ∀ t ∈ p.tasks, Fits p.shared t) (hagrees : Agrees p a) (h : system.step p a = some q) :
    ∀ t ∈ q.tasks, Fits q.shared t := by
  obtain ⟨i, o, t, r, rfl, ht, hr, rfl⟩ | ⟨⟨accountID, limit, timed⟩, r, rfl, he, rfl⟩ :=
    System.step_cases h
  · have hspec := resume_spec hr
    refine forall_mem_set_append (fun x hx => (hp x hx).keeps hspec.keeps)
      (fits_resume ht hagrees hr) ?_
    rw [hspec.spawned]
    exact fun x hx => absurd hx List.not_mem_nil
  · obtain rfl := Option.some.inj he
    intro x hx
    rcases List.mem_append.mp hx with hx | hx
    · exact hp x hx
    · obtain rfl := List.mem_singleton.mp hx
      trivial

/-- A slot that is free at a semaphore that fits the call is within its limit. -/
theorem withinLimit_of_fits {p q : LimiterPool} {a : Action Outcome Call} (hslots : SlotsRight p)
    (hfits : ∀ t ∈ p.tasks, Fits p.shared t) (h : system.step p a = some q) : WithinLimit p a := by
  unfold WithinLimit
  split
  case h_2 => trivial
  case h_1 i =>
    split
    case h_2 => trivial
    case h_1 accountID limit timed ht =>
      obtain ⟨sem, hsem, hle⟩ := hfits _ (List.mem_of_getElem? ht)
      have hlt : sem.len < sem.cap := by
        by_contra hlt
        simp [System.step, ht, system, resume, hsem, hlt] at h
      have hheld : slots p.shared accountID = sem.len := by simp [slots, hsem]
      rw [← hslots accountID, hheld]
      omega

/-- In every run the slots in use are those of the calls that were granted and have not been
released; where every call agrees with the semaphore of its account, every grant is within the limit
of its call. -/
theorem grants_within_limits (as : List (Action Outcome Call)) :
    system.Throughout SlotsRight newLimiter as ∧
      (system.Along Agrees newLimiter as → system.Along WithinLimit newLimiter as) := by
  have hstart : SlotsRight newLimiter := fun a => rfl
  refine ⟨System.throughout_of_step (fun p a q => slotsRight_step) hstart as, fun hagrees => ?_⟩
  refine System.Along.imp (I := fun p => SlotsRight p ∧ ∀ t ∈ p.tasks, Fits p.shared t)
    (fun p a q hp ha hs => ⟨slotsRight_step hp.1 hs, fits_step hp.2 ha hs⟩)
    (fun p a q hp _ hs => withinLimit_of_fits hp.1 hp.2 hs) ⟨hstart, ?_⟩ hagrees
  exact fun t ht => absurd ht List.not_mem_nil

/-- Two calls with the limits 2 and 3, one released twice. -/
theorem grants_within_limits_twice :
    system.Along WithinLimit newLimiter
      [.event (.acquire 1 2 false), .resume 0 .turn, .resume 0 .sent, .event (.acquire 1 3 true),
        .resume 1 .turn, .resume 1 .sent, .resume 0 .release, .resume 0 .release] :=
  (grants_within_limits _).2 (by decide)

/-- The second call is granted with the limit 1 while the first one holds a slot. -/
theorem limit_exceeded :
    ¬system.Along WithinLimit newLimiter
      [.event (.acquire 1 2 false), .resume 0 .turn, .resume 0 .sent, .event (.acquire 1 1 false),
        .resume 1 .turn, .resume 1 .sent] := by
  decide

end AllInOneBackup.LitePan.Playback.RangeLimiter
