import AllInOneBackup.Concurrency.Turns
import AllInOneBackup.LitePan.Playback.Transfer

/-! The requests of `downloadTransferPart`. A refreshed link gives the attempt back, so what bounds
the loop is the generation of the link as well: a part that goes on after a refresh has then seen a
later one, and there are no more generations than refreshes. -/

namespace AllInOneBackup.LitePan.Playback.PartRequests

open Concurrency

/-! ### The link -/

structure LinkHolder where
  link : String
  generation : ℤ := 0
  refreshLeft : ℤ
  deriving DecidableEq

/-- `refreshVersion`, where `Resolve` gives a new link or an error. -/
def LinkHolder.refreshVersion (lh : LinkHolder) (failed : String) (generation : ℤ)
    (resolved : Option String) : LinkHolder × Option Bool :=
  if lh.link ≠ failed ∨ generation ≥ 0 ∧ lh.generation ≠ generation then (lh, some true)
  else if lh.refreshLeft ≤ 0 then (lh, some false)
  else match resolved with
    | none => ({ lh with refreshLeft := lh.refreshLeft - 1 }, none)
    | some link =>
      ({ link, generation := lh.generation + 1, refreshLeft := lh.refreshLeft - 1 }, some true)

/-! ### A part -/

/-- The bytes of a part, of a file of `size` bytes. -/
structure Part where
  start : ℕ
  last : ℕ
  size : ℕ
  start_le : start ≤ last
  deriving DecidableEq

/-- Of `contentRange`, what `Sscanf` reads. -/
structure Response where
  status : ℕ
  contentLength : ℤ
  contentRange : Option (ℤ × ℤ × ℤ)
  deriving DecidableEq

def validateTransferRange (resp : Response) (start last size : ℕ) : Bool :=
  let want : ℤ := last - start + 1
  if resp.status = 200 ∧ start = 0 ∧ (last : ℤ) = size - 1 ∧ resp.contentLength = want then true
  else if resp.status ≠ 206 then false
  else resp.contentRange = some ((start : ℤ), (last : ℤ), (size : ℤ)) ∧
    ¬(resp.contentLength ≥ 0 ∧ resp.contentLength ≠ want)

/-- A part in the body of its loop, in the order of the source: in the first `waitCoolDown`, in
`waitTransferRetry`, in `acquireBlocking`, in the second `waitCoolDown`, before it reads the link,
in its request, in `refreshVersion`, and in `CopyBuffer`. `offset` is that of its writer. -/
inductive Goroutine
  | cooling (part : Part) (attempt : ℤ) (offset : ℕ)
  | delaying (part : Part) (attempt : ℤ) (offset : ℕ)
  | acquiring (part : Part) (attempt : ℤ) (offset : ℕ)
  | recooling (part : Part) (attempt : ℤ) (offset : ℕ)
  | linking (part : Part) (attempt : ℤ) (offset : ℕ)
  | requesting (part : Part) (attempt : ℤ) (offset : ℕ) (link : String) (generation : ℤ)
  | refreshing (part : Part) (attempt : ℤ) (offset : ℕ) (link : String) (generation : ℤ)
  | copying (part : Part) (attempt : ℤ) (offset : ℕ)
  | returned (err : Option TransferError)
  deriving DecidableEq

/-- `done` and `failed` end a wait. `response` and `requestErr` end a request, `resolved` a refresh.
`write` is a `Write` of the writer with the bytes that it wrote, and whether it set `w.err`. -/
inductive Outcome
  | done
  | failed (err : TransferError)
  | requestErr
  | response (resp : Response)
  | resolved (link : Option String)
  | write (n : ℕ) (err : Bool)
  | bodyEnded
  deriving DecidableEq

abbrev PartTurn := Turn LinkHolder Goroutine Empty

abbrev PartPool := Pool LinkHolder Goroutine Empty

/-- `attempt++`, and the condition of the loop. -/
def again (part : Part) (attempt : ℤ) (offset : ℕ) : Goroutine :=
  if attempt + 1 < transferRetries then .cooling part (attempt + 1) offset
  else .returned (some .other)

def isExpired (status : ℕ) : Bool := status = 401 ∨ status = 403 ∨ status = 404

def isTemporary (status : ℕ) : Bool := status = 429 ∨ status = 408 ∨ status ≥ 500

def resume (lh : LinkHolder) : Goroutine → Outcome → Option PartTurn
  | .cooling part attempt offset, .done =>
    some
      { shared := lh
        task := if attempt > 0 then .delaying part attempt offset
          else .acquiring part attempt offset }
  | .cooling _ _ _, .failed err => some { shared := lh, task := .returned err }
  | .delaying part attempt offset, .done =>
    some { shared := lh, task := .acquiring part attempt offset }
  | .delaying _ _ _, .failed err => some { shared := lh, task := .returned err }
  | .acquiring part attempt offset, .done =>
    some { shared := lh, task := .recooling part attempt offset }
  | .acquiring _ _ _, .failed err => some { shared := lh, task := .returned err }
  | .recooling part attempt offset, .done =>
    some { shared := lh, task := .linking part attempt offset }
  | .recooling _ _ _, .failed err => some { shared := lh, task := .returned err }
  | .linking part attempt offset, .done =>
    some { shared := lh, task := .requesting part attempt offset lh.link lh.generation }
  | .requesting part attempt offset _ _, .requestErr =>
    some { shared := lh, task := again part attempt offset }
  | .requesting part attempt offset link generation, .response resp =>
    some
      { shared := lh
        task := if isExpired resp.status then .refreshing part attempt offset link generation
          else if isTemporary resp.status then again part attempt offset
          else if validateTransferRange resp offset part.last part.size then
            .copying part attempt offset
          else .returned (some .other) }
  | .refreshing part attempt offset link generation, .resolved resolved =>
    let (lh, refreshed) := lh.refreshVersion link generation resolved
    some
      { shared := lh
        -- A refresh does not count as an attempt.
        task := if refreshed = some true then again part (attempt - 1) offset
          else .returned (some .other) }
  | .copying part attempt offset, .write n err =>
    if offset + n ≤ part.last + 1 ∧ (err ∨ 0 < n) then some
      { shared := lh
        task := if err then .returned (some .other) else .copying part attempt (offset + n) }
    else none
  | .copying part attempt offset, .bodyEnded =>
    some
      { shared := lh
        task := if offset = part.last + 1 then .returned none else again part attempt offset }
  | _, _ => none

/-- Another part is begun. -/
def event (lh : LinkHolder) (part : Part) : Option (Effect LinkHolder Goroutine Empty) :=
  some { shared := lh, spawned := [.cooling part 0 part.start] }

def system : System LinkHolder Goroutine Empty Outcome Part := ⟨resume, event⟩

def transferRefreshes : ℕ := 8

/-- `originalLinkHolder`, with any number of refreshes. -/
def newHolder (link : String) (refreshes : ℕ) : PartPool where
  shared := { link, refreshLeft := refreshes }

/-! ### What holds of every part -/

/-- What a part knows of the link: an earlier generation, or the present link. -/
structure Knows (lh : LinkHolder) (link : String) (generation : ℤ) : Prop where
  nonneg : 0 ≤ generation
  le : generation ≤ lh.generation
  link : generation = lh.generation → link = lh.link

/-- The attempt is one of the loop, and the writer is within the part. -/
structure Within (part : Part) (attempt : ℤ) (offset : ℕ) : Prop where
  nonneg : 0 ≤ attempt
  lt : attempt < transferRetries
  le : offset ≤ part.last + 1

def Ok (lh : LinkHolder) : Goroutine → Prop
  | .cooling part attempt offset | .delaying part attempt offset | .acquiring part attempt offset
  | .recooling part attempt offset | .linking part attempt offset
  | .copying part attempt offset => Within part attempt offset
  | .requesting part attempt offset link generation
  | .refreshing part attempt offset link generation =>
    Within part attempt offset ∧ Knows lh link generation
  | .returned _ => True

/-- The link moves on: a new one is of a later generation, and the refreshes pay for it. -/
structure Later (lh lh' : LinkHolder) : Prop where
  generation : lh.generation ≤ lh'.generation
  paid : lh'.generation + lh'.refreshLeft ≤ lh.generation + lh.refreshLeft
  left : lh'.refreshLeft ≤ lh.refreshLeft
  nonneg : 0 ≤ lh.refreshLeft → 0 ≤ lh'.refreshLeft
  link : lh'.generation = lh.generation → lh'.link = lh.link

theorem Later.refl (lh : LinkHolder) : Later lh lh := ⟨le_rfl, le_rfl, le_rfl, id, fun _ => rfl⟩

theorem Later.trans {lh lh' lh'' : LinkHolder} (h : Later lh lh') (h' : Later lh' lh'') :
    Later lh lh'' where
  generation := h.generation.trans h'.generation
  paid := h'.paid.trans h.paid
  left := h'.left.trans h.left
  nonneg := h'.nonneg ∘ h.nonneg
  link heq := by
    have hle := h.generation
    have hle' := h'.generation
    rw [h'.link (by omega), h.link (by omega)]

theorem Knows.later {lh lh' : LinkHolder} {link : String} {generation : ℤ}
    (h : Knows lh link generation) (hl : Later lh lh') : Knows lh' link generation where
  nonneg := h.nonneg
  le := h.le.trans hl.generation
  link heq := by
    have hle := h.le
    have hgeneration := hl.generation
    have hsame : lh'.generation = lh.generation := by omega
    rw [hl.link hsame]
    exact h.link (heq.trans hsame)

theorem Ok.later {lh lh' : LinkHolder} {t : Goroutine} (h : Ok lh t) (hl : Later lh lh') :
    Ok lh' t := by
  cases t with
  | requesting | refreshing => exact ⟨h.1, h.2.later hl⟩
  | _ => exact h

/-- A refresh that succeeds has led to a generation that the part has not seen. -/
theorem refreshVersion_spec {lh : LinkHolder} {link : String} {generation : ℤ}
    (h : Knows lh link generation) (resolved : Option String) :
    Later lh (lh.refreshVersion link generation resolved).1 ∧
      ((lh.refreshVersion link generation resolved).2 = some true →
        generation < (lh.refreshVersion link generation resolved).1.generation) := by
  have hle := h.le
  unfold LinkHolder.refreshVersion
  split_ifs with hmoved hleft
  · refine ⟨.refl lh, fun _ => ?_⟩
    rcases hmoved with hlink | ⟨-, hne⟩
    · exact lt_of_le_of_ne hle fun heq => hlink (h.link heq).symm
    · exact lt_of_le_of_ne hle (Ne.symm hne)
  · exact ⟨.refl lh, by simp⟩
  · cases resolved with
    | none => exact ⟨⟨le_rfl, by simp, by simp, fun _ => by simp only; omega, fun _ => rfl⟩, by simp⟩
    | some link' =>
      refine ⟨⟨by simp, by simp only; omega, by simp, fun _ => by simp only; omega, ?_⟩,
        fun _ => by simp only; omega⟩
      intro heq
      simp at heq

/-! ### Potentials -/

/-- The requests that attempts are left for, less the generation that the part has seen. -/
def requestsLeft (lh : LinkHolder) : Goroutine → ℤ
  | .cooling _ attempt _ | .delaying _ attempt _ | .acquiring _ attempt _ | .recooling _ attempt _
  | .linking _ attempt _ => transferRetries - attempt - lh.generation
  | .requesting _ attempt _ _ generation => transferRetries - attempt - generation
  | .refreshing _ attempt _ _ generation => transferRetries - attempt - generation - 1
  | .copying _ attempt _ => transferRetries - attempt - 1 - lh.generation
  | .returned _ => -lh.generation

/-- The rounds of the loop that attempts and refreshes are left for. -/
def roundsLeft (lh : LinkHolder) : Goroutine → ℤ
  | .cooling _ attempt _ | .delaying _ attempt _ | .acquiring _ attempt _ | .recooling _ attempt _
  | .linking _ attempt _ | .copying _ attempt _ => transferRetries - attempt + lh.refreshLeft
  | .requesting _ attempt _ _ generation | .refreshing _ attempt _ _ generation =>
    transferRetries - attempt + (lh.refreshLeft + lh.generation - generation)
  | .returned _ => 0

/-- The turns that are left in a round, apart from the writes. -/
def stage : Goroutine → ℤ
  | .cooling _ _ _ => 7
  | .delaying _ _ _ => 6
  | .acquiring _ _ _ => 5
  | .recooling _ _ _ => 4
  | .linking _ _ _ => 3
  | .requesting _ _ _ _ _ => 2
  | .refreshing _ _ _ _ _ | .copying _ _ _ => 1
  | .returned _ => 0

def bytesLeft : Goroutine → ℤ
  | .cooling part _ offset | .delaying part _ offset | .acquiring part _ offset
  | .recooling part _ offset | .linking part _ offset | .requesting part _ offset _ _
  | .refreshing part _ offset _ _ | .copying part _ offset => part.last + 1 - offset
  | .returned _ => 0

def turnsLeft (lh : LinkHolder) (t : Goroutine) : ℤ := 8 * roundsLeft lh t + stage t + bytesLeft t

def Goroutine.requests : Goroutine → Bool
  | .requesting _ _ _ _ _ => true
  | _ => false

section Turns

variable {lh : LinkHolder} {t : Goroutine} {o : Outcome} {r : PartTurn}

/-- What a turn does to the link and to its part. -/
structure Spec (lh : LinkHolder) (t : Goroutine) (r : PartTurn) : Prop where
  later : Later lh r.shared
  ok : Ok r.shared r.task
  spawned : r.spawned = []
  requests : t.requests.toNat + requestsLeft r.shared r.task ≤ requestsLeft lh t
  turns : 1 + turnsLeft r.shared r.task ≤ turnsLeft lh t

/-- The end of an attempt, which the loop may follow with another one. -/
theorem again_spec (lh : LinkHolder) {part : Part} {attempt : ℤ} {offset : ℕ} (hlower : -1 ≤ attempt)
    (hlt : attempt < transferRetries) (hle : offset ≤ part.last + 1) (hleft : 0 ≤ lh.refreshLeft) :
    Ok lh (again part attempt offset) ∧
      requestsLeft lh (again part attempt offset) ≤
        transferRetries - attempt - 1 - lh.generation ∧
      turnsLeft lh (again part attempt offset) ≤
        8 * (transferRetries - attempt - 1 + lh.refreshLeft) + 7 + (part.last + 1 - offset) := by
  unfold again
  split_ifs with hmore
  · refine ⟨⟨by omega, hmore, hle⟩, ?_, ?_⟩
    · simp only [requestsLeft]
      omega
    · simp only [turnsLeft, roundsLeft, stage, bytesLeft]
      omega
  · refine ⟨trivial, ?_, ?_⟩
    · simp only [requestsLeft]
      omega
    · simp only [turnsLeft, roundsLeft, stage, bytesLeft]
      omega

/-- A part that has begun an attempt has turns and attempts left. -/
theorem left_of_ok (ht : Ok lh t) (hleft : 0 ≤ lh.refreshLeft)
    (hgoing : ∀ err, t ≠ .returned err) :
    t.requests.toNat - lh.generation ≤ requestsLeft lh t ∧ 1 ≤ turnsLeft lh t := by
  cases t with
  | requesting | refreshing =>
    obtain ⟨⟨hnonneg, hlt, hle⟩, -, hseen, -⟩ := ht
    simp only [Goroutine.requests, requestsLeft, turnsLeft, roundsLeft, stage, bytesLeft,
      Bool.toNat_true, Bool.toNat_false]
    constructor <;> omega
  | returned err => exact absurd rfl (hgoing err)
  | _ =>
    obtain ⟨hnonneg, hlt, hle⟩ := ht
    simp only [Goroutine.requests, requestsLeft, turnsLeft, roundsLeft, stage, bytesLeft,
      Bool.toNat_false]
    constructor <;> omega

theorem spec_returned (ht : Ok lh t) (hleft : 0 ≤ lh.refreshLeft)
    (hgoing : ∀ err, t ≠ .returned err) (err : Option TransferError) :
    Spec lh t { shared := lh, task := .returned err } where
  later := .refl lh
  ok := trivial
  spawned := rfl
  requests := by
    have hrequests := (left_of_ok ht hleft hgoing).1
    change (t.requests.toNat : ℤ) + -lh.generation ≤ requestsLeft lh t
    omega
  turns := (left_of_ok ht hleft hgoing).2

/-- A wait is over: the next one of the round begins. -/
theorem spec_next {t' : Goroutine} (ht' : Ok lh t') (hgoing : t.requests = false)
    (hrequests : requestsLeft lh t' = requestsLeft lh t) (hrounds : roundsLeft lh t' = roundsLeft lh t)
    (hbytes : bytesLeft t' = bytesLeft t) (hstage : stage t' < stage t) :
    Spec lh t { shared := lh, task := t' } where
  later := .refl lh
  ok := ht'
  spawned := rfl
  requests := by rw [hgoing, hrequests, Bool.toNat_false, Nat.cast_zero, zero_add]
  turns := by
    simp only [turnsLeft, hrounds, hbytes]
    omega

/-- The attempt of a request or of a body is over. -/
theorem spec_again {part : Part} {attempt : ℤ} {offset : ℕ} (hwithin : Within part attempt offset)
    (hleft : 0 ≤ lh.refreshLeft)
    (hrequests : t.requests.toNat + (transferRetries - attempt - 1 - lh.generation) ≤
      requestsLeft lh t)
    (hturns : 8 * (transferRetries - attempt - 1 + lh.refreshLeft) + 8 + (part.last + 1 - offset) ≤
      turnsLeft lh t) : Spec lh t { shared := lh, task := again part attempt offset } := by
  obtain ⟨hok, hreq, hturn⟩ :=
    again_spec lh (by have := hwithin.nonneg; omega) hwithin.lt hwithin.le hleft
  exact ⟨.refl lh, hok, rfl, by simp only; omega, by simp only; omega⟩

theorem resume_spec (ht : Ok lh t) (hleft : 0 ≤ lh.refreshLeft) (hgeneration : 0 ≤ lh.generation)
    (h : resume lh t o = some r) :
    Spec lh t r := by
  cases t with
  | cooling part attempt offset =>
    cases o <;> simp only [resume, reduceCtorEq] at h <;> obtain rfl := Option.some.inj h
    case done =>
      split_ifs
      · exact spec_next ht rfl rfl rfl rfl (by simp [stage])
      · exact spec_next ht rfl rfl rfl rfl (by simp [stage])
    case failed err => exact spec_returned ht hleft (by simp) err
  | delaying part attempt offset =>
    cases o <;> simp only [resume, reduceCtorEq] at h <;> obtain rfl := Option.some.inj h
    case done => exact spec_next ht rfl rfl rfl rfl (by simp [stage])
    case failed err => exact spec_returned ht hleft (by simp) err
  | acquiring part attempt offset =>
    cases o <;> simp only [resume, reduceCtorEq] at h <;> obtain rfl := Option.some.inj h
    case done => exact spec_next ht rfl rfl rfl rfl (by simp [stage])
    case failed err => exact spec_returned ht hleft (by simp) err
  | recooling part attempt offset =>
    cases o <;> simp only [resume, reduceCtorEq] at h <;> obtain rfl := Option.some.inj h
    case done => exact spec_next ht rfl rfl rfl rfl (by simp [stage])
    case failed err => exact spec_returned ht hleft (by simp) err
  | linking part attempt offset =>
    cases o <;> simp only [resume, reduceCtorEq] at h
    obtain rfl := Option.some.inj h
    refine ⟨.refl lh, ⟨ht, hgeneration, le_rfl, fun _ => rfl⟩, rfl, ?_, ?_⟩
    · simp only [Goroutine.requests, requestsLeft, Bool.toNat_false]
      omega
    · simp only [turnsLeft, roundsLeft, stage, bytesLeft]
      omega
  | requesting part attempt offset link generation =>
    have hwithin := ht.1
    have hknows := ht.2
    have hseen := hknows.le
    have hagain : Spec lh (.requesting part attempt offset link generation)
        { shared := lh, task := again part attempt offset } := by
      refine spec_again hwithin hleft ?_ ?_
      · simp only [Goroutine.requests, requestsLeft, Bool.toNat_true]
        omega
      · simp only [turnsLeft, roundsLeft, stage, bytesLeft]
        omega
    cases o <;> simp only [resume, reduceCtorEq] at h <;> obtain rfl := Option.some.inj h
    case requestErr => exact hagain
    case response resp =>
      split_ifs
      · refine ⟨.refl lh, ⟨hwithin, hknows⟩, rfl, ?_, ?_⟩
        · simp only [Goroutine.requests, requestsLeft, Bool.toNat_true]
          omega
        · simp only [turnsLeft, roundsLeft, stage, bytesLeft]
          omega
      · exact hagain
      · refine ⟨.refl lh, hwithin, rfl, ?_, ?_⟩
        · simp only [Goroutine.requests, requestsLeft, Bool.toNat_true]
          omega
        · simp only [turnsLeft, roundsLeft, stage, bytesLeft]
          omega
      · exact spec_returned ht hleft (by simp) _
  | refreshing part attempt offset link generation =>
    have hwithin := ht.1
    have hknows := ht.2
    cases o <;> simp only [resume, reduceCtorEq] at h
    case resolved resolved =>
      obtain rfl := Option.some.inj h
      obtain ⟨hlater, hmoved⟩ := refreshVersion_spec hknows resolved
      have hseen := hknows.le
      have hnonneg := hlater.nonneg hleft
      have hpaid := hlater.paid
      have hlatest := hlater.generation
      have hattempt := hwithin.nonneg
      have hlt := hwithin.lt
      have hoffset := hwithin.le
      split_ifs with hrefreshed
      · have hnew := hmoved hrefreshed
        obtain ⟨hok, hreq, hturn⟩ := again_spec (lh.refreshVersion link generation resolved).1
          (show -1 ≤ attempt - 1 by omega) (by omega) hwithin.le hnonneg
        refine ⟨hlater, hok, rfl, ?_, ?_⟩
        · simp only [Goroutine.requests, requestsLeft, Bool.toNat_false] at hreq ⊢
          omega
        · simp only [turnsLeft, roundsLeft, stage, bytesLeft] at hturn ⊢
          omega
      · refine ⟨hlater, trivial, rfl, ?_, ?_⟩
        · simp only [Goroutine.requests, requestsLeft, Bool.toNat_false]
          omega
        · simp only [turnsLeft, roundsLeft, stage, bytesLeft]
          omega
  | copying part attempt offset =>
    cases o <;> simp only [resume, reduceCtorEq] at h
    case write n err =>
      split_ifs at h with hwrite herr
      · obtain rfl := Option.some.inj h
        exact spec_returned ht hleft (by simp) _
      · obtain rfl := Option.some.inj h
        have hpos : 0 < n := hwrite.2.resolve_left herr
        refine ⟨.refl lh, ⟨ht.nonneg, ht.lt, hwrite.1⟩, rfl, ?_, ?_⟩
        · simp only [Goroutine.requests, requestsLeft, Bool.toNat_false]
          omega
        · simp only [turnsLeft, roundsLeft, stage, bytesLeft]
          omega
    case bodyEnded =>
      obtain rfl := Option.some.inj h
      split_ifs
      · exact spec_returned ht hleft (by simp) _
      · refine spec_again ht hleft ?_ ?_
        · simp only [Goroutine.requests, requestsLeft, Bool.toNat_false]
          omega
        · simp only [turnsLeft, roundsLeft, stage, bytesLeft]
          omega
  | returned err => cases o <;> simp [resume] at h

end Turns

/-! ### Runs -/

/-- The link has refreshes left, or none, and every part knows a generation that was there. -/
structure Sound (p : PartPool) : Prop where
  left : 0 ≤ p.shared.refreshLeft
  generation : 0 ≤ p.shared.generation
  ok : ∀ t ∈ p.tasks, Ok p.shared t

/-- A step moves the link on, and the parts that are there stay. -/
theorem step_spec {p q : PartPool} {a : Action Outcome Part} (hp : Sound p)
    (h : system.step p a = some q) : Sound q ∧ Later p.shared q.shared := by
  obtain ⟨i, o, t, r, rfl, ht, hr, rfl⟩ | ⟨part, r, rfl, he, rfl⟩ := System.step_cases h
  · have hspec := resume_spec (hp.ok t (List.mem_of_getElem? ht)) hp.left hp.generation hr
    refine ⟨⟨hspec.later.nonneg hp.left, hp.generation.trans hspec.later.generation, ?_⟩,
      hspec.later⟩
    refine forall_mem_set_append (fun x hx => (hp.ok x hx).later hspec.later) hspec.ok ?_
    rw [hspec.spawned]
    exact fun x hx => absurd hx List.not_mem_nil
  · obtain rfl := Option.some.inj he
    refine ⟨⟨hp.left, hp.generation, fun x hx => ?_⟩, .refl _⟩
    rcases List.mem_append.mp hx with hx | hx
    · exact hp.ok x hx
    · obtain rfl := List.mem_singleton.mp hx
      exact ⟨le_rfl, by decide, part.start_le.trans (Nat.le_succ _)⟩

theorem sound_newHolder (link : String) (refreshes : ℕ) : Sound (newHolder link refreshes) :=
  ⟨Int.natCast_nonneg _, le_rfl, fun _ ht => absurd ht List.not_mem_nil⟩

theorem later_run {p q : PartPool} {as : List (Action Outcome Part)} (hp : Sound p)
    (h : system.run p as = some q) : Sound q ∧ Later p.shared q.shared := by
  induction as generalizing p with
  | nil => exact Option.some.inj h ▸ ⟨hp, .refl _⟩
  | cons a as ih =>
    obtain ⟨p', hs, hr⟩ := (System.run_cons system).mp h
    obtain ⟨hp', hlater⟩ := step_spec hp hs
    obtain ⟨hq, hrest⟩ := ih hp' hr
    exact ⟨hq, hlater.trans hrest⟩

/-- A part whose turn it is not loses nothing it could still use, but gains nothing either. -/
theorem left_later {lh lh' : LinkHolder} (h : Later lh lh') (t : Goroutine) :
    requestsLeft lh' t ≤ requestsLeft lh t ∧ turnsLeft lh' t ≤ turnsLeft lh t := by
  have hgeneration := h.generation
  have hpaid := h.paid
  have hleft := h.left
  cases t <;> simp only [requestsLeft, turnsLeft, roundsLeft, stage, bytesLeft] <;> omega

section Part

variable {p q : PartPool} {i : ℕ} {as : List (Action Outcome Part)}

/-- The part `i` is there. -/
def Begun (i : ℕ) (p : PartPool) : Prop := Sound p ∧ p.tasks[i]?.isSome

theorem begun_step {a : Action Outcome Part} (hp : Begun i p) (h : system.step p a = some q) :
    Begun i q := by
  obtain ⟨hsound, hthere⟩ := hp
  refine ⟨(step_spec hsound h).1, ?_⟩
  obtain ⟨o, t, r, -, -, -, -, hq⟩ | ⟨-, hq | hnone⟩ := System.step_lookup i h
  · rw [hq]
    rfl
  · rw [hq]
    exact hthere
  · rw [hnone] at hthere
    exact absurd hthere (by simp)

/-- A step of the run uses up what a turn of the part uses. -/
theorem left_step {sel : Goroutine → Bool} {φ : LinkHolder → Goroutine → ℤ}
    (hown : ∀ {lh t r}, Spec lh t r → (sel t).toNat + φ r.shared r.task ≤ φ lh t)
    (hother : ∀ {lh lh'} t, Later lh lh' → φ lh' t ≤ φ lh t) {a : Action Outcome Part}
    (hp : Begun i p) (h : system.step p a = some q) :
    (System.takes sel i p a).toNat + q.tasks[i]?.elim 0 (φ q.shared) ≤
      p.tasks[i]?.elim 0 (φ p.shared) := by
  obtain ⟨hsound, hthere⟩ := hp
  obtain ⟨o, t, r, rfl, ht, hr, hshared, hq⟩ | ⟨hno, hq⟩ := System.step_lookup i h
  · have hspec := resume_spec (hsound.ok t (List.mem_of_getElem? ht)) hsound.left
      hsound.generation hr
    have hle := hown hspec
    simpa [System.takes, ht, hq, hshared] using hle
  · rw [hno sel, Bool.toNat_false, Nat.cast_zero, zero_add]
    rcases hq with hq | hnone
    · rw [hq]
      obtain ⟨t, ht⟩ := Option.isSome_iff_exists.mp hthere
      rw [ht]
      exact hother t (step_spec hsound h).2
    · rw [hnone] at hthere
      exact absurd hthere (by simp)

/-- The requests of the part in a run are within its attempts and the new generations. -/
theorem requests_le (hp : Begun i p) (hr : system.run p as = some q) :
    system.turns Goroutine.requests i p as + q.tasks[i]?.elim 0 (requestsLeft q.shared) ≤
      p.tasks[i]?.elim 0 (requestsLeft p.shared) :=
  System.turns_add_le (φ := fun lh t => t.elim 0 (requestsLeft lh))
    (fun _ _ _ => begun_step) (fun _ _ _ => left_step (fun h => h.requests)
      (fun t h => (left_later h t).1)) hp hr

theorem turns_le (hp : Begun i p) (hr : system.run p as = some q) :
    system.turns (fun _ => true) i p as + q.tasks[i]?.elim 0 (turnsLeft q.shared) ≤
      p.tasks[i]?.elim 0 (turnsLeft p.shared) :=
  System.turns_add_le (φ := fun lh t => t.elim 0 (turnsLeft lh))
    (fun _ _ _ => begun_step) (fun _ _ _ => left_step (fun h => by simpa using h.turns)
      (fun t h => (left_later h t).2)) hp hr

/-- What a part has left is never less than nothing. -/
theorem left_nonneg {lh : LinkHolder} {t : Goroutine} (ht : Ok lh t) (hleft : 0 ≤ lh.refreshLeft) :
    -lh.generation ≤ requestsLeft lh t ∧ 0 ≤ turnsLeft lh t := by
  cases t with
  | returned err => exact ⟨le_rfl, le_rfl⟩
  | _ =>
    have hle := left_of_ok ht hleft (by simp)
    constructor <;> omega

/-- A part that has not returned can go on. -/
theorem exists_resume (lh : LinkHolder) (t : Goroutine) :
    (∃ err, t = .returned err) ∨ ∃ o, (resume lh t o).isSome := by
  cases t with
  | returned err => exact .inl ⟨err, rfl⟩
  | requesting => exact .inr ⟨.requestErr, rfl⟩
  | refreshing => exact .inr ⟨.resolved none, rfl⟩
  | copying => exact .inr ⟨.bodyEnded, rfl⟩
  | _ => exact .inr ⟨.done, rfl⟩

end Part

/-- From where a part begins, whatever the other parts do: its requests are at most the retries, and
one for each generation that the link then has but the first; the generations are at most the
refreshes and one; and the part has a bounded number of turns, which end only with its return. -/
theorem part_stops {link : String} {refreshes i : ℕ} {part : Part} {p q : PartPool}
    {as bs : List (Action Outcome Part)} (hp : system.run (newHolder link refreshes) as = some p)
    (hi : p.tasks[i]? = some (.cooling part 0 part.start)) (hq : system.run p bs = some q) :
    (system.turns Goroutine.requests i p bs + 1 : ℤ) ≤
        transferRetries + (q.shared.generation - p.shared.generation + 1) ∧
      q.shared.generation + 1 ≤ refreshes + 1 ∧
      (system.turns (fun _ => true) i p bs : ℤ) ≤
        8 * (transferRetries + refreshes) + 8 + (part.last - part.start) ∧
      ∀ t, q.tasks[i]? = some t →
        (∃ err, t = .returned err) ∨ ∃ o, (resume q.shared t o).isSome := by
  obtain ⟨hsound, hbefore⟩ := later_run (sound_newHolder link refreshes) hp
  obtain ⟨hsound', hafter⟩ := later_run hsound hq
  have hbegun : Begun i p := ⟨hsound, by rw [hi]; rfl⟩
  have hrequests := requests_le hbegun hq
  have hturns := turns_le hbegun hq
  have hend : -q.shared.generation ≤ q.tasks[i]?.elim 0 (requestsLeft q.shared) ∧
      0 ≤ q.tasks[i]?.elim 0 (turnsLeft q.shared) := by
    have hnonneg := hsound'.generation
    cases ht : q.tasks[i]? with
    | none => exact ⟨neg_nonpos.mpr hnonneg, le_rfl⟩
    | some t => exact left_nonneg (hsound'.ok t (List.mem_of_getElem? ht)) hsound'.left
  have hpaid := hbefore.paid
  have hpaid' := hafter.paid
  have hleft := hsound'.left
  have hgeneration := hsound.generation
  simp only [newHolder] at hpaid
  simp only [hi, Option.elim_some, requestsLeft, turnsLeft, roundsLeft, stage, bytesLeft]
    at hrequests hturns
  refine ⟨by omega, by omega, by omega, fun t _ => exists_resume q.shared t⟩

/-- One part at its beginning. -/
def onePart : PartPool where
  shared := { link := "a", refreshLeft := transferRefreshes }
  tasks := [.cooling ⟨0, 9, 20, by decide⟩ 0 0]

/-- A request that is refused, a refresh, and a request that brings the part. -/
def refreshedOnce : List (Action Outcome Part) :=
  [.resume 0 .done, .resume 0 .done, .resume 0 .done, .resume 0 .done,
    .resume 0 (.response ⟨403, 0, none⟩), .resume 0 (.resolved (some "b")), .resume 0 .done,
    .resume 0 .done, .resume 0 .done, .resume 0 .done,
    .resume 0 (.response ⟨206, 10, some (0, 9, 20)⟩), .resume 0 (.write 10 false),
    .resume 0 .bodyEnded]

theorem part_stops_once : ∃ q, system.run onePart refreshedOnce = some q ∧
    (system.turns Goroutine.requests 0 onePart refreshedOnce + 1 : ℤ) ≤
      transferRetries + (q.shared.generation - onePart.shared.generation + 1) := by
  obtain ⟨q, hq⟩ := Option.isSome_iff_exists.mp
    (show (system.run onePart refreshedOnce).isSome by decide)
  exact ⟨q, hq, @part_stops _ _ _ ⟨0, 9, 20, by decide⟩ _ _ [.event ⟨0, 9, 20, by decide⟩] _
    rfl rfl hq |>.1⟩

end AllInOneBackup.LitePan.Playback.PartRequests
