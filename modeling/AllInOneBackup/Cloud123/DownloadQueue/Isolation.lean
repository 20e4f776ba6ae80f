import AllInOneBackup.Cloud123.DownloadQueue.Links

/-! A cancelled link hands its cancellation to the links after it, and to those before it whose
`_run` it waits for. Where neither can happen, the jobs run one at a time, in their order and with
their interval, and each caller gets what its own job came to. -/

namespace AllInOneBackup.Cloud123.DownloadQueue

open Concurrency Queue

variable {α ε : Type*}

/-! ### The property and the condition -/

/-- A job starts after the jobs that have ended, with its interval, and after those before it. -/
def InOrder : Seen α ε → Seen α ε → Prop
  | .started i _ _, .started j _ _ => i < j
  | .ended _ _ time, .started _ time' interval => time + interval ≤ time'
  | _, _ => True

/-- At most one job runs; the jobs keep order and interval; a link is over without its job, or its
job cancelled, only where its own caller was cancelled; and a caller that was not gets what its own
job came to. -/
structure QueueRight (p : QueuePool α ε) : Prop where
  serial : ∀ i j, (p.shared.link i).run = .job → (p.shared.link j).run = .job → i = j
  order : p.trace.Pairwise InOrder
  done : ∀ i r, (p.shared.link i).run = .finished r → (p.shared.link i).asked = true ∨
    r ≠ .cancelled ∧ ∃ time, .ended i r time ∈ p.trace
  cancelled : ∀ i time, .ended i .cancelled time ∈ p.trace → (p.shared.link i).asked = true
  received : ∀ i r, .received i r ∈ p.trace →
    r = .cancelled ∧ (p.shared.link i).asked = true ∨ ∃ time, .ended i r time ∈ p.trace

/-- `_run` is cancelled, or will be at its next turn. -/
def Link.RunBroken (l : Link α ε) : Prop :=
  l.run = .finished .cancelled ∨ l.runMarked = true ∧ ¬l.run.Over

/-- The same for `_swallow`. -/
def Link.SwallowBroken (l : Link α ε) : Prop := l.swallow = .cancelled ∨ l.swallowMarked = true

/-- To cancel `_run` is to cancel the one before it. -/
def Queue.Reaches (q : Queue α ε) : ℕ → Prop
  | 0 => False
  | j + 1 => (q.link (j + 1)).run = .waiting ∧ (q.link j).swallow = .waiting ∧ ¬(q.link j).run.Over

/-- A caller is cancelled only where its `_run` is over, or is the last one and does not wait for the
one before; and there is no call after a link is cancelled. -/
def Alone (p : QueuePool α ε) : Action Empty (Happening α ε) → Prop
  | .event (.cancelCaller i) => (p.shared.link i).run.Over ∨
      i + 1 = p.shared.count ∧ ¬p.shared.Reaches i
  | .event .enqueue =>
    ∀ i < p.shared.count, ¬(p.shared.link i).RunBroken ∧ ¬(p.shared.link i).SwallowBroken
  | _ => True

section Decide

instance (l : Link α ε) [DecidableEq α] [DecidableEq ε] : Decidable l.RunBroken :=
  inferInstanceAs (Decidable (_ ∨ _ ∧ _))

instance (l : Link α ε) : Decidable l.SwallowBroken := inferInstanceAs (Decidable (_ ∨ _))

instance (q : Queue α ε) [DecidableEq α] [DecidableEq ε] : DecidablePred q.Reaches
  | 0 => inferInstanceAs (Decidable False)
  | _ + 1 => inferInstanceAs (Decidable (_ ∧ _ ∧ _))

instance (p : QueuePool α ε) [DecidableEq α] [DecidableEq ε] : DecidablePred (Alone p)
  | .event (.cancelCaller _) => inferInstanceAs (Decidable (_ ∨ _ ∧ _))
  | .event .enqueue => inferInstanceAs (Decidable (∀ i < p.shared.count, _ ∧ _))
  | .event (.resumeRun _) | .event (.endJob _ _) | .event (.resumeSwallow _)
  | .event (.resumeCaller _) | .event (.tick _) | .event (.configure _) | .resume _ _ =>
    inferInstanceAs (Decidable True)

end Decide

/-! ### The chain -/

/-- `_run` is past `await previous`, and was not cancelled. -/
def Run.Begun : Run α ε → Prop
  | .delaying _ _ | .job | .finished (.returned _) | .finished (.raised _) => True
  | _ => False

/-- Only the last link can be cancelled, with the `_swallow` before it, and a link begins when the
one before has ended. -/
structure Chained (q : Queue α ε) : Prop where
  fresh : ∀ i, q.count ≤ i → q.link i = {}
  run : ∀ i, (q.link i).RunBroken → i + 1 = q.count ∧ (q.link i).asked = true
  swallow : ∀ i, (q.link i).SwallowBroken →
    q.count ≤ i + 2 ∧ (q.link (q.count - 1)).asked = true
  begun : ∀ i, (q.link i).run.Begun → q.previous i = .returned
  returned : ∀ i, (q.link i).swallow = .returned →
    ∃ r, (q.link i).run = .finished r ∧ r ≠ .cancelled
  caller : ∀ i, (q.link i).callerMarked = true → (q.link i).asked = true

section Links

variable {q : Queue α ε} {i j : ℕ} {l : Link α ε}

@[simp] theorem link_set_self : (q.set i l).link i = l := by
  unfold Queue.set
  exact Function.update_self i l q.link

theorem link_set_of_ne (h : j ≠ i) : (q.set i l).link j = q.link j := by
  unfold Queue.set
  exact Function.update_of_ne h l q.link

theorem begun_over {r : Result α ε} (h : r ≠ .cancelled) : (Run.finished r).Begun := by
  cases r with
  | returned => trivial
  | raised => trivial
  | cancelled => exact absurd rfl h

/-- Before a link that has begun all links have ended. -/
theorem Chained.over_of_begun (h : Chained q) (hi : (q.link i).run.Begun) (hj : j < i) :
    ∃ r, (q.link j).run = .finished r ∧ r ≠ .cancelled := by
  induction i with
  | zero => exact absurd hj (Nat.not_lt_zero j)
  | succ i ih =>
    obtain ⟨r, hr, hne⟩ := h.returned i (h.begun (i + 1) hi)
    obtain hlt | rfl := Nat.lt_or_eq_of_le (Nat.le_of_lt_succ hj)
    · apply ih _ hlt
      rw [hr]
      exact begun_over hne
    · exact ⟨r, hr, hne⟩

/-- Of two links that have begun one has ended. -/
theorem Chained.eq_of_begun (h : Chained q) (hi : (q.link i).run.Begun)
    (hj : (q.link j).run.Begun) (hi' : ¬(q.link i).run.Over) (hj' : ¬(q.link j).run.Over) :
    i = j := by
  obtain hlt | heq | hlt := Nat.lt_trichotomy i j
  · obtain ⟨r, hr, -⟩ := h.over_of_begun hj hlt
    exact absurd (hr ▸ trivial) hi'
  · exact heq
  · obtain ⟨r, hr, -⟩ := h.over_of_begun hi hlt
    exact absurd (hr ▸ trivial) hj'

/-- What a turn may make of a link. -/
structure Moves (q : Queue α ε) (i : ℕ) (l : Link α ε) : Prop where
  asked : (q.link i).asked = true → l.asked = true
  run : l.RunBroken → i + 1 = q.count ∧ l.asked = true
  swallow : l.SwallowBroken → q.count ≤ i + 2 ∧ (q.link (q.count - 1)).asked = true
  begun : l.run.Begun → q.previous i = .returned
  returned : l.swallow = .returned → ∃ r, l.run = .finished r ∧ r ≠ .cancelled
  kept : (q.link i).swallow = .returned → l.swallow = .returned
  caller : l.callerMarked = true → l.asked = true
  finished : ∀ r, (q.link i).run = .finished r → l.run = .finished r
  job : (q.link i).run = .job → l.run = .job ∨ l.run.Over

theorem asked_set (h : Moves q i l) (hj : (q.link j).asked = true) :
    ((q.set i l).link j).asked = true := by
  by_cases hji : j = i
  · subst hji
    rw [link_set_self]
    exact h.asked hj
  · rwa [link_set_of_ne hji]

theorem Chained.set (h : Chained q) (hi : i < q.count) (hl : Moves q i l) :
    Chained (q.set i l) := by
  have hprevious : ∀ k, q.previous k = .returned → (q.set i l).previous k = .returned := by
    intro k hk
    cases k with
    | zero => rfl
    | succ k =>
      change ((q.set i l).link k).swallow = .returned
      by_cases hki : k = i
      · subst hki
        rw [link_set_self]
        exact hl.kept hk
      · rw [link_set_of_ne hki]
        exact hk
  refine
    { fresh := fun k hk => ?_
      run := fun k hk => ?_
      swallow := fun k hk => ?_
      begun := fun k hk => hprevious k ?_
      returned := fun k hk => ?_
      caller := fun k hk => ?_ }
  · rw [link_set_of_ne (Nat.ne_of_gt (hi.trans_le hk))]
    exact h.fresh k hk
  all_goals by_cases hki : k = i
  · subst hki
    rw [link_set_self] at hk ⊢
    exact hl.run hk
  · rw [link_set_of_ne hki] at hk ⊢
    exact h.run k hk
  · subst hki
    rw [link_set_self] at hk
    exact (hl.swallow hk).imp_right (asked_set hl)
  · rw [link_set_of_ne hki] at hk
    exact (h.swallow k hk).imp_right (asked_set hl)
  · subst hki
    rw [link_set_self] at hk
    exact hl.begun hk
  · rw [link_set_of_ne hki] at hk
    exact h.begun k hk
  · subst hki
    rw [link_set_self] at hk ⊢
    exact hl.returned hk
  · rw [link_set_of_ne hki] at hk ⊢
    exact h.returned k hk
  · subst hki
    rw [link_set_self] at hk ⊢
    exact hl.caller hk
  · rw [link_set_of_ne hki] at hk ⊢
    exact h.caller k hk

/-- `_run` goes on. -/
theorem Chained.moves_run (h : Chained q) {run : Run α ε}
    (hbroken : ({ q.link i with run := run } : Link α ε).RunBroken →
      i + 1 = q.count ∧ (q.link i).asked = true)
    (hbegun : run.Begun → q.previous i = .returned) (hover : ¬(q.link i).run.Over)
    (hjob : (q.link i).run = .job → run.Over) : Moves q i { q.link i with run := run } where
  asked := id
  run := hbroken
  swallow := h.swallow i
  begun := hbegun
  returned hs := by
    obtain ⟨r, hr, -⟩ := h.returned i hs
    exact absurd (hr ▸ trivial) hover
  kept := id
  caller := h.caller i
  finished r hr := absurd (hr ▸ trivial) hover
  job hr := .inr (hjob hr)

/-- What leaves `_run` alone. -/
theorem Chained.moves_rest (h : Chained q) (hrun : l.run = (q.link i).run)
    (hmarked : l.runMarked = (q.link i).runMarked)
    (hasked : (q.link i).asked = true → l.asked = true)
    (hswallow : l.SwallowBroken → q.count ≤ i + 2 ∧ (q.link (q.count - 1)).asked = true)
    (hreturned : l.swallow = .returned → ∃ r, l.run = .finished r ∧ r ≠ .cancelled)
    (hkept : (q.link i).swallow = .returned → l.swallow = .returned)
    (hcaller : l.callerMarked = true → l.asked = true) : Moves q i l where
  asked := hasked
  run hbroken := by
    rw [Link.RunBroken, hrun, hmarked] at hbroken
    exact (h.run i hbroken).imp_right hasked
  swallow := hswallow
  begun hbegun := h.begun i (hrun ▸ hbegun)
  returned := hreturned
  kept := hkept
  caller := hcaller
  finished r hr := hrun.trans hr
  job hr := .inl (hrun.trans hr)

/-- `_swallow` goes on. -/
theorem Chained.moves_swallow (h : Chained q) {swallow : Swallow}
    (hcancelled : swallow = .cancelled →
      (q.link i).swallowMarked = true ∨ (q.link i).run = .finished .cancelled)
    (hreturned : swallow = .returned → ∃ r, (q.link i).run = .finished r ∧ r ≠ .cancelled)
    (hkept : (q.link i).swallow ≠ .returned) :
    Moves q i { q.link i with swallow := swallow } := by
  apply h.moves_rest (l := { q.link i with swallow := swallow }) rfl rfl id
  · rintro (hs | hs)
    · rcases hcancelled hs with hmarked | hover
      · exact h.swallow i (.inr hmarked)
      · obtain ⟨hlast, hasked⟩ := h.run i (.inl hover)
        rw [← hlast]
        exact ⟨Nat.le_succ _, hasked⟩
    · exact h.swallow i (.inr hs)
  · exact hreturned
  · exact fun hs => absurd hs hkept
  · exact h.caller i

/-- The last `_run` is marked, after its caller was cancelled. -/
theorem Chained.moves_runMarked (h : Chained q) (hlast : i + 1 = q.count)
    (hasked : (q.link i).asked = true) : Moves q i { q.link i with runMarked := true } where
  asked := id
  run _ := ⟨hlast, hasked⟩
  swallow := h.swallow i
  begun := h.begun i
  returned := h.returned i
  kept := id
  caller := h.caller i
  finished _ hr := hr
  job hr := .inl hr

end Links

/-! ### Time and observations -/

/-- The clock does not go back, and a delay is long enough. -/
structure Timed (q : Queue α ε) : Prop where
  clock : q.last ≤ q.now
  delaying : ∀ i deadline interval, (q.link i).run = .delaying deadline interval →
    q.last + interval ≤ deadline

/-- What was seen agrees with the links. -/
structure Recorded (q : Queue α ε) (trace : List (Seen α ε)) : Prop where
  started : ∀ i time interval, .started i time interval ∈ trace →
    ((q.link i).run = .job ∨ (q.link i).run.Over) ∧ ∀ j < i, (q.link j).run.Over
  ended : ∀ i r time, .ended i r time ∈ trace → (q.link i).run = .finished r ∧ time ≤ q.last
  finished : ∀ i r, (q.link i).run = .finished r → r ≠ .cancelled → ∃ time, .ended i r time ∈ trace
  received : ∀ i r, .received i r ∈ trace →
    (q.link i).run = .finished r ∨ r = .cancelled ∧ (q.link i).asked = true
  order : trace.Pairwise InOrder

/-- What no turn takes back. -/
structure Later (q q' : Queue α ε) : Prop where
  finished : ∀ i r, (q.link i).run = .finished r → (q'.link i).run = .finished r
  job : ∀ i, (q.link i).run = .job → (q'.link i).run = .job ∨ (q'.link i).run.Over
  asked : ∀ i, (q.link i).asked = true → (q'.link i).asked = true
  last : q.last ≤ q'.last

structure Inv (q : Queue α ε) (trace : List (Seen α ε)) : Prop where
  chained : Chained q
  timed : Timed q
  recorded : Recorded q trace

section Trace

variable {q q' : Queue α ε} {i j : ℕ} {l : Link α ε} {trace seen : List (Seen α ε)}

theorem over_iff {run : Run α ε} : run.Over ↔ ∃ r, run = .finished r := by
  cases run with
  | finished r => exact iff_of_true trivial ⟨r, rfl⟩
  | _ => exact iff_of_false id (by simp)

theorem Later.runOver (h : Later q q') (hi : (q.link i).run.Over) : (q'.link i).run.Over := by
  obtain ⟨r, hr⟩ := over_iff.mp hi
  exact over_iff.mpr ⟨r, h.finished i r hr⟩

theorem Moves.later (h : Moves q i l) : Later q (q.set i l) where
  finished j r hr := by
    by_cases hji : j = i
    · subst hji
      rw [link_set_self]
      exact h.finished r hr
    · rwa [link_set_of_ne hji]
  job j hr := by
    by_cases hji : j = i
    · subst hji
      rw [link_set_self]
      exact h.job hr
    · rw [link_set_of_ne hji]
      exact .inl hr
  asked j hj := asked_set h hj
  last := le_rfl

/-- The record goes on with what a turn shows. -/
theorem Recorded.append (h : Recorded q trace) (hlater : Later q q')
    (hstarted : ∀ i time interval, .started i time interval ∈ seen →
      ((q'.link i).run = .job ∨ (q'.link i).run.Over) ∧ ∀ j < i, (q'.link j).run.Over)
    (hended : ∀ i r time, .ended i r time ∈ seen → (q'.link i).run = .finished r ∧ time ≤ q'.last)
    (hover : ∀ i r, (q'.link i).run = .finished r → r ≠ .cancelled →
      (q.link i).run = .finished r ∨ ∃ time, .ended i r time ∈ seen)
    (hreceived : ∀ i r, .received i r ∈ seen →
      (q'.link i).run = .finished r ∨ r = .cancelled ∧ (q'.link i).asked = true)
    (horder : ∀ e ∈ trace, ∀ e' ∈ seen, InOrder e e') (hseen : seen.Pairwise InOrder) :
    Recorded q' (trace ++ seen) where
  started i time interval hmem := by
    rcases List.mem_append.mp hmem with hmem | hmem
    · obtain ⟨hi, hbefore⟩ := h.started i time interval hmem
      refine ⟨?_, fun j hj => hlater.runOver (hbefore j hj)⟩
      rcases hi with hjob | hi
      · exact hlater.job i hjob
      · exact .inr (hlater.runOver hi)
    · exact hstarted i time interval hmem
  ended i r time hmem := by
    rcases List.mem_append.mp hmem with hmem | hmem
    · obtain ⟨hi, htime⟩ := h.ended i r time hmem
      exact ⟨hlater.finished i r hi, htime.trans hlater.last⟩
    · exact hended i r time hmem
  finished i r hr hne := by
    rcases hover i r hr hne with hold | ⟨time, hnew⟩
    · obtain ⟨time, hmem⟩ := h.finished i r hold hne
      exact ⟨time, List.mem_append_left _ hmem⟩
    · exact ⟨time, List.mem_append_right _ hnew⟩
  received i r hmem := by
    rcases List.mem_append.mp hmem with hmem | hmem
    · exact (h.received i r hmem).imp (hlater.finished i r) (And.imp_right (hlater.asked i))
    · exact hreceived i r hmem
  order := List.pairwise_append.mpr ⟨h.order, hseen, horder⟩

/-- A turn of a task that shows nothing. -/
theorem Inv.set (h : Inv q trace) (hi : i < q.count) (hl : Moves q i l)
    (hdelaying : ∀ deadline interval, l.run = .delaying deadline interval →
      q.last + interval ≤ deadline)
    (hover : ∀ r, l.run = .finished r → r ≠ .cancelled → (q.link i).run = .finished r) :
    Inv (q.set i l) trace where
  chained := h.chained.set hi hl
  timed :=
    { clock := h.timed.clock
      delaying := by
        intro j deadline interval hj
        by_cases hji : j = i
        · subst hji
          rw [link_set_self] at hj
          exact hdelaying deadline interval hj
        · rw [link_set_of_ne hji] at hj
          exact h.timed.delaying j deadline interval hj }
  recorded := by
    have happend : Recorded (q.set i l) (trace ++ []) := h.recorded.append hl.later (by simp)
      (by simp) ?_ (by simp) (by simp) List.Pairwise.nil
    · rwa [List.append_nil] at happend
    · intro j r hr hne
      by_cases hji : j = i
      · subst hji
        rw [link_set_self] at hr
        exact .inl (hover r hr hne)
      · rw [link_set_of_ne hji] at hr
        exact .inl hr

/-! ### Turns -/

/-- A link whose `_run` is cancelled at its next turn, or whose `previous` is cancelled, is the last
one, and its caller was cancelled. -/
theorem Inv.cancelled_last (h : Inv q trace) (hi : i < q.count) (hover : ¬(q.link i).run.Over)
    (hbroken : (q.link i).runMarked = true ∨ q.previous i = .cancelled) :
    i + 1 = q.count ∧ (q.link i).asked = true := by
  rcases hbroken with hmarked | hprevious
  · exact h.chained.run i (.inr ⟨hmarked, hover⟩)
  · cases i with
    | zero => exact absurd hprevious (by simp [Queue.previous])
    | succ j =>
      obtain ⟨hcount, hasked⟩ := h.chained.swallow j (.inl hprevious)
      have hlast : j + 1 + 1 = q.count := by omega
      rw [← hlast] at hasked
      exact ⟨hlast, hasked⟩

theorem Inv.endRun_cancelled (h : Inv q trace) (hi : i < q.count) (hover : ¬(q.link i).run.Over)
    (hbroken : (q.link i).runMarked = true ∨ q.previous i = .cancelled) :
    Inv (q.endRun i .cancelled) trace := by
  have hlast := h.cancelled_last hi hover hbroken
  apply h.set hi
  · exact h.chained.moves_run (fun _ => hlast) False.elim hover fun _ => trivial
  · intro deadline interval hrun
    exact absurd hrun (by simp)
  · intro r hrun hne
    exact absurd (Run.finished.inj hrun).symm hne

/-- A job starts: the links before it have ended, and it has waited for its interval. -/
theorem Inv.startJob (h : Inv q trace) (hi : i < q.count) {interval : ℤ}
    (hprevious : q.previous i = .returned) (hover : ¬(q.link i).run.Over)
    (hjob : (q.link i).run ≠ .job) (hmarked : (q.link i).runMarked = false)
    (htime : q.last + interval ≤ q.now) :
    Inv (q.startJob i interval).shared (trace ++ (q.startJob i interval).seen) := by
  have hmoves : Moves q i { q.link i with run := .job } := by
    apply h.chained.moves_run _ (fun _ => hprevious) hover fun hrun => absurd hrun hjob
    rintro (hrun | ⟨hrun, -⟩)
    · exact absurd hrun (by simp)
    · exact absurd hrun (by simp [hmarked])
  have hchained := h.chained.set hi hmoves
  have hself : ((q.set i { q.link i with run := .job }).link i).run = .job := by
    rw [link_set_self]
  have hbefore : ∀ j < i, (q.link j).run.Over := by
    intro j hj
    have hbegun : ((q.set i { q.link i with run := .job }).link i).run.Begun := by
      rw [hself]
      trivial
    obtain ⟨r, hr, -⟩ := hchained.over_of_begun hbegun hj
    rw [link_set_of_ne (Nat.ne_of_lt hj)] at hr
    exact over_iff.mpr ⟨r, hr⟩
  refine
    { chained := hchained
      timed := { clock := h.timed.clock, delaying := fun j deadline k hj => ?_ }
      recorded := h.recorded.append hmoves.later ?_ (by simp [Queue.startJob]) ?_
        (by simp [Queue.startJob]) ?_ (List.pairwise_singleton _ _) }
  · change ((q.set i _).link j).run = _ at hj
    by_cases hji : j = i
    · subst hji
      exact absurd (hself.symm.trans hj) (by simp)
    · rw [link_set_of_ne hji] at hj
      exact h.timed.delaying j deadline k hj
  · intro j time k hmem
    obtain ⟨rfl, -, -⟩ : j = i ∧ time = q.now ∧ k = interval := by
      simpa [Queue.startJob] using hmem
    exact ⟨.inl hself, fun k hk => hmoves.later.runOver (hbefore k hk)⟩
  · intro j r hr hne
    change ((q.set i _).link j).run = _ at hr
    by_cases hji : j = i
    · subst hji
      exact absurd (hself.symm.trans hr) (by simp)
    · rw [link_set_of_ne hji] at hr
      exact .inl hr
  · intro e he e' he'
    rw [List.mem_singleton.mp he']
    cases e with
    | started j time k =>
      -- a later link would have ended before, or be in its job with this one over
      obtain ⟨hj, hbefore'⟩ := h.recorded.started j time k he
      obtain hlt | rfl | hlt := Nat.lt_trichotomy j i
      · exact hlt
      · exact absurd hj (not_or.mpr ⟨hjob, hover⟩)
      · exact absurd (hbefore' i hlt) hover
    | ended j r time =>
      obtain ⟨-, htime'⟩ := h.recorded.ended j r time he
      change (time : ℤ) + interval ≤ q.now
      omega
    | received => trivial

theorem Inv.afterPrevious (h : Inv q trace) (hi : i < q.count)
    (hprevious : q.previous i = .returned) (hover : ¬(q.link i).run.Over)
    (hjob : (q.link i).run ≠ .job) (hmarked : (q.link i).runMarked = false) :
    Inv (q.afterPrevious i).shared (trace ++ (q.afterPrevious i).seen) := by
  have hclock := h.timed.clock
  unfold Queue.afterPrevious
  dsimp only
  generalize max 0 (q.downloadMinIntervalMs.getD PAN115_DOWNLOAD_MIN_INTERVAL_MS) = interval
  split_ifs with hwait
  · rw [List.append_nil]
    apply h.set hi
    · apply h.chained.moves_run _ (fun _ => hprevious) hover fun hrun => absurd hrun hjob
      rintro (hrun | ⟨hrun, -⟩)
      · exact absurd hrun (by simp)
      · exact absurd hrun (by simp [hmarked])
    · intro deadline k hrun
      obtain ⟨rfl, rfl⟩ := Run.delaying.inj hrun
      omega
    · intro r hrun
      exact absurd hrun (by simp)
  · exact h.startJob hi hprevious hover hjob hmarked (by omega)

theorem Inv.awaitPrevious (h : Inv q trace) (hi : i < q.count) (hover : ¬(q.link i).run.Over)
    (hjob : (q.link i).run ≠ .job) (hmarked : (q.link i).runMarked = false) :
    Inv (q.awaitPrevious i).shared (trace ++ (q.awaitPrevious i).seen) := by
  have hwaiting : Inv (q.set i { q.link i with run := .waiting }) trace := by
    apply h.set hi
    · apply h.chained.moves_run _ False.elim hover fun hrun => absurd hrun hjob
      rintro (hrun | ⟨hrun, -⟩)
      · exact absurd hrun (by simp)
      · exact absurd hrun (by simp [hmarked])
    · intro deadline k hrun
      exact absurd hrun (by simp)
    · intro r hrun
      exact absurd hrun (by simp)
  unfold Queue.awaitPrevious
  cases hprevious : q.previous i with
  | returned => exact h.afterPrevious hi hprevious hover hjob hmarked
  | cancelled =>
    dsimp only
    rw [List.append_nil]
    exact h.endRun_cancelled hi hover (.inr hprevious)
  | created =>
    dsimp only
    rwa [List.append_nil]
  | waiting =>
    dsimp only
    rwa [List.append_nil]

theorem Inv.resumeRun {r : QueueEffect α ε} (h : Inv q trace) (hi : i < q.count)
    (hr : q.resumeRun i = some r) : Inv r.shared (trace ++ r.seen) := by
  unfold Queue.resumeRun at hr
  cases hrun : (q.link i).run with
  | created =>
    have hover : ¬(q.link i).run.Over := by rw [hrun]; exact id
    rw [hrun] at hr
    dsimp only at hr
    split_ifs at hr with hmarked
    · obtain rfl := Option.some.inj hr
      rw [List.append_nil]
      exact h.endRun_cancelled hi hover (.inl hmarked)
    · obtain rfl := Option.some.inj hr
      exact h.awaitPrevious hi hover (by simp [hrun]) (by simpa using hmarked)
  | waiting =>
    have hover : ¬(q.link i).run.Over := by rw [hrun]; exact id
    rw [hrun] at hr
    dsimp only at hr
    split_ifs at hr with hnot hmarked
    · obtain rfl := Option.some.inj hr
      rw [List.append_nil]
      exact h.endRun_cancelled hi hover (.inl hmarked)
    · obtain rfl := Option.some.inj hr
      exact h.awaitPrevious hi hover (by simp [hrun]) (by simpa using hmarked)
  | delaying deadline interval =>
    have hover : ¬(q.link i).run.Over := by rw [hrun]; exact id
    rw [hrun] at hr
    dsimp only at hr
    split_ifs at hr with hmarked htime
    · obtain rfl := Option.some.inj hr
      rw [List.append_nil]
      exact h.endRun_cancelled hi hover (.inl hmarked)
    · obtain rfl := Option.some.inj hr
      have hprevious := h.chained.begun i (by rw [hrun]; trivial)
      have hdelay := h.timed.delaying i deadline interval hrun
      exact h.startJob hi hprevious hover (by simp [hrun]) (by simpa using hmarked) (by omega)
  | job =>
    rw [hrun] at hr
    exact absurd hr (by simp)
  | finished r =>
    rw [hrun] at hr
    exact absurd hr (by simp)

/-- What a job can end with. -/
theorem endJob_cases {r : Result α ε} {e : QueueEffect α ε} (h : q.endJob i r = some e) :
    (q.link i).run = .job ∧ (r = .cancelled → (q.link i).runMarked = true) ∧
      e = { shared := { q.endRun i r with last := q.now }, seen := [.ended i r q.now] } := by
  unfold Queue.endJob at h
  split at h
  case h_1 hrun =>
    split_ifs at h with hmarked
    exact ⟨hrun, fun _ => hmarked, (Option.some.inj h).symm⟩
  case h_2 hrun hr => exact ⟨hrun, fun heq => absurd heq hr, (Option.some.inj h).symm⟩
  case h_3 => exact absurd h (by simp)

theorem Inv.endJob {r : Result α ε} {e : QueueEffect α ε} (h : Inv q trace) (hi : i < q.count)
    (he : q.endJob i r = some e) : Inv e.shared (trace ++ e.seen) := by
  obtain ⟨hjob, hmarked, rfl⟩ := endJob_cases he
  have hover : ¬(q.link i).run.Over := by rw [hjob]; exact id
  have hbegun : (q.link i).run.Begun := by rw [hjob]; trivial
  have hmoves : Moves q i { q.link i with run := .finished r } := by
    refine h.chained.moves_run ?_ (fun _ => h.chained.begun i hbegun) hover fun _ => ?_
    · rintro (hrun | ⟨-, hnot⟩)
      · exact h.chained.run i (.inr ⟨hmarked (Run.finished.inj hrun), hover⟩)
      · exact absurd trivial hnot
    · trivial
  have hlater : Later q { q.endRun i r with last := q.now } :=
    { hmoves.later with last := h.timed.clock }
  have hself : (({ q.endRun i r with last := q.now } : Queue α ε).link i).run = .finished r := by
    change ((q.set i _).link i).run = _
    rw [link_set_self]
  have hother : ∀ j, j ≠ i → (({ q.endRun i r with last := q.now } : Queue α ε).link j) =
      q.link j := fun j hji => link_set_of_ne hji
  have hchained := h.chained.set hi hmoves
  refine
    { chained := { hchained with }
      timed := { clock := le_rfl, delaying := fun j deadline k hj => ?_ }
      recorded := h.recorded.append hlater (by simp) ?_ ?_ (by simp) ?_
        (List.pairwise_singleton _ _) }
  · -- no other link is in its delay while this one is in its job
    by_cases hji : j = i
    · subst hji
      exact absurd (hself.symm.trans hj) (by simp)
    · rw [hother j hji] at hj
      have hbegun' : (q.link j).run.Begun := by rw [hj]; trivial
      have hover' : ¬(q.link j).run.Over := by rw [hj]; exact id
      exact absurd (h.chained.eq_of_begun hbegun' hbegun hover' hover) hji
  · intro j r' time hmem
    obtain ⟨rfl, rfl, rfl⟩ := Seen.ended.inj (List.mem_singleton.mp hmem)
    exact ⟨hself, le_rfl⟩
  · intro j r' hr' hne
    by_cases hji : j = i
    · subst hji
      obtain rfl := Run.finished.inj (hself.symm.trans hr')
      exact .inr ⟨q.now, List.mem_cons_self⟩
    · rw [hother j hji] at hr'
      exact .inl hr'
  · intro e he e' he'
    rw [List.mem_singleton.mp he']
    cases e with
    | started => trivial
    | ended => trivial
    | received => trivial

/-- What leaves `_run` and the record alone. -/
theorem Inv.set_rest (h : Inv q trace) (hi : i < q.count) (hl : Moves q i l)
    (hrun : l.run = (q.link i).run) : Inv (q.set i l) trace := by
  apply h.set hi hl
  · intro deadline interval hdelaying
    exact h.timed.delaying i deadline interval (hrun.symm.trans hdelaying)
  · exact fun r hover _ => hrun.symm.trans hover

theorem swallowed_returned {r : Result α ε} (h : swallowed r = .returned) : r ≠ .cancelled := by
  rintro rfl
  exact absurd h (by simp [swallowed])

theorem swallowed_cancelled {r : Result α ε} (h : swallowed r = .cancelled) : r = .cancelled := by
  cases r with
  | returned => exact absurd h (by simp [swallowed])
  | raised => exact absurd h (by simp [swallowed])
  | cancelled => rfl

/-- `_swallow` ends as it is marked, or as `_run` has ended. -/
theorem resumeSwallow_cases {e : QueueEffect α ε} (h : q.resumeSwallow i = some e) :
    (q.link i).swallow ≠ .returned ∧ ∃ swallow, e = { shared := q.set i { q.link i with swallow } } ∧
      (swallow = .cancelled → (q.link i).swallowMarked = true ∨ (q.link i).run = .finished .cancelled) ∧
      (swallow = .returned → ∃ r, (q.link i).run = .finished r ∧ r ≠ .cancelled) := by
  have hswallowed : ∀ {r : Result α ε}, (q.link i).run = .finished r →
      (swallowed r = .cancelled →
        (q.link i).swallowMarked = true ∨ (q.link i).run = .finished .cancelled) ∧
      (swallowed r = .returned → ∃ r, (q.link i).run = .finished r ∧ r ≠ .cancelled) := by
    intro r hrun
    constructor
    · intro hs
      exact .inr (hrun.trans (congrArg Run.finished (swallowed_cancelled hs)))
    · exact fun hs => ⟨r, hrun, swallowed_returned hs⟩
  unfold Queue.resumeSwallow at h
  split at h
  case h_1 hcreated =>
    refine ⟨by simp [hcreated], ?_⟩
    split_ifs at h with hmarked
    · exact ⟨.cancelled, (Option.some.inj h).symm, fun _ => .inl hmarked, by simp⟩
    · split at h
      case h_1 r hrun =>
        obtain ⟨hc, hr⟩ := hswallowed hrun
        exact ⟨swallowed r, (Option.some.inj h).symm, hc, hr⟩
      case h_2 => exact ⟨.waiting, (Option.some.inj h).symm, by simp, by simp⟩
  case h_2 r hwaiting hrun =>
    refine ⟨by simp [hwaiting], ?_⟩
    split_ifs at h with hmarked
    · exact ⟨.cancelled, (Option.some.inj h).symm, fun _ => .inl hmarked, by simp⟩
    · obtain ⟨hc, hr⟩ := hswallowed hrun
      exact ⟨swallowed r, (Option.some.inj h).symm, hc, hr⟩
  case h_3 => exact absurd h (by simp)

theorem Inv.resumeSwallow {e : QueueEffect α ε} (h : Inv q trace) (hi : i < q.count)
    (he : q.resumeSwallow i = some e) : Inv e.shared (trace ++ e.seen) := by
  obtain ⟨hkept, swallow, rfl, hcancelled, hreturned⟩ := resumeSwallow_cases he
  rw [List.append_nil]
  exact h.set_rest hi (h.chained.moves_swallow hcancelled hreturned hkept) rfl

/-- The caller gets the end of `_run`, or that of its own cancellation. -/
theorem Inv.receive (h : Inv q trace) (hi : i < q.count) {r : Result α ε}
    (hr : (q.link i).run = .finished r ∨ r = .cancelled ∧ (q.link i).asked = true) :
    Inv (q.set i { q.link i with received := true }) (trace ++ [.received i r]) := by
  have hmoves : Moves q i { q.link i with received := true } :=
    h.chained.moves_rest rfl rfl id (h.chained.swallow i) (h.chained.returned i) id
      (h.chained.caller i)
  have hset := h.set_rest hi hmoves rfl
  refine
    { chained := hset.chained
      timed := hset.timed
      recorded := h.recorded.append hmoves.later (by simp) (by simp) ?_ ?_ ?_
        (List.pairwise_singleton _ _) }
  · intro j r' hr' hne
    by_cases hji : j = i
    · subst hji
      rw [link_set_self] at hr'
      exact .inl hr'
    · rw [link_set_of_ne hji] at hr'
      exact .inl hr'
  · intro j r' hmem
    obtain ⟨rfl, rfl⟩ := Seen.received.inj (List.mem_singleton.mp hmem)
    rw [link_set_self]
    exact hr
  · intro e he e' he'
    rw [List.mem_singleton.mp he']
    cases e with
    | started => trivial
    | ended => trivial
    | received => trivial

theorem Inv.resumeCaller {e : QueueEffect α ε} (h : Inv q trace) (hi : i < q.count)
    (he : q.resumeCaller i = some e) : Inv e.shared (trace ++ e.seen) := by
  unfold Queue.resumeCaller at he
  split at he
  case h_2 => exact absurd he (by simp)
  case h_1 r hrun =>
    split_ifs at he with hreceived hmarked
    · obtain rfl := Option.some.inj he
      exact h.receive hi (.inr ⟨rfl, h.chained.caller i hmarked⟩)
    · obtain rfl := Option.some.inj he
      exact h.receive hi (.inl hrun)

/-- A cancellation that does not reach the link before marks `_run`, or the `_swallow` that it
awaits. -/
theorem cancelRun_cases (hreaches : ¬q.Reaches i) (hover : ¬(q.link i).run.Over) :
    q.cancelRun i = q.set i { q.link i with runMarked := true } ∨
      ∃ j, i = j + 1 ∧ q.cancelRun i = q.set j { q.link j with swallowMarked := true } := by
  cases i with
  | zero =>
    left
    rw [Queue.cancelRun, if_neg hover]
  | succ j =>
    rw [Queue.cancelRun]
    cases hrun : (q.link (j + 1)).run with
    | finished r => exact absurd (over_iff.mpr ⟨r, hrun⟩) hover
    | waiting =>
      cases hswallow : (q.link j).swallow with
      | created => exact .inr ⟨j, rfl, rfl⟩
      | waiting =>
        have hbefore : (q.link j).run.Over := by
          by_contra hnot
          exact hreaches ⟨hrun, hswallow, hnot⟩
        dsimp only
        rw [if_pos hbefore]
        exact .inr ⟨j, rfl, rfl⟩
      | returned => exact .inl rfl
      | cancelled => exact .inl rfl
    | created => exact .inl rfl
    | delaying deadline interval => exact .inl rfl
    | job => exact .inl rfl

theorem Inv.cancelRun (h : Inv q trace) (hlast : i + 1 = q.count) (hreaches : ¬q.Reaches i)
    (hover : ¬(q.link i).run.Over) (hasked : (q.link i).asked = true) :
    Inv (q.cancelRun i) trace := by
  obtain heq | ⟨j, rfl, heq⟩ := cancelRun_cases hreaches hover
  · rw [heq]
    exact h.set_rest (by omega) (h.chained.moves_runMarked hlast hasked) rfl
  · rw [heq]
    have hj : j < q.count := by omega
    apply h.set_rest (l := { q.link j with swallowMarked := true }) hj _ rfl
    apply h.chained.moves_rest (l := { q.link j with swallowMarked := true }) rfl rfl id
    · intro _
      rw [← hlast]
      exact ⟨le_rfl, hasked⟩
    · exact h.chained.returned j
    · exact id
    · exact h.chained.caller j

theorem Inv.markCaller (h : Inv q trace) (hi : i < q.count) (hasked : (q.link i).asked = true) :
    Inv (q.set i { q.link i with callerMarked := true }) trace := by
  apply h.set_rest (l := { q.link i with callerMarked := true }) hi _ rfl
  apply h.chained.moves_rest (l := { q.link i with callerMarked := true }) rfl rfl id
  · exact h.chained.swallow i
  · exact h.chained.returned i
  · exact id
  · exact fun _ => hasked

theorem Inv.cancelCaller (h : Inv q trace) (hi : i < q.count)
    (halone : (q.link i).run.Over ∨ i + 1 = q.count ∧ ¬q.Reaches i) :
    Inv (q.cancelCaller i) trace := by
  have hasked : Inv (q.set i { q.link i with asked := true }) trace := by
    apply h.set_rest (l := { q.link i with asked := true }) hi _ rfl
    exact h.chained.moves_rest rfl rfl (fun _ => rfl) (h.chained.swallow i) (h.chained.returned i)
      id fun _ => rfl
  have hrun : ∀ j, ((q.set i { q.link i with asked := true }).link j).run = (q.link j).run := by
    intro j
    by_cases hji : j = i
    · subst hji
      rw [link_set_self]
    · rw [link_set_of_ne hji]
  have hself : ((q.set i { q.link i with asked := true }).link i).asked = true := by
    rw [link_set_self]
  unfold Queue.cancelCaller
  dsimp only
  split_ifs with hover
  · exact hasked.markCaller hi hself
  · rw [hrun] at hover
    obtain ⟨hlast, hreaches⟩ := halone.resolve_left hover
    apply hasked.cancelRun hlast _ (by rwa [hrun]) hself
    cases i with
    | zero => exact id
    | succ j =>
      rintro ⟨hwaiting, hswallow, hbefore⟩
      rw [hrun] at hwaiting hbefore
      rw [link_set_of_ne (Nat.ne_of_lt (Nat.lt_succ_self j))] at hswallow
      exact hreaches ⟨hwaiting, hswallow, hbefore⟩

end Trace

/-! ### Runs -/

section Runs

variable {p p' : QueuePool α ε} {a : Action Empty (Happening α ε)}

theorem inv_step (h : Inv p.shared p.trace) (halone : Alone p a) (hs : system.step p a = some p') :
    Inv p'.shared p'.trace := by
  obtain ⟨i, o, t, -⟩ | ⟨c, r, rfl, hr, rfl⟩ := System.step_cases hs
  · exact t.elim
  · cases c with
    | enqueue =>
      obtain rfl := Option.some.inj hr
      -- a link that is not there yet is not cancelled
      have hsound : ∀ i, ¬(p.shared.link i).RunBroken ∧ ¬(p.shared.link i).SwallowBroken := by
        intro i
        obtain hi | hi := Nat.lt_or_ge i p.shared.count
        · exact halone i hi
        · rw [h.chained.fresh i hi]
          simp [Link.RunBroken, Link.SwallowBroken]
      dsimp only
      rw [List.append_nil]
      refine
        { chained :=
            { h.chained with
              fresh := fun i hi => h.chained.fresh i (Nat.le_of_succ_le hi)
              run := fun i hi => absurd hi (hsound i).1
              swallow := fun i hi => absurd hi (hsound i).2 }
          timed := { h.timed with }
          recorded := { h.recorded with } }
    | resumeRun i =>
      obtain ⟨hi, hr⟩ := Option.ite_none_right_eq_some.mp hr
      exact h.resumeRun hi hr
    | endJob i r =>
      obtain ⟨hi, hr⟩ := Option.ite_none_right_eq_some.mp hr
      exact h.endJob hi hr
    | resumeSwallow i =>
      obtain ⟨hi, hr⟩ := Option.ite_none_right_eq_some.mp hr
      exact h.resumeSwallow hi hr
    | resumeCaller i =>
      obtain ⟨hi, hr⟩ := Option.ite_none_right_eq_some.mp hr
      exact h.resumeCaller hi hr
    | cancelCaller i =>
      obtain ⟨⟨hi, -⟩, hr⟩ := Option.ite_none_right_eq_some.mp hr
      obtain rfl := Option.some.inj hr
      dsimp only
      rw [List.append_nil]
      exact h.cancelCaller hi halone
    | tick ms =>
      obtain rfl := Option.some.inj hr
      dsimp only
      rw [List.append_nil]
      exact
        { chained := { h.chained with }
          timed := { h.timed with clock := h.timed.clock.trans (Nat.le_add_right _ ms) }
          recorded := { h.recorded with } }
    | configure interval =>
      obtain rfl := Option.some.inj hr
      dsimp only
      rw [List.append_nil]
      exact
        { chained := { h.chained with }
          timed := { h.timed with }
          recorded := { h.recorded with } }

theorem inv_start (now : ℕ) : Inv (start now : QueuePool α ε).shared [] where
  chained :=
    { fresh := fun _ _ => rfl
      run := by simp [start, Link.RunBroken]
      swallow := by simp [start, Link.SwallowBroken]
      begun := fun _ h => h.elim
      returned := by simp [start]
      caller := by simp [start] }
  timed := { clock := Nat.zero_le _, delaying := by simp [start] }
  recorded :=
    { started := by simp
      ended := by simp
      finished := by simp [start]
      received := by simp
      order := List.Pairwise.nil }

theorem Inv.queueRight (h : Inv p.shared p.trace) : QueueRight p where
  serial i j hi hj := by
    apply h.chained.eq_of_begun
    all_goals first | rw [hi] | rw [hj]
    all_goals first | trivial | exact id
  order := h.recorded.order
  done i r hr := by
    by_cases hne : r = .cancelled
    · subst hne
      exact .inl (h.chained.run i (.inl hr)).2
    · exact .inr ⟨hne, h.recorded.finished i r hr hne⟩
  cancelled i time hmem :=
    (h.chained.run i (.inl (h.recorded.ended i .cancelled time hmem).1)).2
  received i r hmem := by
    rcases h.recorded.received i r hmem with hr | hcancelled
    · by_cases hne : r = .cancelled
      · subst hne
        exact .inl ⟨rfl, (h.chained.run i (.inl hr)).2⟩
      · exact .inr (h.recorded.finished i r hr hne)
    · exact .inl hcancelled

/-- In every run that meets the condition the queue is right in every state. -/
theorem queueRight_of_alone (now : ℕ) (as : List (Action Empty (Happening α ε)))
    (h : system.Along Alone (start now) as) : system.Throughout QueueRight (start now) as := by
  apply System.Throughout.mono (P := fun p => Inv p.shared p.trace)
  · exact fun p hp => hp.queueRight
  · exact System.throughout_of_along (fun p a q hp ha hs => inv_step hp ha hs) (inv_start now) h

/-- The job of the first of two calls fails while the second one waits for it, and the caller of the
second one is cancelled in its delay. -/
def twoCalls : List (Action Empty (Happening ℕ ℕ)) :=
  [.event .enqueue, .event (.resumeRun 0), .event .enqueue, .event (.resumeSwallow 0),
    .event (.resumeRun 1), .event (.resumeSwallow 1), .event (.endJob 0 (.raised 5)),
    .event (.resumeSwallow 0), .event (.resumeRun 1), .event (.tick 100),
    .event (.cancelCaller 1), .event (.resumeRun 1), .event (.resumeCaller 0),
    .event (.resumeCaller 1)]

/-- The first caller gets the error of its job, and the second one that of its cancellation. -/
theorem queueRight_of_alone_twoCalls :
    system.Throughout QueueRight (start 3000 : QueuePool ℕ ℕ) twoCalls ∧
      (system.run (start 3000) twoCalls).map Pool.trace = some
        [.started 0 3000 2500, .ended 0 (.raised 5) 3000, .received 0 (.raised 5),
          .received 1 .cancelled] :=
  ⟨queueRight_of_alone 3000 twoCalls (by decide), rfl⟩

end Runs

/-- The caller of the second link is cancelled while the job of the first one runs. -/
def cancelledBehind : List (Action Empty (Happening ℕ ℕ)) :=
  [.event .enqueue, .event (.resumeRun 0), .event (.resumeSwallow 0), .event .enqueue,
    .event (.resumeRun 1), .event (.resumeSwallow 1), .event (.cancelCaller 1),
    .event (.endJob 0 .cancelled), .event (.resumeCaller 0)]

/-- The job of the first caller is cancelled. -/
theorem job_of_other_cancelled : ∃ p : QueuePool ℕ ℕ,
    system.run (start 3000) cancelledBehind = some p ∧ ¬QueueRight p := by
  refine ⟨_, rfl, fun h => ?_⟩
  exact Bool.false_ne_true
    (h.cancelled 0 3000 (List.mem_cons_of_mem _ List.mem_cons_self))

end AllInOneBackup.Cloud123.DownloadQueue
