import AllInOneBackup.LitePan.Upload.Manager

/-! Free slots and pending tasks. Whoever takes a slot stays pending until a later patch, and that
patch broadcasts nothing; so a task that found the winner before it in the queue sleeps on beside
a free slot. Wherever no task leaves the queue unannounced in front of a sleeping one, and no run
leaves its task pending behind it, a pending task sleeps only while all slots of its kind are
taken. -/

namespace AllInOneBackup.LitePan.Upload

open Concurrency Manager

variable {K : Type} [LinearOrder K]

/-! ### The property -/

/-- A run is blocked in `runCond.Wait`, or it executes a task whose status is running, or has ended;
a caller of `Resume` or `Delete` may wait for a run. -/
def Settled (m : Manager K) : Goroutine K → Prop
  | .waiting _ ticket => m.broadcasts ≤ ticket
  | .executing _ r => ∃ st, m.tasks.lookup r.taskID = some st ∧ st.status = .running
  | .resuming _ _ | .awaiting _ _ | .popping _ | .ended => True
  | _ => False

/-- Where all goroutines have settled and a task that waits is pending, there are at least as many
running tasks of its kind as the limit. -/
def WorkConserving (p : UploadPool K) : Prop :=
  (∀ t ∈ p.tasks, Settled p.shared t) → ∀ r ticket st, .waiting r ticket ∈ p.tasks →
    p.shared.tasks.lookup r.taskID = some st → st.status = .pending →
    p.shared.limit ≤ p.shared.running st.slotKind

/-! ### The condition -/

/-- `acquireRunSlot` would grant the run a slot. -/
def Ready (m : Manager K) (r : Run K) : Prop :=
  m.stopping = false ∧ (∃ st, m.tasks.lookup r.taskID = some st ∧ st.runDone = r.done) ∧
    m.admits r.taskID = true

/-- The goroutine has yet to come to a broadcast. -/
def Wakes : Goroutine K → Prop
  | .releasing _ _ _ | .broadcasting _ | .cancelling _ _ => True
  | _ => False

/-- The runs asleep in `runCond.Wait`, with no broadcast since. -/
def sleepers (p : UploadPool K) : List (Run K) :=
  p.tasks.filterMap fun
    | .waiting r ticket => if p.shared.broadcasts ≤ ticket then some r else none
    | _ => none

/-- With the manager as given no run that is asleep could take a slot, or a broadcast is still to
come. -/
def NoneReady (p : UploadPool K) (m : Manager K) : Prop :=
  (∃ t ∈ p.tasks, Wakes t) ∨ ∀ r ∈ sleepers p, ¬Ready m r

instance (m : Manager K) (r : Run K) : Decidable (Ready m r) :=
  decidable_of_iff (m.stopping = false ∧
    (m.tasks.lookup r.taskID).map TaskState.runDone = some r.done ∧ m.admits r.taskID = true) <| by
      simp [Ready]

instance : DecidablePred (Wakes (K := K))
  | .releasing _ _ _ | .broadcasting _ | .cancelling _ _ => .isTrue trivial
  | .starting _ | .gate _ | .acquiring _ | .waiting _ _ | .holding _ _ | .executing _ _
  | .finishing _ _ _ | .exiting _ | .closing _ | .persisting _ | .resuming _ _ | .awaiting _ _
  | .popping _ | .ended => .isFalse id

instance (p : UploadPool K) (m : Manager K) : Decidable (NoneReady p m) :=
  inferInstanceAs (Decidable ((∃ t ∈ p.tasks, Wakes t) ∨ ∀ r ∈ sleepers p, ¬Ready m r))

/-- What is asked of a turn. Taking a slot uses up the priority of a resumed task; the patch to
running, a progress report and the removal of tasks take a task out of the queue; none of them
broadcasts, and none may leave a sleeping run ready. No run may give its slot back because it was
cancelled while its task is pending, and none may make a task pending that another run has taken
over. -/
def HandsOver (p : UploadPool K) (o : Outcome) : Goroutine K → Prop
  | .acquiring r | .waiting r _ => ∀ st ∈ p.shared.tasks.lookup r.taskID,
      Ready p.shared r → NoneReady p (p.shared.grant r.taskID st.slotKind r.ctx)
  | .holding kind r => o = .turn → ∀ st ∈ p.shared.tasks.lookup r.taskID, st.status = .pending →
      if p.shared.ctxErr r.ctx then p.shared.stopping = true
      else NoneReady p (p.shared.start kind r.taskID)
  | .executing kind r =>
    (o = .progress → NoneReady p (p.shared.updateProgress kind r.taskID)) ∧
      (o = .downloaded → p.shared.ctxErr r.ctx = false →
        ∀ st ∈ p.shared.tasks.lookup r.taskID, st.runDone = r.done)
  | .persisting taskIDs => o = .persistFailed → NoneReady p (taskIDs.foldl removeTask p.shared)
  | .popping taskID => NoneReady p (p.shared.removeTask taskID)
  | _ => True

def StepHandsOver (p : UploadPool K) : Action Outcome (Call K) → Prop
  | .resume i o => ∀ t ∈ p.tasks[i]?, HandsOver p o t
  | .event _ => True

instance (p : UploadPool K) (o : Outcome) : DecidablePred (HandsOver p o)
  | .acquiring r | .waiting r _ => inferInstanceAs (Decidable (∀ st ∈ p.shared.tasks.lookup r.taskID,
      Ready p.shared r → NoneReady p (p.shared.grant r.taskID st.slotKind r.ctx)))
  | .holding kind r => inferInstanceAs (Decidable (o = .turn →
      ∀ st ∈ p.shared.tasks.lookup r.taskID, st.status = .pending →
        if p.shared.ctxErr r.ctx then p.shared.stopping = true
        else NoneReady p (p.shared.start kind r.taskID)))
  | .executing kind r => inferInstanceAs (Decidable
      ((o = .progress → NoneReady p (p.shared.updateProgress kind r.taskID)) ∧
        (o = .downloaded → p.shared.ctxErr r.ctx = false →
          ∀ st ∈ p.shared.tasks.lookup r.taskID, st.runDone = r.done)))
  | .persisting taskIDs => inferInstanceAs (Decidable (o = .persistFailed →
      NoneReady p (taskIDs.foldl removeTask p.shared)))
  | .popping taskID => inferInstanceAs (Decidable (NoneReady p (p.shared.removeTask taskID)))
  | .starting _ | .gate _ | .finishing _ _ _ | .releasing _ _ _ | .exiting _ | .closing _
  | .broadcasting _ | .resuming _ _ | .cancelling _ _ | .awaiting _ _ | .ended => .isTrue trivial

instance (p : UploadPool K) : DecidablePred (StepHandsOver p)
  | .resume i o => inferInstanceAs (Decidable (∀ t ∈ p.tasks[i]?, HandsOver p o t))
  | .event _ => .isTrue trivial

/-! ### What a task needs to go on -/

/-- The goroutine will bring the task to `acquireRunSlot` again, or has taken a slot for it. -/
def Serves (taskID : K) (done : ℕ) : Goroutine K → Prop
  | .starting id => id = taskID
  | .persisting ids => taskID ∈ ids
  | .gate r | .acquiring r | .waiting r _ | .holding _ r => r.taskID = taskID ∧ r.done = done
  | .releasing _ r again => again = true ∧ r.taskID = taskID ∧ r.done = done
  | .broadcasting next => Serves taskID done next
  | _ => False

/-- The numbers and statuses that a goroutine holds are ones it can have. -/
@[simp] def Fits (m : Manager K) : Goroutine K → Prop
  | .gate r | .acquiring r | .holding _ r | .executing _ r | .releasing _ r _ | .exiting r
  | .closing r => r.done < m.chans
  | .waiting r ticket => r.done < m.chans ∧ ticket ≤ m.broadcasts
  | .finishing _ r status => r.done < m.chans ∧ status ≠ .pending
  | .broadcasting next => Fits m next ∧ ∀ r ticket, next ≠ .waiting r ticket
  | .cancelling _ next => Fits m next ∧ ∀ r ticket, next ≠ .waiting r ticket
  | _ => True

structure Inv (p : UploadPool K) : Prop where
  fits : ∀ t ∈ p.tasks, Fits p.shared t
  chans : ∀ id st, p.shared.tasks.lookup id = some st → st.runDone < p.shared.chans
  served : p.shared.stopping = false → ∀ id st, p.shared.tasks.lookup id = some st →
    st.status = .pending → ∃ t ∈ p.tasks, Serves id st.runDone t
  woken : (∃ t ∈ p.tasks, Wakes t) ∨
    ∀ r ∈ sleepers p, p.shared.stopping = false ∧ ¬Ready p.shared r

omit [LinearOrder K] in
theorem mem_sleepers {p : UploadPool K} {r : Run K} : r ∈ sleepers p ↔
    ∃ ticket, .waiting r ticket ∈ p.tasks ∧ p.shared.broadcasts ≤ ticket := by
  simp only [sleepers, List.mem_filterMap]
  constructor
  · rintro ⟨t, ht, h⟩
    cases t with
    | waiting r' ticket =>
      obtain ⟨hle, h⟩ := Option.ite_none_right_eq_some.mp h
      exact ⟨ticket, Option.some.inj h ▸ ht, hle⟩
    | _ => cases h
  · rintro ⟨ticket, ht, hle⟩
    exact ⟨.waiting r ticket, ht, if_pos hle⟩

/-- The first pending task of a kind is served, and whoever serves it has settled only asleep; so
no slot is free for it. -/
theorem Inv.workConserving {p : UploadPool K} (h : Inv p) : WorkConserving p := by
  intro hsettled r ticket st hr hst hpending
  by_contra hfree
  have hawake : ∀ t ∈ p.tasks, ¬Wakes t := by
    intro t ht hw
    have hs := hsettled t ht
    cases t <;> first | exact hw | exact hs
  obtain ⟨t, ht, hw⟩ | hasleep := h.woken
  · exact hawake t ht hw
  · have hstop := (hasleep r (mem_sleepers.mpr ⟨ticket, hr, hsettled _ hr⟩)).1
    obtain ⟨id, first, hlookup, hp, hkind, hfirst⟩ := exists_first hst hpending
    obtain ⟨t, ht, hserves⟩ := h.served hstop id first hlookup hp
    have hadmits : p.shared.admits id = true :=
      (admits_iff id).mpr ⟨first, hlookup, hp, by rw [hkind]; omega, hkind ▸ hfirst⟩
    have hs := hsettled t ht
    cases t with
    | waiting r' ticket' =>
      obtain ⟨rfl, hdone⟩ := hserves
      have hready : Ready p.shared r' := ⟨hstop, ⟨first, hlookup, hdone.symm⟩, hadmits⟩
      exact (hasleep r' (mem_sleepers.mpr ⟨ticket', ht, hs⟩)).2 hready
    | _ => first | exact hs | exact hserves

/-! ### What a turn keeps -/

omit [LinearOrder K] in
theorem Fits.mono {m m' : Manager K} {t : Goroutine K} (h : Fits m t) (hchans : m.chans ≤ m'.chans)
    (hbroadcasts : m.broadcasts ≤ m'.broadcasts) : Fits m' t := by
  induction t with
  | waiting r ticket => exact ⟨h.1.trans_le hchans, h.2.trans hbroadcasts⟩
  | finishing kind r status => exact ⟨h.1.trans_le hchans, h.2⟩
  | broadcasting next ih | cancelling cancel next ih => exact ⟨ih h.1, h.2⟩
  | starting _ | persisting _ | resuming _ _ | awaiting _ _ | popping _ | ended => trivial
  | _ => exact lt_of_lt_of_le h hchans

/-- What a turn or an event keeps: the numbers are in range, and every pending task is served by
one of the new goroutines, or was served by another than the resumed one; `lost` is what that one
served. -/
structure Keeps (m : Manager K) (lost : K → ℕ → Prop) (m' : Manager K)
    (new : List (Goroutine K)) : Prop where
  chans_le : m.chans ≤ m'.chans
  broadcasts_le : m.broadcasts ≤ m'.broadcasts
  fits : ∀ x ∈ new, Fits m' x
  chans : ∀ id st, m'.tasks.lookup id = some st → st.runDone < m'.chans
  served : m'.stopping = false → ∀ id st', m'.tasks.lookup id = some st' → st'.status = .pending →
    (∃ x ∈ new, Serves id st'.runDone x) ∨ m.stopping = false ∧
      ∃ st, m.tasks.lookup id = some st ∧ st.status = .pending ∧ st.runDone = st'.runDone ∧
        ¬lost id st.runDone

section Keeps

variable {m m' : Manager K} {lost : K → ℕ → Prop} {new : List (Goroutine K)}

/-- The tasks stay as they are, and so does the manager but for its counters. -/
theorem Keeps.of_tasks_eq (hchans : ∀ id st, m.tasks.lookup id = some st → st.runDone < m.chans)
    (htasks : m'.tasks = m.tasks) (hstop : m'.stopping = m.stopping)
    (hchans_le : m.chans ≤ m'.chans) (hbroadcasts_le : m.broadcasts ≤ m'.broadcasts)
    (hfits : ∀ x ∈ new, Fits m' x)
    (hserves : ∀ id st, m.tasks.lookup id = some st → st.status = .pending → m.stopping = false →
      lost id st.runDone → ∃ x ∈ new, Serves id st.runDone x) : Keeps m lost m' new where
  chans_le := hchans_le
  broadcasts_le := hbroadcasts_le
  fits := hfits
  chans id st h := (hchans id st (htasks ▸ h)).trans_le hchans_le
  served hs id st h hp := by
    rw [htasks] at h
    rw [hstop] at hs
    by_cases hlost : lost id st.runDone
    · exact .inl (hserves id st h hp hs hlost)
    · exact .inr ⟨hs, st, h, hp, rfl, hlost⟩

/-- One task is patched, and its run stays the same. -/
theorem Keeps.of_patch {taskID : K} {fn : TaskState → TaskState}
    (hchans : ∀ id st, m.tasks.lookup id = some st → st.runDone < m.chans)
    (hrun : ∀ st, (fn st).runDone = st.runDone) (hfits : ∀ x ∈ new, Fits m x)
    (hself : ∀ st, m.tasks.lookup taskID = some st → (fn st).status = .pending →
      (∃ x ∈ new, Serves taskID st.runDone x) ∨ st.status = .pending ∧ ¬lost taskID st.runDone)
    (hother : ∀ id done, id ≠ taskID → ¬lost id done) :
    Keeps m lost (m.patch taskID fn) new where
  chans_le := (patch_chans taskID fn).ge
  broadcasts_le := (patch_broadcasts taskID fn).ge
  fits x hx := (hfits x hx).mono (patch_chans taskID fn).ge (patch_broadcasts taskID fn).ge
  chans id st' h := by
    rw [patch_chans]
    obtain ⟨st, hst, ⟨rfl, rfl⟩ | ⟨-, rfl⟩⟩ := lookup_patch_cases h
    · exact hrun st ▸ hchans id st hst
    · exact hchans id _ hst
  served hs id st' h hp := by
    rw [patch_stopping] at hs
    obtain ⟨st, hst, ⟨rfl, rfl⟩ | ⟨hid, rfl⟩⟩ := lookup_patch_cases h
    · rw [hrun]
      obtain hserves | ⟨hpending, hlost⟩ := hself st hst hp
      · exact .inl hserves
      · exact .inr ⟨hs, st, hst, hpending, rfl, hlost⟩
    · exact .inr ⟨hs, st', hst, hp, rfl, hother id _ hid⟩

/-- Tasks are removed. -/
theorem Keeps.of_lookup_imp (hchans : ∀ id st, m.tasks.lookup id = some st → st.runDone < m.chans)
    (hlookup : ∀ id st, m'.tasks.lookup id = some st → m.tasks.lookup id = some st ∧
      ∀ done, ¬lost id done)
    (hstop : m'.stopping = m.stopping) (hchans_eq : m'.chans = m.chans)
    (hbroadcasts_eq : m'.broadcasts = m.broadcasts) (hfits : ∀ x ∈ new, Fits m x) :
    Keeps m lost m' new where
  chans_le := hchans_eq.ge
  broadcasts_le := hbroadcasts_eq.ge
  fits x hx := (hfits x hx).mono hchans_eq.ge hbroadcasts_eq.ge
  chans id st h := hchans_eq ▸ hchans id st (hlookup id st h).1
  served hs id st h hp :=
    .inr ⟨hstop ▸ hs, st, (hlookup id st h).1, hp, rfl, (hlookup id st h).2 st.runDone⟩

/-- Only the count of the slots differs. -/
theorem Keeps.of_acquireSlotLocked {kind : SlotKind}
    (h : Keeps (m.acquireSlotLocked kind) lost m' new) : Keeps m lost m' new :=
  ⟨h.chans_le, h.broadcasts_le, h.fits, h.chans, h.served⟩

end Keeps

/-- All that a pass of `acquireRunSlot` can do. -/
theorem acquireRunSlot_cases (m : Manager K) (r : Run K) :
    m.acquireRunSlot r = { shared := m, task := .exiting r } ∧ (m.stopping = false →
      ∀ st, m.tasks.lookup r.taskID = some st → st.status = .pending → st.runDone ≠ r.done) ∨
    (∃ st, m.tasks.lookup r.taskID = some st ∧ Ready m r ∧ m.acquireRunSlot r =
      { shared := m.grant r.taskID st.slotKind r.ctx
        task := .holding st.slotKind r
        seen := [.granted st.slotKind r.taskID] }) ∨
    m.acquireRunSlot r = { shared := m, task := .waiting r m.broadcasts } ∧
      m.stopping = false ∧ ¬Ready m r := by
  unfold acquireRunSlot
  cases hst : m.tasks.lookup r.taskID with
  | none => exact .inl ⟨rfl, fun _ _ h => nomatch h⟩
  | some st =>
    by_cases hexit : m.stopping ∨ st.runDone ≠ r.done ∨ st.status ≠ .pending
    · refine .inl ⟨if_pos hexit, fun hs st' h hp hdone => ?_⟩
      cases h
      simp [hs, hp, hdone] at hexit
    · have hrun : m.stopping = false ∧ st.runDone = r.done ∧ st.status = .pending := by
        simpa using hexit
      by_cases hadmits : m.admits r.taskID = true
      · refine .inr (.inl ⟨st, rfl, ⟨hrun.1, ⟨st, hst, hrun.2.1⟩, hadmits⟩, ?_⟩)
        simp only [if_neg hexit, if_pos hadmits]
      · refine .inr (.inr ⟨?_, hrun.1, fun h => hadmits h.2.2⟩)
        simp only [if_neg hexit, if_neg hadmits]

section Turn

variable {p : UploadPool K} {t : Goroutine K} {o : Outcome} {turn : UploadTurn K}

theorem keeps_acquireRunSlot {m : Manager K} {r : Run K}
    (hchans : ∀ id st, m.tasks.lookup id = some st → st.runDone < m.chans) (hr : r.done < m.chans)
    (ht : ∀ id done, Serves id done t ↔ r.taskID = id ∧ r.done = done) :
    Keeps m (fun id done => Serves id done t) (m.acquireRunSlot r).shared
      ((m.acquireRunSlot r).task :: (m.acquireRunSlot r).spawned) := by
  obtain ⟨heq, hexit⟩ | ⟨st, hst, -, heq⟩ | ⟨heq, -, -⟩ := acquireRunSlot_cases m r <;> rw [heq]
  · refine .of_tasks_eq hchans rfl rfl le_rfl le_rfl (by simpa [Fits] using hr) ?_
    intro id st hst hp hs hlost
    obtain ⟨rfl, hdone⟩ := (ht _ _).mp hlost
    exact absurd hdone.symm (hexit hs st hst hp)
  · refine .of_acquireSlotLocked (.of_patch hchans (fun _ => rfl) ?_ (fun st hst hp => ?_)
      (fun id done hid hlost => ?_))
    · simpa [Fits, acquireSlotLocked] using hr
    · by_cases hlost : Serves r.taskID st.runDone t
      · exact .inl ⟨_, List.mem_cons_self, rfl, ((ht _ _).mp hlost).2⟩
      · exact .inr ⟨hp, hlost⟩
    · exact hid ((ht _ _).mp hlost).1.symm
  · refine .of_tasks_eq hchans rfl rfl le_rfl le_rfl (by simpa [Fits] using hr) ?_
    intro id st hst hp hs hlost
    exact ⟨_, List.mem_cons_self, (ht _ _).mp hlost⟩

theorem keeps_resumeTask {m : Manager K} {taskID : K} {lost : K → ℕ → Prop}
    (hchans : ∀ id st, m.tasks.lookup id = some st → st.runDone < m.chans)
    (hlost : ∀ id done, ¬lost id done) :
    Keeps m lost (m.resumeTask taskID) [.starting taskID] where
  chans_le := Nat.le_succ _
  broadcasts_le := (patch_broadcasts _ _).ge
  fits := by simp [Fits]
  chans id st' h := by
    obtain ⟨st, hst, ⟨rfl, rfl⟩ | ⟨-, rfl⟩⟩ := lookup_patch_cases h
    · exact Nat.lt_succ_self _
    · exact (hchans id st' hst).trans (Nat.lt_succ_self _)
  served hs id st' h hp := by
    obtain ⟨st, hst, ⟨rfl, rfl⟩ | ⟨-, rfl⟩⟩ := lookup_patch_cases h
    · exact .inl ⟨_, List.mem_singleton_self _, rfl⟩
    · exact .inr ⟨(patch_stopping _ _).symm.trans hs, st', hst, hp, rfl, hlost _ _⟩

/-- What the resumed goroutine served. -/
abbrev lost (t : Goroutine K) (id : K) (done : ℕ) : Prop := Serves id done t

theorem keeps_starting {taskID : K}
    (hchans : ∀ id st, p.shared.tasks.lookup id = some st → st.runDone < p.shared.chans)
    (h : resume p.shared (.starting taskID) o = some turn) :
    Keeps p.shared (lost (.starting taskID)) turn.shared (turn.task :: turn.spawned) := by
  cases o <;> cases h
  cases hst : p.shared.tasks.lookup taskID with
  | none =>
    refine .of_tasks_eq hchans rfl rfl le_rfl le_rfl (by simp [Fits]) ?_
    rintro id st h - - rfl
    simp [hst] at h
  | some st =>
    refine .of_tasks_eq hchans rfl rfl le_rfl le_rfl ?_ ?_
    · simpa [Fits] using hchans taskID st hst
    · rintro id st' h - - rfl
      rw [hst] at h
      cases h
      exact ⟨_, List.mem_cons_self, rfl, rfl⟩

theorem keeps_holding {kind : SlotKind} {r : Run K}
    (hchans : ∀ id st, p.shared.tasks.lookup id = some st → st.runDone < p.shared.chans)
    (hfits : r.done < p.shared.chans) (hok : HandsOver p o (.holding kind r))
    (h : resume p.shared (.holding kind r) o = some turn) :
    Keeps p.shared (lost (.holding kind r)) turn.shared (turn.task :: turn.spawned) := by
  cases o with
  | turn =>
    cases h
    cases hst : p.shared.tasks.lookup r.taskID with
    | none =>
      refine .of_tasks_eq hchans rfl rfl le_rfl le_rfl (by simpa [Fits] using hfits) ?_
      rintro id st h - - ⟨rfl, -⟩
      simp [hst] at h
    | some st =>
      by_cases hidle : p.shared.ctxErr r.ctx ∨ st.status ≠ .pending
      · simp only [if_pos hidle]
        refine .of_tasks_eq hchans rfl rfl le_rfl le_rfl (by simpa [Fits] using hfits) ?_
        rintro id st' h hp hs ⟨rfl, -⟩
        obtain rfl : st = st' := Option.some.inj (hst.symm.trans h)
        obtain hctx | hstatus := hidle
        · have hstop := hok rfl st hst hp
          rw [if_pos hctx] at hstop
          exact absurd (hstop.symm.trans hs) (by decide)
        · exact absurd hp hstatus
      · simp only [if_neg hidle]
        refine .of_patch hchans ?_ (by simpa [Fits] using hfits) ?_ ?_
        · intro st
          cases kind <;> rfl
        · intro st _ hp
          cases kind <;> cases hp
        · rintro id done hid ⟨rfl, -⟩
          exact hid rfl
  | failed =>
    cases kind <;> cases h
    refine .of_patch hchans (fun _ => rfl) (by simpa [Fits] using hfits)
      (fun _ _ hp => nomatch hp) ?_
    rintro id done hid ⟨rfl, -⟩
    exact hid rfl
  | _ => cases kind <;> cases h

theorem keeps_executing {kind : SlotKind} {r : Run K}
    (hchans : ∀ id st, p.shared.tasks.lookup id = some st → st.runDone < p.shared.chans)
    (hfits : r.done < p.shared.chans) (hok : HandsOver p o (.executing kind r))
    (h : resume p.shared (.executing kind r) o = some turn) :
    Keeps p.shared (lost (.executing kind r)) turn.shared (turn.task :: turn.spawned) := by
  cases o with
  | progress =>
    cases h
    refine .of_patch hchans ?_ (by simpa [Fits] using hfits) ?_ fun _ _ _ => id
    · intro st
      cases kind
      · rfl
      · simp only []
        split_ifs <;> rfl
    · intro st _ hp
      refine .inr ⟨?_, id⟩
      cases kind
      · cases hp
      · simp only [] at hp
        split_ifs at hp with hcompleted
        exact hp
  | failed =>
    cases h
    cases hst : p.shared.tasks.lookup r.taskID with
    | none =>
      exact .of_tasks_eq hchans rfl rfl le_rfl le_rfl (by simpa [Fits] using hfits)
        fun _ _ _ _ _ => False.elim
    | some st =>
      refine .of_tasks_eq hchans rfl rfl le_rfl le_rfl ?_ fun _ _ _ _ _ => False.elim
      have hstatus : p.shared.errorStatus st r.ctx ≠ .pending := by
        unfold errorStatus
        split_ifs <;> nofun
      simpa [Fits, hstatus] using hfits
  | uploaded skipped =>
    cases kind <;> cases h
    cases hst : p.shared.tasks.lookup r.taskID with
    | none =>
      exact .of_tasks_eq hchans rfl rfl le_rfl le_rfl (by simpa [Fits] using hfits)
        fun _ _ _ _ _ => False.elim
    | some st =>
      refine .of_tasks_eq hchans rfl rfl le_rfl le_rfl ?_ fun _ _ _ _ _ => False.elim
      cases skipped <;> simpa [Fits] using hfits
  | downloaded =>
    cases kind <;> cases h
    refine .of_patch hchans ?_ (by simpa [Fits] using hfits) ?_ fun _ _ _ => id
    · intro st
      split_ifs <;> rfl
    · intro st hst hp
      cases hctx : p.shared.ctxErr r.ctx with
      | false => exact .inl ⟨_, List.mem_cons_self, rfl, rfl, (hok.2 rfl hctx st hst).symm⟩
      | true => exact .inr ⟨by simpa [hctx] using hp, id⟩
  | _ => cases h

theorem keeps_finishing {kind : SlotKind} {r : Run K} {status : Status}
    (hchans : ∀ id st, p.shared.tasks.lookup id = some st → st.runDone < p.shared.chans)
    (hfits : r.done < p.shared.chans) (hstatus : status ≠ .pending)
    (h : resume p.shared (.finishing kind r status) o = some turn) :
    Keeps p.shared (lost (.finishing kind r status)) turn.shared (turn.task :: turn.spawned) := by
  cases o <;> cases h
  refine .of_patch hchans ?_ (by simpa [Fits] using hfits) ?_ fun _ _ _ => id
  · intro st
    cases kind
    · simp only []
      split_ifs <;> rfl
    · rfl
  · intro st _ hp
    refine absurd ?_ hstatus
    cases kind
    · simp only [] at hp
      split_ifs at hp <;> exact hp
    · exact hp

theorem keeps_exiting {r : Run K}
    (hchans : ∀ id st, p.shared.tasks.lookup id = some st → st.runDone < p.shared.chans)
    (hfits : r.done < p.shared.chans) (h : resume p.shared (.exiting r) o = some turn) :
    Keeps p.shared (lost (.exiting r)) turn.shared (turn.task :: turn.spawned) := by
  cases o <;> cases h
  refine .of_patch hchans ?_ (by simpa [Fits] using hfits) ?_ fun _ _ _ => id
  · intro st
    split_ifs <;> rfl
  · intro st _ hp
    refine .inr ⟨?_, id⟩
    split_ifs at hp <;> exact hp

theorem keeps_persisting {taskIDs : List K}
    (hchans : ∀ id st, p.shared.tasks.lookup id = some st → st.runDone < p.shared.chans)
    (h : resume p.shared (.persisting taskIDs) o = some turn) :
    Keeps p.shared (lost (.persisting taskIDs)) turn.shared (turn.task :: turn.spawned) := by
  cases o with
  | turn =>
    cases h
    refine .of_tasks_eq hchans rfl rfl le_rfl le_rfl (by simp [Fits]) fun id st _ _ _ hlost => ?_
    exact ⟨.starting id, List.mem_cons_of_mem _ (List.mem_map_of_mem hlost), rfl⟩
  | persistFailed =>
    cases h
    obtain ⟨tasks, heq, hlookup⟩ := foldl_removeTask p.shared taskIDs
    rw [heq]
    exact .of_lookup_imp hchans
      (fun id st h => ⟨(hlookup id st h).2, fun _ => (hlookup id st h).1⟩)
      rfl rfl rfl (by simp [Fits])
  | _ => cases h

theorem keeps_resuming {taskID : K} {done : ℕ}
    (hchans : ∀ id st, p.shared.tasks.lookup id = some st → st.runDone < p.shared.chans)
    (h : resume p.shared (.resuming taskID done) o = some turn) :
    Keeps p.shared (lost (.resuming taskID done)) turn.shared (turn.task :: turn.spawned) := by
  obtain rfl | ⟨-, ⟨-, rfl⟩ | rfl⟩ := resuming_cases h
  · exact .of_tasks_eq hchans rfl rfl le_rfl le_rfl (by simp [Fits]) fun _ _ _ _ _ => False.elim
  · exact keeps_resumeTask hchans fun _ _ => id
  · exact .of_patch hchans (fun _ => rfl) (by simp [Fits]) (fun _ _ hp => nomatch hp)
      fun _ _ _ => id

/-- What is asked of a turn is enough for it to keep every pending task served. -/
theorem keeps_resume
    (hchans : ∀ id st, p.shared.tasks.lookup id = some st → st.runDone < p.shared.chans)
    (hfits : Fits p.shared t) (hok : HandsOver p o t) (h : resume p.shared t o = some turn) :
    Keeps p.shared (lost t) turn.shared (turn.task :: turn.spawned) := by
  cases t with
  | starting taskID => exact keeps_starting hchans h
  | gate r =>
    cases o <;> try cases h
    · exact .of_tasks_eq hchans rfl rfl le_rfl le_rfl (by simpa [Fits] using hfits)
        fun id st _ _ _ hlost => ⟨_, List.mem_cons_self, hlost⟩
    · obtain ⟨hstop, h⟩ := Option.ite_none_right_eq_some.mp h
      cases h
      exact .of_tasks_eq hchans rfl rfl le_rfl le_rfl (by simpa [Fits] using hfits)
        fun id st _ _ hs _ => absurd (hstop.symm.trans hs) (by decide)
  | acquiring r =>
    cases o <;> cases h
    exact keeps_acquireRunSlot hchans hfits fun _ _ => Iff.rfl
  | waiting r ticket =>
    cases o <;> try cases h
    obtain ⟨-, h⟩ := Option.ite_none_right_eq_some.mp h
    cases h
    exact keeps_acquireRunSlot hchans hfits.1 fun _ _ => Iff.rfl
  | holding kind r => exact keeps_holding hchans hfits hok h
  | executing kind r => exact keeps_executing hchans hfits hok h
  | finishing kind r status => exact keeps_finishing hchans hfits.1 hfits.2 h
  | releasing kind r again =>
    cases o <;> cases h
    refine .of_tasks_eq hchans (releaseSlot_tasks kind) (releaseSlot_stopping kind)
      (releaseSlot_chans kind).ge (releaseSlot_broadcasts kind).ge ?_ ?_
    · cases again <;> simpa [Fits] using hfits
    · rintro id st - - - ⟨rfl, hr⟩
      exact ⟨_, List.mem_cons_self, hr⟩
  | exiting r => exact keeps_exiting hchans hfits h
  | closing r =>
    cases o <;> cases h
    exact .of_tasks_eq hchans rfl rfl le_rfl le_rfl (by simp [Fits]) fun _ _ _ _ _ => False.elim
  | broadcasting next =>
    cases o <;> cases h
    refine .of_tasks_eq hchans rfl rfl le_rfl (Nat.le_succ _) ?_
      fun id st _ _ _ hlost => ⟨_, List.mem_cons_self, hlost⟩
    intro x hx
    rw [List.mem_singleton.mp hx]
    exact hfits.1.mono le_rfl (Nat.le_succ _)
  | persisting taskIDs => exact keeps_persisting hchans h
  | resuming taskID done => exact keeps_resuming hchans h
  | cancelling cancel next =>
    cases o <;> cases h
    refine .of_tasks_eq hchans rfl rfl le_rfl le_rfl ?_ fun _ _ _ _ _ => False.elim
    simpa [Fits] using ⟨hfits.1.mono le_rfl le_rfl, hfits.2⟩
  | awaiting taskID done =>
    cases o <;> try cases h
    · obtain ⟨-, h⟩ := Option.ite_none_right_eq_some.mp h
      cases h
      exact .of_tasks_eq hchans rfl rfl le_rfl le_rfl (by simp [Fits]) fun _ _ _ _ _ => False.elim
    · exact .of_tasks_eq hchans rfl rfl le_rfl le_rfl (by simp [Fits]) fun _ _ _ _ _ => False.elim
  | popping taskID =>
    cases o <;> cases h
    exact .of_lookup_imp hchans (fun id st h => ⟨(lookup_removeTask h).2, fun _ => False.elim⟩)
      rfl rfl rfl (by simp [Fits])
  | ended => cases o <;> cases h

/-! ### Who is ready -/

/-- Where the slots are the same and no pending task has left the queue, a run whose task was in
its place is ready only if it was. -/
theorem Ready.of_keeps {m m' : Manager K} {r : Run K} (hstop : m'.stopping = m.stopping)
    (hlimit : m'.limit = m.limit) (hrunning : m'.running = m.running)
    (htask : ∀ st', m'.tasks.lookup r.taskID = some st' → st'.status = .pending →
      st'.runDone = r.done →
      ∃ st, m.tasks.lookup r.taskID = some st ∧ SamePlace (K := K) st st' ∧ st.runDone = r.done)
    (hkeep : ∀ id st, m.tasks.lookup id = some st → st.status = .pending →
      ∃ st', m'.tasks.lookup id = some st' ∧ SamePlace (K := K) st st')
    (h : Ready m' r) : Ready m r := by
  obtain ⟨hs, ⟨st', hst', hdone⟩, hadmits⟩ := h
  have hold : ∀ st'', m'.tasks.lookup r.taskID = some st'' → st''.status = .pending →
      ∃ st, m.tasks.lookup r.taskID = some st ∧ SamePlace (K := K) st st'' ∧ st.runDone = r.done := by
    intro st'' h hp
    obtain rfl : st' = st'' := Option.some.inj (hst'.symm.trans h)
    exact htask st' hst' hp hdone
  obtain ⟨st'', h'', hpending, -, -⟩ := (admits_iff r.taskID).mp hadmits
  obtain ⟨st, hst, -, hrun⟩ := hold st'' h'' hpending
  refine ⟨hstop ▸ hs, ⟨st, hst, hrun⟩, admits_of_admits hlimit hrunning ?_ hkeep hadmits⟩
  intro st'' h hp
  obtain ⟨st, hst, hplace, -⟩ := hold st'' h hp
  exact ⟨st, hst, hplace⟩

/-- What a turn leaves of the sleeping runs that neither broadcasts nor will: the ones ready are
ones that were, or there are none. -/
structure Quiet (p : UploadPool K) (m : Manager K) : Prop where
  broadcasts : m.broadcasts = p.shared.broadcasts
  stopping : m.stopping = p.shared.stopping
  ready : NoneReady p m ∨ ∀ r, r.done < p.shared.chans → Ready m r → Ready p.shared r

theorem Quiet.of_patch {taskID : K} {fn : TaskState → TaskState}
    (h : NoneReady p (p.shared.patch taskID fn)) : Quiet p (p.shared.patch taskID fn) :=
  ⟨patch_broadcasts _ _, patch_stopping _ _, .inl h⟩

/-- What a turn or an event does for the runs that are asleep: a broadcast is to come, or there
was one, or it is quiet, takes away no broadcast to come and puts no run to sleep that is
ready. -/
def Wakened (p : UploadPool K) (woke : Prop) (m : Manager K) (new : List (Goroutine K)) : Prop :=
  (∃ x ∈ new, Wakes x) ∨
  p.shared.broadcasts < m.broadcasts ∧ (∀ r ticket, .waiting r ticket ∉ new) ∨
  Quiet p m ∧ ¬woke ∧ ∀ r ticket, .waiting r ticket ∈ new →
    p.shared.stopping = false ∧ ¬Ready m r

omit [LinearOrder K] in
theorem exists_wakes_head {t : Goroutine K} {new : List (Goroutine K)} (h : Wakes t) :
    ∃ x ∈ t :: new, Wakes x := ⟨t, List.mem_cons_self, h⟩

theorem Wakened.of_quiet {woke : Prop} {m : Manager K} {new : List (Goroutine K)} (hm : Quiet p m)
    (ht : ¬woke) (hnew : ∀ r ticket, .waiting r ticket ∉ new) : Wakened p woke m new :=
  .inr (.inr ⟨hm, ht, fun r ticket h => absurd h (hnew r ticket)⟩)

theorem quiet_self : Quiet p p.shared := ⟨rfl, rfl, .inr fun _ _ h => h⟩

theorem wakened_acquireRunSlot {r : Run K} (ht : ¬Wakes t)
    (hok : ∀ st, p.shared.tasks.lookup r.taskID = some st → Ready p.shared r →
      NoneReady p (p.shared.grant r.taskID st.slotKind r.ctx)) :
    Wakened p (Wakes t) (p.shared.acquireRunSlot r).shared
      ((p.shared.acquireRunSlot r).task :: (p.shared.acquireRunSlot r).spawned) := by
  obtain ⟨heq, -⟩ | ⟨st, hst, hready, heq⟩ | ⟨heq, hstop, hready⟩ :=
    acquireRunSlot_cases p.shared r <;> rw [heq]
  · exact .of_quiet quiet_self ht (by simp)
  · have hquiet : Quiet p (p.shared.grant r.taskID st.slotKind r.ctx) :=
      ⟨patch_broadcasts _ _, patch_stopping _ _, .inl (hok st hst hready)⟩
    exact .of_quiet hquiet ht (by simp)
  · refine .inr (.inr ⟨quiet_self, ht, fun r' ticket h => ?_⟩)
    cases List.mem_singleton.mp h
    exact ⟨hstop, hready⟩

omit [LinearOrder K] in
theorem samePlace_clearCancel (r : Run K) (st : TaskState) :
    SamePlace (K := K) st (if st.runDone = r.done then { st with cancel := none } else st) := by
  split_ifs <;> exact ⟨rfl, rfl, fun _ => rfl⟩

theorem quiet_clearCancel (r : Run K) : Quiet p (p.shared.clearCancel r) where
  broadcasts := patch_broadcasts _ _
  stopping := patch_stopping _ _
  ready := by
    refine .inr fun r' _ h => h.of_keeps (patch_stopping _ _) (patch_limit _ _)
      (patch_running _ _) (fun st' hst' _ hdone => ?_) (fun id st hst _ => ?_)
    · obtain ⟨st, hst, ⟨-, rfl⟩ | ⟨-, rfl⟩⟩ := lookup_patch_cases hst'
      · refine ⟨st, hst, samePlace_clearCancel r st, ?_⟩
        split_ifs at hdone <;> exact hdone
      · exact ⟨st', hst, ⟨rfl, rfl, fun _ => rfl⟩, hdone⟩
    · by_cases hid : id = r.taskID
      · subst hid
        exact ⟨_, (lookup_patch_self _ _).trans (congrArg _ hst), samePlace_clearCancel r st⟩
      · exact ⟨st, (lookup_patch_of_ne hid _).trans hst, ⟨rfl, rfl, fun _ => rfl⟩⟩

/-- A task that is not pending is patched. -/
theorem ready_of_patch {m : Manager K} {taskID : K} {fn : TaskState → TaskState} {r : Run K}
    (hidle : ∃ st, m.tasks.lookup taskID = some st ∧ st.status ≠ .pending)
    (hnew : ∀ st, (fn st).status = .pending → (fn st).runDone ≠ r.done)
    (h : Ready (m.patch taskID fn) r) : Ready m r := by
  obtain ⟨old, hold, hne⟩ := hidle
  refine h.of_keeps (patch_stopping _ _) (patch_limit _ _) (patch_running _ _)
    (fun st' hst' hp hdone => ?_) (fun id st hst hp => ?_)
  · obtain ⟨st, hst, ⟨-, rfl⟩ | ⟨-, rfl⟩⟩ := lookup_patch_cases hst'
    · exact absurd hdone (hnew st hp)
    · exact ⟨st', hst, ⟨rfl, rfl, fun _ => rfl⟩, hdone⟩
  · have hid : id ≠ taskID := by
      rintro rfl
      exact hne (Option.some.inj (hold.symm.trans hst) ▸ hp)
    exact ⟨st, (lookup_patch_of_ne hid _).trans hst, ⟨rfl, rfl, fun _ => rfl⟩⟩

theorem wakened_resuming {taskID : K} {done : ℕ}
    (h : resume p.shared (.resuming taskID done) o = some turn) :
    Wakened p (Wakes (.resuming taskID done)) turn.shared (turn.task :: turn.spawned) := by
  obtain rfl | ⟨⟨-, -, st, hst, hresumable⟩, hturn⟩ := resuming_cases h
  · exact .of_quiet quiet_self id (by simp)
  have hidle : ∃ st, p.shared.tasks.lookup taskID = some st ∧ st.status ≠ .pending :=
    ⟨st, hst, (Status.ne_of_isResumable hresumable).1⟩
  obtain ⟨-, rfl⟩ | rfl := hturn
  · have hquiet : Quiet p (p.shared.resumeTask taskID) := by
      refine ⟨patch_broadcasts _ _, patch_stopping _ _, .inr fun r hr h => ?_⟩
      exact ready_of_patch hidle (fun _ _ => hr.ne') h
    exact .of_quiet hquiet id (by simp)
  · have hquiet : Quiet p (p.shared.failTask taskID) :=
      ⟨patch_broadcasts _ _, patch_stopping _ _, .inr fun r hr h =>
        ready_of_patch hidle (fun _ h => by cases h) h⟩
    exact .of_quiet hquiet id (by simp)

/-- What is asked of a turn is enough for it to leave no run asleep that is ready. -/
theorem wakened_resume (hfits : Fits p.shared t) (hok : HandsOver p o t)
    (h : resume p.shared t o = some turn) :
    Wakened p (Wakes t) turn.shared (turn.task :: turn.spawned) := by
  cases t with
  | starting taskID =>
    cases o <;> cases h
    cases p.shared.tasks.lookup taskID with
    | none => exact .of_quiet quiet_self id (by simp)
    | some st =>
      have hquiet : Quiet p { p.shared with ctxs := p.shared.ctxs + 1 } :=
        ⟨rfl, rfl, .inr fun _ _ h => h⟩
      exact .of_quiet hquiet id (by simp)
  | gate r =>
    cases o <;> try cases h
    · exact .of_quiet quiet_self id (by simp)
    · obtain ⟨-, h⟩ := Option.ite_none_right_eq_some.mp h
      cases h
      exact .of_quiet quiet_self id (by simp)
  | acquiring r =>
    cases o <;> cases h
    exact wakened_acquireRunSlot id hok
  | waiting r ticket =>
    cases o <;> try cases h
    obtain ⟨-, h⟩ := Option.ite_none_right_eq_some.mp h
    cases h
    exact wakened_acquireRunSlot id hok
  | holding kind r =>
    cases o with
    | turn =>
      cases h
      cases hst : p.shared.tasks.lookup r.taskID with
      | none => exact .inl (exists_wakes_head trivial)
      | some st =>
        by_cases hidle : p.shared.ctxErr r.ctx ∨ st.status ≠ .pending
        · simp only [if_pos hidle]
          exact .inl (exists_wakes_head trivial)
        · simp only [if_neg hidle]
          obtain ⟨hctx, hpending⟩ := not_or.mp hidle
          have hready := hok rfl st hst (not_not.mp hpending)
          rw [if_neg hctx] at hready
          exact .of_quiet (.of_patch hready) id (by simp)
    | failed =>
      cases kind <;> cases h
      exact .inl (exists_wakes_head trivial)
    | _ => cases kind <;> cases h
  | executing kind r =>
    cases o with
    | progress =>
      cases h
      exact .of_quiet (.of_patch (hok.1 rfl)) id (by simp)
    | failed =>
      cases h
      cases p.shared.tasks.lookup r.taskID with
      | none => exact .inl (exists_wakes_head trivial)
      | some st => exact .of_quiet quiet_self id (by simp)
    | uploaded skipped =>
      cases kind <;> cases h
      cases p.shared.tasks.lookup r.taskID with
      | none => exact .inl (exists_wakes_head trivial)
      | some st => exact .of_quiet quiet_self id (by simp)
    | downloaded =>
      cases kind <;> cases h
      exact .inl (exists_wakes_head trivial)
    | _ => cases h
  | finishing kind r status =>
    cases o <;> cases h
    exact .inl (exists_wakes_head trivial)
  | releasing kind r again =>
    cases o <;> cases h
    exact .inl (exists_wakes_head trivial)
  | exiting r =>
    cases o <;> cases h
    exact .of_quiet (quiet_clearCancel r) id (by simp)
  | closing r =>
    cases o <;> cases h
    have hquiet : Quiet p { p.shared with closed := r.done :: p.shared.closed } :=
      ⟨rfl, rfl, .inr fun _ _ h => h⟩
    exact .of_quiet hquiet id (by simp)
  | broadcasting next =>
    cases o <;> cases h
    refine .inr (.inl ⟨Nat.lt_succ_self _, fun r ticket h => ?_⟩)
    exact hfits.2 r ticket (List.mem_singleton.mp h).symm
  | persisting taskIDs =>
    cases o with
    | turn =>
      cases h
      exact .of_quiet quiet_self id (by simp)
    | persistFailed =>
      cases h
      obtain ⟨tasks, heq, -⟩ := foldl_removeTask p.shared taskIDs
      exact .of_quiet ⟨by rw [heq], by rw [heq], .inl (hok rfl)⟩ id (by simp)
    | _ => cases h
  | resuming taskID done => exact wakened_resuming h
  | cancelling cancel next =>
    cases o <;> cases h
    exact .inl (exists_wakes_head trivial)
  | awaiting taskID done =>
    cases o <;> try cases h
    · obtain ⟨-, h⟩ := Option.ite_none_right_eq_some.mp h
      cases h
      exact .of_quiet quiet_self id (by simp)
    · exact .of_quiet quiet_self id (by simp)
  | popping taskID =>
    cases o <;> cases h
    have hquiet : Quiet p (p.shared.removeTask taskID) := ⟨rfl, rfl, .inl hok⟩
    exact .of_quiet hquiet id (by simp)
  | ended => cases o <;> cases h

/-- The invariant after a step that keeps the tasks served and wakes who is ready. -/
theorem Inv.of_keeps {q : UploadPool K} (h : Inv p) {lost : K → ℕ → Prop} {woke : Prop}
    {new : List (Goroutine K)} (hk : Keeps p.shared lost q.shared new)
    (hw : Wakened p woke q.shared new) (hnew : ∀ x ∈ new, x ∈ q.tasks)
    (hold : ∀ x ∈ q.tasks, x ∈ new ∨ x ∈ p.tasks)
    (hstay : ∀ x ∈ p.tasks, x ∈ q.tasks ∨ (∀ id done, Serves id done x → lost id done) ∧
      (Wakes x → woke)) : Inv q where
  fits x hx := by
    obtain hx | hx := hold x hx
    · exact hk.fits x hx
    · exact (h.fits x hx).mono hk.chans_le hk.broadcasts_le
  chans := hk.chans
  served hs id st' hst' hp := by
    obtain ⟨x, hx, hserves⟩ | ⟨hs, st, hst, hp, hdone, hlost⟩ := hk.served hs id st' hst' hp
    · exact ⟨x, hnew x hx, hserves⟩
    · obtain ⟨x, hx, hserves⟩ := h.served hs id st hst hp
      obtain hx | ⟨hx, -⟩ := hstay x hx
      · exact ⟨x, hx, hdone ▸ hserves⟩
      · exact absurd (hx _ _ hserves) hlost
  woken := by
    obtain ⟨x, hx, hwakes⟩ | ⟨hlt, hnone⟩ | ⟨hquiet, hwoke, hsleep⟩ := hw
    · exact .inl ⟨x, hnew x hx, hwakes⟩
    · refine .inr fun r hr => ?_
      obtain ⟨ticket, hr, hle⟩ := mem_sleepers.mp hr
      obtain hr | hr := hold _ hr
      · exact absurd hr (hnone r ticket)
      · exact absurd (h.fits _ hr).2 (by omega)
    · have hwakes : (∃ t ∈ p.tasks, Wakes t) → ∃ t ∈ q.tasks, Wakes t := by
        rintro ⟨t, ht, hwakes⟩
        obtain ht | ⟨-, ht⟩ := hstay t ht
        · exact ⟨t, ht, hwakes⟩
        · exact absurd (ht hwakes) hwoke
      obtain hw | hasleep := h.woken
      · exact .inl (hwakes hw)
      · by_cases hw : ∃ t ∈ p.tasks, Wakes t
        · exact .inl (hwakes hw)
        refine .inr fun r hr => ?_
        obtain ⟨ticket, hr, hle⟩ := mem_sleepers.mp hr
        rw [hquiet.stopping]
        obtain hr | hr := hold _ hr
        · exact hsleep r ticket hr
        · have hmem := mem_sleepers.mpr ⟨ticket, hr, hquiet.broadcasts ▸ hle⟩
          obtain ⟨hstop, hready⟩ := hasleep r hmem
          refine ⟨hstop, ?_⟩
          obtain hnone | hmono := hquiet.ready
          · exact (hnone.resolve_left hw) r hmem
          · exact fun hr' => hready (hmono r (h.fits _ hr).1 hr')

end Turn

/-! ### What a call keeps -/

section Event

variable {p : UploadPool K} {e : Call K} {r : UploadEffect K}

theorem keeps_event
    (hchans : ∀ id st, p.shared.tasks.lookup id = some st → st.runDone < p.shared.chans)
    (h : event p.shared e = some r) :
    Keeps p.shared (fun _ _ => False) r.shared r.spawned := by
  have hsame : ∀ {new : List (Goroutine K)}, (∀ x ∈ new, Fits p.shared x) →
      Keeps p.shared (fun _ _ => False) p.shared new :=
    fun hfits => .of_tasks_eq hchans rfl rfl le_rfl le_rfl hfits fun _ _ _ _ _ => False.elim
  cases e with
  | createBatch params =>
    obtain ⟨-, h⟩ := Option.ite_none_right_eq_some.mp h
    obtain rfl := Option.some.inj h
    split_ifs with hstopping
    · exact hsame (by simp)
    · obtain ⟨hchans_le, hbroadcasts, hstop, -, -, hold, hnew⟩ := foldl_addTask p.shared params
      refine ⟨hchans_le, hbroadcasts.ge, by simp [Fits], fun id st hst => ?_,
        fun hs id st hst hp => ?_⟩ <;> by_cases hid : id ∈ params.map CreateParams.taskID
      · exact (hnew id hid st hst).2
      · exact (hchans id st ((hold id hid).symm.trans hst)).trans_le hchans_le
      · exact .inl ⟨_, List.mem_singleton_self _, hid⟩
      · exact .inr ⟨hstop ▸ hs, st, (hold id hid).symm.trans hst, hp, rfl, False.elim⟩
  | pause taskID =>
    cases h
    cases hst : p.shared.tasks.lookup taskID with
    | none => exact hsame (by simp)
    | some st =>
      dsimp only
      split_ifs
      · exact hsame (by simp)
      · exact .of_patch hchans (fun _ => rfl) (by simp [Fits]) (fun _ _ h => by cases h)
          fun _ _ _ => id
  | resume taskID =>
    cases h
    cases hst : p.shared.tasks.lookup taskID with
    | none => exact hsame (by simp)
    | some st =>
      dsimp only
      split_ifs <;> exact hsame (by simp [Fits])
  | delete taskID =>
    cases h
    cases hst : p.shared.tasks.lookup taskID with
    | none => exact hsame (by simp [Fits])
    | some st =>
      dsimp only
      split_ifs
      · exact hsame (by simp [Fits])
      · refine .of_patch hchans (fun _ => rfl) (by simp [Fits]) (fun st _ hp => .inr ⟨?_, id⟩)
          fun _ _ _ => id
        simp only [] at hp
        split_ifs at hp
        exact hp
  | refreshConcurrencyLimit v =>
    cases h
    exact .of_tasks_eq hchans rfl rfl le_rfl le_rfl (by simp [Fits]) fun _ _ _ _ _ => False.elim
  | stop =>
    cases h
    obtain ⟨tasks, heq, hlookup⟩ := stop_eq p.shared
    rw [heq]
    refine ⟨le_rfl, le_rfl, by simp [Fits], fun id st' h => ?_, fun h => nomatch h⟩
    obtain ⟨st, hst, hdone, -⟩ := hlookup id st' h
    exact hdone ▸ hchans id st hst

theorem wakened_event (h : event p.shared e = some r) :
    Wakened p False r.shared r.spawned := by
  cases e with
  | createBatch params =>
    obtain ⟨⟨-, hfresh⟩, h⟩ := Option.ite_none_right_eq_some.mp h
    obtain rfl := Option.some.inj h
    split_ifs with hstopping
    · exact .of_quiet quiet_self id (by simp)
    · obtain ⟨-, hbroadcasts, hstop, hlimit, hrunning, hold, hnew⟩ := foldl_addTask p.shared params
      have hquiet : Quiet p (params.foldl addTask p.shared) := by
        refine ⟨hbroadcasts, hstop, .inr fun r hr h => h.of_keeps hstop hlimit hrunning
          (fun st' hst' _ hdone => ?_) (fun id st hst _ => ?_)⟩
        · have hid : r.taskID ∉ params.map CreateParams.taskID := by
            intro hid
            have hle := (hnew _ hid st' hst').1
            omega
          exact ⟨st', (hold _ hid).symm.trans hst', ⟨rfl, rfl, fun _ => rfl⟩, hdone⟩
        · have hid : id ∉ params.map CreateParams.taskID := by
            intro hid
            obtain ⟨q, hq, rfl⟩ := List.mem_map.mp hid
            exact absurd ((hfresh q hq).symm.trans hst) (by simp)
          exact ⟨st, (hold _ hid).trans hst, ⟨rfl, rfl, fun _ => rfl⟩⟩
      exact .of_quiet hquiet id (by simp)
  | pause taskID =>
    cases h
    cases p.shared.tasks.lookup taskID with
    | none => exact .of_quiet quiet_self id (by simp)
    | some st =>
      dsimp only
      split_ifs
      · exact .of_quiet quiet_self id (by simp)
      · exact .inl (exists_wakes_head trivial)
  | resume taskID =>
    cases h
    cases p.shared.tasks.lookup taskID with
    | none => exact .of_quiet quiet_self id (by simp)
    | some st =>
      dsimp only
      split_ifs <;> exact .of_quiet quiet_self id (by simp)
  | delete taskID =>
    cases h
    cases p.shared.tasks.lookup taskID with
    | none => exact .of_quiet quiet_self id (by simp)
    | some st =>
      dsimp only
      split_ifs
      · exact .of_quiet quiet_self id (by simp)
      · exact .inl (exists_wakes_head trivial)
  | refreshConcurrencyLimit v =>
    cases h
    exact .inl (exists_wakes_head trivial)
  | stop =>
    cases h
    exact .inl (exists_wakes_head trivial)

end Event

/-! ### Every run -/

theorem inv_step {p q : UploadPool K} {a : Action Outcome (Call K)} (h : Inv p)
    (hok : StepHandsOver p a) (hstep : system.step p a = some q) : Inv q := by
  obtain ⟨i, o, t, r, rfl, hi, hr, rfl⟩ | ⟨e, r, rfl, he, rfl⟩ := System.step_cases hstep
  · have hfits := h.fits t (List.mem_of_getElem? hi)
    refine h.of_keeps (keeps_resume h.chans hfits (hok t hi) hr)
      (wakened_resume hfits (hok t hi) hr) (fun x hx => ?_) (fun x hx => ?_) (fun x hx => ?_)
    · obtain rfl | hx := List.mem_cons.mp hx
      · exact List.mem_append_left _ (List.mem_set (List.getElem?_eq_some_iff.mp hi).1 _)
      · exact List.mem_append_right _ hx
    · obtain rfl | hx | ⟨j, -, hj⟩ := mem_set_append hx
      · exact .inl List.mem_cons_self
      · exact .inl (List.mem_cons_of_mem _ hx)
      · exact .inr (List.mem_of_getElem? hj)
    · obtain rfl | hne := eq_or_ne x t
      · exact .inr ⟨fun _ _ => id, id⟩
      · have hkept : ∃ y ∈ p.tasks.set i r.task ++ r.spawned, y = x :=
          exists_mem_set_append hi (fun h => absurd h.symm hne) ⟨x, hx, rfl⟩
        obtain ⟨y, hy, rfl⟩ := hkept
        exact .inl hy
  · refine h.of_keeps (keeps_event h.chans he) (wakened_event he)
      (fun x hx => List.mem_append_right _ hx) (fun x hx => ?_)
      (fun x hx => .inl (List.mem_append_left _ hx))
    exact (List.mem_append.mp hx).symm

theorem inv_newManager (v : ℤ) (rows : List (Record K)) : Inv (newManager v rows) := by
  have hstarting : ∀ t ∈ (newManager v rows).tasks, ∃ id, t = .starting id := by
    intro t ht
    obtain ⟨row, -, rfl⟩ := List.mem_map.mp ht
    exact ⟨row.taskID, rfl⟩
  obtain ⟨-, hlookup⟩ := restoreTasks_keeps
    (refreshConcurrencyLimit (K := K) { limit := defaultLimit } v) rows
  have hrestored := fun id st h => (hlookup id st h).resolve_left (by simp [refreshConcurrencyLimit])
  refine ⟨fun t ht => ?_, fun id st h => (hrestored id st h).1, fun _ id st h hp => ?_, .inr ?_⟩
  · obtain ⟨id, rfl⟩ := hstarting t ht
    trivial
  · obtain ⟨row, hmem, hpending, rfl⟩ := (hrestored id st h).2 hp
    exact ⟨.starting row.taskID,
      List.mem_map.mpr ⟨row, List.mem_filter.mpr ⟨hmem, by simpa using hpending⟩, rfl⟩, rfl⟩
  · intro r hr
    obtain ⟨ticket, hr, -⟩ := mem_sleepers.mp hr
    obtain ⟨id, h⟩ := hstarting _ hr
    cases h

/-- In every run whose turns all hand over, whenever all goroutines have settled, a pending task
waits only while at least as many tasks of its kind are running as the limit allows. -/
theorem slots_workConserving (v : ℤ) (rows : List (Record K))
    (actions : List (Action Outcome (Call K)))
    (hok : system.Along StepHandsOver (newManager v rows) actions) :
    system.Throughout WorkConserving (newManager v rows) actions :=
  (System.throughout_of_along (fun _ _ _ h hok hstep => inv_step h hok hstep)
    (inv_newManager v rows) hok).mono fun _ h => h.workConserving

/-- The calls and turns by which a new task comes to `acquireRunSlot`; `i` is the caller and `j`
the run. -/
def createRun (taskID i j : ℕ) : List (Action Outcome (Call ℕ)) :=
  [.event (.createBatch [⟨taskID, none, none, 0⟩]), .resume i .turn, .resume j .turn,
    .resume j .turn]

/-- With one slot: the second task waits until the first one has released it. -/
def oneSlotRun : List (Action Outcome (Call ℕ)) :=
  createRun 0 0 1 ++ createRun 1 2 3 ++ [.resume 1 .turn, .resume 3 .turn, .resume 1 .turn,
    .resume 1 .progress, .resume 1 (.uploaded false), .resume 1 .turn, .resume 1 .turn,
    .resume 1 .turn, .resume 3 .turn, .resume 3 .turn]

theorem slots_workConserving_oneSlot :
    system.Throughout WorkConserving (newManager 1 []) oneSlotRun :=
  slots_workConserving 1 [] oneSlotRun (by decide +kernel)

/-- The second task comes to `acquireRunSlot` when the first one has its slot and is pending
still, and it sleeps when the first one runs. -/
def idleSlotRun : List (Action Outcome (Call ℕ)) :=
  createRun 0 0 1 ++ createRun 1 2 3 ++ [.resume 1 .turn, .resume 3 .turn, .resume 1 .turn]

/-- One task runs, one sleeps, and two slots are free. -/
theorem slot_left_idle : ∃ p, system.run (newManager 3 []) idleSlotRun = some p ∧
    (∀ t ∈ p.tasks, Settled p.shared t) ∧ .waiting ⟨1, 1, 1⟩ 0 ∈ p.tasks ∧
    p.shared.running .upload = 1 ∧ p.shared.limit = 3 ∧ ¬WorkConserving p := by
  have hsettled : ∀ p, system.run (newManager 3 []) idleSlotRun = some p →
      ∀ t ∈ p.tasks, Settled p.shared t := by
    rintro p ⟨⟩
    refine List.forall_mem_cons.mpr ⟨trivial, List.forall_mem_cons.mpr ⟨⟨_, rfl, rfl⟩, ?_⟩⟩
    exact List.forall_mem_cons.mpr ⟨trivial, List.forall_mem_singleton.mpr le_rfl⟩
  have hwaits : ∀ p, system.run (newManager 3 []) idleSlotRun = some p →
      Goroutine.waiting ⟨1, 1, 1⟩ 0 ∈ p.tasks := by
    rintro p ⟨⟩
    exact List.mem_of_getElem? (i := 3) rfl
  refine ⟨_, rfl, hsettled _ rfl, hwaits _ rfl, rfl, rfl, fun h => ?_⟩
  have hfull := h (hsettled _ rfl) _ _ _ (hwaits _ rfl) rfl rfl
  revert hfull
  decide

end AllInOneBackup.LitePan.Upload
