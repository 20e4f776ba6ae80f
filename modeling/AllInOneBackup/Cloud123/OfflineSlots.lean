import AllInOneBackup.Concurrency.Pool
import Mathlib.Algebra.BigOperators.Group.List.Basic
import Mathlib.Algebra.Order.Ring.Int

/-! The slots of offline downloads, which all pipelines share. A pipeline takes a slot for a file
before it submits it and gives it back when the file is done or has failed, and the end of a run
gives back all. Taking and giving back never wait, as no one waits inside of the condition. A
download of an earlier run goes on without a slot. -/

namespace AllInOneBackup.Cloud123.OfflineSlots

open Concurrency

def FILE_CONCURRENCY_MAX : ℤ := 5

/-! ### Model -/

/-- `OfflineItem`; `created` says that 123 has its offline download. -/
structure OfflineItem where
  created : Bool := false
  submitted : Bool := false
  slotHeld : Bool := false
  done : Bool := false
  failed : Bool := false

namespace OfflineItem

variable (item : OfflineItem)

/-- A member of `inflight_items`. -/
def Inflight : Prop := item.submitted = true ∧ item.done = false ∧ item.failed = false

instance : Decidable item.Inflight := inferInstanceAs (Decidable (_ ∧ _))

/-- `unresolved_count` counts it. -/
def Unresolved : Prop := item.done = false ∧ item.failed = false

instance : Decidable item.Unresolved := inferInstanceAs (Decidable (_ ∧ _))

end OfflineItem

/-- Where a run stands. In `submitting` an item is on its way to 123 and in `saving` it is there;
`waiting` is anywhere in the rounds of `wait_all`. -/
inductive Stage
  | reusing
  | filling
  | submitting (i : ℕ)
  | saving (i : ℕ)
  | waiting
  | ended
  deriving DecidableEq

/-- A pipeline with its items and the numbers of the pending ones. -/
structure Pipeline where
  maxInflight : ℕ
  stage : Stage := .reusing
  items : List OfflineItem := []
  pending : List ℕ := []

/-- `_offline_slots_used` and the configured `concurrency`. -/
structure Service where
  used : ℤ := 0
  concurrency : ℤ

/-- `_max_offline_slots`. -/
def Service.limit (s : Service) : ℤ :=
  max 1 (min (max 1 FILE_CONCURRENCY_MAX) (if s.concurrency = 0 then 1 else s.concurrency))

/-- What a turn of a pipeline comes to: `phase_reuse` resumes a download of an earlier run or goes on
to `phase_submit` with files, `submit` fails, `wait_all` finds that a file is done or has failed, and
an exception or a cancellation leaves the run. -/
inductive Outcome
  | turn
  | resumed
  | offline (n : ℕ)
  | error
  | markDone (i : ℕ)
  | markFailed (i : ℕ)
  | raised

/-- A slot is taken, with the count after it and the limit. -/
structure Taken where
  used : ℤ
  limit : ℤ

/-- A task starts, or the configuration changes. -/
inductive External
  | start (maxInflight : ℕ)
  | configure (concurrency : ℤ)

abbrev SlotTurn := Turn Service Pipeline Taken

abbrev SlotPool := Pool Service Pipeline Taken

/-- `release_offline_slot`. -/
def releaseOfflineSlot (used : ℤ) : ℤ := if used > 0 then used - 1 else used

/-- `_release_slot`. -/
def releaseSlot (used : ℤ) (item : OfflineItem) : ℤ × OfflineItem :=
  if item.slotHeld then (releaseOfflineSlot used, { item with slotHeld := false })
  else (used, item)

/-- `release_all_slots`. -/
def releaseAllSlots : ℤ → List OfflineItem → ℤ × List OfflineItem
  | used, [] => (used, [])
  | used, item :: items =>
    let r := releaseSlot used item
    let rest := releaseAllSlots r.1 items
    (rest.1, r.2 :: rest.2)

/-- An item is done or has failed, and gives back its slot. -/
def resolve (s : Service) (p : Pipeline) (i : ℕ) (item : OfflineItem) (stage : Stage) : SlotTurn :=
  let r := releaseSlot s.used item
  { shared := { s with used := r.1 }, task := { p with stage, items := p.items.set i r.2 } }

/-- The `finally` of `run`. -/
def finish (s : Service) (p : Pipeline) : SlotTurn :=
  let r := releaseAllSlots s.used p.items
  { shared := { s with used := r.1 }, task := { p with stage := .ended, items := r.2 } }

/-- A turn of `fill`: `try_acquire_offline_slot`, and `submit` up to its first call of 123. -/
def fill (s : Service) (p : Pipeline) : Option SlotTurn :=
  match p.pending with
  | [] => some { shared := s, task := { p with stage := .waiting } }
  | i :: pending =>
    if p.items.countP (fun item => item.Inflight) < p.maxInflight ∧ s.used < s.limit then
      p.items[i]?.map fun item =>
        { shared := { s with used := s.used + 1 }
          task :=
            { p with
              stage := .submitting i
              items := p.items.set i { item with slotHeld := true }
              pending }
          seen := [⟨s.used + 1, s.limit⟩] }
    else some { shared := s, task := { p with stage := .waiting } }

def advance (s : Service) (p : Pipeline) (o : Outcome) : Option SlotTurn :=
  match p.stage, o with
  | .reusing, .resumed => some
    { shared := s, task := { p with items := p.items ++ [{ created := true, submitted := true }] } }
  | .reusing, .offline n => some
    { shared := s
      task :=
        { p with
          stage := .filling
          items := p.items ++ List.replicate n {}
          pending := List.range' p.items.length n } }
  | .reusing, .raised => some { shared := s, task := { p with stage := .ended } }
  | .filling, .turn => fill s p
  | .submitting i, .turn => p.items[i]?.map fun item =>
    { shared := s
      task := { p with stage := .saving i, items := p.items.set i { item with created := true } } }
  | .saving i, .turn => p.items[i]?.map fun item =>
    { shared := s
      task := { p with stage := .filling, items := p.items.set i { item with submitted := true } } }
  | .submitting i, .error | .saving i, .error => p.items[i]?.map fun item =>
    resolve s p i { item with failed := true } .filling
  | .waiting, .turn =>
    if ∃ item ∈ p.items, item.Unresolved then some
      { shared := s, task := { p with stage := .filling } }
    else some (finish s p)
  | .waiting, .markDone i => p.items[i]?.bind fun item =>
    if item.Inflight then some (resolve s p i { item with done := true } .waiting) else none
  | .waiting, .markFailed i => p.items[i]?.bind fun item =>
    if item.Inflight then some (resolve s p i { item with failed := true } .waiting) else none
  | .filling, .raised | .submitting _, .raised | .saving _, .raised | .waiting, .raised =>
    some (finish s p)
  | _, _ => none

def event (s : Service) : External → Option (Effect Service Pipeline Taken)
  | .start maxInflight => some { shared := s, spawned := [{ maxInflight }] }
  | .configure concurrency => some { shared := { s with concurrency } }

def system : System Service Pipeline Taken Outcome External := ⟨advance, event⟩

/-- No pipeline runs. -/
def start (concurrency : ℤ) : SlotPool := { shared := { concurrency } }

/-! ### The property and the condition -/

namespace Pipeline

variable (p : Pipeline)

/-- The items with `slot_held`. -/
def held : ℕ := p.items.countP (·.slotHeld)

/-- While the pipeline runs, each download that 123 has and that is not resolved has a slot. -/
def Covered : Prop :=
  p.stage ≠ .ended → ∀ item ∈ p.items, item.created = true → item.Unresolved → item.slotHeld = true

/-- After the run no item has a slot. -/
def Clean : Prop := p.stage = .ended → p.held = 0

end Pipeline

/-- The count is that of the items with a slot, no slot is taken over the limit, the count is not
below zero, every download in flight has a slot, and a run that has ended has none. -/
structure SlotsRight (p : SlotPool) : Prop where
  used : p.shared.used = ((p.tasks.map Pipeline.held).sum : ℤ)
  limit : ∀ e ∈ p.trace, e.used ≤ e.limit
  nonneg : 0 ≤ p.shared.used
  covered : ∀ t ∈ p.tasks, t.Covered
  clean : ∀ t ∈ p.tasks, t.Clean

/-- No download of an earlier run is resumed. -/
def NoneResumed (_ : SlotPool) : Action Outcome External → Prop
  | .resume _ .resumed => False
  | _ => True

/-! ### A turn -/

theorem releaseSlot_spec {used : ℤ} {item : OfflineItem} (h : item.slotHeld = true → 0 < used) :
    (releaseSlot used item).1 = used - item.slotHeld.toNat ∧
      (releaseSlot used item).2 = { item with slotHeld := false } := by
  unfold releaseSlot
  split_ifs with hheld
  · have hpos := h hheld
    rw [releaseOfflineSlot, if_pos hpos, hheld]
    exact ⟨rfl, rfl⟩
  · have hfree := Bool.eq_false_of_not_eq_true hheld
    cases item
    subst hfree
    exact ⟨(sub_zero _).symm, rfl⟩

theorem releaseAllSlots_spec {used : ℤ} {items : List OfflineItem}
    (h : (items.countP (·.slotHeld) : ℤ) ≤ used) :
    (releaseAllSlots used items).1 = used - items.countP (·.slotHeld) ∧
      (releaseAllSlots used items).2 = items.map fun item => { item with slotHeld := false } := by
  induction items generalizing used with
  | nil => exact ⟨(sub_zero _).symm, rfl⟩
  | cons item items ih =>
    have hcount : (item :: items).countP (·.slotHeld) =
        items.countP (·.slotHeld) + item.slotHeld.toNat := by
      rw [List.countP_cons]
      cases item.slotHeld <;> rfl
    rw [hcount] at h ⊢
    have hpos : item.slotHeld = true → 0 < used := by
      intro hheld
      rw [hheld] at h
      simp only [Bool.toNat_true] at h
      omega
    obtain ⟨hused, hitem⟩ := releaseSlot_spec hpos
    obtain ⟨hused', hitems⟩ := @ih (releaseSlot used item).1 (by omega)
    simp only [releaseAllSlots, List.map_cons]
    rw [hused', hitems, hitem, hused]
    refine ⟨?_, rfl⟩
    push_cast
    omega

/-- What a pipeline's items and pending files are at its stage: no slot is taken before the files
are queued, the pending ones are new, and the one on its way has a slot. -/
structure Pipeline.Fits (p : Pipeline) : Prop where
  nodup : p.pending.Nodup
  pending : ∀ i ∈ p.pending, p.items[i]? = some {}
  reusing : p.stage = .reusing → p.pending = [] ∧ p.held = 0
  working : ∀ i, p.stage = .submitting i ∨ p.stage = .saving i →
    ∃ item, p.items[i]? = some item ∧ item.slotHeld = true
  clean : p.Clean

section Items

variable {p : Pipeline} {i : ℕ} {item new : OfflineItem}

theorem held_set (hi : p.items[i]? = some item) :
    (p.items.set i new).countP (·.slotHeld) + item.slotHeld.toNat =
      p.held + new.slotHeld.toNat := by
  have hcount := countP_set_append (·.slotHeld) new [] hi
  rwa [List.append_nil, List.countP_nil, Nat.add_zero] at hcount

/-- An item that is not new is not pending. -/
theorem Pipeline.Fits.not_mem_pending (h : p.Fits) (hi : p.items[i]? = some item)
    (hnew : item ≠ {}) : i ∉ p.pending := by
  intro hmem
  apply hnew
  exact Option.some.inj (hi.symm.trans (h.pending i hmem))

theorem forall_mem_set {P : OfflineItem → Prop} (hP : ∀ item ∈ p.items, P item) (hnew : P new) :
    ∀ item ∈ p.items.set i new, P item := by
  intro item hitem
  rcases List.mem_or_eq_of_mem_set hitem with hitem | rfl
  · exact hP item hitem
  · exact hnew

end Items

/-- What a turn of a pipeline does: the count moves with the slots of its items. -/
structure Kept (s : Service) (p : Pipeline) (o : Outcome) (r : SlotTurn) : Prop where
  spawned : r.spawned = []
  used : r.shared.used - r.task.held = s.used - p.held
  limit : ∀ e ∈ r.seen, e.used ≤ e.limit
  fits : r.task.Fits
  covered : p.Covered → (r.task.Covered ↔ o ≠ .resumed)

/-- A stage with nothing on its way, in the middle of a run. -/
def Stage.Calm (stage : Stage) : Prop :=
  (∀ j, ¬(stage = .submitting j ∨ stage = .saving j)) ∧ stage ≠ .reusing ∧ stage ≠ .ended

theorem calm_filling : Stage.Calm .filling := by simp [Stage.Calm]

theorem calm_waiting : Stage.Calm .waiting := by simp [Stage.Calm]

section Turns

variable {s s' : Service} {p : Pipeline} {o : Outcome} {stage : Stage} {i : ℕ}
  {item new : OfflineItem} {pending : List ℕ} {seen : List Taken}

/-- A turn that changes one item and is not its end. -/
theorem kept_set (hp : p.Fits) (hstage : p.stage ≠ .ended) (ho : o ≠ .resumed)
    (hi : p.items[i]? = some item) (hsub : pending.Sublist p.pending) (hfree : i ∉ pending)
    (hused : s'.used = s.used + new.slotHeld.toNat - item.slotHeld.toNat)
    (hwork : ∀ j, stage = .submitting j ∨ stage = .saving j → j = i ∧ new.slotHeld = true)
    (hrun : stage ≠ .reusing ∧ stage ≠ .ended)
    (hnew : new.created = true → new.Unresolved → new.slotHeld = true)
    (hlimit : ∀ e ∈ seen, e.used ≤ e.limit) :
    Kept s p o
      { shared := s', task := { p with stage, items := p.items.set i new, pending }, seen } where
  spawned := rfl
  used := by
    have hheld := @held_set p i item new hi
    simp only [Pipeline.held] at hheld ⊢
    omega
  limit := hlimit
  fits :=
    { nodup := hp.nodup.sublist hsub
      pending := by
        intro j hj
        have hji : i ≠ j := by
          rintro rfl
          exact hfree hj
        change (p.items.set i new)[j]? = some {}
        rw [List.getElem?_set_ne hji]
        exact hp.pending j (hsub.subset hj)
      reusing := fun hr => absurd hr hrun.1
      working := by
        intro j hj
        obtain ⟨rfl, hheld⟩ := hwork j hj
        have hlt := (List.getElem?_eq_some_iff.mp hi).1
        exact ⟨new, List.getElem?_set_self hlt, hheld⟩
      clean := fun hend => absurd hend hrun.2 }
  covered hc :=
    ⟨fun _ => ho, fun _ _ => forall_mem_set (hc hstage) hnew⟩

/-- A turn that changes no item. -/
theorem kept_stage (hp : p.Fits) (hstage : p.stage ≠ .ended) (ho : o ≠ .resumed)
    (hcalm : stage.Calm) : Kept s p o { shared := s, task := { p with stage } } where
  spawned := rfl
  used := rfl
  limit := List.forall_mem_nil _
  fits :=
    { nodup := hp.nodup
      pending := hp.pending
      reusing := fun hr => absurd hr hcalm.2.1
      working := fun j hj => absurd hj (hcalm.1 j)
      clean := fun hend => absurd hend hcalm.2.2 }
  covered hc := ⟨fun _ => ho, fun _ _ => hc hstage⟩

theorem kept_resolve (hp : p.Fits) (hstage : p.stage ≠ .ended) (ho : o ≠ .resumed)
    (hi : p.items[i]? = some item) (hitem : item ≠ {}) (hused : (p.held : ℤ) ≤ s.used)
    (hheld : new.slotHeld = item.slotHeld) (hnew : ¬new.Unresolved)
    (hcalm : stage.Calm) : Kept s p o (resolve s p i new stage) := by
  have hpos : new.slotHeld = true → 0 < s.used := by
    intro h
    have hcount : 0 < p.held :=
      List.countP_pos_iff.mpr ⟨item, List.mem_of_getElem? hi, hheld.symm.trans h⟩
    omega
  obtain ⟨hrel, hrest⟩ := releaseSlot_spec hpos
  simp only [resolve, hrest]
  apply kept_set hp hstage ho hi (List.Sublist.refl _)
    (hp.not_mem_pending hi hitem)
  · change (releaseSlot s.used new).1 = _
    rw [hrel, hheld]
    simp
  · exact fun j hj => absurd hj (hcalm.1 j)
  · exact hcalm.2
  · exact fun _ h => absurd h hnew
  · exact List.forall_mem_nil _

theorem kept_finish (hp : p.Fits) (ho : o ≠ .resumed) (hused : (p.held : ℤ) ≤ s.used) :
    Kept s p o (finish s p) := by
  obtain ⟨hcount, hitems⟩ := releaseAllSlots_spec hused
  have hfree : (finish s p).task.held = 0 := by
    simp only [finish, hitems, Pipeline.held]
    rw [List.countP_eq_zero]
    simp
  refine
    { spawned := rfl
      used := ?_
      limit := List.forall_mem_nil _
      fits :=
        { nodup := hp.nodup
          pending := ?_
          reusing := Stage.noConfusion
          working := fun j hj => hj.elim Stage.noConfusion Stage.noConfusion
          clean := fun _ => hfree }
      covered := fun _ => ⟨fun _ => ho, fun _ hend => absurd rfl hend⟩ }
  · rw [hfree]
    change (releaseAllSlots s.used p.items).1 - _ = _
    rw [hcount]
    exact sub_zero _
  · intro j hj
    change (releaseAllSlots s.used p.items).2[j]? = _
    rw [hitems, List.getElem?_map, hp.pending j hj]
    rfl

/-- The resumed download has no slot. -/
theorem kept_resumed (hp : p.Fits) (hstage : p.stage = .reusing) :
    Kept s p .resumed
      { shared := s
        task := { p with items := p.items ++ [{ created := true, submitted := true }] } } where
  spawned := rfl
  used := by simp [Pipeline.held]
  limit := List.forall_mem_nil _
  fits :=
    { nodup := hp.nodup
      pending := by
        change ∀ j ∈ p.pending, _
        rw [(hp.reusing hstage).1]
        exact List.forall_mem_nil _
      reusing := fun hr => ⟨(hp.reusing hr).1, by simpa [Pipeline.held] using (hp.reusing hr).2⟩
      working := by
        change ∀ j, p.stage = _ ∨ p.stage = _ → _
        rw [hstage]
        exact fun j hj => hj.elim Stage.noConfusion Stage.noConfusion
      clean := by
        change p.stage = _ → _
        rw [hstage]
        exact Stage.noConfusion }
  covered _ := by
    refine ⟨fun hc => ?_, fun h => absurd rfl h⟩
    have hrun : p.stage ≠ .ended := by simp [hstage]
    have hnew := hc hrun { created := true, submitted := true } (by simp) rfl ⟨rfl, rfl⟩
    exact absurd hnew Bool.false_ne_true

theorem kept_offline (n : ℕ) (hstage : p.stage = .reusing) :
    Kept s p (.offline n)
      { shared := s
        task :=
          { p with
            stage := .filling
            items := p.items ++ List.replicate n {}
            pending := List.range' p.items.length n } } where
  spawned := rfl
  used := by simp [Pipeline.held, List.countP_replicate]
  limit := List.forall_mem_nil _
  fits :=
    { nodup := List.nodup_range'
      pending := by
        intro j hj
        obtain ⟨hle, hlt⟩ := List.mem_range'_1.mp hj
        change (p.items ++ List.replicate n _)[j]? = some _
        rw [List.getElem?_append_right hle, List.getElem?_replicate, if_pos (by omega)]
      reusing := Stage.noConfusion
      working := fun j hj => hj.elim Stage.noConfusion Stage.noConfusion
      clean := Stage.noConfusion }
  covered hc := by
    refine ⟨fun _ => Outcome.noConfusion, fun _ _ item hitem hcreated => ?_⟩
    rcases List.mem_append.mp hitem with hitem | hitem
    · exact hc (by simp [hstage]) item hitem hcreated
    · rw [List.eq_of_mem_replicate hitem] at hcreated
      exact absurd hcreated Bool.false_ne_true

theorem kept_fill {r : SlotTurn} (hp : p.Fits) (hstage : p.stage = .filling)
    (h : fill s p = some r) : Kept s p .turn r := by
  have hrun : p.stage ≠ .ended := by simp [hstage]
  have hwait : Kept s p .turn { shared := s, task := { p with stage := .waiting } } :=
    kept_stage hp hrun Outcome.noConfusion calm_waiting
  unfold fill at h
  split at h
  case h_1 => exact Option.some.inj h ▸ hwait
  case h_2 i pending hpending =>
    split_ifs at h with hroom
    · obtain ⟨item, hi, rfl⟩ := Option.map_eq_some_iff.mp h
      have hnew : item = {} :=
        Option.some.inj (hi.symm.trans (hp.pending i (by simp [hpending])))
      subst hnew
      have hnodup := hp.nodup
      rw [hpending, List.nodup_cons] at hnodup
      apply kept_set hp hrun Outcome.noConfusion hi
      · rw [hpending]
        exact List.sublist_cons_self i pending
      · exact hnodup.1
      · simp
      · rintro j (hj | hj)
        · exact ⟨(Stage.submitting.inj hj).symm, rfl⟩
        · exact absurd hj Stage.noConfusion
      · exact ⟨Stage.noConfusion, Stage.noConfusion⟩
      · exact fun _ _ => rfl
      · intro e he
        rw [List.mem_singleton.mp he]
        exact hroom.2
    · exact Option.some.inj h ▸ hwait

/-- 123 has the download, or the task is saved with it. -/
theorem kept_working {f : OfflineItem → OfflineItem} (hp : p.Fits)
    (hstage : p.stage = .submitting i ∨ p.stage = .saving i)
    (hf : ∀ item, (f item).slotHeld = item.slotHeld) (hi : p.items[i]? = some item)
    (hnext : ∀ j, stage = .submitting j ∨ stage = .saving j → j = i)
    (hrun : stage ≠ .reusing ∧ stage ≠ .ended) :
    Kept s p .turn
      { shared := s, task := { p with stage, items := p.items.set i (f item) } } := by
  obtain ⟨_, hi', hheld⟩ := hp.working i hstage
  obtain rfl := Option.some.inj (hi.symm.trans hi')
  have hnew : (f item).slotHeld = true := (hf item).trans hheld
  have hend : p.stage ≠ .ended := by
    rcases hstage with hstage | hstage <;> simp [hstage]
  apply kept_set hp hend Outcome.noConfusion hi (List.Sublist.refl _)
  · apply hp.not_mem_pending hi
    rintro rfl
    exact Bool.false_ne_true hheld
  · rw [hnew, hheld, add_sub_cancel_right]
  · exact fun j hj => ⟨hnext j hj, hnew⟩
  · exact hrun
  · exact fun _ _ => hnew
  · exact List.forall_mem_nil _

theorem kept_error {r : SlotTurn} (hp : p.Fits)
    (hstage : p.stage = .submitting i ∨ p.stage = .saving i) (hused : (p.held : ℤ) ≤ s.used)
    (h : (p.items[i]?.map fun item => resolve s p i { item with failed := true } .filling) =
      some r) : Kept s p .error r := by
  obtain ⟨item, hi, rfl⟩ := Option.map_eq_some_iff.mp h
  obtain ⟨_, hi', hheld⟩ := hp.working i hstage
  obtain rfl := Option.some.inj (hi.symm.trans hi')
  have hend : p.stage ≠ .ended := by
    rcases hstage with hstage | hstage <;> simp [hstage]
  have hitem : item ≠ {} := by
    rintro rfl
    exact Bool.false_ne_true hheld
  exact kept_resolve hp hend Outcome.noConfusion hi hitem hused rfl
    (fun hleft => Bool.noConfusion hleft.2) calm_filling

theorem kept_mark {f : OfflineItem → OfflineItem} {r : SlotTurn} (hp : p.Fits)
    (hstage : p.stage = .waiting) (ho : o ≠ .resumed) (hused : (p.held : ℤ) ≤ s.used)
    (hf : ∀ item, (f item).slotHeld = item.slotHeld ∧ ¬(f item).Unresolved)
    (h : (p.items[i]?.bind fun item =>
      if item.Inflight then some (resolve s p i (f item) .waiting) else none) = some r) :
    Kept s p o r := by
  obtain ⟨item, hi, h⟩ := Option.bind_eq_some_iff.mp h
  split_ifs at h with hin
  cases h
  apply kept_resolve hp (by simp [hstage]) ho hi _ hused (hf item).1 (hf item).2 calm_waiting
  rintro rfl
  exact Bool.false_ne_true hin.1

theorem advance_kept {r : SlotTurn} (hp : p.Fits) (hused : (p.held : ℤ) ≤ s.used)
    (h : advance s p o = some r) : Kept s p o r := by
  unfold advance at h
  split at h
  case h_1 hstage => exact Option.some.inj h ▸ kept_resumed hp hstage
  case h_2 n hstage => exact Option.some.inj h ▸ kept_offline n hstage
  case h_3 hstage =>
    obtain ⟨hpending, hheld⟩ := hp.reusing hstage
    cases h
    exact
      { spawned := rfl
        used := rfl
        limit := List.forall_mem_nil _
        fits :=
          { nodup := hp.nodup
            pending := hp.pending
            reusing := Stage.noConfusion
            working := fun j hj => hj.elim Stage.noConfusion Stage.noConfusion
            clean := fun _ => hheld }
        covered := fun _ => ⟨fun _ => Outcome.noConfusion, fun _ hend => absurd rfl hend⟩ }
  case h_4 hstage => exact kept_fill hp hstage h
  case h_5 i hstage =>
    obtain ⟨item, hi, rfl⟩ := Option.map_eq_some_iff.mp h
    exact kept_working (f := fun item => { item with created := true }) hp (.inl hstage)
      (fun _ => rfl) hi (fun j hj => by simpa [eq_comm] using hj) (by simp)
  case h_6 i hstage =>
    obtain ⟨item, hi, rfl⟩ := Option.map_eq_some_iff.mp h
    exact kept_working (f := fun item => { item with submitted := true }) hp (.inr hstage)
      (fun _ => rfl) hi (fun j hj => by simp at hj) (by simp)
  case h_7 i hstage => exact kept_error hp (.inl hstage) hused h
  case h_8 i hstage => exact kept_error hp (.inr hstage) hused h
  case h_9 hstage =>
    have hrun : p.stage ≠ .ended := by simp [hstage]
    split_ifs at h with hleft
    · exact Option.some.inj h ▸ kept_stage hp hrun Outcome.noConfusion calm_filling
    · exact Option.some.inj h ▸ kept_finish hp Outcome.noConfusion hused
  case h_10 i hstage =>
    exact kept_mark (f := fun item => { item with done := true }) hp hstage Outcome.noConfusion
      hused (fun _ => ⟨rfl, fun hleft => Bool.noConfusion hleft.1⟩) h
  case h_11 i hstage =>
    exact kept_mark (f := fun item => { item with failed := true }) hp hstage Outcome.noConfusion
      hused (fun _ => ⟨rfl, fun hleft => Bool.noConfusion hleft.2⟩) h
  case h_12 | h_13 | h_14 | h_15 => exact Option.some.inj h ▸ kept_finish hp Outcome.noConfusion hused
  case h_16 => cases h

end Turns

/-! ### Runs -/

/-- What every step keeps: all but the slots of resumed downloads. -/
structure Sound (p : SlotPool) : Prop where
  used : p.shared.used = ((p.tasks.map Pipeline.held).sum : ℤ)
  limit : ∀ e ∈ p.trace, e.used ≤ e.limit
  fits : ∀ t ∈ p.tasks, t.Fits

theorem Sound.slotsRight {p : SlotPool} (h : Sound p) :
    SlotsRight p ↔ ∀ t ∈ p.tasks, t.Covered :=
  ⟨fun hr => hr.covered, fun hc =>
    { used := h.used
      limit := h.limit
      nonneg := by rw [h.used]; exact Int.natCast_nonneg _
      covered := hc
      clean := fun t ht => (h.fits t ht).clean }⟩

theorem fits_new (maxInflight : ℕ) : ({ maxInflight } : Pipeline).Fits where
  nodup := List.nodup_nil
  pending := List.forall_mem_nil _
  reusing := fun _ => ⟨rfl, rfl⟩
  working := fun _ hj => hj.elim Stage.noConfusion Stage.noConfusion
  clean := Stage.noConfusion

/-- A turn of a pipeline in a sound pool. -/
theorem Sound.kept {p : SlotPool} {t : Pipeline} {others : List Pipeline} {o : Outcome}
    {r : SlotTurn} (h : Sound p) (hperm : p.tasks.Perm (t :: others))
    (hr : advance p.shared t o = some r) : Kept p.shared t o r := by
  apply advance_kept (h.fits t (hperm.mem_iff.mpr List.mem_cons_self)) _ hr
  rw [h.used, (hperm.map Pipeline.held).sum_eq, List.map_cons, List.sum_cons]
  exact_mod_cast Nat.le_add_right _ _

theorem sound_step {p q : SlotPool} {a : Action Outcome External} (h : Sound p)
    (hs : system.step p a = some q) : Sound q := by
  obtain ⟨i, o, t, r, others, rfl, -, hr, hshared, htrace, hp, hq⟩ |
    ⟨e, r, rfl, hr, hshared, htrace, hq⟩ := System.step_perm hs
  · have hk := h.kept hp hr
    have hsum := h.used
    rw [(hp.map Pipeline.held).sum_eq, List.map_cons, List.sum_cons] at hsum
    rw [hk.spawned] at hq
    refine { used := ?_, limit := ?_, fits := fun x hx => ?_ }
    · have hused := hk.used
      rw [hshared, (hq.map Pipeline.held).sum_eq]
      simp only [List.singleton_append, List.map_cons, List.sum_cons]
      push_cast at hsum ⊢
      omega
    · rw [htrace]
      exact List.forall_mem_append.mpr ⟨h.limit, hk.limit⟩
    · rcases List.mem_cons.mp (hq.mem_iff.mp hx) with rfl | hx
      · exact hk.fits
      · exact h.fits x (hp.mem_iff.mpr (List.mem_cons_of_mem t hx))
  · cases e with
    | start maxInflight =>
      cases hr
      refine { used := ?_, limit := ?_, fits := fun x hx => ?_ }
      · rw [hshared, (hq.map Pipeline.held).sum_eq]
        simpa [Pipeline.held] using h.used
      · rw [htrace, List.append_nil]
        exact h.limit
      · rcases List.mem_cons.mp (hq.mem_iff.mp hx) with rfl | hx
        · exact fits_new maxInflight
        · exact h.fits x hx
    | configure concurrency =>
      cases hr
      refine { used := ?_, limit := ?_, fits := fun x hx => ?_ }
      · rw [hshared, (hq.map Pipeline.held).sum_eq]
        exact h.used
      · rw [htrace, List.append_nil]
        exact h.limit
      · exact h.fits x (hq.mem_iff.mp hx)

theorem sound_start (concurrency : ℤ) : Sound (start concurrency) where
  used := rfl
  limit := List.forall_mem_nil _
  fits := List.forall_mem_nil _

/-- A step keeps every download in flight on a slot if and only if it resumes none. -/
theorem noneResumed_iff {p q : SlotPool} {a : Action Outcome External} (h : Sound p)
    (hc : ∀ t ∈ p.tasks, t.Covered) (hs : system.step p a = some q) :
    NoneResumed p a ↔ ∀ t ∈ q.tasks, t.Covered := by
  obtain ⟨i, o, t, r, others, rfl, -, hr, -, -, hp, hq⟩ | ⟨e, r, rfl, hr, -, -, hq⟩ :=
    System.step_perm hs
  · have hk := h.kept hp hr
    have hold := hk.covered (hc t (hp.mem_iff.mpr List.mem_cons_self))
    rw [hk.spawned] at hq
    have hnone : NoneResumed p (.resume i o) ↔ o ≠ .resumed := by cases o <;> simp [NoneResumed]
    rw [hnone, ← hold]
    constructor
    · intro ht x hx
      rcases List.mem_cons.mp (hq.mem_iff.mp hx) with rfl | hx
      · exact ht
      · exact hc x (hp.mem_iff.mpr (List.mem_cons_of_mem t hx))
    · exact fun hall => hall _ (hq.mem_iff.mpr List.mem_cons_self)
  · refine ⟨fun _ x hx => ?_, fun _ => trivial⟩
    cases e with
    | start maxInflight =>
      cases hr
      rcases List.mem_cons.mp (hq.mem_iff.mp hx) with rfl | hx
      · exact fun _ => List.forall_mem_nil _
      · exact hc x hx
    | configure concurrency =>
      cases hr
      exact hc x (hq.mem_iff.mp hx)

/-- The slots are right in every state of a run if and only if the run resumes no download of an
earlier one. -/
theorem slotsRight_iff_noneResumed (concurrency : ℤ) (as : List (Action Outcome External)) :
    system.Throughout SlotsRight (start concurrency) as ↔
      system.Along NoneResumed (start concurrency) as := by
  apply System.throughout_iff_along (I := Sound) (fun _ _ _ => sound_step) _
    (sound_start concurrency) ((sound_start concurrency).slotsRight.mpr (List.forall_mem_nil _))
  intro p a q h hr hs
  rw [(sound_step h hs).slotsRight]
  exact noneResumed_iff h hr.covered hs

/-- A download of an earlier run is in flight, and no slot is taken. -/
theorem resumed_without_slot : ∃ (concurrency : ℤ) (as : List (Action Outcome External))
    (p : SlotPool), system.run (start concurrency) as = some p ∧ ¬SlotsRight p := by
  refine ⟨1, [.event (.start 1), .resume 0 .resumed], _, rfl, fun h => ?_⟩
  have hcovered := h.covered _ List.mem_cons_self Stage.noConfusion _ List.mem_cons_self rfl
    ⟨rfl, rfl⟩
  exact Bool.false_ne_true hcovered

end AllInOneBackup.Cloud123.OfflineSlots
