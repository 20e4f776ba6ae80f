import AllInOneBackup.LitePan.Upload.Manager

/-! Tasks whose run has ended. `Resume` and `Delete` wait for the channel of a run before they touch
its task, and `pause` leaves a task alone that is not active, so a task must not be running once
its channel is closed. A download that succeeds although its context was cancelled leaves the
status as it is, which may be running; and two calls of `Resume` may start two runs with one
channel. Wherever neither happens, whoever made a task running is still at work on it. -/

namespace AllInOneBackup.LitePan.Upload

open Concurrency Manager

variable {K : Type} [LinearOrder K]

/-! ### The property and the condition -/

/-- Where the channel of a task's run is closed, the task is not running. -/
def NoOrphans (p : UploadPool K) : Prop :=
  ∀ id st, p.shared.tasks.lookup id = some st → st.runDone ∈ p.shared.closed →
    st.status ≠ .running

/-- The run that a goroutine makes. -/
def Goroutine.run? : Goroutine K → Option (Run K)
  | .gate r | .acquiring r | .waiting r _ | .holding _ r | .executing _ r | .finishing _ r _
  | .releasing _ r _ | .exiting r | .closing r => some r
  | .broadcasting next | .cancelling _ next => next.run?
  | _ => none

/-- The tasks for which a goroutine has yet to begin a run. -/
def Goroutine.starts : Goroutine K → List K
  | .starting taskID => [taskID]
  | .persisting taskIDs => taskIDs
  | .broadcasting next | .cancelling _ next => next.starts
  | _ => []

def Goroutine.ids (t : Goroutine K) : List K := t.starts ++ t.run?.toList.map Run.taskID

/-- What is asked of a turn. No download succeeds with its context cancelled and its task running,
and `Resume` starts a run only in the place of the one that it waited for. -/
def Concludes (p : UploadPool K) (o : Outcome) : Goroutine K → Prop
  | .executing .download r => o = .downloaded → p.shared.ctxErr r.ctx = true →
      ∀ st ∈ p.shared.tasks.lookup r.taskID, st.status ≠ .running
  | .resuming taskID done => o = .turn → p.shared.stopping = false →
      ∀ st ∈ p.shared.tasks.lookup taskID, st.status.isResumable = true → st.runDone = done
  | _ => True

/-- A new task does not get the id of a task from before whose goroutine has not ended. -/
def StepConcludes (p : UploadPool K) : Action Outcome (Call K) → Prop
  | .resume i o => ∀ t ∈ p.tasks[i]?, Concludes p o t
  | .event (.createBatch params) => ∀ c ∈ params, ∀ t ∈ p.tasks, c.taskID ∉ t.ids
  | .event _ => True

instance (p : UploadPool K) (o : Outcome) : DecidablePred (Concludes p o)
  | .executing .download r => inferInstanceAs (Decidable (o = .downloaded →
      p.shared.ctxErr r.ctx = true →
        ∀ st ∈ p.shared.tasks.lookup r.taskID, st.status ≠ .running))
  | .resuming taskID done => inferInstanceAs (Decidable (o = .turn → p.shared.stopping = false →
      ∀ st ∈ p.shared.tasks.lookup taskID, st.status.isResumable = true → st.runDone = done))
  | .executing .upload _ | .starting _ | .gate _ | .acquiring _ | .waiting _ _ | .holding _ _
  | .finishing _ _ _ | .releasing _ _ _ | .exiting _ | .closing _ | .broadcasting _
  | .persisting _ | .cancelling _ _ | .awaiting _ _ | .popping _ | .ended => .isTrue trivial

instance (p : UploadPool K) : DecidablePred (StepConcludes p)
  | .resume i o => inferInstanceAs (Decidable (∀ t ∈ p.tasks[i]?, Concludes p o t))
  | .event (.createBatch params) =>
    inferInstanceAs (Decidable (∀ c ∈ params, ∀ t ∈ p.tasks, c.taskID ∉ t.ids))
  | .event (.pause _) | .event (.resume _) | .event (.delete _)
  | .event (.refreshConcurrencyLimit _) | .event .stop => .isTrue trivial

/-! ### Who works on a task -/

/-- The goroutine has made the task running, and has yet to give it the status in which its run
ends. -/
def Carries (id : K) : Goroutine K → Prop
  | .executing _ r | .finishing _ r _ => r.taskID = id
  | _ => False

/-- The status that a goroutine is about to give its task is not running. -/
def Final : Goroutine K → Prop
  | .finishing _ _ status => status ≠ .running
  | .broadcasting next | .cancelling _ next => Final next
  | _ => True

/-- Each task has at most one goroutine that makes its run or has yet to begin it; the channel of
the run is the task's and is open; and a running task is carried. -/
structure Concluded (m : Manager K) (ts : List (Goroutine K)) : Prop where
  owner : ∃ owner : ℕ → Option K, (∀ t ∈ ts, ∀ r ∈ t.run?, owner r.done = some r.taskID) ∧
    ∀ id st, m.tasks.lookup id = some st → owner st.runDone = some id
  runs : ∀ t ∈ ts, ∀ r ∈ t.run?, r.done < m.chans
  chans : ∀ id st, m.tasks.lookup id = some st → st.runDone < m.chans
  closed : ∀ d ∈ m.closed, d < m.chans
  ids : (ts.flatMap Goroutine.ids).Nodup
  current : ∀ t ∈ ts, ∀ r ∈ t.run?, ∀ st, m.tasks.lookup r.taskID = some st → st.runDone = r.done
  isOpen : ∀ t ∈ ts, ∀ r ∈ t.run?, r.done ∉ m.closed
  startable : ∀ t ∈ ts, ∀ id ∈ t.starts, ∀ st, m.tasks.lookup id = some st →
    st.runDone ∉ m.closed
  running : ∀ id st, m.tasks.lookup id = some st → st.status = .running → ∃ t ∈ ts, Carries id t
  final : ∀ t ∈ ts, Final t

omit [LinearOrder K] in
theorem Carries.exists_run {id : K} {t : Goroutine K} (h : Carries id t) :
    ∃ r ∈ t.run?, r.taskID = id := by
  cases t with
  | executing kind r | finishing kind r status => exact ⟨r, rfl, h⟩
  | _ => exact h.elim

theorem Concluded.noOrphans {p : UploadPool K} (h : Concluded p.shared p.tasks) : NoOrphans p := by
  intro id st hst hclosed hrunning
  obtain ⟨t, ht, hcarries⟩ := h.running id st hst hrunning
  obtain ⟨r, hr, rfl⟩ := hcarries.exists_run
  rw [h.current t ht r hr st hst] at hclosed
  exact h.isOpen t ht r hr hclosed

theorem Concluded.perm {m : Manager K} {ts ts' : List (Goroutine K)} (h : Concluded m ts)
    (hperm : ts'.Perm ts) : Concluded m ts' where
  owner := by
    obtain ⟨owner, hruns, htasks⟩ := h.owner
    exact ⟨owner, fun t ht => hruns t (hperm.mem_iff.mp ht), htasks⟩
  runs t ht := h.runs t (hperm.mem_iff.mp ht)
  chans := h.chans
  closed := h.closed
  ids := (hperm.flatMap_right Goroutine.ids).nodup_iff.mpr h.ids
  current t ht := h.current t (hperm.mem_iff.mp ht)
  isOpen t ht := h.isOpen t (hperm.mem_iff.mp ht)
  startable t ht := h.startable t (hperm.mem_iff.mp ht)
  running id st hst hrunning := by
    obtain ⟨t, ht, hcarries⟩ := h.running id st hst hrunning
    exact ⟨t, hperm.mem_iff.mpr ht, hcarries⟩
  final t ht := h.final t (hperm.mem_iff.mp ht)

/-! ### What a turn keeps -/

/-- What most turns do: they start and close no channel, take over the run or the tasks of the
goroutine they replace, and leave no task running without one that carries it. -/
structure Passes (m : Manager K) (olds : List (Goroutine K)) (m' : Manager K)
    (new : List (Goroutine K)) : Prop where
  chans : m'.chans = m.chans
  closed : m'.closed = m.closed
  lookup : ∀ id st', m'.tasks.lookup id = some st' → ∃ st, m.tasks.lookup id = some st ∧
    st'.runDone = st.runDone ∧ (st'.status = .running → (∃ x ∈ new, Carries id x) ∨
      st.status = .running ∧ ∀ x ∈ olds, ¬Carries id x)
  nodup : (new.flatMap Goroutine.ids).Nodup
  ids : ∀ id ∈ new.flatMap Goroutine.ids, id ∈ olds.flatMap Goroutine.ids
  runs : ∀ x ∈ new, ∀ r ∈ x.run?, (∃ t ∈ olds, r ∈ t.run?) ∨
    ∃ t ∈ olds, r.taskID ∈ t.starts ∧ ∃ st, m.tasks.lookup r.taskID = some st ∧ st.runDone = r.done
  starts : ∀ x ∈ new, ∀ id ∈ x.starts, ∃ t ∈ olds, id ∈ t.starts
  final : ∀ x ∈ new, Final x

section Passes

variable {m m' : Manager K} {olds new others : List (Goroutine K)}

omit [LinearOrder K] in
/-- A property that every goroutine had, and that the new ones have, every goroutine has. -/
theorem forall_mem_replaced {P P' : Goroutine K → Prop} (h : ∀ t ∈ olds ++ others, P t)
    (hother : ∀ t, P t → P' t) (hnew : ∀ t ∈ new, P' t) : ∀ t ∈ new ++ others, P' t := by
  intro t ht
  obtain ht | ht := List.mem_append.mp ht
  · exact hnew t ht
  · exact hother t (h t (List.mem_append_right olds ht))

omit [LinearOrder K] in
theorem nodup_ids_replaced (h : ((olds ++ others).flatMap Goroutine.ids).Nodup)
    (hnodup : (new.flatMap Goroutine.ids).Nodup)
    (hids : ∀ id ∈ new.flatMap Goroutine.ids,
      id ∈ olds.flatMap Goroutine.ids ∨ id ∉ others.flatMap Goroutine.ids) :
    ((new ++ others).flatMap Goroutine.ids).Nodup := by
  rw [List.flatMap_append, List.nodup_append] at *
  obtain ⟨-, hothers, hdisjoint⟩ := h
  refine ⟨hnodup, hothers, fun a ha b hb hab => ?_⟩
  subst hab
  obtain hold | hnot := hids a ha
  · exact hdisjoint a hold a hb rfl
  · exact hnot hb

theorem Concluded.of_passes (h : Concluded m (olds ++ others)) (hp : Passes m olds m' new) :
    Concluded m' (new ++ others) := by
  obtain ⟨owner, hruns, htasks⟩ := h.owner
  have hold : ∀ t ∈ olds, t ∈ olds ++ others := fun t ht => List.mem_append_left _ ht
  -- the run of a new goroutine is that of an old one, or begins for a task that was to start
  have hrun : ∀ x ∈ new, ∀ r ∈ x.run?, owner r.done = some r.taskID ∧ r.done < m.chans ∧
      r.done ∉ m.closed ∧ ∀ st, m.tasks.lookup r.taskID = some st → st.runDone = r.done := by
    intro x hx r hr
    obtain ⟨t, ht, hr⟩ | ⟨t, ht, hstarts, st, hst, hdone⟩ := hp.runs x hx r hr
    · exact ⟨hruns t (hold t ht) r hr, h.runs t (hold t ht) r hr, h.isOpen t (hold t ht) r hr,
        h.current t (hold t ht) r hr⟩
    · refine ⟨hdone ▸ htasks _ st hst, hdone ▸ h.chans _ st hst,
        hdone ▸ h.startable t (hold t ht) _ hstarts st hst, fun st' hst' => ?_⟩
      rw [← hdone, Option.some.inj (hst.symm.trans hst')]
  constructor
  case owner =>
    refine ⟨owner, forall_mem_replaced hruns (fun _ h => h) fun x hx r hr => (hrun x hx r hr).1, ?_⟩
    intro id st' hst'
    obtain ⟨st, hst, hdone, -⟩ := hp.lookup id st' hst'
    exact hdone ▸ htasks id st hst
  case runs =>
    rw [hp.chans]
    exact forall_mem_replaced h.runs (fun _ h => h) fun x hx r hr => (hrun x hx r hr).2.1
  case chans =>
    intro id st' hst'
    obtain ⟨st, hst, hdone, -⟩ := hp.lookup id st' hst'
    rw [hp.chans, hdone]
    exact h.chans id st hst
  case closed =>
    rw [hp.chans, hp.closed]
    exact h.closed
  case ids => exact nodup_ids_replaced h.ids hp.nodup fun id hid => .inl (hp.ids id hid)
  case current =>
    refine forall_mem_replaced (P := fun t => ∀ r ∈ t.run?, ∀ st,
      m.tasks.lookup r.taskID = some st → st.runDone = r.done) h.current ?_ ?_
    · intro t hcurrent r hr st' hst'
      obtain ⟨st, hst, hdone, -⟩ := hp.lookup _ st' hst'
      exact hdone.trans (hcurrent r hr st hst)
    · intro x hx r hr st' hst'
      obtain ⟨st, hst, hdone, -⟩ := hp.lookup _ st' hst'
      exact hdone.trans ((hrun x hx r hr).2.2.2 st hst)
  case isOpen =>
    rw [hp.closed]
    exact forall_mem_replaced h.isOpen (fun _ h => h) fun x hx r hr => (hrun x hx r hr).2.2.1
  case startable =>
    rw [hp.closed]
    refine forall_mem_replaced (P := fun t => ∀ id ∈ t.starts, ∀ st,
      m.tasks.lookup id = some st → st.runDone ∉ m.closed) h.startable ?_ ?_
    · intro t hstartable id hid st' hst'
      obtain ⟨st, hst, hdone, -⟩ := hp.lookup _ st' hst'
      exact hdone ▸ hstartable id hid st hst
    · intro x hx id hid st' hst'
      obtain ⟨t, ht, hid⟩ := hp.starts x hx id hid
      obtain ⟨st, hst, hdone, -⟩ := hp.lookup _ st' hst'
      exact hdone ▸ h.startable t (hold t ht) id hid st hst
  case running =>
    intro id st' hst' hrunning
    obtain ⟨st, hst, -, hcarried⟩ := hp.lookup id st' hst'
    obtain ⟨x, hx, hcarries⟩ | ⟨hrunning, hnone⟩ := hcarried hrunning
    · exact ⟨x, List.mem_append_left _ hx, hcarries⟩
    · obtain ⟨t, ht, hcarries⟩ := h.running id st hst hrunning
      obtain ht | ht := List.mem_append.mp ht
      · exact absurd hcarries (hnone t ht)
      · exact ⟨t, List.mem_append_right _ ht, hcarries⟩
  case final => exact forall_mem_replaced h.final (fun _ h => h) hp.final

/-- Where one goroutine is replaced. -/
theorem Concluded.of_passes_one {t : Goroutine K} (h : Concluded m (t :: others))
    (hp : Passes m [t] m' new) : Concluded m' (new ++ others) :=
  Concluded.of_passes h hp

/-- Where none is. -/
theorem Concluded.of_passes_nil (h : Concluded m others) (hp : Passes m [] m' new) :
    Concluded m' (new ++ others) :=
  Concluded.of_passes h hp

variable {t t' : Goroutine K}

/-- A turn of a goroutine that starts no others and goes on with the same run, or with none. -/
theorem Passes.of_lookup (ht : t.ids.Nodup) (hids : t'.ids.Sublist t.ids)
    (hruns : ∀ r ∈ t'.run?, r ∈ t.run?) (hstarts : ∀ id ∈ t'.starts, id ∈ t.starts)
    (hfinal : Final t') (hchans : m'.chans = m.chans) (hclosed : m'.closed = m.closed)
    (hlookup : ∀ id st', m'.tasks.lookup id = some st' → ∃ st, m.tasks.lookup id = some st ∧
      st'.runDone = st.runDone ∧ (st'.status = .running → Carries id t' ∨
        st.status = .running ∧ ¬Carries id t)) : Passes m [t] m' [t'] where
  chans := hchans
  closed := hclosed
  lookup id st' hst' := by simpa using hlookup id st' hst'
  nodup := by simpa using ht.sublist hids
  ids id hid := by
    simp only [List.flatMap_singleton] at hid ⊢
    exact hids.subset hid
  runs x hx r hr := by
    obtain rfl := List.mem_singleton.mp hx
    exact .inl ⟨t, List.mem_singleton_self t, hruns r hr⟩
  starts x hx id hid := by
    obtain rfl := List.mem_singleton.mp hx
    exact ⟨t, List.mem_singleton_self t, hstarts id hid⟩
  final x hx := List.mem_singleton.mp hx ▸ hfinal

/-- The tasks stay as they are. -/
theorem Passes.of_tasks_eq (ht : t.ids.Nodup) (hids : t'.ids.Sublist t.ids)
    (hruns : ∀ r ∈ t'.run?, r ∈ t.run?) (hstarts : ∀ id ∈ t'.starts, id ∈ t.starts)
    (hfinal : Final t') (hchans : m'.chans = m.chans) (hclosed : m'.closed = m.closed)
    (htasks : m'.tasks = m.tasks)
    (hcarries : ∀ id st, m.tasks.lookup id = some st → Carries id t → Carries id t') :
    Passes m [t] m' [t'] := by
  refine .of_lookup ht hids hruns hstarts hfinal hchans hclosed fun id st hst => ?_
  rw [htasks] at hst
  refine ⟨st, hst, rfl, fun hrunning => ?_⟩
  by_cases hc : Carries id t
  · exact .inl (hcarries id st hst hc)
  · exact .inr ⟨hrunning, hc⟩

/-- One task is patched, and its run stays the same. -/
theorem Passes.of_patch {taskID : K} {fn : TaskState → TaskState} (ht : t.ids.Nodup)
    (hids : t'.ids.Sublist t.ids) (hruns : ∀ r ∈ t'.run?, r ∈ t.run?)
    (hstarts : ∀ id ∈ t'.starts, id ∈ t.starts) (hfinal : Final t')
    (hdone : ∀ st, (fn st).runDone = st.runDone)
    (hself : ∀ st, m.tasks.lookup taskID = some st → (fn st).status = .running →
      Carries taskID t' ∨ st.status = .running ∧ ¬Carries taskID t)
    (hother : ∀ id, id ≠ taskID → Carries id t → Carries id t') :
    Passes m [t] (m.patch taskID fn) [t'] := by
  refine .of_lookup ht hids hruns hstarts hfinal (patch_chans _ _) (patch_closed _ _)
    fun id st' hst' => ?_
  obtain ⟨st, hst, ⟨rfl, rfl⟩ | ⟨hne, rfl⟩⟩ := lookup_patch_cases hst'
  · exact ⟨st, hst, hdone st, hself st hst⟩
  · refine ⟨st', hst, rfl, fun hrunning => ?_⟩
    by_cases hc : Carries id t
    · exact .inl (hother id hne hc)
    · exact .inr ⟨hrunning, hc⟩

end Passes

section Turn

variable {p : UploadPool K} {t : Goroutine K} {o : Outcome} {turn : UploadTurn K}

theorem passes_acquireRunSlot {m : Manager K} {r : Run K} (ht : t.ids = [r.taskID])
    (hrun : t.run? = some r) (hcarries : ∀ id, ¬Carries id t) :
    Passes m [t] (m.acquireRunSlot r).shared
      ((m.acquireRunSlot r).task :: (m.acquireRunSlot r).spawned) := by
  have hnodup : t.ids.Nodup := by simp [ht]
  have hruns : ∀ r' ∈ (some r : Option (Run K)), r' ∈ t.run? := by simp [hrun]
  have hsublist : [r.taskID].Sublist t.ids := by simp [ht]
  unfold acquireRunSlot
  cases hst : m.tasks.lookup r.taskID with
  | none =>
    exact .of_tasks_eq hnodup hsublist hruns nofun trivial rfl rfl rfl
      fun id _ _ h => absurd h (hcarries id)
  | some st =>
    dsimp only
    split_ifs
    · exact .of_tasks_eq hnodup hsublist hruns nofun trivial rfl rfl rfl
        fun id _ _ h => absurd h (hcarries id)
    · have hpatch : Passes (m.acquireSlotLocked st.slotKind) [t] (m.grant r.taskID st.slotKind r.ctx)
          [.holding st.slotKind r] :=
        .of_patch hnodup hsublist hruns nofun trivial (fun _ => rfl)
          (fun st _ h => .inr ⟨h, hcarries _⟩) fun id _ h => absurd h (hcarries id)
      exact ⟨hpatch.chans, hpatch.closed, hpatch.lookup, hpatch.nodup, hpatch.ids, hpatch.runs,
        hpatch.starts, hpatch.final⟩
    · exact .of_tasks_eq hnodup hsublist hruns nofun trivial rfl rfl rfl
        fun id _ _ h => absurd h (hcarries id)

theorem passes_starting {m : Manager K} {taskID : K}
    (h : resume m (.starting taskID) o = some turn) :
    Passes m [.starting taskID] turn.shared (turn.task :: turn.spawned) := by
  have hnodup : (Goroutine.starting taskID).ids.Nodup := List.nodup_singleton taskID
  cases o <;> cases h
  cases hst : m.tasks.lookup taskID with
  | none => exact .of_tasks_eq hnodup (List.nil_sublist _) nofun nofun trivial rfl rfl rfl fun _ _ _ => id
  | some st =>
    refine ⟨rfl, rfl, fun id st hst => ⟨st, hst, rfl, fun h => .inr ⟨h, ?_⟩⟩, hnodup,
      fun id hid => hid, fun x hx r hr => .inr ?_, fun x hx id hid => ?_, fun x hx => ?_⟩
    · simp [Carries]
    · obtain rfl := List.mem_singleton.mp hx
      cases hr
      exact ⟨_, List.mem_singleton_self _, List.mem_singleton_self _, st, hst, rfl⟩
    · obtain rfl := List.mem_singleton.mp hx
      cases hid
    · obtain rfl := List.mem_singleton.mp hx
      trivial

theorem passes_holding {m : Manager K} {kind : SlotKind} {r : Run K}
    (h : resume m (.holding kind r) o = some turn) :
    Passes m [.holding kind r] turn.shared (turn.task :: turn.spawned) := by
  have hnodup : (Goroutine.holding kind r).ids.Nodup := List.nodup_singleton r.taskID
  cases o with
  | turn =>
    cases h
    cases m.tasks.lookup r.taskID with
    | none =>
      dsimp only
      exact .of_tasks_eq hnodup (.refl _) (fun _ => id) nofun trivial rfl rfl rfl fun _ _ _ => id
    | some st =>
      dsimp only
      split_ifs
      · exact .of_tasks_eq hnodup (.refl _) (fun _ => id) nofun trivial rfl rfl rfl
          fun _ _ _ => id
      · refine .of_patch hnodup (.refl _) (fun _ => id) nofun trivial (fun st => ?_)
          (fun st _ _ => .inl rfl) fun _ _ => False.elim
        cases kind <;> rfl
  | failed =>
    cases kind <;> cases h
    exact .of_patch hnodup (.refl _) (fun _ => id) nofun trivial (fun _ => rfl)
      (fun _ _ h => nomatch h) fun _ _ => False.elim
  | _ => cases kind <;> cases h

theorem passes_executing {kind : SlotKind} {r : Run K} (hok : Concludes p o (.executing kind r))
    (h : resume p.shared (.executing kind r) o = some turn) :
    Passes p.shared [.executing kind r] turn.shared (turn.task :: turn.spawned) := by
  have hnodup : (Goroutine.executing kind r).ids.Nodup := List.nodup_singleton r.taskID
  -- without its task the goroutine carries nothing
  have hgone {t' : Goroutine K} (hst : p.shared.tasks.lookup r.taskID = none) :
      ∀ id st, p.shared.tasks.lookup id = some st → Carries id (.executing kind r) →
        Carries id t' := by
    rintro id st h rfl
    simp [hst] at h
  cases o with
  | progress =>
    cases h
    refine .of_patch hnodup (.refl _) (fun _ => id) nofun trivial (fun st => ?_)
      (fun st _ _ => .inl rfl) fun _ _ => id
    cases kind
    · rfl
    · simp only []
      split_ifs <;> rfl
  | failed =>
    cases h
    cases hst : p.shared.tasks.lookup r.taskID with
    | none =>
      dsimp only
      exact .of_tasks_eq hnodup (.refl _) (fun _ => id) nofun trivial rfl rfl rfl (hgone hst)
    | some st =>
      dsimp only
      refine .of_tasks_eq hnodup (.refl _) (fun _ => id) nofun ?_ rfl rfl rfl fun _ _ _ => id
      change p.shared.errorStatus st r.ctx ≠ .running
      unfold errorStatus
      split_ifs <;> nofun
  | uploaded skipped =>
    cases kind <;> cases h
    cases hst : p.shared.tasks.lookup r.taskID with
    | none =>
      dsimp only
      exact .of_tasks_eq hnodup (.refl _) (fun _ => id) nofun trivial rfl rfl rfl (hgone hst)
    | some st =>
      dsimp only
      refine .of_tasks_eq hnodup (.refl _) (fun _ => id) nofun ?_ rfl rfl rfl fun _ _ _ => id
      cases skipped <;> nofun
  | downloaded =>
    cases kind <;> cases h
    refine .of_patch hnodup (.refl _) (fun _ => id) nofun trivial (fun st => ?_) (fun st hst hr => ?_)
      fun id hne hid => absurd hid.symm hne
    · split_ifs <;> rfl
    · cases hctx : p.shared.ctxErr r.ctx with
      | false => simp [hctx] at hr
      | true =>
        rw [if_pos hctx] at hr
        exact absurd hr (hok rfl hctx st hst)
  | _ => cases kind <;> cases h

theorem passes_finishing {m : Manager K} {kind : SlotKind} {r : Run K} {status : Status}
    (hfinal : status ≠ .running) (h : resume m (.finishing kind r status) o = some turn) :
    Passes m [.finishing kind r status] turn.shared (turn.task :: turn.spawned) := by
  cases o <;> cases h
  refine .of_patch (List.nodup_singleton r.taskID) (.refl _) (fun _ => id) nofun trivial
    (fun st => ?_) (fun st _ hr => absurd ?_ hfinal) fun id hne hid => absurd hid.symm hne
  · cases kind
    · simp only []
      split_ifs <;> rfl
    · rfl
  · cases kind
    · simp only [] at hr
      split_ifs at hr <;> exact hr
    · exact hr

theorem passes_persisting {m : Manager K} {taskIDs : List K} (ht : taskIDs.Nodup)
    (h : resume m (.persisting taskIDs) o = some turn) :
    Passes m [.persisting taskIDs] turn.shared (turn.task :: turn.spawned) := by
  have hids : (Goroutine.persisting taskIDs).ids = taskIDs := List.append_nil _
  cases o <;> cases h
  · have hspawned : ((.ended :: taskIDs.map .starting : List (Goroutine K))).flatMap
        Goroutine.ids = taskIDs := by
      simp [Goroutine.ids, Goroutine.starts, Goroutine.run?, List.flatMap_map]
    have hmem : ∀ x ∈ (.ended :: taskIDs.map .starting : List (Goroutine K)),
        x = .ended ∨ ∃ id ∈ taskIDs, x = .starting id := by
      intro x hx
      obtain rfl | hx := List.mem_cons.mp hx
      · exact .inl rfl
      · obtain ⟨id, hid, rfl⟩ := List.mem_map.mp hx
        exact .inr ⟨id, hid, rfl⟩
    refine ⟨rfl, rfl, fun id st hst => ⟨st, hst, rfl, fun h => .inr ⟨h, by simp [Carries]⟩⟩, ?_,
      fun id hid => ?_, fun x hx r hr => ?_, fun x hx id hid => ?_, fun x hx => ?_⟩
    · rwa [hspawned]
    · rw [hspawned] at hid
      simpa [hids] using hid
    · obtain rfl | ⟨id, -, rfl⟩ := hmem x hx <;> cases hr
    · obtain rfl | ⟨id', hid', rfl⟩ := hmem x hx
      · cases hid
      · obtain rfl := List.mem_singleton.mp hid
        exact ⟨_, List.mem_singleton_self _, hid'⟩
    · obtain rfl | ⟨id, -, rfl⟩ := hmem x hx <;> trivial
  · obtain ⟨tasks, heq, hlookup⟩ := foldl_removeTask m taskIDs
    rw [heq]
    exact .of_lookup (by rwa [hids]) (List.nil_sublist _) nofun nofun trivial rfl rfl
      fun id st hst => ⟨st, (hlookup id st hst).2, rfl, fun h => .inr ⟨h, False.elim⟩⟩

/-- A turn is one of those that pass the run on, or it closes the channel of a run, or it is the
second section of `Resume` for a task whose run has ended. -/
theorem resume_cases (ht : t.ids.Nodup) (hfinal : Final t) (hok : Concludes p o t)
    (h : resume p.shared t o = some turn) :
    Passes p.shared [t] turn.shared (turn.task :: turn.spawned) ∨
    (∃ r, t = .closing r ∧
      turn = { shared := { p.shared with closed := r.done :: p.shared.closed }, task := .ended }) ∨
    ∃ taskID done st, t = .resuming taskID done ∧ p.shared.tasks.lookup taskID = some st ∧
      st.runDone ∈ p.shared.closed ∧
      turn = { shared := p.shared.resumeTask taskID, task := .starting taskID } := by
  cases t with
  | starting taskID => exact .inl (passes_starting h)
  | acquiring r =>
    cases o <;> cases h
    exact .inl (passes_acquireRunSlot rfl rfl fun _ => id)
  | waiting r ticket =>
    cases o <;> try cases h
    obtain ⟨-, h⟩ := Option.ite_none_right_eq_some.mp h
    cases h
    exact .inl (passes_acquireRunSlot rfl rfl fun _ => id)
  | gate r =>
    cases o <;> try cases h
    · exact .inl (.of_tasks_eq ht (.refl _) (fun _ => id) nofun trivial rfl rfl rfl fun _ _ _ => id)
    · obtain ⟨-, h⟩ := Option.ite_none_right_eq_some.mp h
      cases h
      exact .inl (.of_tasks_eq ht (.refl _) (fun _ => id) nofun trivial rfl rfl rfl fun _ _ _ => id)
  | holding kind r => exact .inl (passes_holding h)
  | executing kind r => exact .inl (passes_executing hok h)
  | finishing kind r status => exact .inl (passes_finishing hfinal h)
  | releasing kind r again =>
    cases o <;> cases h
    refine .inl ?_
    cases again <;> exact .of_tasks_eq ht (.refl _) (fun _ => id) nofun trivial
      (releaseSlot_chans kind) (releaseSlot_closed kind) (releaseSlot_tasks kind) fun _ _ _ => id
  | exiting r =>
    cases o <;> cases h
    refine .inl (.of_patch ht (.refl _) (fun _ => id) nofun trivial (fun st => ?_)
      (fun st _ hr => .inr ⟨?_, id⟩) fun _ _ => id)
    · split_ifs <;> rfl
    · split_ifs at hr <;> exact hr
  | closing r =>
    cases o <;> cases h
    exact .inr (.inl ⟨r, rfl, rfl⟩)
  | broadcasting next =>
    cases o <;> cases h
    exact .inl (.of_tasks_eq ht (.refl _) (fun _ => id) (fun _ => id) hfinal rfl rfl rfl
      fun _ _ _ => False.elim)
  | cancelling cancel next =>
    cases o <;> cases h
    exact .inl (.of_tasks_eq ht (.refl _) (fun _ => id) (fun _ => id) hfinal rfl rfl rfl
      fun _ _ _ => id)
  | persisting taskIDs =>
    exact .inl (passes_persisting
      (by simpa [Goroutine.ids, Goroutine.run?, Goroutine.starts] using ht) h)
  | resuming taskID done =>
    obtain rfl | ⟨⟨hclosed, hstop, st, hst, hresumable⟩, ⟨rfl, rfl⟩ | rfl⟩ := resuming_cases h
    · exact .inl (.of_tasks_eq ht (.refl _) (fun _ => id) nofun trivial rfl rfl rfl
        fun _ _ _ => id)
    · exact .inr (.inr ⟨taskID, done, st, rfl, hst,
        (hok rfl hstop st hst hresumable).symm ▸ hclosed, rfl⟩)
    · exact .inl (.of_patch ht (.refl _) (fun _ => id) nofun trivial (fun _ => rfl)
        (fun _ _ h => nomatch h) fun _ _ => id)
  | awaiting taskID done =>
    cases o <;> try cases h
    · obtain ⟨-, h⟩ := Option.ite_none_right_eq_some.mp h
      cases h
      exact .inl (.of_tasks_eq ht (.refl _) (fun _ => id) nofun trivial rfl rfl rfl
        fun _ _ _ => id)
    · exact .inl (.of_tasks_eq ht (.refl _) (fun _ => id) nofun trivial rfl rfl rfl
        fun _ _ _ => id)
  | popping taskID =>
    cases o <;> cases h
    refine .inl (.of_lookup ht (.refl _) (fun _ => id) nofun trivial rfl rfl fun id st hst => ?_)
    exact ⟨st, (lookup_removeTask hst).2, rfl, fun h => .inr ⟨h, False.elim⟩⟩
  | ended => cases o <;> cases h

end Turn

/-! ### New channels and closed ones -/

section Channels

variable {m m' : Manager K} {ts ts' : List (Goroutine K)}

omit [LinearOrder K] in
theorem mem_ids_of_run {t : Goroutine K} {r : Run K} (ht : t ∈ ts) (hr : r ∈ t.run?) :
    r.taskID ∈ ts.flatMap Goroutine.ids :=
  List.mem_flatMap.mpr ⟨t, ht, List.mem_append_right _
    (List.mem_map_of_mem (Option.mem_toList.mpr hr))⟩

omit [LinearOrder K] in
theorem mem_ids_of_starts {t : Goroutine K} {id : K} (ht : t ∈ ts) (hid : id ∈ t.starts) :
    id ∈ ts.flatMap Goroutine.ids :=
  List.mem_flatMap.mpr ⟨t, ht, List.mem_append_left _ hid⟩

/-- A run that ends closes its channel, which is no other's. -/
theorem Concluded.close {r : Run K} (h : Concluded m (.closing r :: ts)) :
    Concluded { m with closed := r.done :: m.closed } (.ended :: ts) := by
  obtain ⟨owner, hruns, htasks⟩ := h.owner
  have hself : owner r.done = some r.taskID := hruns _ List.mem_cons_self r rfl
  have hnodup := h.ids
  rw [List.flatMap_cons, List.nodup_append] at hnodup
  have hid : r.taskID ∉ ts.flatMap Goroutine.ids := fun hmem =>
    hnodup.2.2 _ (List.mem_singleton_self r.taskID) _ hmem rfl
  have hforall : ∀ {P : Goroutine K → Prop}, (∀ t ∈ (.closing r :: ts), P t) → P .ended →
      ∀ t ∈ (.ended :: ts), P t := fun h h' => List.forall_mem_cons.mpr
    ⟨h', (List.forall_mem_cons.mp h).2⟩
  constructor
  case owner => exact ⟨owner, hforall hruns nofun, htasks⟩
  case runs => exact hforall h.runs nofun
  case chans => exact h.chans
  case closed =>
    exact List.forall_mem_cons.mpr ⟨h.runs _ List.mem_cons_self r rfl, h.closed⟩
  case ids => exact hnodup.2.1
  case current => exact hforall h.current nofun
  case isOpen =>
    refine List.forall_mem_cons.mpr ⟨nofun, fun t ht r' hr' hmem => ?_⟩
    obtain hdone | hmem := List.mem_cons.mp hmem
    · have howner := hruns t (List.mem_cons_of_mem _ ht) r' hr'
      rw [hdone, hself] at howner
      exact hid (Option.some.inj howner ▸ mem_ids_of_run ht hr')
    · exact h.isOpen t (List.mem_cons_of_mem _ ht) r' hr' hmem
  case startable =>
    refine List.forall_mem_cons.mpr ⟨nofun, fun t ht id hstarts st hst hmem => ?_⟩
    obtain hdone | hmem := List.mem_cons.mp hmem
    · have howner := htasks id st hst
      rw [hdone, hself] at howner
      exact hid (Option.some.inj howner ▸ mem_ids_of_starts ht hstarts)
    · exact h.startable t (List.mem_cons_of_mem _ ht) id hstarts st hst hmem
  case running =>
    intro id st hst hrunning
    obtain ⟨t, ht, hcarries⟩ := h.running id st hst hrunning
    obtain rfl | ht := List.mem_cons.mp ht
    · exact hcarries.elim
    · exact ⟨t, List.mem_cons_of_mem _ ht, hcarries⟩
  case final => exact hforall h.final trivial

/-- A task gets a new channel, with a run to begin unless the channel is closed at once. -/
theorem Concluded.insert {id : K} {st : TaskState} (h : Concluded m ts)
    (hid : id ∉ ts.flatMap Goroutine.ids) (hself : m'.tasks.lookup id = some st)
    (hdone : st.runDone = m.chans) (hstatus : st.status ≠ .running)
    (hother : ∀ id', id' ≠ id → m'.tasks.lookup id' = m.tasks.lookup id')
    (hchans : m'.chans = m.chans + 1)
    (hclosed : m'.closed = m.closed ∨ m'.closed = m.chans :: m.closed)
    (hnodup : (ts'.flatMap Goroutine.ids).Nodup)
    (hruns : ∀ t' ∈ ts', ∀ r ∈ t'.run?, ∃ t ∈ ts, r ∈ t.run?)
    (hstarts : ∀ t' ∈ ts', ∀ id' ∈ t'.starts, id' = id ∧ m'.closed = m.closed ∨
      ∃ t ∈ ts, id' ∈ t.starts)
    (hcarries : ∀ t ∈ ts, ∀ id', Carries id' t → ∃ t' ∈ ts', Carries id' t')
    (hfinal : ∀ t' ∈ ts', Final t') : Concluded m' ts' := by
  obtain ⟨owner, howner, htasks⟩ := h.owner
  have hlookup : ∀ id' st', m'.tasks.lookup id' = some st' →
      id' = id ∧ st' = st ∨ id' ≠ id ∧ m.tasks.lookup id' = some st' := by
    intro id' st' hst'
    by_cases heq : id' = id
    · subst heq
      exact .inl ⟨rfl, Option.some.inj (hst'.symm.trans hself)⟩
    · exact .inr ⟨heq, (hother id' heq).symm.trans hst'⟩
  have hmem : ∀ d < m.chans, d ∈ m'.closed → d ∈ m.closed := by
    intro d hd hd'
    obtain heq | heq := hclosed <;> rw [heq] at hd'
    · exact hd'
    · exact (List.mem_cons.mp hd').resolve_left hd.ne
  constructor
  case owner =>
    refine ⟨Function.update owner m.chans (some id), fun t' ht' r hr => ?_, fun id' st' hst' => ?_⟩
    · obtain ⟨t, ht, hr⟩ := hruns t' ht' r hr
      rw [Function.update_of_ne (h.runs t ht r hr).ne]
      exact howner t ht r hr
    · obtain ⟨rfl, rfl⟩ | ⟨-, hst⟩ := hlookup id' st' hst'
      · rw [hdone, Function.update_self]
      · rw [Function.update_of_ne (h.chans id' st' hst).ne]
        exact htasks id' st' hst
  case runs =>
    intro t' ht' r hr
    obtain ⟨t, ht, hr⟩ := hruns t' ht' r hr
    exact hchans ▸ (h.runs t ht r hr).trans (Nat.lt_succ_self _)
  case chans =>
    intro id' st' hst'
    rw [hchans]
    obtain ⟨rfl, rfl⟩ | ⟨-, hst⟩ := hlookup id' st' hst'
    · exact hdone ▸ Nat.lt_succ_self _
    · exact (h.chans id' st' hst).trans (Nat.lt_succ_self _)
  case closed =>
    intro d hd
    rw [hchans]
    obtain heq | heq := hclosed <;> rw [heq] at hd
    · exact (h.closed d hd).trans (Nat.lt_succ_self _)
    · obtain rfl | hd := List.mem_cons.mp hd
      · exact Nat.lt_succ_self _
      · exact (h.closed d hd).trans (Nat.lt_succ_self _)
  case ids => exact hnodup
  case current =>
    intro t' ht' r hr st' hst'
    obtain ⟨t, ht, hr⟩ := hruns t' ht' r hr
    obtain ⟨heq, -⟩ | ⟨-, hst⟩ := hlookup _ st' hst'
    · exact absurd (heq ▸ mem_ids_of_run ht hr) hid
    · exact h.current t ht r hr st' hst
  case isOpen =>
    intro t' ht' r hr hmem'
    obtain ⟨t, ht, hr⟩ := hruns t' ht' r hr
    exact h.isOpen t ht r hr (hmem _ (h.runs t ht r hr) hmem')
  case startable =>
    intro t' ht' id' hid' st' hst' hmem'
    obtain ⟨rfl, heq⟩ | ⟨t, ht, hstart⟩ := hstarts t' ht' id' hid'
    · obtain rfl : st = st' := Option.some.inj (hself.symm.trans hst')
      rw [heq, hdone] at hmem'
      exact absurd (h.closed _ hmem') (lt_irrefl _)
    · obtain ⟨heq, -⟩ | ⟨-, hst⟩ := hlookup id' st' hst'
      · exact absurd (heq ▸ mem_ids_of_starts ht hstart) hid
      · exact h.startable t ht id' hstart st' hst (hmem _ (h.chans id' st' hst) hmem')
  case running =>
    intro id' st' hst' hrunning
    obtain ⟨-, rfl⟩ | ⟨-, hst⟩ := hlookup id' st' hst'
    · exact absurd hrunning hstatus
    · obtain ⟨t, ht, hc⟩ := h.running id' st' hst hrunning
      exact hcarries t ht id' hc
  case final => exact hfinal

end Channels

/-! ### Every run -/

section Calls

variable {m : Manager K} {ts : List (Goroutine K)}

/-- A task whose channel is closed has nobody at work on it. -/
theorem Concluded.not_mem_ids {id : K} {st : TaskState} (h : Concluded m ts)
    (hst : m.tasks.lookup id = some st) (hclosed : st.runDone ∈ m.closed) :
    id ∉ ts.flatMap Goroutine.ids := by
  intro hmem
  obtain ⟨t, ht, hmem⟩ := List.mem_flatMap.mp hmem
  obtain hstarts | hrun := List.mem_append.mp hmem
  · exact h.startable t ht id hstarts st hst hclosed
  · obtain ⟨r, hr, rfl⟩ := List.mem_map.mp hrun
    have hr := Option.mem_toList.mp hr
    rw [h.current t ht r hr st hst] at hclosed
    exact h.isOpen t ht r hr hclosed

theorem Concluded.resumeTask {taskID : K} {done : ℕ} {st : TaskState}
    (h : Concluded m (.resuming taskID done :: ts)) (hst : m.tasks.lookup taskID = some st)
    (hclosed : st.runDone ∈ m.closed) :
    Concluded (m.resumeTask taskID) (.starting taskID :: ts) := by
  have hid : taskID ∉ ts.flatMap Goroutine.ids := h.not_mem_ids hst hclosed
  refine h.insert hid ((lookup_patch_self _ _).trans (by rw [hst]; rfl))
    rfl (by nofun) (fun id' hne => lookup_patch_of_ne hne _) rfl (.inl (patch_closed _ _))
    ?_ (List.forall_mem_cons.mpr ⟨nofun, fun t ht r hr => ⟨t, List.mem_cons_of_mem _ ht, hr⟩⟩)
    (List.forall_mem_cons.mpr ⟨fun id' hid' => .inl ⟨?_, patch_closed _ _⟩,
      fun t ht id' hid' => .inr ⟨t, List.mem_cons_of_mem _ ht, hid'⟩⟩)
    (List.forall_mem_cons.mpr ⟨fun _ => False.elim,
      fun t ht id' hc => ⟨t, List.mem_cons_of_mem _ ht, hc⟩⟩)
    (List.forall_mem_cons.mpr ⟨trivial, (List.forall_mem_cons.mp h.final).2⟩)
  · exact List.nodup_cons.mpr ⟨hid, h.ids⟩
  · exact List.mem_singleton.mp hid'

/-- A new task comes with the goroutine that is to persist it. -/
theorem Concluded.addTask {c : CreateParams K} {taskIDs : List K}
    (h : Concluded m (.persisting taskIDs :: ts))
    (hid : c.taskID ∉ taskIDs ++ ts.flatMap Goroutine.ids) :
    Concluded (m.addTask c) (.persisting (taskIDs ++ [c.taskID]) :: ts) := by
  have hids : ∀ taskIDs : List K, (Goroutine.persisting taskIDs :: ts).flatMap Goroutine.ids =
      taskIDs ++ ts.flatMap Goroutine.ids := fun taskIDs => by
    simp [Goroutine.ids, Goroutine.starts, Goroutine.run?]
  refine h.insert (by rwa [hids]) (AList.lookup_insert _) rfl nofun
    (fun id' hne => AList.lookup_insert_ne hne) rfl (.inl rfl) ?_
    (List.forall_mem_cons.mpr ⟨nofun, fun t ht r hr => ⟨t, List.mem_cons_of_mem _ ht, hr⟩⟩)
    (List.forall_mem_cons.mpr ⟨fun id' hid' => ?_,
      fun t ht id' hid' => .inr ⟨t, List.mem_cons_of_mem _ ht, hid'⟩⟩)
    (List.forall_mem_cons.mpr ⟨fun _ => False.elim,
      fun t ht id' hc => ⟨t, List.mem_cons_of_mem _ ht, hc⟩⟩)
    (List.forall_mem_cons.mpr ⟨trivial, (List.forall_mem_cons.mp h.final).2⟩)
  · have hnodup := h.ids
    rw [hids] at hnodup ⊢
    have hperm : ((taskIDs ++ [c.taskID]) ++ ts.flatMap Goroutine.ids).Perm
        (c.taskID :: (taskIDs ++ ts.flatMap Goroutine.ids)) := by
      rw [List.append_assoc]
      exact List.perm_middle
    exact hperm.nodup_iff.mpr (List.nodup_cons.mpr ⟨hid, hnodup⟩)
  · obtain hid' | hid' := List.mem_append.mp hid'
    · exact .inr ⟨_, List.mem_cons_self, hid'⟩
    · exact .inl ⟨List.mem_singleton.mp hid', rfl⟩

theorem Concluded.foldl_addTask {params : List (CreateParams K)} {taskIDs : List K}
    (h : Concluded m (.persisting taskIDs :: ts)) (hnodup : (params.map CreateParams.taskID).Nodup)
    (hid : ∀ c ∈ params, c.taskID ∉ taskIDs ++ ts.flatMap Goroutine.ids) :
    Concluded (params.foldl Manager.addTask m)
      (.persisting (taskIDs ++ params.map CreateParams.taskID) :: ts) := by
  induction params generalizing m taskIDs with
  | nil => simpa using h
  | cons c params ih =>
    obtain ⟨hc, hnodup⟩ := List.nodup_cons.mp hnodup
    obtain ⟨hcid, hid⟩ := List.forall_mem_cons.mp hid
    have hnext := ih (h.addTask hcid) hnodup fun c' hc' hmem => ?_
    · simpa using hnext
    · obtain hmem | hmem := List.mem_append.mp hmem
      · obtain hmem | hmem := List.mem_append.mp hmem
        · exact hid c' hc' (List.mem_append_left _ hmem)
        · exact hc (List.mem_singleton.mp hmem ▸ List.mem_map_of_mem hc')
      · exact hid c' hc' (List.mem_append_right _ hmem)

/-- One row, and the run of its task if it is pending. -/
theorem Concluded.restoreTask {row : Record K} (h : Concluded m ts)
    (hid : row.taskID ∉ ts.flatMap Goroutine.ids) :
    Concluded (m.restoreTask row)
      (ts ++ if row.restored = .pending then [.starting row.taskID] else []) := by
  have hstatus : row.restored ≠ .running := by
    unfold Record.restored
    cases row.status <;> simp <;> split_ifs <;> nofun
  have hmem : ∀ t ∈ ts ++ (if row.restored = .pending then [.starting row.taskID] else []),
      t ∈ ts ∨ row.restored = .pending ∧ t = .starting row.taskID := by
    intro t ht
    obtain ht | ht := List.mem_append.mp ht
    · exact .inl ht
    · split_ifs at ht with hp
      · exact .inr ⟨hp, List.mem_singleton.mp ht⟩
      · cases ht
  refine h.insert hid (AList.lookup_insert _) rfl hstatus
    (fun id' hne => AList.lookup_insert_ne hne) rfl ?_ ?_ (fun t ht r hr => ?_)
    (fun t ht id' hid' => ?_) (fun t ht id' hc => ⟨t, List.mem_append_left _ ht, hc⟩)
    (fun t ht => ?_)
  · by_cases hp : row.restored = .pending
    · exact .inl (if_pos hp)
    · exact .inr (if_neg hp)
  · split_ifs
    · have hids : (ts ++ [Goroutine.starting row.taskID]).flatMap Goroutine.ids =
          ts.flatMap Goroutine.ids ++ [row.taskID] := by
        simp [Goroutine.ids, Goroutine.starts, Goroutine.run?]
      rw [hids]
      exact List.Nodup.append h.ids (List.nodup_singleton _)
        (List.disjoint_singleton.mpr hid)
    · simpa using h.ids
  · obtain ht | ⟨-, rfl⟩ := hmem t ht
    · exact ⟨t, ht, hr⟩
    · cases hr
  · obtain ht | ⟨hp, rfl⟩ := hmem t ht
    · exact .inr ⟨t, ht, hid'⟩
    · exact .inl ⟨List.mem_singleton.mp hid', if_pos hp⟩
  · obtain ht | ⟨-, rfl⟩ := hmem t ht
    · exact h.final t ht
    · trivial

/-- The other calls touch statuses, and bring goroutines with no run. -/
theorem passes_event {e : Call K} {r : UploadEffect K} (hcall : ∀ params, e ≠ .createBatch params)
    (h : event m e = some r) : Passes m [] r.shared r.spawned := by
  have hquiet : ∀ {m' : Manager K} {new : List (Goroutine K)}, m'.chans = m.chans →
      m'.closed = m.closed → (∀ id st', m'.tasks.lookup id = some st' →
        ∃ st, m.tasks.lookup id = some st ∧ st'.runDone = st.runDone ∧
          (st'.status = .running → st.status = .running)) →
      (∀ x ∈ new, x.run? = none ∧ x.starts = [] ∧ Final x) → Passes m [] m' new := by
    intro m' new hchans hclosed hlookup hnew
    have hids : new.flatMap Goroutine.ids = [] := by
      rw [List.flatMap_eq_nil_iff]
      intro x hx
      simp [Goroutine.ids, (hnew x hx).1, (hnew x hx).2.1]
    refine ⟨hchans, hclosed, fun id st' hst' => ?_, by simp [hids], by simp [hids],
      fun x hx r hr => ?_, fun x hx id hid => ?_, fun x hx => (hnew x hx).2.2⟩
    · obtain ⟨st, hst, hdone, hstatus⟩ := hlookup id st' hst'
      exact ⟨st, hst, hdone, fun hr => .inr ⟨hstatus hr, by simp⟩⟩
    · simp [(hnew x hx).1] at hr
    · simp [(hnew x hx).2.1] at hid
  have hsame : ∀ id st', m.tasks.lookup id = some st' → ∃ st, m.tasks.lookup id = some st ∧
      st'.runDone = st.runDone ∧ (st'.status = .running → st.status = .running) :=
    fun _ st h => ⟨st, h, rfl, id⟩
  have hpatch : ∀ {taskID : K} {fn : TaskState → TaskState}, (∀ st, (fn st).runDone = st.runDone) →
      (∀ st, (fn st).status = .running → st.status = .running) → ∀ id st',
        (m.patch taskID fn).tasks.lookup id = some st' → ∃ st, m.tasks.lookup id = some st ∧
          st'.runDone = st.runDone ∧ (st'.status = .running → st.status = .running) := by
    intro taskID fn hdone hstatus id st' hst'
    obtain ⟨st, hst, ⟨-, rfl⟩ | ⟨-, rfl⟩⟩ := lookup_patch_cases hst'
    · exact ⟨st, hst, hdone st, hstatus st⟩
    · exact ⟨st', hst, rfl, fun h => h⟩
  cases e with
  | createBatch params => exact absurd rfl (hcall params)
  | pause taskID =>
    cases h
    cases m.tasks.lookup taskID with
    | none => exact hquiet rfl rfl hsame nofun
    | some st =>
      dsimp only
      split_ifs
      · exact hquiet rfl rfl hsame nofun
      · exact hquiet (patch_chans _ _) (patch_closed _ _)
          (hpatch (fun _ => rfl) fun _ h => nomatch h)
          (List.forall_mem_singleton.mpr ⟨rfl, rfl, trivial⟩)
  | resume taskID =>
    cases h
    cases m.tasks.lookup taskID with
    | none => exact hquiet rfl rfl hsame nofun
    | some st =>
      dsimp only
      split_ifs
      · exact hquiet rfl rfl hsame (List.forall_mem_singleton.mpr ⟨rfl, rfl, trivial⟩)
      · exact hquiet rfl rfl hsame nofun
  | delete taskID =>
    cases h
    cases m.tasks.lookup taskID with
    | none => exact hquiet rfl rfl hsame (List.forall_mem_singleton.mpr ⟨rfl, rfl, trivial⟩)
    | some st =>
      dsimp only
      split_ifs
      · exact hquiet rfl rfl hsame (List.forall_mem_singleton.mpr ⟨rfl, rfl, trivial⟩)
      · refine hquiet (patch_chans _ _) (patch_closed _ _) (hpatch (fun _ => rfl) fun st hr => ?_)
          (List.forall_mem_singleton.mpr ⟨rfl, rfl, trivial⟩)
        simp only [] at hr
        split_ifs at hr
        exact hr
  | refreshConcurrencyLimit v =>
    cases h
    exact hquiet rfl rfl hsame (List.forall_mem_singleton.mpr ⟨rfl, rfl, trivial⟩)
  | stop =>
    cases h
    obtain ⟨tasks, heq, hlookup⟩ := stop_eq m
    rw [heq]
    refine hquiet rfl rfl (fun id st' hst' => ?_)
      (List.forall_mem_singleton.mpr ⟨rfl, rfl, trivial⟩)
    obtain ⟨st, hst, hdone, hstatus⟩ := hlookup id st' hst'
    exact ⟨st, hst, hdone, fun h => hstatus ▸ h⟩

end Calls

theorem concluded_step {p q : UploadPool K} {a : Action Outcome (Call K)}
    (h : Concluded p.shared p.tasks) (hok : StepConcludes p a) (hstep : system.step p a = some q) :
    Concluded q.shared q.tasks := by
  obtain ⟨i, o, t, r, others, rfl, hi, hr, hshared, -, hp, hq⟩ | ⟨e, r, rfl, he, hshared, -, hq⟩ :=
    System.step_perm hstep
  · have h' := h.perm hp.symm
    refine Concluded.perm ?_ hq
    rw [hshared]
    have hnodup : t.ids.Nodup := by
      have hids := h'.ids
      rw [List.flatMap_cons] at hids
      exact hids.of_append_left
    obtain hpasses | ⟨run, rfl, rfl⟩ | ⟨taskID, done, st, rfl, hst, hclosed, rfl⟩ :=
      resume_cases hnodup (h'.final t List.mem_cons_self) (hok t hi) hr
    · exact h'.of_passes_one hpasses
    · exact h'.close
    · exact h'.resumeTask hst hclosed
  · refine Concluded.perm ?_ hq
    rw [hshared]
    by_cases hcall : ∃ params, e = .createBatch params
    · obtain ⟨params, rfl⟩ := hcall
      obtain ⟨⟨hnodup, -⟩, he⟩ := Option.ite_none_right_eq_some.mp he
      obtain rfl := Option.some.inj he
      split_ifs
      · exact h
      · have hpasses : Passes p.shared [] p.shared [.persisting []] :=
          ⟨rfl, rfl, fun id st hst => ⟨st, hst, rfl, fun hr => .inr ⟨hr, nofun⟩⟩, List.nodup_nil,
            nofun, List.forall_mem_singleton.mpr nofun, List.forall_mem_singleton.mpr nofun,
            List.forall_mem_singleton.mpr trivial⟩
        have hstart : Concluded p.shared ([.persisting []] ++ p.tasks) := h.of_passes_nil hpasses
        refine hstart.foldl_addTask hnodup fun c hc hmem => ?_
        obtain ⟨t, ht, hid⟩ := List.mem_flatMap.mp hmem
        exact hok c hc t ht hid
    · exact h.of_passes_nil
        (passes_event (fun params heq => hcall ⟨params, heq⟩) he)

theorem concluded_newManager (v : ℤ) {rows : List (Record K)}
    (hrows : (rows.map Record.taskID).Nodup) :
    Concluded (newManager v rows).shared (newManager v rows).tasks := by
  suffices hfold : ∀ (m : Manager K) (ts : List (Goroutine K)), Concluded m ts →
      (∀ row ∈ rows, row.taskID ∉ ts.flatMap Goroutine.ids) →
        Concluded (rows.foldl restoreTask m) (ts ++ (rows.filter fun row =>
          row.restored = .pending).map fun row => .starting row.taskID) by
    refine hfold _ [] ?_ (by simp)
    refine ⟨⟨fun _ => none, nofun, ?_⟩, nofun, ?_, nofun, List.nodup_nil, nofun, nofun, nofun,
      ?_, nofun⟩ <;> simp [refreshConcurrencyLimit]
  induction rows with
  | nil => exact fun m ts h _ => by simpa using h
  | cons row rows ih =>
    intro m ts h hids
    obtain ⟨hrow, hrows⟩ := List.nodup_cons.mp hrows
    obtain ⟨hid, hids⟩ := List.forall_mem_cons.mp hids
    have hnext := ih hrows _ _ (h.restoreTask hid) fun row' hrow' hmem => ?_
    · by_cases hp : row.restored = .pending <;> simpa [hp] using hnext
    · rw [List.flatMap_append] at hmem
      obtain hmem | hmem := List.mem_append.mp hmem
      · exact hids row' hrow' hmem
      · split_ifs at hmem
        · obtain heq := List.mem_singleton.mp hmem
          exact hrow (heq ▸ List.mem_map_of_mem hrow')
        · cases hmem

/-- In every run whose turns all conclude, from any rows with different ids, no task whose run has
ended is running. -/
theorem no_orphans (v : ℤ) (rows : List (Record K)) (hrows : (rows.map Record.taskID).Nodup)
    (actions : List (Action Outcome (Call K)))
    (hok : system.Along StepConcludes (newManager v rows) actions) :
    system.Throughout NoOrphans (newManager v rows) actions :=
  (System.throughout_of_along (I := fun p => Concluded p.shared p.tasks)
    (fun _ _ _ h hok hstep => concluded_step h hok hstep) (concluded_newManager v hrows) hok).mono
    fun _ h => h.noOrphans

/-- A download of a file from another drive is begun; `i` is the caller and `j` the run. -/
def downloadRun (taskID i j : ℕ) : List (Action Outcome (Call ℕ)) :=
  [.event (.createBatch [⟨taskID, some .crossTransfer, none, 0⟩]), .resume i .turn,
    .resume j .turn, .resume j .turn, .resume j .turn, .resume j .turn]

/-- A pause, after which the download stops. -/
def pausedRun : List (Action Outcome (Call ℕ)) :=
  downloadRun 0 0 1 ++ [.event (.pause 0), .resume 2 .turn, .resume 1 .progress,
    .resume 1 .failed, .resume 1 .turn, .resume 1 .turn, .resume 1 .turn, .resume 1 .turn,
    .resume 1 .turn]

theorem no_orphans_paused : system.Throughout NoOrphans (newManager 3 []) pausedRun :=
  no_orphans 3 [] List.nodup_nil pausedRun (by decide +kernel)

/-- A pause, after which the download reports progress and succeeds. -/
def orphanedRun : List (Action Outcome (Call ℕ)) :=
  downloadRun 0 0 1 ++ [.event (.pause 0), .resume 2 .turn, .resume 1 .progress,
    .resume 1 .downloaded, .resume 1 .turn, .resume 1 .turn, .resume 1 .turn, .resume 1 .turn,
    .resume 1 .turn]

/-- The run has ended, its channel is closed, and the task is running. -/
theorem task_orphaned : ∃ p, system.run (newManager 3 []) orphanedRun = some p ∧
    (∃ st, p.shared.tasks.lookup 0 = some st ∧ st.status = .running ∧
      st.runDone ∈ p.shared.closed) ∧ ¬NoOrphans p := by
  have horphan : ∀ p, system.run (newManager 3 []) orphanedRun = some p →
      ∃ st, p.shared.tasks.lookup 0 = some st ∧ st.status = .running ∧
        st.runDone ∈ p.shared.closed := by
    rintro p ⟨⟩
    exact ⟨_, rfl, rfl, List.mem_cons_self⟩
  refine ⟨_, rfl, horphan _ rfl, fun h => ?_⟩
  obtain ⟨st, hst, hrunning, hclosed⟩ := horphan _ rfl
  exact h 0 st hst hclosed hrunning

end AllInOneBackup.LitePan.Upload
