import AllInOneBackup.Cloud123.TaskQueue.Service

/-! No two unfinished tasks have the same kind and share code, and no task is started twice. The
second never fails. The first is kept by the search for duplicates where its window shows them;
what it does not guard is every other save of an unfinished task. -/

namespace AllInOneBackup.Cloud123.TaskQueue

open Concurrency Service

section

variable (lower : String → String)

/-- Unfinished tasks with the same key are one task. -/
def Unique (rows : Rows) : Prop :=
  ∀ a ∈ rows, ∀ b ∈ rows, ¬a.status.Final → ¬b.status.Final → SameKey lower a b → a.id = b.id

/-- The task that a coroutine runs. -/
def Coroutine.taskId : Coroutine → Option ℕ
  | .running task | .reporting task => some task.id
  | _ => none

/-- The stored unfinished tasks are unique, and no task is run by two coroutines. -/
structure TasksRight (p : ServicePool) : Prop where
  unique : Unique lower p.shared.rows
  started : (p.tasks.filterMap Coroutine.taskId).Nodup

/-- No other unfinished task has the key of an unfinished task that is to be saved. -/
def SaveOk (rows : Rows) (task : TransferTask) : Prop :=
  ¬task.status.Final →
    ∀ row ∈ rows, row.id ≠ task.id → ¬row.status.Final → ¬SameKey lower row task

/-- Where a new task has a duplicate, one is among the newest hundred tasks. -/
def WindowShows (s : Service) (d : Draft) : Prop :=
  (∃ row ∈ s.rows, SameKey lower row (d.task s.nextId) ∧ ¬row.status.Final) →
    ∃ row ∈ listTransferTasks s.rows 100, SameKey lower row (d.task s.nextId) ∧ ¬row.status.Final

/-- The same for each of the tasks of one call, after those before it. -/
def EnqueueShows (s : Service) : List Draft → Prop
  | [] => True
  | d :: ds => WindowShows lower s d ∧ EnqueueShows (s.enqueueOne lower d).1 ds

/-- The new tasks of a call. -/
def Call.drafts : Call → List Draft
  | .fromText links => links.map fun link => ⟨.pan115Share, link.1, link.2⟩
  | .localPath pathCode now => [⟨.pan115Share, "local:" ++ pathCode, now⟩]
  | .pan123to115 sourceDirId now => [⟨.pan123to115, "123dir:" ++ sourceDirId, now⟩]
  | .pan123ShareTo115 shareKey now => [⟨.pan123to115, shareKey, now⟩]
  | .pan123ShareCopy shareKey now => [⟨.pan123ShareCopy, shareKey, now⟩]
  | .requeue _ | .delete _ => []

/-- The copy of a task that a coroutine saves. -/
def Coroutine.copy : Coroutine → Outcome → Option TransferTask
  | .notifying tasks, .ref i => tasks[i]?
  | .running task, .saved => some task
  | .running task, .inspected shareCode => some { task with shareCode }
  | .running task, .ended status => some { task with status }
  | .running task, .raised => some { task with status := .failed }
  | .reporting task, .saved => some task
  | _, _ => none

/-- A call sees the duplicates of its new tasks, and a task is requeued only where no other
unfinished task has its key. -/
def Call.Sees (s : Service) : Call → Prop
  | .requeue id => ∀ task ∈ getTransferTask s.rows id,
      ¬(task.status = .running ∨ task.status = .success) →
        SaveOk lower s.rows { task with status := .queued }
  | c => EnqueueShows lower s c.drafts

/-- What keeps the tasks unique: calls see the rivals of their tasks, and a coroutine saves its own
copy of an unfinished task only where no other unfinished task has its key. -/
def Unchallenged (p : ServicePool) : Action Outcome Call → Prop
  | .resume i o => ∀ t, p.tasks[i]? = some t → ∀ task ∈ t.copy o,
      task.id ∉ p.shared.deletedTaskIds → SaveOk lower p.shared.rows task
  | .event c => c.Sees lower p.shared

end

/-! ### Saving and deleting -/

section Rows

variable {lower : String → String} {rows : Rows} {task row : TransferTask}

theorem mem_save (h : row ∈ save rows task) :
    row ∈ rows ∧ row.id ≠ task.id ∨ ∃ createdAt, row = { task with createdAt } := by
  unfold save at h
  split_ifs at h with hex
  · obtain ⟨old, hold, rfl⟩ := List.mem_map.mp h
    split_ifs with hid
    · exact .inr ⟨old.createdAt, rfl⟩
    · exact .inl ⟨hold, hid⟩
  · rcases List.mem_append.mp h with h | h
    · exact .inl ⟨h, fun hid => hex ⟨row, h, hid⟩⟩
    · exact .inr ⟨task.createdAt, List.mem_singleton.mp h⟩

theorem mem_save_of_ne (h : row ∈ rows) (hid : row.id ≠ task.id) : row ∈ save rows task := by
  unfold save
  split_ifs
  · exact List.mem_map.mpr ⟨row, h, if_neg hid⟩
  · exact List.mem_append_left _ h

theorem exists_mem_save (rows : Rows) (task : TransferTask) :
    ∃ createdAt, { task with createdAt } ∈ save rows task := by
  unfold save
  split_ifs with hex
  · obtain ⟨old, hold, hid⟩ := hex
    exact ⟨old.createdAt, List.mem_map.mpr ⟨old, hold, if_pos hid⟩⟩
  · exact ⟨task.createdAt, List.mem_append_right _ List.mem_cons_self⟩

/-- A save keeps the tasks unique exactly where its task has no rival. -/
theorem unique_save_iff (h : Unique lower rows) :
    Unique lower (save rows task) ↔ SaveOk lower rows task := by
  constructor
  · intro hu hopen row hrow hid hrow' hkey
    obtain ⟨createdAt, hsaved⟩ := exists_mem_save rows task
    exact hid (hu row (mem_save_of_ne hrow hid) { task with createdAt } hsaved hrow' hopen hkey)
  · intro hok a ha b hb haopen hbopen hkey
    rcases mem_save ha with ⟨ha, hida⟩ | ⟨ca, rfl⟩ <;> rcases mem_save hb with ⟨hb, hidb⟩ | ⟨cb, rfl⟩
    · exact h a ha b hb haopen hbopen hkey
    · exact absurd hkey (hok hbopen a ha hida haopen)
    · exact absurd ⟨hkey.1.symm, hkey.2.symm⟩ (hok haopen b hb hidb hbopen)
    · rfl

theorem Unique.subset {rows' : Rows} (h : Unique lower rows) (hsub : rows' ⊆ rows) :
    Unique lower rows' :=
  fun a ha b hb => h a (hsub ha) b (hsub hb)

/-- A row that is saved again with another unfinished status has no rival. -/
theorem saveOk_of_mem (h : Unique lower rows) (hrow : row ∈ rows) (hopen : ¬row.status.Final)
    (status : Status) : SaveOk lower rows { row with status } := by
  intro _ other hother hid hopen' hkey
  exact hid (h other hother row hrow hopen' hopen hkey)

end Rows

/-! ### A turn -/

/-- The ids of the tasks that a coroutine has copies of were given out. -/
def Coroutine.Below (n : ℕ) : Coroutine → Prop
  | .notifying tasks => ∀ task ∈ tasks, task.id < n
  | .running task | .reporting task => task.id < n
  | _ => True

theorem mem_mergeSort_of_find? {rows : Rows} {r : TransferTask → TransferTask → Bool}
    {P : TransferTask → Bool} {task : TransferTask}
    (h : (rows.mergeSort r).find? P = some task) : task ∈ rows ∧ P task = true :=
  ⟨List.mem_mergeSort.mp (List.mem_of_find?_eq_some h), List.find?_some h⟩

theorem nextQueued_spec {rows : Rows} {kinds : Kind → Bool} {task : TransferTask}
    (h : nextQueuedTransferTask rows kinds = some task) : task ∈ rows ∧ task.status = .queued := by
  obtain ⟨hmem, hfound⟩ := mem_mergeSort_of_find? h
  exact ⟨hmem, (of_decide_eq_true hfound).1⟩

theorem nextTask_spec {s : Service} {paused : Bool} {task : TransferTask}
    (h : s.nextTask paused = some task) : task ∈ s.rows ∧ task.status = .queued := by
  unfold Service.nextTask at h
  dsimp only at h
  split_ifs at h
  · rcases Option.or_eq_some_iff.mp h with h | ⟨-, h⟩
    · exact nextQueued_spec h
    · exact nextQueued_spec h
  · exact nextQueued_spec h

section Turns

variable {lower : String → String} {s : Service} {t : Coroutine} {o : Outcome}
  {task copy : TransferTask}

/-- What a turn of a coroutine does: its only writes that nothing guards are those of its own
copies, and it starts no task that is active. -/
structure Kept (lower : String → String) (s : Service) (t : Coroutine) (o : Outcome)
    (r : ServiceTurn) : Prop where
  nextId : r.shared.nextId = s.nextId
  rows : (∀ row ∈ s.rows, row.id < s.nextId) → t.Below s.nextId →
    ∀ row ∈ r.shared.rows, row.id < s.nextId
  below : (∀ row ∈ s.rows, row.id < s.nextId) → t.Below s.nextId →
    r.task.Below s.nextId ∧ ∀ c ∈ r.spawned, c.Below s.nextId
  unique : Unique lower s.rows → (Unique lower r.shared.rows ↔
    ∀ task ∈ t.copy o, task.id ∉ s.deletedTaskIds → SaveOk lower s.rows task)
  task : r.task.taskId = t.taskId ∨ r.task.taskId = none
  active : ∀ id ∈ s.activeTaskIds, id ∈ r.shared.activeTaskIds ∨
    t.taskId = some id ∧ r.task.taskId = none
  spawned : (∀ c ∈ r.spawned, c.taskId = none) ∨ t.taskId = none ∧ r.task.taskId = none ∧
    ∃ task : TransferTask, r.spawned = [.running task] ∧ task.id ∉ s.activeTaskIds ∧
      task.id ∈ r.shared.activeTaskIds

theorem nextId_saveTransferTask (s : Service) (task : TransferTask) :
    (s.saveTransferTask task).nextId = s.nextId := by
  unfold Service.saveTransferTask
  split_ifs
  · rfl
  · rfl

theorem activeTaskIds_saveTransferTask (s : Service) (task : TransferTask) :
    (s.saveTransferTask task).activeTaskIds = s.activeTaskIds := by
  unfold Service.saveTransferTask
  split_ifs
  · rfl
  · rfl

theorem rows_saveTransferTask_below (hrows : ∀ row ∈ s.rows, row.id < s.nextId)
    (htask : task.id < s.nextId) : ∀ row ∈ (s.saveTransferTask task).rows, row.id < s.nextId := by
  unfold Service.saveTransferTask
  split_ifs
  · exact hrows
  · intro row hrow
    rcases mem_save hrow with ⟨hrow, -⟩ | ⟨createdAt, rfl⟩
    · exact hrows row hrow
    · exact htask

/-- A guarded save keeps the tasks unique exactly where the task has no rival. -/
theorem unique_saveTransferTask_iff (h : Unique lower s.rows) :
    Unique lower (s.saveTransferTask task).rows ↔
      (task.id ∉ s.deletedTaskIds → SaveOk lower s.rows task) := by
  unfold Service.saveTransferTask
  split_ifs with hdeleted
  · exact iff_of_true h fun hnot => absurd hdeleted hnot
  · rw [unique_save_iff h]
    exact ⟨fun hok _ => hok, fun hok => hok hdeleted⟩

theorem kick_cases (s : Service) :
    s.kick = { shared := s } ∨
      s.kick = { shared := { s with running := true }, spawned := [.processLoop] } := by
  unfold Service.kick
  split_ifs
  · exact .inl rfl
  · exact .inr rfl

/-- The end of a run, where its last copy is not written. -/
theorem kept_finishRun {id : ℕ} {s' : Service} (hid : t.taskId = some id)
    (hrows : s'.rows ⊆ s.rows) (hnext : s'.nextId = s.nextId)
    (hactive : s'.activeTaskIds = s.activeTaskIds)
    (hcopy : ∀ task ∈ t.copy o, task.id ∈ s.deletedTaskIds) : Kept lower s t o (s'.finishRun id) := by
  have hkick : (s'.discard id).kick.shared.rows = s'.rows ∧
      (s'.discard id).kick.shared.nextId = s'.nextId ∧
      (s'.discard id).kick.shared.activeTaskIds = s'.activeTaskIds.filter (· ≠ id) ∧
      ∀ c ∈ (s'.discard id).kick.spawned, c = .processLoop := by
    rcases kick_cases (s'.discard id) with h | h <;> rw [h] <;> simp [Service.discard]
  obtain ⟨hkrows, hknext, hkactive, hkspawned⟩ := hkick
  refine
    { nextId := hknext.trans hnext
      rows := fun h _ row hrow => h row (hrows (hkrows ▸ hrow))
      below := fun _ _ => ⟨trivial, fun c hc => ?_⟩
      unique := fun h => iff_of_true ?_ fun task htask hnot => absurd (hcopy task htask) hnot
      task := .inr rfl
      active := fun id' hid' => ?_
      spawned := .inl fun c hc => ?_ }
  · rw [hkspawned c hc]
    trivial
  · change Unique lower (s'.discard id).kick.shared.rows
    rw [hkrows]
    exact h.subset hrows
  · by_cases heq : id' = id
    · subst heq
      exact .inr ⟨hid, rfl⟩
    · left
      change id' ∈ (s'.discard id).kick.shared.activeTaskIds
      rw [hkactive, hactive]
      exact List.mem_filter.mpr ⟨hid', by simpa using heq⟩
  · rw [hkspawned c hc]
    rfl

/-- A turn that saves a copy. -/
theorem kept_save {next : Coroutine} (hcopy : t.copy o = some task)
    (hid : next.taskId = t.taskId)
    (hbelow : t.Below s.nextId → task.id < s.nextId ∧ next.Below s.nextId) :
    Kept lower s t o { shared := s.saveTransferTask task, task := next } where
  nextId := nextId_saveTransferTask s task
  rows hrows ht := rows_saveTransferTask_below hrows (hbelow ht).1
  below _ ht := ⟨(hbelow ht).2, List.forall_mem_nil _⟩
  unique h := by
    rw [unique_saveTransferTask_iff h, hcopy]
    simp
  task := .inl hid
  active id h := .inl ((activeTaskIds_saveTransferTask s task).symm ▸ h)
  spawned := .inl (List.forall_mem_nil _)

/-- A run that saves its copy, or ends as the task is deleted. -/
theorem kept_saveOrFinish {next : Coroutine} (hcopy : t.copy o = some task)
    (hid : t.taskId = some task.id) (hnext : next = .running task ∨ next = .reporting task)
    (hbelow : t.Below s.nextId → task.id < s.nextId) :
    Kept lower s t o (s.saveOrFinish task next) := by
  unfold Service.saveOrFinish
  split_ifs with hdeleted
  · apply kept_finishRun hid (List.Subset.refl _) rfl rfl
    intro copy h
    obtain rfl := Option.some.inj (hcopy.symm.trans h)
    exact hdeleted
  · apply kept_save hcopy
    · rcases hnext with rfl | rfl
      all_goals exact hid.symm
    · intro ht
      rcases hnext with rfl | rfl
      all_goals exact ⟨hbelow ht, hbelow ht⟩

/-- A turn that writes no row and changes no run. -/
theorem kept_still {s' : Service} {t' : Coroutine} {spawned : List Coroutine}
    (hrows : s'.rows ⊆ s.rows) (hnext : s'.nextId = s.nextId)
    (hactive : s'.activeTaskIds = s.activeTaskIds) (htask : t'.taskId = t.taskId)
    (hcopy : t.copy o = none) (hbelow : t.Below s.nextId → t'.Below s.nextId)
    (hspawned : spawned = [] ∨ spawned = [.processLoop]) :
    Kept lower s t o { shared := s', task := t', spawned } where
  nextId := hnext
  rows h _ row hrow := h row (hrows hrow)
  below _ ht := by
    refine ⟨hbelow ht, fun c hc => ?_⟩
    rcases hspawned with rfl | rfl
    · exact absurd hc List.not_mem_nil
    · rw [List.mem_singleton.mp hc]
      trivial
  unique h := iff_of_true (h.subset hrows) (by simp [hcopy])
  task := .inl htask
  active id h := .inl (hactive ▸ h)
  spawned := by
    left
    intro c hc
    rcases hspawned with rfl | rfl
    · exact absurd hc List.not_mem_nil
    · rw [List.mem_singleton.mp hc]
      rfl

/-- The loop takes a task that is being deleted, and leaves it. -/
theorem kept_discarded {n : ℕ} {paused : Bool} {id : ℕ} (busy : Option ℕ)
    (hactive : id ∉ s.activeTaskIds) :
    Kept lower s (.rounds n) (.round paused)
      { shared := ({ s with
            activeTaskIds := id :: s.activeTaskIds
            activePan123ShareCopyTaskId := busy } : Service).discard id
        task := .rounds n } := by
  have hsame : (id :: s.activeTaskIds).filter (· ≠ id) = s.activeTaskIds := by
    rw [List.filter_cons_of_neg (by simp), List.filter_eq_self]
    intro other hother
    have hne : other ≠ id := fun h => hactive (h ▸ hother)
    simpa using hne
  exact kept_still (List.Subset.refl _) rfl hsame rfl rfl (fun _ => trivial) (.inl rfl)

/-- The loop takes a queued task that is not active, and starts its run. -/
theorem kept_started {n : ℕ} {paused : Bool} (busy : Option ℕ) (hmem : task ∈ s.rows)
    (hqueued : task.status = .queued) (hactive : task.id ∉ s.activeTaskIds) :
    Kept lower s (.rounds n) (.round paused)
      { shared := ({ s with
            activeTaskIds := task.id :: s.activeTaskIds
            activePan123ShareCopyTaskId := busy } : Service).saveTransferTask
          { task with status := .running }
        task := .rounds n
        spawned := [.running { task with status := .running }] } := by
  have hopen : ¬task.status.Final := by
    rw [hqueued]
    decide
  refine
    { nextId := nextId_saveTransferTask _ _
      rows := fun hrows _ => rows_saveTransferTask_below hrows (hrows task hmem)
      below := fun hrows _ => ⟨trivial, ?_⟩
      unique := fun h => ?_
      task := .inl rfl
      active := fun id hid => .inl ?_
      spawned := .inr ⟨rfl, rfl, _, rfl, hactive, ?_⟩ }
  · intro c hc
    rw [List.mem_singleton.mp hc]
    exact hrows task hmem
  · apply iff_of_true
    · apply (unique_saveTransferTask_iff _).mpr
      · exact fun _ => saveOk_of_mem h hmem hopen .running
      · exact h
    · simp [Coroutine.copy]
  · rw [activeTaskIds_saveTransferTask]
    exact List.mem_cons_of_mem _ hid
  · rw [activeTaskIds_saveTransferTask]
    exact List.mem_cons_self

theorem kept_round (n : ℕ) (paused : Bool) :
    Kept lower s (.rounds n) (.round paused) (s.round n paused) := by
  have hend : Kept lower s (.rounds n) (.round paused) s.endLoop :=
    kept_still (List.Subset.refl _) rfl rfl rfl rfl (fun _ => trivial) (.inl rfl)
  unfold Service.round
  split_ifs with hroom
  · split
    case h_1 => exact hend
    case h_2 task htask =>
      obtain ⟨hmem, hqueued⟩ := nextTask_spec htask
      by_cases hactive : task.id ∈ s.activeTaskIds
      · rw [if_pos hactive]
        exact hend
      · rw [if_neg hactive]
        dsimp only
        generalize (if task.kind = Kind.pan123ShareCopy then some task.id
          else s.activePan123ShareCopyTaskId) = busy
        split_ifs with hdeleted
        · exact kept_discarded busy hactive
        · exact kept_started busy hmem hqueued hactive
  · exact hend

theorem kept_kick (hcopy : t.copy o = none) (hid : t.taskId = none) :
    Kept lower s t o { s.kick with task := .finished } := by
  rcases kick_cases s with h | h
  · rw [h]
    exact kept_still (List.Subset.refl _) rfl rfl hid.symm hcopy (fun _ => trivial) (.inl rfl)
  · rw [h]
    exact kept_still (List.Subset.refl _) rfl rfl hid.symm hcopy (fun _ => trivial) (.inr rfl)

/-- The end of a run after its report; what it deletes is finished. -/
theorem kept_reported :
    Kept lower s (.reporting task) .returned
      ((s.discardFinishedTaskRecord task).finishRun task.id) := by
  have hdiscard : (s.discardFinishedTaskRecord task).rows ⊆ s.rows ∧
      (s.discardFinishedTaskRecord task).nextId = s.nextId ∧
      (s.discardFinishedTaskRecord task).activeTaskIds = s.activeTaskIds := by
    unfold Service.discardFinishedTaskRecord
    split_ifs
    · exact ⟨List.filter_sublist.subset, rfl, rfl⟩
    · exact ⟨List.Subset.refl _, rfl, rfl⟩
  obtain ⟨hrows, hnext, hactive⟩ := hdiscard
  exact kept_finishRun rfl hrows hnext hactive (by simp [Coroutine.copy])

/-- Every turn of every coroutine. -/
theorem resume_kept {r : ServiceTurn} (h : resume s t o = some r) : Kept lower s t o r := by
  unfold resume at h
  split at h
  case h_1 tasks i =>
    obtain ⟨task, htask, rfl⟩ := Option.map_eq_some_iff.mp h
    exact kept_save htask rfl fun ht => ⟨ht task (List.mem_of_getElem? htask), ht⟩
  case h_2 =>
    obtain rfl := Option.some.inj h
    exact kept_kick rfl rfl
  case h_3 =>
    obtain rfl := Option.some.inj h
    exact kept_still List.filter_sublist.subset rfl rfl rfl rfl (fun _ => trivial) (.inl rfl)
  case h_4 =>
    obtain rfl := Option.some.inj h
    exact kept_still (List.Subset.refl _) rfl rfl rfl rfl (fun _ => trivial) (.inl rfl)
  case h_5 n paused =>
    obtain rfl := Option.some.inj h
    exact kept_round n paused
  case h_6 =>
    obtain rfl := Option.some.inj h
    exact kept_saveOrFinish rfl rfl (.inl rfl) id
  case h_7 =>
    split_ifs at h
    obtain rfl := Option.some.inj h
    exact kept_saveOrFinish rfl rfl (.inl rfl) id
  case h_8 =>
    split_ifs at h
    obtain rfl := Option.some.inj h
    exact kept_saveOrFinish rfl rfl (.inr rfl) id
  case h_9 =>
    obtain rfl := Option.some.inj h
    exact kept_saveOrFinish rfl rfl (.inr rfl) id
  case h_10 =>
    obtain rfl := Option.some.inj h
    exact kept_finishRun rfl (List.Subset.refl _) rfl rfl (by simp [Coroutine.copy])
  case h_11 =>
    obtain rfl := Option.some.inj h
    exact kept_save rfl rfl fun ht => ⟨ht, ht⟩
  case h_12 =>
    obtain rfl := Option.some.inj h
    exact kept_reported
  case h_13 =>
    obtain rfl := Option.some.inj h
    exact kept_finishRun rfl (List.Subset.refl _) rfl rfl (by simp [Coroutine.copy])
  case h_14 =>
    obtain rfl := Option.some.inj h
    exact kept_finishRun rfl (List.Subset.refl _) rfl rfl (by simp [Coroutine.copy])
  case h_15 => exact absurd h (by simp)

end Turns

/-! ### A call -/

section Calls

variable {lower : String → String} {s : Service} {d : Draft} {ds : List Draft}

/-- The ids of the rows were given out. -/
def Service.Fresh (s : Service) : Prop := ∀ row ∈ s.rows, row.id < s.nextId

/-- What a search for duplicates and a save can do. -/
theorem enqueueOne_cases (s : Service) (d : Draft) :
    (∃ row, s.findActiveDuplicate lower (d.task s.nextId) = some row ∧
      s.enqueueOne lower d = ({ s with nextId := s.nextId + 1 }, [])) ∨
    (s.findActiveDuplicate lower (d.task s.nextId) = none ∧
      s.enqueueOne lower d =
        ({ s with nextId := s.nextId + 1, rows := save s.rows (d.task s.nextId) },
          [d.task s.nextId])) := by
  unfold Service.enqueueOne
  dsimp only
  cases h : s.findActiveDuplicate lower (d.task s.nextId) with
  | some row => exact .inl ⟨row, rfl, rfl⟩
  | none => exact .inr ⟨rfl, rfl⟩

/-- The search finds a duplicate exactly where the newest hundred tasks have one. -/
theorem findActiveDuplicate_isSome (task : TransferTask) :
    (s.findActiveDuplicate lower task).isSome = true ↔
      ∃ row ∈ listTransferTasks s.rows 100, SameKey lower row task ∧ ¬row.status.Final := by
  unfold Service.findActiveDuplicate
  rw [List.find?_isSome]
  simp only [decide_eq_true_eq]

theorem enqueueOne_unique (hfresh : s.Fresh) (h : Unique lower s.rows) :
    Unique lower (s.enqueueOne lower d).1.rows ↔ WindowShows lower s d := by
  rcases @enqueueOne_cases lower s d with ⟨row, hfound, heq⟩ | ⟨hnone, heq⟩
  · have hshown := (findActiveDuplicate_isSome _).mp (Option.isSome_iff_exists.mpr ⟨row, hfound⟩)
    rw [heq]
    exact iff_of_true h fun _ => hshown
  · have hhidden := mt (@findActiveDuplicate_isSome lower s _).mpr (by rw [hnone]; simp)
    rw [heq]
    change Unique lower (save s.rows (d.task s.nextId)) ↔ _
    rw [unique_save_iff h]
    constructor
    · rintro hok ⟨row, hrow, hkey, hopen⟩
      have hopenNew : ¬(d.task s.nextId).status.Final := by
        change ¬Status.Final .queued
        decide
      exact absurd hkey (hok hopenNew row hrow (hfresh row hrow).ne hopen)
    · intro hshows _ row hrow _ hopen hkey
      exact hhidden (hshows ⟨row, hrow, hkey, hopen⟩)

/-- What a new task changes besides the rows' uniqueness. -/
structure Grown (s : Service) (r : Service × List TransferTask) : Prop where
  rows : s.Fresh → s.rows ⊆ r.1.rows
  nextId : s.nextId ≤ r.1.nextId
  fresh : s.Fresh → r.1.Fresh
  tasks : ∀ task ∈ r.2, task.id < r.1.nextId
  active : r.1.activeTaskIds = s.activeTaskIds

theorem grown_enqueueOne (s : Service) (d : Draft) : Grown s (s.enqueueOne lower d) := by
  rcases @enqueueOne_cases lower s d with ⟨row, -, heq⟩ | ⟨-, heq⟩
  · rw [heq]
    exact
      { rows := fun _ => List.Subset.refl _
        nextId := Nat.le_succ _
        fresh := fun h row hrow => (h row hrow).trans (Nat.lt_succ_self _)
        tasks := List.forall_mem_nil _
        active := rfl }
  · rw [heq]
    refine
      { rows := fun h row hrow => mem_save_of_ne hrow (h row hrow).ne
        nextId := Nat.le_succ _
        fresh := fun h row hrow => ?_
        tasks := fun task htask => ?_
        active := rfl }
    · rcases mem_save hrow with ⟨hrow, -⟩ | ⟨createdAt, rfl⟩
      · exact (h row hrow).trans (Nat.lt_succ_self _)
      · exact Nat.lt_succ_self _
    · rw [List.mem_singleton.mp htask]
      exact Nat.lt_succ_self _

theorem grown_enqueueAll (s : Service) (ds : List Draft) : Grown s (s.enqueueAll lower ds) := by
  induction ds generalizing s with
  | nil =>
    exact
      { rows := fun _ => List.Subset.refl _
        nextId := le_rfl
        fresh := id
        tasks := List.forall_mem_nil _
        active := rfl }
  | cons d ds ih =>
    have hfirst := @grown_enqueueOne lower s d
    have hrest := ih (s.enqueueOne lower d).1
    exact
      { rows := fun h => List.Subset.trans (hfirst.rows h) (hrest.rows (hfirst.fresh h))
        nextId := hfirst.nextId.trans hrest.nextId
        fresh := fun h => hrest.fresh (hfirst.fresh h)
        tasks := by
          intro task htask
          rcases List.mem_append.mp htask with htask | htask
          · exact (hfirst.tasks task htask).trans_le hrest.nextId
          · exact hrest.tasks task htask
        active := hrest.active.trans hfirst.active }

/-- A call keeps the tasks unique exactly where it sees the duplicates of each of its tasks: rows
that follow do not undo a duplicate. -/
theorem enqueueAll_unique (hfresh : s.Fresh) (h : Unique lower s.rows) :
    Unique lower (s.enqueueAll lower ds).1.rows ↔ EnqueueShows lower s ds := by
  induction ds generalizing s with
  | nil => exact iff_of_true h trivial
  | cons d ds ih =>
    have hfirst := @grown_enqueueOne lower s d
    have hrest := @grown_enqueueAll lower (s.enqueueOne lower d).1 ds
    constructor
    · intro hall
      have hone : Unique lower (s.enqueueOne lower d).1.rows :=
        hall.subset (hrest.rows (hfirst.fresh hfresh))
      exact ⟨(enqueueOne_unique hfresh h).mp hone, (ih (hfirst.fresh hfresh) hone).mp hall⟩
    · rintro ⟨hshows, hshow⟩
      have hone := (enqueueOne_unique hfresh h).mpr hshows
      exact (ih (hfirst.fresh hfresh) hone).mpr hshow

/-- What a call does: it starts no run, and its new tasks have new ids. -/
structure Called (lower : String → String) (s : Service) (c : Call)
    (r : Effect Service Coroutine Empty) : Prop where
  nextId : s.nextId ≤ r.shared.nextId
  fresh : s.Fresh → r.shared.Fresh
  below : ∀ t ∈ r.spawned, t.Below r.shared.nextId ∧ t.taskId = none
  active : r.shared.activeTaskIds = s.activeTaskIds
  unique : s.Fresh → Unique lower s.rows → (Unique lower r.shared.rows ↔ c.Sees lower s)

theorem called_enqueue {c : Call} (hsees : c.Sees lower s ↔ EnqueueShows lower s ds) :
    Called lower s c (s.enqueue lower ds) := by
  have hgrown := @grown_enqueueAll lower s ds
  refine
    { nextId := hgrown.nextId
      fresh := hgrown.fresh
      below := fun t ht => ?_
      active := hgrown.active
      unique := fun hfresh h => (enqueueAll_unique hfresh h).trans hsees.symm }
  unfold Service.enqueue at ht
  dsimp only at ht
  split_ifs at ht
  · exact absurd ht List.not_mem_nil
  · rw [List.mem_singleton.mp ht]
    exact ⟨hgrown.tasks, rfl⟩

theorem called_requeue {id : ℕ} {r : Effect Service Coroutine Empty}
    (h : s.requeueTask id = some r) : Called lower s (.requeue id) r := by
  obtain ⟨task, hfound, h⟩ := Option.bind_eq_some_iff.mp h
  split_ifs at h with hstatus
  have hmem : task ∈ s.rows := List.mem_of_find?_eq_some hfound
  set s' : Service := { s with rows := save s.rows { task with status := .queued } } with hs'
  have hshared : r.shared.rows = s'.rows ∧ r.shared.nextId = s.nextId ∧
      r.shared.activeTaskIds = s.activeTaskIds ∧ ∀ t ∈ r.spawned, t = .processLoop := by
    obtain rfl := Option.some.inj h
    rcases kick_cases s' with hk | hk
    · rw [hk]
      exact ⟨rfl, rfl, rfl, List.forall_mem_nil _⟩
    · rw [hk]
      exact ⟨rfl, rfl, rfl, fun t ht => List.mem_singleton.mp ht⟩
  obtain ⟨hrows, hnext, hactive, hspawned⟩ := hshared
  refine
    { nextId := hnext.ge
      fresh := fun hfresh row hrow => ?_
      below := fun t ht => ?_
      active := hactive
      unique := fun _ hu => ?_ }
  · rw [hrows] at hrow
    rw [hnext]
    rcases mem_save hrow with ⟨hrow, -⟩ | ⟨createdAt, rfl⟩
    · exact hfresh row hrow
    · exact hfresh task hmem
  · rw [hspawned t ht]
    exact ⟨trivial, rfl⟩
  · rw [hrows]
    change Unique lower (save s.rows _) ↔ _
    rw [unique_save_iff hu]
    constructor
    · intro hok task' htask' _
      obtain rfl := Option.some.inj (hfound.symm.trans htask')
      exact hok
    · exact fun hsees => hsees task hfound hstatus

/-- Every call. -/
theorem call_called {c : Call} {r : Effect Service Coroutine Empty}
    (h : call lower s c = some r) : Called lower s c r := by
  cases c with
  | requeue id => exact called_requeue h
  | delete id =>
    obtain ⟨task, -, rfl⟩ := Option.map_eq_some_iff.mp h
    exact
      { nextId := le_rfl
        fresh := fun hfresh => hfresh
        below := fun t ht => by
          rw [List.mem_singleton.mp ht]
          exact ⟨trivial, rfl⟩
        active := rfl
        unique := fun _ hu => iff_of_true hu trivial }
  | fromText | localPath | pan123to115 | pan123ShareTo115 | pan123ShareCopy =>
    obtain rfl := Option.some.inj h
    exact called_enqueue Iff.rfl

end Calls

/-! ### Runs -/

/-- The ids of rows and copies were given out, and the tasks that are run are active, each in one
coroutine. -/
structure Sound (p : ServicePool) : Prop where
  fresh : p.shared.Fresh
  below : ∀ t ∈ p.tasks, t.Below p.shared.nextId
  nodup : (p.tasks.filterMap Coroutine.taskId).Nodup
  active : ∀ id ∈ p.tasks.filterMap Coroutine.taskId, id ∈ p.shared.activeTaskIds

theorem Coroutine.Below.mono {m n : ℕ} {t : Coroutine} (h : t.Below m) (hmn : m ≤ n) :
    t.Below n := by
  cases t with
  | notifying tasks => exact fun task htask => (h task htask).trans_le hmn
  | running task => exact Nat.lt_of_lt_of_le h hmn
  | reporting task => exact Nat.lt_of_lt_of_le h hmn
  | deleting | processLoop | rounds | finished => trivial

section Runs

variable {lower : String → String} {p q : ServicePool} {a : Action Outcome Call}

theorem filterMap_eq_nil {ts : List Coroutine} (h : ∀ t ∈ ts, t.taskId = none) :
    ts.filterMap Coroutine.taskId = [] :=
  List.filterMap_eq_nil_iff.mpr h

/-- The tasks that are run after a turn, where the resumed coroutine stands first. -/
theorem Kept.started {s : Service} {t : Coroutine} {o : Outcome} {r : ServiceTurn}
    {others : List Coroutine} (h : Kept lower s t o r)
    (hnodup : ((t :: others).filterMap Coroutine.taskId).Nodup)
    (hactive : ∀ id ∈ (t :: others).filterMap Coroutine.taskId, id ∈ s.activeTaskIds) :
    ((r.task :: r.spawned ++ others).filterMap Coroutine.taskId).Nodup ∧
      ∀ id ∈ (r.task :: r.spawned ++ others).filterMap Coroutine.taskId,
        id ∈ r.shared.activeTaskIds := by
  -- a run of another coroutine stays active, as its task is not that of the resumed one
  have hothers : ∀ id ∈ others.filterMap Coroutine.taskId, id ∈ r.shared.activeTaskIds := by
    intro id hid
    have hmem : id ∈ (t :: others).filterMap Coroutine.taskId := by
      rw [← List.singleton_append, List.filterMap_append]
      exact List.mem_append_right _ hid
    rcases h.active id (hactive id hmem) with hstill | ⟨hown, -⟩
    · exact hstill
    · rw [List.filterMap_cons_some hown] at hnodup
      exact absurd hid (List.nodup_cons.mp hnodup).1
  rcases h.spawned with hnone | ⟨ht, hr, task, hspawned, hfree, hnow⟩
  · have hids : (r.task :: r.spawned ++ others).filterMap Coroutine.taskId =
        (r.task :: others).filterMap Coroutine.taskId := by
      simp only [List.cons_append, List.filterMap_cons, List.filterMap_append,
        filterMap_eq_nil hnone, List.nil_append]
    rw [hids]
    rcases h.task with hsame | hnot
    · have heq : (r.task :: others).filterMap Coroutine.taskId =
          (t :: others).filterMap Coroutine.taskId := by
        simp only [List.filterMap_cons, hsame]
      rw [heq]
      refine ⟨hnodup, fun id hid => ?_⟩
      rcases h.active id (hactive id hid) with hstill | ⟨hown, hgone⟩
      · exact hstill
      · exact absurd (hsame.symm.trans hgone) (by rw [hown]; simp)
    · rw [List.filterMap_cons_none hnot]
      refine ⟨hnodup.sublist ?_, hothers⟩
      exact (List.sublist_cons_self t others).filterMap _
  · rw [List.filterMap_cons_none ht] at hnodup hactive
    have hids : (r.task :: r.spawned ++ others).filterMap Coroutine.taskId =
        task.id :: others.filterMap Coroutine.taskId := by
      rw [hspawned, List.cons_append, List.filterMap_cons_none hr]
      rfl
    rw [hids]
    constructor
    · exact List.nodup_cons.mpr ⟨fun hmem => hfree (hactive task.id hmem), hnodup⟩
    · intro id hid
      rcases List.mem_cons.mp hid with rfl | hid
      · exact hnow
      · exact hothers id hid

theorem sound_step (hp : Sound p) (h : (system lower).step p a = some q) : Sound q := by
  obtain ⟨i, o, t, r, others, rfl, ht, hr, hshared, -, hperm, hperm'⟩ |
    ⟨c, r, rfl, hr, hshared, -, hperm⟩ := System.step_perm h
  · have hkept := @resume_kept lower _ _ _ _ hr
    have hbelow : t.Below p.shared.nextId := hp.below t (List.mem_of_getElem? ht)
    have hids := hperm.filterMap Coroutine.taskId
    obtain ⟨hnodup, hactive⟩ := hkept.started (hids.nodup_iff.mp hp.nodup)
      fun id hid => hp.active id (hids.mem_iff.mpr hid)
    have hids' := hperm'.filterMap Coroutine.taskId
    refine
      { fresh := fun row hrow => ?_
        below := fun c hc => ?_
        nodup := hids'.nodup_iff.mpr hnodup
        active := fun id hid => ?_ }
    · rw [hshared] at hrow ⊢
      rw [hkept.nextId]
      exact hkept.rows hp.fresh hbelow row hrow
    · rw [hshared, hkept.nextId]
      obtain ⟨htask, hspawned⟩ := hkept.below hp.fresh hbelow
      rcases List.mem_append.mp (hperm'.mem_iff.mp hc) with hc | hc
      · rcases List.mem_cons.mp hc with rfl | hc
        · exact htask
        · exact hspawned c hc
      · exact hp.below c (hperm.mem_iff.mpr (List.mem_cons_of_mem t hc))
    · rw [hshared]
      exact hactive id (hids'.mem_iff.mp hid)
  · have hcalled := call_called hr
    have hnone : r.spawned.filterMap Coroutine.taskId = [] :=
      filterMap_eq_nil fun t ht => (hcalled.below t ht).2
    have hids := hperm.filterMap Coroutine.taskId
    rw [List.filterMap_append, hnone, List.nil_append] at hids
    refine
      { fresh := ?_
        below := fun c hc => ?_
        nodup := hids.nodup_iff.mpr hp.nodup
        active := fun id hid => ?_ }
    · rw [hshared]
      exact hcalled.fresh hp.fresh
    · rw [hshared]
      rcases List.mem_append.mp (hperm.mem_iff.mp hc) with hc | hc
      · exact (hcalled.below c hc).1
      · exact (hp.below c hc).mono hcalled.nextId
    · rw [hshared, hcalled.active]
      exact hp.active id (hids.mem_iff.mp hid)

/-- What a step does to the uniqueness of the rows. -/
theorem unique_step (hp : Sound p) (hu : Unique lower p.shared.rows)
    (h : (system lower).step p a = some q) :
    Unchallenged lower p a ↔ Unique lower q.shared.rows := by
  obtain ⟨i, o, t, r, rfl, ht, hr, rfl⟩ | ⟨c, r, rfl, hr, rfl⟩ := System.step_cases h
  · rw [(resume_kept hr).unique hu]
    constructor
    · exact fun hok => hok t ht
    · intro hok t' ht'
      obtain rfl := Option.some.inj (ht.symm.trans ht')
      exact hok
  · exact ((call_called hr).unique hp.fresh hu).symm

theorem unique_start {rows : Rows} (h : Unique lower rows) :
    Unique lower (start rows).shared.rows := by
  have hopen : ∀ row ∈ (start rows).shared.rows, ¬row.status.Final →
      ∃ old ∈ rows, ¬old.status.Final ∧ row.id = old.id ∧ row.kind = old.kind ∧
        row.shareCode = old.shareCode := by
    intro row hrow hopen
    obtain ⟨old, hold, rfl⟩ := List.mem_map.mp hrow
    refine ⟨old, hold, ?_⟩
    split_ifs at hopen ⊢ with hrunning
    · rw [hrunning]
      exact ⟨by decide, rfl, rfl, rfl⟩
    · exact ⟨hopen, rfl, rfl, rfl⟩
  intro a ha b hb haopen hbopen hkey
  obtain ⟨oldA, hoa, hopenA, hidA, hkindA, hcodeA⟩ := hopen a ha haopen
  obtain ⟨oldB, hob, hopenB, hidB, hkindB, hcodeB⟩ := hopen b hb hbopen
  rw [hidA, hidB]
  apply h oldA hoa oldB hob hopenA hopenB
  rw [SameKey, ← hkindA, ← hkindB, ← hcodeA, ← hcodeB]
  exact hkey

theorem sound_start (rows : Rows) : Sound (start rows) where
  fresh := by
    have hbound : ∀ row ∈ rows, row.id < rows.foldr (fun row n => max (row.id + 1) n) 0 := by
      induction rows with
      | nil => exact List.forall_mem_nil _
      | cons first rows ih =>
        intro row hrow
        rcases List.mem_cons.mp hrow with rfl | hrow
        · exact Nat.lt_of_succ_le (Nat.le_max_left _ _)
        · exact (ih row hrow).trans_le (Nat.le_max_right _ _)
    intro row hrow
    obtain ⟨old, hold, rfl⟩ := List.mem_map.mp hrow
    split_ifs
    · exact hbound old hold
    · exact hbound old hold
  below t ht := by
    rw [List.mem_singleton.mp ht]
    trivial
  nodup := List.nodup_nil
  active := List.forall_mem_nil _

/-- The tasks are right in every state of a run exactly where each step of it is unchallenged: no
task is ever started twice, but what revives or rewrites an unfinished task does not look for
another one with its key, and the search for duplicates sees no more than a hundred tasks. -/
theorem tasksRight_iff_unchallenged (lower : String → String) (rows : Rows)
    (h : Unique lower rows) (as : List (Action Outcome Call)) :
    (system lower).Throughout (TasksRight lower) (start rows) as ↔
      (system lower).Along (Unchallenged lower) (start rows) as := by
  apply System.throughout_iff_along (I := Sound)
  · exact fun p a q hp => sound_step hp
  · intro p a q hp hright hstep
    rw [unique_step hp hright.unique hstep]
    exact ⟨fun hu => ⟨hu, (sound_step hp hstep).nodup⟩, fun hright' => hright'.unique⟩
  · exact sound_start rows
  · exact ⟨unique_start h, (sound_start rows).nodup⟩

end Runs

/-- A share is copied, which fails; it is enqueued again, and then the failed task is requeued. -/
def copiedTwice : List (Action Outcome Call) :=
  [.event (.pan123ShareCopy "k1" 0), .resume 0 (.config 1), .resume 0 (.round false),
    .resume 2 (.ended .failed), .resume 2 .returned, .event (.pan123ShareCopy "k1" 1),
    .event (.requeue 0)]

theorem tasksRight_iff_unchallenged_copiedTwice :
    (system String.toLower).Throughout (TasksRight String.toLower) (start []) copiedTwice ↔
      (system String.toLower).Along (Unchallenged String.toLower) (start []) copiedTwice :=
  tasksRight_iff_unchallenged String.toLower [] (fun _ ha => absurd ha List.not_mem_nil) _

theorem requeued_beside_duplicate : ∃ p : ServicePool,
    (system String.toLower).run (start []) copiedTwice = some p ∧ ¬TasksRight String.toLower p := by
  have hrun : ((system String.toLower).run (start []) copiedTwice).map (·.shared.rows) = some
      [⟨0, .pan123ShareCopy, "k1", .queued, 0⟩, ⟨1, .pan123ShareCopy, "k1", .queued, 1⟩] := by
    decide +kernel
  obtain ⟨p, hp, hrows⟩ := Option.map_eq_some_iff.mp hrun
  refine ⟨p, hp, fun h => ?_⟩
  have hunique := h.unique
  rw [hrows] at hunique
  have hid := hunique _ List.mem_cons_self _ (List.mem_cons_of_mem _ List.mem_cons_self)
    (by decide) (by decide) ⟨rfl, rfl⟩
  exact absurd hid (by decide)

end AllInOneBackup.Cloud123.TaskQueue
