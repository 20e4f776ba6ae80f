import AllInOneBackup.LitePan.Upload.Queue

/-! How upload tasks are saved. `persistTask` takes a record of the task in one section under `mu`
and writes it after the section; `popTask` takes the task out in a section and deletes the row after
it. Whoever has got hold of a task before that may still save it. The runs of the tasks are there by
what they do to them: `patch`, progress, and sections that save nothing. -/

namespace AllInOneBackup.LitePan.Upload.Persist

open Concurrency

/-! ### Tasks and records -/

/-- A value of a JSON object, as far as it is read. -/
inductive Value
  | int (n : ℤ)
  | other (text : String)
  deriving DecidableEq

/-- `map[string]any`. -/
abbrev Object := List (String × Value)

/-- `mapInt64` and `mapInt`. -/
def mapInt (object : Object) (key : String) : Option ℤ :=
  match object.lookup key with
  | some (.int n) => some n
  | _ => none

variable {K I : Type} [DecidableEq K]

/-- A row of the repository; `info` has the names, accounts and paths. -/
structure UploadTaskRecord (I : Type) where
  info : I
  sourceType : SourceType
  status : Status
  phase : Phase
  progress : ℤ := 0
  downloadedBytes : ℤ := 0
  uploadedBytes : ℤ := 0
  speedBytesPerSecond : ℚ := 0
  totalBytes : ℤ := 0
  message : String := ""
  error : String := ""
  result : Object := []
  resumeData : Object := []
  queueOrder : ℤ := 0
  updatedAt : ℚ := 0
  deriving DecidableEq

/-- `cancel` says whether there is one; `runDone` is numbered as channels are made. -/
structure TaskState (I : Type) extends UploadTaskRecord I where
  resumePriority : Bool := false
  cancel : Bool := false
  cancelMode : Option CancelMode := none
  runDone : ℕ
  lastEmit : Option ℚ := none

def recordFromState (st : TaskState I) : UploadTaskRecord I := st.toUploadTaskRecord

def stateFromRecord (row : UploadTaskRecord I) (runDone : ℕ) : TaskState I :=
  { row with runDone }

/-- As in the queue. -/
def isCrossTransferDownload (st : TaskState I) : Bool :=
  st.sourceType = .crossTransfer ∧ st.phase = .downloading

def markMissingLocalFileFailed (now : ℚ) (st : TaskState I) : TaskState I :=
  { st with
    status := .failed
    message := "上传失败"
    error := "本地临时文件不存在，无法继续上传"
    updatedAt := now }

def pausedMessage (st : TaskState I) : String :=
  if isCrossTransferDownload st then "源盘下载已暂停"
  else if st.sourceType = .crossTransfer then "目标盘上传已暂停"
  else "上传已暂停"

def calcProgress (uploaded total : ℤ) : ℤ :=
  if total ≤ 0 then 0
  else
    let progress := (uploaded * 100).tdiv total
    if uploaded ≥ total then 100 else if progress > 99 then 99 else progress

def resumedProgress (st : TaskState I) : ℤ × ℤ :=
  if st.resumeData = [] then (0, 0)
  else
    let progress := (mapInt st.resumeData "progress").getD 0
    let uploaded := (mapInt st.resumeData "uploaded_bytes").getD 0
    (if progress = 0 ∧ st.progress > 0 then st.progress else progress,
      if uploaded = 0 ∧ st.uploadedBytes > 0 then st.uploadedBytes else uploaded)

def retainBatchRootMetadata (result : Object) : Object :=
  ["batch_root_id", "batch_root_parent_id", "batch_root_owned"].filterMap fun key =>
    (result.lookup key).map fun value => (key, value)

def downloadPersistInterval : ℚ := 2

/-- The section of `updateDownloadProgress`, for a task that has not completed. -/
def downloadProgress (downloaded total : ℤ) (message : String) (speed now : ℚ)
    (st : TaskState I) : TaskState I :=
  { st with
    status := .running
    phase := .downloading
    progress := calcProgress downloaded total
    downloadedBytes := downloaded
    totalBytes := total
    speedBytesPerSecond := speed
    message := message
    error := ""
    updatedAt := now }

def emits (downloaded total : ℤ) (now : ℚ) (st : TaskState I) : Bool :=
  st.lastEmit.all (fun lastEmit => now - lastEmit ≥ downloadPersistInterval) ∨
    (total > 0 ∧ downloaded ≥ total)

def applyState (state : Object) (now : ℚ) (st : TaskState I) : TaskState I :=
  { st with
    resumeData := state
    uploadedBytes := (mapInt state "uploaded_bytes").getD st.uploadedBytes
    progress := (mapInt state "progress").getD st.progress
    updatedAt := now }

def pauseState (now : ℚ) (st : TaskState I) : TaskState I :=
  { st with
    cancelMode := some .pause
    status := .paused
    resumePriority := false
    speedBytesPerSecond := 0
    message := pausedMessage st
    error := ""
    updatedAt := now }

def resumeState (queueOrder : ℤ) (runDone : ℕ) (st : TaskState I) : TaskState I :=
  let st := { st with
    queueOrder := queueOrder
    status := .pending
    resumePriority := true
    error := ""
    result := retainBatchRootMetadata st.result
    cancelMode := none
    runDone := runDone }
  if st.resumeData ≠ [] then
    { st with
      progress := (resumedProgress st).1
      uploadedBytes := (resumedProgress st).2
      message := "准备继续上传" }
  else if isCrossTransferDownload st then
    { st with
      progress := calcProgress st.downloadedBytes st.totalBytes
      uploadedBytes := 0
      message := "准备继续源盘下载" }
  else { st with progress := 0, uploadedBytes := 0, message := "等待上传" }

def stopState (now : ℚ) (st : TaskState I) : TaskState I :=
  let st := if st.status.isActive then
      { st with
        status := .canceled
        speedBytesPerSecond := 0
        message := "正在停止上传任务"
        error := ""
        updatedAt := now }
    else st
  { st with cancelMode := some .delete }

/-! ### The manager and its repository -/

/-- `removed` has the tasks that `popTask` took out, as they were; `snaps` counts the records that
`persistTask` has taken. -/
structure Manager (K I : Type) where
  tasks : AList (fun _ : K => TaskState I) := ∅
  removed : AList (fun _ : K => TaskState I) := ∅
  rows : AList (fun _ : K => UploadTaskRecord I)
  resumePersist : List K := []
  queueOrder : ℤ := 0
  stopping : Bool := false
  chans : ℕ := 0
  closed : List ℕ := []
  snaps : ℕ := 0

namespace Manager

variable (m : Manager K I)

/-- A section that has found the task. -/
def update (taskID : K) (fn : TaskState I → TaskState I) : Manager K I :=
  match m.tasks.lookup taskID with
  | none => m
  | some st => { m with tasks := m.tasks.insert taskID (fn st) }

/-- The task that a pointer to it leads to. -/
def object (taskID : K) : Option (TaskState I) :=
  (m.tasks.lookup taskID).or (m.removed.lookup taskID)

def removeTaskLocked (taskID : K) (st : TaskState I) : Manager K I :=
  { m with tasks := m.tasks.erase taskID, removed := m.removed.insert taskID st }

/-- `newTaskStateLocked` and `addTaskLocked`, for a task as it is to be. -/
def addTask (created : K × UploadTaskRecord I) : Manager K I :=
  { m with
    tasks := m.tasks.insert created.1
      { created.2 with queueOrder := m.queueOrder + 1, runDone := m.chans }
    queueOrder := m.queueOrder + 1
    chans := m.chans + 1 }

end Manager

/-- What a caller does after `persistTask`: nothing more, the same for other tasks, or the rest of
`stopTaskForDelete`. -/
inductive Next (K : Type)
  | persist (taskIDs : List K)
  | flush (taskIDs : List K)
  | await (taskID : K) (done : ℕ)

/-- Where a caller of the manager stands: in `flushResumePersist` before its first and its second
section, in `persistTask` before its section and before the write, in `Resume` before its second
section, in `Delete` before it deletes the uploaded file, before and behind `stopTaskForDelete`, and
in `popTask` before and behind its section. -/
inductive Caller (K I : Type)
  | flushing (taskID : K) (rest : List K)
  | flushed (taskID : K) (rest : List K)
  | persisting (taskID : K) (next : Next K)
  | upserting (taskID : K) (snap : ℕ) (record : UploadTaskRecord I) (next : Next K)
  | resuming (taskID : K) (done : ℕ)
  | removing (taskID : K)
  | stopping (taskID : K)
  | awaiting (taskID : K) (done : ℕ)
  | popping (taskID : K)
  | deleting (taskID : K)
  | ended

def Next.caller : Next K → Caller K I
  | .persist [] => .ended
  | .persist (taskID :: taskIDs) => .persisting taskID (.persist taskIDs)
  | .flush [] => .ended
  | .flush (taskID :: taskIDs) => .flushing taskID taskIDs
  | .await taskID done => .awaiting taskID done

/-- The clock where a section reads it; and what ends a wait or a call. -/
inductive Outcome
  | turn (now : ℚ)
  | ctxDone
  | fileMissing (now : ℚ)
  | failed
  deriving DecidableEq

/-- An observer sees the records that are taken, the writes and the deletions of rows. -/
inductive Event (K I : Type)
  | snapshot (taskID : K) (snap : ℕ) (record : UploadTaskRecord I)
  | upserted (taskID : K) (snap : ℕ)
  | deleted (taskID : K)
  deriving DecidableEq

abbrev PersistTurn (K I : Type) := Turn (Manager K I) (Caller K I) (Event K I)

abbrev PersistEffect (K I : Type) := Effect (Manager K I) (Caller K I) (Event K I)

abbrev PersistPool (K I : Type) := Pool (Manager K I) (Caller K I) (Event K I)

/-- `Resume` where the task can be resumed and its file is there or not needed. -/
def resumeTask (m : Manager K I) (taskID : K) : Manager K I :=
  { m.update taskID (resumeState (m.queueOrder + 1) m.chans) with
    queueOrder := m.queueOrder + 1
    chans := m.chans + 1 }

/-- The section of `stopTaskForDelete`. -/
def stopTaskForDelete (m : Manager K I) (taskID : K) (now : ℚ) : PersistTurn K I :=
  match m.tasks.lookup taskID with
  | none => { shared := m, task := .popping taskID }
  | some st =>
    if ¬st.status.isActive ∧ st.cancel = false ∨ st.runDone ∈ m.closed then
      { shared := m, task := .popping taskID }
    else
      { shared := m.update taskID (stopState now)
        task := if st.status.isActive then .persisting taskID (.await taskID st.runDone)
          else .awaiting taskID st.runDone }

def resume (m : Manager K I) : Caller K I → Outcome → Option (PersistTurn K I)
  | .flushing taskID rest, .turn _ => some
    { shared := { m with resumePersist := m.resumePersist.erase taskID }
      task := .flushed taskID rest }
  | .flushed taskID rest, .turn _ => some <| match m.tasks.lookup taskID with
    | none => { shared := m, task := (Next.flush rest).caller }
    | some _ => { shared := m, task := .persisting taskID (.flush rest) }
  | .persisting taskID next, .turn _ => some <| match m.object taskID with
    | none => { shared := m, task := next.caller }
    | some st =>
      let record := recordFromState st
      { shared := { m with snaps := m.snaps + 1 }
        task := .upserting taskID m.snaps record next
        seen := [.snapshot taskID m.snaps record] }
  | .upserting taskID snap record next, .turn _ => some
    { shared := { m with rows := m.rows.insert taskID record }
      task := next.caller
      seen := [.upserted taskID snap] }
  | .resuming _ _, .ctxDone => some { shared := m, task := .ended }
  | .resuming taskID done, .turn _ => if done ∈ m.closed then
      some <| match m.tasks.lookup taskID with
        | none => { shared := m, task := .ended }
        | some st =>
          if m.stopping ∨ ¬st.status.isResumable then { shared := m, task := .ended }
          else { shared := resumeTask m taskID, task := .persisting taskID (.persist []) }
    else none
  | .resuming taskID done, .fileMissing now => if done ∈ m.closed then
      some <| match m.tasks.lookup taskID with
        | none => { shared := m, task := .ended }
        | some st =>
          if m.stopping ∨ ¬st.status.isResumable then { shared := m, task := .ended }
          else
            { shared := m.update taskID (markMissingLocalFileFailed now)
              task := .persisting taskID (.persist []) }
    else none
  | .removing taskID, .turn _ => some { shared := m, task := .stopping taskID }
  | .removing _, .failed => some { shared := m, task := .ended }
  | .stopping taskID, .turn now => some (stopTaskForDelete m taskID now)
  | .awaiting taskID done, .turn _ =>
    if done ∈ m.closed then some { shared := m, task := .popping taskID } else none
  | .awaiting _ _, .ctxDone => some { shared := m, task := .ended }
  | .popping taskID, .turn _ => some <| match m.tasks.lookup taskID with
    | none => { shared := m, task := .ended }
    | some st => { shared := m.removeTaskLocked taskID st, task := .deleting taskID }
  | .deleting taskID, .turn _ => some
    { shared := { m with rows := m.rows.erase taskID }
      task := .ended
      seen := [.deleted taskID] }
  | _, _ => none

/-- The beginning of a call of the manager, and what the runs of the tasks do beside. -/
inductive Call (K I : Type)
  | createBatch (created : List (K × UploadTaskRecord I))
  | patch (taskID : K) (fn : TaskState I → TaskState I) (now : ℚ)
  | updateDownloadProgress (taskID : K) (downloaded total : ℤ) (message : String) (speed now : ℚ)
  | applyResumeState (taskID : K) (state : Object) (now : ℚ)
  | timer (taskID : K)
  | flushPendingResume
  | pause (taskID : K) (now : ℚ)
  | resume (taskID : K)
  | delete (taskID : K) (deleteUploadedFile : Bool)
  | change (taskID : K) (fn : TaskState I → TaskState I)
  | close (done : ℕ)
  | stop

/-- A new task's id is drawn from 64 random bits, and no task has had it. -/
def event (m : Manager K I) : Call K I → Option (PersistEffect K I)
  | .createBatch created =>
    if (created.map Prod.fst).Nodup ∧
        ∀ c ∈ created, m.tasks.lookup c.1 = none ∧ m.removed.lookup c.1 = none then
      some <| if m.stopping then { shared := m }
        else
          { shared := created.foldl Manager.addTask m
            spawned := [(Next.persist (created.map Prod.fst)).caller] }
    else none
  | .patch taskID fn now => some <| match m.tasks.lookup taskID with
    | none => { shared := m }
    | some _ =>
      { shared := m.update taskID fun st => { fn st with updatedAt := now }
        spawned := [.persisting taskID (.persist [])] }
  | .updateDownloadProgress taskID downloaded total message speed now => some <|
    match m.tasks.lookup taskID with
    | none => { shared := m }
    | some st =>
      if st.status.isCompleted then { shared := m }
      else if emits downloaded total now st then
        { shared := m.update taskID fun st =>
            { downloadProgress downloaded total message speed now st with lastEmit := some now }
          spawned := [.persisting taskID (.persist [])] }
      else
        { shared := m.update taskID (downloadProgress downloaded total message speed now) }
  | .applyResumeState taskID state now => some <| match m.tasks.lookup taskID with
    | none => { shared := m }
    | some _ =>
      if state = [] then { shared := m }
      else
        { shared :=
            { m.update taskID (applyState state now) with
              resumePersist := taskID :: m.resumePersist.erase taskID } }
  | .timer taskID =>
    if taskID ∈ m.resumePersist then some { shared := m, spawned := [.flushing taskID []] }
    else none
  | .flushPendingResume => some
    { shared := { m with resumePersist := [] }
      spawned := [(Next.flush m.resumePersist).caller] }
  | .pause taskID now => some <| match m.tasks.lookup taskID with
    | none => { shared := m }
    | some st =>
      if m.stopping ∨ ¬st.status.isActive then { shared := m }
      else
        { shared := m.update taskID (pauseState now)
          spawned := [.persisting taskID (.persist [])] }
  | .resume taskID => some <| match m.tasks.lookup taskID with
    | none => { shared := m }
    | some st =>
      if st.status.isResumable then { shared := m, spawned := [.resuming taskID st.runDone] }
      else { shared := m }
  | .delete taskID deleteUploadedFile => some <| match m.tasks.lookup taskID with
    | none => { shared := m }
    | some st =>
      { shared := m
        spawned := [if deleteUploadedFile ∧ st.status = .success then .removing taskID
          else .stopping taskID] }
  | .change taskID fn => some { shared := m.update taskID fn }
  | .close done => some { shared := { m with closed := done :: m.closed } }
  | .stop => some { shared := { m with stopping := true } }

def system : System (Manager K I) (Caller K I) (Event K I) Outcome (Call K I) := ⟨resume, event⟩

/-! ### The start of the process -/

/-- One row in `restoreTasks`; `missing` says whose local file is needed and not there. -/
def restoreRow (missing : K → Bool) (now : ℚ) (taskID : K) (row : UploadTaskRecord I)
    (runDone : ℕ) : TaskState I × Bool :=
  let st := stateFromRecord row runDone
  let running := st.status = .running
  let st := if running then
      { st with status := .paused, message := "进程重启，上传已暂停", speedBytesPerSecond := 0 }
    else st
  if missing taskID then (markMissingLocalFileFailed now st, true) else (st, running)

/-- The loop of `restoreTasks`, with the tasks that it has changed. -/
def restoreNext (missing : K → Bool) (now : ℚ) (acc : Manager K I × List K)
    (row : (_ : K) × UploadTaskRecord I) : Manager K I × List K :=
  let (m, persist) := acc
  let (st, changed) := restoreRow missing now row.1 row.2 m.chans
  ({ m with
      tasks := m.tasks.insert row.1 st
      queueOrder := max m.queueOrder st.queueOrder
      chans := m.chans + 1
      closed := if st.status = .pending then m.closed else m.chans :: m.closed },
    if changed then persist ++ [row.1] else persist)

/-- The changed tasks are persisted one after the other. -/
def restoreTasks (missing : K → Bool) (now : ℚ) (rows : AList (fun _ : K => UploadTaskRecord I)) :
    PersistPool K I :=
  let acc := rows.entries.foldl (restoreNext missing now) ({ rows }, [])
  { shared := acc.1, tasks := [(Next.persist acc.2).caller] }

end AllInOneBackup.LitePan.Upload.Persist
