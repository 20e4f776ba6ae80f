import AllInOneBackup.Concurrency.Pool
import Mathlib.Data.List.Sort
import Mathlib.Data.Int.Order.Basic

/-! The tasks of the transfer service: their rows in the store, the entry points that create,
revive and delete them, the process loop that starts them, and the runs that save their own copy
of a task. Nothing is awaited between the search for a duplicate and the save of a new task; a
round of the process loop is a turn here, which only allows more. -/

namespace AllInOneBackup.Cloud123.TaskQueue

open Concurrency

/-! ### The store -/

inductive Kind
  | pan115Share
  | pan123to115
  | pan123ShareCopy
  deriving DecidableEq

/-- `partlyFailed` is the status `partial`. -/
inductive Status
  | queued
  | running
  | success
  | partlyFailed
  | failed
  deriving DecidableEq

/-- `_is_final_transfer_status`. -/
def Status.Final (status : Status) : Prop :=
  status = .success ∨ status = .partlyFailed ∨ status = .failed

instance (status : Status) : Decidable status.Final := inferInstanceAs (Decidable (_ ∨ _))

/-- A row, and the dict that is read from it. -/
structure TransferTask where
  id : ℕ
  kind : Kind
  shareCode : String
  status : Status := .queued
  createdAt : ℤ
  deriving DecidableEq

abbrev Rows := List TransferTask

/-- `save_transfer_task`; a row that exists keeps its `created_at`. -/
def save (rows : Rows) (task : TransferTask) : Rows :=
  if ∃ row ∈ rows, row.id = task.id then
    rows.map fun row => if row.id = task.id then { task with createdAt := row.createdAt } else row
  else rows ++ [task]

def getTransferTask (rows : Rows) (id : ℕ) : Option TransferTask := rows.find? (·.id = id)

def deleteTransferTask (rows : Rows) (id : ℕ) : Rows := rows.filter (·.id ≠ id)

/-- The newest rows first. -/
def listTransferTasks (rows : Rows) (limit : ℕ) : Rows :=
  (rows.mergeSort fun a b => b.createdAt ≤ a.createdAt).take limit

/-- The oldest queued row of some kinds. -/
def nextQueuedTransferTask (rows : Rows) (kinds : Kind → Bool) : Option TransferTask :=
  (rows.mergeSort fun a b => a.createdAt ≤ b.createdAt).find? fun row =>
    row.status = .queued ∧ kinds row.kind

/-! ### The service -/

/-- `nextId` stands for `uuid4`, which does not repeat; `running` is `_running`. -/
structure Service where
  rows : Rows := []
  nextId : ℕ := 0
  activeTaskIds : List ℕ := []
  activePan123ShareCopyTaskId : Option ℕ := none
  deletedTaskIds : List ℕ := []
  running : Bool := false

/-- The coroutines at their suspension points: an enqueue that waits for the queue notification of
its tasks, a deletion that waits for its own, the process loop before and in its rounds, and the
run of a task before and after its final save. -/
inductive Coroutine
  | notifying (tasks : List TransferTask)
  | deleting (id : ℕ)
  | processLoop
  | rounds (maxActiveTasks : ℕ)
  | running (task : TransferTask)
  | reporting (task : TransferTask)
  | finished

/-- How a coroutine goes on: the notification has a message for a task, or is over; the loop reads
its configuration or goes a round; a run saves its task, with another share code after the
inspection of a local directory, ends with a status, raises, or is cancelled. -/
inductive Outcome
  | ref (i : ℕ)
  | returned
  | config (maxActiveTasks : ℕ)
  | round (paused : Bool)
  | saved
  | inspected (shareCode : String)
  | ended (status : Status)
  | raised
  | cancelled

abbrev ServiceTurn := Turn Service Coroutine Empty

abbrev ServicePool := Pool Service Coroutine Empty

namespace Service

variable (s : Service)

/-- `_save_transfer_task`. -/
def saveTransferTask (task : TransferTask) : Service :=
  if task.id ∈ s.deletedTaskIds then s else { s with rows := save s.rows task }

def kick : Effect Service Coroutine Empty :=
  if s.running then { shared := s }
  else { shared := { s with running := true }, spawned := [.processLoop] }

/-- The ids that are left, and the copy that is still going on. -/
def discard (id : ℕ) : Service :=
  { s with
    activeTaskIds := s.activeTaskIds.filter (· ≠ id)
    activePan123ShareCopyTaskId :=
      if s.activePan123ShareCopyTaskId = some id then none else s.activePan123ShareCopyTaskId }

/-- The `finally` of `_run_task_safely_wrapper`. -/
def finishRun (id : ℕ) : ServiceTurn := { (s.discard id).kick with task := .finished }

/-- A run saves its copy of a task, and ends if the task is deleted. -/
def saveOrFinish (task : TransferTask) (next : Coroutine) : ServiceTurn :=
  if task.id ∈ s.deletedTaskIds then s.finishRun task.id
  else { shared := s.saveTransferTask task, task := next }

/-- `_discard_finished_task_record`. -/
def discardFinishedTaskRecord (task : TransferTask) : Service :=
  if task.status.Final ∧ task.kind ≠ .pan123ShareCopy then
    { s with
      deletedTaskIds := task.id :: s.deletedTaskIds
      rows := deleteTransferTask s.rows task.id }
  else s

/-- The task that a round of the process loop takes. -/
def nextTask (paused : Bool) : Option TransferTask :=
  let copyBusy := s.activePan123ShareCopyTaskId.isSome
  if paused then
    if copyBusy then none
    else (nextQueuedTransferTask s.rows (· = .pan123ShareCopy)).or
      (nextQueuedTransferTask s.rows (· = .pan123to115))
  else nextQueuedTransferTask s.rows fun kind => !(copyBusy && kind = Kind.pan123ShareCopy)

def endLoop : ServiceTurn := { shared := { s with running := false }, task := .finished }

/-- A round of `_process_loop`. -/
def round (maxActiveTasks : ℕ) (paused : Bool) : ServiceTurn :=
  if s.activeTaskIds.length < maxActiveTasks then
    match s.nextTask paused with
    | none => s.endLoop
    | some task =>
      if task.id ∈ s.activeTaskIds then s.endLoop
      else
        let s :=
          { s with
            activeTaskIds := task.id :: s.activeTaskIds
            activePan123ShareCopyTaskId :=
              if task.kind = Kind.pan123ShareCopy then some task.id else s.activePan123ShareCopyTaskId }
        let task := { task with status := .running }
        if task.id ∈ s.deletedTaskIds then
          { shared := s.discard task.id, task := .rounds maxActiveTasks }
        else
          { shared := s.saveTransferTask task
            task := .rounds maxActiveTasks
            spawned := [.running task] }
  else s.endLoop

/-! ### Entry points -/

variable (lower : String → String)

/-- The kind and the share code, without case. -/
def SameKey (a b : TransferTask) : Prop := a.kind = b.kind ∧ lower a.shareCode = lower b.shareCode

instance (a b : TransferTask) : Decidable (SameKey lower a b) := inferInstanceAs (Decidable (_ ∧ _))

def findActiveDuplicate (task : TransferTask) : Option TransferTask :=
  (listTransferTasks s.rows 100).find? fun existing =>
    SameKey lower existing task ∧ ¬existing.status.Final

/-- What an entry point puts into a new task. -/
structure Draft where
  kind : Kind
  shareCode : String
  createdAt : ℤ

def Draft.task (d : Draft) (id : ℕ) : TransferTask := ⟨id, d.kind, d.shareCode, .queued, d.createdAt⟩

/-- A new task is saved, unless it has a duplicate. -/
def enqueueOne (d : Draft) : Service × List TransferTask :=
  let task := d.task s.nextId
  let s' := { s with nextId := s.nextId + 1 }
  match s.findActiveDuplicate lower task with
  | some _ => (s', [])
  | none => ({ s' with rows := save s.rows task }, [task])

/-- The links of a text, one after the other. -/
def enqueueAll (s : Service) : List Draft → Service × List TransferTask
  | [] => (s, [])
  | d :: ds =>
    let first := s.enqueueOne lower d
    let rest := enqueueAll first.1 ds
    (rest.1, first.2 ++ rest.2)

/-- The new tasks are notified; without one the entry point raises. -/
def enqueue (ds : List Draft) : Effect Service Coroutine Empty :=
  let r := s.enqueueAll lower ds
  { shared := r.1, spawned := if r.2 = [] then [] else [.notifying r.2] }

def enqueueFromText (links : List (String × ℤ)) : Effect Service Coroutine Empty :=
  s.enqueue lower (links.map fun link => ⟨.pan115Share, link.1, link.2⟩)

/-- `pathCode` is the normalised path in lower case. -/
def enqueueLocalPath (pathCode : String) (now : ℤ) : Effect Service Coroutine Empty :=
  s.enqueue lower [⟨.pan115Share, "local:" ++ pathCode, now⟩]

def enqueuePan123to115 (sourceDirId : String) (now : ℤ) : Effect Service Coroutine Empty :=
  s.enqueue lower [⟨.pan123to115, "123dir:" ++ sourceDirId, now⟩]

def enqueuePan123ShareTo115 (shareKey : String) (now : ℤ) : Effect Service Coroutine Empty :=
  s.enqueue lower [⟨.pan123to115, shareKey, now⟩]

def enqueuePan123ShareCopy (shareKey : String) (now : ℤ) : Effect Service Coroutine Empty :=
  s.enqueue lower [⟨.pan123ShareCopy, shareKey, now⟩]

/-- `none` where it raises. -/
def requeueTask (id : ℕ) : Option (Effect Service Coroutine Empty) :=
  (getTransferTask s.rows id).bind fun task =>
    if task.status = .running ∨ task.status = .success then none
    else some ({ s with rows := save s.rows { task with status := .queued } } : Service).kick

def deleteTask (id : ℕ) : Option (Effect Service Coroutine Empty) :=
  (getTransferTask s.rows id).map fun _ =>
    { shared := { s with deletedTaskIds := id :: s.deletedTaskIds }, spawned := [.deleting id] }

end Service

inductive Call
  | fromText (links : List (String × ℤ))
  | localPath (pathCode : String) (now : ℤ)
  | pan123to115 (sourceDirId : String) (now : ℤ)
  | pan123ShareTo115 (shareKey : String) (now : ℤ)
  | pan123ShareCopy (shareKey : String) (now : ℤ)
  | requeue (id : ℕ)
  | delete (id : ℕ)

/-- A task of a local directory. -/
def TransferTask.IsLocal (task : TransferTask) : Prop :=
  task.kind = .pan115Share ∧ "local:".toList.isPrefixOf task.shareCode.toList = true

instance (task : TransferTask) : Decidable task.IsLocal := inferInstanceAs (Decidable (_ ∧ _))

def resume (s : Service) : Coroutine → Outcome → Option ServiceTurn
  | .notifying tasks, .ref i =>
    tasks[i]?.map fun task => { shared := s.saveTransferTask task, task := .notifying tasks }
  | .notifying _, .returned => some { s.kick with task := .finished }
  | .deleting id, .returned =>
    some { shared := { s with rows := deleteTransferTask s.rows id }, task := .finished }
  | .processLoop, .config maxActiveTasks => some { shared := s, task := .rounds maxActiveTasks }
  | .rounds maxActiveTasks, .round paused => some (s.round maxActiveTasks paused)
  | .running task, .saved => some (s.saveOrFinish task (.running task))
  | .running task, .inspected shareCode =>
    if task.IsLocal then
      let task := { task with shareCode }
      some (s.saveOrFinish task (.running task))
    else none
  | .running task, .ended status =>
    if status = .queued then none
    else
      let task := { task with status }
      some (s.saveOrFinish task (.reporting task))
  | .running task, .raised =>
    let task := { task with status := .failed }
    some (s.saveOrFinish task (.reporting task))
  | .running task, .cancelled => some (s.finishRun task.id)
  | .reporting task, .saved => some { shared := s.saveTransferTask task, task := .reporting task }
  | .reporting task, .returned => some ((s.discardFinishedTaskRecord task).finishRun task.id)
  | .reporting task, .raised | .reporting task, .cancelled => some (s.finishRun task.id)
  | _, _ => none

def call (lower : String → String) (s : Service) : Call → Option (Effect Service Coroutine Empty)
  | .fromText links => some (s.enqueueFromText lower links)
  | .localPath pathCode now => some (s.enqueueLocalPath lower pathCode now)
  | .pan123to115 sourceDirId now => some (s.enqueuePan123to115 lower sourceDirId now)
  | .pan123ShareTo115 shareKey now => some (s.enqueuePan123ShareTo115 lower shareKey now)
  | .pan123ShareCopy shareKey now => some (s.enqueuePan123ShareCopy lower shareKey now)
  | .requeue id => s.requeueTask id
  | .delete id => s.deleteTask id

def system (lower : String → String) : System Service Coroutine Empty Outcome Call :=
  ⟨resume, call lower⟩

/-- `init`: what an earlier process left running is queued again, and the loop starts. -/
def start (rows : Rows) : ServicePool where
  shared :=
    { rows := rows.map fun row => if row.status = .running then { row with status := .queued } else row
      nextId := rows.foldr (fun row n => max (row.id + 1) n) 0
      running := true }
  tasks := [.processLoop]

end AllInOneBackup.Cloud123.TaskQueue
