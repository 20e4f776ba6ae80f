import AllInOneBackup.Concurrency.Pool
import Mathlib.Data.Finset.Card
import Mathlib.Data.List.AList
import Mathlib.Data.List.Sort

/-! The STRM service: its scheduler, `RunTaskNow`, `ForceStopTask`, `DeleteTask`, and the goroutines
that scan. Each section under `s.mu` is a turn. A goroutine that scans goes on after it was asked to
stop, until `ScanTask` returns. -/

namespace AllInOneBackup.LitePan.Strm

open Concurrency

/-! ### The service -/

/-- What the service is given: the account of a task, and the setting of how many tasks may run. -/
structure Config where
  accountID : ℤ → ℤ
  taskConcurrency : ℕ

/-- The maps of the service. A task that waits is listed with its place in the order; contexts are
numbered in the order they were made. -/
structure Service where
  running : Finset ℤ := ∅
  runningAccounts : Finset ℤ := ∅
  taskCancels : AList (fun _ : ℤ => ℕ) := ∅
  dirtyAccounts : Finset ℤ := ∅
  pendingRun : Finset ℤ := ∅
  waitingRuns : List (ℤ × ℕ) := []
  nextRunOrder : ℕ := 0
  fileOperations : Finset ℤ := ∅
  ctxs : ℕ := 0
  cancelled : List ℕ := []

/-- What `queuedTasks` reads of a task: that it is active, that `ShouldAutoSchedule` and
`IsInTimeWindow` hold of it, and that its scan interval has passed since the last scan, if any. -/
structure ListedTask where
  id : ℤ
  active : Bool
  autoSchedule : Bool
  inTimeWindow : Bool
  due : Bool

namespace Service

variable (c : Config) (s : Service)

def enqueueRunLocked (id : ℤ) : Service :=
  if id ∈ s.running then s
  else if (s.waitingRuns.lookup id).isSome then s
  else
    { s with
      nextRunOrder := s.nextRunOrder + 1
      waitingRuns := (id, s.nextRunOrder + 1) :: s.waitingRuns }

/-- `delete(s.waitingRuns, id)`. -/
def unqueue (id : ℤ) : Service :=
  { s with waitingRuns := s.waitingRuns.filter fun w => w.1 ≠ id }

/-- The loop of `queuedTasks` goes on to the next task. -/
def skips (task : ListedTask) : Bool :=
  let pending := decide (task.id ∈ s.pendingRun)
  let queued := (s.waitingRuns.lookup task.id).isSome
  !task.active || decide (task.id ∈ s.running) ||
    (!task.autoSchedule && !pending) ||
    (!pending && !task.inTimeWindow) ||
    (!pending && !queued && !decide (c.accountID task.id ∈ s.dirtyAccounts) && !task.due)

/-- The tasks that are to run, in their order; whoever waits and is no longer eligible is dropped. -/
def queuedTasks (tasks : List ListedTask) : Service × List ℤ :=
  let (s, eligible) := tasks.foldl (fun (s, eligible) task =>
    if s.skips c task then (s, eligible)
    else (s.enqueueRunLocked task.id, task.id :: eligible)) (s, [])
  let dropped := s.waitingRuns.filter fun w => w.1 ∉ eligible
  let kept := s.waitingRuns.filter fun w => w.1 ∈ eligible
  ({ s with
      dirtyAccounts := ∅
      waitingRuns := kept
      pendingRun := s.pendingRun \ (dropped.map Prod.fst).toFinset },
    (kept.insertionSort fun a b => a.2 ≤ b.2).map Prod.fst)

/-- `TryBeginTaskFileOperation`, and the function that it returns. -/
def tryBeginTaskFileOperation (taskID : ℤ) : Option Service :=
  if taskID ≤ 0 then none
  else if taskID ∈ s.fileOperations then none
  else some { s with fileOperations := insert taskID s.fileOperations }

def releaseFiles (taskID : ℤ) : Service :=
  { s with fileOperations := s.fileOperations.erase taskID }

def canStartTaskLocked (id : ℤ) : Bool :=
  if id ∈ s.running ∨ s.running.card ≥ c.taskConcurrency then false
  else if ∃ current ∈ s.waitingRuns.lookup id, ∃ waiting ∈ s.waitingRuns,
      c.accountID waiting.1 = c.accountID id ∧ waiting.2 < current then false
  else c.accountID id ≤ 0 ∨ c.accountID id ∉ s.runningAccounts

/-- The section of `runTaskAsync` that marks the task as running. -/
def markRunning (id : ℤ) : Service :=
  { s.unqueue id with
    running := insert id s.running
    runningAccounts :=
      if c.accountID id > 0 then insert (c.accountID id) s.runningAccounts
      else s.runningAccounts }

/-- The second section of `ForceStopTask`. -/
def unmark (id : ℤ) : Service :=
  { s with
    running := s.running.erase id
    taskCancels := s.taskCancels.erase id
    pendingRun := s.pendingRun.erase id
    runningAccounts :=
      if c.accountID id > 0 then s.runningAccounts.erase (c.accountID id)
      else s.runningAccounts }

def clearTaskRunState (id : ℤ) : Service := (s.unqueue id).unmark c id

/-- The section of `RunTaskNow`. -/
def request (id : ℤ) : Service :=
  { s with pendingRun := insert id s.pendingRun }.enqueueRunLocked id

end Service

/-! ### Goroutines -/

/-- Where a goroutine stands: `RunTaskNow` before its section, the loop of `scheduleOnce`;
`runTaskAsync` with the file operation begun, and with it to be given up; the goroutine that scans,
from its start to the end of its file operation; `ForceStopTask` in its sections, with what follows;
`DeleteTask` behind the stop; and another operation on the files of a task. -/
inductive Goroutine
  | requesting (id : ℤ)
  | calling (ids : List ℤ)
  | starting (id : ℤ) (rest : List ℤ)
  | refusing (id : ℤ) (rest : List ℤ)
  | created (id : ℤ)
  | preparing (id : ℤ)
  | scanning (id : ℤ)
  | returning (id : ℤ)
  | closing (id : ℤ)
  | stopping (id : ℤ) (next : Goroutine)
  | unqueuing (id : ℤ) (next : Goroutine)
  | cancelling (id : ℤ) (cancel : Option ℕ) (next : Goroutine)
  | unmarking (id : ℤ) (next : Goroutine)
  | deleting (id : ℤ)
  | moving (id : ℤ)
  | ended
  deriving DecidableEq

/-- A turn that goes on; the startup delay, the media organizer or the cache retention is in the
way; and a call that fails, with an error of authentication or another one. -/
inductive Outcome
  | turn
  | busy
  | failed
  | authFailed
  deriving DecidableEq

abbrev StrmTurn := Turn Service Goroutine Empty

abbrev StrmPool := Pool Service Goroutine Empty

def resume (c : Config) (s : Service) : Goroutine → Outcome → Option StrmTurn
  | .requesting id, .turn => some { shared := s.request id, task := .calling [id] }
  | .requesting id, .busy => some
    { shared :=
        { s.request id with dirtyAccounts := insert (c.accountID id) s.dirtyAccounts }
      task := .ended }
  | .calling [], .turn => some { shared := s, task := .ended }
  | .calling (_ :: rest), .busy => some { shared := s, task := .calling rest }
  | .calling (id :: rest), .turn => some <| match s.tryBeginTaskFileOperation id with
    | none => { shared := s, task := .calling rest }
    | some s => { shared := s, task := .starting id rest }
  | .starting id rest, .turn => some <|
    if s.canStartTaskLocked c id then
      { shared := s.markRunning c id, task := .calling rest, spawned := [.created id] }
    else { shared := s, task := .refusing id rest }
  | .refusing id rest, .turn => some { shared := s.releaseFiles id, task := .calling rest }
  | .created id, .turn => some
    { shared := { s with taskCancels := s.taskCancels.insert id s.ctxs, ctxs := s.ctxs + 1 }
      task := .preparing id }
  | .preparing id, .turn => some { shared := s, task := .scanning id }
  -- `ScanTask` returns, with or without an error
  | .scanning id, .turn => some { shared := s, task := .returning id }
  | .preparing id, .failed => some { shared := s, task := .returning id }
  | .preparing id, .authFailed | .scanning id, .authFailed =>
    -- `PauseTask` stops the task from within its own goroutine
    some { shared := s, task := .stopping id (.returning id) }
  | .returning id, .turn => some { shared := s.clearTaskRunState c id, task := .closing id }
  | .closing id, .turn => some { shared := s.releaseFiles id, task := .ended }
  | .stopping id next, .turn => some
    { shared := s
      task := if id ∈ s.running then .cancelling id (s.taskCancels.lookup id) next
        else .unqueuing id next }
  | .unqueuing id next, .turn => some
    { shared := { s.unqueue id with pendingRun := s.pendingRun.erase id }, task := next }
  | .cancelling _ _ next, .failed => some { shared := s, task := next }
  | .cancelling id cancel next, .turn => some
    { shared := { s with cancelled := cancel.toList ++ s.cancelled }, task := .unmarking id next }
  | .unmarking id next, .turn => some { shared := s.unmark c id, task := next }
  | .deleting id, .turn => some { shared := s.clearTaskRunState c id, task := .ended }
  | .deleting _, .failed => some { shared := s, task := .ended }
  | .moving id, .turn => some { shared := s.releaseFiles id, task := .ended }
  | _, _ => none

/-- A tick of the scheduler with the tasks that the repository lists, and the calls of the service;
`ToggleTask` and `PauseTask` call `ForceStopTask`, and `UpdateTask` and the generation of a directory
are operations on the files of a task. -/
inductive Call
  | scheduleOnce (tasks : List ListedTask)
  | runTaskNow (id : ℤ)
  | forceStopTask (id : ℤ)
  | deleteTask (id : ℤ)
  | fileOperation (id : ℤ)
  | fileMutated (accountID : ℤ)

def event (c : Config) (s : Service) : Call → Option (Effect Service Goroutine Empty)
  | .scheduleOnce tasks =>
    let (s, ids) := s.queuedTasks c tasks
    some { shared := s, spawned := [.calling ids] }
  | .runTaskNow id => some <|
    if id ∈ s.fileOperations then { shared := s } else { shared := s, spawned := [.requesting id] }
  | .forceStopTask id => some { shared := s, spawned := [.stopping id .ended] }
  | .deleteTask id => some { shared := s, spawned := [.stopping id (.deleting id)] }
  | .fileOperation id => some <| match s.tryBeginTaskFileOperation id with
    | none => { shared := s }
    | some s => { shared := s, spawned := [.moving id] }
  | .fileMutated accountID =>
    some { shared := { s with dirtyAccounts := insert accountID s.dirtyAccounts } }

def system (c : Config) : System Service Goroutine Empty Outcome Call := ⟨resume c, event c⟩

/-- `NewService`. -/
def newService : StrmPool where
  shared := {}

end AllInOneBackup.LitePan.Strm
