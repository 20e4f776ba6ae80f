import AllInOneBackup.Concurrency.Pool
import Mathlib.Algebra.Order.Ring.Int
import Mathlib.Logic.Function.Basic

/-! The queue of the 115 requests. Each call of `_enqueue_pan115_download` makes a link of two tasks:
`_run`, which awaits the `_swallow` of the link before it, keeps the interval and does the job, and
`_swallow`, which awaits `_run`; the caller awaits `_run` too. To cancel a task is to cancel what it
awaits, and only where that is over, or nothing is awaited yet, the error is thrown into the task
itself at its next turn. -/

namespace AllInOneBackup.Cloud123.DownloadQueue

open Concurrency

/-- How a task or a job ends. -/
inductive Result (α ε : Type*)
  | returned (a : α)
  | raised (e : ε)
  | cancelled
  deriving DecidableEq

/-- `_run`: before its first turn, at `await previous`, in `_delay` until a time, for an interval
that it has read, in its job, and over. -/
inductive Run (α ε : Type*)
  | created
  | waiting
  | delaying (deadline interval : ℤ)
  | job
  | finished (r : Result α ε)
  deriving DecidableEq

/-- `_swallow`: before its first turn, at `await future`, and over. -/
inductive Swallow
  | created
  | waiting
  | returned
  | cancelled
  deriving DecidableEq

/-- A call. The marks say that `CancelledError` is thrown into the task at its next turn; `asked`
says that the task of the caller was cancelled. -/
structure Link (α ε : Type*) where
  run : Run α ε := .created
  runMarked : Bool := false
  swallow : Swallow := .created
  swallowMarked : Bool := false
  callerMarked : Bool := false
  asked : Bool := false
  received : Bool := false

/-- The calls in their order; `last` is `_last_pan115_download_at`, and the clock is in
milliseconds. -/
structure Queue (α ε : Type*) where
  link : ℕ → Link α ε := fun _ => {}
  count : ℕ := 0
  last : ℕ := 0
  now : ℕ
  downloadMinIntervalMs : Option ℤ := none

/-- What an observer sees of the jobs and the callers. -/
inductive Seen (α ε : Type*)
  | started (i : ℕ) (time : ℕ) (interval : ℤ)
  | ended (i : ℕ) (r : Result α ε) (time : ℕ)
  | received (i : ℕ) (r : Result α ε)

/-- A call, a turn of one of the tasks, the end of a job, the cancellation of a caller, time, and a
change of the configuration. -/
inductive Happening (α ε : Type*)
  | enqueue
  | resumeRun (i : ℕ)
  | endJob (i : ℕ) (r : Result α ε)
  | resumeSwallow (i : ℕ)
  | resumeCaller (i : ℕ)
  | cancelCaller (i : ℕ)
  | tick (ms : ℕ)
  | configure (interval : Option ℤ)

def PAN115_DOWNLOAD_MIN_INTERVAL_MS : ℤ := 2500

variable {α ε : Type*}

def Run.Over : Run α ε → Prop
  | .finished _ => True
  | _ => False

instance (r : Run α ε) : Decidable r.Over :=
  match r with
  | .finished _ => .isTrue trivial
  | .created | .waiting | .delaying _ _ | .job => .isFalse id

namespace Queue

variable (q : Queue α ε)

def set (i : ℕ) (l : Link α ε) : Queue α ε := { q with link := Function.update q.link i l }

/-- `cancel` of `_run`. -/
def cancelRun : ℕ → Queue α ε
  | 0 =>
    if (q.link 0).run.Over then q else q.set 0 { q.link 0 with runMarked := true }
  | j + 1 =>
    match (q.link (j + 1)).run with
    | .finished _ => q
    | .waiting =>
      -- `cancel` of the `_swallow` before it
      match (q.link j).swallow with
      | .created => q.set j { q.link j with swallowMarked := true }
      | .waiting =>
        if (q.link j).run.Over then q.set j { q.link j with swallowMarked := true }
        else cancelRun j
      | .returned | .cancelled => q.set (j + 1) { q.link (j + 1) with runMarked := true }
    | .created | .delaying _ _ | .job =>
      q.set (j + 1) { q.link (j + 1) with runMarked := true }

/-- `cancel` of the task that awaits in `_enqueue_pan115_download`. -/
def cancelCaller (i : ℕ) : Queue α ε :=
  let q := q.set i { q.link i with asked := true }
  if (q.link i).run.Over then q.set i { q.link i with callerMarked := true } else q.cancelRun i

abbrev QueueEffect (α ε : Type*) := Effect (Queue α ε) Empty (Seen α ε)

def endRun (i : ℕ) (r : Result α ε) : Queue α ε := q.set i { q.link i with run := .finished r }

def startJob (i : ℕ) (interval : ℤ) : QueueEffect α ε :=
  { shared := q.set i { q.link i with run := .job }, seen := [.started i q.now interval] }

/-- `_run` after `await previous`. -/
def afterPrevious (i : ℕ) : QueueEffect α ε :=
  let elapsed : ℤ := q.now - q.last
  let interval := max 0 (q.downloadMinIntervalMs.getD PAN115_DOWNLOAD_MIN_INTERVAL_MS)
  let waitMs := max 0 (interval - elapsed)
  if waitMs > 0 then
    { shared := q.set i { q.link i with run := .delaying (q.now + waitMs) interval } }
  else q.startJob i interval

/-- `previous` of a link; the first one has none. -/
def previous : ℕ → Swallow
  | 0 => .returned
  | j + 1 => (q.link j).swallow

/-- `await previous`: only `Exception` is caught. -/
def awaitPrevious (i : ℕ) : QueueEffect α ε :=
  match q.previous i with
  | .returned => q.afterPrevious i
  | .cancelled => { shared := q.endRun i .cancelled }
  | .created | .waiting => { shared := q.set i { q.link i with run := .waiting } }

def resumeRun (i : ℕ) : Option (QueueEffect α ε) :=
  match (q.link i).run with
  | .created =>
    if (q.link i).runMarked then some { shared := q.endRun i .cancelled }
    else some (q.awaitPrevious i)
  | .waiting =>
    if q.previous i = .created ∨ q.previous i = .waiting then none
    else if (q.link i).runMarked then some { shared := q.endRun i .cancelled }
    else some (q.awaitPrevious i)
  | .delaying deadline interval =>
    if (q.link i).runMarked then some { shared := q.endRun i .cancelled }
    else if deadline ≤ q.now then some (q.startJob i interval)
    else none
  | .job | .finished _ => none

/-- The end of a job, which may answer a cancellation with a result. -/
def endJob (i : ℕ) (r : Result α ε) : Option (QueueEffect α ε) :=
  match (q.link i).run, r with
  | .job, .cancelled =>
    if (q.link i).runMarked then
      some { shared := { q.endRun i r with last := q.now }, seen := [.ended i r q.now] }
    else none
  | .job, _ => some { shared := { q.endRun i r with last := q.now }, seen := [.ended i r q.now] }
  | _, _ => none

/-- `await future` of `_swallow`: only `Exception` is caught. -/
def swallowed (r : Result α ε) : Swallow :=
  match r with
  | .returned _ | .raised _ => .returned
  | .cancelled => .cancelled

def resumeSwallow (i : ℕ) : Option (QueueEffect α ε) :=
  match (q.link i).swallow, (q.link i).run with
  | .created, run =>
    if (q.link i).swallowMarked then
      some { shared := q.set i { q.link i with swallow := .cancelled } }
    else
      match run with
      | .finished r => some { shared := q.set i { q.link i with swallow := swallowed r } }
      | _ => some { shared := q.set i { q.link i with swallow := .waiting } }
  | .waiting, .finished r =>
    if (q.link i).swallowMarked then
      some { shared := q.set i { q.link i with swallow := .cancelled } }
    else some { shared := q.set i { q.link i with swallow := swallowed r } }
  | _, _ => none

/-- `return await future`. -/
def resumeCaller (i : ℕ) : Option (QueueEffect α ε) :=
  match (q.link i).run with
  | .finished r =>
    if (q.link i).received then none
    else
      let r := if (q.link i).callerMarked then .cancelled else r
      some
        { shared := q.set i { q.link i with received := true }, seen := [.received i r] }
  | _ => none

end Queue

def event (q : Queue α ε) : Happening α ε → Option (Queue.QueueEffect α ε)
  | .enqueue => some { shared := { q with count := q.count + 1 } }
  | .resumeRun i => if i < q.count then q.resumeRun i else none
  | .endJob i r => if i < q.count then q.endJob i r else none
  | .resumeSwallow i => if i < q.count then q.resumeSwallow i else none
  | .resumeCaller i => if i < q.count then q.resumeCaller i else none
  | .cancelCaller i =>
    if i < q.count ∧ (q.link i).received = false then some { shared := q.cancelCaller i } else none
  | .tick ms => some { shared := { q with now := q.now + ms } }
  | .configure interval => some { shared := { q with downloadMinIntervalMs := interval } }

abbrev QueuePool (α ε : Type*) := Pool (Queue α ε) Empty (Seen α ε)

/-- The tasks of the queue are part of its state, as a cancellation travels through them. -/
def system : System (Queue α ε) Empty (Seen α ε) Empty (Happening α ε) :=
  ⟨fun _ t _ => t.elim, event⟩

/-- No call was made. -/
def start (now : ℕ) : QueuePool α ε := { shared := { now } }

end AllInOneBackup.Cloud123.DownloadQueue
