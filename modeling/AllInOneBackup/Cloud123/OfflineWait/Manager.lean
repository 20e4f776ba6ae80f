import Mathlib.Data.Int.Order.Basic
import Mathlib.Data.Nat.Notation
import Mathlib.Tactic.Common

/-! `OfflineDownloadManager.wait_all`. A round looks at every file that is submitted and not yet done
or failed, submits queued files while there is room, and sleeps. Each look at a file ends in one of
the branches of the loop, by what 123 and 115 answer; time goes on in every call. -/

namespace AllInOneBackup.Cloud123.OfflineWait

def TRANSFER_OFFLINE_RESUBMIT_MAX : ℕ := 3

def OFFLINE_WAIT_EXTEND_MAX : ℕ := 2

/-- `offlinePollMs` and `offlineMaxPolls` of the configuration, and its limit of slots. -/
structure Config where
  offlinePollMs : ℕ
  offlineMaxPolls : ℕ
  maxInflight : ℕ

namespace Config

variable (c : Config)

def pollMs : ℕ := max 2000 c.offlinePollMs

def maxPolls : ℕ := max 1 c.offlineMaxPolls

/-- `_offline_wait_deadline_ms`. -/
def deadlineMs : ℕ := max 1000 (c.maxPolls * c.pollMs)

theorem deadlineMs_eq : c.deadlineMs = c.maxPolls * c.pollMs := by
  have hpolls : 1 ≤ c.maxPolls := Nat.le_max_left _ _
  have hms : 2000 ≤ c.pollMs := Nat.le_max_left _ _
  have hmul : 1 * 2000 ≤ c.maxPolls * c.pollMs := Nat.mul_le_mul hpolls hms
  have hle : 1000 ≤ c.maxPolls * c.pollMs := by omega
  exact Nat.max_eq_right hle

end Config

/-- What the loop reads and writes of a file. `targetDirOk` says that the ID of its directory is a
number, and 0 is no task. -/
structure File where
  sourceUrl : String
  offlineTaskId : ℕ
  offlineWaitExtends : ℕ
  offlineResubmits : ℕ
  error : Option String
  targetDirOk : Bool

/-- `OfflineItem`. `overdue` counts the looks that come after its deadline, and `recreated` the
tasks that `wait_all` has created again. -/
structure OfflineItem where
  file : File
  startedMs : ℤ
  done : Bool := false
  failed : Bool := false
  submitted : Bool := false
  overdue : ℕ := 0
  recreated : ℕ := 0

namespace OfflineItem

variable (item : OfflineItem)

/-- A member of `inflight_items`. -/
def Inflight : Prop := item.submitted = true ∧ item.done = false ∧ item.failed = false

instance : Decidable item.Inflight := inferInstanceAs (Decidable (_ ∧ _))

/-- A member of `pending`: neither submitted nor failed. -/
def Pending : Prop := item.submitted = false ∧ item.done = false ∧ item.failed = false

instance : Decidable item.Pending := inferInstanceAs (Decidable (_ ∧ _))

/-- `unresolved_count` does not count it. -/
def Resolved : Prop := item.done = true ∨ item.failed = true

instance : Decidable item.Resolved := inferInstanceAs (Decidable (_ ∨ _))

/-- `_mark_failed`. -/
def markFailed (reason : String) : OfflineItem :=
  { item with failed := true, file := { item.file with error := some reason } }

end OfflineItem

/-- `_offline_status_once`, where it is not `None`. -/
inductive OfflineStatus
  | running
  | done
  | failed
  deriving DecidableEq

/-- What `recover_offline_file` does: it raises when it has found a file and cannot move or rename
it. -/
inductive Recovery
  | none
  | found
  | raised
  deriving DecidableEq

/-- What 123 and 115 answer when the loop looks at a file: whether the listing has it, a suspicious
artifact, the recovery, whether `_mark_done` goes through, and after the deadline the status, a
fresh URL, and the new task or the error of creating one; with the time that goes by before the
deadline is checked and after it. -/
structure Answer where
  elapsed : ℕ
  listed : Bool
  suspicious : Option String
  recovered : Recovery
  finished : Bool
  status : Option OfflineStatus
  freshUrl : Option String
  created : Except String ℕ
  elapsedAfter : ℕ

/-- A slot for the next pending file, and what its submission comes to: the URL and the task, or an
error. -/
structure Submission where
  result : Except String (String × ℕ)
  elapsed : ℕ

/-- What happens in a round: the answers for each item, the slots in the order of asking, and the
time slept beyond `poll_ms`. -/
structure Round where
  answers : ℕ → Answer
  slots : ℕ → Option Submission
  overslept : ℕ

/-! ### A look at a file -/

/-- `_renew_source_url`. -/
def renewSourceUrl (file : File) (freshUrl : Option String) : Except String File :=
  match freshUrl with
  | some fresh => if fresh ≠ "" then .ok { file with sourceUrl := fresh } else stale
  | none => stale
where
  stale : Except String File :=
    if file.sourceUrl ≠ "" then .ok file else .error "没有可用的 115 直链"

/-- The loop after the deadline. -/
def expire (item : OfflineItem) (a : Answer) (now : ℤ) : ℤ × OfflineItem :=
  let status := if item.file.offlineTaskId = 0 then none else a.status
  let later := now + a.elapsedAfter
  if status = some .running ∧ item.file.offlineWaitExtends < OFFLINE_WAIT_EXTEND_MAX then
    (later,
      { item with
        startedMs := later
        file := { item.file with offlineWaitExtends := item.file.offlineWaitExtends + 1 } })
  else if status = some .done then
    (later, item.markFailed
      ("123 离线任务显示下载完成，但目标目录里一直没有出现对应文件（可能落在了别的目录）。" ++
        "请到 123 网页版找到该文件移动到目标目录，重新运行任务即可自动认领"))
  else
    let resubmits := item.file.offlineResubmits
    if resubmits < TRANSFER_OFFLINE_RESUBMIT_MAX then
      let item := { item with file := { item.file with offlineResubmits := resubmits + 1 } }
      match renewSourceUrl item.file a.freshUrl with
      | .error e => (later, item.markFailed ("超时后重新提交失败：" ++ e))
      | .ok file => match a.created with
        | .error e =>
          (later, { item with file }.markFailed ("超时后重新提交失败：" ++ e))
        | .ok id =>
          (later,
            { item with
              startedMs := later
              recreated := item.recreated + 1
              file := { file with offlineTaskId := id } })
    else
      (later, item.markFailed
        ("等待 123 离线完成超时（已自动重新提交 " ++ toString resubmits ++ " 次）"))

/-- The item is past its deadline. -/
def Overdue (c : Config) (item : OfflineItem) (now : ℤ) : Prop :=
  (c.deadlineMs : ℤ) ≤ now - item.startedMs

instance (c : Config) (item : OfflineItem) (now : ℤ) : Decidable (Overdue c item now) :=
  inferInstanceAs (Decidable (_ ≤ _))

/-- The body of the loop over the files in flight, unless it raises. -/
def look (c : Config) (item : OfflineItem) (a : Answer) (before : ℤ) : Option (ℤ × OfflineItem) :=
  let now := before + a.elapsed
  let item := if Overdue c item now then { item with overdue := item.overdue + 1 } else item
  let finish := if a.finished then { item with done := true } else item
  if a.listed then some (now, finish)
  else match a.suspicious with
    | some name => some (now, item.markFailed ("123 离线落盘了疑似错误页文件，已移入回收站：" ++ name))
    | none => match a.recovered with
      | .raised => none
      | .found => some (now, finish)
      | .none => if Overdue c item now then some (expire item a now) else some (now, item)

/-! ### A round -/

structure Manager where
  now : ℤ
  items : List OfflineItem

/-- A file that is queued, or one that was submitted before a restart, with the age of its item. -/
inductive Entry
  | queued (file : File)
  | resumed (file : File) (age : ℕ)

def Entry.item (now : ℤ) : Entry → OfflineItem
  | queued file => { file, startedMs := now }
  | resumed file age => { file, startedMs := now - age, submitted := true }

def newManager (now : ℤ) (entries : List Entry) : Manager := ⟨now, entries.map (Entry.item now)⟩

/-- `submit`. -/
def submit (item : OfflineItem) (s : Submission) (before : ℤ) : ℤ × OfflineItem :=
  if item.file.targetDirOk then
    let now := before + s.elapsed
    match s.result with
    | .error e => (now, item.markFailed e)
    | .ok (url, id) =>
      (now,
        { item with
          submitted := true
          startedMs := now
          file :=
            { item.file with
              sourceUrl := url, offlineTaskId := id, offlineResubmits := 0, error := none } })
  else
    (before, item.markFailed "123 目标目录 ID 不合法，请到设置页检查「123 目标目录 ID」")

/-- `fill`: the pending files in their order, with the files in flight so far. -/
def fill (c : Config) (slots : ℕ → Option Submission) :
    ℕ → ℕ → ℤ → List OfflineItem → ℤ × List OfflineItem
  | _, _, now, [] => (now, [])
  | k, inflight, now, item :: items =>
    if item.Pending then
      if inflight < c.maxInflight then match slots k with
        | none => (now, item :: items)
        | some s =>
          let r := submit item s now
          let rest := fill c slots (k + 1) (if r.2.Inflight then inflight + 1 else inflight) r.1 items
          (rest.1, r.2 :: rest.2)
      else (now, item :: items)
    else
      let rest := fill c slots k inflight now items
      (rest.1, item :: rest.2)

/-- The loop over the files in flight, unless it raises. -/
def lookAll (c : Config) (answers : ℕ → Answer) :
    ℕ → ℤ → List OfflineItem → Option (ℤ × List OfflineItem)
  | _, now, [] => some (now, [])
  | i, now, item :: items =>
    if item.Inflight then
      (look c item (answers i) now).bind fun r =>
        (lookAll c answers (i + 1) r.1 items).map fun rest => (rest.1, r.2 :: rest.2)
    else (lookAll c answers (i + 1) now items).map fun rest => (rest.1, item :: rest.2)

namespace Manager

variable (c : Config) (m : Manager)

/-- `fill` from the files that are in flight. -/
def fillSlots (slots : ℕ → Option Submission) : Manager :=
  let r := fill c slots 0 (m.items.countP fun item => item.Inflight) m.now m.items
  ⟨r.1, r.2⟩

/-- Nothing is unresolved. -/
def Finished : Prop := ∀ item ∈ m.items, item.Resolved

instance : Decidable m.Finished := inferInstanceAs (Decidable (∀ item ∈ m.items, _))

/-- A turn of `while True`; the loop is left when nothing is unresolved. -/
def round (r : Round) : Option Manager :=
  if m.Finished then some m
  else (lookAll c r.answers 0 m.now m.items).map fun looked =>
    let filled := Manager.fillSlots c ⟨looked.1, looked.2⟩ r.slots
    { filled with now := filled.now + c.pollMs + r.overslept }

def rounds (m : Manager) : List Round → Option Manager
  | [] => some m
  | r :: rs => (m.round c r).bind fun m => m.rounds rs

/-- `wait_all` up to some turn of its loop. -/
def waitAll (slots : ℕ → Option Submission) (rs : List Round) : Option Manager :=
  (m.fillSlots c slots).rounds c rs

end Manager

end AllInOneBackup.Cloud123.OfflineWait
