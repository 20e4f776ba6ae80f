import Mathlib.Algebra.Order.Ring.Int
import Mathlib.Tactic.Common

/-! Files written through a FUSE mount. They are staged in a temporary file, the first `Flush` makes
the upload task with the size that the file has then, and `Release` leaves the file to the task. The
task starts within that `Flush` and reads the file when it likes, while a write still goes into the
file: it is too late for the size, and may be too late for what is read. -/

namespace AllInOneBackup.LitePan.FuseStaging

/-! ### `write_support.go` -/

inductive Errno
  | EBADF
  | other (n : ℕ)
  deriving DecidableEq

/-- The `stagingFile`. -/
structure Node where
  name : String
  size : ℤ := 0
  parentID : String
  displayPath : String
  taskID : Option String := none
  deriving DecidableEq

structure CreateParams where
  accountID : ℤ
  fileName : String
  displayName : String
  targetPath : String
  targetDisplayPath : String
  localPath : String
  totalBytes : ℤ
  conflictPolicy : String
  deriving DecidableEq

/-- The `stagingUploadHandle`; `hasFile`, `hasCleanup` and `hasUntrack` say that these are not nil,
`readOnly` what `flags` say. -/
structure Handle where
  node : Option Node
  accountID : ℤ
  parentID : String
  targetDisplayPath : String
  fileName : String
  tempPath : String
  readOnly : Bool
  hasFile : Bool := true
  hasCleanup : Bool := true
  hasUntrack : Bool := true
  queued : Bool := false
  released : Bool := false
  deriving DecidableEq

/-- What an upload has read: up to `n` bytes at an offset. -/
structure Read where
  off : ℕ
  n : ℕ
  data : List UInt8
  deriving DecidableEq

/-- A handle, the temporary file and whether its name is still there, the tasks that have been
created, and what they have read of it. -/
structure State where
  handle : Handle
  temp : List UInt8 := []
  linked : Bool := true
  tasks : List CreateParams := []
  reads : List Read := []
  deriving DecidableEq

/-- `file.WriteAt`: what is missing before the offset is filled with zeros. -/
def writeAt (content : List UInt8) (off : ℕ) (data : List UInt8) : List UInt8 :=
  if data = [] then content
  else
    content.take off ++ List.replicate (off - content.length) 0 ++ data ++
      content.drop (off + data.length)

/-- `cloudDir.Create`, where nothing fails. -/
def create (accountID : ℤ) (name parentID displayPath tempPath : String) (readOnly : Bool) : State where
  handle :=
    { node := some { name, parentID, displayPath }
      accountID, parentID
      targetDisplayPath := displayPath
      fileName := name
      tempPath, readOnly }

def Node.updateSize (node : Node) (size : ℤ) : Node :=
  if size > node.size then { node with size } else node

/-- `Write`, where `file.WriteAt` writes `n` bytes and returns `err`. -/
def State.write (s : State) (data : List UInt8) (off n : ℕ) (err : Option Errno) :
    State × ℕ × Option Errno :=
  if ¬s.handle.hasFile then (s, 0, some .EBADF)
  else
    let written := data.take n
    let node := if written.length > 0 then
        s.handle.node.map (·.updateSize (off + written.length))
      else s.handle.node
    ({ s with
        handle := { s.handle with node }
        temp := writeAt s.temp off written }, written.length, err)

/-- `x`, or `y` where it is empty. -/
def orElse (x y : String) : String := if x = "" then y else x

/-- `Flush`, with what `Sync`, `Stat` and `Create` return. -/
def State.flush (s : State) (sync stat : Option Errno) (create : Except Errno String) :
    State × Option Errno :=
  let h := s.handle
  if h.queued then (s, none)
  else if ¬h.hasFile then (s, some .EBADF)
  else if h.readOnly then (s, some .EBADF)
  else match sync, stat with
    | some err, _ => (s, some err)
    | none, some err => (s, some err)
    | none, none =>
      let size : ℤ := s.temp.length
      let node := h.node.map fun node => { node with size }
      let fileName := orElse (node.elim h.fileName Node.name) h.fileName
      let parentID := orElse (node.elim h.parentID Node.parentID) h.parentID
      let displayPath := orElse (node.elim h.targetDisplayPath Node.displayPath) h.targetDisplayPath
      match create with
      | .error err => ({ s with handle := { h with node } }, some err)
      | .ok taskID =>
        let task : CreateParams :=
          { accountID := h.accountID
            fileName
            displayName := fileName
            targetPath := parentID
            targetDisplayPath := displayPath
            localPath := h.tempPath
            totalBytes := size
            conflictPolicy := "overwrite" }
        ({ s with
            handle :=
              { h with
                node := node.map fun node => { node with taskID := some taskID }
                queued := true
                hasUntrack := false }
            tasks := s.tasks ++ [task] }, none)

/-- `Release`; `cleanup` removes the temporary file. -/
def State.release (s : State) : State :=
  let h := s.handle
  if h.released then s
  else
    let clean : Bool := ¬h.queued ∧ h.hasCleanup
    { s with
      handle :=
        { h with
          released := true
          hasFile := false
          hasCleanup := h.hasCleanup && !clean }
      linked := s.linked && !clean }

inductive Call
  | write (data : List UInt8) (off n : ℕ) (err : Option Errno)
  | flush (sync stat : Option Errno) (create : Except Errno String)

def State.after (s : State) : Call → State
  | .write data off n err => (s.write data off n err).1
  | .flush sync stat create => (s.flush sync stat create).1

def State.run (s : State) (calls : List Call) : State := calls.foldl State.after s

/-- A call, or what the goroutine of the task does: it reads the file behind `LocalPath`, and removes
it when it has succeeded. -/
inductive Step
  | call (call : Call)
  | read (off n : ℕ)
  | remove

def readAt (content : List UInt8) (off n : ℕ) : List UInt8 := (content.drop off).take n

def State.step (s : State) : Step → Option State
  | .call call => some (s.after call)
  | .read off n =>
    if s.tasks ≠ [] ∧ s.linked then
      some { s with reads := s.reads ++ [⟨off, n, readAt s.temp off n⟩] }
    else none
  | .remove => if s.tasks ≠ [] ∧ s.linked then some { s with linked := false } else none

def State.steps (s : State) : List Step → Option State
  | [] => some s
  | step :: rest => (s.step step).bind fun s => s.steps rest

def Step.call? : Step → Option Call
  | .call c => some c
  | .read _ _ | .remove => none

/-! ### What the task should describe, and when it does -/

/-- The bytes that a write accepts, and where. -/
def Call.accepted : Call → Option (ℕ × List UInt8)
  | .write data off n _ => if data.take n = [] then none else some (off, data.take n)
  | .flush _ _ _ => none

/-- What a file is after writes. -/
def content (writes : List (ℕ × List UInt8)) : List UInt8 :=
  writes.foldl (fun c w => writeAt c w.1 w.2) []

/-- The task uploads the temporary file: that is what the writes make of it, all that the task has
read of it is as it ends, and the size has all bytes of the writes. -/
structure Describes (s : State) (writes : List (ℕ × List UInt8)) (task : CreateParams) : Prop where
  path : task.localPath = s.handle.tempPath
  file : s.temp = content writes
  reads : ∀ r ∈ s.reads, r.data = readAt (content writes) r.off r.n
  inside : ∀ w ∈ writes, ((w.1 + w.2.length : ℕ) : ℤ) ≤ task.totalBytes
  total : task.totalBytes = (content writes).length

/-- However the task comes in between the calls, there is one, and it describes the file that is left
by `Release`. -/
def Complete (s : State) (calls : List Call) : Prop :=
  ∀ steps s', steps.filterMap Step.call? = calls → s.steps steps = some s' →
    ∃ task, s'.release.tasks = [task] ∧
      Describes s'.release (calls.filterMap Call.accepted) task

/-- A write after the task has been made leaves the file as it is. -/
def Unchanged (s : State) (call : Call) : Prop :=
  s.handle.queued → ∀ w ∈ call.accepted, writeAt s.temp w.1 w.2 = s.temp

instance (s : State) (call : Call) : Decidable (Unchanged s call) :=
  inferInstanceAs (Decidable (_ → _))

/-- `P` holds of every call, in the state before it. -/
def EveryCall (P : State → Call → Prop) (s : State) : List Call → Prop
  | [] => True
  | call :: calls => P s call ∧ EveryCall P (s.after call) calls

/-- A `Flush` among the calls returns no error. -/
def SomeFlush (s : State) : List Call → Prop
  | [] => False
  | .write data off n err :: calls => SomeFlush (s.after (.write data off n err)) calls
  | .flush sync stat create :: calls => (s.flush sync stat create).2 = none ∨
      SomeFlush (s.after (.flush sync stat create)) calls

/-! ### Proofs -/

theorem length_writeAt {c data : List UInt8} (off : ℕ) (hdata : data ≠ []) :
    (writeAt c off data).length = max c.length (off + data.length) := by
  simp only [writeAt, if_neg hdata, List.length_append, List.length_take, List.length_replicate,
    List.length_drop]
  omega

theorem readAt_zero {content : List UInt8} {n : ℕ} (h : content.length ≤ n) :
    readAt content 0 n = content := List.take_of_length_le (by simpa using h)

/-- Between its creation and its release a handle has its file, and a task once it is queued. -/
structure Sound (s : State) (writes : List (ℕ × List UInt8)) : Prop where
  hasFile : s.handle.hasFile = true
  released : s.handle.released = false
  temp : s.temp = content writes
  inside : ∀ w ∈ writes, w.1 + w.2.length ≤ (content writes).length
  unqueued : s.handle.queued = false → s.tasks = []
  queued : s.handle.queued = true → ∃ t, s.tasks = [t] ∧ t.localPath = s.handle.tempPath

section Calls

variable {s s' : State} {writes : List (ℕ × List UInt8)} {calls : List Call}

theorem content_concat (writes : List (ℕ × List UInt8)) (w : ℕ × List UInt8) :
    content (writes ++ [w]) = writeAt (content writes) w.1 w.2 := by
  rw [content, List.foldl_append]
  rfl

/-- All that a flush can be. -/
theorem flush_cases (s : State) (sync stat : Option Errno) (create : Except Errno String) :
    (s.handle.queued = true ∧ s.flush sync stat create = (s, none)) ∨
    (s.handle.queued = false ∧ (s.flush sync stat create).2 ≠ none ∧
      ∃ node, (s.flush sync stat create).1 = { s with handle := { s.handle with node } }) ∨
    (s.handle.queued = false ∧ (s.flush sync stat create).2 = none ∧
      ∃ node task, (s.flush sync stat create).1 =
        { s with
          handle := { s.handle with node, queued := true, hasUntrack := false }
          tasks := s.tasks ++ [task] } ∧
        task.localPath = s.handle.tempPath ∧ task.totalBytes = s.temp.length) := by
  cases hqueued : s.handle.queued with
  | true => exact .inl ⟨rfl, by simp [State.flush, hqueued]⟩
  | false =>
    right
    have hfail : ∀ err, s.flush sync stat create = (s, some err) →
        (s.flush sync stat create).2 ≠ none ∧ ∃ node, (s.flush sync stat create).1 =
          { s with handle := { s.handle with node } } := by
      intro err h
      rw [h]
      exact ⟨by simp, s.handle.node, rfl⟩
    by_cases hfile : s.handle.hasFile = true
    · by_cases hread : s.handle.readOnly = true
      · exact .inl ⟨rfl, hfail .EBADF (by simp [State.flush, hqueued, hfile, hread])⟩
      · cases sync with
        | some err => exact .inl ⟨rfl, hfail err (by simp [State.flush, hqueued, hfile, hread])⟩
        | none =>
          cases stat with
          | some err => exact .inl ⟨rfl, hfail err (by simp [State.flush, hqueued, hfile, hread])⟩
          | none =>
            cases create with
            | error err =>
              refine .inl ⟨rfl, by simp [State.flush, hqueued, hfile, hread],
                s.handle.node.map fun node => { node with size := s.temp.length }, ?_⟩
              rw [State.flush]
              simp only
              rw [if_neg (by simp [hqueued]), if_neg (by simp [hfile]), if_neg hread]
            | ok taskID =>
              refine .inr ⟨rfl, by simp [State.flush, hqueued, hfile, hread], ?_⟩
              rw [State.flush]
              simp only
              rw [if_neg (by simp [hqueued]), if_neg (by simp [hfile]), if_neg hread]
              exact ⟨_, _, rfl, rfl, rfl⟩
    · exact .inl ⟨rfl, hfail .EBADF (by simp [State.flush, hqueued, hfile])⟩

/-- A write of a handle that has its file. -/
theorem write_eq (data : List UInt8) (off n : ℕ) (err : Option Errno) (hfile : s.handle.hasFile = true) :
    ∃ node, (s.write data off n err).1 =
      { s with handle := { s.handle with node }, temp := writeAt s.temp off (data.take n) } := by
  rw [State.write, if_neg (by simp [hfile])]
  exact ⟨_, rfl⟩

theorem sound_create (accountID : ℤ) (name parentID displayPath tempPath : String) (readOnly : Bool) :
    Sound (create accountID name parentID displayPath tempPath readOnly) [] where
  hasFile := rfl
  released := rfl
  temp := rfl
  inside := by simp
  unqueued := fun _ => rfl
  queued := fun h => by cases h

/-- What a write accepts is in the file then. -/
theorem Sound.write (h : Sound s writes) (data : List UInt8) (off n : ℕ) (err : Option Errno) :
    Sound (s.write data off n err).1 (writes ++ (Call.write data off n err).accepted.toList) := by
  obtain ⟨node, hnode⟩ := write_eq data off n err h.hasFile
  rw [hnode]
  by_cases hdata : data.take n = []
  · have hsame : writeAt s.temp off (data.take n) = s.temp := by rw [writeAt, if_pos hdata]
    rw [Call.accepted, if_pos hdata, Option.toList_none, List.append_nil, hsame]
    exact ⟨h.hasFile, h.released, h.temp, h.inside, h.unqueued, h.queued⟩
  · rw [Call.accepted, if_neg hdata, Option.toList_some]
    have hlength := length_writeAt (c := content writes) off hdata
    have hconcat := content_concat writes (off, data.take n)
    simp only at hconcat
    refine ⟨h.hasFile, h.released, ?_, ?_, h.unqueued, h.queued⟩
    · simp only [h.temp, hconcat]
    · intro w hw
      rw [hconcat, hlength]
      rcases List.mem_append.mp hw with hw | hw
      · exact (h.inside w hw).trans (Nat.le_max_left _ _)
      · rw [List.mem_singleton.mp hw]
        exact Nat.le_max_right _ _

theorem Sound.flush (h : Sound s writes) (sync stat : Option Errno) (create : Except Errno String) :
    Sound (s.flush sync stat create).1 writes := by
  rcases flush_cases s sync stat create with ⟨-, heq⟩ | ⟨hqueued, -, node, heq⟩ |
    ⟨hqueued, -, node, task, heq, hpath, -⟩
  · rw [heq]
    exact h
  · rw [heq]
    exact ⟨h.hasFile, h.released, h.temp, h.inside, h.unqueued, h.queued⟩
  · rw [heq]
    refine ⟨h.hasFile, h.released, h.temp, h.inside, fun hq => absurd hq (by simp), fun _ => ?_⟩
    exact ⟨task, by simp only [h.unqueued hqueued, List.nil_append], hpath⟩

/-- What a call accepts goes behind the writes. -/
theorem Sound.after (h : Sound s writes) (call : Call) :
    Sound (s.after call) (writes ++ call.accepted.toList) := by
  cases call with
  | write data off n err => exact h.write data off n err
  | flush sync stat create =>
    rw [Call.accepted, Option.toList_none, List.append_nil]
    exact h.flush sync stat create

theorem filterMap_cons_toList (call : Call) (calls : List Call) :
    (call :: calls).filterMap Call.accepted =
      call.accepted.toList ++ calls.filterMap Call.accepted := by
  rw [List.filterMap_cons]
  cases call.accepted <;> rfl

theorem sound_run (h : Sound s writes) (calls : List Call) :
    Sound (s.run calls) (writes ++ calls.filterMap Call.accepted) := by
  induction calls generalizing s writes with
  | nil => rwa [List.filterMap_nil, List.append_nil]
  | cons call calls ih =>
    rw [filterMap_cons_toList, ← List.append_assoc]
    exact ih (h.after call)

/-- The task has the size of the file, and has read of it what is there. -/
structure Right (s : State) (writes : List (ℕ × List UInt8)) : Prop extends Sound s writes where
  total : ∀ t ∈ s.tasks, t.totalBytes = s.temp.length
  unread : s.tasks = [] → s.reads = []
  reads : ∀ r ∈ s.reads, r.data = readAt s.temp r.off r.n

/-- A call keeps that, unless it changes the file under the task. -/
theorem Right.after (h : Right s writes) {call : Call} (hcall : Unchanged s call) :
    Right (s.after call) (writes ++ call.accepted.toList) := by
  have hsound := h.toSound.after call
  cases call with
  | write data off n err =>
    obtain ⟨node, hnode⟩ := write_eq data off n err h.hasFile
    have hsame : s.tasks ≠ [] → writeAt s.temp off (data.take n) = s.temp := by
      intro htasks
      have hqueued : s.handle.queued = true := by
        by_contra hnot
        exact htasks (h.unqueued (Bool.eq_false_iff.mpr hnot))
      by_cases hdata : data.take n = []
      · rw [writeAt, if_pos hdata]
      · exact hcall hqueued (off, data.take n) (by rw [Call.accepted, if_neg hdata]; rfl)
    rw [State.after, hnode] at hsound ⊢
    refine ⟨hsound, fun t ht => ?_, h.unread, fun r hr => ?_⟩
    · rw [h.total t ht, hsame (List.ne_nil_of_mem ht)]
    · rw [h.reads r hr, hsame fun hnil => absurd (h.unread hnil) (List.ne_nil_of_mem hr)]
  | flush sync stat create =>
    rcases flush_cases s sync stat create with ⟨-, heq⟩ | ⟨-, -, node, heq⟩ |
      ⟨hqueued, -, node, task, heq, -, htotal⟩
    · rw [State.after, heq] at hsound ⊢
      exact ⟨hsound, h.total, h.unread, h.reads⟩
    · rw [State.after, heq] at hsound ⊢
      exact ⟨hsound, h.total, h.unread, h.reads⟩
    · rw [State.after, heq] at hsound ⊢
      refine ⟨hsound, fun t ht => ?_, fun hnil => absurd hnil (by simp), h.reads⟩
      simp only [h.unqueued hqueued, List.nil_append, List.mem_singleton] at ht
      rw [ht, htotal]

/-! ### The goroutine of the task in between -/

/-- What the calls see of a state. -/
def State.core (s : State) : State := { s with linked := true, reads := [] }

theorem core_after (s : State) (call : Call) : (s.after call).core = s.core.after call := by
  cases call with
  | write data off n err =>
    by_cases hfile : s.handle.hasFile = true <;> simp [State.after, State.write, State.core, hfile]
  | flush sync stat create =>
    by_cases hqueued : s.handle.queued = true
    · simp [State.after, State.flush, State.core, hqueued]
    · by_cases hfile : s.handle.hasFile = true
      · by_cases hread : s.handle.readOnly = true
        · simp [State.after, State.flush, State.core, hqueued, hfile, hread]
        · cases sync <;> cases stat <;> cases create <;>
            simp [State.after, State.flush, State.core, hqueued, hfile, hread]
      · simp [State.after, State.flush, State.core, hqueued, hfile]

theorem everyCall_core (s : State) (calls : List Call) :
    EveryCall Unchanged s calls ↔ EveryCall Unchanged s.core calls := by
  induction calls generalizing s with
  | nil => exact Iff.rfl
  | cons call calls ih =>
    rw [EveryCall, EveryCall, ih, core_after]
    exact Iff.rfl

/-- The task in between makes no difference to what the calls do. -/
theorem core_steps {steps : List Step} (h : s.steps steps = some s') :
    s'.core = s.core.run (steps.filterMap Step.call?) := by
  induction steps generalizing s with
  | nil =>
    cases h
    rfl
  | cons step steps ih =>
    obtain ⟨t, ht, h⟩ := Option.bind_eq_some_iff.mp h
    rw [ih h]
    cases step with
    | call c =>
      cases ht
      rw [core_after]
      rfl
    | read off n =>
      cases (Option.ite_none_right_eq_some.mp ht).2
      rfl
    | remove =>
      cases (Option.ite_none_right_eq_some.mp ht).2
      rfl

theorem right_steps (h : Right s writes) {steps : List Step} (hs : s.steps steps = some s')
    (hcalls : EveryCall Unchanged s (steps.filterMap Step.call?)) :
    Right s' (writes ++ (steps.filterMap Step.call?).filterMap Call.accepted) := by
  induction steps generalizing s writes with
  | nil =>
    cases hs
    simpa using h
  | cons step steps ih =>
    obtain ⟨t, ht, hs⟩ := Option.bind_eq_some_iff.mp hs
    cases step with
    | call c =>
      cases ht
      obtain ⟨hcall, hrest⟩ := hcalls
      have hright := ih (h.after hcall) hs hrest
      rw [List.append_assoc, ← filterMap_cons_toList] at hright
      exact hright
    | read off n =>
      obtain ⟨⟨htasks, -⟩, ht⟩ := Option.ite_none_right_eq_some.mp ht
      cases ht
      have hreads : ∀ r ∈ s.reads ++ [⟨off, n, readAt s.temp off n⟩],
          r.data = readAt s.temp r.off r.n := by
        intro r hr
        rcases List.mem_append.mp hr with hr | hr
        · exact h.reads r hr
        · rw [List.mem_singleton.mp hr]
      have hright : Right { s with reads := s.reads ++ [⟨off, n, readAt s.temp off n⟩] } writes :=
        ⟨⟨h.hasFile, h.released, h.temp, h.inside, h.unqueued, h.queued⟩, h.total,
          fun hnil => absurd hnil htasks, hreads⟩
      refine ih hright hs ?_
      rwa [everyCall_core] at hcalls ⊢
    | remove =>
      cases (Option.ite_none_right_eq_some.mp ht).2
      have hright : Right { s with linked := false } writes :=
        ⟨⟨h.hasFile, h.released, h.temp, h.inside, h.unqueued, h.queued⟩, h.total, h.unread, h.reads⟩
      refine ih hright hs ?_
      rwa [everyCall_core] at hcalls ⊢

/-! ### When the task describes the file -/

theorem queued_after (h : s.handle.queued = true) (call : Call) :
    (s.after call).handle.queued = true := by
  cases call with
  | write data off n err =>
    simp only [State.after, State.write]
    split_ifs <;> exact h
  | flush sync stat create => simp only [State.after, State.flush, h, if_true]

theorem queued_run (h : s.handle.queued = true) (calls : List Call) :
    (s.run calls).handle.queued = true := by
  induction calls generalizing s with
  | nil => exact h
  | cons call calls ih => exact ih (queued_after h call)

/-- The first flush that returns no error makes the task. -/
theorem someFlush_run (hflush : SomeFlush s calls) : (s.run calls).handle.queued = true := by
  induction calls generalizing s with
  | nil => exact absurd hflush id
  | cons call calls ih =>
    cases call with
    | write data off n err => exact ih hflush
    | flush sync stat create =>
      obtain hnone | hrest := hflush
      · rcases flush_cases s sync stat create with ⟨hq, -⟩ | ⟨-, herr, -⟩ | ⟨-, -, node, task, heq, -⟩
        · exact queued_run (queued_after hq _) calls
        · exact absurd hnone herr
        · refine queued_run (s := s.after (.flush sync stat create)) ?_ calls
          rw [State.after, heq]
      · exact ih hrest

theorem kept_after (s : State) (call : Call) :
    (s.after call).linked = s.linked ∧ (s.after call).reads = s.reads := by
  cases call with
  | write data off n err =>
    simp only [State.after, State.write]
    split_ifs <;> exact ⟨rfl, rfl⟩
  | flush sync stat create =>
    rcases flush_cases s sync stat create with ⟨-, heq⟩ | ⟨-, -, node, heq⟩ |
      ⟨-, -, node, task, heq, -⟩ <;> rw [State.after, heq] <;> exact ⟨rfl, rfl⟩

theorem kept_run (s : State) (calls : List Call) :
    (s.run calls).linked = s.linked ∧ (s.run calls).reads = s.reads := by
  induction calls generalizing s with
  | nil => exact ⟨rfl, rfl⟩
  | cons call calls ih =>
    obtain ⟨hlinked, hreads⟩ := ih (s.after call)
    obtain ⟨hlinked', hreads'⟩ := kept_after s call
    exact ⟨hlinked.trans hlinked', hreads.trans hreads'⟩

theorem steps_append (s : State) (steps rest : List Step) :
    s.steps (steps ++ rest) = (s.steps steps).bind fun s => s.steps rest := by
  induction steps generalizing s with
  | nil => rfl
  | cons step steps ih => simp only [List.cons_append, State.steps, ih, Option.bind_assoc]

theorem steps_calls (s : State) (calls : List Call) :
    s.steps (calls.map .call) = some (s.run calls) := by
  induction calls generalizing s with
  | nil => rfl
  | cons call calls ih => exact ih (s.after call)

theorem filterMap_calls (calls : List Call) :
    (calls.map Step.call).filterMap Step.call? = calls := by
  rw [List.filterMap_map]
  exact List.filterMap_some

theorem everyCall_of_splits {P : State → Call → Prop}
    (h : ∀ before call after, calls = before ++ call :: after → P (s.run before) call) :
    EveryCall P s calls := by
  induction calls generalizing s with
  | nil => trivial
  | cons call calls ih =>
    refine ⟨h [] call calls rfl, ih fun before call' after heq => ?_⟩
    exact h (call :: before) call' after (by rw [heq]; rfl)

theorem reads_release (s : State) : s.release.reads = s.reads := by
  unfold State.release
  simp only
  split_ifs <;> rfl

/-- The task may read the whole file at any time once it is there, and then reads the one that is
left. -/
theorem temp_eq_of_complete (hs : Sound s []) (hlinked : s.linked = true) (h : Complete s calls)
    {before after : List Call} (heq : calls = before ++ after)
    (hqueued : (s.run before).handle.queued = true) :
    (s.run before).temp = content (calls.filterMap Call.accepted) := by
  obtain ⟨t, htasks, -⟩ := (sound_run hs before).queued hqueued
  let n := max (s.run before).temp.length (content (calls.filterMap Call.accepted)).length
  let r : Read := ⟨0, n, readAt (s.run before).temp 0 n⟩
  let s₁ : State := { s.run before with reads := (s.run before).reads ++ [r] }
  have hread : (s.run before).step (.read 0 n) = some s₁ := by
    rw [State.step, if_pos ⟨by rw [htasks]; simp, (kept_run s before).1.trans hlinked⟩]
  have hsteps : s.steps (before.map .call ++ .read 0 n :: after.map .call) =
      some (s₁.run after) := by
    rw [steps_append, steps_calls, Option.bind_some, State.steps, hread, Option.bind_some,
      steps_calls]
  have hcalls : (before.map Step.call ++ Step.read 0 n :: after.map .call).filterMap Step.call? =
      calls := by
    rw [List.filterMap_append, List.filterMap_cons_none rfl, filterMap_calls, filterMap_calls, heq]
  obtain ⟨task, -, hdescribes⟩ := h _ _ hcalls hsteps
  have hmem : r ∈ (s₁.run after).release.reads := by
    rw [reads_release, (kept_run s₁ after).2]
    exact List.mem_append_right _ List.mem_cons_self
  have hdata := hdescribes.reads r hmem
  calc
    (s.run before).temp = readAt (s.run before).temp 0 n := (readAt_zero (Nat.le_max_left _ _)).symm
    _ = readAt (content (calls.filterMap Call.accepted)) 0 n := hdata
    _ = content (calls.filterMap Call.accepted) := readAt_zero (Nat.le_max_right _ _)

theorem everyCall_of_complete (hs : Sound s []) (hlinked : s.linked = true)
    (h : Complete s calls) : EveryCall Unchanged s calls := by
  refine everyCall_of_splits fun before call after heq hqueued w hw => ?_
  have hbefore := temp_eq_of_complete hs hlinked h heq hqueued
  have hafter := @temp_eq_of_complete _ _ hs hlinked h (before ++ [call]) after
    (by rw [heq, List.append_assoc]; rfl)
    (by rw [State.run, List.foldl_append]; exact queued_after hqueued call)
  cases call with
  | flush sync stat create => cases hw
  | write data off n err =>
    rw [Call.accepted] at hw
    split_ifs at hw
    · cases hw
    obtain rfl := Option.mem_some_iff.mp hw
    obtain ⟨node, hnode⟩ := write_eq data off n err (sound_run hs before).hasFile
    have htemp : (s.run (before ++ [.write data off n err])).temp =
        writeAt (s.run before).temp off (data.take n) := by
      rw [State.run, List.foldl_append]
      exact congrArg State.temp hnode
    rw [← htemp, hafter, hbefore]

/-- However the task comes in between, it describes the file that is left if and only if no write
after the first flush that succeeds changes the file. -/
theorem staged_complete_iff (accountID : ℤ) (name parentID displayPath tempPath : String)
    (readOnly : Bool)
    (hflush : SomeFlush (create accountID name parentID displayPath tempPath readOnly) calls) :
    Complete (create accountID name parentID displayPath tempPath readOnly) calls ↔
      EveryCall Unchanged (create accountID name parentID displayPath tempPath readOnly) calls := by
  have hnew := sound_create accountID name parentID displayPath tempPath readOnly
  refine ⟨everyCall_of_complete hnew rfl, fun hcalls steps s' hsteps hs' => ?_⟩
  subst hsteps
  have hright := right_steps ⟨hnew, nofun, fun _ => rfl, nofun⟩ hs' hcalls
  rw [List.nil_append] at hright
  have hqueued : s'.handle.queued = true := by
    have hcore := congrArg (fun s => s.handle.queued) (core_steps hs')
    exact hcore.trans (someFlush_run hflush)
  obtain ⟨task, htasks, hpath⟩ := hright.queued hqueued
  have hrelease : s'.release = { s' with
      handle := { s'.handle with released := true, hasFile := false } } := by
    rw [State.release]
    simp [hright.released, hqueued]
  have htotal := hright.total task (by rw [htasks]; exact List.mem_singleton_self task)
  rw [hright.temp] at htotal
  refine ⟨task, by rw [hrelease, htasks], ?_⟩
  rw [hrelease]
  refine ⟨hpath, hright.temp, fun r hr => ?_, fun w hw => ?_, htotal⟩
  · rw [hright.reads r hr, hright.temp]
  · rw [htotal]
    exact Int.ofNat_le.mpr (hright.inside w hw)

end Calls

/-- A write of two bytes, its flush, the second byte once more, and the flush of a duplicate. -/
def sameAgain : List Call :=
  [.write [1, 2] 0 2 none, .flush none none (.ok "1"), .write [2] 1 1 none,
    .flush none none (.ok "1")]

theorem staged_complete_same : Complete (create 1 "a" "0" "" "/tmp/a" false) sameAgain :=
  (staged_complete_iff 1 "a" "0" "" "/tmp/a" false
    (show SomeFlush _ sameAgain from Or.inl rfl)).mpr
      ⟨by decide, by decide, by decide, by decide, trivial⟩

/-- A byte is written behind the end once the task has been made; and one over a byte that the task
has read. -/
theorem late_write_lost :
    ¬Complete (create 1 "a" "0" "" "/tmp/a" false)
      [.write [1, 2] 0 2 none, .flush none none (.ok "1"), .write [3] 2 1 none,
        .flush none none (.ok "1")] ∧
    ¬Complete (create 1 "a" "0" "" "/tmp/a" false)
      [.write [1, 2] 0 2 none, .flush none none (.ok "1"), .write [9] 0 1 none,
        .flush none none (.ok "1")] := by
  constructor
  · intro h
    obtain ⟨task, htasks, hdescribes⟩ := h
      [.call (.write [1, 2] 0 2 none), .call (.flush none none (.ok "1")),
        .call (.write [3] 2 1 none), .call (.flush none none (.ok "1"))] _ rfl rfl
    cases htasks
    exact absurd hdescribes.total (by decide)
  · intro h
    obtain ⟨task, htasks, hdescribes⟩ := h
      [.call (.write [1, 2] 0 2 none), .call (.flush none none (.ok "1")), .read 0 2,
        .call (.write [9] 0 1 none), .call (.flush none none (.ok "1"))] _ rfl rfl
    exact absurd (hdescribes.reads ⟨0, 2, [1, 2]⟩ (by decide)) (by decide)

end AllInOneBackup.LitePan.FuseStaging
