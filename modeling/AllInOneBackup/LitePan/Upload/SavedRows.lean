import AllInOneBackup.LitePan.Upload.Persist

/-! The row of a task and the task. As long as no record is written after a newer one of its task, or
after the row has been deleted, the row of a task that nobody is at work on has the newest record
taken of it, and a deleted task has no row. `persistTask` writes outside the section in which it takes
the record, so nothing keeps the writes in this order. -/

namespace AllInOneBackup.LitePan.Upload.Persist

open Concurrency

variable {K I : Type} [DecidableEq K]

/-! ### What is to hold -/

/-- The records taken of a task, in order, with their numbers. -/
def Event.snapshot? (taskID : K) : Event K I → Option (ℕ × UploadTaskRecord I)
  | .snapshot id snap record => if id = taskID then some (snap, record) else none
  | _ => none

def snapshots (trace : List (Event K I)) (taskID : K) : List (ℕ × UploadTaskRecord I) :=
  trace.filterMap (Event.snapshot? taskID)

/-- What the row of a task should have; `rows` is what the process found when it started. -/
def lastSaved (rows : AList (fun _ : K => UploadTaskRecord I)) (trace : List (Event K I))
    (taskID : K) : Option (UploadTaskRecord I) :=
  ((snapshots trace taskID).getLast?.map Prod.snd).or (rows.lookup taskID)

namespace Next

def concerns (taskID : K) : Next K → Prop
  | .persist taskIDs => taskID ∈ taskIDs
  | .flush taskIDs => taskID ∈ taskIDs
  | .await id _ => id = taskID

instance (taskID : K) (next : Next K) : Decidable (next.concerns taskID) := by
  cases next <;> unfold concerns <;> infer_instance

end Next

namespace Caller

/-- The caller has still to do with the task. -/
def concerns (taskID : K) : Caller K I → Prop
  | .flushing id rest => id = taskID ∨ taskID ∈ rest
  | .flushed id rest => id = taskID ∨ taskID ∈ rest
  | .persisting id next => id = taskID ∨ next.concerns taskID
  | .upserting id _ _ next => id = taskID ∨ next.concerns taskID
  | .resuming id _ => id = taskID
  | .removing id => id = taskID
  | .stopping id => id = taskID
  | .awaiting id _ => id = taskID
  | .popping id => id = taskID
  | .deleting id => id = taskID
  | .ended => False

instance (taskID : K) (c : Caller K I) : Decidable (c.concerns taskID) := by
  cases c <;> unfold concerns <;> infer_instance

end Caller

/-- A task that has been deleted has no row, and one that is there has the record last taken of it
in its row, when all that was to be done with it has been done. -/
def RowsAgree (rows : AList (fun _ : K => UploadTaskRecord I)) (p : PersistPool K I) : Prop :=
  ∀ taskID, (∀ c ∈ p.tasks, ¬c.concerns taskID) →
    (taskID ∈ p.shared.removed → p.shared.rows.lookup taskID = none) ∧
    (taskID ∈ p.shared.tasks → p.shared.rows.lookup taskID = lastSaved rows p.trace taskID)

/-- What has been done to the row of a task does not come after the write of a record. -/
def Event.before (taskID : K) (snap : ℕ) : Event K I → Prop
  | .snapshot .. => True
  | .upserted id snap' => id = taskID → snap' < snap
  | .deleted id => id ≠ taskID

instance (taskID : K) (snap : ℕ) (e : Event K I) : Decidable (e.before taskID snap) := by
  cases e <;> unfold Event.before <;> infer_instance

/-- The step writes a record neither after a newer one of the task nor after the deletion of its
row. -/
def WritesInOrder (p : PersistPool K I) : Action Outcome (Call K I) → Prop
  | .resume i _ => match p.tasks[i]? with
    | some (.upserting taskID snap _ _) => ∀ e ∈ p.trace, e.before taskID snap
    | _ => True
  | .event _ => True

instance (p : PersistPool K I) (a : Action Outcome (Call K I)) : Decidable (WritesInOrder p a) := by
  unfold WritesInOrder
  split
  · split <;> infer_instance
  · infer_instance

/-! ### What a step does -/

/-- The caller is between the section of `persistTask` or of `popTask` and what it does to the
row. -/
def Caller.isWriting : Caller K I → Bool
  | .upserting .. => true
  | .deleting _ => true
  | _ => false

omit [DecidableEq K] in
theorem Next.isWriting_caller (next : Next K) : (next.caller (I := I)).isWriting = false := by
  cases next with
  | persist taskIDs => cases taskIDs <;> rfl
  | flush taskIDs => cases taskIDs <;> rfl
  | await taskID done => rfl

/-- The rows and what has been removed stay, and no task comes back. -/
structure Manager.Keeps (m m' : Manager K I) : Prop where
  rows : m'.rows = m.rows
  removed : m'.removed = m.removed
  snaps : m'.snaps = m.snaps
  tasks : ∀ id ∈ m'.tasks, id ∈ m.tasks ∨ id ∉ m.removed

omit [DecidableEq K] in
theorem Manager.Keeps.refl (m : Manager K I) : m.Keeps m := ⟨rfl, rfl, rfl, fun _ => .inl⟩

theorem Manager.keeps_update (m : Manager K I) (taskID : K) (fn : TaskState I → TaskState I) :
    m.Keeps (m.update taskID fn) := by
  unfold update
  cases hst : m.tasks.lookup taskID with
  | none => exact .refl m
  | some st =>
    refine ⟨rfl, rfl, rfl, fun id hid => .inl ?_⟩
    obtain rfl | hid := (AList.mem_insert _).mp hid
    · exact AList.lookup_isSome.mp (hst ▸ rfl)
    · exact hid

theorem Manager.keeps_addTasks (m : Manager K I) (created : List (K × UploadTaskRecord I))
    (hnew : ∀ c ∈ created, m.removed.lookup c.1 = none) : m.Keeps (created.foldl addTask m) := by
  induction created generalizing m with
  | nil => exact .refl m
  | cons c created ih =>
    obtain ⟨hc, hrest⟩ := List.forall_mem_cons.mp hnew
    have hkeeps := ih (m.addTask c) hrest
    refine ⟨hkeeps.rows, hkeeps.removed, hkeeps.snaps, fun id hid => ?_⟩
    obtain hid | hid := hkeeps.tasks id hid
    · obtain rfl | hid := (AList.mem_insert _).mp hid
      · exact .inr (AList.lookup_eq_none.mp hc)
      · exact .inl hid
    · exact .inr hid

/-- A turn of a caller that touches neither the row nor the presence of a task. -/
structure Quiet (m : Manager K I) (c : Caller K I) (r : PersistTurn K I) : Prop where
  keeps : m.Keeps r.shared
  before : c.isWriting = false
  after : r.task.isWriting = false
  spawned : r.spawned = []
  seen : r.seen = []

theorem quiet_stopTaskForDelete (m : Manager K I) (taskID : K) (now : ℚ) :
    Quiet m (.stopping taskID) (stopTaskForDelete m taskID now) := by
  unfold stopTaskForDelete
  split
  · exact ⟨.refl m, rfl, rfl, rfl, rfl⟩
  · split_ifs
    · exact ⟨.refl m, rfl, rfl, rfl, rfl⟩
    · exact ⟨m.keeps_update taskID _, rfl, rfl, rfl, rfl⟩
    · exact ⟨m.keeps_update taskID _, rfl, rfl, rfl, rfl⟩

/-- The turns that are not quiet are the section and the write of `persistTask` and of `popTask`. -/
theorem resume_cases {m : Manager K I} {c : Caller K I} {o : Outcome} {r : PersistTurn K I}
    (h : resume m c o = some r) :
    Quiet m c r ∨
    (∃ taskID next record, c = .persisting taskID next ∧ r =
      { shared := { m with snaps := m.snaps + 1 }
        task := .upserting taskID m.snaps record next
        seen := [.snapshot taskID m.snaps record] }) ∨
    (∃ taskID snap record next, c = .upserting taskID snap record next ∧ r =
      { shared := { m with rows := m.rows.insert taskID record }
        task := next.caller
        seen := [.upserted taskID snap] }) ∨
    (∃ taskID st, c = .popping taskID ∧ m.tasks.lookup taskID = some st ∧
      r = { shared := m.removeTaskLocked taskID st, task := .deleting taskID }) ∨
    ∃ taskID, c = .deleting taskID ∧ r =
      { shared := { m with rows := m.rows.erase taskID }
        task := .ended
        seen := [.deleted taskID] } := by
  cases c with
  | flushing taskID rest =>
    cases o <;> cases h
    exact .inl ⟨⟨rfl, rfl, rfl, fun _ => .inl⟩, rfl, rfl, rfl, rfl⟩
  | flushed taskID rest =>
    cases o <;> cases h
    left
    cases m.tasks.lookup taskID with
    | none => exact ⟨.refl m, rfl, Next.isWriting_caller _, rfl, rfl⟩
    | some st => exact ⟨.refl m, rfl, rfl, rfl, rfl⟩
  | persisting taskID next =>
    cases o <;> cases h
    cases m.object taskID with
    | none => exact .inl ⟨.refl m, rfl, Next.isWriting_caller _, rfl, rfl⟩
    | some st => exact .inr (.inl ⟨taskID, next, recordFromState st, rfl, rfl⟩)
  | upserting taskID snap record next =>
    cases o <;> cases h
    exact .inr (.inr (.inl ⟨taskID, snap, record, next, rfl, rfl⟩))
  | resuming taskID done =>
    left
    cases o <;> try cases h
    case turn =>
      obtain ⟨-, h⟩ := Option.ite_none_right_eq_some.mp h
      cases h
      split
      · exact ⟨.refl m, rfl, rfl, rfl, rfl⟩
      · split_ifs
        · exact ⟨.refl m, rfl, rfl, rfl, rfl⟩
        · have hkeeps := m.keeps_update taskID (resumeState (m.queueOrder + 1) m.chans)
          exact ⟨⟨hkeeps.rows, hkeeps.removed, hkeeps.snaps, hkeeps.tasks⟩, rfl, rfl, rfl, rfl⟩
    case ctxDone.refl => exact ⟨.refl m, rfl, rfl, rfl, rfl⟩
    case fileMissing =>
      obtain ⟨-, h⟩ := Option.ite_none_right_eq_some.mp h
      cases h
      split
      · exact ⟨.refl m, rfl, rfl, rfl, rfl⟩
      · split_ifs
        · exact ⟨.refl m, rfl, rfl, rfl, rfl⟩
        · exact ⟨m.keeps_update taskID _, rfl, rfl, rfl, rfl⟩
  | removing taskID => cases o <;> cases h <;> exact .inl ⟨.refl m, rfl, rfl, rfl, rfl⟩
  | stopping taskID =>
    cases o <;> cases h
    exact .inl (quiet_stopTaskForDelete m taskID _)
  | awaiting taskID done =>
    left
    cases o <;> try cases h
    case turn =>
      obtain ⟨-, h⟩ := Option.ite_none_right_eq_some.mp h
      cases h
      exact ⟨.refl m, rfl, rfl, rfl, rfl⟩
    case ctxDone.refl => exact ⟨.refl m, rfl, rfl, rfl, rfl⟩
  | popping taskID =>
    cases o <;> cases h
    cases hst : m.tasks.lookup taskID with
    | none => exact .inl ⟨.refl m, rfl, rfl, rfl, rfl⟩
    | some st => exact .inr (.inr (.inr (.inl ⟨taskID, st, rfl, hst, rfl⟩)))
  | deleting taskID =>
    cases o <;> cases h
    exact .inr (.inr (.inr (.inr ⟨taskID, rfl, rfl⟩)))
  | ended => cases o <;> cases h

theorem event_keeps {m : Manager K I} {e : Call K I} {r : PersistEffect K I}
    (h : event m e = some r) :
    m.Keeps r.shared ∧ (∀ c ∈ r.spawned, c.isWriting = false) ∧ r.seen = [] := by
  have hquiet : m.Keeps m ∧ (∀ c ∈ ([] : List (Caller K I)), c.isWriting = false) ∧
      ([] : List (Event K I)) = [] := ⟨.refl m, List.forall_mem_nil _, rfl⟩
  have hupdate := m.keeps_update
  cases e with
  | createBatch created =>
    rw [event, Option.ite_none_right_eq_some] at h
    obtain ⟨⟨-, hnew⟩, h⟩ := h
    cases h
    split_ifs
    · exact hquiet
    · refine ⟨m.keeps_addTasks created fun c hc => (hnew c hc).2, fun c hc => ?_, rfl⟩
      obtain rfl := List.mem_singleton.mp hc
      exact Next.isWriting_caller _
  | patch taskID fn now =>
    cases h
    split
    · exact hquiet
    · exact ⟨hupdate taskID _, by simp [Caller.isWriting], rfl⟩
  | updateDownloadProgress taskID downloaded total message speed now =>
    cases h
    split
    · exact hquiet
    · split_ifs
      · exact hquiet
      · exact ⟨hupdate taskID _, by simp [Caller.isWriting], rfl⟩
      · exact ⟨hupdate taskID _, List.forall_mem_nil _, rfl⟩
  | applyResumeState taskID state now =>
    cases h
    split
    · exact hquiet
    · split_ifs
      · exact hquiet
      · have hkeeps := hupdate taskID (applyState state now)
        exact ⟨⟨hkeeps.rows, hkeeps.removed, hkeeps.snaps, hkeeps.tasks⟩, List.forall_mem_nil _, rfl⟩
  | timer taskID =>
    rw [event, Option.ite_none_right_eq_some] at h
    obtain ⟨-, h⟩ := h
    cases h
    exact ⟨.refl m, by simp [Caller.isWriting], rfl⟩
  | flushPendingResume =>
    cases h
    refine ⟨⟨rfl, rfl, rfl, fun _ => .inl⟩, fun c hc => ?_, rfl⟩
    obtain rfl := List.mem_singleton.mp hc
    exact Next.isWriting_caller _
  | pause taskID now =>
    cases h
    split
    · exact hquiet
    · split_ifs
      · exact hquiet
      · exact ⟨hupdate taskID _, by simp [Caller.isWriting], rfl⟩
  | resume taskID =>
    cases h
    split
    · exact hquiet
    · split_ifs
      · exact ⟨.refl m, by simp [Caller.isWriting], rfl⟩
      · exact hquiet
  | delete taskID deleteUploadedFile =>
    cases h
    split
    · exact hquiet
    · refine ⟨.refl m, fun c hc => ?_, rfl⟩
      rw [List.mem_singleton.mp hc]
      split_ifs <;> rfl
  | change taskID fn =>
    cases h
    exact ⟨hupdate taskID fn, List.forall_mem_nil _, rfl⟩
  | close done =>
    cases h
    exact ⟨⟨rfl, rfl, rfl, fun _ => .inl⟩, List.forall_mem_nil _, rfl⟩
  | stop =>
    cases h
    exact ⟨⟨rfl, rfl, rfl, fun _ => .inl⟩, List.forall_mem_nil _, rfl⟩

/-! ### The invariant -/

/-- Every record taken is written or waits to be; while the writes come in order, a row has the
newest record that has been written, until it is deleted. -/
structure Saving (rows : AList (fun _ : K => UploadTaskRecord I)) (m : Manager K I)
    (callers : List (Caller K I)) (trace : List (Event K I)) : Prop where
  increasing : ∀ id, (snapshots trace id).Pairwise fun s t => s.1 < t.1
  numbered : ∀ id, ∀ s ∈ snapshots trace id, s.1 < m.snaps
  waiting : ∀ id snap record next, .upserting id snap record next ∈ callers →
    (snap, record) ∈ snapshots trace id
  pending : ∀ id, ∀ s ∈ snapshots trace id,
    .upserted id s.1 ∈ trace ∨ ∃ next, .upserting id s.1 s.2 next ∈ callers
  written : ∀ id snap, .upserted id snap ∈ trace → ∃ s ∈ snapshots trace id, s.1 = snap
  rowDeleted : ∀ id, .deleted id ∈ trace → m.rows.lookup id = none
  rowWritten : ∀ id, .deleted id ∉ trace → ∀ s ∈ snapshots trace id, .upserted id s.1 ∈ trace →
    (∀ snap, .upserted id snap ∈ trace → snap ≤ s.1) → m.rows.lookup id = some s.2
  rowKept : ∀ id, .deleted id ∉ trace → (∀ snap, .upserted id snap ∉ trace) →
    m.rows.lookup id = rows.lookup id
  removed : ∀ id ∈ m.removed, .deleted id ∈ trace ∨ .deleting id ∈ callers
  gone : ∀ id ∈ m.removed, id ∉ m.tasks
  deletes : ∀ id, .deleted id ∈ trace ∨ .deleting id ∈ callers → id ∈ m.removed

section Steps

variable {rows : AList (fun _ : K => UploadTaskRecord I)} {m m' : Manager K I}
  {callers callers' others : List (Caller K I)} {trace : List (Event K I)} {taskID id : K}
  {snap : ℕ} {record : UploadTaskRecord I} {next : Next K}

theorem snapshots_append (trace seen : List (Event K I)) (id : K) :
    snapshots (trace ++ seen) id = snapshots trace id ++ snapshots seen id :=
  List.filterMap_append

theorem snapshots_snapshot (trace : List (Event K I)) (taskID id : K) (snap : ℕ)
    (record : UploadTaskRecord I) : snapshots (trace ++ [.snapshot taskID snap record]) id =
      snapshots trace id ++ if taskID = id then [(snap, record)] else [] := by
  rw [snapshots_append]
  congr 1
  split_ifs with hid <;> simp [snapshots, Event.snapshot?, hid]

theorem snapshots_other {e : Event K I} (he : ∀ id, e.snapshot? id = none)
    (trace : List (Event K I)) (id : K) : snapshots (trace ++ [e]) id = snapshots trace id := by
  have hnone : snapshots [e] id = [] := List.filterMap_cons_none (he id)
  rw [snapshots_append, hnone, List.append_nil]

namespace Saving

/-- A record is told by its number. -/
theorem eq_of_snap (h : Saving rows m callers trace) {s t : ℕ × UploadTaskRecord I}
    (hs : s ∈ snapshots trace id) (ht : t ∈ snapshots trace id) (heq : s.1 = t.1) : s = t := by
  obtain ⟨i, hi, rfl⟩ := List.getElem_of_mem hs
  obtain ⟨j, hj, rfl⟩ := List.getElem_of_mem ht
  have hincreasing := List.pairwise_iff_getElem.mp (h.increasing id)
  obtain hlt | rfl | hlt := lt_trichotomy i j
  · exact absurd heq (hincreasing i j hi hj hlt).ne
  · rfl
  · exact absurd heq (hincreasing j i hj hi hlt).ne'

/-- A row agrees with its task when nobody has to do with the task any more. -/
theorem agrees (h : Saving rows m callers trace) (hid : ∀ c ∈ callers, ¬c.concerns id) :
    (id ∈ m.removed → m.rows.lookup id = none) ∧
      (id ∈ m.tasks → m.rows.lookup id = lastSaved rows trace id) := by
  have hdeleting : .deleting id ∉ callers := fun hmem => hid _ hmem rfl
  constructor
  · intro hremoved
    exact h.rowDeleted id ((h.removed id hremoved).resolve_right hdeleting)
  · intro htask
    have hdeleted : .deleted id ∉ trace := fun hmem => h.gone id (h.deletes id (.inl hmem)) htask
    have hwritten : ∀ s ∈ snapshots trace id, .upserted id s.1 ∈ trace := fun s hs =>
      (h.pending id s hs).resolve_right fun ⟨next, hmem⟩ => hid _ hmem (.inl rfl)
    rw [lastSaved]
    obtain hnil | ⟨init, s, hs⟩ := (snapshots trace id).eq_nil_or_concat
    · rw [hnil]
      refine h.rowKept id hdeleted fun snap hmem => ?_
      obtain ⟨s, hs, -⟩ := h.written id snap hmem
      rw [hnil] at hs
      exact absurd hs List.not_mem_nil
    · rw [List.concat_eq_append] at hs
      have hmem : s ∈ snapshots trace id := hs ▸ List.mem_append_right _ List.mem_cons_self
      rw [hs, List.getLast?_concat]
      refine h.rowWritten id hdeleted s hmem (hwritten s hmem) fun snap hsnap => ?_
      obtain ⟨t, ht, rfl⟩ := h.written id snap hsnap
      have hlast := List.pairwise_append.mp (hs ▸ h.increasing id)
      rw [hs] at ht
      obtain ht | ht := List.mem_append.mp ht
      · exact (hlast.2.2 t ht s List.mem_cons_self).le
      · rw [List.mem_singleton.mp ht]

/-- Callers that are not about to write come and go. -/
theorem quiet (h : Saving rows m callers trace) (hkeeps : m.Keeps m')
    (hcallers : ∀ c : Caller K I, c.isWriting = true → (c ∈ callers' ↔ c ∈ callers)) :
    Saving rows m' callers' trace where
  increasing := h.increasing
  numbered := fun id s hs => hkeeps.snaps ▸ h.numbered id s hs
  waiting := fun id snap record next hmem =>
    h.waiting id snap record next ((hcallers _ rfl).mp hmem)
  pending := fun id s hs => (h.pending id s hs).imp_right fun ⟨next, hmem⟩ =>
    ⟨next, (hcallers _ rfl).mpr hmem⟩
  written := h.written
  rowDeleted := fun id hid => hkeeps.rows ▸ h.rowDeleted id hid
  rowWritten := fun id hid => hkeeps.rows ▸ h.rowWritten id hid
  rowKept := fun id hid => hkeeps.rows ▸ h.rowKept id hid
  removed := fun id hid =>
    (h.removed id (hkeeps.removed ▸ hid)).imp_right (hcallers _ rfl).mpr
  gone := fun id hid htask => by
    rw [hkeeps.removed] at hid
    exact (hkeeps.tasks id htask).elim (h.gone id hid) fun hnot => hnot hid
  deletes := fun id hid => by
    rw [hkeeps.removed]
    exact h.deletes id (hid.imp_right (hcallers _ rfl).mp)

/-- `persistTask` takes a record. -/
theorem snapshot (h : Saving rows m (.persisting taskID next :: others) trace)
    (record : UploadTaskRecord I) :
    Saving rows { m with snaps := m.snaps + 1 } (.upserting taskID m.snaps record next :: others)
      (trace ++ [.snapshot taskID m.snaps record]) where
  increasing := fun id => by
    rw [snapshots_snapshot]
    refine List.pairwise_append.mpr ⟨h.increasing id, ?_, fun s hs t ht => ?_⟩
    · split_ifs
      · exact List.pairwise_singleton _ _
      · exact .nil
    · split_ifs at ht
      · rw [List.mem_singleton.mp ht]
        exact h.numbered id s hs
      · exact absurd ht List.not_mem_nil
  numbered := fun id s hs => by
    rw [snapshots_snapshot] at hs
    obtain hs | hs := List.mem_append.mp hs
    · exact (h.numbered id s hs).trans (Nat.lt_succ_self _)
    · split_ifs at hs
      · rw [List.mem_singleton.mp hs]
        exact Nat.lt_succ_self _
      · exact absurd hs List.not_mem_nil
  waiting := fun id snap record' next' hmem => by
    rw [snapshots_snapshot]
    obtain heq | hmem := List.mem_cons.mp hmem
    · cases heq
      rw [if_pos rfl]
      exact List.mem_append_right _ List.mem_cons_self
    · exact List.mem_append_left _ (h.waiting id snap record' next' (List.mem_cons_of_mem _ hmem))
  pending := fun id s hs => by
    rw [snapshots_snapshot] at hs
    obtain hold | hnew := List.mem_append.mp hs
    · refine (h.pending id s hold).imp (List.mem_append_left _) fun ⟨next', hmem⟩ => ⟨next', ?_⟩
      obtain heq | hmem := List.mem_cons.mp hmem
      · exact absurd heq (by nofun)
      · exact List.mem_cons_of_mem _ hmem
    · split_ifs at hnew with hid
      · subst hid
        rw [List.mem_singleton.mp hnew]
        exact .inr ⟨next, List.mem_cons_self⟩
      · exact absurd hnew List.not_mem_nil
  written := fun id snap hmem => by
    obtain ⟨s, hs, rfl⟩ := h.written id snap (by simpa using hmem)
    rw [snapshots_snapshot]
    exact ⟨s, List.mem_append_left _ hs, rfl⟩
  rowDeleted := fun id hmem => h.rowDeleted id (by simpa using hmem)
  rowWritten := fun id hnot s hs hmem hmax => by
    simp only [List.mem_append, List.mem_singleton, reduceCtorEq, or_false] at hnot hmem hmax
    obtain ⟨t, ht, heq⟩ := h.written id _ hmem
    have hlt := h.numbered id t ht
    rw [snapshots_snapshot] at hs
    obtain hold | hnew := List.mem_append.mp hs
    · exact h.rowWritten id hnot s hold hmem hmax
    · split_ifs at hnew
      · rw [heq, List.mem_singleton.mp hnew] at hlt
        exact absurd hlt (Nat.lt_irrefl _)
      · exact absurd hnew List.not_mem_nil
  rowKept := fun id hnot hnone => by
    simp only [List.mem_append, List.mem_singleton, reduceCtorEq, or_false] at hnot hnone
    exact h.rowKept id hnot hnone
  removed := fun id hid => by
    simpa using h.removed id hid
  gone := h.gone
  deletes := fun id hid => h.deletes id (by simpa using hid)

/-- A record is written that is newer than what has been written, to a row that is not deleted. -/
theorem upserted (h : Saving rows m (.upserting taskID snap record next :: others) trace)
    (hbefore : ∀ e ∈ trace, e.before taskID snap) :
    Saving rows { m with rows := m.rows.insert taskID record } (next.caller :: others)
      (trace ++ [.upserted taskID snap]) := by
  have hsnapshots : ∀ id, snapshots (trace ++ [.upserted taskID snap]) id = snapshots trace id :=
    snapshots_other (fun _ => rfl) trace
  have hrecord := h.waiting taskID snap record next List.mem_cons_self
  have hcallers : ∀ c : Caller K I, c.isWriting = true →
      (c ∈ next.caller :: others ↔ c ∈ others) := fun c hc => by
    refine ⟨fun hmem => (List.mem_cons.mp hmem).resolve_left ?_, List.mem_cons_of_mem _⟩
    rintro rfl
    rw [Next.isWriting_caller] at hc
    exact absurd hc (by nofun)
  have hdeleting : ∀ id, .deleting id ∈ next.caller :: others ↔
      .deleting id ∈ Caller.upserting taskID snap record next :: others := fun id => by
    rw [hcallers _ rfl, List.mem_cons, or_iff_right (by nofun)]
  have hdeleted : ∀ id, Event.deleted id ∈ trace ++ [.upserted taskID snap] ↔
      .deleted id ∈ trace := fun id => by simp
  constructor
  · exact fun id => (hsnapshots id).symm ▸ h.increasing id
  · exact fun id => (hsnapshots id).symm ▸ h.numbered id
  · intro id snap' record' next' hmem
    rw [hsnapshots]
    exact h.waiting id snap' record' next' (List.mem_cons_of_mem _ ((hcallers _ rfl).mp hmem))
  · intro id s hs
    rw [hsnapshots] at hs
    obtain hmem | ⟨next', hmem⟩ := h.pending id s hs
    · exact .inl (List.mem_append_left _ hmem)
    · obtain heq | hmem := List.mem_cons.mp hmem
      · cases heq
        exact .inl (List.mem_append_right _ List.mem_cons_self)
      · exact .inr ⟨next', (hcallers _ rfl).mpr hmem⟩
  · intro id snap' hmem
    rw [hsnapshots]
    obtain hmem | hmem := List.mem_append.mp hmem
    · exact h.written id snap' hmem
    · cases List.mem_singleton.mp hmem
      exact ⟨_, hrecord, rfl⟩
  · intro id hmem
    have hmem := (hdeleted id).mp hmem
    have hne : id ≠ taskID := hbefore _ hmem
    exact (AList.lookup_insert_ne hne).trans (h.rowDeleted id hmem)
  · intro id hnot s hs hmem hmax
    rw [hsnapshots] at hs
    have hnot := mt (hdeleted id).mpr hnot
    obtain rfl | hne := eq_or_ne id taskID
    · have hle : snap ≤ s.1 := hmax snap (List.mem_append_right _ List.mem_cons_self)
      have heq : s = (snap, record) := by
        refine h.eq_of_snap hs hrecord ?_
        obtain hmem | hmem := List.mem_append.mp hmem
        · have hlt : s.1 < snap := hbefore _ hmem rfl
          omega
        · exact (Event.upserted.inj (List.mem_singleton.mp hmem)).2
      rw [heq]
      exact AList.lookup_insert _
    · refine (AList.lookup_insert_ne hne).trans (h.rowWritten id hnot s hs ?_ fun snap' hmem' =>
        hmax snap' (List.mem_append_left _ hmem'))
      simpa [hne] using hmem
  · intro id hnot hnone
    have hne : id ≠ taskID := by
      rintro rfl
      exact hnone snap (List.mem_append_right _ List.mem_cons_self)
    exact (AList.lookup_insert_ne hne).trans (h.rowKept id (mt (hdeleted id).mpr hnot)
      fun snap' hmem => hnone snap' (List.mem_append_left _ hmem))
  · intro id hid
    rw [hdeleted, hdeleting]
    exact h.removed id hid
  · exact h.gone
  · intro id hid
    rw [hdeleted, hdeleting] at hid
    exact h.deletes id hid

/-- `popTask` takes the task out. -/
theorem popped {st : TaskState I} (h : Saving rows m (.popping taskID :: others) trace) :
    Saving rows (m.removeTaskLocked taskID st) (.deleting taskID :: others) trace where
  increasing := h.increasing
  numbered := h.numbered
  waiting := fun id snap record next hmem => by
    obtain heq | hmem := List.mem_cons.mp hmem
    · exact absurd heq (by nofun)
    · exact h.waiting id snap record next (List.mem_cons_of_mem _ hmem)
  pending := fun id s hs => (h.pending id s hs).imp_right fun ⟨next, hmem⟩ => ⟨next, by
    simpa using hmem⟩
  written := h.written
  rowDeleted := h.rowDeleted
  rowWritten := h.rowWritten
  rowKept := h.rowKept
  removed := fun id hid => by
    obtain rfl | hid := (AList.mem_insert _).mp hid
    · exact .inr List.mem_cons_self
    · refine (h.removed id hid).imp_right fun hmem => List.mem_cons_of_mem _ ?_
      simpa using hmem
  gone := fun id hid htask => by
    obtain ⟨hne, htask⟩ := AList.mem_erase.mp htask
    exact h.gone id (((AList.mem_insert _).mp hid).resolve_left hne) htask
  deletes := fun id hid => by
    refine (AList.mem_insert _).mpr ?_
    obtain hmem | hmem := hid
    · exact .inr (h.deletes id (.inl hmem))
    · obtain heq | hmem := List.mem_cons.mp hmem
      · exact .inl (Caller.deleting.inj heq)
      · exact .inr (h.deletes id (.inr (List.mem_cons_of_mem _ hmem)))

/-- `popTask` deletes the row. -/
theorem deleted (h : Saving rows m (.deleting taskID :: others) trace) :
    Saving rows { m with rows := m.rows.erase taskID } (.ended :: others)
      (trace ++ [.deleted taskID]) := by
  have hsnapshots : ∀ id, snapshots (trace ++ [.deleted taskID]) id = snapshots trace id :=
    snapshots_other (fun _ => rfl) trace
  have hupserted : ∀ id snap, Event.upserted id snap ∈ trace ++ [.deleted taskID] ↔
      .upserted id snap ∈ trace := fun id snap => by simp
  have hdeleted : ∀ id, Event.deleted id ∈ trace ++ [.deleted taskID] ↔
      .deleted id ∈ trace ∨ id = taskID := fun id => by simp
  constructor
  · exact fun id => (hsnapshots id).symm ▸ h.increasing id
  · exact fun id => (hsnapshots id).symm ▸ h.numbered id
  · intro id snap record next hmem
    rw [hsnapshots]
    exact h.waiting id snap record next (by simpa using hmem)
  · intro id s hs
    rw [hsnapshots] at hs
    refine (h.pending id s hs).imp (List.mem_append_left _) fun ⟨next, hmem⟩ => ⟨next, ?_⟩
    simpa using hmem
  · intro id snap hmem
    rw [hsnapshots]
    exact h.written id snap ((hupserted id snap).mp hmem)
  · intro id hmem
    obtain rfl | hne := eq_or_ne id taskID
    · exact AList.lookup_erase _ _
    · refine (AList.lookup_erase_ne hne).trans (h.rowDeleted id ?_)
      exact ((hdeleted id).mp hmem).resolve_right hne
  · intro id hnot s hs hmem hmax
    rw [hdeleted, not_or] at hnot
    rw [hsnapshots] at hs
    exact (AList.lookup_erase_ne hnot.2).trans (h.rowWritten id hnot.1 s hs
      ((hupserted id s.1).mp hmem) fun snap hmem => hmax snap ((hupserted id snap).mpr hmem))
  · intro id hnot hnone
    rw [hdeleted, not_or] at hnot
    exact (AList.lookup_erase_ne hnot.2).trans (h.rowKept id hnot.1 fun snap hmem =>
      hnone snap ((hupserted id snap).mpr hmem))
  · intro id hid
    rw [hdeleted]
    obtain hmem | hmem := h.removed id hid
    · exact .inl (.inl hmem)
    · obtain heq | hmem := List.mem_cons.mp hmem
      · exact .inl (.inr (Caller.deleting.inj heq))
      · exact .inr (List.mem_cons_of_mem _ hmem)
  · exact h.gone
  · intro id hid
    rw [hdeleted] at hid
    obtain (hmem | rfl) | hmem := hid
    · exact h.deletes id (.inl hmem)
    · exact h.deletes id (.inr List.mem_cons_self)
    · exact h.deletes id (.inr (List.mem_cons_of_mem _ (by simpa using hmem)))

end Saving

end Steps

/-! ### Every run -/

theorem saving_step {rows : AList (fun _ : K => UploadTaskRecord I)} {p q : PersistPool K I}
    {a : Action Outcome (Call K I)} (h : Saving rows p.shared p.tasks p.trace)
    (hok : WritesInOrder p a) (hq : system.step p a = some q) :
    Saving rows q.shared q.tasks q.trace := by
  obtain ⟨i, o, c, r, others, rfl, hi, hr, hshared, htrace, hp, hperm⟩ |
    ⟨e, r, rfl, hr, hshared, htrace, hperm⟩ := System.step_perm hq
  · have hp : Saving rows p.shared (c :: others) p.trace :=
      h.quiet (.refl _) fun c _ => hp.mem_iff.symm
    suffices hnew : Saving rows r.shared (r.task :: r.spawned ++ others) (p.trace ++ r.seen) by
      rw [hshared, htrace]
      exact hnew.quiet (.refl _) fun c _ => hperm.mem_iff
    obtain hquiet | ⟨taskID, next, record, rfl, rfl⟩ | ⟨taskID, snap, record, next, rfl, rfl⟩ |
      ⟨taskID, st, rfl, -, rfl⟩ | ⟨taskID, rfl, rfl⟩ := resume_cases hr
    · rw [hquiet.seen, hquiet.spawned, List.append_nil]
      refine hp.quiet hquiet.keeps fun c' hc' => ?_
      have hother : ∀ {x : Caller K I}, x.isWriting = false → c' ≠ x := by
        rintro x hx rfl
        rw [hx] at hc'
        exact absurd hc' (by nofun)
      simp only [List.singleton_append, List.mem_cons, hother hquiet.before, hother hquiet.after,
        false_or]
    · exact hp.snapshot record
    · simp only [WritesInOrder, hi] at hok
      exact hp.upserted hok
    · rw [List.append_nil]
      exact hp.popped
    · exact hp.deleted
  · obtain ⟨hkeeps, hspawned, hseen⟩ := event_keeps hr
    rw [hshared, htrace, hseen, List.append_nil]
    refine h.quiet hkeeps fun c hc => ?_
    rw [hperm.mem_iff, List.mem_append]
    refine or_iff_right fun hmem => ?_
    rw [hspawned c hmem] at hc
    exact absurd hc (by nofun)

theorem foldl_restoreNext (missing : K → Bool) (now : ℚ)
    (entries : List ((_ : K) × UploadTaskRecord I)) (acc : Manager K I × List K) :
    (entries.foldl (restoreNext missing now) acc).1.rows = acc.1.rows ∧
      (entries.foldl (restoreNext missing now) acc).1.removed = acc.1.removed := by
  induction entries generalizing acc with
  | nil => exact ⟨rfl, rfl⟩
  | cons row entries ih => exact ih (restoreNext missing now acc row)

theorem saving_restoreTasks (missing : K → Bool) (now : ℚ)
    (rows : AList (fun _ : K => UploadTaskRecord I)) :
    Saving rows (restoreTasks missing now rows).shared (restoreTasks missing now rows).tasks [] := by
  have hshared := foldl_restoreNext missing now rows.entries ({ rows }, [])
  have hcallers : ∀ c ∈ (restoreTasks missing now rows).tasks, c.isWriting = false := by
    intro c hc
    rw [List.mem_singleton.mp hc]
    exact Next.isWriting_caller _
  have hremoved : ∀ id, id ∉ (restoreTasks missing now rows).shared.removed := fun id hid => by
    rw [restoreTasks, hshared.2] at hid
    exact absurd hid (AList.notMem_empty id)
  constructor
  · exact fun _ => .nil
  · exact fun _ => List.forall_mem_nil _
  · intro id snap record next hmem
    exact absurd (hcallers _ hmem) (by nofun)
  · exact fun _ => List.forall_mem_nil _
  · intro id snap hmem
    exact absurd hmem List.not_mem_nil
  · intro id hmem
    exact absurd hmem List.not_mem_nil
  · exact fun _ _ => List.forall_mem_nil _
  · intro id _ _
    rw [restoreTasks, hshared.1]
  · exact fun id hid => absurd hid (hremoved id)
  · exact fun id hid => absurd hid (hremoved id)
  · rintro id (hmem | hmem)
    · exact absurd hmem List.not_mem_nil
    · exact absurd (hcallers _ hmem) (by nofun)

/-- While every record is written before the newer ones of its task and before its row is deleted,
the rows agree with the tasks. -/
theorem rows_agree (missing : K → Bool) (now : ℚ)
    (rows : AList (fun _ : K => UploadTaskRecord I)) {as : List (Action Outcome (Call K I))}
    (has : system.Along WritesInOrder (restoreTasks missing now rows) as) :
    system.Throughout (RowsAgree rows) (restoreTasks missing now rows) as := by
  have hinv := System.throughout_of_along
    (I := fun p : PersistPool K I => Saving rows p.shared p.tasks p.trace)
    (fun p a q hp hok hq => saving_step hp hok hq) (saving_restoreTasks missing now rows) has
  exact hinv.mono fun p hp => fun id hid => hp.agrees hid

/-- A repository with one paused task. -/
def onePaused : AList (fun _ : ℕ => UploadTaskRecord Unit) :=
  (∅ : AList fun _ : ℕ => UploadTaskRecord Unit).insert 0
    { info := (), sourceType := .manual, status := .paused, phase := .uploading }

def onlyTask : PersistPool ℕ Unit := restoreTasks (fun _ => false) 0 onePaused

/-- The task is renamed and deleted, one after the other. -/
def orderedRun : List (Action Outcome (Call ℕ Unit)) :=
  [.event (.patch 0 id 1), .resume 1 (.turn 1), .resume 1 (.turn 1), .event (.delete 0 false),
    .resume 2 (.turn 2), .resume 2 (.turn 2), .resume 2 (.turn 2)]

theorem rows_agree_ordered : system.Throughout (RowsAgree onePaused) onlyTask orderedRun :=
  rows_agree (fun _ => false) 0 onePaused (by decide +kernel)

/-- The task is renamed, and deleted before the renamed task has been saved. -/
def resurrectingRun : List (Action Outcome (Call ℕ Unit)) :=
  [.event (.patch 0 id 1), .event (.delete 0 false), .resume 2 (.turn 2), .resume 2 (.turn 2),
    .resume 2 (.turn 2), .resume 1 (.turn 3), .resume 1 (.turn 3)]

/-- The task is gone, everything has been done, and the row is there. -/
theorem row_resurrected : ∃ p, system.run onlyTask resurrectingRun = some p ∧
    0 ∈ p.shared.removed ∧ (p.shared.rows.lookup 0).isSome ∧ ¬RowsAgree onePaused p := by
  refine ⟨_, rfl, by decide, by decide, fun h => ?_⟩
  have hrow := (h 0 (by decide)).1 (by decide)
  revert hrow
  decide

end AllInOneBackup.LitePan.Upload.Persist
