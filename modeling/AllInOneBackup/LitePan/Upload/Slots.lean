import AllInOneBackup.LitePan.Upload.Manager

/-! The count of the slots. `running` is the number of the goroutines that hold a slot of the kind,
so the guard of `releaseSlot` always lets the count go down, and a slot is granted below the limit
to the first pending task of its kind. -/

namespace AllInOneBackup.LitePan.Upload

open Concurrency Manager

variable {K : Type} [LinearOrder K]

/-! ### The order of the queue -/

theorem pendingTaskPrecedesLocked_irrefl (a : (_ : K) × TaskState) :
    pendingTaskPrecedesLocked a a = false := by
  rw [← Bool.not_eq_true, pendingTaskPrecedesLocked_iff]
  exact lt_irrefl _

theorem pendingTaskPrecedesLocked_trans {a b c : (_ : K) × TaskState}
    (hab : pendingTaskPrecedesLocked a b = true) (hbc : pendingTaskPrecedesLocked b c = true) :
    pendingTaskPrecedesLocked a c = true := by
  rw [pendingTaskPrecedesLocked_iff] at *
  exact hab.trans hbc

omit [LinearOrder K] in
/-- The id is the last part of the key. -/
theorem orderKey_ne {a b : (_ : K) × TaskState} (h : a.1 ≠ b.1) : orderKey a ≠ orderKey b := by
  intro hkey
  simp only [orderKey, EmbeddingLike.apply_eq_iff_eq, Prod.mk.injEq] at hkey
  exact h hkey.2.2.2

theorem pendingTaskPrecedesLocked_total {a b : (_ : K) × TaskState} (h : a.1 ≠ b.1) :
    pendingTaskPrecedesLocked a b = true ∨ pendingTaskPrecedesLocked b a = true := by
  simp only [pendingTaskPrecedesLocked_iff]
  exact lt_or_gt_of_ne (orderKey_ne h)

/-! ### Who holds a slot -/

/-- The goroutine is between the grant and the release of a slot of the kind. -/
def Goroutine.holds (kind : SlotKind) : Goroutine K → Bool
  | .holding k _ | .executing k _ | .finishing k _ _ | .releasing k _ _ => k = kind
  | .broadcasting next | .cancelling _ next => next.holds kind
  | _ => false

/-- The counts are the numbers of the holders. -/
def SlotsCounted (p : UploadPool K) : Prop :=
  ∀ kind, p.shared.running kind = p.tasks.countP (Goroutine.holds kind)

/-- Whoever is about to release a slot finds it counted. -/
def ReleasesCounted (p : UploadPool K) : Prop :=
  ∀ kind r again, .releasing kind r again ∈ p.tasks → 0 < p.shared.running kind

/-- The slots of the kind are below the limit, and the task precedes every other pending task of
the kind. -/
def First (m : Manager K) (kind : SlotKind) (taskID : K) : Prop :=
  m.running kind < m.limit ∧ ∃ st, m.tasks.lookup taskID = some st ∧
    st.status = .pending ∧ st.slotKind = kind ∧
    ∀ id other, m.tasks.lookup id = some other → id ≠ taskID → other.status = .pending →
      other.slotKind = kind → pendingTaskPrecedesLocked ⟨taskID, st⟩ ⟨id, other⟩ = true

/-- Whatever slot a step grants, it grants to the first pending task of the kind. -/
def GrantsInOrder (p : UploadPool K) (a : Action Outcome (Call K)) : Prop :=
  ∀ q, system.step p a = some q → ∀ kind taskID,
    .granted kind taskID ∈ q.trace.drop p.trace.length → First p.shared kind taskID

omit [LinearOrder K] in
theorem SlotsCounted.releases {p : UploadPool K} (h : SlotsCounted p) : ReleasesCounted p := by
  intro kind r again hmem
  rw [h kind]
  exact List.countP_pos_iff.mpr ⟨_, hmem, by simp [Goroutine.holds]⟩

/-! ### What a turn does to the counts -/

/-- The count of the kind changes as the goroutine comes to hold a slot, or gives it back; and a
slot goes to the first task. -/
structure Counts (kind : SlotKind) (m : Manager K) (t : Goroutine K) (turn : UploadTurn K) :
    Prop where
  running : turn.shared.running kind + (t.holds kind).toNat =
    m.running kind + (turn.task.holds kind).toNat
  spawned : turn.spawned.countP (Goroutine.holds kind) = 0
  granted : ∀ taskID, .granted kind taskID ∈ turn.seen → First m kind taskID

theorem first_of_admits {m : Manager K} {taskID : K} {st : TaskState}
    (hst : m.tasks.lookup taskID = some st) (h : m.admits taskID = true) :
    First m st.slotKind taskID := by
  obtain ⟨st', hst', hpending, hfree, hfirst⟩ := (admits_iff taskID).mp h
  obtain rfl : st = st' := Option.some.inj (hst.symm.trans hst')
  refine ⟨hfree, st, hst, hpending, rfl, fun id other hother hne hp hkind => ?_⟩
  rw [pendingTaskPrecedesLocked_iff]
  exact lt_of_le_of_ne (hfirst id other hother hp hkind) (orderKey_ne hne.symm)

theorem counts_acquireRunSlot {kind : SlotKind} {m : Manager K} {r : Run K} {t : Goroutine K}
    (ht : t.holds kind = false) : Counts kind m t (m.acquireRunSlot r) := by
  unfold acquireRunSlot
  cases hst : m.tasks.lookup r.taskID with
  | none => exact ⟨by simp [ht, Goroutine.holds], rfl, by simp⟩
  | some st =>
    dsimp only
    split_ifs with hexit hadmits
    · exact ⟨by simp [ht, Goroutine.holds], rfl, by simp⟩
    · refine ⟨?_, rfl, fun taskID hmem => ?_⟩
      · simp only [grant, patch_running, acquireSlotLocked, ht, Goroutine.holds, Bool.toNat_false]
        by_cases hkind : st.slotKind = kind
        · subst hkind
          simp
        · simp [Function.update_of_ne (Ne.symm hkind), hkind]
      · cases List.mem_singleton.mp hmem
        exact first_of_admits hst hadmits
    · exact ⟨by simp [ht, Goroutine.holds], rfl, by simp⟩

omit [LinearOrder K] in
theorem counts_releaseSlot (kind : SlotKind) {k : SlotKind} {m : Manager K} (h : 0 < m.running k) :
    (m.releaseSlot k).running kind + (decide (k = kind)).toNat = m.running kind := by
  rw [releaseSlot, if_pos h]
  by_cases hkind : k = kind
  · subst hkind
    simp only [Function.update_self, decide_true, Bool.toNat_true]
    omega
  · simp [Function.update_of_ne (Ne.symm hkind), hkind]

/-- The number of the slots stays, and so does whether the goroutine holds one. -/
theorem Counts.of_eq {kind : SlotKind} {m : Manager K} {t : Goroutine K} {turn : UploadTurn K}
    (hrunning : turn.shared.running = m.running)
    (hholds : turn.task.holds kind = t.holds kind)
    (hspawned : turn.spawned.countP (Goroutine.holds kind) = 0) (hseen : turn.seen = []) :
    Counts kind m t turn :=
  ⟨by rw [hrunning, hholds], hspawned, by simp [hseen]⟩

omit [LinearOrder K] in
theorem countP_starting (kind : SlotKind) (taskIDs : List K) :
    (taskIDs.map Goroutine.starting).countP (Goroutine.holds kind) = 0 := by
  simp [List.countP_eq_zero, Goroutine.holds]

theorem counts_resume (kind : SlotKind) {m : Manager K} {t : Goroutine K} {o : Outcome}
    {turn : UploadTurn K}
    (hreleasing : ∀ k r again, t = .releasing k r again → 0 < m.running k)
    (h : resume m t o = some turn) : Counts kind m t turn := by
  cases t with
  | acquiring r =>
    cases o <;> cases h
    exact counts_acquireRunSlot rfl
  | waiting r ticket =>
    cases o <;> try cases h
    obtain ⟨-, h⟩ := Option.ite_none_right_eq_some.mp h
    cases h
    exact counts_acquireRunSlot rfl
  | releasing k r again =>
    cases o <;> cases h
    refine ⟨?_, rfl, by simp⟩
    have hrelease := counts_releaseSlot kind (hreleasing k r again rfl)
    cases again <;> simpa [Goroutine.holds] using hrelease
  | starting taskID =>
    cases o <;> cases h
    cases m.tasks.lookup taskID <;> exact .of_eq rfl rfl rfl rfl
  | gate r =>
    cases o <;> try cases h
    · exact .of_eq rfl rfl rfl rfl
    · obtain ⟨-, h⟩ := Option.ite_none_right_eq_some.mp h
      cases h
      exact .of_eq rfl rfl rfl rfl
  | holding k r =>
    cases o with
    | turn =>
      cases h
      cases m.tasks.lookup r.taskID with
      | none => exact .of_eq rfl rfl rfl rfl
      | some st =>
        dsimp only
        split_ifs
        · exact .of_eq rfl rfl rfl rfl
        · exact .of_eq (patch_running _ _) rfl rfl rfl
    | failed =>
      cases k <;> cases h
      exact .of_eq (patch_running _ _) rfl rfl rfl
    | _ => cases k <;> cases h
  | executing k r =>
    cases o with
    | progress =>
      cases h
      exact .of_eq (patch_running _ _) rfl rfl rfl
    | failed =>
      cases h
      cases m.tasks.lookup r.taskID <;> exact .of_eq rfl rfl rfl rfl
    | uploaded skipped =>
      cases k <;> cases h
      cases m.tasks.lookup r.taskID <;> exact .of_eq rfl rfl rfl rfl
    | downloaded =>
      cases k <;> cases h
      exact .of_eq (patch_running _ _) rfl rfl rfl
    | _ => cases k <;> cases h
  | finishing k r status =>
    cases o <;> cases h
    exact .of_eq (patch_running _ _) rfl rfl rfl
  | exiting r =>
    cases o <;> cases h
    exact .of_eq (patch_running _ _) rfl rfl rfl
  | persisting taskIDs =>
    cases o <;> cases h
    · exact .of_eq rfl rfl (countP_starting kind taskIDs) rfl
    · obtain ⟨tasks, heq, -⟩ := foldl_removeTask m taskIDs
      exact .of_eq (by rw [heq]) rfl rfl rfl
  | resuming taskID done =>
    obtain rfl | ⟨-, ⟨-, rfl⟩ | rfl⟩ := resuming_cases h
    · exact .of_eq rfl rfl rfl rfl
    · exact .of_eq (patch_running _ _) rfl rfl rfl
    · exact .of_eq (patch_running _ _) rfl rfl rfl
  | awaiting taskID done =>
    cases o <;> try cases h
    · obtain ⟨-, h⟩ := Option.ite_none_right_eq_some.mp h
      cases h
      exact .of_eq rfl rfl rfl rfl
    · exact .of_eq rfl rfl rfl rfl
  | closing r | broadcasting next | cancelling cancel next | popping taskID | ended =>
    cases o <;> cases h <;> exact .of_eq rfl rfl rfl rfl

/-! ### What a call does to the counts -/

theorem counts_event (kind : SlotKind) {m : Manager K} {e : Call K} {r : UploadEffect K}
    (h : event m e = some r) :
    r.shared.running = m.running ∧ r.spawned.countP (Goroutine.holds kind) = 0 ∧ r.seen = [] := by
  cases e with
  | createBatch params =>
    obtain ⟨-, h⟩ := Option.ite_none_right_eq_some.mp h
    obtain rfl := Option.some.inj h
    split_ifs
    · exact ⟨rfl, rfl, rfl⟩
    · exact ⟨(foldl_addTask m params).2.2.2.2.1, rfl, rfl⟩
  | pause taskID | delete taskID =>
    cases h
    cases m.tasks.lookup taskID with
    | none => exact ⟨rfl, rfl, rfl⟩
    | some st =>
      dsimp only
      split_ifs
      · exact ⟨rfl, rfl, rfl⟩
      · exact ⟨patch_running _ _, rfl, rfl⟩
  | resume taskID =>
    cases h
    cases m.tasks.lookup taskID with
    | none => exact ⟨rfl, rfl, rfl⟩
    | some st =>
      dsimp only
      split_ifs <;> exact ⟨rfl, rfl, rfl⟩
  | refreshConcurrencyLimit v =>
    cases h
    exact ⟨rfl, rfl, rfl⟩
  | stop =>
    cases h
    obtain ⟨tasks, heq, -⟩ := stop_eq m
    exact ⟨by rw [heq], rfl, rfl⟩

/-! ### Every run -/

theorem slotsCounted_step {p q : UploadPool K} {a : Action Outcome (Call K)}
    (h : SlotsCounted p) (hstep : system.step p a = some q) : SlotsCounted q := by
  intro kind
  obtain ⟨i, o, t, r, rfl, hi, hr, rfl⟩ | ⟨e, r, rfl, he, rfl⟩ := System.step_cases hstep
  · have hcounts := counts_resume kind (fun k run again ht =>
      h.releases k run again (ht ▸ List.mem_of_getElem? hi)) hr
    have hset := countP_set_append (Goroutine.holds kind) r.task r.spawned hi
    have hrunning := hcounts.running
    have hspawned := hcounts.spawned
    have hkind := h kind
    simp only at hset ⊢
    omega
  · obtain ⟨hrunning, hspawned, -⟩ := counts_event kind he
    rw [List.countP_append, hspawned, hrunning]
    exact h kind

theorem grantsInOrder_step {p q : UploadPool K} {a : Action Outcome (Call K)}
    (h : SlotsCounted p) (hstep : system.step p a = some q) : GrantsInOrder p a := by
  intro q' hstep' kind taskID hmem
  obtain rfl : q = q' := Option.some.inj (hstep.symm.trans hstep')
  obtain ⟨i, o, t, r, rfl, hi, hr, rfl⟩ | ⟨e, r, rfl, he, rfl⟩ := System.step_cases hstep
  · have hcounts := counts_resume kind (fun k run again ht =>
      h.releases k run again (ht ▸ List.mem_of_getElem? hi)) hr
    rw [List.drop_left] at hmem
    exact hcounts.granted taskID hmem
  · obtain ⟨-, -, hseen⟩ := counts_event kind he
    simp [hseen] at hmem

theorem slotsCounted_newManager (v : ℤ) (rows : List (Record K)) :
    SlotsCounted (newManager v rows) := by
  intro kind
  have hrunning (m : Manager K) : (rows.foldl restoreTask m).running = m.running := by
    induction rows generalizing m with
    | nil => rfl
    | cons row rows ih => exact ih (m.restoreTask row)
  have hstarting : (newManager v rows).tasks.countP (Goroutine.holds kind) = 0 := by
    simp [newManager, List.countP_eq_zero, Goroutine.holds]
  rw [hstarting]
  exact congrFun (hrunning _) kind

/-- In every run the counts are the numbers of the goroutines that hold a slot, whoever releases
one finds it counted, and every slot goes to the first pending task in the order of the queue,
which is strict, and total on tasks with different ids. -/
theorem slots_accounted (v : ℤ) (rows : List (Record K))
    (actions : List (Action Outcome (Call K))) :
    system.Throughout (fun p => SlotsCounted p ∧ ReleasesCounted p) (newManager v rows) actions ∧
    system.Along GrantsInOrder (newManager v rows) actions ∧
    ∀ a b c : (_ : K) × TaskState, pendingTaskPrecedesLocked a a = false ∧
      (pendingTaskPrecedesLocked a b = true → pendingTaskPrecedesLocked b c = true →
        pendingTaskPrecedesLocked a c = true) ∧
      (a.1 ≠ b.1 → pendingTaskPrecedesLocked a b = true ∨ pendingTaskPrecedesLocked b a = true) := by
  have hinit := slotsCounted_newManager v rows
  refine ⟨?_, ?_, fun a b c => ⟨pendingTaskPrecedesLocked_irrefl a,
    pendingTaskPrecedesLocked_trans, pendingTaskPrecedesLocked_total⟩⟩
  · exact (System.throughout_of_step (fun _ _ _ h hstep => slotsCounted_step h hstep) hinit
      actions).mono fun _ h => ⟨h, h.releases⟩
  · exact System.along_of_invariant (fun _ _ _ h hstep => slotsCounted_step h hstep)
      (fun _ _ _ h hstep => grantsInOrder_step h hstep) hinit actions

end AllInOneBackup.LitePan.Upload
