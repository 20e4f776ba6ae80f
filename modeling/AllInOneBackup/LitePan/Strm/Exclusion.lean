import AllInOneBackup.LitePan.Strm.Schedule
import Mathlib.Data.List.Nodup

/-! Scans exclude each other by the marks of their tasks and accounts, and by the file operation of
a task. `ForceStopTask` and `DeleteTask` remove the marks of a scan that has not ended, so another
scan of the account may start beside it, whose marks the first one then removes in turn. Wherever
marks are removed only from tasks and accounts that nobody scans, the scans are exclusive. -/

namespace AllInOneBackup.LitePan.Strm

open Concurrency Service

variable {c : Config}

/-! ### The property and the condition -/

/-- The task whose `ScanTask` the goroutine executes. -/
def Goroutine.scans : Goroutine → List ℤ
  | .scanning id => [id]
  | _ => []

/-- At most one scan an account and `taskConcurrency` in all execute, and each of them is marked. -/
structure Exclusive (c : Config) (p : StrmPool) : Prop where
  accounts : (((p.tasks.flatMap Goroutine.scans).map c.accountID).filter (0 < ·)).Nodup
  total : (p.tasks.flatMap Goroutine.scans).length ≤ c.taskConcurrency
  running : ∀ id ∈ p.tasks.flatMap Goroutine.scans, id ∈ p.shared.running
  runningAccounts : ∀ id ∈ p.tasks.flatMap Goroutine.scans, 0 < c.accountID id →
    c.accountID id ∈ p.shared.runningAccounts

/-- The task of a goroutine that scans, from its start to its own `clearTaskRunState`. -/
def Goroutine.live : Goroutine → List ℤ
  | .created id | .preparing id | .scanning id | .returning id => [id]
  | .stopping _ next | .unqueuing _ next | .cancelling _ _ next | .unmarking _ next => next.live
  | _ => []

/-- Nobody scans the task, or another one of its account. -/
def Idle (c : Config) (p : StrmPool) (id : ℤ) : Prop :=
  ∀ t ∈ p.tasks, ∀ id' ∈ t.live, id' ≠ id ∧
    (0 < c.accountID id → c.accountID id' ≠ c.accountID id)

/-- What is asked of a turn: `ForceStopTask` and `DeleteTask` remove the marks of an idle task. -/
def Unmarks (c : Config) (p : StrmPool) (o : Outcome) : Goroutine → Prop
  | .unmarking id _ => Idle c p id
  | .deleting id => o = .turn → Idle c p id
  | _ => True

def StepUnmarks (c : Config) (p : StrmPool) : Action Outcome Call → Prop
  | .resume i o => ∀ t ∈ p.tasks[i]?, Unmarks c p o t
  | .event _ => True

instance (p : StrmPool) (id : ℤ) : Decidable (Idle c p id) :=
  inferInstanceAs (Decidable (∀ t ∈ p.tasks, ∀ id' ∈ t.live, id' ≠ id ∧
    (0 < c.accountID id → c.accountID id' ≠ c.accountID id)))

instance (p : StrmPool) (o : Outcome) : DecidablePred (Unmarks c p o)
  | .unmarking id _ => inferInstanceAs (Decidable (Idle c p id))
  | .deleting id => inferInstanceAs (Decidable (o = .turn → Idle c p id))
  | .requesting _ | .calling _ | .starting _ _ | .refusing _ _ | .created _ | .preparing _
  | .scanning _ | .returning _ | .closing _ | .stopping _ _ | .unqueuing _ _ | .cancelling _ _ _
  | .moving _ | .ended => .isTrue trivial

instance (p : StrmPool) : DecidablePred (StepUnmarks c p)
  | .resume i o => inferInstanceAs (Decidable (∀ t ∈ p.tasks[i]?, Unmarks c p o t))
  | .event _ => .isTrue trivial

/-! ### Marks and file operations -/

/-- The task whose file operation the goroutine has begun. -/
def Goroutine.holds : Goroutine → List ℤ
  | .starting id _ | .refusing id _ | .closing id | .moving id => [id]
  | .created id | .preparing id | .scanning id | .returning id => [id]
  | .stopping _ next | .unqueuing _ next | .cancelling _ _ next | .unmarking _ next => next.holds
  | _ => []

/-- Every file operation has one holder, and every live scan is marked, at most one an account. -/
structure Marked (c : Config) (s : Service) (held live : List ℤ) : Prop where
  nodup : held.Nodup
  files : ∀ id ∈ held, id ∈ s.fileOperations
  running : ∀ id ∈ live, id ∈ s.running
  runningAccounts : ∀ id ∈ live, 0 < c.accountID id → c.accountID id ∈ s.runningAccounts
  accounts : ((live.map c.accountID).filter (0 < ·)).Nodup
  total : s.running.card ≤ c.taskConcurrency

namespace Marked

variable {s s' : Service} {held held' live live' : List ℤ} {id : ℤ}

theorem perm (h : Marked c s held live) (hheld : held'.Perm held) (hlive : live'.Perm live) :
    Marked c s held' live' where
  nodup := hheld.nodup_iff.mpr h.nodup
  files id hid := h.files id (hheld.mem_iff.mp hid)
  running id hid := h.running id (hlive.mem_iff.mp hid)
  runningAccounts id hid := h.runningAccounts id (hlive.mem_iff.mp hid)
  accounts := ((hlive.map c.accountID).filter _).nodup_iff.mpr h.accounts
  total := h.total

/-- The marks and the file operations stay as they are. -/
theorem of_eq (h : Marked c s held live) (hfiles : s'.fileOperations = s.fileOperations)
    (hrunning : s'.running = s.running) (haccounts : s'.runningAccounts = s.runningAccounts) :
    Marked c s' held live where
  nodup := h.nodup
  files := hfiles ▸ h.files
  running := hrunning ▸ h.running
  runningAccounts := haccounts ▸ h.runningAccounts
  accounts := h.accounts
  total := hrunning ▸ h.total

theorem begin_ (h : Marked c s held live) (hbegin : s.tryBeginTaskFileOperation id = some s') :
    Marked c s' (id :: held) live := by
  obtain ⟨-, hbegin⟩ := Option.ite_none_left_eq_some.mp hbegin
  obtain ⟨hfree, hbegin⟩ := Option.ite_none_left_eq_some.mp hbegin
  obtain rfl := Option.some.inj hbegin
  have hnot : id ∉ held := fun hid => hfree (h.files id hid)
  exact
    { nodup := List.nodup_cons.mpr ⟨hnot, h.nodup⟩
      files := List.forall_mem_cons.mpr ⟨Finset.mem_insert_self _ _,
        fun id' hid => Finset.mem_insert_of_mem (h.files id' hid)⟩
      running := h.running
      runningAccounts := h.runningAccounts
      accounts := h.accounts
      total := h.total }

theorem releaseFiles (h : Marked c s (id :: held) live) :
    Marked c (s.releaseFiles id) held live where
  nodup := (List.nodup_cons.mp h.nodup).2
  files id' hid' := by
    have hne : id' ≠ id := fun heq => (List.nodup_cons.mp h.nodup).1 (heq ▸ hid')
    exact Finset.mem_erase.mpr ⟨hne, h.files id' (List.mem_cons_of_mem _ hid')⟩
  running := h.running
  runningAccounts := h.runningAccounts
  accounts := h.accounts
  total := h.total

/-- A task that may start is marked below the limit, and its account had no mark. -/
theorem mark (h : Marked c s held live) (hstart : s.canStartTaskLocked c id = true) :
    Marked c (s.markRunning c id) held (id :: live) := by
  unfold canStartTaskLocked at hstart
  split_ifs at hstart with hfull hqueue
  obtain ⟨hidle, hfree⟩ : id ∉ s.running ∧ s.running.card < c.taskConcurrency := by
    simpa using hfull
  have haccount : 0 < c.accountID id → c.accountID id ∉ s.runningAccounts := by
    intro hpos
    have h : c.accountID id ≤ 0 ∨ c.accountID id ∉ s.runningAccounts := by simpa using hstart
    exact h.resolve_left (by omega)
  have hmem : ∀ a ∈ s.runningAccounts, a ∈ (s.markRunning c id).runningAccounts := by
    intro a ha
    unfold markRunning
    split_ifs
    · exact Finset.mem_insert_of_mem ha
    · exact ha
  constructor
  case nodup => exact h.nodup
  case files => exact h.files
  case running =>
    exact List.forall_mem_cons.mpr ⟨Finset.mem_insert_self _ _,
      fun id' hid => Finset.mem_insert_of_mem (h.running id' hid)⟩
  case runningAccounts =>
    refine List.forall_mem_cons.mpr ⟨fun hpos => ?_,
      fun id' hid hpos => hmem _ (h.runningAccounts id' hid hpos)⟩
    rw [markRunning, if_pos hpos]
    exact Finset.mem_insert_self _ _
  case accounts =>
    rw [List.map_cons, List.filter_cons]
    split_ifs with hpos
    · have hpos : 0 < c.accountID id := by simpa using hpos
      refine List.nodup_cons.mpr ⟨fun hmem' => ?_, h.accounts⟩
      obtain ⟨id', hid', heq⟩ := List.mem_map.mp (List.mem_of_mem_filter hmem')
      exact haccount hpos (heq ▸ h.runningAccounts id' hid' (heq ▸ hpos))
    · exact h.accounts
  case total =>
    change (insert id s.running).card ≤ _
    rw [Finset.card_insert_of_notMem hidle]
    exact hfree

/-- Marks are removed that are no live scan's. -/
theorem unmark (h : Marked c s held live) (hidle : ∀ id' ∈ live, id' ≠ id ∧
    (0 < c.accountID id → c.accountID id' ≠ c.accountID id)) :
    Marked c (s.unmark c id) held live where
  nodup := h.nodup
  files := h.files
  running id' hid := Finset.mem_erase.mpr ⟨(hidle id' hid).1, h.running id' hid⟩
  runningAccounts id' hid hpos := by
    unfold Service.unmark
    split_ifs with hacc
    · exact Finset.mem_erase.mpr ⟨(hidle id' hid).2 hacc, h.runningAccounts id' hid hpos⟩
    · exact h.runningAccounts id' hid hpos
  accounts := h.accounts
  total := (Finset.card_erase_le).trans h.total

/-- A scan ends: its marks are no other's. -/
theorem clear (h : Marked c s held (id :: live)) (hid : id ∉ live) :
    Marked c (s.clearTaskRunState c id) held live := by
  have hrest : Marked c (s.unqueue id) held live :=
    { nodup := h.nodup
      files := h.files
      running := fun id' hid' => h.running id' (List.mem_cons_of_mem _ hid')
      runningAccounts := fun id' hid' => h.runningAccounts id' (List.mem_cons_of_mem _ hid')
      accounts := h.accounts.sublist (((List.sublist_cons_self id live).map _).filter _)
      total := h.total }
  refine hrest.unmark fun id' hid' => ⟨fun heq => hid (heq ▸ hid'), fun hpos heq => ?_⟩
  have haccounts := h.accounts
  rw [List.map_cons, List.filter_cons_of_pos (by simpa using hpos)] at haccounts
  refine (List.nodup_cons.mp haccounts).1 (List.mem_filter.mpr ⟨?_, by simpa using hpos⟩)
  exact heq ▸ List.mem_map_of_mem hid'

end Marked

/-! ### Every turn -/

theorem live_sublist_holds (t : Goroutine) : t.live.Sublist t.holds := by
  induction t with
  | stopping _ next ih | unqueuing _ next ih | cancelling _ _ next ih | unmarking _ next ih =>
    exact ih
  | created id | preparing id | scanning id | returning id => exact .refl _
  | _ => exact List.nil_sublist _

theorem flatMap_sublist {f g : Goroutine → List ℤ} (h : ∀ t, (f t).Sublist (g t))
    (ts : List Goroutine) : (ts.flatMap f).Sublist (ts.flatMap g) := by
  induction ts with
  | nil => exact .refl _
  | cons t ts ih => simpa using (h t).append ih

theorem scans_sublist_live (t : Goroutine) : t.scans.Sublist t.live := by
  cases t <;> first | exact .refl _ | exact List.nil_sublist _

/-- The invariant of a pool. -/
def Inv (c : Config) (s : Service) (ts : List Goroutine) : Prop :=
  Marked c s (ts.flatMap Goroutine.holds) (ts.flatMap Goroutine.live)

theorem Inv.exclusive {p : StrmPool} (h : Inv c p.shared p.tasks) : Exclusive c p := by
  have hscans : (p.tasks.flatMap Goroutine.scans).Sublist (p.tasks.flatMap Goroutine.live) :=
    flatMap_sublist scans_sublist_live p.tasks
  have hnodup : (p.tasks.flatMap Goroutine.scans).Nodup :=
    h.nodup.sublist (hscans.trans (flatMap_sublist live_sublist_holds p.tasks))
  constructor
  case accounts => exact h.accounts.sublist ((hscans.map _).filter _)
  case total =>
    rw [← List.toFinset_card_of_nodup hnodup]
    refine (Finset.card_le_card fun id hid => ?_).trans h.total
    exact h.running id (hscans.subset (List.mem_toFinset.mp hid))
  case running => exact fun id hid => h.running id (hscans.subset hid)
  case runningAccounts => exact fun id hid => h.runningAccounts id (hscans.subset hid)

section Turn

variable {s s' : Service} {ts others new : List Goroutine} {t : Goroutine} {id : ℤ}

theorem Inv.perm (h : Inv c s ts) {ts' : List Goroutine} (hperm : ts'.Perm ts) : Inv c s ts' :=
  Marked.perm h (hperm.flatMap_right _) (hperm.flatMap_right _)

/-- A turn that leaves the marks, and hands over what the goroutine held. -/
theorem Inv.replace (h : Inv c s (t :: others)) (hholds : new.flatMap Goroutine.holds = t.holds)
    (hlive : new.flatMap Goroutine.live = t.live) (hfiles : s'.fileOperations = s.fileOperations)
    (hrunning : s'.running = s.running) (haccounts : s'.runningAccounts = s.runningAccounts) :
    Inv c s' (new ++ others) := by
  have hmarked := Marked.of_eq h hfiles hrunning haccounts
  rw [Inv, List.flatMap_append, List.flatMap_append, hholds, hlive]
  simpa only [List.flatMap_cons] using hmarked

/-- What one goroutine holds, no other one scans. -/
theorem Inv.not_mem_live (h : Inv c s (t :: others)) (hid : id ∈ t.holds) :
    id ∉ others.flatMap Goroutine.live := by
  intro hmem
  have hnodup := h.nodup
  rw [List.flatMap_cons, List.nodup_append] at hnodup
  exact hnodup.2.2 id hid id ((flatMap_sublist live_sublist_holds others).subset hmem) rfl

@[simp] theorem enqueueRunLocked_running : (s.enqueueRunLocked id).running = s.running := by
  unfold enqueueRunLocked
  split_ifs <;> rfl

@[simp] theorem enqueueRunLocked_runningAccounts :
    (s.enqueueRunLocked id).runningAccounts = s.runningAccounts := by
  unfold enqueueRunLocked
  split_ifs <;> rfl

@[simp] theorem enqueueRunLocked_fileOperations :
    (s.enqueueRunLocked id).fileOperations = s.fileOperations := by
  unfold enqueueRunLocked
  split_ifs <;> rfl

theorem queuedTasks_marks (tasks : List ListedTask) :
    (s.queuedTasks c tasks).1.running = s.running ∧
      (s.queuedTasks c tasks).1.runningAccounts = s.runningAccounts ∧
      (s.queuedTasks c tasks).1.fileOperations = s.fileOperations := by
  suffices hfold : ∀ e : Service × List ℤ,
      let r := tasks.foldl (fun e task => if e.1.skips c task then e
        else (e.1.enqueueRunLocked task.id, task.id :: e.2)) e
      r.1.running = e.1.running ∧ r.1.runningAccounts = e.1.runningAccounts ∧
        r.1.fileOperations = e.1.fileOperations from hfold (s, [])
  induction tasks with
  | nil => exact fun e => ⟨rfl, rfl, rfl⟩
  | cons task tasks ih =>
    intro e
    obtain ⟨hrunning, haccounts, hfiles⟩ := ih (if e.1.skips c task then e
      else (e.1.enqueueRunLocked task.id, task.id :: e.2))
    refine ⟨hrunning.trans ?_, haccounts.trans ?_, hfiles.trans ?_⟩ <;> split_ifs <;> simp

theorem inv_resume {o : Outcome} {turn : StrmTurn} (h : Inv c s (t :: others))
    (hok : ∀ id, (∃ next, t = .unmarking id next) ∨ t = .deleting id ∧ o = .turn →
      ∀ id' ∈ (t :: others).flatMap Goroutine.live, id' ≠ id ∧
        (0 < c.accountID id → c.accountID id' ≠ c.accountID id))
    (hturn : resume c s t o = some turn) :
    Inv c turn.shared (turn.task :: turn.spawned ++ others) := by
  cases t with
  | requesting id =>
    cases o <;> cases hturn
    · exact h.replace rfl rfl (by simp [request]) (by simp [request]) (by simp [request])
    · exact h.replace rfl rfl (by simp [request]) (by simp [request]) (by simp [request])
  | calling ids =>
    cases ids with
    | nil =>
      cases o <;> cases hturn
      exact h.replace rfl rfl rfl rfl rfl
    | cons id rest =>
      cases o <;> cases hturn
      · cases hbegin : s.tryBeginTaskFileOperation id with
        | none => exact h.replace rfl rfl rfl rfl rfl
        | some s' => exact Marked.begin_ h hbegin
      · exact h.replace rfl rfl rfl rfl rfl
  | starting id rest =>
    cases o <;> cases hturn
    split_ifs with hstart
    · exact Marked.mark h hstart
    · exact h.replace rfl rfl rfl rfl rfl
  | refusing id rest | closing id | moving id =>
    cases o <;> cases hturn
    exact Marked.releaseFiles h
  | created id =>
    cases o <;> cases hturn
    exact h.replace rfl rfl rfl rfl rfl
  | preparing id | scanning id =>
    cases o <;> cases hturn <;> exact h.replace rfl rfl rfl rfl rfl
  | returning id =>
    cases o <;> cases hturn
    exact Marked.clear h (h.not_mem_live (List.mem_singleton_self id))
  | stopping id next =>
    cases o <;> cases hturn
    split_ifs <;> exact h.replace (List.append_nil _) (List.append_nil _) rfl rfl rfl
  | unqueuing id next =>
    cases o <;> cases hturn
    exact h.replace (List.append_nil _) (List.append_nil _) rfl rfl rfl
  | cancelling id cancel next =>
    cases o <;> cases hturn <;>
      exact h.replace (List.append_nil _) (List.append_nil _) rfl rfl rfl
  | unmarking id next =>
    cases o <;> cases hturn
    exact Marked.unmark h (hok id (.inl ⟨next, rfl⟩))
  | deleting id =>
    cases o <;> cases hturn
    · exact Marked.unmark (s := s.unqueue id) (Marked.of_eq h rfl rfl rfl)
        (hok id (.inr ⟨rfl, rfl⟩))
    · exact h.replace rfl rfl rfl rfl rfl
  | ended => cases o <;> cases hturn

theorem inv_event {e : Call} {r : Effect Service Goroutine Empty} (h : Inv c s ts)
    (he : event c s e = some r) : Inv c r.shared (r.spawned ++ ts) := by
  cases e with
  | scheduleOnce tasks =>
    obtain ⟨hrunning, haccounts, hfiles⟩ := queuedTasks_marks (c := c) (s := s) tasks
    cases he
    exact Marked.of_eq h hfiles hrunning haccounts
  | runTaskNow id =>
    cases he
    split_ifs <;> exact h
  | forceStopTask id | deleteTask id =>
    cases he
    exact h
  | fileOperation id =>
    cases he
    cases hbegin : s.tryBeginTaskFileOperation id with
    | none => exact h
    | some s' => exact Marked.begin_ h hbegin
  | fileMutated accountID =>
    cases he
    exact Marked.of_eq h rfl rfl rfl

end Turn

/-! ### Every run -/

theorem inv_step {p q : StrmPool} {a : Action Outcome Call} (h : Inv c p.shared p.tasks)
    (hok : StepUnmarks c p a) (hstep : (system c).step p a = some q) :
    Inv c q.shared q.tasks := by
  obtain ⟨i, o, t, r, others, rfl, hi, hr, hshared, -, hp, hq⟩ | ⟨e, r, rfl, he, hshared, -, hq⟩ :=
    System.step_perm hstep
  · refine Inv.perm ?_ hq
    rw [hshared]
    refine inv_resume (h.perm hp.symm) (fun id hid id' hmem => ?_) hr
    have hidle : Idle c p id := by
      have hunmarks := hok t hi
      obtain ⟨next, rfl⟩ | ⟨rfl, rfl⟩ := hid
      · exact hunmarks
      · exact hunmarks rfl
    obtain ⟨u, hu, hlive⟩ := List.mem_flatMap.mp hmem
    exact hidle u (hp.mem_iff.mpr hu) id' hlive
  · refine Inv.perm ?_ hq
    rw [hshared]
    exact inv_event h he

theorem inv_newService (c : Config) : Inv c newService.shared newService.tasks :=
  ⟨List.nodup_nil, nofun, nofun, nofun, List.nodup_nil, Nat.zero_le _⟩

/-- In every run whose turns remove marks from idle tasks only, the scans are exclusive. -/
theorem scans_exclusive (c : Config) (actions : List (Action Outcome Call))
    (hok : (system c).Along (StepUnmarks c) newService actions) :
    (system c).Throughout (Exclusive c) newService actions :=
  (System.throughout_of_along (I := fun p => Inv c p.shared p.tasks)
    (fun _ _ _ h hok hstep => inv_step h hok hstep) (inv_newService c) hok).mono
      fun _ h => h.exclusive

/-- Two tasks of one account, and place for three scans. -/
def oneAccount : Config := ⟨fun _ => 7, 3⟩

/-- `RunTaskNow` up to the scan; `i` is the caller and `j` the goroutine that scans. -/
def scanRun (id : ℤ) (i j : ℕ) : List (Action Outcome Call) :=
  [.event (.runTaskNow id), .resume i .turn, .resume i .turn, .resume i .turn,
    .resume j .turn, .resume j .turn]

/-- A scan that ends, a stop that comes too late, and a scan of another task. -/
def lateStopRun : List (Action Outcome Call) :=
  scanRun 1 0 1 ++ [.event (.forceStopTask 1), .resume 2 .turn, .resume 1 .turn, .resume 1 .turn,
    .resume 1 .turn, .resume 2 .turn, .resume 2 .turn] ++ scanRun 2 3 4

theorem scans_exclusive_lateStop :
    (system oneAccount).Throughout (Exclusive oneAccount) newService lateStopRun :=
  scans_exclusive oneAccount lateStopRun (by decide +kernel)

/-- A scan is stopped, and another one of the account starts before it has returned. -/
def earlyStopRun : List (Action Outcome Call) :=
  scanRun 1 0 1 ++ [.event (.forceStopTask 1), .resume 2 .turn, .resume 2 .turn,
    .resume 2 .turn] ++ scanRun 2 3 4

/-- Two scans of the account execute. -/
theorem scans_overlap : ∃ p, (system oneAccount).run newService earlyStopRun = some p ∧
    p.tasks.flatMap Goroutine.scans = [1, 2] ∧ ¬Exclusive oneAccount p := by
  have hscans : ∀ p, (system oneAccount).run newService earlyStopRun = some p →
      p.tasks.flatMap Goroutine.scans = [1, 2] := by
    rintro p ⟨⟩
    rfl
  refine ⟨_, rfl, hscans _ rfl, fun h => ?_⟩
  have haccounts := h.accounts
  rw [hscans _ rfl] at haccounts
  revert haccounts
  decide

end AllInOneBackup.LitePan.Strm
