import AllInOneBackup.Concurrency.Turns
import Mathlib.Algebra.BigOperators.Group.List.Basic

/-! The worker pool. All tasks are submitted before a result is received, and both channels and the
workers together have room for five tasks a worker, so a batch that is larger never returns. -/

namespace AllInOneBackup.PanSou.WorkerPool

open Concurrency

variable {β : Type*}

/-! ### `worker_pool.go` -/

/-- The result of a task, nil where the task panics. -/
structure Result (β : Type*) where
  task : ℕ
  value : Option β
  deriving DecidableEq

/-- A worker: at its first `select`, in `runTask`, at its second `select`, or at its end. -/
inductive Worker (β : Type*)
  | waiting
  | running (task : ℕ)
  | sending (r : Result β)
  | exited
  deriving DecidableEq

/-- `ExecuteBatch`: in `Submit`, in `GetResults`, in `Close`, or at its end. -/
inductive Main (β : Type*)
  | submitting (index : ℕ)
  | collecting (results : List (Result β))
  | closing (results : List (Result β))
  | returned (results : List (Result β))
  deriving DecidableEq

/-- The two channels, whether the context is cancelled, whether `taskQueue` is closed, and the counter
of `wg`. -/
structure Shared (β : Type*) where
  main : Main β := .submitting 0
  taskQueue : List ℕ := []
  results : List (Result β) := []
  cancelled : Bool := false
  closed : Bool := false
  running : ℕ := 0
  deriving DecidableEq

abbrev Batch (β : Type*) := Pool (Shared β) (Worker β) Unit

abbrev WorkerTurn (β : Type*) := Turn (Shared β) (Worker β) Unit

abbrev BatchEffect (β : Type*) := Effect (Shared β) (Worker β) Unit

inductive WorkerOutcome (β : Type*)
  | received
  | closed
  | stopped
  | finished (value : Option β)
  | sent

def exit (sh : Shared β) : WorkerTurn β :=
  { shared := { sh with running := sh.running - 1 }, task := .exited }

/-- The turns of a worker; the channels have room for twice the workers. -/
def workerTurn (maxWorkers : ℕ) (sh : Shared β) : Worker β → WorkerOutcome β → Option (WorkerTurn β)
  | .waiting, .received =>
    match sh.taskQueue with
    | [] => none
    | task :: rest => some { shared := { sh with taskQueue := rest }, task := .running task }
  | .waiting, .closed => if sh.taskQueue = [] ∧ sh.closed then some (exit sh) else none
  | .waiting, .stopped => if sh.cancelled then some (exit sh) else none
  | .running task, .finished value => some { shared := sh, task := .sending ⟨task, value⟩ }
  | .sending r, .sent =>
    if sh.results.length < 2 * maxWorkers then
      some { shared := { sh with results := sh.results ++ [r] }, task := .waiting }
    else none
  | .sending _, .stopped => if sh.cancelled then some (exit sh) else none
  | _, _ => none

/-- A turn of `ExecuteBatch`. -/
inductive MainTurn
  | submit
  | collect
  | receive
  | stop
  | close
  | wait

/-- `Close`, up to `wg.Wait`. -/
def close (sh : Shared β) (results : List (Result β)) : BatchEffect β :=
  { shared := { sh with main := .closing results, cancelled := true, closed := true } }

/-- The turns of `ExecuteBatch` with a number of tasks. -/
def mainTurn (tasks maxWorkers : ℕ) (sh : Shared β) : MainTurn → Option (BatchEffect β)
  | .submit =>
    match sh.main with
    | .submitting index =>
      if index < tasks ∧ sh.taskQueue.length < 2 * maxWorkers then some
        { shared := { sh with main := .submitting (index + 1), taskQueue := sh.taskQueue ++ [index] } }
      else none
    | _ => none
  | .collect =>
    match sh.main with
    | .submitting index =>
      if tasks ≤ index then some { shared := { sh with main := .collecting [] } } else none
    | _ => none
  | .receive =>
    match sh.main, sh.results with
    | .collecting results, r :: rest =>
      if results.length < tasks then
        some { shared := { sh with main := .collecting (results ++ [r]), results := rest } }
      else none
    | _, _ => none
  | .stop =>
    match sh.main with
    | .collecting results =>
      if results.length < tasks ∧ sh.cancelled then some (close sh results) else none
    | _ => none
  | .close =>
    match sh.main with
    | .collecting results => if tasks ≤ results.length then some (close sh results) else none
    | _ => none
  | .wait =>
    match sh.main with
    | .closing results =>
      if sh.running = 0 then some { shared := { sh with main := .returned results } } else none
    | _ => none

def system (tasks maxWorkers : ℕ) : System (Shared β) (Worker β) Unit (WorkerOutcome β) MainTurn :=
  ⟨workerTurn maxWorkers, mainTurn tasks maxWorkers⟩

def newWorkerPool (maxWorkers : ℕ) : Batch β :=
  { shared := { running := maxWorkers }, tasks := List.replicate maxWorkers .waiting }

/-- The number of workers of a batch. -/
def workerCount (tasks : ℕ) (maxWorkers : ℤ) : ℤ :=
  if (tasks : ℤ) < maxWorkers then tasks else maxWorkers

/-- `ExecuteBatch`, up to its first task; the channels cannot be made for fewer than no workers. -/
def executeBatch (tasks : ℕ) (maxWorkers : ℤ) : Option (Batch β) :=
  if tasks = 0 then some { shared := { main := .returned [] } }
  else if workerCount tasks maxWorkers < 0 then none
  else some (newWorkerPool (workerCount tasks maxWorkers).toNat)

abbrev batchSystem (β : Type*) (tasks : ℕ) (maxWorkers : ℤ) :
    System (Shared β) (Worker β) Unit (WorkerOutcome β) MainTurn :=
  system tasks (workerCount tasks maxWorkers).toNat

/-! ### The property -/

/-- Every run ends, it ends only where `ExecuteBatch` has returned, and then there is one result for
each task. -/
structure Right (β : Type*) (tasks : ℕ) (maxWorkers : ℤ) (start : Batch β) : Prop where
  ends : ∃ bound, ∀ actions q, (batchSystem β tasks maxWorkers).run start actions = some q →
    actions.length ≤ bound
  goesOn : ∀ q, (batchSystem β tasks maxWorkers).Reachable start q →
    (∃ results, q.shared.main = .returned results) ∨
      ∃ action, ((batchSystem β tasks maxWorkers).step q action).isSome
  results : ∀ q results, (batchSystem β tasks maxWorkers).Reachable start q →
    q.shared.main = .returned results → (results.map (·.task)).Perm (List.range tasks)

/-! ### Turns -/

section Turns

variable {tasks maxWorkers : ℕ} {sh : Shared β}

theorem workerTurn_cases {t : Worker β} {o : WorkerOutcome β} {r : WorkerTurn β}
    (h : workerTurn maxWorkers sh t o = some r) :
    (∃ task rest, t = .waiting ∧ sh.taskQueue = task :: rest ∧
      r = { shared := { sh with taskQueue := rest }, task := .running task }) ∨
    (t = .waiting ∧ (sh.closed ∨ sh.cancelled) ∧ r = exit sh) ∨
    (∃ task value, t = .running task ∧ r = { shared := sh, task := .sending ⟨task, value⟩ }) ∨
    (∃ x, t = .sending x ∧ sh.results.length < 2 * maxWorkers ∧
      r = { shared := { sh with results := sh.results ++ [x] }, task := .waiting }) ∨
    (∃ x, t = .sending x ∧ sh.cancelled ∧ r = exit sh) := by
  unfold workerTurn at h
  split at h
  · split at h
    · cases h
    · exact .inl ⟨_, _, rfl, by assumption, (Option.some.inj h).symm⟩
  · split_ifs at h with hclosed
    exact .inr (.inl ⟨rfl, .inl hclosed.2, (Option.some.inj h).symm⟩)
  · split_ifs at h with hcancelled
    exact .inr (.inl ⟨rfl, .inr hcancelled, (Option.some.inj h).symm⟩)
  · exact .inr (.inr (.inl ⟨_, _, rfl, (Option.some.inj h).symm⟩))
  · split_ifs at h with hroom
    exact .inr (.inr (.inr (.inl ⟨_, rfl, hroom, (Option.some.inj h).symm⟩)))
  · split_ifs at h with hcancelled
    exact .inr (.inr (.inr (.inr ⟨_, rfl, hcancelled, (Option.some.inj h).symm⟩)))
  · cases h

theorem mainTurn_cases {e : MainTurn} {r : BatchEffect β}
    (h : mainTurn tasks maxWorkers sh e = some r) :
    (∃ index, sh.main = .submitting index ∧ index < tasks ∧
      sh.taskQueue.length < 2 * maxWorkers ∧ r = { shared :=
        { sh with main := .submitting (index + 1), taskQueue := sh.taskQueue ++ [index] } }) ∨
    (∃ index, sh.main = .submitting index ∧ tasks ≤ index ∧
      r = { shared := { sh with main := .collecting [] } }) ∨
    (∃ results x rest, sh.main = .collecting results ∧ sh.results = x :: rest ∧
      results.length < tasks ∧
      r = { shared := { sh with main := .collecting (results ++ [x]), results := rest } }) ∨
    (∃ results, sh.main = .collecting results ∧ (tasks ≤ results.length ∨ sh.cancelled) ∧
      r = close sh results) ∨
    (∃ results, sh.main = .closing results ∧ sh.running = 0 ∧
      r = { shared := { sh with main := .returned results } }) := by
  unfold mainTurn at h
  split at h
  · split at h
    · split_ifs at h with hroom
      exact .inl ⟨_, by assumption, hroom.1, hroom.2, (Option.some.inj h).symm⟩
    · cases h
  · split at h
    · split_ifs at h with hall
      exact .inr (.inl ⟨_, by assumption, hall, (Option.some.inj h).symm⟩)
    · cases h
  · split at h
    · split_ifs at h with hleft
      exact .inr (.inr (.inl ⟨_, _, _, by assumption, by assumption, hleft,
        (Option.some.inj h).symm⟩))
    · cases h
  · split at h
    · split_ifs at h with hstop
      exact .inr (.inr (.inr (.inl ⟨_, by assumption, .inr hstop.2, (Option.some.inj h).symm⟩)))
    · cases h
  · split at h
    · split_ifs at h with hall
      exact .inr (.inr (.inr (.inl ⟨_, by assumption, .inl hall, (Option.some.inj h).symm⟩)))
    · cases h
  · split at h
    · split_ifs at h with hidle
      exact .inr (.inr (.inr (.inr ⟨_, by assumption, hidle, (Option.some.inj h).symm⟩)))
    · cases h

end Turns

/-! ### What every step keeps -/

def Worker.task : Worker β → Option ℕ
  | .running task => some task
  | .sending r => some r.task
  | _ => none

def Worker.active : Worker β → Bool
  | .exited => false
  | _ => true

/-- The number of tasks that have been submitted. -/
def Main.submitted (tasks : ℕ) : Main β → ℕ
  | .submitting index => index
  | _ => tasks

/-- What `GetResults` has received. -/
def Main.collected : Main β → List (Result β)
  | .submitting _ => []
  | .collecting results | .closing results | .returned results => results

/-- `Close` has been called. -/
def Main.ended : Main β → Bool
  | .closing _ | .returned _ => true
  | _ => false

/-- The tasks in the channels, with the workers and with the collector. -/
def held (sh : Shared β) (ts : List (Worker β)) : List ℕ :=
  sh.taskQueue ++ ts.filterMap Worker.task ++ sh.results.map (·.task) ++
    sh.main.collected.map (·.task)

/-- Every task that has been submitted is somewhere. -/
structure Inv (tasks maxWorkers : ℕ) (sh : Shared β) (ts : List (Worker β)) : Prop where
  held : (held sh ts).Perm (List.range (sh.main.submitted tasks))
  submitted : sh.main.submitted tasks ≤ tasks
  taskQueue : sh.taskQueue.length ≤ 2 * maxWorkers
  results : sh.results.length ≤ 2 * maxWorkers
  workers : ts.length = maxWorkers
  running : sh.running = ts.countP Worker.active
  exited : .exited ∈ ts → sh.main.ended
  cancelled : sh.cancelled = sh.main.ended
  closed : sh.closed = sh.main.ended
  all : sh.main.ended → sh.main.collected.length = tasks

section Steps

variable {tasks maxWorkers : ℕ} {sh sh' : Shared β} {ts ts' others : List (Worker β)}

theorem Inv.perm (h : Inv tasks maxWorkers sh ts) (hp : ts.Perm ts') :
    Inv tasks maxWorkers sh ts' := by
  refine ⟨?_, h.submitted, h.taskQueue, h.results, hp.length_eq ▸ h.workers,
    by rw [h.running, hp.countP_eq], fun hx => h.exited (hp.mem_iff.mpr hx), h.cancelled, h.closed,
    h.all⟩
  have hheld : (WorkerPool.held sh ts').Perm (WorkerPool.held sh ts) :=
    ((((hp.symm.filterMap _).append_left _).append_right _).append_right _)
  exact hheld.trans h.held

/-- The tasks that are held are counted one by one. -/
theorem count_held (sh : Shared β) (t : Worker β) (others : List (Worker β)) (k : ℕ) :
    (held sh (t :: others)).count k =
      sh.taskQueue.count k + (t.task.toList.count k + (others.filterMap Worker.task).count k) +
        (sh.results.map (·.task)).count k + (sh.main.collected.map (·.task)).count k := by
  have hcons : (t :: others).filterMap Worker.task =
      t.task.toList ++ others.filterMap Worker.task := by
    cases htask : t.task <;> simp [htask]
  rw [held, hcons, List.count_append, List.count_append, List.count_append, List.count_append]

/-- A turn of a worker that keeps the tasks held and leaves `ExecuteBatch` where it is. -/
theorem Inv.turn {t t' : Worker β} (h : Inv tasks maxWorkers sh (t :: others))
    (hmain : sh'.main = sh.main) (hcancelled : sh'.cancelled = sh.cancelled)
    (hclosed : sh'.closed = sh.closed)
    (hheld : ∀ k, (WorkerPool.held sh' (t' :: others)).count k =
      (WorkerPool.held sh (t :: others)).count k)
    (hqueue : sh'.taskQueue.length ≤ 2 * maxWorkers)
    (hresults : sh'.results.length ≤ 2 * maxWorkers) (ht : t.active)
    (hrunning : sh'.running = if t'.active then sh.running else sh.running - 1)
    (hexited : t' = .exited → sh.main.ended) : Inv tasks maxWorkers sh' (t' :: others) := by
  refine ⟨?_, hmain ▸ h.submitted, hqueue, hresults, h.workers, ?_, fun hx => ?_,
    by rw [hcancelled, hmain]; exact h.cancelled, by rw [hclosed, hmain]; exact h.closed,
    hmain ▸ h.all⟩
  · rw [hmain]
    exact (List.perm_iff_count.mpr hheld).trans h.held
  · have hcount := h.running
    rw [List.countP_cons_of_pos ht] at hcount
    rw [hrunning]
    split_ifs with hactive
    · rw [List.countP_cons_of_pos hactive, hcount]
    · rw [List.countP_cons_of_neg hactive]
      omega
  · rw [hmain]
    rcases List.mem_cons.mp hx with heq | hx
    · exact hexited heq.symm
    · exact h.exited (List.mem_cons_of_mem _ hx)

theorem Inv.length_held (h : Inv tasks maxWorkers sh ts) :
    sh.taskQueue.length + (ts.filterMap Worker.task).length + sh.results.length +
      sh.main.collected.length = sh.main.submitted tasks := by
  have hlength := h.held.length_eq
  rw [WorkerPool.held, List.length_append, List.length_append, List.length_append, List.length_map,
    List.length_map, List.length_range] at hlength
  exact hlength

theorem submitted_of_ended (h : sh.main.ended) : sh.main.submitted tasks = tasks := by
  cases hmain : sh.main with
  | submitting index | collecting results =>
    rw [hmain] at h
    cases h
  | closing results | returned results => rfl

/-- After `Close` has been called only the collector holds tasks. -/
theorem Inv.idle (h : Inv tasks maxWorkers sh ts) (hend : sh.main.ended) :
    sh.taskQueue = [] ∧ ts.filterMap Worker.task = [] ∧ sh.results = [] := by
  have hlength := h.length_held
  rw [h.all hend, submitted_of_ended hend] at hlength
  refine ⟨List.length_eq_zero_iff.mp ?_, List.length_eq_zero_iff.mp ?_,
    List.length_eq_zero_iff.mp ?_⟩ <;> omega

theorem Inv.worker {t : Worker β} {o : WorkerOutcome β} {r : WorkerTurn β}
    (h : Inv tasks maxWorkers sh (t :: others)) (hr : workerTurn maxWorkers sh t o = some r) :
    Inv tasks maxWorkers r.shared (r.task :: others) := by
  obtain ⟨task, rest, rfl, hqueue, rfl⟩ | ⟨rfl, hend, rfl⟩ | ⟨task, value, rfl, rfl⟩ |
    ⟨x, rfl, hroom, rfl⟩ | ⟨x, rfl, hcancelled, rfl⟩ := workerTurn_cases hr
  · refine h.turn rfl rfl rfl (fun k => ?_) ?_ h.results rfl rfl (by simp)
    · rw [count_held, count_held, hqueue]
      simp only [Worker.task, Option.toList_some, Option.toList_none, List.count_cons,
        List.count_nil]
      omega
    · have hle := h.taskQueue
      rw [hqueue, List.length_cons] at hle
      simp only
      omega
  · refine h.turn rfl rfl rfl (fun k => ?_) h.taskQueue h.results rfl rfl (fun _ => ?_)
    · rw [count_held, count_held]
      rfl
    · rcases hend with hclosed | hcancelled
      · rw [← h.closed]
        exact hclosed
      · rw [← h.cancelled]
        exact hcancelled
  · refine h.turn rfl rfl rfl (fun k => ?_) h.taskQueue h.results rfl rfl (by simp)
    rw [count_held, count_held]
    rfl
  · refine h.turn rfl rfl rfl (fun k => ?_) h.taskQueue ?_ rfl rfl (by simp)
    · rw [count_held, count_held]
      simp only [Worker.task, Option.toList_some, Option.toList_none, List.map_append,
        List.map_cons, List.map_nil, List.count_append, List.count_cons, List.count_nil]
      omega
    · simp only [List.length_append, List.length_cons, List.length_nil]
      omega
  · exfalso
    rw [h.cancelled] at hcancelled
    have hidle := (h.idle hcancelled).2.1
    have htask : x.task ∈ (Worker.sending x :: others).filterMap Worker.task :=
      List.mem_filterMap.mpr ⟨_, List.mem_cons_self, rfl⟩
    rw [hidle] at htask
    cases htask

theorem Inv.main {e : MainTurn} {r : BatchEffect β} (h : Inv tasks maxWorkers sh ts)
    (hr : mainTurn tasks maxWorkers sh e = some r) :
    r.spawned = [] ∧ Inv tasks maxWorkers r.shared ts := by
  have hheld := h.held
  have hexited := h.exited
  have hcancelled := h.cancelled
  have hclosed := h.closed
  obtain ⟨index, hmain, hlt, hroom, rfl⟩ | ⟨index, hmain, hall, rfl⟩ |
    ⟨results, x, rest, hmain, hres, hlt, rfl⟩ | ⟨results, hmain, hend, rfl⟩ |
    ⟨results, hmain, hidle, rfl⟩ := mainTurn_cases hr <;> rw [hmain] at hexited hcancelled hclosed <;>
    refine ⟨rfl, ?_⟩
  · refine ⟨?_, hlt, ?_, h.results, h.workers, h.running, hexited, hcancelled, hclosed, by simp [Main.ended]⟩
    · simp only [Main.submitted, List.range_succ]
      refine List.perm_iff_count.mpr fun k => ?_
      have hcount := List.perm_iff_count.mp hheld k
      simp only [WorkerPool.held, hmain, Main.submitted, Main.collected, List.count_append] at hcount ⊢
      omega
    · simp only [List.length_append, List.length_cons, List.length_nil]
      omega
  · have hindex : index = tasks := by
      have hle := h.submitted
      rw [hmain] at hle
      exact le_antisymm hle hall
    refine ⟨?_, le_refl _, h.taskQueue, h.results, h.workers, h.running, hexited, hcancelled, hclosed,
      by simp [Main.ended]⟩
    simpa only [WorkerPool.held, hmain, Main.submitted, Main.collected, hindex] using hheld
  · refine ⟨?_, le_refl _, h.taskQueue, ?_, h.workers, h.running, hexited, hcancelled, hclosed,
      by simp [Main.ended]⟩
    · refine List.perm_iff_count.mpr fun k => ?_
      have hcount := List.perm_iff_count.mp hheld k
      simp only [WorkerPool.held, hmain, hres, Main.submitted, Main.collected, List.count_append,
        List.map_cons, List.map_append, List.map_nil, List.count_cons, List.count_nil] at hcount ⊢
      omega
    · have hle := h.results
      rw [hres, List.length_cons] at hle
      simp only
      omega
  · have hnone : sh.cancelled = false := hcancelled
    have hlength := h.length_held
    rw [hmain] at hlength
    simp only [Main.collected, Main.submitted] at hlength
    refine ⟨?_, le_refl _, h.taskQueue, h.results, h.workers, h.running, fun _ => rfl, rfl, rfl,
      fun _ => ?_⟩
    · simpa only [WorkerPool.held, hmain, Main.submitted, Main.collected, close] using hheld
    · rcases hend with hall | hstop
      · simp only [close, Main.collected]
        omega
      · rw [hnone] at hstop
        cases hstop
  · refine ⟨?_, le_refl _, h.taskQueue, h.results, h.workers, h.running, fun _ => rfl, hcancelled,
      hclosed, fun _ => ?_⟩
    · simpa only [WorkerPool.held, hmain, Main.submitted, Main.collected] using hheld
    · have hall := h.all
      rw [hmain] at hall
      exact hall rfl

theorem Inv.step {p q : Batch β} {a : Action (WorkerOutcome β) MainTurn}
    (h : Inv tasks maxWorkers p.shared p.tasks)
    (hs : (system tasks maxWorkers).step p a = some q) : Inv tasks maxWorkers q.shared q.tasks := by
  obtain ⟨k, o, t, r, others, rfl, ht, hr, hshared, -, hp, hq⟩ | ⟨e, r, rfl, hr, hshared, -, hq⟩ :=
    System.step_perm hs
  · have hspawned : r.spawned = [] := by
      obtain ⟨task, rest, -, -, rfl⟩ | ⟨-, -, rfl⟩ | ⟨task, value, -, rfl⟩ | ⟨x, -, -, rfl⟩ |
        ⟨x, -, -, rfl⟩ := workerTurn_cases hr <;> rfl
    rw [hspawned] at hq
    rw [hshared]
    exact ((h.perm hp).worker hr).perm hq.symm
  · obtain ⟨hspawned, hinv⟩ := h.main hr
    rw [hspawned, List.nil_append] at hq
    rw [hshared]
    exact hinv.perm hq.symm

theorem inv_newWorkerPool (tasks maxWorkers : ℕ) :
    Inv tasks maxWorkers (newWorkerPool (β := β) maxWorkers).shared
      (newWorkerPool (β := β) maxWorkers).tasks := by
  have hidle : ∀ t ∈ List.replicate maxWorkers (Worker.waiting : Worker β), t = .waiting :=
    fun t ht => List.eq_of_mem_replicate ht
  refine ⟨?_, Nat.zero_le _, Nat.zero_le _, Nat.zero_le _, List.length_replicate, ?_, fun hx => ?_,
    rfl, rfl, by simp [newWorkerPool, Main.ended]⟩
  · have htasks : (List.replicate maxWorkers (Worker.waiting : Worker β)).filterMap Worker.task = [] :=
      List.filterMap_eq_nil_iff.mpr fun t ht => by rw [hidle t ht]; rfl
    simp [WorkerPool.held, newWorkerPool, Main.collected, Main.submitted, htasks]
  · have hactive : ∀ t ∈ List.replicate maxWorkers (Worker.waiting : Worker β), t.active = true :=
      fun t ht => by rw [hidle t ht]; rfl
    simp only [newWorkerPool]
    rw [List.countP_eq_length.mpr hactive, List.length_replicate]
  · cases hidle _ hx

end Steps

/-! ### Runs are finite -/

/-- The turns that a worker has before it at most. -/
def Worker.weight : Worker β → ℕ
  | .waiting => 1
  | .running _ => 4
  | .sending _ => 3
  | .exited => 0

def Main.phase : Main β → ℕ
  | .submitting _ => 3
  | .collecting _ => 2
  | .closing _ => 1
  | .returned _ => 0

/-- What every step uses up. -/
def potential (tasks : ℕ) (p : Batch β) : ℕ :=
  5 * (tasks - p.shared.main.submitted tasks) + 4 * p.shared.taskQueue.length +
    (p.tasks.map Worker.weight).sum + p.shared.results.length + p.shared.main.phase

theorem potential_step {tasks maxWorkers : ℕ} {p q : Batch β}
    {a : Action (WorkerOutcome β) MainTurn} (hs : (system tasks maxWorkers).step p a = some q) :
    potential tasks q < potential tasks p := by
  unfold potential
  obtain ⟨k, o, t, r, others, rfl, ht, hr, hshared, -, hp, hq⟩ | ⟨e, r, rfl, hr, hshared, -, hq⟩ :=
    System.step_perm hs
  · have hweights : (p.tasks.map Worker.weight).sum = t.weight + (others.map Worker.weight).sum := by
      rw [(hp.map _).sum_eq, List.map_cons, List.sum_cons]
    have hweights' : (q.tasks.map Worker.weight).sum = r.task.weight +
        (r.spawned.map Worker.weight).sum + (others.map Worker.weight).sum := by
      rw [(hq.map _).sum_eq, List.map_append, List.map_cons, List.sum_append, List.sum_cons]
    rw [hweights, hweights', hshared]
    obtain ⟨task, rest, rfl, hqueue, rfl⟩ | ⟨rfl, -, rfl⟩ | ⟨task, value, rfl, rfl⟩ |
      ⟨x, rfl, -, rfl⟩ | ⟨x, rfl, -, rfl⟩ := workerTurn_cases hr
    · simp only [hqueue, List.length_cons, Worker.weight, List.map_nil, List.sum_nil]
      omega
    · simp only [exit, Worker.weight, List.map_nil, List.sum_nil]
      omega
    · simp only [Worker.weight, List.map_nil, List.sum_nil]
      omega
    · simp only [Worker.weight, List.map_nil, List.sum_nil, List.length_append, List.length_cons,
        List.length_nil]
      omega
    · simp only [exit, Worker.weight, List.map_nil, List.sum_nil]
      omega
  · rw [(hq.map _).sum_eq, hshared]
    obtain ⟨index, hmain, hlt, -, rfl⟩ | ⟨index, hmain, hall, rfl⟩ |
      ⟨results, x, rest, hmain, hres, -, rfl⟩ | ⟨results, hmain, -, rfl⟩ |
      ⟨results, hmain, -, rfl⟩ := mainTurn_cases hr
    · simp only [hmain, Main.submitted, Main.phase, List.length_append, List.length_cons,
        List.length_nil, List.nil_append]
      omega
    · simp only [hmain, Main.submitted, Main.phase, List.nil_append]
      omega
    · simp only [hmain, hres, Main.submitted, Main.phase, List.length_cons, List.nil_append]
      omega
    · simp only [hmain, close, Main.submitted, Main.phase, List.nil_append]
      omega
    · simp only [hmain, Main.submitted, Main.phase, List.nil_append]
      omega

/-! ### Some party can take a step -/

section Progress

variable {tasks maxWorkers : ℕ} {p : Batch β}

theorem step_of_worker {t : Worker β} {o : WorkerOutcome β} (ht : t ∈ p.tasks)
    (h : (workerTurn maxWorkers p.shared t o).isSome) :
    ∃ a, ((system tasks maxWorkers).step p a).isSome := by
  obtain ⟨k, hk⟩ := List.mem_iff_getElem?.mp ht
  obtain ⟨r, hr⟩ := Option.isSome_iff_exists.mp h
  refine ⟨.resume k o, ?_⟩
  have hresume : (system tasks maxWorkers).resume p.shared t o = some r := hr
  simp only [System.step, hk, Option.bind_some, hresume, Option.map_some, Option.isSome_some]

theorem step_of_main {e : MainTurn} (h : (mainTurn tasks maxWorkers p.shared e).isSome) :
    ∃ a, ((system tasks maxWorkers).step p a).isSome := by
  obtain ⟨r, hr⟩ := Option.isSome_iff_exists.mp h
  refine ⟨.event e, ?_⟩
  have hevent : (system tasks maxWorkers).event p.shared e = some r := hr
  simp only [System.step, hevent, Option.map_some, Option.isSome_some]

/-- Workers that cannot go on wait for a task, or for room for a result. -/
theorem step_or_blocked (h : Inv tasks maxWorkers p.shared p.tasks) (hend : p.shared.main.ended = false) :
    (∃ a, ((system tasks maxWorkers).step p a).isSome) ∨
      (p.shared.taskQueue = [] ∨ .waiting ∉ p.tasks) ∧
        (2 * maxWorkers ≤ p.shared.results.length ∨ ∀ t ∈ p.tasks, t = .waiting) ∧
        ∀ t ∈ p.tasks, t = .waiting ∨ ∃ r, t = .sending r := by
  by_cases hstep : ∃ a, ((system tasks maxWorkers).step p a).isSome
  · exact .inl hstep
  · right
    have hkinds : ∀ t ∈ p.tasks, t = .waiting ∨ ∃ r, t = .sending r := by
      intro t ht
      cases t with
      | waiting => exact .inl rfl
      | sending r => exact .inr ⟨r, rfl⟩
      | running task => exact absurd (step_of_worker (o := .finished none) ht rfl) hstep
      | exited =>
        rw [h.exited ht] at hend
        cases hend
    refine ⟨?_, ?_, hkinds⟩
    · by_contra hboth
      obtain ⟨hqueue, hwaiting⟩ := not_or.mp hboth
      rw [not_not] at hwaiting
      refine hstep (step_of_worker (o := .received) hwaiting ?_)
      obtain ⟨task, rest, hcons⟩ := List.exists_cons_of_ne_nil hqueue
      simp only [workerTurn, hcons, Option.isSome_some]
    · by_contra hboth
      obtain ⟨hroom, hother⟩ := not_or.mp hboth
      obtain ⟨t, ht⟩ := not_forall.mp hother
      obtain ⟨ht, hne⟩ := Classical.not_imp.mp ht
      obtain ⟨r, rfl⟩ := (hkinds t ht).resolve_left hne
      refine hstep (step_of_worker (o := .sent) ht ?_)
      simp only [workerTurn, if_pos (by omega : p.shared.results.length < 2 * maxWorkers),
        Option.isSome_some]

theorem tasks_waiting (h : ∀ t ∈ p.tasks, t = .waiting) : p.tasks.filterMap Worker.task = [] :=
  List.filterMap_eq_nil_iff.mpr fun t ht => by rw [h t ht]; rfl

/-- Five tasks a worker find room. -/
theorem progress (h : Inv tasks maxWorkers p.shared p.tasks) (hpos : 0 < tasks)
    (hroom : tasks ≤ 5 * maxWorkers) : (∃ results, p.shared.main = .returned results) ∨
      ∃ a, ((system tasks maxWorkers).step p a).isSome := by
  have hlength := h.length_held
  have hworkers := h.workers
  have hne : ∃ t, t ∈ p.tasks := List.exists_mem_of_length_pos (by omega)
  cases hmain : p.shared.main with
  | submitting index =>
    right
    rw [hmain] at hlength
    simp only [Main.submitted, Main.collected, List.length_nil] at hlength
    by_cases hall : tasks ≤ index
    · exact step_of_main (e := .collect) (by simp only [mainTurn, hmain, if_pos hall, Option.isSome_some])
    · by_cases hqueue : p.shared.taskQueue.length < 2 * maxWorkers
      · refine step_of_main (e := .submit) ?_
        simp only [mainTurn, hmain, if_pos (⟨not_le.mp hall, hqueue⟩ : _ ∧ _), Option.isSome_some]
      · rcases step_or_blocked h (by rw [hmain]; rfl) with hstep | ⟨hnotask, hfull, hkinds⟩
        · exact hstep
        · exfalso
          have hnowait : .waiting ∉ p.tasks := by
            rcases hnotask with hnil | hnowait
            · rw [hnil, List.length_nil] at hqueue
              omega
            · exact hnowait
          have hsending : (p.tasks.filterMap Worker.task).length = p.tasks.length := by
            rw [List.length_filterMap_eq_countP, List.countP_eq_length]
            intro t ht
            obtain rfl | ⟨r, rfl⟩ := hkinds t ht
            · exact absurd ht hnowait
            · rfl
          rcases hfull with hfull | hwaiting
          · omega
          · obtain ⟨t, ht⟩ := hne
            exact hnowait (hwaiting t ht ▸ ht)
  | collecting results =>
    right
    rw [hmain] at hlength
    simp only [Main.submitted, Main.collected] at hlength
    by_cases hall : tasks ≤ results.length
    · exact step_of_main (e := .close) (by simp only [mainTurn, hmain, if_pos hall, Option.isSome_some])
    · cases hres : p.shared.results with
      | cons x rest =>
        refine step_of_main (e := .receive) ?_
        simp only [mainTurn, hmain, hres, if_pos (not_le.mp hall), Option.isSome_some]
      | nil =>
        rcases step_or_blocked h (by rw [hmain]; rfl) with hstep | ⟨hnotask, hfull, hkinds⟩
        · exact hstep
        · exfalso
          have hwaiting : ∀ t ∈ p.tasks, t = .waiting := by
            rcases hfull with hfull | hwaiting
            · rw [hres, List.length_nil] at hfull
              omega
            · exact hwaiting
          obtain ⟨t, ht⟩ := hne
          have hnil : p.shared.taskQueue = [] :=
            hnotask.resolve_right fun hnowait => hnowait (hwaiting t ht ▸ ht)
          rw [hnil, hres, tasks_waiting hwaiting] at hlength
          simp only [List.length_nil] at hlength
          omega
  | closing results =>
    right
    by_cases hidle : p.shared.running = 0
    · exact step_of_main (e := .wait) (by simp only [mainTurn, hmain, if_pos hidle, Option.isSome_some])
    · have hcancelled : p.shared.cancelled = true := by
        rw [h.cancelled, hmain]
        rfl
      rw [h.running] at hidle
      obtain ⟨t, ht, hactive⟩ := List.countP_pos_iff.mp (Nat.pos_of_ne_zero hidle)
      cases t with
      | waiting =>
        refine step_of_worker (o := .stopped) ht ?_
        simp only [workerTurn, if_pos hcancelled, Option.isSome_some]
      | running task => exact step_of_worker (o := .finished none) ht rfl
      | sending r =>
        refine step_of_worker (o := .stopped) ht ?_
        simp only [workerTurn, if_pos hcancelled, Option.isSome_some]
      | exited => cases hactive
  | returned results => exact .inl ⟨results, rfl⟩

end Progress

/-! ### Larger batches -/

section Full

variable {tasks maxWorkers : ℕ}

/-- `Submit` is not left while there is less room than there are tasks. -/
theorem submitting_step {p q : Batch β} {a : Action (WorkerOutcome β) MainTurn} {index : ℕ}
    (hroom : 5 * maxWorkers < tasks) (h : Inv tasks maxWorkers p.shared p.tasks)
    (hmain : p.shared.main = .submitting index) (hs : (system tasks maxWorkers).step p a = some q) :
    ∃ index', q.shared.main = .submitting index' := by
  obtain ⟨k, o, t, r, others, rfl, ht, hr, hshared, -, hp, hq⟩ | ⟨e, r, rfl, hr, hshared, -, hq⟩ :=
    System.step_perm hs
  · refine ⟨index, ?_⟩
    rw [hshared, ← hmain]
    obtain ⟨task, rest, -, -, rfl⟩ | ⟨-, -, rfl⟩ | ⟨task, value, -, rfl⟩ | ⟨x, -, -, rfl⟩ |
      ⟨x, -, -, rfl⟩ := workerTurn_cases hr <;> rfl
  · rw [hshared]
    obtain ⟨i, hsub, -, -, rfl⟩ | ⟨i, hsub, hall, rfl⟩ | ⟨results, x, rest, hcol, -, -, rfl⟩ |
      ⟨results, hcol, -, rfl⟩ | ⟨results, hcol, -, rfl⟩ := mainTurn_cases hr
    · exact ⟨i + 1, rfl⟩
    · exfalso
      have hlength := h.length_held
      have hqueue := h.taskQueue
      have hresults := h.results
      have htasks := List.length_filterMap_le Worker.task p.tasks
      rw [hsub] at hlength
      rw [h.workers] at htasks
      simp only [Main.submitted, Main.collected, List.length_nil] at hlength
      omega
    all_goals
      rw [hmain] at hcol
      cases hcol

/-- A batch for which there is no room ends in `Submit`. -/
theorem exists_full (hroom : 5 * maxWorkers < tasks) :
    ∃ q index, (system tasks maxWorkers).Reachable (newWorkerPool (β := β) maxWorkers) q ∧
      q.shared.main = .submitting index ∧ ∀ a, (system tasks maxWorkers).step q a = none := by
  obtain ⟨q, hq, ⟨-, index, hmain⟩, hstuck⟩ := System.exists_stuck
    (I := fun p => Inv tasks maxWorkers p.shared p.tasks ∧ ∃ index, p.shared.main = .submitting index)
    (φ := potential tasks)
    (fun p a q hp hs => ⟨hp.1.step hs, hp.2.elim fun index hmain =>
      submitting_step hroom hp.1 hmain hs⟩)
    (fun p a q _ hs => potential_step hs)
    ⟨inv_newWorkerPool (β := β) tasks maxWorkers, 0, rfl⟩
  exact ⟨q, index, hq, hmain, hstuck⟩

end Full

/-! ### `ExecuteBatch` -/

section Batches

variable {tasks : ℕ} {maxWorkers : ℤ}

/-- There is room for the tasks exactly when there is for as many workers as may be asked for. -/
theorem room_iff :
    (0 ≤ workerCount tasks maxWorkers ∧ tasks ≤ 5 * (workerCount tasks maxWorkers).toNat) ↔
      (tasks : ℤ) ≤ 5 * maxWorkers := by
  unfold workerCount
  split_ifs <;> omega

theorem right_of_room (hpos : tasks ≠ 0)
    (hroom : tasks ≤ 5 * (workerCount tasks maxWorkers).toNat) :
    Right β tasks maxWorkers (newWorkerPool (workerCount tasks maxWorkers).toNat) := by
  have hkept : ∀ q, (batchSystem β tasks maxWorkers).Reachable
      (newWorkerPool (workerCount tasks maxWorkers).toNat) q →
      Inv tasks (workerCount tasks maxWorkers).toNat q.shared q.tasks :=
    fun q ⟨actions, hrun⟩ => (System.throughout_of_step
      (I := fun p => Inv tasks (workerCount tasks maxWorkers).toNat p.shared p.tasks)
      (fun p a q hp hs => hp.step hs) (inv_newWorkerPool _ _) actions).last hrun
  refine ⟨⟨potential tasks (newWorkerPool (β := β) (workerCount tasks maxWorkers).toNat), ?_⟩, ?_, ?_⟩
  · intro actions q hrun
    have hlength := System.length_add_le (I := fun _ => True) (fun _ _ _ _ _ => trivial)
      (fun p a q _ hs => potential_step hs) trivial hrun
    omega
  · exact fun q hq => progress (hkept q hq) (Nat.pos_of_ne_zero hpos) hroom
  · intro q results hq hmain
    have hinv := hkept q hq
    have hend : q.shared.main.ended = true := by rw [hmain]; rfl
    obtain ⟨hqueue, hworkers, hresults⟩ := hinv.idle hend
    have hheld := hinv.held
    rw [held, hqueue, hworkers, hresults, submitted_of_ended hend, hmain] at hheld
    exact hheld

theorem not_right_of_full (hroom : 5 * (workerCount tasks maxWorkers).toNat < tasks) :
    ¬ Right β tasks maxWorkers (newWorkerPool (workerCount tasks maxWorkers).toNat) := by
  intro hright
  obtain ⟨q, index, hq, hmain, hstuck⟩ := exists_full (β := β) hroom
  rcases hright.goesOn q hq with ⟨results, hreturned⟩ | ⟨a, ha⟩
  · rw [hmain] at hreturned
    cases hreturned
  · rw [hstuck a] at ha
    cases ha

/-- Without tasks `ExecuteBatch` returns at once. -/
theorem right_nil : Right β 0 maxWorkers { shared := { main := .returned [] } } := by
  have hstuck : ∀ a, (batchSystem β 0 maxWorkers).step
      { shared := { main := .returned [] }, tasks := [] } a = none := by
    intro a
    cases a with
    | resume k o => rfl
    | event e => cases e <;> rfl
  have hstay : ∀ q, (batchSystem β 0 maxWorkers).Reachable
      { shared := { main := .returned [] }, tasks := [] } q →
      q = { shared := { main := .returned [] }, tasks := [] } := by
    rintro q ⟨actions, hrun⟩
    refine (System.throughout_of_step
      (I := fun p => p = { shared := { main := .returned [] }, tasks := [] })
      (fun p a q hp hs => ?_) rfl actions).last hrun
    rw [hp, hstuck a] at hs
    cases hs
  refine ⟨⟨0, fun actions q hrun => ?_⟩, fun q hq => ?_, fun q results hq hmain => ?_⟩
  · cases actions with
    | nil => exact le_refl _
    | cons a as =>
      obtain ⟨p', hs, -⟩ := (System.run_cons _).mp hrun
      rw [hstuck a] at hs
      cases hs
  · exact .inl ⟨[], by rw [hstay q hq]⟩
  · rw [hstay q hq] at hmain
    obtain rfl := Main.returned.inj hmain
    exact List.Perm.refl _

end Batches

/-- `ExecuteBatch` returns, with one result for each task, exactly when there are at most five tasks
for each worker that may be started. -/
theorem executeBatch_right_iff (β : Type*) (tasks : ℕ) (maxWorkers : ℤ) :
    (∃ start, executeBatch tasks maxWorkers = some start ∧ Right β tasks maxWorkers start) ↔
      tasks = 0 ∨ (tasks : ℤ) ≤ 5 * maxWorkers := by
  by_cases hzero : tasks = 0
  · subst hzero
    exact ⟨fun _ => .inl rfl, fun _ => ⟨_, rfl, right_nil⟩⟩
  · rw [or_iff_right hzero, ← room_iff]
    simp only [executeBatch, if_neg hzero]
    constructor
    · rintro ⟨start, hstart, hright⟩
      split_ifs at hstart with hneg
      obtain rfl := Option.some.inj hstart
      refine ⟨not_lt.mp hneg, ?_⟩
      by_contra hfull
      exact not_right_of_full (not_le.mp hfull) hright
    · rintro ⟨hnonneg, hroom⟩
      rw [if_neg (not_lt.mpr hnonneg)]
      exact ⟨_, rfl, right_of_room hzero hroom⟩

/-- Six tasks do not find room with one worker. -/
theorem six_tasks_one_worker :
    executeBatch (β := Unit) 6 1 = some (newWorkerPool 1) ∧
      ¬ Right Unit 6 1 (newWorkerPool 1) :=
  ⟨rfl, not_right_of_full (by decide)⟩

end AllInOneBackup.PanSou.WorkerPool
