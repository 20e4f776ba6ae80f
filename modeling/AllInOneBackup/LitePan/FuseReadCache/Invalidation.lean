import AllInOneBackup.LitePan.FuseReadCache.Service

/-! Invalidation. A fetch begins without the mutex and its block is put later, under the lock
but with no look at what has happened since. So an invalidation of the file may be undone when it
comes between the two, and in a run where none does it never is. -/

namespace AllInOneBackup.LitePan.FuseReadCache

open Concurrency

/-- No block was stored after an invalidation of its file that came after the start of its fetch. -/
def NotUndone (p : ReadPool) : Prop :=
  ∀ key startedAfter invalidations, .stored key startedAfter invalidations ∈ p.trace →
    invalidations ≤ startedAfter

/-- The task is between the start of a fetch from the file and the put. -/
def Pending (accountId : ℤ) (fileId : String) : Task → Prop
  | .fetching r _ _ | .putting r _ _ _ _ => r.accountId = accountId ∧ r.fileId = fileId
  | _ => False

instance (accountId : ℤ) (fileId : String) : DecidablePred (Pending accountId fileId)
  | .fetching _ _ _ | .putting _ _ _ _ _ => inferInstanceAs (Decidable (_ ∧ _))
  | .loading _ _ | .passing _ | .finished => .isFalse id

/-- An invalidation of a file finds no call between the start of a fetch from it and the put. -/
def NonePending (p : ReadPool) : Action Outcome Call → Prop
  | .event (.invalidateFile accountId fileId _) => ∀ t ∈ p.tasks, ¬Pending accountId fileId t
  | _ => True

instance (p : ReadPool) : DecidablePred (NonePending p)
  | .event (.invalidateFile _ _ _) => inferInstanceAs (Decidable (∀ t ∈ _, ¬Pending _ _ t))
  | .event (.readAt _) | .event (.invalidateAccount _ _) | .event (.clearAll _ _)
  | .event (.updateSettings _) | .resume _ _ => .isTrue trivial

/-- What is fetched or about to be put is asked for after the last invalidation of its file. -/
def Fresh (s : State) : Task → Prop
  | .fetching r _ startedAfter | .putting r _ _ _ startedAfter =>
    startedAfter = s.invalidations r.accountId r.fileId
  | _ => True

/-- A turn of a task invalidates nothing, and puts and prepares what is fresh. -/
structure TurnFresh (s : State) (turn : ReadTurn) : Prop where
  invalidations : turn.shared.invalidations = s.invalidations
  task : Fresh s turn.task
  spawned : turn.spawned = []
  seen : ∀ key startedAfter invalidations, .stored key startedAfter invalidations ∈ turn.seen →
    invalidations ≤ startedAfter

theorem turnFresh_leave {s s' : State} (h : s'.invalidations = s.invalidations) (r : Read)
    (data : Bytes) (err : Option Err) : TurnFresh s (s'.leave r data err) :=
  ⟨h, trivial, rfl, by simp [State.leave]⟩

theorem turnFresh_loop {s s' : State} (h : s'.invalidations = s.invalidations) (r : Read)
    (dest : Bytes) : TurnFresh s (s'.loop r dest) := by
  obtain ⟨-, hloop⟩ | ⟨-, hloop⟩ := s'.loop_cases r dest
  · rw [hloop]
    exact ⟨h, trivial, rfl, by simp⟩
  · rw [hloop]
    exact turnFresh_leave h r dest none

theorem turnFresh_load (s : State) (r : Read) (dest : Bytes) (now : ℤ) (faults : Faults) :
    TurnFresh s (s.load r dest now faults) := by
  obtain ⟨s', -, hs', h | ⟨_, data, -, -, ⟨-, h⟩ | ⟨-, h⟩⟩⟩ := s.load_cases r dest now faults <;>
    rw [h]
  · exact ⟨hs', rfl, rfl, by simp⟩
  · exact turnFresh_leave hs' r _ none
  · exact turnFresh_loop hs' r _

theorem turnFresh_fetched {s : State} {r : Read} {startedAfter : ℕ}
    (hfresh : startedAfter = s.invalidations r.accountId r.fileId) (dest chunk : Bytes)
    (err : Option Err) : TurnFresh s (s.fetched r dest chunk err startedAfter) := by
  obtain ⟨-, -, h⟩ | ⟨-, -, h⟩ | ⟨-, -, h⟩ | ⟨-, -, -, h⟩ | ⟨-, h⟩ :=
    s.fetched_cases r dest chunk err startedAfter <;> rw [h]
  · exact turnFresh_leave rfl r _ _
  · exact turnFresh_leave rfl r _ _
  · exact turnFresh_leave rfl r _ _
  · exact turnFresh_leave rfl r _ _
  · exact ⟨rfl, hfresh, rfl, by simp⟩

theorem turnFresh_put {s : State} {r : Read} {dest chunk : Bytes} {err : Option Err}
    {startedAfter : ℕ} (hfresh : startedAfter = s.invalidations r.accountId r.fileId) (now : ℤ)
    (faults : Faults) : TurnFresh s (s.put r dest chunk err startedAfter now faults) := by
  subst hfresh
  have hs' : State.invalidations
      { s with service := (s.service.putBlockWithPolicy faults now (r.key dest) chunk).2 } =
        s.invalidations := rfl
  have hturn : TurnFresh s (if err = some .eof ∨ (r.copied dest chunk).length = 0 then
      State.leave { s with service := (s.service.putBlockWithPolicy faults now (r.key dest) chunk).2 } r
        (dest ++ r.copied dest chunk) err
      else State.loop { s with service := (s.service.putBlockWithPolicy faults now (r.key dest) chunk).2 }
        r (dest ++ r.copied dest chunk)) := by
    split_ifs
    · exact turnFresh_leave hs' r _ err
    · exact turnFresh_loop hs' r _
  refine ⟨hturn.invalidations, hturn.task, hturn.spawned, fun key fa inv hmem => ?_⟩
  obtain hmem | hmem := List.mem_append.mp hmem
  · split_ifs at hmem
    · cases List.mem_singleton.mp hmem
      exact le_rfl
    · cases hmem
  · exact hturn.seen key fa inv hmem

theorem turnFresh_resume {s : State} {t : Task} {o : Outcome} {turn : ReadTurn} (ht : Fresh s t)
    (h : resume s t o = some turn) : TurnFresh s turn := by
  obtain ⟨r, dest, now, faults, rfl, rfl, rfl⟩ |
    ⟨r, dest, startedAfter, chunk, err, rfl, rfl, -, rfl⟩ |
    ⟨r, dest, chunk, err, startedAfter, now, faults, rfl, rfl, rfl⟩ |
    ⟨r, data, err, rfl, rfl, -, rfl⟩ := resume_cases h
  · exact turnFresh_load s r dest now faults
  · exact turnFresh_fetched ht dest chunk err
  · exact turnFresh_put ht now faults
  · exact turnFresh_leave rfl r data err

/-- An event stores nothing and starts no put; it counts as an invalidation of one file at most. -/
theorem event_invalidations {s : State} {e : Call} {r : Effect State Task Event}
    (h : event s e = some r) :
    (∀ t ∈ r.spawned, ∀ s', Fresh s' t) ∧
      (∀ key startedAfter invalidations, .stored key startedAfter invalidations ∉ r.seen) ∧
      (r.shared.invalidations = s.invalidations ∨ ∃ accountId fileId faults,
        e = .invalidateFile accountId fileId faults ∧ ∀ a f, ¬(a = accountId ∧ f = fileId) →
          r.shared.invalidations a f = s.invalidations a f) := by
  cases e with
  | readAt read =>
    cases h
    split_ifs <;> exact ⟨by simp [Fresh], by simp, .inl rfl⟩
  | invalidateFile accountId fileId faults =>
    cases h
    refine ⟨nofun, nofun, .inr ⟨accountId, fileId, faults, rfl, fun a f hne => ?_⟩⟩
    simp [hne]
  | invalidateAccount accountId faults =>
    cases h
    exact ⟨nofun, nofun, .inl rfl⟩
  | clearAll now faults =>
    cases h
    exact ⟨nofun, nofun, .inl rfl⟩
  | updateSettings cfg =>
    cases h
    exact ⟨nofun, nofun, .inl rfl⟩

/-- All that is pending is fresh, and nothing was undone. -/
def AllFresh (p : ReadPool) : Prop := (∀ t ∈ p.tasks, Fresh p.shared t) ∧ NotUndone p

theorem Fresh.of_eq {s s' : State} {t : Task} (h : Fresh s t)
    (heq : ∀ a f, Pending a f t → s'.invalidations a f = s.invalidations a f) : Fresh s' t := by
  cases t with
  | fetching r dest startedAfter => exact Eq.trans h (heq _ _ ⟨rfl, rfl⟩).symm
  | putting r dest chunk err startedAfter => exact Eq.trans h (heq _ _ ⟨rfl, rfl⟩).symm
  | loading _ _ | passing _ | finished => trivial

theorem allFresh_step {p q : ReadPool} {a : Action Outcome Call} (h : AllFresh p)
    (hnone : NonePending p a) (hstep : system.step p a = some q) : AllFresh q := by
  obtain ⟨htasks, htrace⟩ := h
  obtain ⟨i, o, t, r, rfl, hi, hr, rfl⟩ | ⟨e, r, rfl, he, rfl⟩ := System.step_cases hstep
  · have hturn := turnFresh_resume (htasks t (List.mem_of_getElem? hi)) hr
    have hsame : ∀ t, Fresh p.shared t → Fresh r.shared t := fun t ht =>
      ht.of_eq fun a f _ => by rw [hturn.invalidations]
    refine ⟨forall_mem_set_append (fun t ht => hsame t (htasks t ht)) (hsame _ hturn.task)
      (by simp [hturn.spawned]), fun key fa inv hmem => ?_⟩
    obtain hmem | hmem := List.mem_append.mp hmem
    · exact htrace key fa inv hmem
    · exact hturn.seen key fa inv hmem
  · obtain ⟨hspawned, hseen, hinv⟩ := event_invalidations he
    refine ⟨fun t ht => ?_, fun key fa inv hmem => ?_⟩
    · obtain ht | ht := List.mem_append.mp ht
      · refine (htasks t ht).of_eq fun a f hpending => ?_
        obtain heq | ⟨accountId, fileId, faults, rfl, heq⟩ := hinv
        · exact congrFun (congrFun heq a) f
        · refine heq a f fun hfile => hnone t ht ?_
          rwa [← hfile.1, ← hfile.2]
      · exact hspawned t ht _
    · obtain hmem | hmem := List.mem_append.mp hmem
      · exact htrace key fa inv hmem
      · exact absurd hmem (hseen key fa inv)

/-- In every run whose invalidations find no call between the start of a fetch and its put, no
invalidation is undone. -/
theorem invalidation_not_undone (cfg : Config) (actions : List (Action Outcome Call))
    (hnone : system.Along NonePending (initial cfg) actions) :
    system.Throughout NotUndone (initial cfg) actions :=
  (System.throughout_of_along (fun _ _ _ h hok hstep => allFresh_step h hok hstep)
    (show AllFresh (initial cfg) from ⟨nofun, nofun⟩) hnone).mono fun _ h => h.2

/-- A cache of one GiB that evicts from the largest file. -/
def largeFileConfig : Config := ⟨true, 1024 ^ 3, 24 * 3600, .largeFile⟩

/-- A read that is over before its file is invalidated, one after, and one of another file that is
in a fetch at the invalidation. -/
theorem invalidation_not_undone_three_reads :
    system.Throughout NotUndone (initial largeFileConfig)
      [.event (.readAt ⟨1, "f", 2, 0⟩), .resume 0 (.locked 0 {}),
        .resume 0 (.fetched [1, 2] (some .eof)), .resume 0 (.locked 0 {}),
        .event (.readAt ⟨1, "g", 2, 0⟩), .resume 1 (.locked 0 {}),
        .event (.invalidateFile 1 "f" {}),
        .resume 1 (.fetched [5, 6] (some .eof)), .resume 1 (.locked 1 {}),
        .event (.readAt ⟨1, "f", 2, 0⟩), .resume 2 (.locked 1 {}),
        .resume 2 (.fetched [3, 4] (some .eof)), .resume 2 (.locked 1 {})] :=
  invalidation_not_undone _ _ (by decide)

/-- A file is invalidated after the fetch of a read from it has returned and before its put. -/
def undoneRun : List (Action Outcome Call) :=
  [.event (.readAt ⟨1, "f", 2, 0⟩), .resume 0 (.locked 0 {}),
    .resume 0 (.fetched [1, 2] (some .eof)), .event (.invalidateFile 1 "f" {}),
    .resume 0 (.locked 0 {})]

/-- The file is invalidated while the fetch is on its way. -/
def undoneInFlight : List (Action Outcome Call) :=
  [.event (.readAt ⟨1, "f", 2, 0⟩), .resume 0 (.locked 0 {}), .event (.invalidateFile 1 "f" {}),
    .resume 0 (.fetched [1, 2] (some .eof)), .resume 0 (.locked 0 {})]

/-- Each put stores the bytes from before the invalidation. -/
theorem invalidation_undone :
    (∃ p, system.run (initial largeFileConfig) undoneRun = some p ∧
      p.shared.service.store.files ⟨1, "f", 0⟩ = some [1, 2] ∧ ¬NotUndone p) ∧
    ∃ p, system.run (initial largeFileConfig) undoneInFlight = some p ∧
      p.shared.service.store.files ⟨1, "f", 0⟩ = some [1, 2] ∧ ¬NotUndone p := by
  constructor
  · refine ⟨_, rfl, by decide, fun h => ?_⟩
    exact absurd (h ⟨1, "f", 0⟩ 0 1 (by decide)) (by decide)
  · refine ⟨_, rfl, by decide, fun h => ?_⟩
    exact absurd (h ⟨1, "f", 0⟩ 0 1 (by decide)) (by decide)

end AllInOneBackup.LitePan.FuseReadCache
