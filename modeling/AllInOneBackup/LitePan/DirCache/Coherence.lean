import AllInOneBackup.LitePan.DirCache.Service

/-! Coherence. The loader looks at the fence once, and `GetOrLoad` stores what it returns whatever
has happened since, so a listing from before a mutation, or from a cooling directory, can come to
the cache. It does not in a run where every driver call of a flight returns to a directory that is
not cooling and that nothing was applied to since, and every delete, rename or move is applied to
a directory of which nothing is in the cache or on its way there. -/

namespace AllInOneBackup.LitePan.DirCache

open Concurrency

variable {L : Type}

/-- The listing is from after all deletes, renames and moves that were applied, and the directory
was not cooling when it was obtained. -/
def Current (s : State L) (dir : Dir) (v : Fetch L) : Prop :=
  s.applied dir ≤ v.startedAfter ∧ v.cooled = false

/-- What is stored for a directory is current. -/
def Coherent (p : CachePool L) : Prop :=
  ∀ dir e, p.shared.items dir = some e → Current p.shared dir e.value

/-- The listing that a task is about to store. -/
def holds : Task L → Option (Dir × Fetch L)
  | .setting dir _ _ v => some (dir, v)
  | .upsertTTL e v | .upsertSet e v _ => some (e.dir, v)
  | _ => none

/-- A list that the driver returns to a flight is current. -/
def CurrentReturn (s : State L) : Task L → Prop
  | .listing dir _ _ startedAfter => s.applied dir ≤ startedAfter ∧ s.isCooling dir = false
  | _ => True

/-- A delete, rename or move is applied to directories of which nothing is stored, nor held by a
task. -/
def NothingHeld (p : CachePool L) : Task L → Prop
  | .marking true dirs => ∀ dir ∈ dirs, p.shared.items dir = none ∧
      ∀ x ∈ p.tasks, (holds x).map Prod.fst ≠ some dir
  | _ => True

def StaysCurrent (p : CachePool L) : Action (Outcome L) Call → Prop
  | .resume i (.listed (some _)) => ∀ t ∈ p.tasks[i]?, CurrentReturn p.shared t
  | .resume i .turn => ∀ t ∈ p.tasks[i]?, NothingHeld p t
  | _ => True

instance (s : State L) : DecidablePred (CurrentReturn s) := fun t => by
  unfold CurrentReturn
  split <;> infer_instance

instance (p : CachePool L) : DecidablePred (NothingHeld p) := fun t => by
  unfold NothingHeld
  split <;> infer_instance

instance (p : CachePool L) : DecidablePred (StaysCurrent p) := fun a => by
  unfold StaysCurrent
  split <;> infer_instance

/-! ### What a turn does -/

/-- A turn that applies nothing, stores at most what the task held, and makes it hold at most what
was stored or held. -/
structure Keeps (s : State L) (t : Task L) (r : CacheTurn L) : Prop where
  spawned : r.spawned = []
  applied : r.shared.applied = s.applied
  items : ∀ dir e, r.shared.items dir = some e →
    s.items dir = some e ∨ holds t = some (dir, e.value)
  held : ∀ dir v, holds r.task = some (dir, v) → ∃ v',
    (holds t = some (dir, v') ∨ ∃ e, s.items dir = some e ∧ e.value = v') ∧
      v.startedAfter = v'.startedAfter ∧ v.cooled = v'.cooled

namespace State

variable (s : State L)

theorem items_invalidateKey {dir dir' : Dir} {e : Entry L}
    (h : (s.invalidateKey dir).items dir' = some e) : s.items dir' = some e := by
  rw [invalidateKey] at h
  by_cases hd : dir' = dir
  · simp [hd] at h
  · simpa [Function.update_of_ne hd] using h

theorem items_invalidateAccount {accountId : ℤ} {dir : Dir} {e : Entry L}
    (h : (s.invalidateAccount accountId).items dir = some e) : s.items dir = some e := by
  simp only [invalidateAccount] at h
  split_ifs at h
  exact h

/-- A lookup finds what is stored, and drops it at most. -/
theorem lookup_spec (dir : Dir) : (s.lookup dir).2.applied = s.applied ∧
    (∀ dir' e, (s.lookup dir).2.items dir' = some e → s.items dir' = some e) ∧
    ∀ v, (s.lookup dir).1 = some v → ∃ e, s.items dir = some e ∧ e.value = v := by
  unfold lookup
  split
  · exact ⟨rfl, fun _ _ h => h, nofun⟩
  · rename_i e he
    split_ifs
    · exact ⟨rfl, fun _ _ h => s.items_invalidateKey h, nofun⟩
    · exact ⟨rfl, fun _ _ h => h, fun v hv => ⟨e, he, Option.some.inj hv⟩⟩

theorem cooling_spec (dir : Dir) :
    (s.cooling dir).2.applied = s.applied ∧ (s.cooling dir).2.items = s.items := by
  unfold cooling
  split_ifs <;> exact ⟨rfl, rfl⟩

end State

/-- A turn that holds nothing after it, and drops entries at most. -/
theorem Keeps.of_drops {s s' : State L} {t t' : Task L} (happlied : s'.applied = s.applied)
    (hitems : ∀ dir e, s'.items dir = some e → s.items dir = some e) (ht' : holds t' = none) :
    Keeps s t { shared := s', task := t' } :=
  ⟨rfl, happlied, fun dir e h => .inl (hitems dir e h), fun dir v h => by simp [ht'] at h⟩

theorem holds_invalidateMutationDirs (removes : Bool) (dirs todo : List Dir) :
    holds (invalidateMutationDirs removes dirs todo : Task L) = none := by
  cases todo <;> rfl

/-- A turn that stores what the task holds. -/
theorem Keeps.of_set {s : State L} {t t' : Task L} {dir : Dir} {v : Fetch L}
    (ht : holds t = some (dir, v)) (ttl : ℤ) (ht' : holds t' = none) :
    Keeps s t { shared := s.set dir v ttl, task := t' } := by
  refine ⟨rfl, rfl, fun dir' e he => ?_, fun dir' v' h => by simp [ht'] at h⟩
  simp only [State.set] at he
  by_cases hd : dir' = dir
  · rw [hd, Function.update_self] at he
    cases he
    rw [hd]
    exact .inr ht
  · rw [Function.update_of_ne hd] at he
    exact .inl he

variable {upsertDirListItem : L → FileMutated → L}

theorem keeps_enter (s : State L) (t : Task L) (dir : Dir) (ttl : ℤ) :
    Keeps s t (enter s dir ttl) := by
  have hheld : holds (enter s dir ttl).task = none := by
    unfold enter
    dsimp only
    split <;> rfl
  exact Keeps.of_drops rfl (fun _ _ h => h) hheld

theorem keeps_checking (s : State L) (dir : Dir) (ttl : ℤ) {r : CacheTurn L}
    (h : resumeList s (.checking dir ttl) .turn = some r) : Keeps s (.checking dir ttl) r := by
  obtain ⟨happlied, hitems⟩ := s.cooling_spec dir
  have hkeep : ∀ dir' e, (s.cooling dir).2.items dir' = some e → s.items dir' = some e :=
    fun dir' e he => by rwa [hitems] at he
  cases h
  split_ifs
  · exact .of_drops rfl (fun _ _ h => h) rfl
  · split <;> rename_i hcool <;> rw [hcool] at happlied hkeep <;> exact .of_drops happlied hkeep rfl

theorem keeps_lookup {s : State L} {t : Task L} {dir : Dir} {hit : Fetch L → Task L} {miss : Task L}
    (hhit : ∀ v, holds (hit v) = none) (hmiss : holds miss = none) :
    Keeps s t (match s.lookup dir with
      | (some v, s) => { shared := s, task := hit v }
      | (none, s) => { shared := s, task := miss }) := by
  obtain ⟨happlied, hitems, -⟩ := s.lookup_spec dir
  split <;> rename_i hlookup <;> rw [hlookup] at happlied hitems
  · exact .of_drops happlied hitems (hhit _)
  · exact .of_drops happlied hitems hmiss

/-- A turn of a `List` keeps what is stored and held, but for the return of the driver. -/
theorem resumeList_cases {s : State L} {t : Task L} {o : Outcome L} {r : CacheTurn L}
    (h : resumeList s t o = some r) :
    Keeps s t r ∨ ∃ dir ttl c startedAfter list, t = .listing dir ttl c startedAfter ∧
      o = .listed (some list) ∧
      r = { shared := s, task := .setting dir ttl c ⟨list, startedAfter, s.isCooling dir⟩ } := by
  have hsame : ∀ dir e, s.items dir = some e → s.items dir = some e := fun _ _ h => h
  cases t with
  | listing dir ttl c startedAfter =>
    cases o with
    | listed list =>
      cases list with
      | none =>
        cases h
        exact .inl (.of_drops rfl hsame rfl)
      | some list =>
        cases h
        exact .inr ⟨dir, ttl, c, startedAfter, list, rfl, rfl, rfl⟩
    | turn | ctxDone => cases h
  | refreshing dir ttl =>
    cases o <;> cases h
    exact .inl (.of_drops rfl (fun _ _ h => s.items_invalidateKey h) rfl)
  | checking dir ttl =>
    cases o with
    | turn => exact .inl (keeps_checking s dir ttl h)
    | listed _ | ctxDone => cases h
  | direct dir =>
    cases o <;> cases h
    exact .inl (.of_drops rfl hsame rfl)
  | looking dir ttl =>
    cases o <;> cases h
    exact .inl (keeps_lookup (fun _ => rfl) rfl)
  | entering dir ttl =>
    cases o <;> cases h
    exact .inl (keeps_enter s _ dir ttl)
  | waiting c =>
    cases o with
    | turn =>
      simp only [resumeList] at h
      split_ifs at h
      cases h
      exact .inl (.of_drops rfl hsame rfl)
    | listed _ => cases h
    | ctxDone =>
      cases h
      exact .inl (.of_drops rfl hsame rfl)
  | lookingAgain dir ttl c =>
    cases o <;> cases h
    exact .inl (keeps_lookup (fun _ => rfl) rfl)
  | loading dir ttl c =>
    cases o <;> cases h
    obtain ⟨happlied, hitems⟩ := s.cooling_spec dir
    exact .inl (.of_drops happlied (fun dir' e he => by rwa [hitems] at he) rfl)
  | setting dir ttl c v =>
    cases o <;> cases h
    exact .inl (.of_set rfl ttl rfl)
  | calling _ _ _ | completing _ _ _ | closing _ _ | deleting _ _ =>
    cases o <;> cases h
    exact .inl (.of_drops rfl hsame rfl)
  | upserting _ | upsertTTL _ _ | upsertSet _ _ _ | clearing _ | invalidating _ _ _ _
  | marking _ _ | sweeping _ | finished => cases o <;> cases h

theorem resumeMutation_cases {s : State L} {t : Task L} {r : CacheTurn L}
    (h : resumeMutation upsertDirListItem s t = some r) :
    Keeps s t r ∨ ∃ dirs, t = .marking true dirs ∧ r.shared.items = s.items ∧
      r.task = .finished ∧ r.spawned = [] ∧
      ∀ dir, dir ∉ dirs → r.shared.applied dir = s.applied dir := by
  have hsame : ∀ dir e, s.items dir = some e → s.items dir = some e := fun _ _ h => h
  cases t with
  | upserting e =>
    cases h
    refine .inl ?_
    split_ifs
    · exact .of_drops rfl hsame (holds_invalidateMutationDirs _ _ _)
    · obtain ⟨happlied, hitems, hfound⟩ := s.lookup_spec e.dir
      split <;> rename_i hlookup <;> rw [hlookup] at happlied hitems hfound
      · exact .of_drops happlied hitems (holds_invalidateMutationDirs _ _ _)
      · rename_i v _
        refine ⟨rfl, happlied, fun dir e h => .inl (hitems dir e h), fun dir v' hheld => ?_⟩
        cases hheld
        exact ⟨v, .inr (hfound v rfl), rfl, rfl⟩
  | upsertTTL e updated =>
    cases h
    refine .inl ?_
    split
    · exact .of_drops rfl hsame (holds_invalidateMutationDirs _ _ _)
    · exact ⟨rfl, rfl, fun _ _ h => .inl h, fun dir v hheld => ⟨v, .inl hheld, rfl, rfl⟩⟩
  | upsertSet e updated ttl =>
    cases h
    exact .inl (.of_set rfl ttl rfl)
  | clearing dir =>
    cases h
    exact .inl (.of_drops rfl hsame rfl)
  | invalidating removes dir todo dirs =>
    cases h
    exact .inl (.of_drops rfl (fun _ _ h => s.items_invalidateKey h)
      (holds_invalidateMutationDirs _ _ _))
  | marking removes dirs =>
    cases h
    cases removes with
    | true =>
      refine .inr ⟨dirs, rfl, rfl, rfl, rfl, fun dir hdir => ?_⟩
      simp [hdir]
    | false => exact .inl (.of_drops (by simp) hsame rfl)
  | sweeping accountId =>
    cases h
    exact .inl (.of_drops rfl (fun _ _ h => s.items_invalidateAccount h) rfl)
  | refreshing _ _ | checking _ _ | direct _ | looking _ _ | entering _ _ | waiting _
  | lookingAgain _ _ _ | loading _ _ _ | calling _ _ _ | listing _ _ _ _ | setting _ _ _ _
  | completing _ _ _ | closing _ _ | deleting _ _ | finished => cases h

theorem resume_cases {s : State L} {t : Task L} {o : Outcome L} {r : CacheTurn L}
    (h : resume upsertDirListItem s t o = some r) :
    Keeps s t r ∨
    (∃ dir ttl c startedAfter list, t = .listing dir ttl c startedAfter ∧
      o = .listed (some list) ∧
      r = { shared := s, task := .setting dir ttl c ⟨list, startedAfter, s.isCooling dir⟩ }) ∨
    (∃ dirs, t = .marking true dirs ∧ o = .turn ∧ r.shared.items = s.items ∧
      r.task = .finished ∧ r.spawned = [] ∧
      ∀ dir, dir ∉ dirs → r.shared.applied dir = s.applied dir) := by
  have hlist : ∀ {o}, resumeList s t o = some r → Keeps s t r ∨
      ∃ dir ttl c startedAfter list, t = .listing dir ttl c startedAfter ∧ o = .listed (some list) ∧
        r = { shared := s, task := .setting dir ttl c ⟨list, startedAfter, s.isCooling dir⟩ } :=
    fun h => resumeList_cases h
  cases o with
  | turn =>
    obtain h | ⟨-, h⟩ := Option.or_eq_some_iff.mp h
    · obtain h | ⟨_, _, _, _, _, -, hturn, -⟩ := hlist h
      · exact .inl h
      · cases hturn
    · obtain h | ⟨dirs, rfl, hitems, htask, hspawned, happlied⟩ := resumeMutation_cases h
      · exact .inl h
      · exact .inr (.inr ⟨dirs, rfl, rfl, hitems, htask, hspawned, happlied⟩)
  | listed list =>
    obtain h | h := hlist h
    · exact .inl h
    · exact .inr (.inl h)
  | ctxDone =>
    obtain h | ⟨_, _, _, _, _, -, hdone, -⟩ := hlist h
    · exact .inl h
    · cases hdone

/-- An event applies nothing, drops entries at most, and begins with nothing held. -/
theorem event_keeps {s : State L} {e : Call} {r : Effect (State L) (Task L) Unit}
    (h : event s e = some r) :
    r.shared.applied = s.applied ∧
      (∀ dir x, r.shared.items dir = some x → s.items dir = some x) ∧
      ∀ t ∈ r.spawned, holds t = none := by
  cases e with
  | list accountId parentID ttl forceRefresh =>
    cases h
    cases forceRefresh <;> exact ⟨rfl, fun _ _ h => h, by simp [holds]⟩
  | applyMutation e =>
    cases h
    refine ⟨rfl, fun _ _ h => h, fun t ht => ?_⟩
    rw [List.mem_singleton.mp ht]
    cases e.op <;> first | rfl | exact holds_invalidateMutationDirs _ _ _
  | tick n =>
    cases h
    exact ⟨rfl, fun _ _ h => h, nofun⟩
  | remove dir =>
    cases h
    exact ⟨rfl, fun _ _ h => s.items_invalidateKey h, nofun⟩

/-! ### Every run -/

/-- What is stored and what is about to be stored is current. -/
structure AllCurrent (p : CachePool L) : Prop where
  stored : Coherent p
  held : ∀ t ∈ p.tasks, ∀ dir v, holds t = some (dir, v) → Current p.shared dir v

theorem Current.of_applied {s s' : State L} {dir : Dir} {v : Fetch L} (h : Current s dir v)
    (happlied : s'.applied dir = s.applied dir) : Current s' dir v :=
  ⟨happlied ▸ h.1, h.2⟩

theorem AllCurrent.of_keeps {p : CachePool L} {i : ℕ} {t : Task L} {r : CacheTurn L}
    (h : AllCurrent p) (hi : p.tasks[i]? = some t) (hr : Keeps p.shared t r) :
    AllCurrent ⟨r.shared, p.tasks.set i r.task ++ r.spawned, p.trace ++ r.seen⟩ := by
  have ht := h.held t (List.mem_of_getElem? hi)
  have happlied : ∀ dir, r.shared.applied dir = p.shared.applied dir := congrFun hr.applied
  refine ⟨fun dir e he => ?_, ?_⟩
  · obtain he | he := hr.items dir e he
    · exact (h.stored dir e he).of_applied (happlied dir)
    · exact (ht dir e.value he).of_applied (happlied dir)
  · refine forall_mem_set_append (fun x hx dir v hv => ?_) (fun dir v hv => ?_) (by simp [hr.spawned])
    · exact (h.held x hx dir v hv).of_applied (happlied dir)
    · obtain ⟨v', hv', hstarted, hcooled⟩ := hr.held dir v hv
      have hcurrent : Current p.shared dir v' := by
        obtain hv' | ⟨e, he, rfl⟩ := hv'
        · exact ht dir v' hv'
        · exact h.stored dir e he
      refine Current.of_applied ⟨?_, ?_⟩ (happlied dir)
      · rw [hstarted]
        exact hcurrent.1
      · rw [hcooled]
        exact hcurrent.2

theorem allCurrent_step {p q : CachePool L} {a : Action (Outcome L) Call} (h : AllCurrent p)
    (hok : StaysCurrent p a) (hstep : (system upsertDirListItem).step p a = some q) :
    AllCurrent q := by
  obtain ⟨i, o, t, r, rfl, hi, hr, rfl⟩ | ⟨e, r, rfl, he, rfl⟩ := System.step_cases hstep
  · obtain hkeeps | ⟨dir, ttl, c, startedAfter, list, rfl, rfl, rfl⟩ |
      ⟨dirs, rfl, rfl, hitems, htask, hspawned, happlied⟩ := resume_cases hr
    · exact h.of_keeps hi hkeeps
    · obtain ⟨hstarted, hcool⟩ := hok _ hi
      refine ⟨h.stored, forall_mem_set_append h.held (fun dir' v hv => ?_) nofun⟩
      cases hv
      exact ⟨hstarted, hcool⟩
    · have hnone := hok _ hi
      refine ⟨fun dir e he => ?_, ?_⟩
      · replace he : p.shared.items dir = some e := by rwa [← hitems]
        by_cases hdir : dir ∈ dirs
        · rw [(hnone dir hdir).1] at he
          cases he
        · exact (h.stored dir e he).of_applied (happlied dir hdir)
      · refine forall_mem_set_append (fun x hx dir v hv => ?_) (by simp [htask, holds])
          (by simp [hspawned])
        by_cases hdir : dir ∈ dirs
        · exact absurd (congrArg (Option.map Prod.fst) hv) ((hnone dir hdir).2 x hx)
        · exact (h.held x hx dir v hv).of_applied (happlied dir hdir)
  · obtain ⟨happlied, hitems, hnew⟩ := event_keeps he
    refine ⟨fun dir x hx => ?_, fun t ht dir v hv => ?_⟩
    · exact (h.stored dir x (hitems dir x hx)).of_applied (congrFun happlied dir)
    · obtain ht | ht := List.mem_append.mp ht
      · exact (h.held t ht dir v hv).of_applied (congrFun happlied dir)
      · rw [hnew t ht] at hv
        cases hv

/-- A `List` of the directory `d` with a TTL of a minute. -/
def listCall : Action (Outcome ℕ) Call := .event (.list 1 ['d'] (60 * 10 ^ 9) false)

def deleteCall : Action (Outcome ℕ) Call :=
  .event (.applyMutation { accountId := 1, op := .delete, parentId := ['d'] })

/-- The turns of a flight from the lookup of `GetOrLoad` to its `Set`. -/
def flightTurns (i list : ℕ) : List (Action (Outcome ℕ) Call) :=
  List.replicate 5 (.resume i .turn) ++ [.resume i (.listed (some list)), .resume i .turn]

/-- A directory is listed, something is deleted from it, and four seconds later it is listed
again. -/
def calmRun : List (Action (Outcome ℕ) Call) :=
  [listCall, .resume 0 .turn] ++ flightTurns 0 1 ++ [deleteCall, .resume 1 .turn, .resume 1 .turn] ++
    [.event (.tick 4000000000), listCall, .resume 2 .turn] ++ flightTurns 2 2

/-- The delete is applied after the cooling check of the `List`, and before its lookup. -/
def coolingRun : List (Action (Outcome ℕ) Call) :=
  [listCall, .resume 0 .turn, deleteCall, .resume 1 .turn, .resume 1 .turn] ++ flightTurns 0 1

end AllInOneBackup.LitePan.DirCache
