import AllInOneBackup.LitePan.DirCache.DirList
import Mathlib.Data.List.Pairwise

/-! Creates in one directory. `tryUpsertDirOnCreate` reads the listing, looks at what is left of its
time and writes it back with its item, and the mutex of the cache is free in between, so what
another create has written in the meantime is lost. None is lost in a run where no create reads
the listing, or drops it, while another is between its `Get` and its `Set`, and no two of the files
have names that are equal up to case. -/

namespace AllInOneBackup.LitePan.DirCache

open Concurrency

abbrev CreateAction := Action (Outcome DirList) Call

/-- Creates in `dir`, whatever time passes and whatever entries are removed. -/
def CreateIn (dir : Dir) : CreateAction → Prop
  | .resume _ _ => True
  | .event (.applyMutation e) => e.op = .create ∧ e.dir = dir
  | .event (.list ..) => False
  | .event (.tick _) | .event (.remove _) => True

instance (dir : Dir) : DecidablePred (CreateIn dir) := fun a => by
  unfold CreateIn
  split <;> infer_instance

/-- The creates that begin. -/
def creates (actions : List CreateAction) : List FileMutated :=
  actions.filterMap fun
    | .event (.applyMutation e) => some e
    | _ => none

/-- The listing that a create has read, with its item, until it is written. -/
def reading : Task DirList → Option (Fetch DirList)
  | .upsertTTL _ v | .upsertSet _ v _ => some v
  | _ => none

/-- The task is about to read the listing, or to drop it. -/
def touches : Task DirList → Bool
  | .upserting _ | .invalidating .. => true
  | _ => false

/-- A create that reads the listing or drops it is alone with it. -/
def Serial (p : CachePool DirList) : CreateAction → Prop
  | .resume i _ => ∀ t ∈ p.tasks[i]?, touches t → ∀ x ∈ p.tasks, reading x = none
  | .event _ => True

instance (p : CachePool DirList) : DecidablePred (Serial p) := fun a => by
  unfold Serial
  split <;> infer_instance

section Names

variable (equalFold : Str → Str → Bool)

/-- No two of the files have the same name up to case. -/
def NamesApart (es : List FileMutated) : Prop :=
  ∀ e ∈ es, ∀ e' ∈ es, e.fileId ≠ e'.fileId → e.isDir = false → e'.isDir = false →
    equalFold e.fileName e'.fileName = false

instance (es : List FileMutated) : Decidable (NamesApart equalFold es) := by
  unfold NamesApart
  infer_instance

/-- The listing has the items of the creates, and those of `orig` that none of them replaced. -/
structure Contains (orig : DirList) (es : List FileMutated) (list : DirList) : Prop where
  created : ∀ e ∈ es, e.item ∈ list
  kept : ∀ x ∈ orig, (∀ e ∈ es, replacedBy equalFold e.item x = false) → x ∈ list

/-- In every run of creates with distinct ids and distinct names that meets `ok` and has ended, the
entry of a directory that was listed is absent or has them all. -/
def NoLostCreate (toLower : Str → Str) (ok : CachePool DirList → List CreateAction → Prop) : Prop :=
  ∀ (dir : Dir) (s : State DirList) (orig : Entry DirList) (actions : List CreateAction)
    (q : CachePool DirList), s.items dir = some orig → (∀ a ∈ actions, CreateIn dir a) →
    (creates actions).Pairwise (fun e e' => e.fileId ≠ e'.fileId ∧ e.fileName ≠ e'.fileName) →
    ok { shared := s } actions →
    (listings equalFold toLower).run { shared := s } actions = some q →
    (∀ t ∈ q.tasks, t = .finished) →
    ∀ en, q.shared.items dir = some en →
      Contains equalFold orig.value.list (creates actions) en.value.list

end Names

/-! ### What a turn does -/

/-- A task of a create in `dir`, one of `begun`. -/
def Ours (dir : Dir) (begun : List FileMutated) : Task DirList → Prop
  | .upserting e => e ∈ begun ∧ e.dir = dir
  | .upsertTTL e _ | .upsertSet e _ _ => e.dir = dir
  | .invalidating _ d todo _ => d = dir ∧ todo = []
  | .clearing _ | .marking .. | .finished => True
  | _ => False

variable {equalFold : Str → Str → Bool} {toLower : Str → Str} {dir : Dir}
  {begun : List FileMutated} {orig : DirList}

variable (equalFold toLower dir) in
/-- The turns of a create: from which task, to which task, and what becomes of the entry. -/
inductive CreateTurn (s : State DirList) : Task DirList → CacheTurn DirList → Prop
  | miss (e : FileMutated) (s' : State DirList) : CreateTurn s (.upserting e)
      { shared := s', task := .invalidating false dir [] [dir] }
  | read (e : FileMutated) (en : Entry DirList) (h : s.items dir = some en) :
      CreateTurn s (.upserting e) { shared := s, task := .upsertTTL e { en.value with
        list := upsertDirListItem equalFold toLower en.value.list e.item } }
  | giveUp (e : FileMutated) (v : Fetch DirList) : CreateTurn s (.upsertTTL e v)
      { shared := s, task := .invalidating false dir [] [dir] }
  | goOn (e : FileMutated) (v : Fetch DirList) (ttl : ℤ) : CreateTurn s (.upsertTTL e v)
      { shared := s, task := .upsertSet e v ttl }
  | write (e : FileMutated) (v : Fetch DirList) (ttl : ℤ) (s' : State DirList)
      (expiresAt : Option ℤ) (h : s'.items dir = some ⟨v, expiresAt⟩) :
      CreateTurn s (.upsertSet e v ttl) { shared := s', task := .clearing e.dir }
  | drop (removes : Bool) (dirs : List Dir) (s' : State DirList) (h : s'.items dir = none) :
      CreateTurn s (.invalidating removes dir [] dirs)
        { shared := s', task := .marking removes dirs }
  | last (t : Task DirList) (s' : State DirList) (ht : reading t = none ∧ touches t = false)
      (h : s'.items = s.items) : CreateTurn s t { shared := s', task := .finished }

theorem createTurn_upserting {s : State DirList} {e : FileMutated} {r : CacheTurn DirList}
    (hdir : e.dir = dir)
    (h : resumeMutation (fun list e => upsertDirListItem equalFold toLower list e.item) s
      (.upserting e) = some r) :
    CreateTurn equalFold toLower dir s (.upserting e) r := by
  subst hdir
  obtain rfl := Option.some.inj h
  split_ifs
  · exact .miss e s
  · unfold State.lookup
    cases hitems : s.items e.dir with
    | none => exact .miss e s
    | some en =>
      simp only
      split_ifs
      · exact .miss e _
      · exact .read e en hitems

theorem createTurn_of_resume {s : State DirList} {t : Task DirList} {o : Outcome DirList}
    {r : CacheTurn DirList} (ht : Ours dir begun t)
    (h : resume (fun list e => upsertDirListItem equalFold toLower list e.item) s t o = some r) :
    CreateTurn equalFold toLower dir s t r := by
  cases o with
  | listed list => cases t <;> first | exact False.elim ht | cases h
  | ctxDone => cases t <;> first | exact False.elim ht | cases h
  | turn =>
    cases t with
    | upserting e => exact createTurn_upserting ht.2 h
    | upsertTTL e v =>
      obtain rfl := Option.some.inj h
      cases s.remainingTTL e.dir with
      | none => exact (show e.dir = dir from ht) ▸ .giveUp e v
      | some ttl => exact .goOn e v ttl
    | upsertSet e v ttl =>
      obtain rfl := Option.some.inj h
      obtain rfl : e.dir = dir := ht
      exact .write e v ttl _ _ (Function.update_self _ _ _)
    | invalidating removes d todo dirs =>
      obtain rfl := Option.some.inj h
      obtain ⟨rfl, rfl⟩ := ht
      exact .drop removes dirs _ (Function.update_self _ _ _)
    | clearing d =>
      obtain rfl := Option.some.inj h
      exact .last _ _ ⟨rfl, rfl⟩ rfl
    | marking removes dirs =>
      obtain rfl := Option.some.inj h
      exact .last _ _ ⟨rfl, rfl⟩ rfl
    | finished => cases h
    | _ => cases ht

/-! ### The listing over a run -/

/-- The listing has the items of the creates that have read it. -/
structure Covered (equalFold : Str → Str → Bool) (orig : DirList) (begun : List FileMutated)
    (tasks : List (Task DirList)) (list : DirList) : Prop where
  created : ∀ e ∈ begun, .upserting e ∉ tasks → e.item ∈ list
  kept : ∀ x ∈ orig, (∀ e ∈ begun, replacedBy equalFold e.item x = false) → x ∈ list

theorem Covered.mono {tasks tasks' : List (Task DirList)} {list : DirList}
    (h : Covered equalFold orig begun tasks list)
    (htasks : ∀ e, .upserting e ∈ tasks → .upserting e ∈ tasks') :
    Covered equalFold orig begun tasks' list :=
  ⟨fun e he hnot => h.created e he fun hmem => hnot (htasks e hmem), h.kept⟩

/-- The creates that begin have not read the listing. -/
theorem Covered.append {tasks : List (Task DirList)} {list : DirList} {es : List FileMutated}
    (h : Covered equalFold orig begun tasks list) :
    Covered equalFold orig (begun ++ es) (tasks ++ es.map .upserting) list := by
  refine ⟨fun e he hnot => ?_, fun x hx hkept => h.kept x hx fun e he => ?_⟩
  · rw [List.mem_append, not_or] at hnot
    obtain he | he := List.mem_append.mp he
    · exact h.created e he hnot.1
    · exact absurd (List.mem_map.mpr ⟨e, he, rfl⟩) hnot.2
  · exact hkept e (List.mem_append_left es he)

/-- Someone will drop the listing; or there is none, or one that has everything, and nobody is
writing; or just one create is, and what it writes has everything. -/
inductive Standing (equalFold : Str → Str → Bool) (dir : Dir) (orig : DirList)
    (begun : List FileMutated) (p : CachePool DirList) : Prop
  | dropping (removes : Bool) (d : Dir) (todo dirs : List Dir)
      (ht : .invalidating removes d todo dirs ∈ p.tasks)
  | absent (hitems : p.shared.items dir = none) (hquiet : ∀ t ∈ p.tasks, reading t = none)
  | stored (en : Entry DirList) (hitems : p.shared.items dir = some en)
      (hcov : Covered equalFold orig begun p.tasks en.value.list)
      (hquiet : ∀ t ∈ p.tasks, reading t = none)
  | writing (i : ℕ) (t : Task DirList) (v : Fetch DirList) (ht : p.tasks[i]? = some t)
      (hv : reading t = some v) (hcov : Covered equalFold orig begun p.tasks v.list)
      (halone : ∀ j x, p.tasks[j]? = some x → reading x ≠ none → j = i)

theorem quiet_iff {tasks : List (Task DirList)} :
    (∀ t ∈ tasks, reading t = none) ↔ ∀ (j : ℕ) x, tasks[j]? = some x → reading x = none := by
  constructor
  · exact fun h j x hx => h x (List.mem_of_getElem? hx)
  · intro h x hx
    obtain ⟨j, hj⟩ := List.mem_iff_getElem?.mp hx
    exact h j x hj

/-- Nothing happens to the listing but that it may go, and those who read it are the same. -/
theorem Standing.of_same {p q : CachePool DirList} {begun' : List FileMutated}
    (h : Standing equalFold dir orig begun p)
    (hitems : q.shared.items dir = p.shared.items dir ∨ q.shared.items dir = none)
    (hdrop : ∀ removes d todo dirs, .invalidating removes d todo dirs ∈ p.tasks →
      .invalidating removes d todo dirs ∈ q.tasks)
    (hcov : ∀ list, Covered equalFold orig begun p.tasks list →
      Covered equalFold orig begun' q.tasks list)
    (hread : ∀ (j : ℕ) x, reading x ≠ none → (q.tasks[j]? = some x ↔ p.tasks[j]? = some x)) :
    Standing equalFold dir orig begun' q := by
  have hquiet : (∀ t ∈ p.tasks, reading t = none) → ∀ t ∈ q.tasks, reading t = none := by
    intro hquiet
    refine quiet_iff.mpr fun j x hx => ?_
    by_contra hne
    exact hne (quiet_iff.mp hquiet j x ((hread j x hne).mp hx))
  cases h with
  | dropping removes d todo dirs ht => exact .dropping removes d todo dirs (hdrop _ _ _ _ ht)
  | absent hnone hq =>
    refine .absent ?_ (hquiet hq)
    obtain heq | heq := hitems
    · rw [heq, hnone]
    · exact heq
  | stored en hsome hc hq =>
    obtain heq | heq := hitems
    · exact .stored en (heq.trans hsome) (hcov _ hc) (hquiet hq)
    · exact .absent heq (hquiet hq)
  | writing i t v ht hv hc halone =>
    have hne : reading t ≠ none := by simp [hv]
    refine .writing i t v ((hread i t hne).mpr ht) hv (hcov _ hc) fun j x hx hne' => ?_
    exact halone j x ((hread j x hne').mp hx) hne'

section Turn

variable {p : CachePool DirList} {i : ℕ} {t t' x : Task DirList}

theorem mem_set_of_ne {tasks : List (Task DirList)} (ht : tasks[i]? = some t) (hx : x ∈ tasks)
    (hne : x ≠ t) : x ∈ tasks.set i t' := by
  obtain ⟨j, hj⟩ := List.mem_iff_getElem?.mp hx
  have hij : i ≠ j := by
    rintro rfl
    exact hne (Option.some.inj (hj.symm.trans ht))
  apply List.mem_of_getElem? (i := j)
  rw [List.getElem?_set_ne hij, hj]

/-- Where nobody reads, nobody does after a turn to a task that does not. -/
theorem quiet_set {tasks : List (Task DirList)} (hquiet : ∀ x ∈ tasks, reading x = none)
    (ht' : reading t' = none) : ∀ x ∈ tasks.set i t', reading x = none := by
  intro x hx
  obtain hx | rfl := List.mem_or_eq_of_mem_set hx
  · exact hquiet x hx
  · exact ht'

/-- The only reader comes to an end. -/
theorem quiet_set_of_alone {tasks : List (Task DirList)}
    (halone : ∀ (j : ℕ) x, tasks[j]? = some x → reading x ≠ none → j = i) (ht' : reading t' = none) :
    ∀ x ∈ tasks.set i t', reading x = none := by
  refine quiet_iff.mpr fun j x hx => ?_
  by_contra hne
  by_cases hij : i = j
  · subst hij
    rw [List.getElem?_set_self'] at hx
    obtain ⟨_, _, heq⟩ := Option.map_eq_some_iff.mp hx
    exact hne (heq ▸ ht')
  · rw [List.getElem?_set_ne hij] at hx
    exact hij (halone j x hx hne).symm

/-- One task reads after a turn to it where nobody read, or it alone did. -/
theorem alone_set {tasks : List (Task DirList)}
    (halone : ∀ (j : ℕ) x, tasks[j]? = some x → reading x ≠ none → j = i) :
    ∀ (j : ℕ) x, (tasks.set i t')[j]? = some x → reading x ≠ none → j = i := by
  intro j x hx hne
  by_contra hij
  rw [List.getElem?_set_ne (Ne.symm hij)] at hx
  exact hij (halone j x hx hne)

/-- The create that reads the listing now is covered as well. -/
theorem Covered.read {e : FileMutated} {list : DirList}
    (hapart : ∀ e ∈ begun, ∀ e' ∈ begun, e ≠ e' → replacedBy equalFold e.item e'.item = false)
    (he : e ∈ begun) (ht : p.tasks[i]? = some (.upserting e))
    (h : Covered equalFold orig begun p.tasks list) (v : Fetch DirList) :
    Covered equalFold orig begun (p.tasks.set i (.upsertTTL e v))
      (upsertDirListItem equalFold toLower list e.item) := by
  refine ⟨fun e' he' hnot => ?_, fun x hx hkept => ?_⟩
  · by_cases heq : e' = e
    · rw [heq]
      exact mem_upsertDirListItem.mpr (.inr rfl)
    · have hread : .upserting e' ∉ p.tasks := fun hmem =>
        hnot (mem_set_of_ne ht hmem fun htask => heq (Task.upserting.inj htask))
      exact mem_upsertDirListItem.mpr
        (.inl ⟨h.created e' he' hread, hapart e he e' he' (Ne.symm heq)⟩)
  · exact mem_upsertDirListItem.mpr (.inl ⟨h.kept x hx hkept, hkept e he⟩)

/-- A turn between tasks that do not read leaves those who do. -/
theorem getElem?_set_iff {tasks : List (Task DirList)} (ht : tasks[i]? = some t)
    (hquiet : reading t = none) (hquiet' : reading t' = none) (j : ℕ) (hx : reading x ≠ none) :
    (tasks.set i t')[j]? = some x ↔ tasks[j]? = some x := by
  by_cases hij : i = j
  · subst hij
    rw [List.getElem?_set_self (List.getElem?_eq_some_iff.mp ht).1, ht]
    constructor
    · intro heq
      exact absurd (Option.some.inj heq ▸ hquiet') hx
    · intro heq
      exact absurd (Option.some.inj heq ▸ hquiet) hx
  · rw [List.getElem?_set_ne hij]

theorem standing_turn {r : CacheTurn DirList} {seen : List Unit}
    (hapart : ∀ e ∈ begun, ∀ e' ∈ begun, e ≠ e' → replacedBy equalFold e.item e'.item = false)
    (hours : Ours dir begun t) (ht : p.tasks[i]? = some t)
    (hserial : touches t → ∀ x ∈ p.tasks, reading x = none)
    (hturn : CreateTurn equalFold toLower dir p.shared t r)
    (h : Standing equalFold dir orig begun p) :
    Standing equalFold dir orig begun ⟨r.shared, p.tasks.set i r.task ++ r.spawned, seen⟩ := by
  have hlt : i < p.tasks.length := (List.getElem?_eq_some_iff.mp ht).1
  have hset : ∀ t' : Task DirList, (p.tasks.set i t')[i]? = some t' := fun t' =>
    List.getElem?_set_self hlt
  cases hturn with
  | miss e s' =>
    rw [List.append_nil]
    exact .dropping false dir [] [dir] (List.mem_of_getElem? (hset _))
  | giveUp e v =>
    rw [List.append_nil]
    exact .dropping false dir [] [dir] (List.mem_of_getElem? (hset _))
  | read e en hen =>
    rw [List.append_nil]
    have hquiet := hserial rfl
    cases h with
    | dropping removes d todo dirs hmem =>
      exact .dropping removes d todo dirs (mem_set_of_ne ht hmem nofun)
    | absent hnone =>
      rw [hnone] at hen
      cases hen
    | stored en' hen' hcov =>
      obtain rfl := Option.some.inj (hen'.symm.trans hen)
      refine .writing i _ _ (hset _) rfl (hcov.read hapart hours.1 ht _) (alone_set ?_)
      exact fun j x hx hne => absurd (quiet_iff.mp hquiet j x hx) hne
    | writing j x v hx hv =>
      rw [quiet_iff.mp hquiet j x hx] at hv
      cases hv
  | goOn e v ttl =>
    rw [List.append_nil]
    have hreads : reading (.upsertTTL e v) = some v := rfl
    cases h with
    | dropping removes d todo dirs hmem =>
      exact .dropping removes d todo dirs (mem_set_of_ne ht hmem nofun)
    | absent hnone hquiet =>
      rw [quiet_iff.mp hquiet i _ ht] at hreads
      cases hreads
    | stored en hen hcov hquiet =>
      rw [quiet_iff.mp hquiet i _ ht] at hreads
      cases hreads
    | writing j x v' hx hv hcov halone =>
      obtain rfl : i = j := halone i _ ht (by simp [hreads])
      obtain rfl := Option.some.inj (ht.symm.trans hx)
      obtain rfl := Option.some.inj (hreads.symm.trans hv)
      exact .writing i _ v (hset _) rfl (hcov.mono fun e' he' => mem_set_of_ne ht he' nofun)
        (alone_set halone)
  | write e v ttl s' expiresAt hen =>
    rw [List.append_nil]
    have hreads : reading (.upsertSet e v ttl) = some v := rfl
    cases h with
    | dropping removes d todo dirs hmem =>
      exact .dropping removes d todo dirs (mem_set_of_ne ht hmem nofun)
    | absent hnone hquiet =>
      rw [quiet_iff.mp hquiet i _ ht] at hreads
      cases hreads
    | stored en hen hcov hquiet =>
      rw [quiet_iff.mp hquiet i _ ht] at hreads
      cases hreads
    | writing j x v' hx hv hcov halone =>
      obtain rfl : i = j := halone i _ ht (by simp [hreads])
      obtain rfl := Option.some.inj (ht.symm.trans hx)
      obtain rfl := Option.some.inj (hreads.symm.trans hv)
      exact .stored ⟨v, expiresAt⟩ hen (hcov.mono fun e' he' => mem_set_of_ne ht he' nofun)
        (quiet_set_of_alone halone rfl)
  | drop removes dirs s' hnone =>
    rw [List.append_nil]
    exact .absent hnone (quiet_set (hserial rfl) rfl)
  | last _ s' hkind hitems =>
    rw [List.append_nil]
    have hne : ∀ x, touches x = true → x ≠ t := by
      rintro x hx rfl
      rw [hkind.2] at hx
      cases hx
    refine h.of_same (.inl (congrFun hitems dir)) ?_ ?_ ?_
    · exact fun removes d todo dirs hmem => mem_set_of_ne ht hmem (hne _ rfl)
    · exact fun list hcov => hcov.mono fun e he => mem_set_of_ne ht he (hne _ rfl)
    · exact fun j x hx => getElem?_set_iff ht hkind.1 rfl j hx

end Turn

/-- A create that begins leaves those who read. -/
theorem getElem?_append_iff {tasks : List (Task DirList)} {x y : Task DirList}
    (hy : reading y = none) (j : ℕ) (hx : reading x ≠ none) :
    (tasks ++ [y])[j]? = some x ↔ tasks[j]? = some x := by
  by_cases hj : j < tasks.length
  · rw [List.getElem?_append_left hj]
  · rw [List.getElem?_append_right (Nat.le_of_not_lt hj),
      List.getElem?_eq_none (Nat.le_of_not_lt hj)]
    constructor
    · intro heq
      have hmem := List.mem_of_getElem? heq
      rw [List.mem_singleton] at hmem
      exact absurd (hmem ▸ hy) hx
    · intro heq
      cases heq

/-! ### Runs -/

theorem Ours.mono {es : List FileMutated} {t : Task DirList} (h : Ours dir begun t) :
    Ours dir (begun ++ es) t := by
  cases t <;> first | exact ⟨List.mem_append_left es h.1, h.2⟩ | exact h

theorem CreateTurn.ours {s : State DirList} {t : Task DirList} {r : CacheTurn DirList}
    (hturn : CreateTurn equalFold toLower dir s t r) (h : Ours dir begun t) :
    Ours dir begun r.task ∧ r.spawned = [] := by
  cases hturn with
  | miss | giveUp => exact ⟨⟨rfl, rfl⟩, rfl⟩
  | read => exact ⟨h.2, rfl⟩
  | goOn => exact ⟨h, rfl⟩
  | write | drop | last => exact ⟨trivial, rfl⟩

/-- What holds of a run of creates of which `begun` have begun. -/
structure CreateInv (equalFold : Str → Str → Bool) (dir : Dir) (orig : DirList)
    (begun : List FileMutated) (p : CachePool DirList) : Prop where
  ours : ∀ t ∈ p.tasks, Ours dir begun t
  standing : Standing equalFold dir orig begun p

variable {p q : CachePool DirList}

/-- The tasks are the same, and the listing may go. -/
theorem CreateInv.of_items (h : CreateInv equalFold dir orig begun p) (htasks : q.tasks = p.tasks)
    (hitems : q.shared.items dir = p.shared.items dir ∨ q.shared.items dir = none) :
    CreateInv equalFold dir orig begun q := by
  refine ⟨htasks ▸ h.ours, h.standing.of_same hitems ?_ ?_ ?_⟩
  · exact fun _ _ _ _ hmem => htasks ▸ hmem
  · exact fun _ hcov => htasks ▸ hcov
  · exact fun _ _ _ => by rw [htasks]

theorem createInv_event {c : Call} (h : CreateInv equalFold dir orig begun p)
    (honly : CreateIn dir (.event c))
    (hstep : (listings equalFold toLower).step p (.event c) = some q) :
    CreateInv equalFold dir orig (begun ++ creates [.event c]) q := by
  obtain ⟨r, hr, rfl⟩ := Option.map_eq_some_iff.mp hstep
  cases c with
  | list => exact honly.elim
  | applyMutation e =>
    obtain ⟨hop, hdir⟩ := honly
    have hr' : r = { shared := p.shared, spawned := [.upserting e] } := by
      simpa [listings, system, event, hop] using hr.symm
    subst hr'
    have hkeep : ∀ t ∈ p.tasks, t ∈ p.tasks ++ [.upserting e] := fun t ht =>
      List.mem_append_left _ ht
    constructor
    · intro t ht
      obtain ht | ht := List.mem_append.mp ht
      · exact (h.ours t ht).mono
      · rw [List.mem_singleton.mp ht]
        exact ⟨List.mem_append_right _ List.mem_cons_self, hdir⟩
    · refine h.standing.of_same (.inl rfl) (fun _ _ _ _ => hkeep _) (fun _ hcov => hcov.append) ?_
      exact fun j x hx => getElem?_append_iff rfl j hx
  | tick n =>
    obtain rfl := Option.some.inj hr
    rw [show creates [.event (.tick n)] = [] from rfl, List.append_nil]
    exact h.of_items (List.append_nil _) (.inl rfl)
  | remove d =>
    obtain rfl := Option.some.inj hr
    rw [show creates [.event (.remove d)] = [] from rfl, List.append_nil]
    apply h.of_items (List.append_nil _)
    by_cases hd : dir = d
    · subst hd
      exact .inr (Function.update_self _ _ _)
    · exact .inl (Function.update_of_ne hd _ _)

theorem createInv_step {a : CreateAction}
    (hapart : ∀ e ∈ begun, ∀ e' ∈ begun, e ≠ e' → replacedBy equalFold e.item e'.item = false)
    (h : CreateInv equalFold dir orig begun p) (honly : CreateIn dir a) (hserial : Serial p a)
    (hstep : (listings equalFold toLower).step p a = some q) :
    CreateInv equalFold dir orig (begun ++ creates [a]) q := by
  cases a with
  | event c => exact createInv_event h honly hstep
  | resume i o =>
    rw [show creates [.resume i o] = [] from rfl, List.append_nil]
    obtain ⟨t, ht, hstep⟩ := Option.bind_eq_some_iff.mp hstep
    obtain ⟨r, hr, rfl⟩ := Option.map_eq_some_iff.mp hstep
    have hours := h.ours t (List.mem_of_getElem? ht)
    have hturn : CreateTurn equalFold toLower dir p.shared t r := createTurn_of_resume hours hr
    obtain ⟨hours', hspawned⟩ := hturn.ours hours
    constructor
    · exact forall_mem_set_append h.ours hours' (by simp [hspawned])
    · exact standing_turn hapart hours ht (hserial t ht) hturn h.standing

theorem createInv_run {actions : List CreateAction}
    (hapart : ∀ e ∈ begun ++ creates actions, ∀ e' ∈ begun ++ creates actions, e ≠ e' →
      replacedBy equalFold e.item e'.item = false)
    (h : CreateInv equalFold dir orig begun p) (honly : ∀ a ∈ actions, CreateIn dir a)
    (hserial : (listings equalFold toLower).Along Serial p actions)
    (hrun : (listings equalFold toLower).run p actions = some q) :
    CreateInv equalFold dir orig (begun ++ creates actions) q := by
  induction actions generalizing p begun with
  | nil =>
    obtain rfl := Option.some.inj hrun
    rwa [show creates [] = [] from rfl, List.append_nil]
  | cons a actions ih =>
    obtain ⟨p', hstep, hrun⟩ := (System.run_cons _).mp hrun
    obtain ⟨hok, hserial⟩ := hserial p' hstep
    have hcreates : begun ++ creates (a :: actions) = begun ++ creates [a] ++ creates actions := by
      rw [List.append_assoc, creates, creates, creates, ← List.filterMap_append]
      rfl
    rw [hcreates] at hapart ⊢
    refine ih hapart ?_ (fun a' ha' => honly a' (List.mem_cons_of_mem _ ha')) hserial hrun
    refine createInv_step (fun e he e' he' => ?_) h (honly a List.mem_cons_self) hok hstep
    exact hapart e (by simp [he]) e' (by simp [he'])

/-- When all creates have ended, an entry that is there is covered. -/
theorem CreateInv.contains {en : Entry DirList} (h : CreateInv equalFold dir orig begun p)
    (hdone : ∀ t ∈ p.tasks, t = .finished) (hen : p.shared.items dir = some en) :
    Contains equalFold orig begun en.value.list := by
  cases h.standing with
  | dropping removes d todo dirs hmem =>
    cases hdone _ hmem
  | absent hnone =>
    rw [hnone] at hen
    cases hen
  | stored en' hen' hcov =>
    obtain rfl := Option.some.inj (hen'.symm.trans hen)
    refine ⟨fun e he => hcov.created e he fun hmem => ?_, hcov.kept⟩
    cases hdone _ hmem
  | writing i t v ht hv =>
    rw [hdone t (List.mem_of_getElem? ht)] at hv
    cases hv

theorem apart_of_distinct {es : List FileMutated}
    (hids : es.Pairwise fun e e' => e.fileId ≠ e'.fileId ∧ e.fileName ≠ e'.fileName)
    (hnames : NamesApart equalFold es) :
    ∀ e ∈ es, ∀ e' ∈ es, e ≠ e' → replacedBy equalFold e.item e'.item = false := by
  intro e he e' he' hne
  have hsymm : Std.Symm fun e e' : FileMutated => e.fileId ≠ e'.fileId ∧ e.fileName ≠ e'.fileName :=
    ⟨fun _ _ h => ⟨h.1.symm, h.2.symm⟩⟩
  have hid : e.fileId ≠ e'.fileId := (hids.forall he he' hne).1
  rw [replacedBy, Bool.or_eq_false_iff, decide_eq_false_iff_not]
  refine ⟨fun heq => hid heq.symm, ?_⟩
  rw [Bool.and_assoc, Bool.and_eq_false_iff, Bool.and_eq_false_iff, Bool.not_eq_false',
    Bool.not_eq_false']
  by_cases hdir : e.isDir
  · exact .inl hdir
  · by_cases hdir' : e'.isDir
    · exact .inr (.inl hdir')
    · exact .inr (.inr (hnames e' he' e he hid.symm (Bool.eq_false_iff.mpr hdir')
        (Bool.eq_false_iff.mpr hdir)))

/-- Creates that are serial, of files with names that are apart, lose nothing. -/
theorem serial_creates_kept (equalFold : Str → Str → Bool) (toLower : Str → Str) :
    NoLostCreate equalFold toLower fun p actions =>
      (listings equalFold toLower).Along Serial p actions ∧
        NamesApart equalFold (creates actions) := by
  rintro dir s orig actions q horig honly hids ⟨hserial, hnames⟩ hrun hdone en hen
  have hstart : CreateInv equalFold dir orig.value.list [] { shared := s } :=
    ⟨nofun, .stored orig horig ⟨nofun, fun _ hx _ => hx⟩ nofun⟩
  have hend : CreateInv equalFold dir orig.value.list ([] ++ creates actions) q :=
    createInv_run (apart_of_distinct hids hnames) hstart honly hserial hrun
  exact hend.contains hdone hen

/-- `EqualFold` and `ToLower` of ASCII names. -/
def asciiLower (name : Str) : Str := name.map Char.toLower

def asciiFold (name name' : Str) : Bool := asciiLower name = asciiLower name'

/-- A create of the file `name` in the directory `d`, with its name for an id. -/
def createOf (name : Char) : FileMutated :=
  { accountId := 1, op := .create, parentId := ['d'], fileId := [name], fileName := [name] }

/-- The directory `d` is listed, and empty. -/
def listedState : State DirList :=
  { items := Function.update (fun _ => none) ⟨1, ['d']⟩ (some ⟨⟨[], 0, false⟩, none⟩) }

/-- Creates of `a` and `b` begin, and take their turns in this order. -/
def createsRun (turns : List ℕ) : List CreateAction :=
  .event (.applyMutation (createOf 'a')) :: .event (.applyMutation (createOf 'b')) ::
    turns.map fun i => .resume i .turn

theorem eq_finished_of_mem_two :
    ∀ t ∈ ([.finished, .finished] : List (Task DirList)), t = .finished := by
  simp

theorem serial_creates_kept_two : ∃ q en,
    (listings asciiFold asciiLower).run { shared := listedState }
      (createsRun [0, 0, 0, 0, 1, 1, 1, 1]) = some q ∧
    q.shared.items ⟨1, ['d']⟩ = some en ∧
    Contains asciiFold [] [createOf 'a', createOf 'b'] en.value.list := by
  refine ⟨_, _, rfl, rfl, ?_⟩
  exact serial_creates_kept asciiFold asciiLower ⟨1, ['d']⟩ listedState _
    (createsRun [0, 0, 0, 0, 1, 1, 1, 1]) _ rfl (by decide) (by decide) ⟨by decide, by decide⟩ rfl
    eq_finished_of_mem_two _ rfl

/-- Both read the empty listing; the second to write loses the item of the first. -/
theorem create_lost : ¬NoLostCreate asciiFold asciiLower fun _ _ => True := by
  intro h
  have hkept := h ⟨1, ['d']⟩ listedState _ (createsRun [0, 0, 1, 1, 0, 1, 0, 1]) _ rfl (by decide)
    (by decide) trivial rfl eq_finished_of_mem_two _ rfl
  have hmem := hkept.created (createOf 'a') List.mem_cons_self
  obtain ⟨hnil, -⟩ | heq := mem_upsertDirListItem.mp hmem
  · cases hnil
  · exact absurd heq (by decide)

end AllInOneBackup.LitePan.DirCache
