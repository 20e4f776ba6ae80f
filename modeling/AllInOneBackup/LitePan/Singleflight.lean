import AllInOneBackup.Concurrency.Pool
import Mathlib.Logic.Function.Basic

/-! `singleflight.Group`. Concurrent calls of one key share one execution: the first to take the
lock runs `fn`, the others wait for it. The result is published and the entry removed in two
steps, so a call that begins between them is handed a result from before it began; what holds
of every run is that its execution was not yet removed. Neither step is deferred, so an `fn` that
panics leaves the entry and an open `done` behind. -/

namespace AllInOneBackup.LitePan.Singleflight

open Concurrency

variable {K V : Type}

/-! ### Model -/

/-- `call`: its value and error once `fn` has returned, and whether `done` is closed. -/
structure Call (V : Type) where
  val : Option V := none
  done : Bool := false

/-- `Group`, with every call it has made. -/
structure Group (K V : Type) where
  m : K → Option ℕ := fun _ => none
  calls : List (Call V) := []

/-- Where a `DoCtx` stands: before the first lock, in `fn`, before the close of `done`, before the
second lock, left by a panic of `fn`, or waiting for a call. -/
inductive Task (K V : Type)
  | locking (key : K)
  | running (key : K) (c : ℕ)
  | completed (key : K) (c : ℕ)
  | closed (key : K) (c : ℕ)
  | panicked (key : K) (c : ℕ)
  | waiting (c : ℕ)
  | returned (c : ℕ) (v : V)
  | cancelled

/-- A turn that goes on, the return of `fn`, its panic, and the choice of `ctx.Done()`. -/
inductive Outcome (V : Type)
  | turn
  | fnReturned (v : V)
  | fnPanicked
  | ctxDone

/-- An observer sees which executions begin, for which key, and with what they complete. -/
inductive Event (K V : Type)
  | began (key : K) (c : ℕ)
  | completed (c : ℕ) (v : V)

abbrev FlightTurn (K V : Type) := Turn (Group K V) (Task K V) (Event K V)

abbrev FlightPool (K V : Type) := Pool (Group K V) (Task K V) (Event K V)

namespace Group

variable (g : Group K V)

/-- Under the first lock: the entry of the key, or a new call. -/
def enter [DecidableEq K] (key : K) : FlightTurn K V :=
  match g.m key with
  | some c => { shared := g, task := .waiting c }
  | none =>
    { shared :=
        { m := Function.update g.m key (some g.calls.length), calls := g.calls ++ [{}] }
      task := .running key g.calls.length
      seen := [.began key g.calls.length] }

/-- `c.val, c.err = fn(ctx)`. -/
def complete (c : ℕ) (v : V) : Group K V :=
  { g with calls := g.calls.modify c fun call => { call with val := some v } }

/-- `close(c.done)`. -/
def close (c : ℕ) : Group K V :=
  { g with calls := g.calls.modify c fun call => { call with done := true } }

/-- Under the second lock. -/
def delete [DecidableEq K] (key : K) : Group K V := { g with m := Function.update g.m key none }

end Group

def resume [DecidableEq K] (g : Group K V) : Task K V → Outcome V → Option (FlightTurn K V)
  | .locking key, .turn => some (g.enter key)
  | .running key c, .fnReturned v =>
    some { shared := g.complete c v, task := .completed key c, seen := [.completed c v] }
  | .running key c, .fnPanicked => some { shared := g, task := .panicked key c }
  | .completed key c, .turn => some { shared := g.close c, task := .closed key c }
  | .closed key c, .turn =>
    (g.calls[c]?.bind Call.val).map fun v => { shared := g.delete key, task := .returned c v }
  | .waiting c, .turn => g.calls[c]?.bind fun call =>
      if call.done then call.val.map fun v => { shared := g, task := .returned c v } else none
  | .waiting _, .ctxDone => some { shared := g, task := .cancelled }
  | _, _ => none

/-- A call of `DoCtx` with the key begins. -/
def event (g : Group K V) (key : K) : Option (Effect (Group K V) (Task K V) (Event K V)) :=
  some { shared := g, spawned := [.locking key] }

def system [DecidableEq K] : System (Group K V) (Task K V) (Event K V) (Outcome V) K := ⟨resume, event⟩

def initial : FlightPool K V := { shared := {} }

/-! ### Executions -/

/-- The task has the entry of the key, and its call is `c`. -/
def Leads (key : K) (c : ℕ) (t : Task K V) : Prop :=
  t = .running key c ∨ t = .completed key c ∨ t = .closed key c ∨ t = .panicked key c

/-- A task leads one call. -/
theorem Leads.unique {key key' : K} {c c' : ℕ} {t : Task K V} (h : Leads key c t)
    (h' : Leads key' c' t) : key' = key ∧ c' = c := by
  obtain rfl | rfl | rfl | rfl := h <;> simpa [Leads, eq_comm] using h'

/-- The task has yet to complete or close the call `c`, or it has left it open by a panic. -/
def Opens (c : ℕ) (t : Task K V) : Prop :=
  ∃ key, t = .running key c ∨ t = .completed key c ∨ t = .panicked key c

theorem Opens.leads {c : ℕ} {t : Task K V} (h : Opens c t) : ∃ key, Leads key c t := by
  obtain ⟨key, rfl | rfl | rfl⟩ := h
  · exact ⟨key, .inl rfl⟩
  · exact ⟨key, .inr (.inl rfl)⟩
  · exact ⟨key, .inr (.inr (.inr rfl))⟩

/-- The task runs `fn` for the key. -/
def Runs (key : K) (t : Task K V) : Prop := ∃ c, t = .running key c

/-- The values that the execution `c` has completed with. -/
def completions (c : ℕ) (trace : List (Event K V)) : List V :=
  trace.filterMap fun | .completed c' v => if c' = c then some v else none | _ => none

/-- The keys that the execution `c` has begun for. -/
def begins (c : ℕ) (trace : List (Event K V)) : List K :=
  trace.filterMap fun | .began key c' => if c' = c then some key else none | _ => none

/-- The entry of the call was made, and is no longer there. -/
def Removed (g : Group K V) (c : ℕ) : Prop := c < g.calls.length ∧ ∀ key, g.m key ≠ some c

/-- What the group holds of the call that a task has to do with. -/
def CallOk (g : Group K V) : Task K V → Prop
  | .running _ c | .panicked _ c => g.calls[c]? = some ⟨none, false⟩
  | .completed _ c => ∃ v, g.calls[c]? = some ⟨some v, false⟩
  | .closed _ c => ∃ v, g.calls[c]? = some ⟨some v, true⟩
  | .waiting c => c < g.calls.length
  | .returned c v => ∃ done, g.calls[c]? = some ⟨some v, done⟩
  | .locking _ | .cancelled => True

structure Inv (p : FlightPool K V) : Prop where
  entry : ∀ key c, p.shared.m key = some c → c < p.shared.calls.length
  leads : ∀ t ∈ p.tasks, ∀ key c, Leads key c t → p.shared.m key = some c
  once : ∀ c, Exclusive (fun t => ∃ key, Leads key c t) p.tasks
  call : ∀ t ∈ p.tasks, CallOk p.shared t
  pending : ∀ c call, p.shared.calls[c]? = some call → call.done = false →
    ∃ t ∈ p.tasks, Opens c t
  done : ∀ (c : ℕ) (call : Call V), p.shared.calls[c]? = some call → call.done = true →
    ∃ v, call.val = some v
  trace : ∀ c, completions c p.trace = (p.shared.calls[c]?.bind Call.val).toList
  begun : ∀ key c, p.shared.m key = some c → begins c p.trace = [key]
  unbegun : ∀ c, p.shared.calls.length ≤ c → begins c p.trace = []

/-! ### What a turn keeps -/

section Calls

variable (g : Group K V)

theorem getElem?_complete (c c' : ℕ) (v : V) : (g.complete c v).calls[c']? =
    if c = c' then g.calls[c']?.map fun call => { call with val := some v } else g.calls[c']? := by
  rw [Group.complete, List.getElem?_modify]
  split_ifs <;> simp

theorem getElem?_close (c c' : ℕ) : (g.close c).calls[c']? =
    if c = c' then g.calls[c']?.map fun call => { call with done := true } else g.calls[c']? := by
  rw [Group.close, List.getElem?_modify]
  split_ifs <;> simp

@[simp] theorem length_complete (c : ℕ) (v : V) :
    (g.complete c v).calls.length = g.calls.length := List.length_modify _ _ _

@[simp] theorem length_close (c : ℕ) : (g.close c).calls.length = g.calls.length :=
  List.length_modify _ _ _

end Calls

variable {g : Group K V} {t : Task K V} {c : ℕ}

/-- What happens to the call of one task makes no difference to the others, as long as the value
that some of them have returned stays. -/
theorem CallOk.of_call {g' : Group K V} (h : CallOk g t) (hne : ∀ key, ¬Leads key c t)
    (hlen : g'.calls.length = g.calls.length)
    (hother : ∀ c', c' ≠ c → g'.calls[c']? = g.calls[c']?)
    (hself : ∀ v done, g.calls[c]? = some ⟨some v, done⟩ →
      ∃ done', g'.calls[c]? = some ⟨some v, done'⟩) : CallOk g' t := by
  cases t with
  | running key c' =>
    have hcc : c' ≠ c := fun heq => hne key (heq ▸ .inl rfl)
    exact (hother c' hcc).trans h
  | completed key c' =>
    have hcc : c' ≠ c := fun heq => hne key (heq ▸ .inr (.inl rfl))
    exact h.imp fun v h => (hother c' hcc).trans h
  | closed key c' =>
    have hcc : c' ≠ c := fun heq => hne key (heq ▸ .inr (.inr (.inl rfl)))
    exact h.imp fun v h => (hother c' hcc).trans h
  | panicked key c' =>
    have hcc : c' ≠ c := fun heq => hne key (heq ▸ .inr (.inr (.inr rfl)))
    exact (hother c' hcc).trans h
  | waiting c' => exact lt_of_lt_of_eq (show c' < g.calls.length from h) hlen.symm
  | returned c' v =>
    obtain ⟨done, h⟩ := h
    by_cases hcc : c' = c
    · subst hcc
      exact hself v done h
    · exact ⟨done, (hother c' hcc).trans h⟩
  | locking _ | cancelled => trivial

/-- A new call stands behind the others. -/
theorem CallOk.append (h : CallOk g t) (m : K → Option ℕ) (call : Call V) :
    CallOk ⟨m, g.calls ++ [call]⟩ t := by
  have hold : ∀ {c' : ℕ} {x : Call V}, g.calls[c']? = some x → (g.calls ++ [call])[c']? = some x :=
    fun hx => (List.getElem?_append_left (List.getElem?_eq_some_iff.mp hx).1).trans hx
  cases t with
  | running key c' | panicked key c' => exact hold h
  | completed key c' => exact h.imp fun v h => hold h
  | closed key c' => exact h.imp fun v h => hold h
  | waiting c' =>
    have hlt : c' < g.calls.length := h
    change c' < (g.calls ++ [call]).length
    rw [List.length_append]
    omega
  | returned c' v' => exact h.imp fun done h => hold h
  | locking _ | cancelled => trivial

theorem CallOk.congr {g' : Group K V} (h : CallOk g t) (hcalls : g'.calls = g.calls) :
    CallOk g' t := by
  obtain ⟨m, calls⟩ := g'
  subst hcalls
  cases t <;> exact h

@[simp] theorem completions_append (c : ℕ) (trace seen : List (Event K V)) :
    completions c (trace ++ seen) = completions c trace ++ completions c seen :=
  List.filterMap_append

@[simp] theorem begins_append (c : ℕ) (trace seen : List (Event K V)) :
    begins c (trace ++ seen) = begins c trace ++ begins c seen := List.filterMap_append

/-! ### Every run -/

section Step

variable {p : FlightPool K V} {i : ℕ}

/-- Another task than the one that leads a call does not lead it. -/
theorem Inv.not_leads (h : Inv p) {t x : Task K V} {key : K} {c j : ℕ}
    (hi : p.tasks[i]? = some t) (ht : Leads key c t) (hj : p.tasks[j]? = some x) (hij : j ≠ i)
    (key' : K) : ¬Leads key' c x :=
  fun hx => hij (h.once c hj hi ⟨key', hx⟩ ⟨key, ht⟩)

/-- A turn that keeps the entries and the task's lead. -/
theorem Inv.of_lead (h : Inv p) {t t' : Task K V} {g' : Group K V} {key : K} {c : ℕ}
    {seen : List (Event K V)} (hi : p.tasks[i]? = some t) (ht : Leads key c t)
    (ht' : Leads key c t') (hm : g'.m = p.shared.m) (hlen : g'.calls.length = p.shared.calls.length)
    (hother : ∀ c', c' ≠ c → g'.calls[c']? = p.shared.calls[c']?)
    (hself : ∀ v done, p.shared.calls[c]? = some ⟨some v, done⟩ →
      ∃ done', g'.calls[c]? = some ⟨some v, done'⟩) (hcall : CallOk g' t')
    (hpending : ∀ call, g'.calls[c]? = some call → call.done = false → Opens c t')
    (hvalue : ∀ call : Call V, g'.calls[c]? = some call → call.done = true → ∃ v, call.val = some v)
    (htrace : completions c (p.trace ++ seen) = (g'.calls[c]?.bind Call.val).toList)
    (hseen : ∀ c', c' ≠ c → completions c' seen = []) (hbegins : ∀ c', begins c' seen = []) :
    Inv ⟨g', p.tasks.set i t' ++ [], p.trace ++ seen⟩ := by
  have hothers : ∀ x ∈ p.tasks.set i t' ++ [], x = t' ∨ ∃ j, j ≠ i ∧ p.tasks[j]? = some x := by
    intro x hx
    obtain hx | hx | hx := mem_set_append hx
    · exact .inl hx
    · cases hx
    · exact .inr hx
  refine ⟨fun key' c' hc => ?_, fun x hx key' c' hlx => ?_, fun c' => ?_, fun x hx => ?_,
    fun c' call hc hdone => ?_, fun c' call hc => ?_, fun c' => ?_, fun key' c' hc => ?_,
    fun c' hc => ?_⟩
  · rw [hlen]
    exact h.entry key' c' (hm ▸ hc)
  · rw [hm]
    obtain rfl | ⟨j, -, hj⟩ := hothers x hx
    · obtain ⟨rfl, rfl⟩ := ht'.unique hlx
      exact h.leads t (List.mem_of_getElem? hi) _ _ ht
    · exact h.leads x (List.mem_of_getElem? hj) key' c' hlx
  · refine (h.once c').set_append hi (fun hP => .inl ?_) (by simp)
    obtain ⟨key', hP⟩ := hP
    obtain ⟨rfl, rfl⟩ := ht'.unique hP
    exact ⟨_, ht⟩
  · obtain rfl | ⟨j, hij, hj⟩ := hothers x hx
    · exact hcall
    · exact (h.call x (List.mem_of_getElem? hj)).of_call (h.not_leads hi ht hj hij) hlen hother hself
  · by_cases hcc : c' = c
    · subst hcc
      have hlt := (List.getElem?_eq_some_iff.mp hi).1
      refine ⟨t', ?_, hpending call hc hdone⟩
      exact List.mem_append_left _ (List.mem_set hlt t')
    · rw [hother c' hcc] at hc
      refine exists_mem_set_append hi (fun hP => ?_) (h.pending c' call hc hdone)
      obtain ⟨key', hP⟩ := hP.leads
      exact absurd (ht.unique hP).2 hcc
  · by_cases hcc : c' = c
    · subst hcc
      exact hvalue call hc
    · exact h.done c' call ((hother c' hcc).symm.trans hc)
  · by_cases hcc : c' = c
    · subst hcc
      exact htrace
    · rw [completions_append, hseen c' hcc, List.append_nil, h.trace c']
      dsimp only
      rw [hother c' hcc]
  · rw [begins_append, hbegins, List.append_nil]
    exact h.begun key' c' (hm ▸ hc)
  · rw [begins_append, hbegins, List.append_nil]
    exact h.unbegun c' (hlen ▸ hc)

/-- A turn, or the start of a call, that leads nothing and changes nothing. -/
theorem Inv.of_idle (h : Inv p) {tasks : List (Task K V)}
    (htasks : ∀ x ∈ tasks, x ∈ p.tasks ∨ (∀ key c, ¬Leads key c x) ∧ CallOk p.shared x)
    (honce : ∀ c, Exclusive (fun t => ∃ key, Leads key c t) tasks)
    (hkept : ∀ x ∈ p.tasks, ∀ key c, Leads key c x → x ∈ tasks) :
    Inv ⟨p.shared, tasks, p.trace ++ []⟩ := by
  rw [List.append_nil]
  refine ⟨h.entry, fun x hx key c hlx => ?_, honce, fun x hx => ?_, fun c call hc hdone => ?_,
    h.done, h.trace, h.begun, h.unbegun⟩
  · obtain hx | ⟨hnone, -⟩ := htasks x hx
    · exact h.leads x hx key c hlx
    · exact absurd hlx (hnone key c)
  · obtain hx | ⟨-, hcall⟩ := htasks x hx
    · exact h.call x hx
    · exact hcall
  · obtain ⟨x, hx, hopens⟩ := h.pending c call hc hdone
    obtain ⟨key, hlx⟩ := hopens.leads
    exact ⟨x, hkept x hx key c hlx, hopens⟩

/-- The turn of a task that leads nothing, before and after. -/
theorem Inv.of_follower (h : Inv p) {t t' : Task K V} (hi : p.tasks[i]? = some t)
    (ht : ∀ key c, ¬Leads key c t) (ht' : ∀ key c, ¬Leads key c t') (hcall : CallOk p.shared t') :
    Inv ⟨p.shared, p.tasks.set i t' ++ [], p.trace ++ []⟩ := by
  refine h.of_idle (fun x hx => ?_) (fun c => ?_) fun x hx key c hlx => ?_
  · obtain rfl | hx | ⟨j, -, hj⟩ := mem_set_append hx
    · exact .inr ⟨ht', hcall⟩
    · cases hx
    · exact .inl (List.mem_of_getElem? hj)
  · exact (h.once c).set_append hi (fun ⟨key, hP⟩ => absurd hP (ht' key c)) (by simp)
  · obtain ⟨j, hj⟩ := List.mem_iff_getElem?.mp hx
    have hij : i ≠ j := by
      rintro rfl
      exact ht key c (Option.some.inj (hi.symm.trans hj) ▸ hlx)
    refine List.mem_append_left _ (List.mem_of_getElem? (i := j) ?_)
    rwa [List.getElem?_set_ne hij]

variable [DecidableEq K]

/-- A key without an entry gets a new call. -/
theorem Inv.of_new (h : Inv p) {key : K} (hi : p.tasks[i]? = some (.locking key))
    (hkey : p.shared.m key = none) :
    Inv ⟨{ m := Function.update p.shared.m key (some p.shared.calls.length)
           calls := p.shared.calls ++ [{}] },
      p.tasks.set i (.running key p.shared.calls.length) ++ [],
      p.trace ++ [.began key p.shared.calls.length]⟩ := by
  have hnew : ∀ x ∈ p.tasks, ∀ key', ¬Leads key' p.shared.calls.length x := by
    intro x hx key' hlx
    have := h.entry key' _ (h.leads x hx key' _ hlx)
    omega
  have hlast : (p.shared.calls ++ [({} : Call V)])[p.shared.calls.length]? = some {} := by simp
  have hold : ∀ c, c ≠ p.shared.calls.length →
      (p.shared.calls ++ [({} : Call V)])[c]? = p.shared.calls[c]? := by
    intro c hc
    by_cases hlt : c < p.shared.calls.length
    · exact List.getElem?_append_left hlt
    · rw [List.getElem?_eq_none (by rw [List.length_append, List.length_singleton]; omega),
        List.getElem?_eq_none (by omega)]
  refine ⟨fun key' c hc => ?_, fun x hx key' c hlx => ?_, fun c => ?_, fun x hx => ?_,
    fun c call hc hdone => ?_, fun c call hc => ?_, fun c => ?_, fun key' c hc => ?_,
    fun c hc => ?_⟩
  · dsimp only at hc ⊢
    rw [List.length_append, List.length_singleton]
    by_cases hk : key' = key
    · rw [hk, Function.update_self] at hc
      cases hc
      omega
    · rw [Function.update_of_ne hk] at hc
      have := h.entry key' c hc
      omega
  · obtain rfl | hx | ⟨j, -, hj⟩ := mem_set_append hx
    · obtain ⟨rfl, rfl⟩ := Leads.unique (.inl rfl) hlx
      exact Function.update_self _ _ _
    · cases hx
    · have hm := h.leads x (List.mem_of_getElem? hj) key' c hlx
      have hk : key' ≠ key := by
        rintro rfl
        rw [hkey] at hm
        cases hm
      exact (Function.update_of_ne hk _ _).trans hm
  · refine (h.once c).set_append hi (fun hP => .inr fun x hx hP' => ?_) (by simp)
    obtain ⟨key', hP⟩ := hP
    obtain ⟨rfl, rfl⟩ := Leads.unique (.inl rfl) hP
    obtain ⟨key', hP'⟩ := hP'
    exact hnew x hx key' hP'
  · obtain rfl | hx | ⟨j, -, hj⟩ := mem_set_append hx
    · exact hlast
    · cases hx
    · exact (h.call x (List.mem_of_getElem? hj)).append _ _
  · by_cases hcc : c = p.shared.calls.length
    · have hlt := (List.getElem?_eq_some_iff.mp hi).1
      exact ⟨_, List.mem_append_left _ (List.mem_set hlt _), key, .inl (by rw [hcc])⟩
    · replace hc := (hold c hcc).symm.trans hc
      exact exists_mem_set_append hi (by simp [Opens]) (h.pending c call hc hdone)
  · by_cases hcc : c = p.shared.calls.length
    · rw [hcc] at hc
      cases hlast.symm.trans hc
      nofun
    · exact h.done c call ((hold c hcc).symm.trans hc)
  · dsimp only
    have hnone : completions c [Event.began (K := K) (V := V) key p.shared.calls.length] = [] := rfl
    rw [completions_append, hnone, List.append_nil, h.trace c]
    by_cases hcc : c = p.shared.calls.length
    · rw [hcc, hlast, List.getElem?_eq_none (Nat.le_refl _)]
      rfl
    · rw [hold c hcc]
  · rw [begins_append]
    by_cases hk : key' = key
    · dsimp only at hc
      rw [hk, Function.update_self] at hc
      obtain rfl : p.shared.calls.length = c := Option.some.inj hc
      rw [h.unbegun _ (Nat.le_refl _), hk]
      simp [begins]
    · replace hc : p.shared.m key' = some c := (Function.update_of_ne hk _ _).symm.trans hc
      have hlt := h.entry key' c hc
      rw [h.begun key' c hc]
      simp [begins, show p.shared.calls.length ≠ c by omega]
  · dsimp only at hc
    rw [List.length_append, List.length_singleton] at hc
    rw [begins_append, h.unbegun c (by omega)]
    simp [begins, show p.shared.calls.length ≠ c by omega]

/-- The entry of a closed call goes. -/
theorem Inv.of_delete (h : Inv p) {key : K} {c : ℕ} {v : V}
    (hi : p.tasks[i]? = some (.closed key c)) (hv : p.shared.calls[c]?.bind Call.val = some v) :
    Inv ⟨p.shared.delete key, p.tasks.set i (.returned c v) ++ [], p.trace ++ []⟩ := by
  rw [List.append_nil p.trace]
  have ht : Leads key c (.closed key c : Task K V) := .inr (.inr (.inl rfl))
  have hold : ∀ key' c', (p.shared.delete key).m key' = some c' → p.shared.m key' = some c' := by
    intro key' c' hc
    dsimp only [Group.delete] at hc
    by_cases hk : key' = key
    · rw [hk, Function.update_self] at hc
      cases hc
    · rwa [Function.update_of_ne hk] at hc
  refine ⟨fun key' c' hc => ?_, fun x hx key' c' hlx => ?_, fun c' => ?_, fun x hx => ?_,
    fun c' call hc hdone => ?_, h.done, h.trace, fun key' c' hc => h.begun key' c' (hold key' c' hc),
    h.unbegun⟩
  · exact h.entry key' c' (hold key' c' hc)
  · obtain rfl | hx | ⟨j, hij, hj⟩ := mem_set_append hx
    · simp [Leads] at hlx
    · cases hx
    · have hm := h.leads x (List.mem_of_getElem? hj) key' c' hlx
      have hk : key' ≠ key := by
        rintro rfl
        rw [h.leads _ (List.mem_of_getElem? hi) _ _ ht] at hm
        cases hm
        exact h.not_leads hi ht hj hij _ hlx
      exact (Function.update_of_ne hk _ _).trans hm
  · exact (h.once c').set_append hi (fun ⟨key', hP⟩ => by simp [Leads] at hP) (by simp)
  · obtain rfl | hx | ⟨j, -, hj⟩ := mem_set_append hx
    · obtain ⟨⟨val, done⟩, hcall, rfl⟩ := Option.bind_eq_some_iff.mp hv
      exact ⟨done, hcall⟩
    · cases hx
    · exact (h.call x (List.mem_of_getElem? hj)).congr rfl
  · exact exists_mem_set_append hi (by simp [Opens]) (h.pending c' call hc hdone)

end Step

theorem inv_initial : Inv (initial : FlightPool K V) :=
  ⟨nofun, nofun, nofun, nofun, nofun, nofun, fun _ => rfl, nofun, fun _ _ => rfl⟩

variable [DecidableEq K]

theorem resume_cases {g : Group K V} {t : Task K V} {o : Outcome V} {r : FlightTurn K V}
    (h : resume g t o = some r) :
    (∃ key, t = .locking key ∧ r = g.enter key) ∨
    (∃ key c v, t = .running key c ∧
      r = ⟨⟨g.complete c v, [], [.completed c v]⟩, .completed key c⟩) ∨
    (∃ key c, t = .completed key c ∧ r = ⟨⟨g.close c, [], []⟩, .closed key c⟩) ∨
    (∃ key c v, t = .closed key c ∧ g.calls[c]?.bind Call.val = some v ∧
      r = ⟨⟨g.delete key, [], []⟩, .returned c v⟩) ∨
    (∃ c v, t = .waiting c ∧ g.calls[c]? = some ⟨some v, true⟩ ∧ r = ⟨⟨g, [], []⟩, .returned c v⟩) ∨
    (∃ c, t = .waiting c ∧ r = ⟨⟨g, [], []⟩, .cancelled⟩) ∨
    (∃ key c, t = .running key c ∧ r = ⟨⟨g, [], []⟩, .panicked key c⟩) := by
  cases t with
  | locking key =>
    cases o <;> cases h
    exact .inl ⟨key, rfl, rfl⟩
  | running key c =>
    cases o with
    | turn => cases h
    | fnReturned v =>
      cases h
      exact .inr (.inl ⟨key, c, v, rfl, rfl⟩)
    | fnPanicked =>
      cases h
      exact .inr (.inr (.inr (.inr (.inr (.inr ⟨key, c, rfl, rfl⟩)))))
    | ctxDone => cases h
  | completed key c =>
    cases o <;> cases h
    exact .inr (.inr (.inl ⟨key, c, rfl, rfl⟩))
  | closed key c =>
    cases o with
    | turn =>
      obtain ⟨v, hv, rfl⟩ := Option.map_eq_some_iff.mp h
      exact .inr (.inr (.inr (.inl ⟨key, c, v, rfl, hv, rfl⟩)))
    | fnReturned v => cases h
    | fnPanicked => cases h
    | ctxDone => cases h
  | waiting c =>
    cases o with
    | turn =>
      obtain ⟨⟨val, done⟩, hcall, h⟩ := Option.bind_eq_some_iff.mp h
      split_ifs at h with hdone
      obtain ⟨v, rfl, rfl⟩ := Option.map_eq_some_iff.mp h
      obtain rfl : done = true := hdone
      exact .inr (.inr (.inr (.inr (.inl ⟨c, v, rfl, hcall, rfl⟩))))
    | fnReturned v => cases h
    | fnPanicked => cases h
    | ctxDone =>
      cases h
      exact .inr (.inr (.inr (.inr (.inr (.inl ⟨c, rfl, rfl⟩)))))
  | panicked key c => cases o <;> cases h
  | returned c v => cases o <;> cases h
  | cancelled => cases o <;> cases h

theorem inv_step (p : FlightPool K V) (a : Action (Outcome V) K) (q : FlightPool K V) (h : Inv p)
    (hstep : system.step p a = some q) : Inv q := by
  obtain ⟨i, o, t, r, rfl, hi, hr, rfl⟩ | ⟨key, r, rfl, he, rfl⟩ := System.step_cases hstep
  · have hcall := h.call t (List.mem_of_getElem? hi)
    obtain ⟨key, rfl, rfl⟩ | ⟨key, c, v, rfl, rfl⟩ | ⟨key, c, rfl, rfl⟩ | ⟨key, c, v, rfl, hv, rfl⟩ |
      ⟨c, v, rfl, hv, rfl⟩ | ⟨c, rfl, rfl⟩ | ⟨key, c, rfl, rfl⟩ := resume_cases hr
    · unfold Group.enter
      split
      · rename_i c hc
        exact h.of_follower hi (by simp [Leads]) (by simp [Leads]) (h.entry key c hc)
      · rename_i hkey
        exact h.of_new hi hkey
    · have hc : p.shared.calls[c]? = some ⟨none, false⟩ := hcall
      have hc' : (p.shared.complete c v).calls[c]? = some ⟨some v, false⟩ := by
        rw [getElem?_complete, if_pos rfl, hc]
        rfl
      refine h.of_lead hi (.inl rfl) (.inr (.inl rfl)) rfl (length_complete _ _ _)
        (fun c' hne => ?_) (fun v' done hv => ?_) ⟨v, hc'⟩ (fun _ _ _ => ⟨key, .inr (.inl rfl)⟩)
        (fun call hcall _ => ⟨v, by cases hc'.symm.trans hcall; rfl⟩) ?_
        (fun c' hne => ?_) fun _ => rfl
      · rw [getElem?_complete, if_neg (Ne.symm hne)]
      · rw [hc] at hv
        cases hv
      · rw [completions_append, h.trace c, hc, hc']
        simp [completions]
      · simp [completions, Ne.symm hne]
    · obtain ⟨v, hc⟩ := hcall
      have hc' : (p.shared.close c).calls[c]? = some ⟨some v, true⟩ := by
        rw [getElem?_close, if_pos rfl, hc]
        rfl
      refine h.of_lead hi (.inr (.inl rfl)) (.inr (.inr (.inl rfl))) rfl (length_close _ _)
        (fun c' hne => ?_) (fun v' done hv => ?_) ⟨v, hc'⟩ (fun call hcall hdone => ?_)
        (fun call hcall _ => ⟨v, by cases hc'.symm.trans hcall; rfl⟩) ?_
        (fun _ _ => rfl) fun _ => rfl
      · rw [getElem?_close, if_neg (Ne.symm hne)]
      · rw [hc] at hv
        cases hv
        exact ⟨true, hc'⟩
      · rw [hc'] at hcall
        cases hcall
        cases hdone
      · rw [List.append_nil, h.trace c, hc, hc']
        rfl
    · exact h.of_delete hi hv
    · exact h.of_follower hi (by simp [Leads]) (by simp [Leads]) ⟨true, hv⟩
    · exact h.of_follower hi (by simp [Leads]) (by simp [Leads]) trivial
    · have hc : p.shared.calls[c]? = some ⟨none, false⟩ := hcall
      refine h.of_lead hi (.inl rfl) (.inr (.inr (.inr rfl))) rfl rfl (fun _ _ => rfl)
        (fun v done hv => ⟨done, hv⟩) hc (fun _ _ _ => ⟨key, .inr (.inr rfl)⟩)
        (fun call hcall hdone => ?_) ?_ (fun _ _ => rfl) fun _ => rfl
      · rw [hc] at hcall
        cases hcall
        cases hdone
      · rw [List.append_nil, h.trace c]
  · cases he
    have hnew : ∀ key' c, ¬Leads key' c (.locking key : Task K V) := by simp [Leads]
    refine h.of_idle (fun x hx => ?_) (fun c => ?_) fun x hx _ _ _ => List.mem_append_left _ hx
    · obtain hx | hx := List.mem_append.mp hx
      · exact .inl hx
      · rw [List.mem_singleton.mp hx]
        exact .inr ⟨hnew, trivial⟩
    · refine (h.once c).append fun x hx => ?_
      rw [List.mem_singleton.mp hx]
      exact fun ⟨key', hP⟩ => hnew key' c hP

/-! ### The result of a call -/

/-- A removed call stays removed. -/
theorem removed_step {p q : FlightPool K V} {a : Action (Outcome V) K}
    (hstep : system.step p a = some q) :
    p.shared.calls.length ≤ q.shared.calls.length ∧
      ∀ c, Removed p.shared c → Removed q.shared c := by
  obtain ⟨i, o, t, r, rfl, hi, hr, rfl⟩ | ⟨key, r, rfl, he, rfl⟩ := System.step_cases hstep
  · obtain ⟨key, rfl, rfl⟩ | ⟨key, c, v, rfl, rfl⟩ | ⟨key, c, rfl, rfl⟩ | ⟨key, c, v, rfl, hv, rfl⟩ |
      ⟨c, v, rfl, hv, rfl⟩ | ⟨c, rfl, rfl⟩ | ⟨key, c, rfl, rfl⟩ := resume_cases hr
    · unfold Group.enter
      split
      · exact ⟨Nat.le_refl _, fun _ h => h⟩
      · refine ⟨by simp, fun c ⟨hlt, hnone⟩ => ⟨?_, fun key' hc => ?_⟩⟩
        · dsimp only
          rw [List.length_append]
          omega
        · dsimp only at hc
          by_cases hk : key' = key
          · rw [hk, Function.update_self] at hc
            cases hc
            omega
          · rw [Function.update_of_ne hk] at hc
            exact hnone key' hc
    · refine ⟨by simp, fun c' ⟨hlt, hnone⟩ => ⟨?_, hnone⟩⟩
      exact lt_of_lt_of_eq hlt (length_complete _ _ _).symm
    · refine ⟨by simp, fun c' ⟨hlt, hnone⟩ => ⟨?_, hnone⟩⟩
      exact lt_of_lt_of_eq hlt (length_close _ _).symm
    · refine ⟨Nat.le_refl _, fun c' ⟨hlt, hnone⟩ => ⟨hlt, fun key' hc => ?_⟩⟩
      dsimp only [Group.delete] at hc
      by_cases hk : key' = key
      · rw [hk, Function.update_self] at hc
        cases hc
      · rw [Function.update_of_ne hk] at hc
        exact hnone key' hc
    all_goals exact ⟨Nat.le_refl _, fun _ h => h⟩
  · cases he
    exact ⟨Nat.le_refl _, fun _ h => h⟩

/-- The task of a call of `DoCtx` with the key, and the execution it has to do with: one for the
key, that was not removed from the group `base`. -/
def Joins (base : Group K V) (key : K) (trace : List (Event K V)) : Task K V → Prop
  | .locking key' => key' = key
  | .running key' c | .completed key' c | .closed key' c | .panicked key' c =>
    key' = key ∧ begins c trace = [key] ∧ ¬Removed base c
  | .waiting c | .returned c _ => begins c trace = [key] ∧ ¬Removed base c
  | .cancelled => True

/-- What has begun has begun once for all. -/
theorem begins_step {p q : FlightPool K V} {a : Action (Outcome V) K} (h : Inv p)
    (hstep : system.step p a = some q) {c : ℕ} {key : K} (hc : begins c p.trace = [key]) :
    begins c q.trace = [key] := by
  have hlt : c < p.shared.calls.length := by
    by_contra hge
    rw [h.unbegun c (by omega)] at hc
    cases hc
  obtain ⟨i, o, t, r, rfl, hi, hr, rfl⟩ | ⟨key, r, rfl, he, rfl⟩ := System.step_cases hstep
  · have hseen : begins c r.seen = [] := by
      obtain ⟨key, rfl, rfl⟩ | ⟨key, c, v, rfl, rfl⟩ | ⟨key, c, rfl, rfl⟩ |
        ⟨key, c, v, rfl, hv, rfl⟩ | ⟨c, v, rfl, hv, rfl⟩ | ⟨c, rfl, rfl⟩ | ⟨key, c, rfl, rfl⟩ :=
          resume_cases hr
      · unfold Group.enter
        split
        · rfl
        · simp [begins, show p.shared.calls.length ≠ c by omega]
      all_goals rfl
    rw [begins_append, hseen, List.append_nil, hc]
  · cases he
    rw [List.append_nil, hc]

theorem Joins.step {p q : FlightPool K V} {a : Action (Outcome V) K} (h : Inv p)
    (hstep : system.step p a = some q) {base : Group K V} {key : K} {t : Task K V}
    (ht : Joins base key p.trace t) : Joins base key q.trace t := by
  cases t with
  | locking key' => exact ht
  | running key' c | completed key' c | closed key' c | panicked key' c =>
    exact ⟨ht.1, begins_step h hstep ht.2.1, ht.2.2⟩
  | waiting c | returned c v => exact ⟨begins_step h hstep ht.1, ht.2⟩
  | cancelled => trivial

/-- The task `n` has to do with an execution that was not removed when it began. -/
structure Tracks (base : Group K V) (n : ℕ) (key : K) (p : FlightPool K V) : Prop where
  inv : Inv p
  length : base.calls.length ≤ p.shared.calls.length
  removed : ∀ c, Removed base c → Removed p.shared c
  task : ∃ t, p.tasks[n]? = some t ∧ Joins base key p.trace t

/-- The execution that a call gets under the first lock. -/
theorem Tracks.joins_enter {base : Group K V} {n : ℕ} {key : K} {p : FlightPool K V}
    (h : Tracks base n key p) :
    Joins base key (p.trace ++ (p.shared.enter key).seen) (p.shared.enter key).task := by
  unfold Group.enter
  split
  · rename_i c hc
    refine ⟨?_, fun hremoved => (h.removed c hremoved).2 key hc⟩
    rw [List.append_nil]
    exact h.inv.begun key c hc
  · refine ⟨rfl, ?_, fun hremoved => Nat.not_lt.mpr h.length hremoved.1⟩
    rw [begins_append, h.inv.unbegun _ (Nat.le_refl _)]
    simp [begins]

theorem tracks_step {base : Group K V} {n : ℕ} {key : K} (p : FlightPool K V)
    (a : Action (Outcome V) K) (q : FlightPool K V) (h : Tracks base n key p)
    (hstep : system.step p a = some q) : Tracks base n key q := by
  obtain ⟨hlen, hremoved⟩ := removed_step hstep
  refine ⟨inv_step p a q h.inv hstep, Nat.le_trans h.length hlen, fun c hc => hremoved c (h.removed c hc),
    ?_⟩
  obtain ⟨x, hx, hjoins⟩ := h.task
  have hjoins' := hjoins.step h.inv hstep
  obtain ⟨i, o, t, r, rfl, hi, hr, rfl⟩ | ⟨key', r, rfl, he, rfl⟩ := System.step_cases hstep
  · have hlt := (List.getElem?_eq_some_iff.mp hi).1
    by_cases hni : n = i
    · subst hni
      obtain rfl : x = t := Option.some.inj (hx.symm.trans hi)
      refine ⟨r.task, ?_, ?_⟩
      · rw [List.getElem?_append_left (by simpa using hlt), List.getElem?_set_self hlt]
      · obtain ⟨key', rfl, rfl⟩ | ⟨key', c, v, rfl, rfl⟩ | ⟨key', c, rfl, rfl⟩ |
          ⟨key', c, v, rfl, hv, rfl⟩ | ⟨c, v, rfl, hv, rfl⟩ | ⟨c, rfl, rfl⟩ | ⟨key', c, rfl, rfl⟩ :=
            resume_cases hr
        · obtain rfl : key' = key := hjoins
          exact h.joins_enter
        · exact hjoins'
        · exact hjoins'
        · exact hjoins'.2
        · exact hjoins'
        · trivial
        · exact hjoins'
    · refine ⟨x, ?_, hjoins'⟩
      have hlt' := (List.getElem?_eq_some_iff.mp hx).1
      rw [List.getElem?_append_left (by simpa using hlt'), List.getElem?_set_ne (Ne.symm hni)]
      exact hx
  · refine ⟨x, ?_, hjoins'⟩
    rw [List.getElem?_append_left (List.getElem?_eq_some_iff.mp hx).1]
    exact hx

/-- A call runs `fn`. -/
def leaderRun : List (Action (Outcome ℕ) String) := [.event "k", .resume 0 .turn]

/-- A second call joins it, `fn` returns 7, the first call closes `done`, the second one returns. -/
def joinRun : List (Action (Outcome ℕ) String) :=
  [.resume 1 .turn, .resume 0 (.fnReturned 7), .resume 0 .turn, .resume 1 .turn]

/-- The execution completes and its call is closed, but its entry is still there. -/
def closedRun : List (Action (Outcome ℕ) String) :=
  leaderRun ++ [.resume 0 (.fnReturned 7), .resume 0 .turn]

end AllInOneBackup.LitePan.Singleflight
