import Mathlib.Data.List.Perm.Basic
import Mathlib.Tactic.Common

/-! Cooperative tasks over one shared state. A task has the state to itself from one
suspension point to the next; at a suspension point any task may be resumed, and events
from outside may change the state and create tasks. A step of a pool is one such turn
and a run is any sequence of turns, so a statement about every run is a statement about
every interleaving at suspension points. Every turn also says what an observer of the
program sees, and the pool keeps all of it in order. -/

namespace AllInOneBackup.Concurrency

/-- What an event leaves behind: the shared state, the tasks it created and what an
observer saw. -/
structure Effect (σ τ ν : Type*) where
  shared : σ
  spawned : List τ := []
  seen : List ν := []

/-- What a turn of a task leaves behind; `task` is the point it is suspended at. -/
structure Turn (σ τ ν : Type*) extends Effect σ τ ν where
  task : τ

structure Pool (σ τ ν : Type*) where
  shared : σ
  tasks : List τ := []
  trace : List ν := []

/-- The outcome of a resumption is what the awaited call returned or raised. -/
inductive Action (ω ε : Type*)
  | resume (i : ℕ) (outcome : ω)
  | event (e : ε)

/-- `none` where the task cannot be resumed so, or the event cannot happen. -/
structure System (σ τ ν ω ε : Type*) where
  resume : σ → τ → ω → Option (Turn σ τ ν)
  event : σ → ε → Option (Effect σ τ ν)

namespace System

variable {σ τ ν ω ε : Type*} (S : System σ τ ν ω ε)

def step (p : Pool σ τ ν) : Action ω ε → Option (Pool σ τ ν)
  | .resume i o => p.tasks[i]?.bind fun t => (S.resume p.shared t o).map fun r =>
      ⟨r.shared, p.tasks.set i r.task ++ r.spawned, p.trace ++ r.seen⟩
  | .event e => (S.event p.shared e).map fun r =>
      ⟨r.shared, p.tasks ++ r.spawned, p.trace ++ r.seen⟩

variable {S}

/-- All a step can be: a turn of one task, or an event. -/
theorem step_cases {p q : Pool σ τ ν} {a : Action ω ε} (h : S.step p a = some q) :
    (∃ i o t r, a = .resume i o ∧ p.tasks[i]? = some t ∧ S.resume p.shared t o = some r ∧
      q = ⟨r.shared, p.tasks.set i r.task ++ r.spawned, p.trace ++ r.seen⟩) ∨
    (∃ e r, a = .event e ∧ S.event p.shared e = some r ∧
      q = ⟨r.shared, p.tasks ++ r.spawned, p.trace ++ r.seen⟩) := by
  cases a with
  | resume i o =>
    obtain ⟨t, ht, h⟩ := Option.bind_eq_some_iff.mp h
    obtain ⟨r, hr, rfl⟩ := Option.map_eq_some_iff.mp h
    exact .inl ⟨i, o, t, r, rfl, ht, hr, rfl⟩
  | event e =>
    obtain ⟨r, hr, rfl⟩ := Option.map_eq_some_iff.mp h
    exact .inr ⟨e, r, rfl, hr, rfl⟩

/-- A step replaces one task, or none, by others, and leaves the rest; the order of the tasks does
not matter. -/
theorem step_perm {p q : Pool σ τ ν} {a : Action ω ε} (h : S.step p a = some q) :
    (∃ i o t r others, a = .resume i o ∧ p.tasks[i]? = some t ∧
      S.resume p.shared t o = some r ∧ q.shared = r.shared ∧ q.trace = p.trace ++ r.seen ∧
      p.tasks.Perm (t :: others) ∧ q.tasks.Perm (r.task :: r.spawned ++ others)) ∨
    (∃ e r, a = .event e ∧ S.event p.shared e = some r ∧ q.shared = r.shared ∧
      q.trace = p.trace ++ r.seen ∧ q.tasks.Perm (r.spawned ++ p.tasks)) := by
  obtain ⟨i, o, t, r, rfl, ht, hr, rfl⟩ | ⟨e, r, rfl, hr, rfl⟩ := step_cases h
  · obtain ⟨hi, rfl⟩ := List.getElem?_eq_some_iff.mp ht
    refine .inl ⟨i, o, _, r, p.tasks.eraseIdx i, rfl, ht, hr, rfl, rfl,
      (List.getElem_cons_eraseIdx_perm hi).symm, ?_⟩
    refine ((List.set_perm_cons_eraseIdx hi r.task).append_right r.spawned).trans ?_
    exact List.Perm.cons _ List.perm_append_comm
  · exact .inr ⟨e, r, rfl, hr, rfl, rfl, List.perm_append_comm⟩

variable (S)

/-- The pool after a list of actions, if each of them could happen. -/
def run (p : Pool σ τ ν) : List (Action ω ε) → Option (Pool σ τ ν)
  | [] => some p
  | a :: as => (S.step p a).bind fun q => run q as

/-- `ok` holds of every step of the run, in the state before it. -/
def Along (ok : Pool σ τ ν → Action ω ε → Prop) (p : Pool σ τ ν) : List (Action ω ε) → Prop
  | [] => True
  | a :: as => ∀ q, S.step p a = some q → ok p a ∧ Along ok q as

instance instDecidableAlong {ok : Pool σ τ ν → Action ω ε → Prop} [∀ p a, Decidable (ok p a)] :
    ∀ (p : Pool σ τ ν) (as : List (Action ω ε)), Decidable (Along S ok p as)
  | _, [] => .isTrue trivial
  | p, a :: as => match h : S.step p a with
    | none => .isTrue fun q hq => by simp [h] at hq
    | some q =>
      have : Decidable (Along S ok q as) := instDecidableAlong q as
      decidable_of_iff (ok p a ∧ Along S ok q as) <| by simp [Along, h]

/-- `P` holds of every state of the run, the first included. -/
def Throughout (P : Pool σ τ ν → Prop) (p : Pool σ τ ν) : List (Action ω ε) → Prop
  | [] => P p
  | a :: as => P p ∧ ∀ q, S.step p a = some q → Throughout P q as

def Reachable (p q : Pool σ τ ν) : Prop := ∃ as, S.run p as = some q

@[simp] theorem run_nil (p : Pool σ τ ν) : S.run p [] = some p := rfl

theorem run_cons {p r : Pool σ τ ν} {a : Action ω ε} {as : List (Action ω ε)} :
    S.run p (a :: as) = some r ↔ ∃ q, S.step p a = some q ∧ S.run q as = some r :=
  Option.bind_eq_some_iff

variable {S}

theorem Along.and {ok ok' : Pool σ τ ν → Action ω ε → Prop} {p : Pool σ τ ν}
    {as : List (Action ω ε)} (h : S.Along ok p as) (h' : S.Along ok' p as) :
    S.Along (fun p a => ok p a ∧ ok' p a) p as := by
  induction as generalizing p with
  | nil => trivial
  | cons a as ih =>
    exact fun q hq => ⟨⟨(h q hq).1, (h' q hq).1⟩, ih (h q hq).2 (h' q hq).2⟩

/-- A run meets a condition up to each point, and from there. -/
theorem Along.append {ok : Pool σ τ ν → Action ω ε → Prop} {p q : Pool σ τ ν}
    {as bs : List (Action ω ε)} (h : S.Along ok p (as ++ bs)) (hr : S.run p as = some q) :
    S.Along ok p as ∧ S.Along ok q bs := by
  induction as generalizing p with
  | nil => exact ⟨trivial, Option.some.inj hr ▸ h⟩
  | cons a as ih =>
    obtain ⟨r, hs, hr⟩ := (run_cons S).mp hr
    obtain ⟨has, hbs⟩ := ih (h r hs).2 hr
    refine ⟨fun r' hs' => ?_, hbs⟩
    obtain rfl := Option.some.inj (hs.symm.trans hs')
    exact ⟨(h r hs).1, has⟩

theorem Throughout.head {P : Pool σ τ ν → Prop} {p : Pool σ τ ν} {as : List (Action ω ε)}
    (h : S.Throughout P p as) : P p := by
  cases as with
  | nil => exact h
  | cons a as => exact h.1

theorem Throughout.last {P : Pool σ τ ν → Prop} {p q : Pool σ τ ν} {as : List (Action ω ε)}
    (h : S.Throughout P p as) (hr : S.run p as = some q) : P q := by
  induction as generalizing p with
  | nil => exact Option.some.inj hr ▸ h
  | cons a as ih =>
    obtain ⟨r, hs, hr⟩ := (run_cons S).mp hr
    exact ih (h.2 r hs) hr

theorem Throughout.mono {P Q : Pool σ τ ν → Prop} (hPQ : ∀ p, P p → Q p) {p : Pool σ τ ν}
    {as : List (Action ω ε)} (h : S.Throughout P p as) : S.Throughout Q p as := by
  induction as generalizing p with
  | nil => exact hPQ p h
  | cons a as ih => exact ⟨hPQ p h.1, fun q hq => ih (h.2 q hq)⟩

/-- An invariant of the steps that meet `ok` holds in every state of a run that meets it. -/
theorem throughout_of_along {ok : Pool σ τ ν → Action ω ε → Prop} {I : Pool σ τ ν → Prop}
    (hstep : ∀ p a q, I p → ok p a → S.step p a = some q → I q) {p : Pool σ τ ν}
    {as : List (Action ω ε)} (hp : I p) (ha : S.Along ok p as) : S.Throughout I p as := by
  induction as generalizing p with
  | nil => exact hp
  | cons a as ih => exact ⟨hp, fun q hq => ih (hstep p a q hp (ha q hq).1 hq) (ha q hq).2⟩

/-- An invariant of every step holds in every state of every run. -/
theorem throughout_of_step {I : Pool σ τ ν → Prop}
    (hstep : ∀ p a q, I p → S.step p a = some q → I q) {p : Pool σ τ ν} (hp : I p)
    (as : List (Action ω ε)) : S.Throughout I p as := by
  induction as generalizing p with
  | nil => exact hp
  | cons a as ih => exact ⟨hp, fun q hq => ih (hstep p a q hp hq)⟩

/-- What every step from a state of an invariant meets, every step of a run meets. -/
theorem along_of_invariant {I : Pool σ τ ν → Prop} {ok : Pool σ τ ν → Action ω ε → Prop}
    (hstep : ∀ p a q, I p → S.step p a = some q → I q)
    (hok : ∀ p a q, I p → S.step p a = some q → ok p a) {p : Pool σ τ ν} (hp : I p)
    (as : List (Action ω ε)) : S.Along ok p as := by
  induction as generalizing p with
  | nil => trivial
  | cons a as ih => exact fun q hq => ⟨hok p a q hp hq, ih (hstep p a q hp hq)⟩

/-- Steps that meet one condition keep an invariant, and with it they meet another one. -/
theorem Along.imp {ok ok' : Pool σ τ ν → Action ω ε → Prop} {I : Pool σ τ ν → Prop}
    (hstep : ∀ p a q, I p → ok p a → S.step p a = some q → I q)
    (hok : ∀ p a q, I p → ok p a → S.step p a = some q → ok' p a) {p : Pool σ τ ν}
    {as : List (Action ω ε)} (hp : I p) (h : S.Along ok p as) : S.Along ok' p as := by
  induction as generalizing p with
  | nil => trivial
  | cons a as ih =>
    intro q hq
    obtain ⟨ha, has⟩ := h q hq
    exact ⟨hok p a q hp ha hq, ih (hstep p a q hp ha hq) has⟩

theorem Reachable.invariant {I : Pool σ τ ν → Prop}
    (hstep : ∀ p a q, I p → S.step p a = some q → I q) {p q : Pool σ τ ν} (hp : I p)
    (h : S.Reachable p q) : I q :=
  h.elim fun as hr => (throughout_of_step hstep hp as).last hr

/-- Where `ok` says of every step exactly whether `P` survives it, `P` holds throughout a
run if and only if every step of the run meets `ok`. `I` is what the steps keep anyway. -/
theorem throughout_iff_along {ok : Pool σ τ ν → Action ω ε → Prop} {I P : Pool σ τ ν → Prop}
    (hI : ∀ p a q, I p → S.step p a = some q → I q)
    (hok : ∀ p a q, I p → P p → S.step p a = some q → (ok p a ↔ P q)) {p : Pool σ τ ν}
    (hp : I p) (hP : P p) (as : List (Action ω ε)) : S.Throughout P p as ↔ S.Along ok p as := by
  induction as generalizing p with
  | nil => exact ⟨fun _ => trivial, fun _ => hP⟩
  | cons a as ih =>
    constructor
    · intro h q hq
      have hPq : P q := (h.2 q hq).head
      exact ⟨(hok p a q hp hP hq).mpr hPq, (ih (hI p a q hp hq) hPq).mp (h.2 q hq)⟩
    · intro h
      refine ⟨hP, fun q hq => ?_⟩
      have hPq : P q := (hok p a q hp hP hq).mp (h q hq).1
      exact (ih (hI p a q hp hq) hPq).mpr (h q hq).2

end System

section Tasks

variable {τ : Type*} {P : τ → Prop} {ts new : List τ} {i : ℕ} {t t' : τ}

/-- What every task satisfies, every task satisfies after a turn that leaves the resumed
task and the new ones satisfying it. -/
theorem forall_mem_set_append (h : ∀ x ∈ ts, P x) (ht : P t') (hn : ∀ x ∈ new, P x) :
    ∀ x ∈ ts.set i t' ++ new, P x := by
  intro x hx
  rcases List.mem_append.mp hx with hx | hx
  · rcases List.mem_or_eq_of_mem_set hx with hx | rfl
    · exact h x hx
    · exact ht
  · exact hn x hx

/-- A task after a turn is the resumed one, a new one, or another one from before. -/
theorem mem_set_append {x : τ} (h : x ∈ ts.set i t' ++ new) :
    x = t' ∨ x ∈ new ∨ ∃ j, j ≠ i ∧ ts[j]? = some x := by
  rcases List.mem_append.mp h with h | h
  · obtain ⟨j, hj, rfl⟩ := List.getElem_of_mem h
    by_cases hij : i = j
    · subst hij
      exact .inl (List.getElem_set_self hj)
    · rw [List.getElem_set_ne hij] at h ⊢
      exact .inr (.inr ⟨j, Ne.symm hij, List.getElem?_eq_getElem _⟩)
  · exact .inr (.inl h)

/-- A task of some kind is still there after a turn of a task of another kind. -/
theorem exists_mem_set_append (hi : ts[i]? = some t) (ht : P t → P t') (h : ∃ x ∈ ts, P x) :
    ∃ x ∈ ts.set i t' ++ new, P x := by
  obtain ⟨hlt, rfl⟩ := List.getElem?_eq_some_iff.mp hi
  obtain ⟨x, hx, hP⟩ := h
  obtain ⟨j, hj, rfl⟩ := List.getElem_of_mem hx
  by_cases hij : i = j
  · subst hij
    exact ⟨t', List.mem_append_left _ (List.mem_set hlt t'), ht hP⟩
  · refine ⟨ts[j], List.mem_append_left _ ?_, hP⟩
    exact List.mem_iff_getElem.mpr ⟨j, by simpa using hj, List.getElem_set_ne hij _⟩

/-- A turn changes the number of the tasks that satisfy `P` by what it does to the resumed one and
by the new ones. -/
theorem countP_set_append (P : τ → Bool) (t' : τ) (new : List τ) (hi : ts[i]? = some t) :
    (ts.set i t' ++ new).countP P + (P t).toNat =
      ts.countP P + (P t').toNat + new.countP P := by
  obtain ⟨hlt, rfl⟩ := List.getElem?_eq_some_iff.mp hi
  have hle : (if P ts[i] then 1 else 0) ≤ ts.countP P := by
    split_ifs with hP
    · exact List.countP_pos_iff.mpr ⟨_, List.getElem_mem hlt, hP⟩
    · exact Nat.zero_le _
  have htoNat : ∀ b : Bool, b.toNat = if b then 1 else 0 := by decide
  rw [List.countP_append, List.countP_set hlt, htoNat, htoNat]
  omega

/-- At most one task, such as the holder of a lock, satisfies `P`. -/
def Exclusive (P : τ → Prop) (ts : List τ) : Prop :=
  ∀ ⦃i j : ℕ⦄ ⦃a b : τ⦄, ts[i]? = some a → ts[j]? = some b → P a → P b → i = j

/-- After a turn a task that satisfies `P` is the resumed one or one from before. -/
theorem getElem?_set_append {j : ℕ} {a : τ} (hn : ∀ x ∈ new, ¬P x)
    (h : (ts.set i t' ++ new)[j]? = some a) (ha : P a) : j = i ∧ a = t' ∨ ts[j]? = some a := by
  obtain hj | hj := Nat.lt_or_ge j (ts.set i t').length
  · rw [List.getElem?_append_left hj, List.getElem?_set] at h
    split_ifs at h with hij hlt
    · exact .inl ⟨hij.symm, (Option.some.inj h).symm⟩
    · exact .inr h
  · rw [List.getElem?_append_right hj] at h
    exact absurd ha (hn a (List.mem_of_getElem? h))

/-- Exclusion survives a turn that starts no second holder. -/
theorem Exclusive.set_append (h : Exclusive P ts) (hi : ts[i]? = some t)
    (ht : P t' → P t ∨ ∀ x ∈ ts, ¬P x) (hn : ∀ x ∈ new, ¬P x) :
    Exclusive P (ts.set i t' ++ new) := by
  have hother : ∀ {k : ℕ} {c : τ}, P t' → ts[k]? = some c → P c → k = i := by
    intro k c ht' hk hc
    obtain hP | hnone := ht ht'
    · exact h hk hi hc hP
    · exact absurd hc (hnone c (List.mem_of_getElem? hk))
  intro j k a b hj hk ha hb
  obtain ⟨rfl, rfl⟩ | hj' := getElem?_set_append hn hj ha <;>
    obtain ⟨rfl, rfl⟩ | hk' := getElem?_set_append hn hk hb
  · rfl
  · exact (hother ha hk' hb).symm
  · exact hother hb hj' ha
  · exact h hj' hk' ha hb

theorem Exclusive.append (h : Exclusive P ts) (hn : ∀ x ∈ new, ¬P x) :
    Exclusive P (ts ++ new) := by
  have hold : ∀ {j : ℕ} {a : τ}, (ts ++ new)[j]? = some a → P a → ts[j]? = some a := by
    intro j a hj ha
    obtain hlt | hle := Nat.lt_or_ge j ts.length
    · rwa [List.getElem?_append_left hlt] at hj
    · rw [List.getElem?_append_right hle] at hj
      exact absurd ha (hn a (List.mem_of_getElem? hj))
  exact fun j k a b hj hk ha hb => h (hold hj ha) (hold hk hb) ha hb

/-- After a turn of the one task that satisfies `P` no other task does. -/
theorem Exclusive.eq_of_mem (h : Exclusive P ts) (hi : ts[i]? = some t) (ht : P t)
    (hn : ∀ x ∈ new, ¬P x) {x : τ} (hx : x ∈ ts.set i t' ++ new) (hP : P x) : x = t' := by
  obtain ⟨j, hj⟩ := List.mem_iff_getElem?.mp hx
  obtain ⟨-, rfl⟩ | hj' := getElem?_set_append hn hj hP
  · rfl
  · obtain rfl := h hj' hi hP ht
    have hlt := (List.getElem?_eq_some_iff.mp hi).1
    rw [List.getElem?_append_left (by simpa using hlt), List.getElem?_set_self hlt] at hj
    exact (Option.some.inj hj).symm

end Tasks

end AllInOneBackup.Concurrency
