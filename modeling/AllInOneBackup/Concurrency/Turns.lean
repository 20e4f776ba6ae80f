import AllInOneBackup.Concurrency.Pool
import Mathlib.Algebra.Order.Ring.Int

/-! How often one task takes its turn. A potential that its turns use up, and that the turns of the
others and the events do not restore, bounds their number in every run. A potential that every step
uses up bounds the length of the runs, and so every run can be continued to one that is stuck. -/

namespace AllInOneBackup.Concurrency

namespace System

variable {σ τ ν ω ε : Type*} (S : System σ τ ν ω ε)

/-- The action is a turn of the task `i` from a point that `sel` selects. -/
def takes (sel : τ → Bool) (i : ℕ) (p : Pool σ τ ν) : Action ω ε → Bool
  | .resume j _ => j = i && p.tasks[i]?.any sel
  | .event _ => false

/-- The turns of the task `i` in a run from points that `sel` selects. -/
def turns (sel : τ → Bool) (i : ℕ) (p : Pool σ τ ν) : List (Action ω ε) → ℕ
  | [] => 0
  | a :: as => (S.step p a).elim 0 fun q => (takes sel i p a).toNat + turns sel i q as

variable {S}

/-- What a step is for the task `i`: its own turn, its creation, or neither. -/
theorem step_lookup {p q : Pool σ τ ν} {a : Action ω ε} (i : ℕ) (h : S.step p a = some q) :
    (∃ o t r, a = .resume i o ∧ p.tasks[i]? = some t ∧ S.resume p.shared t o = some r ∧
      q.shared = r.shared ∧ q.tasks[i]? = some r.task) ∨
    ((∀ sel, takes sel i p a = false) ∧ (q.tasks[i]? = p.tasks[i]? ∨ p.tasks[i]? = none)) := by
  obtain ⟨j, o, t, r, rfl, ht, hr, rfl⟩ | ⟨e, r, rfl, -, rfl⟩ := step_cases h
  · have hj : j < p.tasks.length := (List.getElem?_eq_some_iff.mp ht).1
    by_cases hij : j = i
    · subst hij
      refine .inl ⟨o, t, r, rfl, ht, hr, rfl, ?_⟩
      rw [List.getElem?_append_left (by simpa using hj), List.getElem?_set_self hj]
    · refine .inr ⟨fun sel => by simp [takes, hij], ?_⟩
      by_cases hi : i < p.tasks.length
      · left
        rw [List.getElem?_append_left (by simpa using hi), List.getElem?_set_ne hij]
      · exact .inr (List.getElem?_eq_none (not_lt.mp hi))
  · refine .inr ⟨fun sel => rfl, ?_⟩
    by_cases hi : i < p.tasks.length
    · exact .inl (List.getElem?_append_left hi)
    · exact .inr (List.getElem?_eq_none (not_lt.mp hi))

/-- The turns of a task in a run are at most what they use up of a potential. -/
theorem turns_add_le {I : Pool σ τ ν → Prop} {sel : τ → Bool} {i : ℕ}
    {φ : σ → Option τ → ℤ} (hI : ∀ p a q, I p → S.step p a = some q → I q)
    (hφ : ∀ p a q, I p → S.step p a = some q →
      (takes sel i p a).toNat + φ q.shared q.tasks[i]? ≤ φ p.shared p.tasks[i]?)
    {p q : Pool σ τ ν} {as : List (Action ω ε)} (hp : I p) (hr : S.run p as = some q) :
    S.turns sel i p as + φ q.shared q.tasks[i]? ≤ φ p.shared p.tasks[i]? := by
  induction as generalizing p with
  | nil =>
    obtain rfl := Option.some.inj hr
    simp [turns]
  | cons a as ih =>
    obtain ⟨p', hs, hr⟩ := (run_cons S).mp hr
    have hstep := hφ p a p' hp hs
    have hrest := ih (hI p a p' hp hs) hr
    simp only [turns, hs, Option.elim_some, Nat.cast_add]
    omega

/-- A run is at most as long as what it uses up of a potential. -/
theorem length_add_le {I : Pool σ τ ν → Prop} {φ : Pool σ τ ν → ℕ}
    (hI : ∀ p a q, I p → S.step p a = some q → I q)
    (hφ : ∀ p a q, I p → S.step p a = some q → φ q < φ p) {p q : Pool σ τ ν}
    {as : List (Action ω ε)} (hp : I p) (hr : S.run p as = some q) : as.length + φ q ≤ φ p := by
  induction as generalizing p with
  | nil =>
    obtain rfl := Option.some.inj hr
    simp
  | cons a as ih =>
    obtain ⟨p', hs, hr⟩ := (run_cons S).mp hr
    have hstep := hφ p a p' hp hs
    have hrest := ih (hI p a p' hp hs) hr
    rw [List.length_cons]
    omega

theorem exists_stuck {I : Pool σ τ ν → Prop} {φ : Pool σ τ ν → ℕ}
    (hI : ∀ p a q, I p → S.step p a = some q → I q)
    (hφ : ∀ p a q, I p → S.step p a = some q → φ q < φ p) {p : Pool σ τ ν} (hp : I p) :
    ∃ q, S.Reachable p q ∧ I q ∧ ∀ a, S.step q a = none := by
  induction hn : φ p using Nat.strongRecOn generalizing p with
  | _ n ih =>
    by_cases hstuck : ∀ a, S.step p a = none
    · exact ⟨p, ⟨[], rfl⟩, hp, hstuck⟩
    · obtain ⟨a, ha⟩ := not_forall.mp hstuck
      obtain ⟨p', hs⟩ := Option.ne_none_iff_exists'.mp ha
      obtain ⟨q, ⟨as, hr⟩, hq⟩ := ih (φ p') (hn ▸ hφ p a p' hp hs) (hI p a p' hp hs) rfl
      exact ⟨q, ⟨a :: as, (run_cons S).mpr ⟨p', hs, hr⟩⟩, hq⟩

end System

end AllInOneBackup.Concurrency
