import AllInOneBackup.Concurrency.Pool

/-! Tasks with a mark that says what they have been through. No turn reads it, so the runs of the
system with marks are the runs of the system. -/

namespace AllInOneBackup.Concurrency

variable {σ τ ν ω ε μ : Type*}

/-- New tasks have the mark `new`, and a turn may change the mark of its task. -/
def System.marked (S : System σ τ ν ω ε) (new : μ) (mark : σ → τ → μ → τ → μ) :
    System σ (τ × μ) ν ω ε where
  resume s t o := (S.resume s t.1 o).map fun r =>
    { shared := r.shared
      spawned := r.spawned.map fun t => (t, new)
      seen := r.seen
      task := (r.task, mark s t.1 t.2 r.task) }
  event s e := (S.event s e).map fun r =>
    { shared := r.shared
      spawned := r.spawned.map fun t => (t, new)
      seen := r.seen }

def Pool.unmark (p : Pool σ (τ × μ) ν) : Pool σ τ ν := ⟨p.shared, p.tasks.map Prod.fst, p.trace⟩

section Unmark

variable {S : System σ τ ν ω ε} {new : μ} {mark : σ → τ → μ → τ → μ}

theorem unmark_step (p : Pool σ (τ × μ) ν) (a : Action ω ε) :
    ((S.marked new mark).step p a).map Pool.unmark = S.step p.unmark a := by
  have hfst : ∀ ts : List τ, (ts.map fun t => (t, new)).map Prod.fst = ts := fun ts => by
    rw [List.map_map]
    exact List.map_id ts
  cases a with
  | resume i o =>
    simp only [System.step, Pool.unmark, List.getElem?_map]
    cases ht : p.tasks[i]? with
    | none => rfl
    | some t =>
      simp only [Option.map_some, Option.bind_some, System.marked]
      cases hr : S.resume p.shared t.1 o with
      | none => rfl
      | some r =>
        simp only [Option.map_some, Pool.unmark, List.map_append, List.map_set, hfst]
  | event e =>
    simp only [System.step, Pool.unmark, System.marked]
    cases hr : S.event p.shared e with
    | none => rfl
    | some r => simp only [Option.map_some, Pool.unmark, List.map_append, hfst]

theorem step_unmark {p q : Pool σ (τ × μ) ν} {a : Action ω ε}
    (h : (S.marked new mark).step p a = some q) : S.step p.unmark a = some q.unmark := by
  have hstep : ((S.marked new mark).step p a).map Pool.unmark = S.step p.unmark a :=
    unmark_step p a
  rw [← hstep, h]
  rfl

end Unmark

end AllInOneBackup.Concurrency
