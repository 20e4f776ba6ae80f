import Mathlib.Data.List.Induction

/-! Lists that are swept: a step takes elements away and adds none. -/

namespace AllInOneBackup.Data.Sweep

variable {α ε : Type*} {step : List α → ε → List α}

def Shrinks (step : List α → ε → List α) : Prop := ∀ l e, step l e ⊆ l

variable {es pre post : List ε} {e : ε} {l : List α} {x : α}

theorem foldl_subset (h : Shrinks step) (es : List ε) (l : List α) : es.foldl step l ⊆ l := by
  induction es generalizing l with
  | nil => exact List.Subset.refl l
  | cons e es ih => exact List.Subset.trans (ih (step l e)) (h l e)

/-- What a step takes away does not come back. -/
theorem not_mem_foldl (pre : List ε) (e : ε) (post : List ε) (h : Shrinks step)
    (hx : x ∉ step (pre.foldl step l) e) :
    x ∉ (pre ++ e :: post).foldl step l := by
  rw [List.foldl_append, List.foldl_cons]
  exact fun hmem => hx (foldl_subset h post _ hmem)

/-- What is missing was taken away by some step. -/
theorem exists_step (hx : x ∈ l) (hnot : x ∉ es.foldl step l) :
    ∃ pre e post, es = pre ++ e :: post ∧ x ∈ pre.foldl step l ∧
      x ∉ step (pre.foldl step l) e := by
  induction es using List.reverseRecOn with
  | nil => exact absurd hx hnot
  | append_singleton es e ih =>
    by_cases hbefore : x ∈ es.foldl step l
    · rw [List.foldl_append] at hnot
      exact ⟨es, e, [], rfl, hbefore, hnot⟩
    · obtain ⟨pre, e', post, rfl, hmem, hgone⟩ := ih hbefore
      exact ⟨pre, e', post ++ [e], by simp, hmem, hgone⟩

end AllInOneBackup.Data.Sweep
