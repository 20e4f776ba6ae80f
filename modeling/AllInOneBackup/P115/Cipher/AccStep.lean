import AllInOneBackup.Data.Bytes
import AllInOneBackup.Data.Chunked

/-! Where the ciphers cut their input: `acc_step` counts from `start` to `stop`, the last step
perhaps shorter. -/

namespace AllInOneBackup.P115.Cipher

open Chunked

/-- `range(start, stop, step)`, for a positive step. -/
def range (start stop step : ℕ) : List ℕ :=
  List.range' start ((stop - start + step - 1) / step) step

/-- The generator from `start` on, with the numbers that are left of the range. -/
def accStepFrom (stop step : ℕ) : ℕ → List ℕ → List (ℕ × ℕ × ℕ)
  | start, [] => if start ≠ stop then [(start, stop, stop - start)] else []
  | start, i :: is => (start, i, step) :: accStepFrom stop step i is

/-- `acc_step(start, stop, step)`; a step of zero raises. -/
def accStep (start stop step : ℕ) : Option (List (ℕ × ℕ × ℕ)) :=
  if step = 0 then none else some (accStepFrom stop step start (range (start + step) stop step))

example : accStep 2 9 3 = some [(2, 5, 3), (5, 8, 3), (8, 9, 1)] := by decide

variable {α : Type}

theorem range_of_le {start stop step : ℕ} (hstep : 0 < step) (h : stop ≤ start) :
    range start stop step = [] := by
  have hcount : (stop - start + step - 1) / step = 0 := Nat.div_eq_of_lt (by omega)
  rw [range, hcount]
  rfl

theorem range_of_lt {start stop step : ℕ} (hstep : 0 < step) (h : start < stop) :
    range start stop step = start :: range (start + step) stop step := by
  have hcount : (stop - start + step - 1) / step = (stop - (start + step) + step - 1) / step + 1 := by
    obtain hle | hlt := Nat.le_total (start + step) stop
    · rw [← Nat.add_div_right _ hstep]
      congr 1
      omega
    · rw [Nat.sub_eq_zero_of_le hlt, Nat.zero_add, Nat.div_eq_of_lt (by omega : step - 1 < step),
        show stop - start + step - 1 = stop - start - 1 + step by omega, Nat.add_div_right _ hstep,
        Nat.div_eq_of_lt (by omega)]
  rw [range, range, hcount, List.range'_succ]

/-- The slices that `acc_step` counts off are the pieces of the rest of the list. -/
theorem map_accStepFrom {step : ℕ} (hstep : 0 < step) (xs : List α) (start : ℕ)
    (h : start ≤ xs.length) :
    (accStepFrom xs.length step start (range (start + step) xs.length step)).map
        (fun t => (xs.extract t.1 t.2.1, t.2.2)) =
      (pieces step (xs.drop start)).map fun piece => (piece, piece.length) := by
  induction hn : xs.length - start using Nat.strongRecOn generalizing start with
  | _ n ih =>
    obtain hend | hstart := h.eq_or_lt
    · rw [range_of_le hstep (by omega), hend, List.drop_length, pieces_nil]
      simp [accStepFrom]
    · have hne : xs.drop start ≠ [] := by simpa using hstart
      rw [pieces_cons hstep hne, List.drop_drop]
      obtain hlt | hle := Nat.lt_or_ge (start + step) xs.length
      · have hpiece : xs.extract start (start + step) = (xs.drop start).take step := by
          rw [List.extract_eq_take_drop, Nat.add_sub_cancel_left]
        rw [range_of_lt hstep hlt, accStepFrom, List.map_cons, List.map_cons,
          ih (xs.length - (start + step)) (by omega) (start + step) hlt.le rfl, hpiece]
        simp
        omega
      · rw [range_of_le hstep hle, List.drop_of_length_le hle, pieces_nil, accStepFrom,
          if_pos hstart.ne]
        simp [List.extract_eq_take_drop]
        omega

/-- A loop over `acc_step` that uses only the slice and its length, where no pass raises. -/
theorem mapM_accStep {β : Type} {step : ℕ} (hstep : 0 < step) (xs : List α) {start : ℕ}
    (h : start ≤ xs.length) {f : List α × ℕ → Option β} {g : List α → β}
    (hf : ∀ piece ∈ pieces step (xs.drop start), f (piece, piece.length) = some (g piece)) :
    ((accStep start xs.length step).bind fun steps =>
      steps.mapM fun (l, r, s) => f (xs.extract l r, s)) =
      some ((pieces step (xs.drop start)).map g) := by
  have hmap : ∀ ps : List (List α), (∀ p ∈ ps, f (p, p.length) = some (g p)) →
      ps.mapM (fun p => f (p, p.length)) = some (ps.map g) := by
    intro ps hps
    induction ps with
    | nil => rfl
    | cons p ps ih =>
      rw [List.mapM_cons, hps p List.mem_cons_self, ih fun q hq => hps q (List.mem_cons_of_mem p hq)]
      rfl
  have hsteps := congrArg (List.mapM f) (map_accStepFrom hstep xs start h)
  rw [List.mapM_map, List.mapM_map] at hsteps
  rw [accStep, if_neg hstep.ne', Option.bind_some, ← hmap _ hf]
  exact hsteps

end AllInOneBackup.P115.Cipher
