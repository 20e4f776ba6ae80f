import Mathlib.Tactic.Common

/-! Programs that read a source of characters and values. A program looks at the next character,
which it may take, or reads a value, which may fail. Where one source simulates another, every
program runs alike on both. -/

namespace AllInOneBackup.Data

variable {σ σ' κ ν ρ : Type*}

structure TextSource (σ κ ν : Type*) where
  peek : σ → σ × Option κ
  advance : σ → σ
  read : σ → Option (σ × ν)

namespace TextSource

/-- What a program asks for next. -/
inductive Request (κ ν ρ : Type*)
  | peek (take : Option κ → Bool) (k : Option κ → ρ)
  | read (k : ν → ρ)
  | stop

/-- How a run has ended: `raised` where a value could not be read. -/
inductive Outcome (ρ : Type*)
  | stopped (r : ρ)
  | raised (r : ρ)
  | running (r : ρ)
  deriving DecidableEq

def run (S : TextSource σ κ ν) (next : ρ → Request κ ν ρ) : ℕ → σ → ρ → Outcome ρ
  | 0, _, r => .running r
  | fuel + 1, s, r =>
    match next r with
    | .stop => .stopped r
    | .peek take k =>
      let p := S.peek s
      run S next fuel (if take p.2 then S.advance p.1 else p.1) (k p.2)
    | .read k =>
      match S.read s with
      | none => .raised r
      | some (s, v) => run S next fuel s (k v)

/-- Every value that is read on the way is good. -/
def Reads (S : TextSource σ κ ν) (next : ρ → Request κ ν ρ) (good : ν → Prop) : ℕ → σ → ρ → Prop
  | 0, _, _ => True
  | fuel + 1, s, r =>
    match next r with
    | .stop => True
    | .peek take k =>
      let p := S.peek s
      Reads S next good fuel (if take p.2 then S.advance p.1 else p.1) (k p.2)
    | .read k => ∀ s' v, S.read s = some (s', v) → good v ∧ Reads S next good fuel s' (k v)

theorem reads_of_forall (S : TextSource σ κ ν) (next : ρ → Request κ ν ρ) {good : ν → Prop}
    (h : ∀ v, good v) (fuel : ℕ) (s : σ) (r : ρ) : Reads S next good fuel s r := by
  induction fuel generalizing s r with
  | zero => trivial
  | succ fuel ih =>
    unfold Reads
    cases next r with
    | stop => trivial
    | peek take k => exact ih _ _
    | read k => exact fun s' v _ => ⟨h v, ih s' (k v)⟩

/-- The sources go on alike from related states, as long as the values are good. -/
structure Simulates (S : TextSource σ κ ν) (T : TextSource σ' κ ν) (good : ν → Prop)
    (R : σ → σ' → Prop) : Prop where
  peek : ∀ s t, R s t → (S.peek s).2 = (T.peek t).2 ∧ R (S.peek s).1 (T.peek t).1 ∧
    R (S.advance (S.peek s).1) (T.advance (T.peek t).1)
  read : ∀ s t, R s t → (∀ t' v, T.read t = some (t', v) → good v) →
    match T.read t with
    | none => S.read s = none
    | some (t', v) => ∃ s', S.read s = some (s', v) ∧ R s' t'

theorem Simulates.run_eq {S : TextSource σ κ ν} {T : TextSource σ' κ ν} {good : ν → Prop}
    {R : σ → σ' → Prop} (h : Simulates S T good R) (next : ρ → Request κ ν ρ) (fuel : ℕ)
    {s : σ} {t : σ'} (r : ρ) (hR : R s t) (hgood : Reads T next good fuel t r) :
    S.run next fuel s r = T.run next fuel t r := by
  induction fuel generalizing s t r with
  | zero => rfl
  | succ fuel ih =>
    unfold run
    unfold Reads at hgood
    cases hnext : next r with
    | stop => rfl
    | peek take k =>
      simp only [hnext] at hgood ⊢
      obtain ⟨hchar, hpeek, hadvance⟩ := h.peek s t hR
      rw [hchar]
      refine ih _ ?_ hgood
      split_ifs
      · exact hadvance
      · exact hpeek
    | read k =>
      simp only [hnext] at hgood ⊢
      have hread := h.read s t hR fun t' v hv => (hgood t' v hv).1
      cases hcase : T.read t with
      | none =>
        rw [hcase] at hread
        rw [hread]
      | some x =>
        obtain ⟨t', v⟩ := x
        rw [hcase] at hread
        obtain ⟨s', hs, hR'⟩ := hread
        rw [hs]
        exact ih (k v) hR' (hgood t' v hcase).2

end TextSource

end AllInOneBackup.Data
