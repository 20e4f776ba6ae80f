import Mathlib.Algebra.BigOperators.Group.List.Basic
import Mathlib.Algebra.GroupWithZero.Nat
import Mathlib.Data.List.AList

/-! Sums over the entries of a table, and what an entry that leaves or comes does to them. -/

namespace AllInOneBackup.Data.TableSum

variable {α β : Type*} [DecidableEq α] (f : α → β → ℕ) {t : AList fun _ : α => β} {a : α} {b : β}

omit [DecidableEq α] in
def sum (t : AList fun _ : α => β) : ℕ := (t.entries.map fun e => f e.1 e.2).sum

omit [DecidableEq α] in
theorem sum_congr {f g : α → β → ℕ} (h : ∀ e ∈ t.entries, f e.1 e.2 = g e.1 e.2) :
    sum f t = sum g t := by
  rw [sum, sum, List.map_congr_left h]

theorem sum_insert (t : AList fun _ : α => β) (a : α) (b : β) :
    sum f (t.insert a b) = f a b + sum f (t.erase a) := by
  rw [sum, AList.entries_insert, List.map_cons, List.sum_cons]
  rfl

theorem erase_of_lookup_eq_none (h : t.lookup a = none) : t.erase a = t := by
  apply AList.ext
  exact List.kerase_of_notMem_keys (AList.lookup_eq_none.mp h)

theorem sum_erase_add (t : AList fun _ : α => β) (a : α) :
    sum f (t.erase a) + ((t.lookup a).map (f a)).getD 0 = sum f t := by
  cases h : t.lookup a with
  | none =>
    rw [erase_of_lookup_eq_none h]
    rfl
  | some b =>
    have hmem : a ∈ t.entries.keys := by
      by_contra hnot
      rw [AList.lookup_eq_none.mpr hnot] at h
      cases h
    obtain ⟨b', front, back, -, hentries, herase⟩ := List.exists_of_kerase hmem
    have hlookup : t.lookup a = some b' := by
      rw [← Option.mem_def, AList.mem_lookup_iff, hentries]
      simp
    obtain rfl := Option.some.inj (h.symm.trans hlookup)
    have herased : (t.erase a).entries = front ++ back := herase
    simp only [sum, herased, hentries, Option.map_some, Option.getD_some, List.map_append,
      List.map_cons, List.sum_append, List.sum_cons]
    omega

omit [DecidableEq α] in
/-- A sum of ones counts. -/
theorem sum_one (p : α → Bool) (t : AList fun _ : α => β) :
    sum (fun k _ => if p k then 1 else 0) t = t.keys.countP p := by
  rw [sum, AList.keys, List.keys, List.countP_map]
  induction t.entries with
  | nil => rfl
  | cons e es ih =>
    rw [List.map_cons, List.sum_cons, ih, List.countP_cons]
    simp only [Function.comp]
    omega

omit [DecidableEq α] in
/-- The keys of what is looked up for some keys are among these. -/
theorem map_fst_filterMap_sublist {γ δ : Type*} (key : γ → α) (look : γ → Option δ) (l : List γ) :
    ((l.filterMap fun c => (look c).map fun d => (key c, d)).map Prod.fst).Sublist (l.map key) := by
  induction l with
  | nil => exact List.Sublist.slnil
  | cons c cs ih =>
    cases hlook : look c with
    | none =>
      rw [List.filterMap_cons_none (by rw [hlook]; rfl)]
      exact ih.cons (key c)
    | some d =>
      rw [List.filterMap_cons_some (b := (key c, d)) (by rw [hlook]; rfl)]
      exact ih.cons_cons (key c)

end AllInOneBackup.Data.TableSum
