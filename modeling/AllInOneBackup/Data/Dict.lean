import Mathlib.Data.List.Induction
import Mathlib.Data.List.Nodup

/-! Dicts that keep the order of insertion, as lists of pairs with distinct keys. `modify` is the
one way in which they change: the value of a key is updated in place, and a new key starts with a
default at the end. -/

namespace AllInOneBackup.Data.Dict

variable {κ α β : Type*} [DecidableEq κ]

def get? (k : κ) : List (κ × β) → Option β
  | [] => none
  | (k', v) :: d => if k' = k then some v else get? k d

def modify (k : κ) (new : β) (f : β → β) : List (κ × β) → List (κ × β)
  | [] => [(k, f new)]
  | (k', v) :: d => if k' = k then (k', f v) :: d else (k', v) :: modify k new f d

/-- The values of each key, in their order. -/
def collect (pairs : List (κ × α)) : List (κ × List α) :=
  pairs.foldl (fun d p => modify p.1 [] (· ++ [p.2]) d) []

def valuesOf (k : κ) (pairs : List (κ × α)) : List α :=
  pairs.filterMap fun p => if p.1 = k then some p.2 else none

variable {k k' : κ} {v new : β} {f : β → β} {d : List (κ × β)} {pairs : List (κ × α)}

@[simp] theorem get?_nil : get? k ([] : List (κ × β)) = none := rfl

theorem get?_modify_self : get? k (modify k new f d) = some (f ((get? k d).getD new)) := by
  induction d with
  | nil => exact if_pos rfl
  | cons p d ih =>
    obtain ⟨k₀, v₀⟩ := p
    unfold modify
    split_ifs with h
    · subst h
      simp only [get?, if_true, Option.getD_some]
    · simp only [get?, h, if_false]
      exact ih

theorem get?_modify_of_ne (h : k' ≠ k) : get? k' (modify k new f d) = get? k' d := by
  induction d with
  | nil => exact if_neg fun heq => h heq.symm
  | cons p d ih =>
    obtain ⟨k₀, v₀⟩ := p
    unfold modify
    split_ifs with hk
    · subst hk
      have hne : ¬k₀ = k' := fun heq => h heq.symm
      simp only [get?, hne, if_false]
    · simp only [get?, ih]

theorem keys_modify : (modify k new f d).map Prod.fst =
    if k ∈ d.map Prod.fst then d.map Prod.fst else d.map Prod.fst ++ [k] := by
  induction d with
  | nil => rfl
  | cons p d ih =>
    obtain ⟨k₀, v₀⟩ := p
    simp only [modify, List.map_cons, List.mem_cons]
    by_cases hk : k₀ = k
    · subst hk
      simp
    · have hk' : ¬k = k₀ := fun h => hk h.symm
      simp only [hk, hk', false_or, if_false, List.map_cons, ih]
      split_ifs
      · rfl
      · rfl

theorem mem_keys_modify :
    k' ∈ (modify k new f d).map Prod.fst ↔ k' ∈ d.map Prod.fst ∨ k' = k := by
  rw [keys_modify]
  split_ifs with h
  · refine ⟨.inl, fun hk => ?_⟩
    rcases hk with hk | rfl
    · exact hk
    · exact h
  · rw [List.mem_append, List.mem_singleton]

/-- What holds of all values, and of the new one, survives a change that keeps it. -/
theorem forall_mem_modify {P : β → Prop} (hnew : P (f new)) (hf : ∀ v, P v → P (f v))
    (h : ∀ p ∈ d, P p.2) : ∀ p ∈ modify k new f d, P p.2 := by
  induction d with
  | nil => exact List.forall_mem_singleton.mpr hnew
  | cons p d ih =>
    obtain ⟨hp, hd⟩ := List.forall_mem_cons.mp h
    rw [modify]
    split_ifs
    · exact List.forall_mem_cons.mpr ⟨hf _ hp, hd⟩
    · exact List.forall_mem_cons.mpr ⟨hp, ih hd⟩

theorem nodup_modify (h : (d.map Prod.fst).Nodup) : ((modify k new f d).map Prod.fst).Nodup := by
  rw [keys_modify]
  split_ifs with hk
  · exact h
  · rw [List.nodup_append]
    refine ⟨h, List.nodup_singleton k, fun k' hk' k'' hk'' heq => hk ?_⟩
    rwa [← List.mem_singleton.mp hk'', ← heq]

theorem mem_keys_iff : k ∈ d.map Prod.fst ↔ (get? k d).isSome = true := by
  induction d with
  | nil => simp
  | cons p d ih =>
    obtain ⟨k₀, v₀⟩ := p
    rw [List.map_cons, List.mem_cons, ih, get?]
    by_cases hk : k₀ = k
    · simp [hk]
    · have hk' : ¬k = k₀ := fun h => hk h.symm
      simp [hk, hk']

theorem get?_append :
    get? k (d ++ [(k', v)]) = (get? k d).or (if k' = k then some v else none) := by
  induction d with
  | nil => rfl
  | cons p d ih =>
    obtain ⟨k₀, v₀⟩ := p
    simp only [List.cons_append, get?]
    by_cases hk : k₀ = k
    · rw [if_pos hk, if_pos hk, Option.some_or]
    · rw [if_neg hk, if_neg hk]
      exact ih

/-- A new key at the end. -/
theorem get?_append_of_none (h : get? k d = none) :
    get? k' (d ++ [(k, v)]) = if k' = k then some v else get? k' d := by
  rw [get?_append]
  rcases eq_or_ne k' k with rfl | hne
  · rw [if_pos rfl, h]
    simp
  · rw [if_neg hne]
    simp [Ne.symm hne]

theorem mem_iff_get? (h : (d.map Prod.fst).Nodup) : (k, v) ∈ d ↔ get? k d = some v := by
  induction d with
  | nil => simp
  | cons p d ih =>
    obtain ⟨k₀, v₀⟩ := p
    obtain ⟨hk₀, h⟩ := List.nodup_cons.mp h
    rw [List.mem_cons, ih h, get?, Prod.mk.injEq]
    split_ifs with hk
    · subst hk
      have hnone : get? k₀ d = none := by
        rw [← Option.not_isSome_iff_eq_none, ← mem_keys_iff]
        exact hk₀
      rw [hnone]
      simp [eq_comm]
    · have hk' : ¬k = k₀ := fun h => hk h.symm
      simp [hk']

theorem modify_of_not_mem (hk : k ∉ d.map Prod.fst) : modify k new f d = d ++ [(k, f new)] := by
  induction d with
  | nil => rfl
  | cons p d ih =>
    obtain ⟨k₀, v₀⟩ := p
    simp only [List.map_cons, List.mem_cons, not_or] at hk
    rw [modify, if_neg (Ne.symm hk.1), ih hk.2, List.cons_append]

/-- A key is deleted with its one value. -/
theorem perm_filter_ne (hd : (d.map Prod.fst).Nodup) (hk : get? k d = some v) :
    d.Perm ((k, v) :: d.filter (·.1 ≠ k)) := by
  induction d with
  | nil => simp at hk
  | cons p d ih =>
    obtain ⟨k₀, v₀⟩ := p
    rw [List.map_cons, List.nodup_cons] at hd
    rw [get?] at hk
    split_ifs at hk with heq
    · subst heq
      obtain rfl := Option.some.inj hk
      have hall : d.filter (·.1 ≠ k₀) = d := by
        refine List.filter_eq_self.mpr fun p hp => decide_eq_true fun heq => hd.1 ?_
        exact List.mem_map.mpr ⟨p, hp, heq⟩
      rw [List.filter_cons_of_neg (by simp), hall]
    · rw [List.filter_cons_of_pos (by simpa using heq)]
      exact ((ih hd.2 hk).cons _).trans (List.Perm.swap _ _ _)

theorem collect_append (p : κ × α) :
    collect (pairs ++ [p]) = modify p.1 [] (· ++ [p.2]) (collect pairs) := by
  unfold collect
  rw [List.foldl_append, List.foldl_cons, List.foldl_nil]

theorem nodup_collect (pairs : List (κ × α)) : ((collect pairs).map Prod.fst).Nodup := by
  induction pairs using List.reverseRecOn with
  | nil => exact List.nodup_nil
  | append_singleton pairs p ih =>
    rw [collect_append]
    exact nodup_modify ih

theorem valuesOf_append (p : κ × α) :
    valuesOf k (pairs ++ [p]) = valuesOf k pairs ++ if p.1 = k then [p.2] else [] := by
  unfold valuesOf
  rw [List.filterMap_append]
  split_ifs with h
  · simp [h]
  · simp [h]

theorem valuesOf_eq_nil_iff : valuesOf k pairs = [] ↔ k ∉ pairs.map Prod.fst := by
  rw [valuesOf, List.filterMap_eq_nil_iff]
  simp only [List.mem_map, not_exists, not_and]
  refine forall₂_congr fun p _ => ?_
  split_ifs with h
  · simp [h]
  · simp [h]

theorem valuesOf_eq_map_filter :
    valuesOf k pairs = (pairs.filter fun p => p.1 = k).map Prod.snd := by
  rw [valuesOf, ← List.filterMap_eq_map, List.filterMap_filter]
  refine List.filterMap_congr fun p _ => ?_
  by_cases h : p.1 = k
  · simp [h]
  · simp [h]

theorem mem_valuesOf {v : α} : v ∈ valuesOf k pairs ↔ (k, v) ∈ pairs := by
  rw [valuesOf_eq_map_filter, List.mem_map]
  constructor
  · rintro ⟨p, hp, rfl⟩
    obtain ⟨hmem, hkey⟩ := List.mem_filter.mp hp
    rw [← of_decide_eq_true hkey]
    exact hmem
  · intro h
    exact ⟨(k, v), List.mem_filter.mpr ⟨h, decide_eq_true rfl⟩, rfl⟩

/-- What is made of the one pair with a key. -/
theorem flatMap_of_key {γ : Type*} {p : κ × β} (hd : (d.map Prod.fst).Nodup) (hp : p ∈ d)
    (g : κ × β → List γ) : (d.flatMap fun q => if q.1 = p.1 then g q else []) = g p := by
  induction d with
  | nil => cases hp
  | cons q d ih =>
    obtain ⟨hq, hd⟩ := List.nodup_cons.mp hd
    rw [List.flatMap_cons]
    rcases List.mem_cons.mp hp with rfl | hmem
    · have hrest : (d.flatMap fun q => if q.1 = p.1 then g q else []) = [] := by
        refine List.flatMap_eq_nil_iff.mpr fun q hmem => if_neg fun heq => hq ?_
        exact heq ▸ List.mem_map_of_mem hmem
      rw [if_pos rfl, hrest, List.append_nil]
    · have hne : q.1 ≠ p.1 := fun heq => hq (heq ▸ List.mem_map_of_mem hmem)
      rw [if_neg hne, List.nil_append]
      exact ih hd hmem

/-- Each key is collected with all of its values. -/
theorem get?_collect :
    get? k (collect pairs) = if valuesOf k pairs = [] then none else some (valuesOf k pairs) := by
  induction pairs using List.reverseRecOn with
  | nil => rfl
  | append_singleton pairs p ih =>
    rw [collect_append, valuesOf_append]
    by_cases hk : p.1 = k
    · subst hk
      rw [get?_modify_self, ih, if_pos rfl, if_neg (List.append_ne_nil_of_right_ne_nil _ (by simp))]
      by_cases hnil : valuesOf p.1 pairs = []
      · rw [if_pos hnil, hnil]
        rfl
      · rw [if_neg hnil]
        rfl
    · rw [get?_modify_of_ne (fun h => hk h.symm), ih, if_neg hk, List.append_nil]

theorem mem_collect {vs : List α} :
    (k, vs) ∈ collect pairs ↔ k ∈ pairs.map Prod.fst ∧ vs = valuesOf k pairs := by
  rw [mem_iff_get? (nodup_collect pairs), get?_collect]
  by_cases h : valuesOf k pairs = []
  · simp [h, valuesOf_eq_nil_iff.mp h]
  · have hmem : k ∈ pairs.map Prod.fst := not_not.mp (mt valuesOf_eq_nil_iff.mpr h)
    rw [if_neg h, Option.some.injEq]
    exact ⟨fun heq => ⟨hmem, heq.symm⟩, fun heq => heq.2.symm⟩

/-- Values changed key by key: a key keeps its value where no change is for it. -/
theorem get?_foldl_modify_of_not_mem {es : List (κ × α)} {g : κ × α → β → β}
    (hk : k ∉ es.map Prod.fst) :
    get? k (es.foldl (fun d e => modify e.1 new (g e) d) d) = get? k d := by
  induction es generalizing d with
  | nil => rfl
  | cons e es ih =>
    rw [List.map_cons, List.mem_cons, not_or] at hk
    rw [List.foldl_cons, ih hk.2, get?_modify_of_ne hk.1]

/-- Where each key is changed once, the value of a key is what its change makes of it. -/
theorem get?_foldl_modify {es : List (κ × α)} {g : κ × α → β → β} {e : κ × α}
    (hd : (es.map Prod.fst).Nodup) (he : e ∈ es) :
    get? e.1 (es.foldl (fun d e => modify e.1 new (g e) d) d) =
      some (g e ((get? e.1 d).getD new)) := by
  induction es generalizing d with
  | nil => cases he
  | cons first es ih =>
    obtain ⟨hfirst, hd⟩ := List.nodup_cons.mp hd
    rw [List.foldl_cons]
    rcases List.mem_cons.mp he with rfl | hmem
    · rw [get?_foldl_modify_of_not_mem hfirst, get?_modify_self]
    · have hne : e.1 ≠ first.1 := fun heq => hfirst (heq ▸ List.mem_map_of_mem hmem)
      rw [ih hd hmem, get?_modify_of_ne hne]

end AllInOneBackup.Data.Dict
