import Mathlib.Data.List.Nodup
import Mathlib.Data.Finset.Card

/-! Tables whose rows have a primary key, as in a relational database: no two rows of a table have
the same key. Insertion replaces the row with the key, or is ignored where there is one; rows are
deleted by a condition and updated in place. -/

namespace AllInOneBackup.Data.Keyed

variable {ρ κ : Type*}

/-- The row takes the place of one with its key, at the end. -/
def replaceIn [DecidableEq κ] (key : ρ → κ) (rows : List ρ) (r : ρ) : List ρ :=
  rows.filter (key · ≠ key r) ++ [r]

@[ext] structure Table (key : ρ → κ) where
  rows : List ρ
  nodup : (rows.map key).Nodup

section Replace

variable [DecidableEq κ] {key : ρ → κ} {rows : List ρ} {r x : ρ}

theorem mem_replaceIn : x ∈ replaceIn key rows r ↔ x ∈ rows ∧ key x ≠ key r ∨ x = r := by
  unfold replaceIn
  rw [List.mem_append, List.mem_filter, List.mem_singleton, decide_eq_true_eq]

theorem mem_keys_replaceIn {k : κ} :
    k ∈ (replaceIn key rows r).map key ↔ k ∈ rows.map key ∨ k = key r := by
  simp only [List.mem_map, mem_replaceIn]
  constructor
  · rintro ⟨x, ⟨hx, -⟩ | rfl, rfl⟩
    · exact .inl ⟨x, hx, rfl⟩
    · exact .inr rfl
  · rintro (⟨x, hx, rfl⟩ | rfl)
    · by_cases hk : key x = key r
      · exact ⟨r, .inr rfl, hk.symm⟩
      · exact ⟨x, .inl ⟨hx, hk⟩, rfl⟩
    · exact ⟨r, .inr rfl, rfl⟩

theorem nodup_replaceIn (h : (rows.map key).Nodup) : ((replaceIn key rows r).map key).Nodup := by
  unfold replaceIn
  rw [List.map_append, List.map_singleton, List.nodup_append]
  refine ⟨h.sublist (List.filter_sublist.map key), List.nodup_singleton _, ?_⟩
  intro k hk k' hk'
  obtain ⟨x, hx, rfl⟩ := List.mem_map.mp hk
  rw [List.mem_singleton.mp hk']
  simpa using (List.mem_filter.mp hx).2

/-- A new key is added at the end. -/
theorem replaceIn_of_not_mem (h : key r ∉ rows.map key) : replaceIn key rows r = rows ++ [r] := by
  unfold replaceIn
  rw [List.filter_eq_self.mpr]
  intro x hx
  have hne : key x ≠ key r := fun heq => h (List.mem_map.mpr ⟨x, hx, heq⟩)
  simpa using hne

/-- A group of rows to which the new one belongs is replaced in by itself. -/
theorem filter_replaceIn {P : ρ → Bool} (h : P r = true) :
    (replaceIn key rows r).filter P = replaceIn key (rows.filter P) r := by
  unfold replaceIn
  rw [List.filter_append, List.filter_filter, List.filter_filter]
  congr 1
  · exact List.filter_congr fun x _ => Bool.and_comm _ _
  · simp [h]

/-- The others are left, where no row of theirs has the key. -/
theorem filter_replaceIn_of_not {P : ρ → Bool} (h : P r = false)
    (hkey : ∀ x, key x = key r → P x = false) :
    (replaceIn key rows r).filter P = rows.filter P := by
  unfold replaceIn
  rw [List.filter_append, List.filter_filter]
  have hnone : [r].filter P = [] := by simp [h]
  rw [hnone, List.append_nil]
  refine List.filter_congr fun x _ => ?_
  by_cases hk : key x = key r
  · simp [hkey x hk]
  · simp [hk]

theorem find?_replaceIn {k : κ} : (replaceIn key rows r).find? (key · = k) =
    if key r = k then some r else rows.find? (key · = k) := by
  unfold replaceIn
  rw [List.find?_append, List.find?_filter]
  by_cases h : key r = k
  · subst h
    rw [if_pos rfl, List.find?_eq_none.mpr fun x _ => by simp]
    simp
  · have hpred : (fun x => decide (decide (key x ≠ key r) = true ∧ decide (key x = k) = true)) =
        fun x => decide (key x = k) := by
      funext x
      by_cases hx : key x = k
      · have hne : key x ≠ key r := fun heq => h (heq.symm.trans hx)
        simp [hx, hx ▸ hne]
      · simp [hx]
    rw [if_neg h, hpred, List.find?_cons_of_neg (by simpa using h), List.find?_nil, Option.or_none]

variable {new : List ρ}

theorem nodup_foldl_replaceIn (h : (rows.map key).Nodup) :
    ((new.foldl (replaceIn key) rows).map key).Nodup := by
  induction new generalizing rows with
  | nil => exact h
  | cons r new ih => exact ih (nodup_replaceIn h)

theorem mem_keys_foldl_replaceIn {k : κ} :
    k ∈ (new.foldl (replaceIn key) rows).map key ↔ k ∈ rows.map key ∨ k ∈ new.map key := by
  induction new generalizing rows with
  | nil => simp
  | cons r new ih =>
    rw [List.foldl_cons, ih, mem_keys_replaceIn, List.map_cons, List.mem_cons, or_assoc]

/-- Rows with new keys are added in their order. -/
theorem foldl_replaceIn_of_nodup (h : ((rows ++ new).map key).Nodup) :
    new.foldl (replaceIn key) rows = rows ++ new := by
  induction new generalizing rows with
  | nil => rw [List.append_nil]; rfl
  | cons r new ih =>
    have hsplit : rows ++ r :: new = (rows ++ [r]) ++ new := by simp
    have hr : key r ∉ rows.map key := by
      rw [List.map_append, List.map_cons] at h
      intro hmem
      exact List.disjoint_of_nodup_append h hmem List.mem_cons_self
    rw [List.foldl_cons, replaceIn_of_not_mem hr, hsplit]
    exact ih (hsplit ▸ h)

/-- From nothing, rows are lost exactly where a key is repeated. -/
theorem length_foldl_replaceIn_iff :
    (new.foldl (replaceIn key) []).length = new.length ↔ (new.map key).Nodup := by
  constructor
  · intro hlength
    have hkeys : ((new.foldl (replaceIn key) []).map key).toFinset = (new.map key).toFinset := by
      ext k
      rw [List.mem_toFinset, List.mem_toFinset, mem_keys_foldl_replaceIn]
      simp
    have hcard := congrArg Finset.card hkeys
    have hnil : (([] : List ρ).map key).Nodup := List.nodup_nil
    rw [List.toFinset_card_of_nodup (nodup_foldl_replaceIn hnil), List.length_map,
      hlength, ← List.length_map (f := key)] at hcard
    rw [← Multiset.coe_nodup, ← Multiset.toFinset_card_eq_card_iff_nodup]
    exact hcard.symm
  · intro hnodup
    rw [foldl_replaceIn_of_nodup (by simpa using hnodup), List.nil_append]

end Replace

namespace Table

variable {key : ρ → κ} (t : Table key)

instance : Membership ρ (Table key) := ⟨fun t r => r ∈ t.rows⟩

instance : EmptyCollection (Table key) := ⟨⟨[], List.nodup_nil⟩⟩

/-- `SELECT 1 … WHERE key = k`. -/
def Has (k : κ) : Prop := k ∈ t.rows.map key

def delete (P : ρ → Bool) : Table key :=
  ⟨t.rows.filter (!P ·), t.nodup.sublist (List.filter_sublist.map key)⟩

/-- An update that leaves the keys. -/
def update (f : ρ → ρ) (h : ∀ r, key (f r) = key r) : Table key where
  rows := t.rows.map f
  nodup := by
    have hkeys : (t.rows.map f).map key = t.rows.map key := by
      rw [List.map_map]
      exact List.map_congr_left fun r _ => h r
    rw [hkeys]
    exact t.nodup

variable {t} {r x : ρ} {k : κ}

theorem eq_of_key_eq (hr : r ∈ t) (hx : x ∈ t) (h : key r = key x) : r = x :=
  List.inj_on_of_nodup_map t.nodup hr hx h

theorem has_iff : t.Has k ↔ ∃ r ∈ t, key r = k := List.mem_map

theorem mem_delete {P : ρ → Bool} : x ∈ t.delete P ↔ x ∈ t ∧ P x = false := by
  change x ∈ t.rows.filter (!P ·) ↔ _
  rw [List.mem_filter]
  simp only [Bool.not_eq_eq_eq_not, Bool.not_true]
  rfl

theorem mem_update {f : ρ → ρ} (h : ∀ r, key (f r) = key r) :
    x ∈ t.update f h ↔ ∃ r ∈ t, f r = x := List.mem_map

theorem has_update {f : ρ → ρ} (h : ∀ r, key (f r) = key r) : (t.update f h).Has k ↔ t.Has k := by
  simp only [has_iff, mem_update h]
  constructor
  · rintro ⟨_, ⟨r, hr, rfl⟩, rfl⟩
    exact ⟨r, hr, (h r).symm⟩
  · rintro ⟨r, hr, rfl⟩
    exact ⟨f r, ⟨r, hr, rfl⟩, h r⟩

variable [DecidableEq κ] (t)

instance (k : κ) : Decidable (t.Has k) := inferInstanceAs (Decidable (_ ∈ _))

def insertOrReplace (r : ρ) : Table key := ⟨replaceIn key t.rows r, nodup_replaceIn t.nodup⟩

def insertOrIgnore (r : ρ) : Table key :=
  if h : t.Has (key r) then t
  else
    { rows := t.rows ++ [r]
      nodup := by
        rw [List.map_append, List.map_singleton, List.nodup_append]
        refine ⟨t.nodup, List.nodup_singleton _, fun k hk k' hk' heq => h ?_⟩
        rwa [Table.Has, ← List.mem_singleton.mp hk', ← heq] }

/-- Rows are inserted or replaced, one after the other. -/
def insertAll (rows : List ρ) : Table key := rows.foldl (fun t r => t.insertOrReplace r) t

/-- Rows are inserted where there is no row with their key, one after the other. -/
def ignoreAll (rows : List ρ) : Table key := rows.foldl (fun t r => t.insertOrIgnore r) t

variable {t}

theorem rows_insertAll {rows : List ρ} :
    (t.insertAll rows).rows = rows.foldl (replaceIn key) t.rows := by
  induction rows generalizing t with
  | nil => rfl
  | cons r rows ih => exact ih

theorem mem_insertOrReplace : x ∈ t.insertOrReplace r ↔ x ∈ t ∧ key x ≠ key r ∨ x = r :=
  mem_replaceIn

theorem mem_insertOrIgnore : x ∈ t.insertOrIgnore r ↔ x ∈ t ∨ x = r ∧ ¬t.Has (key r) := by
  unfold insertOrIgnore
  split_ifs with h
  · simp [h]
  · simp only [h, not_false_eq_true, and_true]
    exact List.mem_append.trans (or_congr Iff.rfl List.mem_singleton)

theorem has_insertOrReplace : (t.insertOrReplace r).Has k ↔ t.Has k ∨ k = key r :=
  mem_keys_replaceIn

theorem has_insertOrIgnore : (t.insertOrIgnore r).Has k ↔ t.Has k ∨ k = key r := by
  simp only [has_iff, mem_insertOrIgnore]
  constructor
  · rintro ⟨x, hx | ⟨rfl, -⟩, rfl⟩
    · exact .inl ⟨x, hx, rfl⟩
    · exact .inr rfl
  · rintro (⟨x, hx, rfl⟩ | rfl)
    · exact ⟨x, .inl hx, rfl⟩
    · by_cases h : t.Has (key r)
      · obtain ⟨x, hx, heq⟩ := has_iff.mp h
        exact ⟨x, .inl hx, heq⟩
      · exact ⟨r, .inr ⟨rfl, by rwa [← has_iff]⟩, rfl⟩

/-- Rows with distinct keys are added but for those whose key is there. -/
theorem rows_ignoreAll {rows : List ρ} (h : (rows.map key).Nodup) :
    (t.ignoreAll rows).rows = t.rows ++ rows.filter fun x => ¬t.Has (key x) := by
  induction rows generalizing t with
  | nil => simp [ignoreAll]
  | cons r rows ih =>
    obtain ⟨hr, h⟩ := List.nodup_cons.mp h
    change ((t.insertOrIgnore r).ignoreAll rows).rows = _
    rw [ih h]
    have hrest : rows.filter (fun x => ¬(t.insertOrIgnore r).Has (key x)) =
        rows.filter fun x => ¬t.Has (key x) := by
      refine List.filter_congr fun x hx => ?_
      have hne : key x ≠ key r := fun heq => hr (heq ▸ List.mem_map.mpr ⟨x, hx, rfl⟩)
      rw [decide_eq_decide, has_insertOrIgnore]
      simp [hne]
    rw [hrest]
    unfold insertOrIgnore
    split_ifs with hhas
    · simp [hhas]
    · simp [hhas]

theorem ignoreAll_empty (t : Table key) : (∅ : Table key).ignoreAll t.rows = t := by
  have hnone : ∀ k, ¬(∅ : Table key).Has k := fun _ => List.not_mem_nil
  apply Table.ext
  rw [rows_ignoreAll t.nodup]
  exact List.filter_eq_self.mpr fun r _ => by simpa using hnone (key r)

theorem mem_ignoreAll {rows : List ρ} (h : (rows.map key).Nodup) :
    x ∈ t.ignoreAll rows ↔ x ∈ t ∨ x ∈ rows ∧ ¬t.Has (key x) := by
  change x ∈ (t.ignoreAll rows).rows ↔ _
  rw [rows_ignoreAll h, List.mem_append, List.mem_filter, decide_eq_true_eq]
  rfl

theorem has_ignoreAll {rows : List ρ} :
    (t.ignoreAll rows).Has k ↔ t.Has k ∨ k ∈ rows.map key := by
  induction rows generalizing t with
  | nil => simp [ignoreAll]
  | cons r rows ih =>
    change ((t.insertOrIgnore r).ignoreAll rows).Has k ↔ _
    rw [ih, has_insertOrIgnore, List.map_cons, List.mem_cons, or_assoc]

theorem has_insertAll {rows : List ρ} :
    (t.insertAll rows).Has k ↔ t.Has k ∨ k ∈ rows.map key := by
  rw [Has, rows_insertAll]
  exact mem_keys_foldl_replaceIn

/-- Rows of another kind are not seen among those of a kind. -/
theorem filter_ignoreAll_of_not {rows : List ρ} {P : ρ → Bool} (h : ∀ r ∈ rows, P r = false) :
    (t.ignoreAll rows).rows.filter P = t.rows.filter P := by
  induction rows generalizing t with
  | nil => rfl
  | cons r rows ih =>
    change ((t.insertOrIgnore r).ignoreAll rows).rows.filter P = _
    rw [ih fun x hx => h x (List.mem_cons_of_mem r hx)]
    unfold insertOrIgnore
    split_ifs
    · rfl
    · rw [List.filter_append, List.filter_cons_of_neg (by simp [h r List.mem_cons_self]),
        List.filter_nil, List.append_nil]

theorem mem_of_mem_ignoreAll {rows : List ρ} (h : x ∈ t.ignoreAll rows) : x ∈ t ∨ x ∈ rows := by
  induction rows generalizing t with
  | nil => exact .inl h
  | cons r rows ih =>
    rcases ih h with hx | hx
    · rcases mem_insertOrIgnore.mp hx with hx | ⟨rfl, -⟩
      · exact .inl hx
      · exact .inr List.mem_cons_self
    · exact .inr (List.mem_cons_of_mem r hx)

/-- A group of rows, to which a key belongs or not, is inserted into by itself. -/
theorem filter_insertAll {rows : List ρ} {P : ρ → Bool} (hkey : ∀ r x, key x = key r → P x = P r) :
    (t.insertAll rows).rows.filter P =
      (rows.filter P).foldl (replaceIn key) (t.rows.filter P) := by
  induction rows generalizing t with
  | nil => rfl
  | cons r rows ih =>
    change ((t.insertOrReplace r).insertAll rows).rows.filter P = _
    rw [ih]
    cases h : P r with
    | true =>
      rw [List.filter_cons_of_pos h, List.foldl_cons, ← filter_replaceIn h]
      rfl
    | false =>
      have hr : (t.insertOrReplace r).rows.filter P = t.rows.filter P :=
        filter_replaceIn_of_not h fun x hx => (hkey r x hx).trans h
      rw [List.filter_cons_of_neg (by simp [h]), hr]

theorem mem_of_mem_insertAll {rows : List ρ} (h : x ∈ t.insertAll rows) : x ∈ t ∨ x ∈ rows := by
  induction rows generalizing t with
  | nil => exact .inl h
  | cons r rows ih =>
    rcases ih h with hx | hx
    · rcases mem_insertOrReplace.mp hx with ⟨hx, -⟩ | rfl
      · exact .inl hx
      · exact .inr List.mem_cons_self
    · exact .inr (List.mem_cons_of_mem r hx)

/-- A row stays just when the last of the inserted rows with its key, if there is one, is the row. -/
theorem mem_insertAll_iff_of_mem {rows : List ρ} (h : x ∈ t) : x ∈ t.insertAll rows ↔
    ∀ r, (rows.filter (key · = key x)).getLast? = some r → r = x := by
  induction rows using List.reverseRecOn with
  | nil => exact ⟨fun _ r hr => absurd hr (by simp), fun _ => h⟩
  | append_singleton rows r ih =>
    have happend : t.insertAll (rows ++ [r]) = (t.insertAll rows).insertOrReplace r := by
      rw [insertAll, List.foldl_append]
      rfl
    rw [happend, mem_insertOrReplace, List.filter_append]
    by_cases hkey : key r = key x
    · simp [hkey, eq_comm]
    · have hne : x ≠ r := fun heq => hkey (heq ▸ rfl)
      have hnil : [r].filter (fun y => decide (key y = key x)) = [] := by simp [hkey]
      rw [hnil, List.append_nil, ih]
      simp [Ne.symm hkey, hne]

end Table

end AllInOneBackup.Data.Keyed
