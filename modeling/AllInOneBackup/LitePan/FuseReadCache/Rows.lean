import AllInOneBackup.LitePan.FuseReadCache.Store
import Mathlib.Algebra.Order.BigOperators.Group.List
import Mathlib.Data.List.Nodup

/-! The index of the read cache as a table: what its rows count, and what a deletion, a put and the
choice of a row to evict make of it. -/

namespace AllInOneBackup.LitePan.FuseReadCache

namespace StoreLayer

/-- The table has one row for a key, and no empty blocks. -/
structure Valid (s : StoreLayer) : Prop where
  nodup : (s.rows.map (·.toBlockKey)).Nodup
  pos : ∀ m ∈ s.rows, 0 < m.byteLen

/-- What the row of a key counts, zero if there is none. -/
def rowLen (s : StoreLayer) (key : BlockKey) : ℤ :=
  ((s.rows.filter (·.toBlockKey = key)).map (·.byteLen)).sum

variable {s t : StoreLayer} {faults : Faults} {key : BlockKey} {m : BlockMeta} {now : ℤ}

theorem Valid.sublist (h : s.Valid) (hsub : t.rows.Sublist s.rows) : t.Valid :=
  ⟨h.nodup.sublist (hsub.map _), fun m hm => h.pos m (hsub.subset hm)⟩

theorem Valid.usedBytes_nonneg (h : s.Valid) : 0 ≤ s.usedBytes := by
  apply List.sum_nonneg
  intro len hlen
  obtain ⟨m, hm, rfl⟩ := List.mem_map.mp hlen
  exact (h.pos m hm).le

theorem Valid.rowLen_nonneg (h : s.Valid) (key : BlockKey) : 0 ≤ s.rowLen key :=
  usedBytes_nonneg (s := { s with rows := s.rows.filter (·.toBlockKey = key) })
    (h.sublist List.filter_sublist)

theorem usedBytes_le_of_sublist (h : s.Valid) (hsub : t.rows.Sublist s.rows) :
    t.usedBytes ≤ s.usedBytes := by
  apply (hsub.map _).sum_le_sum
  intro len hlen
  obtain ⟨m, hm, rfl⟩ := List.mem_map.mp hlen
  exact (h.pos m hm).le

/-- The rows of a key, and the rest. -/
theorem usedBytes_filter (s : StoreLayer) (key : BlockKey) :
    ((s.rows.filter fun m => m.toBlockKey ≠ key).map (·.byteLen)).sum =
      s.usedBytes - s.rowLen key := by
  have hparts := List.sum_map_filter_add_sum_map_filter_not (fun m => m.toBlockKey = key)
    (·.byteLen) s.rows
  unfold rowLen usedBytes
  simp only [ne_eq]
  omega

theorem Valid.eq_of_key (h : s.Valid) {m' : BlockMeta} (hm : m ∈ s.rows) (hm' : m' ∈ s.rows)
    (hkey : m.toBlockKey = m'.toBlockKey) : m = m' :=
  List.inj_on_of_nodup_map h.nodup hm hm' hkey

theorem Valid.filter_key (h : s.Valid) (hm : m ∈ s.rows) :
    s.rows.filter (fun x => x.toBlockKey = m.toBlockKey) = [m] := by
  apply List.perm_singleton.mp
  apply (List.perm_ext_iff_of_nodup (h.nodup.of_map.filter _) (List.nodup_singleton m)).mpr
  intro x
  rw [List.mem_filter, List.mem_singleton, decide_eq_true_eq]
  constructor
  · rintro ⟨hx, hkey⟩
    exact h.eq_of_key hx hm hkey
  · rintro rfl
    exact ⟨hm, rfl⟩

theorem Valid.rowLen_of_mem (h : s.Valid) (hm : m ∈ s.rows) :
    s.rowLen m.toBlockKey = m.byteLen := by
  rw [rowLen, h.filter_key hm, List.map_singleton, List.sum_singleton]

/-! ### Deletions -/

theorem deleteBlock_cases (s : StoreLayer) (faults : Faults) (key : BlockKey) :
    (faults.deleteRow key = true ∧ (s.deleteBlock faults key).1 = some .other ∧
      (s.deleteBlock faults key).2.rows = s.rows) ∨
    (faults.deleteRow key = false ∧ (s.deleteBlock faults key).1 = none ∧
      (s.deleteBlock faults key).2.rows = s.rows.filter fun m => m.toBlockKey ≠ key) := by
  unfold deleteBlock
  cases hrow : faults.deleteRow key with
  | true => exact .inl ⟨rfl, rfl, rfl⟩
  | false => exact .inr ⟨rfl, rfl, rfl⟩

theorem deleteMetas_cons (s : StoreLayer) (faults : Faults) (m : BlockMeta)
    (metas : List BlockMeta) :
    s.deleteMetas faults (m :: metas) =
      if faults.deleteRow m.toBlockKey then s.deleteBlock faults m.toBlockKey
      else (s.deleteBlock faults m.toBlockKey).2.deleteMetas faults metas := by
  rw [deleteMetas]
  obtain ⟨hrow, herr, -⟩ | ⟨hrow, herr, -⟩ := s.deleteBlock_cases faults m.toBlockKey
  · rw [if_pos hrow, ← Prod.mk.eta (p := s.deleteBlock faults m.toBlockKey), herr]
  · rw [if_neg (by simp [hrow]), ← Prod.mk.eta (p := s.deleteBlock faults m.toBlockKey), herr]

theorem deleteMetas_spec (s : StoreLayer) (faults : Faults) (metas : List BlockMeta) :
    (s.deleteMetas faults metas).2.rows.Sublist s.rows ∧
      ((s.deleteMetas faults metas).1.isSome ↔ ∃ m ∈ metas, faults.deleteRow m.toBlockKey) := by
  induction metas generalizing s with
  | nil => exact ⟨.refl _, by simp [deleteMetas]⟩
  | cons m metas ih =>
    rw [deleteMetas_cons]
    obtain ⟨hrow, herr, hrows⟩ | ⟨hrow, herr, hrows⟩ := s.deleteBlock_cases faults m.toBlockKey
    · rw [if_pos hrow, herr, hrows]
      exact ⟨.refl _, by simp [hrow]⟩
    · rw [if_neg (by simp [hrow])]
      obtain ⟨hsub, hiff⟩ := ih (s.deleteBlock faults m.toBlockKey).2
      rw [hrows] at hsub
      refine ⟨hsub.trans List.filter_sublist, ?_⟩
      rw [hiff, List.exists_mem_cons_iff, or_iff_right (by simp [hrow])]

/-- The deletion of the rows fails after at least one of them. -/
def HalfDeletes (faults : Faults) : List BlockMeta → Prop
  | [] => False
  | m :: metas =>
    faults.deleteRow m.toBlockKey = false ∧ ∃ m' ∈ metas, faults.deleteRow m'.toBlockKey

instance (faults : Faults) : DecidablePred (HalfDeletes faults) := fun metas => by
  unfold HalfDeletes
  split <;> infer_instance

/-- Where the deletion fails, the rows count what they did if it did so at the first. -/
theorem usedBytes_deleteMetas_iff (hs : s.Valid) {metas : List BlockMeta}
    (hmetas : ∀ m ∈ metas, m ∈ s.rows) (herr : (s.deleteMetas faults metas).1.isSome) :
    (s.deleteMetas faults metas).2.usedBytes = s.usedBytes ↔ ¬HalfDeletes faults metas := by
  cases metas with
  | nil => cases herr
  | cons m metas =>
    have hm : m ∈ s.rows := hmetas m List.mem_cons_self
    have hfail := (deleteMetas_spec s faults (m :: metas)).2.mp herr
    rw [deleteMetas_cons]
    obtain ⟨hrow, -, hrows⟩ | ⟨hrow, -, hrows⟩ := s.deleteBlock_cases faults m.toBlockKey
    · rw [if_pos hrow, usedBytes, hrows]
      simp [HalfDeletes, hrow, usedBytes]
    · rw [if_neg (by simp [hrow])]
      rw [List.exists_mem_cons_iff, or_iff_right (by simp [hrow])] at hfail
      have hvalid : (s.deleteBlock faults m.toBlockKey).2.Valid :=
        hs.sublist (hrows ▸ List.filter_sublist)
      have hle := usedBytes_le_of_sublist hvalid (deleteMetas_spec _ faults metas).1
      have hone : (s.deleteBlock faults m.toBlockKey).2.usedBytes = s.usedBytes - m.byteLen := by
        rw [usedBytes, hrows, usedBytes_filter, hs.rowLen_of_mem hm]
      have hpos := hs.pos m hm
      constructor
      · intro heq
        omega
      · intro hnot
        exact absurd ⟨hrow, hfail⟩ hnot

theorem deleteWhere_spec (s : StoreLayer) (faults : Faults) (p : BlockMeta → Bool) :
    (s.deleteWhere faults p).2.rows.Sublist s.rows := by
  unfold deleteWhere
  split_ifs
  · exact .refl _
  · exact (s.deleteMetas_spec faults _).1

/-- The deletion of what `p` finds fails half way. -/
def GoesHalf (s : StoreLayer) (faults : Faults) (p : BlockMeta → Bool) : Prop :=
  faults.query = false ∧ HalfDeletes faults (s.rows.filter p)

instance (s : StoreLayer) (faults : Faults) (p : BlockMeta → Bool) :
    Decidable (s.GoesHalf faults p) := inferInstanceAs (Decidable (_ ∧ _))

theorem GoesHalf.isSome {p : BlockMeta → Bool} (h : s.GoesHalf faults p) :
    (s.deleteWhere faults p).1.isSome := by
  obtain ⟨hquery, hhalf⟩ := h
  rw [deleteWhere, hquery, if_neg Bool.false_ne_true, (s.deleteMetas_spec faults _).2]
  cases hmetas : s.rows.filter p with
  | nil =>
    rw [hmetas] at hhalf
    exact hhalf.elim
  | cons m metas =>
    rw [hmetas] at hhalf
    obtain ⟨-, m', hm', hrow⟩ := hhalf
    exact ⟨m', List.mem_cons_of_mem _ hm', hrow⟩

theorem usedBytes_deleteWhere_iff (hs : s.Valid) {p : BlockMeta → Bool}
    (herr : (s.deleteWhere faults p).1.isSome) :
    (s.deleteWhere faults p).2.usedBytes = s.usedBytes ↔ ¬s.GoesHalf faults p := by
  unfold deleteWhere at herr ⊢
  cases hquery : faults.query with
  | true =>
    simp [GoesHalf, hquery]
  | false =>
    rw [hquery, if_neg Bool.false_ne_true] at herr
    rw [if_neg Bool.false_ne_true,
      usedBytes_deleteMetas_iff hs (fun m hm => (List.mem_filter.mp hm).1) herr, GoesHalf,
      and_iff_right hquery]

theorem invalidateFile_rows (s : StoreLayer) (faults : Faults) (accountId : ℤ) (fileId : String) :
    let deleted := s.deleteWhere faults fun m => m.accountId = accountId ∧ m.fileId = fileId
    (s.invalidateFile faults accountId fileId).1 = deleted.1 ∧
      (s.invalidateFile faults accountId fileId).2.rows = deleted.2.rows := by
  unfold invalidateFile
  cases s.deleteWhere faults fun m => m.accountId = accountId ∧ m.fileId = fileId with
  | mk err t => cases err <;> exact ⟨rfl, rfl⟩

theorem invalidateAccount_rows (s : StoreLayer) (faults : Faults) (accountId : ℤ) :
    let deleted := s.deleteWhere faults fun m => m.accountId = accountId
    (s.invalidateAccount faults accountId).1 = deleted.1 ∧
      (s.invalidateAccount faults accountId).2.rows = deleted.2.rows := by
  unfold invalidateAccount
  cases s.deleteWhere faults fun m => m.accountId = accountId with
  | mk err t => cases err <;> exact ⟨rfl, rfl⟩

/-- A load changes when a row was accessed, and no more. -/
theorem loadBlockRange_rows (s : StoreLayer) (faults : Faults) (now : ℤ) (key : BlockKey)
    (blockOff len : ℕ) :
    (s.loadBlockRange faults now key blockOff len).2.rows = s.rows ∨
      (s.loadBlockRange faults now key blockOff len).2.rows = s.rows.map fun m =>
        if m.toBlockKey = key then { m with accessedAt := now } else m := by
  have htouch : (s.touchBlock faults now key).2.rows = s.rows ∨
      (s.touchBlock faults now key).2.rows = s.rows.map fun m =>
        if m.toBlockKey = key then { m with accessedAt := now } else m := by
    unfold touchBlock
    split_ifs
    · exact .inl rfl
    · exact .inl rfl
    · exact .inr rfl
  unfold loadBlockRange
  split
  · exact .inl rfl
  · split_ifs
    · exact .inl rfl
    · exact .inl rfl
    · simp only
      cases htouched : s.touchBlock faults now key with
      | mk err t =>
        rw [htouched] at htouch
        cases err <;> exact htouch

/-- Rows that only differ in when they were accessed. -/
theorem Valid.touched (h : s.Valid)
    (ht : t.rows = s.rows ∨ t.rows = s.rows.map fun m =>
      if m.toBlockKey = key then { m with accessedAt := now } else m) :
    t.Valid ∧ t.usedBytes = s.usedBytes := by
  have hsame : t.rows.map (·.toBlockKey) = s.rows.map (·.toBlockKey) ∧
      t.rows.map (·.byteLen) = s.rows.map (·.byteLen) := by
    obtain hrows | hrows := ht
    · rw [hrows]
      exact ⟨rfl, rfl⟩
    · rw [hrows, List.map_map, List.map_map]
      constructor
      · apply List.map_congr_left
        intro m _
        simp only [Function.comp_apply]
        split_ifs <;> rfl
      · apply List.map_congr_left
        intro m _
        simp only [Function.comp_apply]
        split_ifs <;> rfl
  refine ⟨⟨hsame.1 ▸ h.nodup, fun m hm => ?_⟩, congrArg List.sum hsame.2⟩
  have hlen : m.byteLen ∈ s.rows.map (·.byteLen) := hsame.2 ▸ List.mem_map.mpr ⟨m, hm, rfl⟩
  obtain ⟨m', hm', heq⟩ := List.mem_map.mp hlen
  exact heq ▸ h.pos m' hm'

/-! ### Puts -/

/-- The rows with a block of `len` bytes under `key`. -/
def withRow (s : StoreLayer) (now : ℤ) (key : BlockKey) (len : ℤ) : List BlockMeta :=
  if s.rows.any fun m => m.toBlockKey = key then
    s.rows.map fun m => if m.toBlockKey = key then { m with byteLen := len, accessedAt := now } else m
  else s.rows ++ [⟨key, len, now, now⟩]

/-- A put of nothing, one that fails, and one that writes its file and its row. -/
theorem putBlock_cases (s : StoreLayer) (faults : Faults) (now : ℤ) (key : BlockKey)
    (data : Bytes) :
    (data = [] ∧ s.putBlock faults now key data = ((0, none), s)) ∨
    ((faults.writeFile || faults.insertRow) = true ∧
      (s.putBlock faults now key data).1.2 = some .other ∧
      (s.putBlock faults now key data).2.rows = s.rows) ∨
    ((data ≠ [] ∧ (faults.writeFile || faults.insertRow) = false) ∧
      (s.putBlock faults now key data).1 = (data.length - s.statSize faults key, none) ∧
      (s.putBlock faults now key data).2.rows = s.withRow now key data.length) := by
  unfold putBlock
  by_cases hdata : data = []
  · exact .inl ⟨hdata, if_pos hdata⟩
  · rw [if_neg hdata]
    cases hwrite : faults.writeFile with
    | true => exact .inr (.inl ⟨rfl, rfl, rfl⟩)
    | false =>
      rw [if_neg Bool.false_ne_true]
      cases hinsert : faults.insertRow with
      | true => exact .inr (.inl ⟨rfl, rfl, rfl⟩)
      | false => exact .inr (.inr ⟨⟨hdata, rfl⟩, rfl, rfl⟩)

theorem keys_withRow (s : StoreLayer) (now : ℤ) (key : BlockKey) (len : ℤ) :
    (s.withRow now key len).map (·.toBlockKey) =
      if key ∈ s.rows.map (·.toBlockKey) then s.rows.map (·.toBlockKey)
      else s.rows.map (·.toBlockKey) ++ [key] := by
  have hany : (s.rows.any fun m => m.toBlockKey = key) = true ↔
      key ∈ s.rows.map (·.toBlockKey) := by
    rw [List.any_eq_true, List.mem_map]
    simp only [decide_eq_true_eq]
  unfold withRow
  by_cases hmem : key ∈ s.rows.map (·.toBlockKey)
  · rw [if_pos (hany.mpr hmem), if_pos hmem, List.map_map]
    apply List.map_congr_left
    intro m _
    rw [Function.comp_apply]
    split_ifs <;> rfl
  · rw [if_neg (fun h => hmem (hany.mp h)), if_neg hmem, List.map_append]
    rfl

theorem Valid.withRow (hs : s.Valid) {len : ℤ} (hlen : 0 < len)
    (ht : t.rows = s.withRow now key len) : t.Valid := by
  constructor
  · rw [ht, keys_withRow]
    split_ifs with hmem
    · exact hs.nodup
    · exact hs.nodup.append (List.nodup_singleton key) (by simpa using hmem)
  · intro m hm
    rw [ht, StoreLayer.withRow] at hm
    split_ifs at hm
    · obtain ⟨row, hrow, rfl⟩ := List.mem_map.mp hm
      split_ifs
      · exact hlen
      · exact hs.pos row hrow
    · obtain hm | hm := List.mem_append.mp hm
      · exact hs.pos m hm
      · rw [List.mem_singleton.mp hm]
        exact hlen

theorem usedBytes_withRow (hs : s.Valid) {len : ℤ} (ht : t.rows = s.withRow now key len) :
    t.usedBytes = s.usedBytes - s.rowLen key + len := by
  rw [usedBytes, ht, withRow]
  split_ifs with hany
  · obtain ⟨m, hm, hkey⟩ := List.any_eq_true.mp hany
    obtain rfl := of_decide_eq_true hkey
    let newLen (x : BlockMeta) : ℤ := if x.toBlockKey = m.toBlockKey then len else x.byteLen
    have hmap : (s.rows.map fun x => if x.toBlockKey = m.toBlockKey then
        { x with byteLen := len, accessedAt := now } else x).map (·.byteLen) =
        s.rows.map newLen := by
      rw [List.map_map]
      apply List.map_congr_left
      intro x _
      simp only [Function.comp_apply, newLen]
      split_ifs <;> rfl
    have hrest : (s.rows.filter fun x => x.toBlockKey ≠ m.toBlockKey).map newLen =
        (s.rows.filter fun x => x.toBlockKey ≠ m.toBlockKey).map (·.byteLen) := by
      apply List.map_congr_left
      intro x hx
      have hne : x.toBlockKey ≠ m.toBlockKey := of_decide_eq_true (List.mem_filter.mp hx).2
      exact if_neg hne
    have hparts := List.sum_map_filter_add_sum_map_filter_not
      (fun x => x.toBlockKey = m.toBlockKey) newLen s.rows
    rw [hmap, ← hparts, hs.filter_key hm, List.map_singleton, List.sum_singleton]
    have hsum := s.usedBytes_filter m.toBlockKey
    rw [← hrest] at hsum
    simp only [ne_eq] at hsum
    rw [hsum]
    simp only [newLen, if_true]
    omega
  · have hnone : s.rows.filter (fun m => m.toBlockKey = key) = [] := by
      rw [List.filter_eq_nil_iff]
      exact fun m hm hkey => hany (List.any_eq_true.mpr ⟨m, hm, hkey⟩)
    rw [rowLen, hnone, List.map_append, List.sum_append]
    simp [usedBytes]

/-! ### The choice of a row to evict -/

theorem firstBy_eq_none {f : BlockMeta → ℤ} {rows : List BlockMeta} (h : firstBy f rows = none) :
    rows = [] := by
  cases rows with
  | nil => rfl
  | cons m rows =>
    rw [firstBy] at h
    split at h
    · cases h
    · split_ifs at h

theorem mem_of_firstBy {f : BlockMeta → ℤ} {rows : List BlockMeta} (h : firstBy f rows = some m) :
    m ∈ rows := by
  induction rows with
  | nil => cases h
  | cons x rows ih =>
    rw [firstBy] at h
    split at h
    next => exact Option.some.inj h ▸ List.mem_cons_self
    next best hbest =>
      split_ifs at h
      · exact Option.some.inj h ▸ List.mem_cons_self
      · exact List.mem_cons_of_mem _ (ih (hbest.trans h))

theorem mem_of_pickEvictLargeFile (h : s.pickEvictLargeFile = some m) : m ∈ s.rows := by
  obtain ⟨first, -, hm⟩ := Option.bind_eq_some_iff.mp h
  exact (List.mem_filter.mp (mem_of_firstBy hm)).1

theorem rows_of_pickEvictLargeFile (h : s.pickEvictLargeFile = none) : s.rows = [] := by
  rw [pickEvictLargeFile, Option.bind_eq_none_iff] at h
  cases hfirst : firstBy _ s.rows with
  | none => exact firstBy_eq_none hfirst
  | some first =>
    have hnil := firstBy_eq_none (h first hfirst)
    have hmem := mem_of_firstBy hfirst
    rw [List.filter_eq_nil_iff] at hnil
    exact absurd (decide_eq_true ⟨rfl, rfl⟩) (hnil first hmem)

end StoreLayer

end AllInOneBackup.LitePan.FuseReadCache
