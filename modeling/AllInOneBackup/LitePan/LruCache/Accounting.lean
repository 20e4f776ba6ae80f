import AllInOneBackup.LitePan.LruCache.Service
import Mathlib.Algebra.Order.BigOperators.Group.List

/-! The representation of the metadata cache. Its map, its list and its sum of sizes agree after
every section; where a section ends with `ensureCapacity`, it evicts the entries that were not used
for the longest time, until both limits hold. -/

namespace AllInOneBackup.LitePan.LruCache

namespace Service

variable {V : Type*}

def keyOf (s : Service V) (el : ℕ) : Bytes := (s.heap el).key

def sizeOf (s : Service V) (el : ℕ) : ℤ := (s.heap el).size

/-- The map and the sum are those of the list. -/
structure Rep (s : Service V) : Prop where
  nodup : s.ll.Nodup
  fresh : ∀ el ∈ s.ll, el < s.next
  items : ∀ key el, s.items.lookup key = some el ↔ el ∈ s.ll ∧ s.keyOf el = key
  curMem : s.curMem = (s.ll.map s.sizeOf).sum
  sizes : ∀ el ∈ s.ll, 0 ≤ s.sizeOf el

/-- The limits that are set hold. -/
def Fits (s : Service V) : Prop :=
  (0 < s.maxItems → s.items.entries.length ≤ s.maxItems) ∧ (0 < s.memLimit → s.curMem ≤ s.memLimit)

variable {s s' : Service V} {el : ℕ} {key : Bytes} {value : V} {size : ℤ} {expiresAt : Option ℤ}

namespace Rep

theorem distinct (hs : s.Rep) {el el' : ℕ} (hel : el ∈ s.ll) (hel' : el' ∈ s.ll)
    (hkey : s.keyOf el = s.keyOf el') : el = el' := by
  have hitem := (hs.items _ _).mpr ⟨hel, hkey⟩
  have hitem' := (hs.items _ _).mpr ⟨hel', rfl⟩
  exact Option.some.inj (hitem.symm.trans hitem')

theorem nodup_keys (hs : s.Rep) : (s.ll.map s.keyOf).Nodup :=
  hs.nodup.map_on fun _ hel _ hel' => hs.distinct hel hel'

theorem perm (hs : s.Rep) :
    s.items.entries.Perm (s.ll.map fun el => (⟨s.keyOf el, el⟩ : Σ _ : Bytes, ℕ)) := by
  apply (List.perm_ext_iff_of_nodup s.items.nodupKeys.nodup _).mpr
  · rintro ⟨key, el⟩
    rw [← AList.mem_lookup_iff, Option.mem_def, hs.items, List.mem_map]
    constructor
    · rintro ⟨hel, rfl⟩
      exact ⟨el, hel, rfl⟩
    · rintro ⟨el', hel, heq⟩
      cases heq
      exact ⟨hel, rfl⟩
  · apply hs.nodup.map
    intro el el' heq
    exact congrArg Sigma.snd heq

theorem length_items (hs : s.Rep) : s.items.entries.length = s.ll.length := by
  rw [hs.perm.length_eq, List.length_map]

theorem sum_erase (hs : s.Rep) (hel : el ∈ s.ll) :
    s.sizeOf el + ((s.ll.erase el).map s.sizeOf).sum = s.curMem := by
  rw [hs.curMem]
  exact ((List.perm_cons_erase hel).map s.sizeOf).sum_eq.symm

theorem keyOf_ne_of_mem_erase (hs : s.Rep) (hel : el ∈ s.ll) {el' : ℕ}
    (hel' : el' ∈ s.ll.erase el) : s.keyOf el' ≠ s.keyOf el := by
  intro hkey
  have heq := hs.distinct (List.mem_of_mem_erase hel') hel hkey
  exact (hs.nodup.mem_erase_iff.mp hel').1 heq

theorem lookup_keyOf (hs : s.Rep) (hel : el ∈ s.ll) : s.items.lookup (s.keyOf el) = some el :=
  (hs.items _ _).mpr ⟨hel, rfl⟩

theorem new (heap : ℕ → Entry V) (maxItems memLimit : ℤ) :
    (newService heap maxItems memLimit).Rep where
  nodup := List.nodup_nil
  fresh := by simp [newService]
  items := by simp [newService]
  curMem := rfl
  sizes := by simp [newService]

theorem removeElement (hs : s.Rep) (hel : el ∈ s.ll) : (s.removeElement el).Rep where
  nodup := hs.nodup.erase el
  fresh el' hel' := hs.fresh el' (List.mem_of_mem_erase hel')
  items key el' := by
    change (s.items.erase (s.keyOf el)).lookup key = some el' ↔
      el' ∈ s.ll.erase el ∧ s.keyOf el' = key
    by_cases hkey : key = s.keyOf el
    · subst hkey
      rw [AList.lookup_erase]
      constructor
      · intro hnone
        cases hnone
      · rintro ⟨hel', hkey⟩
        exact absurd hkey (hs.keyOf_ne_of_mem_erase hel hel')
    · rw [AList.lookup_erase_ne hkey, hs.items, hs.nodup.mem_erase_iff]
      constructor
      · rintro ⟨hel', rfl⟩
        exact ⟨⟨fun heq => hkey (congrArg s.keyOf heq), hel'⟩, rfl⟩
      · rintro ⟨⟨-, hel'⟩, heq⟩
        exact ⟨hel', heq⟩
  curMem := by
    have hsum := hs.sum_erase hel
    change s.curMem - s.sizeOf el = ((s.ll.erase el).map s.sizeOf).sum
    omega
  sizes el' hel' := hs.sizes el' (List.mem_of_mem_erase hel')

/-- An element is moved to the front, and its entry may get another value and size. -/
theorem toFront (hs : s.Rep) (hel : el ∈ s.ll) (value : V) (hsize : 0 ≤ size)
    (expiresAt : Option ℤ) :
    ({ s with
      curMem := s.curMem + (size - s.sizeOf el)
      heap := Function.update s.heap el ⟨s.keyOf el, value, size, expiresAt⟩
      ll := el :: s.ll.erase el } : Service V).Rep := by
  have hperm : (el :: s.ll.erase el).Perm s.ll := (List.perm_cons_erase hel).symm
  have hkeys : ∀ el', (Function.update s.heap el ⟨s.keyOf el, value, size, expiresAt⟩ el').key =
      s.keyOf el' := by
    intro el'
    by_cases heq : el' = el
    · subst heq
      rw [Function.update_self]
    · rw [Function.update_of_ne heq]
      rfl
  have hold : ∀ el' ∈ s.ll.erase el,
      (Function.update s.heap el ⟨s.keyOf el, value, size, expiresAt⟩ el').size = s.sizeOf el' := by
    intro el' hel'
    rw [Function.update_of_ne (hs.nodup.mem_erase_iff.mp hel').1]
    rfl
  refine ⟨hperm.nodup_iff.mpr hs.nodup, fun el' hel' => hs.fresh el' (hperm.mem_iff.mp hel'), ?_,
    ?_, ?_⟩
  · intro key el'
    change s.items.lookup key = some el' ↔ el' ∈ el :: s.ll.erase el ∧ _ = key
    rw [hs.items, hperm.mem_iff]
    exact and_congr_right fun _ => by rw [← hkeys el']; rfl
  · have hsum := hs.sum_erase hel
    change s.curMem + (size - s.sizeOf el) =
      ((el :: s.ll.erase el).map fun el' => (Function.update s.heap el _ el').size).sum
    rw [List.map_cons, List.sum_cons, List.map_congr_left hold, Function.update_self]
    simp only
    omega
  · intro el' hel'
    change 0 ≤ (Function.update s.heap el _ el').size
    obtain rfl | hmem := List.mem_cons.mp hel'
    · rw [Function.update_self]
      exact hsize
    · rw [hold el' hmem]
      exact hs.sizes el' (List.mem_of_mem_erase hmem)

theorem ofLookup (hs : s.Rep) (hitem : s.items.lookup key = some el) :
    el ∈ s.ll ∧ s.keyOf el = key :=
  (hs.items key el).mp hitem

theorem pushFront (hs : s.Rep) (hnone : s.items.lookup key = none) (hsize : 0 ≤ size) :
    ({ s with
      heap := Function.update s.heap s.next ⟨key, value, size, expiresAt⟩
      next := s.next + 1
      ll := s.next :: s.ll
      items := s.items.insert key s.next
      curMem := s.curMem + size } : Service V).Rep := by
  have hnew : s.next ∉ s.ll := fun hmem => (hs.fresh s.next hmem).false
  have hold : ∀ el ∈ s.ll,
      Function.update s.heap s.next ⟨key, value, size, expiresAt⟩ el = s.heap el := by
    intro el hel
    exact Function.update_of_ne (ne_of_mem_of_not_mem hel hnew) _ _
  refine ⟨List.nodup_cons.mpr ⟨hnew, hs.nodup⟩, ?_, ?_, ?_, ?_⟩
  · intro el hel
    change el < s.next + 1
    obtain rfl | hmem := List.mem_cons.mp hel
    · exact Nat.lt_succ_self _
    · exact Nat.lt_succ_of_lt (hs.fresh el hmem)
  · intro key' el
    change (s.items.insert key s.next).lookup key' = some el ↔
      el ∈ s.next :: s.ll ∧ (Function.update s.heap s.next _ el).key = key'
    rw [List.mem_cons]
    by_cases hel : el = s.next
    · subst hel
      rw [Function.update_self]
      constructor
      · intro hitem
        by_cases hkey : key' = key
        · exact ⟨.inl rfl, hkey.symm⟩
        · rw [AList.lookup_insert_ne hkey] at hitem
          exact absurd (hs.ofLookup hitem).1 hnew
      · rintro ⟨-, rfl⟩
        exact AList.lookup_insert _
    · rw [Function.update_of_ne hel]
      by_cases hkey : key' = key
      · subst hkey
        rw [AList.lookup_insert]
        constructor
        · intro heq
          exact absurd (Option.some.inj heq).symm hel
        · rintro ⟨heq | hmem, hkey⟩
          · exact absurd heq hel
          · have hitem := (hs.items key' el).mpr ⟨hmem, hkey⟩
            rw [hnone] at hitem
            cases hitem
      · rw [AList.lookup_insert_ne hkey, hs.items, or_iff_right hel]
        rfl
  · change s.curMem + size =
      ((s.next :: s.ll).map fun el => (Function.update s.heap s.next _ el).size).sum
    rw [List.map_cons, List.sum_cons, Function.update_self,
      List.map_congr_left fun el hel => congrArg Entry.size (hold el hel), hs.curMem, add_comm]
    rfl
  · intro el hel
    change 0 ≤ (Function.update s.heap s.next _ el).size
    obtain rfl | hmem := List.mem_cons.mp hel
    · rw [Function.update_self]
      exact hsize
    · rw [hold el hmem]
      exact hs.sizes el hmem

theorem write (hs : s.Rep) (hsize : 0 ≤ size) : (s.write key value size expiresAt).Rep := by
  rw [Service.write]
  split
  next el hitem =>
    exact hs.toFront (hs.ofLookup hitem).1 value hsize expiresAt
  next hnone =>
    exact hs.pushFront hnone hsize

theorem moveToFront (hs : s.Rep) (hel : el ∈ s.ll) :
    ({ s with ll := el :: s.ll.erase el } : Service V).Rep := by
  have hmoved := hs.toFront hel (s.heap el).value (hs.sizes el hel) (s.heap el).expiresAt
  have hsame : (⟨s.keyOf el, (s.heap el).value, s.sizeOf el, (s.heap el).expiresAt⟩ : Entry V) =
      s.heap el := rfl
  rw [hsame, Function.update_eq_self, sub_self, add_zero] at hmoved
  exact hmoved

theorem lookup (hs : s.Rep) (now : ℤ) : (s.lookup key now).2.Rep := by
  rw [Service.lookup]
  split
  next => exact hs
  next el hitem =>
    have hel := (hs.ofLookup hitem).1
    simp only
    split_ifs
    · exact hs.removeElement hel
    · exact hs.moveToFront hel

theorem invalidateKey (hs : s.Rep) : (s.invalidateKey key).Rep := by
  rw [Service.invalidateKey]
  split
  next => exact hs
  next el hitem => exact hs.removeElement (hs.ofLookup hitem).1

theorem foldl_removeElement {els : List ℕ} (hnodup : els.Nodup) (hs : s.Rep)
    (hels : ∀ el ∈ els, el ∈ s.ll) : (els.foldl Service.removeElement s).Rep := by
  induction els generalizing s with
  | nil => exact hs
  | cons el els ih =>
    obtain ⟨hel, hnodup⟩ := List.nodup_cons.mp hnodup
    apply ih hnodup (hs.removeElement (hels el List.mem_cons_self))
    intro el' hel'
    exact hs.nodup.mem_erase_iff.mpr ⟨ne_of_mem_of_not_mem hel' hel,
      hels el' (List.mem_cons_of_mem _ hel')⟩

theorem removeWhere (hs : s.Rep) (p : Bytes → ℕ → Bool) : (s.removeWhere p).Rep := by
  have hsub : (((s.items.entries.filter fun item => p item.1 item.2).map Sigma.snd).Sublist
      (s.items.entries.map Sigma.snd)) := List.filter_sublist.map _
  have hperm : (s.items.entries.map Sigma.snd).Perm s.ll := by
    have hmap := hs.perm.map Sigma.snd
    simpa [Function.comp_def] using hmap
  apply foldl_removeElement (hsub.nodup (hperm.nodup_iff.mpr hs.nodup)) hs
  intro el hel
  exact hperm.mem_iff.mp (hsub.subset hel)

theorem clearAll (s : Service V) : s.clearAll.Rep where
  nodup := List.nodup_nil
  fresh := by simp [Service.clearAll]
  items := by simp [Service.clearAll]
  curMem := rfl
  sizes := by simp [Service.clearAll]

theorem setLimits (hs : s.Rep) (maxItems memLimit : ℤ) : (s.setLimits maxItems memLimit).Rep :=
  ⟨hs.nodup, hs.fresh, hs.items, hs.curMem, hs.sizes⟩

end Rep

/-- `s'` is left of `s` by evictions. -/
structure Evicts (s s' : Service V) : Prop where
  heap : s'.heap = s.heap
  maxItems : s'.maxItems = s.maxItems
  memLimit : s'.memLimit = s.memLimit
  suffix : ∃ evicted, s.ll = s'.ll ++ evicted
  curMem : s'.curMem ≤ s.curMem

namespace Evicts

theorem refl (s : Service V) : Evicts s s :=
  ⟨rfl, rfl, rfl, ⟨[], (List.append_nil _).symm⟩, le_rfl⟩

theorem trans {s₁ s₂ s₃ : Service V} (h₁ : Evicts s₁ s₂) (h₂ : Evicts s₂ s₃) : Evicts s₁ s₃ := by
  obtain ⟨evicted₁, hll₁⟩ := h₁.suffix
  obtain ⟨evicted₂, hll₂⟩ := h₂.suffix
  refine ⟨h₂.heap.trans h₁.heap, h₂.maxItems.trans h₁.maxItems, h₂.memLimit.trans h₁.memLimit,
    ⟨evicted₂ ++ evicted₁, ?_⟩, h₂.curMem.trans h₁.curMem⟩
  rw [hll₁, hll₂, List.append_assoc]

end Evicts

theorem evictOldest_eq_none (h : s.evictOldest = none) : s.ll = [] :=
  List.getLast?_eq_none_iff.mp (Option.map_eq_none_iff.mp h)

theorem evictOldest_spec (hs : s.Rep) (h : s.evictOldest = some s') : s'.Rep ∧ Evicts s s' := by
  obtain ⟨el, hlast, rfl⟩ := Option.map_eq_some_iff.mp h
  have hel : el ∈ s.ll := List.mem_of_getLast? hlast
  obtain ⟨front, hll⟩ := List.getLast?_eq_some_iff.mp hlast
  have hnot : el ∉ front := by
    have hnodup := hs.nodup
    rw [hll, List.nodup_append] at hnodup
    exact fun hmem => hnodup.2.2 el hmem el (List.mem_singleton_self el) rfl
  have herase : s.ll.erase el = front := by
    rw [hll, List.erase_append_right _ hnot, List.erase_cons_head, List.append_nil]
  refine ⟨hs.removeElement hel, rfl, rfl, rfl, ⟨[el], ?_⟩, ?_⟩
  · change s.ll = s.ll.erase el ++ [el]
    rw [herase, hll]
  · have hsize := hs.sizes el hel
    change s.curMem - s.sizeOf el ≤ s.curMem
    omega

/-- The loop stops where it need not go on, or at the empty list. -/
theorem evictWhile_spec (again : Service V → Bool) (hs : s.Rep) :
    (s.evictWhile again).Rep ∧ Evicts s (s.evictWhile again) ∧
      (again (s.evictWhile again) = false ∨ (s.evictWhile again).ll = []) := by
  fun_induction evictWhile again s with
  | case1 s hagain hnone => exact ⟨hs, .refl s, .inr (evictOldest_eq_none hnone)⟩
  | case2 s hagain s' hsome ih =>
    obtain ⟨hs', hstep⟩ := evictOldest_spec hs hsome
    obtain ⟨hrep, hrest, hstop⟩ := ih hs'
    exact ⟨hrep, hstep.trans hrest, hstop⟩
  | case3 s hagain => exact ⟨hs, .refl s, .inl (Bool.eq_false_iff.mpr hagain)⟩

theorem evictBatch_spec (n : ℕ) (hs : s.Rep) :
    (evictBatch n s).Rep ∧ Evicts s (evictBatch n s) := by
  induction n generalizing s with
  | zero => exact ⟨hs, .refl s⟩
  | succ n ih =>
    rw [evictBatch]
    split
    next => exact ⟨hs, .refl s⟩
    next s' hsome =>
      obtain ⟨hs', hstep⟩ := evictOldest_spec hs hsome
      obtain ⟨hrep, hrest⟩ := ih hs'
      exact ⟨hrep, hstep.trans hrest⟩

theorem Rep.curMem_of_nil (hs : s.Rep) (hnil : s.ll = []) : s.curMem = 0 := by
  rw [hs.curMem, hnil, List.map_nil, List.sum_nil]

theorem evictTarget_le (h : 0 < s.memLimit) : s.evictTarget ≤ s.memLimit := by
  have hscale : Double.scale 6305039478318694 s.memLimit.toNat ≤ s.memLimit.toNat :=
    Double.scale_le (by norm_num) _
  unfold evictTarget
  omega

theorem evictToBytes_spec {target : ℤ} (hs : s.Rep) (htarget : 0 ≤ target) :
    (s.evictToBytes target).Rep ∧ Evicts s (s.evictToBytes target) ∧
      (s.evictToBytes target).curMem ≤ target := by
  obtain ⟨hrep, hevicts, hstop⟩ := evictWhile_spec (fun s => s.curMem > target) hs
  refine ⟨hrep, hevicts, ?_⟩
  obtain hdone | hnil := hstop
  · exact not_lt.mp (of_decide_eq_false hdone)
  · exact (hrep.curMem_of_nil hnil).trans_le htarget

/-- The first half of `ensureCapacity`. -/
def ensureBytes (s : Service V) : Service V :=
  if s.memLimit > 0 then
    if s.curMem > s.memLimit then s.evictToBytes s.evictTarget
    else if s.curMem > s.highWater then evictBatch s.batchCount s
    else s
  else s

theorem ensureBytes_spec (hs : s.Rep) :
    s.ensureBytes.Rep ∧ Evicts s s.ensureBytes ∧
      (0 < s.memLimit → s.ensureBytes.curMem ≤ s.memLimit) := by
  rw [ensureBytes]
  split_ifs with hlimit hmem hhigh
  · obtain ⟨hrep, hevicts, hle⟩ := evictToBytes_spec hs (Int.natCast_nonneg _)
    exact ⟨hrep, hevicts, fun _ => hle.trans (evictTarget_le hlimit)⟩
  · obtain ⟨hrep, hevicts⟩ := evictBatch_spec s.batchCount hs
    exact ⟨hrep, hevicts, fun _ => hevicts.curMem.trans (not_lt.mp hmem)⟩
  · exact ⟨hs, .refl s, fun _ => not_lt.mp hmem⟩
  · exact ⟨hs, .refl s, fun hpos => absurd hpos hlimit⟩

/-- The second half. -/
def ensureCount (s : Service V) : Service V :=
  if s.maxItems > 0 then s.evictWhile fun s => s.items.entries.length > s.maxItems else s

theorem ensureCount_spec (hs : s.Rep) :
    s.ensureCount.Rep ∧ Evicts s s.ensureCount ∧
      (0 < s.maxItems → s.ensureCount.items.entries.length ≤ s.maxItems) := by
  rw [ensureCount]
  split_ifs with hlimit
  · obtain ⟨hrep, hevicts, hstop⟩ :=
      evictWhile_spec (fun s => s.items.entries.length > s.maxItems) hs
    refine ⟨hrep, hevicts, fun _ => ?_⟩
    rw [← hevicts.maxItems]
    obtain hdone | hnil := hstop
    · exact not_lt.mp (of_decide_eq_false hdone)
    · rw [hrep.length_items, hnil, hevicts.maxItems]
      exact hlimit.le
  · exact ⟨hs, .refl s, fun hpos => absurd hpos hlimit⟩

theorem ensureCapacity_spec (hs : s.Rep) :
    s.ensureCapacity.Rep ∧ Evicts s s.ensureCapacity ∧ s.ensureCapacity.Fits := by
  have heq : s.ensureCapacity = s.ensureBytes.ensureCount := rfl
  obtain ⟨hbytes, hevicts, hle⟩ := ensureBytes_spec hs
  obtain ⟨hrep, hcount, hlen⟩ := ensureCount_spec hbytes
  rw [heq]
  refine ⟨hrep, hevicts.trans hcount, fun hpos => ?_, fun hpos => ?_⟩
  · rw [hcount.maxItems] at hpos ⊢
    exact hlen hpos
  · rw [hcount.memLimit, hevicts.memLimit] at hpos ⊢
    exact hcount.curMem.trans (hle hpos)

theorem entrySize_nonneg (payload : ℕ) (key : Bytes) : 0 ≤ entrySize payload key := by
  unfold entrySize
  omega

variable {payload : V → ℕ} {run : List (Section V)} {sec : Section V}

theorem step_of_ensures (h : sec.ensures) :
    s.step payload sec = (s.edit payload sec).ensureCapacity := by
  cases sec <;> first | rfl | cases h

theorem step_of_not_ensures (h : ¬sec.ensures) : s.step payload sec = s.edit payload sec := by
  cases sec <;> first | rfl | exact absurd rfl h

theorem Rep.edit (hs : s.Rep) : (s.edit payload sec).Rep := by
  cases sec with
  | set key value ttl now => exact hs.write (entrySize_nonneg _ _)
  | restoreEntry key value expiresAt => exact hs.write (entrySize_nonneg _ _)
  | lookup key now => exact hs.lookup now
  | invalidateKey key => exact hs.invalidateKey
  | invalidatePrefix front => exact hs.removeWhere fun k _ => front.isPrefixOf k
  | clearAll => exact .clearAll s
  | setLimits maxItems memLimit => exact hs.setLimits maxItems memLimit
  | ensureCapacityLocked => exact hs
  | sweepExpired now => exact hs.removeWhere fun _ el => (s.heap el).expired now

theorem Rep.step (hs : s.Rep) : (s.step payload sec).Rep := by
  by_cases h : sec.ensures
  · rw [step_of_ensures h]
    exact (ensureCapacity_spec hs.edit).1
  · rw [step_of_not_ensures h]
    exact hs.edit

theorem Rep.exec (hs : s.Rep) : (s.exec payload run).Rep := by
  induction run generalizing s with
  | nil => exact hs
  | cons sec run ih => exact ih hs.step

end Service

end AllInOneBackup.LitePan.LruCache
