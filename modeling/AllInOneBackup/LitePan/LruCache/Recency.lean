import AllInOneBackup.LitePan.LruCache.Accounting

/-! The list of the metadata cache is in the order of last use, so what `ensureCapacity` evicts are
the entries that were not used for the longest time. -/

namespace AllInOneBackup.LitePan.LruCache

variable {V : Type*} {payload : V → ℕ} {run : List (Section V)} {sec : Section V}

/-- How many sections have passed since a key was used. -/
def idle (run : List (Section V)) (key : Bytes) : ℕ := run.reverse.findIdx (Section.uses key)

theorem idle_snoc (key : Bytes) :
    idle (run ++ [sec]) key = if sec.uses key then 0 else idle run key + 1 := by
  rw [idle, List.reverse_append, List.reverse_singleton, List.singleton_append, List.findIdx_cons]
  cases sec.uses key with
  | true => rfl
  | false => rfl

namespace Service

/-- Each element of the list was used after those behind it. -/
def ByRecency (s : Service V) (run : List (Section V)) : Prop :=
  s.ll.Pairwise fun el el' => idle run (s.keyOf el) < idle run (s.keyOf el')

variable {s s' : Service V} {el : ℕ} {key : Bytes}

namespace ByRecency

theorem nil (h : s.ll = []) : s.ByRecency run := by
  rw [ByRecency, h]
  exact List.Pairwise.nil

/-- Some elements are left, and their keys are not used. -/
theorem age (h : s.ByRecency run) (hsub : s'.ll.Sublist s.ll)
    (hkeys : ∀ el ∈ s'.ll, s'.keyOf el = s.keyOf el ∧ sec.uses (s.keyOf el) = false) :
    s'.ByRecency (run ++ [sec]) := by
  apply (List.Pairwise.sublist hsub h).imp_of_mem
  intro el el' hel hel' hlt
  obtain ⟨hkey, hunused⟩ := hkeys el hel
  obtain ⟨hkey', hunused'⟩ := hkeys el' hel'
  rw [hkey, hkey', idle_snoc, idle_snoc, hunused, hunused']
  exact Nat.succ_lt_succ hlt

/-- A used key comes to the front. -/
theorem use {rest : List ℕ} (h : s.ByRecency run) (hll : s'.ll = el :: rest)
    (hused : sec.uses (s'.keyOf el) = true) (hsub : rest.Sublist s.ll)
    (hkeys : ∀ el ∈ rest, s'.keyOf el = s.keyOf el ∧ sec.uses (s.keyOf el) = false) :
    s'.ByRecency (run ++ [sec]) := by
  have hrest : ({ s' with ll := rest } : Service V).ByRecency (run ++ [sec]) := h.age hsub hkeys
  rw [ByRecency, hll, List.pairwise_cons]
  refine ⟨fun el' hel' => ?_, hrest⟩
  obtain ⟨hkey', hunused'⟩ := hkeys el' hel'
  rw [hkey', idle_snoc, idle_snoc, hused, hunused']
  exact Nat.succ_pos _

end ByRecency

theorem foldl_removeElement_ll (els : List ℕ) :
    (els.foldl removeElement s).ll.Sublist s.ll ∧ (els.foldl removeElement s).heap = s.heap := by
  induction els generalizing s with
  | nil => exact ⟨.refl _, rfl⟩
  | cons el els ih =>
    obtain ⟨hsub, hheap⟩ := ih (s := s.removeElement el)
    exact ⟨hsub.trans List.erase_sublist, hheap⟩

theorem removeWhere_ll (p : Bytes → ℕ → Bool) :
    (s.removeWhere p).ll.Sublist s.ll ∧ (s.removeWhere p).heap = s.heap :=
  foldl_removeElement_ll _

theorem ByRecency.removeWhere (h : s.ByRecency run) (hunused : ∀ key, sec.uses key = false)
    (p : Bytes → ℕ → Bool) : (s.removeWhere p).ByRecency (run ++ [sec]) := by
  obtain ⟨hsub, hheap⟩ := removeWhere_ll (s := s) p
  apply h.age hsub
  intro el _
  exact ⟨congrArg (fun heap => (heap el).key) hheap, hunused _⟩

theorem ByRecency.write (h : s.ByRecency run) (hs : s.Rep) {value : V} {size : ℤ}
    {expiresAt : Option ℤ} (huses : ∀ k, sec.uses k = decide (key = k)) :
    (s.write key value size expiresAt).ByRecency (run ++ [sec]) := by
  rw [Service.write]
  split
  next el hitem =>
    obtain ⟨hel, rfl⟩ := hs.ofLookup hitem
    refine h.use rfl ?_ List.erase_sublist ?_
    · rw [huses, decide_eq_true_eq]
      change s.keyOf el = (Function.update s.heap el _ el).key
      rw [Function.update_self]
      rfl
    · intro el' hel'
      have hne : el' ≠ el := (hs.nodup.mem_erase_iff.mp hel').1
      have hkey := hs.keyOf_ne_of_mem_erase hel hel'
      rw [huses, decide_eq_false_iff_not]
      exact ⟨congrArg Entry.key (Function.update_of_ne hne _ s.heap), hkey.symm⟩
  next hnone =>
    refine h.use rfl ?_ (.refl _) ?_
    · rw [huses, decide_eq_true_eq]
      change key = (Function.update s.heap s.next _ s.next).key
      rw [Function.update_self]
    · intro el' hel'
      have hne : el' ≠ s.next := (hs.fresh el' hel').ne
      have hkey : key ≠ s.keyOf el' := by
        rintro rfl
        rw [hs.lookup_keyOf hel'] at hnone
        cases hnone
      rw [huses, decide_eq_false_iff_not]
      exact ⟨congrArg Entry.key (Function.update_of_ne hne _ s.heap), hkey⟩

theorem ByRecency.lookup (h : s.ByRecency run) (hs : s.Rep) (now : ℤ) :
    (s.lookup key now).2.ByRecency (run ++ [.lookup key now]) := by
  rw [Service.lookup]
  split
  next hnone =>
    apply h.age (.refl _)
    intro el hel
    refine ⟨rfl, decide_eq_false ?_⟩
    rintro rfl
    rw [hs.lookup_keyOf hel] at hnone
    cases hnone
  next el hitem =>
    obtain ⟨hel, rfl⟩ := hs.ofLookup hitem
    have hothers : ∀ el' ∈ s.ll.erase el, s.keyOf el' = s.keyOf el' ∧
        (Section.lookup (V := V) (s.keyOf el) now).uses (s.keyOf el') = false :=
      fun el' hel' => ⟨rfl, decide_eq_false (hs.keyOf_ne_of_mem_erase hel hel').symm⟩
    simp only
    split_ifs
    · exact h.age List.erase_sublist hothers
    · exact h.use rfl (decide_eq_true rfl) List.erase_sublist hothers

theorem ByRecency.invalidateKey (h : s.ByRecency run) :
    (s.invalidateKey key).ByRecency (run ++ [.invalidateKey key]) := by
  rw [Service.invalidateKey]
  split
  next => exact h.age (.refl _) fun _ _ => ⟨rfl, rfl⟩
  next => exact h.age List.erase_sublist fun _ _ => ⟨rfl, rfl⟩

theorem ByRecency.edit (h : s.ByRecency run) (hs : s.Rep) :
    (s.edit payload sec).ByRecency (run ++ [sec]) := by
  cases sec with
  | set key value ttl now => exact h.write hs fun _ => rfl
  | restoreEntry key value expiresAt => exact h.write hs fun _ => rfl
  | lookup key now => exact h.lookup hs now
  | invalidateKey key => exact h.invalidateKey
  | invalidatePrefix front => exact h.removeWhere (fun _ => rfl) fun k _ => front.isPrefixOf k
  | clearAll => exact .nil rfl
  | setLimits maxItems memLimit => exact h.age (.refl _) fun _ _ => ⟨rfl, rfl⟩
  | ensureCapacityLocked => exact h.age (.refl _) fun _ _ => ⟨rfl, rfl⟩
  | sweepExpired now => exact h.removeWhere (fun _ => rfl) fun _ el => (s.heap el).expired now

/-- An order by last use is one of each of its beginnings. -/
theorem ByRecency.evicts (h : s.ByRecency run) (hevicts : Evicts s s') : s'.ByRecency run := by
  obtain ⟨evicted, hll⟩ := hevicts.suffix
  have hkey : s'.keyOf = s.keyOf :=
    funext fun el => congrArg (fun heap => (heap el).key) hevicts.heap
  rw [ByRecency, hll] at h
  rw [ByRecency, hkey]
  exact (List.pairwise_append.mp h).1

theorem ByRecency.step (h : s.ByRecency run) (hs : s.Rep) :
    (s.step payload sec).ByRecency (run ++ [sec]) := by
  by_cases hensures : sec.ensures
  · rw [step_of_ensures hensures]
    exact (h.edit hs).evicts (ensureCapacity_spec hs.edit).2.1
  · rw [step_of_not_ensures hensures]
    exact h.edit hs

theorem byRecency_exec (hs : s.Rep) (hnil : s.ll = []) : (s.exec payload run).ByRecency run := by
  induction run using List.reverseRecOn with
  | nil => exact .nil hnil
  | append_singleton run sec ih =>
    rw [exec, List.foldl_append]
    exact ih.step hs.exec

/-- In every run the map and the list have the same entries, with distinct keys, and `curMem` is
the sum of their sizes. Where a section ends with `ensureCapacity`, the limits hold after it, and
what it evicts is the end of the list, which is in the order of last use. -/
theorem exec_accounts (payload : V → ℕ) (heap : ℕ → Entry V) (maxItems memLimit : ℤ)
    (run : List (Section V)) :
    let s := (newService heap maxItems memLimit).exec payload run
    s.items.entries.Perm (s.ll.map fun el => ⟨s.keyOf el, el⟩) ∧ (s.ll.map s.keyOf).Nodup ∧
      s.curMem = (s.ll.map s.sizeOf).sum ∧
      ∀ sec : Section V, sec.ensures →
        (s.step payload sec).Fits ∧ (s.edit payload sec).ByRecency (run ++ [sec]) ∧
          ∃ evicted, (s.edit payload sec).ll = (s.step payload sec).ll ++ evicted := by
  intro s
  have hs : s.Rep := (Rep.new heap maxItems memLimit).exec
  have horder : s.ByRecency run := byRecency_exec (Rep.new heap maxItems memLimit) rfl
  refine ⟨hs.perm, hs.nodup_keys, hs.curMem, fun sec hensures => ?_⟩
  have hedit : (s.edit payload sec).Rep := hs.edit
  obtain ⟨-, hevicts, hfits⟩ := ensureCapacity_spec hedit
  rw [step_of_ensures hensures]
  exact ⟨hfits, horder.edit hs, hevicts.suffix⟩

end Service

end AllInOneBackup.LitePan.LruCache
