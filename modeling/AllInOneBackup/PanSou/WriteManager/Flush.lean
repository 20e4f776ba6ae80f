import AllInOneBackup.PanSou.WriteManager.Stores

/-! What a flush writes. The operations of one key stay in the order of their timestamps just when
their numbers do not go against it. -/

namespace AllInOneBackup.PanSou.WriteManager

open DiskCache (Table)

variable {K D P : Type}

/-- What one call of `batchWriteToDisk` hands to the main cache, in order; the flushes of a
shutdown do not sort. -/
structure Flush (K D P : Type) where
  written : List (CacheOperation K D P)
  sorted : Bool

/-- A result of `sort.Slice`, which is not stable. -/
def Sorted (ops written : List (CacheOperation K D P)) : Prop :=
  written.Perm ops ∧ written.Pairwise fun a b => ¬b.Precedes a

instance [DecidableEq K] [DecidableEq D] [DecidableEq P]
    (ops written : List (CacheOperation K D P)) : Decidable (Sorted ops written) :=
  inferInstanceAs (Decidable (_ ∧ _))

namespace Flush

variable (f : Flush K D P)

/-- No operation is written over a newer one of its key. -/
def KeepsNewer : Prop := f.written.Pairwise fun a b => a.key = b.key → a.timestamp ≤ b.timestamp

/-- An operation of a smaller number is no newer than one of a larger number. -/
def PriorityByAge : Prop := ∀ a ∈ f.written, ∀ b ∈ f.written, a.key = b.key →
  a.priority < b.priority → a.timestamp ≤ b.timestamp

variable {f}

/-- The sort puts a newer operation before an older one of its key only for their numbers. -/
theorem keepsNewer_iff (hs : f.written.Pairwise fun a b => ¬b.Precedes a) :
    f.KeepsNewer ↔ f.PriorityByAge := by
  constructor
  · intro hk
    have hfst : f.written.Pairwise fun a b =>
        a.key = b.key → a.priority < b.priority → a.timestamp ≤ b.timestamp :=
      hk.imp fun hage he _ => hage he
    have hsnd : f.written.Pairwise fun b a =>
        a.key = b.key → a.priority < b.priority → a.timestamp ≤ b.timestamp :=
      hs.imp fun hab _ hlt => absurd (Or.inl hlt) hab
    exact hfst.forall_of_forall_of_flip (fun a _ _ hlt => absurd hlt (lt_irrefl _)) hsnd
  · intro hp
    apply hs.imp_of_mem
    intro a b ha hb hab he
    by_contra hlt
    apply hlt
    rcases lt_trichotomy a.priority b.priority with h | h | h
    · exact hp a ha b hb he h
    · exact absurd (Or.inr ⟨h.symm, not_le.mp hlt⟩) hab
    · exact absurd (Or.inl h) hab

variable [DecidableEq K] {key : K} {op w : CacheOperation K D P}

variable (f) in
def ofKey (key : K) : List (CacheOperation K D P) := f.written.filter (·.key = key)

theorem mem_ofKey : op ∈ f.ofKey key ↔ op ∈ f.written ∧ op.key = key := by
  simp [ofKey]

theorem KeepsNewer.le_last (hk : f.KeepsNewer) (hw : (f.ofKey key).getLast? = some w)
    (ho : op ∈ f.ofKey key) : op.timestamp ≤ w.timestamp := by
  have hpair : (f.ofKey key).Pairwise fun a b => a.timestamp ≤ b.timestamp := by
    apply (hk.sublist List.filter_sublist).imp_of_mem
    intro a b ha hb h
    exact h ((mem_ofKey.mp ha).2.trans (mem_ofKey.mp hb).2.symm)
  obtain ⟨ops, hops⟩ := List.getLast?_eq_some_iff.mp hw
  rw [hops] at hpair ho
  rcases List.mem_append.mp ho with ho | ho
  · exact (List.pairwise_append.mp hpair).2.2 op ho w (List.mem_singleton_self w)
  · rw [List.mem_singleton.mp ho]

end Flush

theorem lookup_writes [DecidableEq K] (ops : List (CacheOperation K D P))
    (disk : Table K (CacheOperation K D P)) (key : K) : (ops.foldl (fun disk op => disk.insert op.key op) disk).lookup key =
      ((ops.filter (·.key = key)).getLast?).or (disk.lookup key) := by
  induction ops using List.reverseRecOn with
  | nil => rfl
  | append_singleton ops op ih =>
    rw [List.foldl_append, List.filter_append, List.getLast?_append]
    by_cases h : op.key = key
    · subst h
      simp
    · have hne : key ≠ op.key := fun he => h he.symm
      simp [AList.lookup_insert_ne hne, h, ih]

end AllInOneBackup.PanSou.WriteManager
