import Mathlib.Data.List.Nodup
import Mathlib.Data.List.Sort
import Mathlib.Tactic.Common

/-! The files and directories below a folder, as a list of nodes; every node lies in a directory.
The order of the list is the order in which a directory is read. -/

namespace AllInOneBackup.Data

structure Node (ν : Type*) where
  dir : List ν
  name : ν
  isDir : Bool
  deriving DecidableEq

namespace Node

variable {ν : Type*}

def path (n : Node ν) : List ν := n.dir ++ [n.name]

theorem path_ne_nil (n : Node ν) : n.path ≠ [] := by simp [path]

theorem prefix_path {n : Node ν} {p : List ν} (h : p <+: n.path) : p = n.path ∨ p <+: n.dir := by
  rw [path, List.prefix_concat_iff] at h
  exact h

end Node

abbrev FileTree (ν : Type*) := List (Node ν)

namespace FileTree

variable {ν : Type*}

/-- The folder itself is a directory. -/
def IsDir (t : FileTree ν) (p : List ν) : Prop := p = [] ∨ ∃ n ∈ t, n.isDir = true ∧ n.path = p

def IsFile (t : FileTree ν) (p : List ν) : Prop := ∃ n ∈ t, n.isDir = false ∧ n.path = p

structure Closed (t : FileTree ν) : Prop where
  paths : (t.map Node.path).Nodup
  dirs : ∀ n ∈ t, t.IsDir n.dir

section Lemmas

variable {t : FileTree ν} {n m : Node ν} {p : List ν}

theorem Closed.eq_of_path (h : t.Closed) (hn : n ∈ t) (hm : m ∈ t) (hpath : n.path = m.path) :
    n = m := List.inj_on_of_nodup_map h.paths hn hm hpath

/-- Whatever lies above a node is a directory. -/
theorem Closed.isDir_of_prefix (h : t.Closed) (hn : n ∈ t) (hp : p <+: n.dir) : t.IsDir p := by
  have key : ∀ (k : ℕ) (n : Node ν), n ∈ t → n.dir.length = k → p <+: n.dir → t.IsDir p := by
    intro k
    induction k using Nat.strong_induction_on with
    | _ k ih =>
      intro n hn hk hp
      rcases h.dirs n hn with hnil | ⟨m, hm, hdir, hpath⟩
      · rw [hnil, List.prefix_nil] at hp
        exact .inl hp
      · rw [← hpath] at hp
        rcases Node.prefix_path hp with rfl | hp
        · exact .inr ⟨m, hm, hdir, rfl⟩
        · refine ih m.dir.length ?_ m hm rfl hp
          rw [← hk, ← hpath, Node.path, List.length_append]
          exact Nat.lt_succ_self _
  exact key _ n hn rfl hp

theorem Closed.isDir_of_prefix_path (h : t.Closed) (hn : n ∈ t) (hp : p <+: n.path)
    (hne : p ≠ n.path) : t.IsDir p :=
  h.isDir_of_prefix hn ((Node.prefix_path hp).resolve_left hne)

theorem Closed.not_isFile (h : t.Closed) (hdir : t.IsDir p) : ¬t.IsFile p := by
  rintro ⟨m, hm, hfile, hpath⟩
  rcases hdir with rfl | ⟨n, hn, hdir, rfl⟩
  · exact m.path_ne_nil hpath
  · rw [h.eq_of_path hm hn hpath, hdir] at hfile
    cases hfile

/-- What is left is closed where no directory goes before what lies in it. -/
theorem Closed.filter (h : t.Closed) {keep : Node ν → Bool}
    (hkeep : ∀ m ∈ t, keep m = true → ∀ n ∈ t, n.isDir = true → n.path = m.dir → keep n = true) :
    Closed (t.filter keep) where
  paths := h.paths.sublist (List.filter_sublist.map _)
  dirs m hm := by
    obtain ⟨hm, hkept⟩ := List.mem_filter.mp hm
    rcases h.dirs m hm with hnil | ⟨n, hn, hdir, hpath⟩
    · exact .inl hnil
    · exact .inr ⟨n, List.mem_filter.mpr ⟨hn, hkeep m hm hkept n hn hdir hpath⟩, hdir, hpath⟩

/-- Files may go. -/
theorem Closed.filter_files (h : t.Closed) {keep : Node ν → Bool}
    (hkeep : ∀ n ∈ t, n.isDir = true → keep n = true) : Closed (t.filter keep) :=
  h.filter fun _ _ _ n hn hdir _ => hkeep n hn hdir

end Lemmas

section Calls

variable [DecidableEq ν]

instance (t : FileTree ν) (p : List ν) : Decidable (t.IsDir p) :=
  inferInstanceAs (Decidable (p = [] ∨ ∃ n ∈ t, n.isDir = true ∧ n.path = p))

instance (t : FileTree ν) (p : List ν) : Decidable (t.IsFile p) :=
  inferInstanceAs (Decidable (∃ n ∈ t, n.isDir = false ∧ n.path = p))

/-- What `stat` says of a path; nothing can lie below a file. -/
inductive Stat
  | dir
  | file
  | notExist
  | notDir
  deriving DecidableEq

def stat (t : FileTree ν) (p : List ν) : Stat :=
  if t.IsDir p then .dir
  else if t.IsFile p then .file
  else if t.any fun n => !n.isDir && n.path.isPrefixOf p then .notDir
  else .notExist

def entries (t : FileTree ν) (p : List ν) : List (Node ν) := t.filter (·.dir = p)

/-- All that `WalkDir` comes to. -/
def walk (t : FileTree ν) (p : List ν) : List (Node ν) := t.filter fun n => p.isPrefixOf n.path

def removeAll (t : FileTree ν) (p : List ν) : FileTree ν :=
  t.filter fun n => !p.isPrefixOf n.path

/-- A directory is removed if it is empty. -/
def removeEmptyDir (t : FileTree ν) (p : List ν) : FileTree ν :=
  if t.entries p = [] then t.filter fun n => !(n.isDir && n.path = p) else t

variable {t s : FileTree ν} {n : Node ν} {p q : List ν}

theorem mem_walk : n ∈ t.walk p ↔ n ∈ t ∧ p <+: n.path := by
  rw [walk, List.mem_filter, List.isPrefixOf_iff_prefix]

theorem mem_entries : n ∈ t.entries p ↔ n ∈ t ∧ n.dir = p := by
  rw [entries, List.mem_filter, decide_eq_true_iff]

theorem mem_removeAll : n ∈ t.removeAll p ↔ n ∈ t ∧ ¬p <+: n.path := by
  rw [removeAll, List.mem_filter, Bool.not_eq_true', ← Bool.not_eq_true,
    List.isPrefixOf_iff_prefix]

theorem Closed.removeAll (h : t.Closed) (p : List ν) : Closed (t.removeAll p) := by
  refine h.filter fun m _ hkeep n _ _ hpath => ?_
  rw [Bool.not_eq_true', ← Bool.not_eq_true, List.isPrefixOf_iff_prefix] at hkeep ⊢
  rw [hpath]
  exact fun hp => hkeep (hp.trans (List.prefix_append _ _))

theorem mem_removeEmptyDir : n ∈ t.removeEmptyDir p ↔
    n ∈ t ∧ ¬(t.entries p = [] ∧ n.isDir = true ∧ n.path = p) := by
  unfold removeEmptyDir
  split_ifs with hempty
  · rw [List.mem_filter, Bool.not_eq_true', ← Bool.not_eq_true, Bool.and_eq_true,
      decide_eq_true_iff]
    exact and_congr_right fun _ => not_congr (and_iff_right hempty).symm
  · exact (and_iff_left fun hall => hempty hall.1).symm

theorem Closed.removeEmptyDir (h : t.Closed) (p : List ν) : Closed (t.removeEmptyDir p) := by
  unfold FileTree.removeEmptyDir
  split_ifs with hempty
  · refine h.filter fun m hm _ n _ hdir hpath => ?_
    have hne : n.path ≠ p := by
      rintro rfl
      have hmem : m ∈ t.entries n.path := mem_entries.mpr ⟨hm, hpath.symm⟩
      rw [hempty] at hmem
      cases hmem
    simp [hne]
  · exact h

/-- Every run of `removeEmptyDir`, in which some calls may do nothing, keeps the files. -/
theorem closed_foldl_removeEmptyDir (skip : FileTree ν → List ν → Bool) (ps : List (List ν))
    (h : t.Closed) :
    let left := ps.foldl (fun t p => if skip t p then t else t.removeEmptyDir p) t
    Closed left ∧ left ⊆ t ∧ ∀ n ∈ t, n.isDir = false → n ∈ left := by
  induction ps generalizing t with
  | nil => exact ⟨h, List.Subset.refl t, fun n hn _ => hn⟩
  | cons p ps ih =>
    rw [List.foldl_cons]
    split_ifs with hskip
    · exact ih h
    · obtain ⟨hclosed, hsub, hfiles⟩ := ih (h.removeEmptyDir p)
      refine ⟨hclosed, fun n hn => (mem_removeEmptyDir.mp (hsub hn)).1, fun n hn hfile => ?_⟩
      refine hfiles n (mem_removeEmptyDir.mpr ⟨hn, fun hall => ?_⟩) hfile
      rw [hall.2.1] at hfile
      cases hfile

theorem stat_eq_dir : t.stat p = .dir ↔ t.IsDir p := by
  unfold stat
  split_ifs with hdir <;> simp [hdir]

theorem stat_eq_file (h : t.Closed) : t.stat p = .file ↔ t.IsFile p := by
  unfold stat
  split_ifs with hdir hfile
  · exact iff_of_false (by simp) (h.not_isFile hdir)
  · exact iff_of_true rfl hfile
  · exact iff_of_false (by simp) hfile
  · exact iff_of_false (by simp) hfile

/-- Nothing is at a path, or below it, that does not exist. -/
theorem Closed.not_prefix (h : t.Closed) (hstat : t.stat p = .notExist) (hn : n ∈ t) :
    ¬p <+: n.path := by
  intro hp
  have hdir : ¬t.IsDir p := fun hdir => by rw [stat_eq_dir.mpr hdir] at hstat; cases hstat
  have hfile : ¬t.IsFile p := fun hfile => by
    rw [(stat_eq_file h).mpr hfile] at hstat
    cases hstat
  rcases Node.prefix_path hp with rfl | hp
  · cases hkind : n.isDir with
    | false => exact hfile ⟨n, hn, hkind, rfl⟩
    | true => exact hdir (.inr ⟨n, hn, hkind, rfl⟩)
  · exact hdir (h.isDir_of_prefix hn hp)

/-- A path below a file of a smaller tree is below a file of the tree. -/
theorem stat_ne_notDir (h : t.Closed) (hsub : s ⊆ t) (hstat : t.stat p ≠ .notDir) :
    s.stat p ≠ .notDir := by
  intro hs
  have hbelow : ∃ n ∈ s, n.isDir = false ∧ n.path <+: p := by
    unfold stat at hs
    split_ifs at hs with _ _ hany
    obtain ⟨n, hn, hp⟩ := List.any_eq_true.mp hany
    rw [Bool.and_eq_true, Bool.not_eq_true', List.isPrefixOf_iff_prefix] at hp
    exact ⟨n, hn, hp⟩
  obtain ⟨n, hn, hkind, hp⟩ := hbelow
  have hnotDir : ¬s.IsDir p ∧ ¬s.IsFile p := by
    unfold stat at hs
    split_ifs at hs with hdir hfile
    exact ⟨hdir, hfile⟩
  have hne : n.path ≠ p := fun heq => hnotDir.2 ⟨n, hn, hkind, heq⟩
  have hfile : t.IsFile n.path := ⟨n, hsub hn, hkind, rfl⟩
  have habove : ∀ m ∈ t, m.path = p → False := by
    rintro m hm rfl
    exact h.not_isFile (h.isDir_of_prefix_path hm hp hne) hfile
  unfold stat at hstat
  split_ifs at hstat with hdir hfile' hany
  · rcases hdir with rfl | ⟨m, hm, -, hpath⟩
    · exact n.path_ne_nil (List.prefix_nil.mp hp)
    · exact habove m hm hpath
  · obtain ⟨m, hm, -, hpath⟩ := hfile'
    exact habove m hm hpath
  · exact hstat rfl
  · refine hany (List.any_eq_true.mpr ⟨n, hsub hn, ?_⟩)
    rw [hkind, Bool.not_false, Bool.true_and, List.isPrefixOf_iff_prefix]
    exact hp

end Calls

end FileTree

end AllInOneBackup.Data
