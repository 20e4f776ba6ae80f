import AllInOneBackup.Cloud123.FolderCleanup.Emptied

/-! The run of the cleanup. What it deletes when all requests succeed is known in advance, and so
is when that is all that should go. -/

namespace AllInOneBackup.Cloud123.FolderCleanup

open Data

/-! ### Statements -/

/-- The task is of this tree: its recorded folders are the root or folders, and `localDirMap` has
their depth and the folder that they are in. -/
structure Task.Inspected (task : Task) (tree : Tree) : Prop where
  ids : ∀ n ∈ tree, n.id ≠ []
  folders : ∀ cid ∈ task.cidsToCheck, cid = task.root ∨ ∃ n ∈ tree, n.id = cid ∧
    n.isDir = true ∧ task.depth cid = n.above.length ∧ n.above.head? = some (task.parentCid cid)

/-- No folder that is left and leads to a recorded one is empty. -/
def Complete (task : Task) (tree left : Tree) : Prop :=
  ∀ n ∈ left, LeadsToRecorded tree task.cidsToCheck n.id → entries left n.id ≠ []

/-! ### Requests that succeed -/

variable {server : Server} {task : Task} {root cid : Text} {tree : Tree} {s : State}

theorem subset_checkFolder : s.requests ⊆ (checkFolder server cid s).2.requests := by
  obtain ⟨hrequests, -⟩ | ⟨⟨answer, hrequests⟩, -⟩ := checkFolder_requests server cid s
  · rw [hrequests]
    exact List.subset_append_left _ _
  · rw [hrequests, List.append_assoc]
    exact List.subset_append_left _ _

theorem subset_cleanupFolder : s.requests ⊆ (cleanupFolder server task s cid).requests := by
  rw [cleanupFolder]
  simp only
  split_ifs
  · exact fun r hr => hr
  · exact fun r hr => subset_checkFolder (subset_checkFolder hr)
  · exact subset_checkFolder
  · exact subset_checkFolder

theorem subset_foldl (cids : List Text) :
    s.requests ⊆ (cids.foldl (cleanupFolder server task) s).requests := by
  induction cids generalizing s with
  | nil => exact fun r hr => hr
  | cons cid cids ih => exact fun r hr => ih (subset_cleanupFolder hr)

/-- A folder is deleted if nothing is in it, and left alone if not. -/
theorem checkFolder_cases (h : ∀ r ∈ (checkFolder server cid s).2.requests, r.Succeeds) :
    (entries s.tree cid = [] ∧ (checkFolder server cid s).1 = true ∧
      (checkFolder server cid s).2.tree = remove s.tree cid ∧
      (checkFolder server cid s).2.deletedCids = s.deletedCids ++ [cid]) ∨
    (entries s.tree cid ≠ [] ∧ (checkFolder server cid s).1 = false ∧
      (checkFolder server cid s).2.tree = s.tree ∧
      (checkFolder server cid s).2.deletedCids = s.deletedCids) := by
  have hdelete : ∀ s : State, (∀ r ∈ (deleteLocalFiles server cid s).2.requests, r.Succeeds) →
      (deleteLocalFiles server cid s).1 = true ∧
        (deleteLocalFiles server cid s).2.tree = remove s.tree cid ∧
        (deleteLocalFiles server cid s).2.deletedCids = s.deletedCids ++ [cid] := by
    intro s h
    rw [deleteLocalFiles] at h ⊢
    cases hanswer : server.deletion s.requests.length with
    | done => exact ⟨rfl, rfl, rfl⟩
    | refused =>
      rw [hanswer] at h
      exact absurd (h _ (List.mem_append_right _ List.mem_cons_self)) (by simp [Request.Succeeds])
    | lost =>
      rw [hanswer] at h
      exact absurd (h _ (List.mem_append_right _ List.mem_cons_self)) (by simp [Request.Succeeds])
  have hlisted : server.listing s.requests.length = .entries := by
    obtain ⟨hrequests, -⟩ | ⟨⟨answer, hrequests⟩, -⟩ := checkFolder_requests server cid s
    · exact h (.list cid s.tree _) (by simp [hrequests])
    · exact h (.list cid s.tree _) (by simp [hrequests])
  rw [checkFolder, listLocalDir, hlisted] at h ⊢
  cases hentries : entries s.tree cid with
  | nil =>
    rw [hentries] at h
    exact .inl ⟨rfl, hdelete _ h⟩
  | cons n ns => exact .inr ⟨List.cons_ne_nil n ns, rfl, rfl, rfl⟩

/-! ### What has gone -/

/-- What has been deleted of the tree so far. -/
structure Removed (root : Text) (tree : Tree) (gone : Text → Prop) (s : State) : Prop where
  rooted : Rooted root s.tree
  left : ∀ n, n ∈ s.tree ↔ n ∈ tree ∧ ¬gone n.id
  deleted : ∀ cid, cid ∈ s.deletedCids ↔ gone cid

namespace Removed

variable {gone gone' : Text → Prop}

theorem congr (h : Removed root tree gone s) (hiff : ∀ cid, gone' cid ↔ gone cid) :
    Removed root tree gone' s := by
  have heq : gone' = gone := funext fun cid => propext (hiff cid)
  rwa [heq]

theorem entries_eq_nil_iff (h : Removed root tree gone s) :
    entries s.tree cid = [] ↔ ∀ e ∈ entries tree cid, gone e.id := by
  rw [List.eq_nil_iff_forall_not_mem]
  simp only [mem_entries, h.left]
  constructor
  · intro hnone e he
    exact by_contra fun hgone => hnone e ⟨⟨he.1, hgone⟩, he.2⟩
  · rintro hall e ⟨⟨he, hgone⟩, hhead⟩
    exact hgone (hall e ⟨he, hhead⟩)

/-- A folder that is checked is gone, if nothing was in it. -/
theorem checkFolder (h : Removed root tree gone s)
    (hall : ∀ r ∈ (checkFolder server cid s).2.requests, r.Succeeds) :
    ((∀ e ∈ entries tree cid, gone e.id) ∧ (FolderCleanup.checkFolder server cid s).1 = true ∧
      Removed root tree (fun x => gone x ∨ x = cid)
        (FolderCleanup.checkFolder server cid s).2) ∨
    ((¬∀ e ∈ entries tree cid, gone e.id) ∧ (FolderCleanup.checkFolder server cid s).1 = false ∧
      Removed root tree gone (FolderCleanup.checkFolder server cid s).2) := by
  obtain ⟨hnil, hdone, htree, hdeleted⟩ | ⟨hne, hdone, htree, hdeleted⟩ := checkFolder_cases hall
  · refine .inl ⟨h.entries_eq_nil_iff.mp hnil, hdone, ?_, ?_, ?_⟩
    · rw [htree]
      exact h.rooted.remove cid
    · intro n
      rw [htree, remove_of_entries_nil h.rooted hnil, List.mem_filter, h.left, decide_eq_true_eq,
        not_or, and_assoc]
    · intro x
      rw [hdeleted, List.mem_append, List.mem_singleton, h.deleted]
  · refine .inr ⟨mt h.entries_eq_nil_iff.mpr hne, hdone, ?_, ?_, ?_⟩
    · rw [htree]
      exact h.rooted
    · intro n
      rw [htree, h.left]
    · intro x
      rw [hdeleted, h.deleted]

end Removed

section Turn

variable {before : List Text} {c : Node}

/-- A deletion on its own turn, and the look at the folder above. -/
theorem removed_parent (hgrown : Grown task.root tree) (hids : ∀ n ∈ tree, n.id ≠ [])
    (hc : c ∈ tree) (hrecorded : c.id ∈ task.cidsToCheck)
    (hparent : c.above.head? = some (task.parentCid c.id))
    (hdeep : ∀ n ∈ tree, n.id ∈ task.cidsToCheck → c.above.length < n.above.length →
      n.id ∈ before)
    (hthere : ¬Emptied tree task.cidsToCheck before c.id)
    (hgone : Gone tree task.cidsToCheck c.id) (hown : own tree task.cidsToCheck c.id = true)
    (h : Removed task.root tree
      (fun x => Emptied tree task.cidsToCheck before x ∨ x = c.id) s)
    (hall : ∀ r ∈ (if task.parentCid c.id ≠ [] ∧ task.parentCid c.id ≠ task.root ∧
        task.parentCid c.id ∉ s.deletedCids then
      (checkFolder server (task.parentCid c.id) s).2 else s).requests, r.Succeeds) :
    Removed task.root tree (Emptied tree task.cidsToCheck (before ++ [c.id]))
      (if task.parentCid c.id ≠ [] ∧ task.parentCid c.id ≠ task.root ∧
        task.parentCid c.id ∉ s.deletedCids then
      (checkFolder server (task.parentCid c.id) s).2 else s) := by
  have hunique : ∀ e ∈ tree, e.id = c.id → e = c := fun e he => hgrown.unique e he c hc
  -- what else the turn of `c` takes is the folder that `c` is in
  have hother : ∀ x, x ≠ task.parentCid c.id →
      (Emptied tree task.cidsToCheck (before ++ [c.id]) x ↔
        Emptied tree task.cidsToCheck before x ∨ x = c.id) := by
    intro x hx
    by_cases hnode : ∃ n ∈ tree, n.id = x
    · obtain ⟨n, hn, rfl⟩ := hnode
      apply emptied_concat_iff hgone hown _ hunique
      intro hin
      rw [(mem_entries.mp hin).2, Option.some.injEq] at hparent
      exact hx hparent
    · refine iff_of_false (fun hemptied => hnode hemptied.exists_node) ?_
      rintro (hemptied | rfl)
      · exact hnode hemptied.exists_node
      · exact hnode ⟨c, hc, rfl⟩
  obtain ⟨p, rest, heq, hcases⟩ := hgrown.rooted c hc
  rw [heq, List.head?_cons, Option.some.injEq] at hparent
  subst hparent
  obtain ⟨hroot, -⟩ | ⟨m, hm, hmdir, hmid, -⟩ := hcases
  · rw [if_neg fun hlook => hlook.2.1 hroot]
    apply h.congr
    intro x
    by_cases hx : x = task.parentCid c.id
    · have hnot : ∀ n ∈ tree, n.id ≠ x := fun n hn hid =>
        hgrown.fresh n hn (hid.trans (hx.trans hroot))
      refine iff_of_false (fun hemptied => ?_) ?_
      · obtain ⟨n, hn, hid⟩ := hemptied.exists_node
        exact hnot n hn hid
      · rintro (hemptied | hid)
        · obtain ⟨n, hn, hid⟩ := hemptied.exists_node
          exact hnot n hn hid
        · exact hnot c hc hid.symm
    · exact hother x hx
  · rw [← hmid] at heq hall hother ⊢
    have hin : c ∈ entries tree m.id := mem_entries.mpr ⟨hc, by rw [heq, List.head?_cons]⟩
    have hmc : m.id ≠ c.id := by
      intro hid
      have hself := hgrown.above_entry hm hin
      rw [hunique m hm hid] at hself
      have hlen := congrArg List.length hself
      rw [List.length_cons] at hlen
      omega
    have hmnot : ¬Emptied tree task.cidsToCheck before m.id := by
      intro hemptied
      have hwhen := hemptied.2
      have hownm : own tree task.cidsToCheck m.id ≠ true := by
        intro hownm
        have hfalse := ((own_iff hgrown hm).mp hownm).2 c hin
        rw [hown] at hfalse
        cases hfalse
      rw [if_neg hownm] at hwhen
      refine hthere ⟨hgone, ?_⟩
      rw [if_pos hown]
      exact hwhen c hin hown
    have hlook : m.id ≠ [] ∧ m.id ≠ task.root ∧ m.id ∉ s.deletedCids :=
      ⟨hids m hm, hgrown.fresh m hm, fun hdeleted => ((h.deleted m.id).mp hdeleted).elim hmnot hmc⟩
    rw [if_pos hlook] at hall ⊢
    have hlast := parent_emptied_iff hgrown hc hrecorded hdeep hgone hown hm hmdir hin
    obtain ⟨hentries, -, hremoved⟩ | ⟨hentries, -, hremoved⟩ := h.checkFolder hall
    · apply hremoved.congr
      intro x
      by_cases hx : x = m.id
      · subst hx
        exact iff_of_true (hlast.mp hentries) (.inr rfl)
      · rw [hother x hx]
        exact (or_iff_left hx).symm
    · apply hremoved.congr
      intro x
      by_cases hx : x = m.id
      · subst hx
        exact iff_of_false (mt hlast.mpr hentries) fun hor => hor.elim hmnot hmc
      · exact hother x hx

theorem removed_cleanupFolder (hgrown : Grown task.root tree) (hinspected : task.Inspected tree)
    (hcid : cid ∈ task.cidsToCheck) (hnew : cid ∉ before)
    (hdeep : ∀ n ∈ tree, n.id ∈ task.cidsToCheck → task.depth cid < n.above.length → n.id ∈ before)
    (h : Removed task.root tree (Emptied tree task.cidsToCheck before) s)
    (hall : ∀ r ∈ (cleanupFolder server task s cid).requests, r.Succeeds) :
    Removed task.root tree (Emptied tree task.cidsToCheck (before ++ [cid]))
      (cleanupFolder server task s cid) := by
  rw [cleanupFolder] at hall ⊢
  by_cases hskip : cid = task.root ∨ cid ∈ s.deletedCids
  · rw [if_pos hskip]
    apply h.congr
    intro x
    apply emptied_concat_of_not_own hgrown
    rintro n hn hid ⟨hgone, hown⟩
    rcases hskip with hroot | hdeleted
    · exact hgrown.fresh n hn (hid.trans hroot)
    · have hwhen := ((h.deleted cid).mp hdeleted).2
      rw [if_pos hown] at hwhen
      exact hnew hwhen
  · rw [if_neg hskip] at hall ⊢
    obtain ⟨hroot, hthere⟩ := not_or.mp hskip
    rw [h.deleted] at hthere
    obtain ⟨c, hc, rfl, hdir, hdepth, hparent⟩ := (hinspected.folders cid hcid).resolve_left hroot
    rw [hdepth] at hdeep
    have hturn := entries_emptied_iff hgrown hc hcid hdir hdeep hthere
    have hself : ∀ r ∈ (checkFolder server c.id s).2.requests, r.Succeeds := by
      simp only at hall
      split_ifs at hall
      · exact fun r hr => hall r (subset_checkFolder hr)
      · exact hall
      · exact hall
    obtain ⟨hentries, hdone, hremoved⟩ | ⟨hentries, hdone, hremoved⟩ := h.checkFolder hself
    · obtain ⟨hgone, hown⟩ := hturn.mp hentries
      rw [if_pos hdone] at hall ⊢
      exact removed_parent hgrown hinspected.ids hc hcid hparent hdeep hthere hgone hown hremoved
        hall
    · rw [if_neg (by simp [hdone])]
      apply hremoved.congr
      intro x
      apply emptied_concat_of_not_own hgrown
      intro n hn hid
      exact mt hturn.mpr hentries

end Turn

/-! ### The run -/

theorem pairwise_depth (task : Task) :
    task.cidsToCheck.Pairwise fun a b => task.depth b ≤ task.depth a := by
  have hsorted : task.cidsToCheck.Pairwise fun a b =>
      decide (task.depth b ≤ task.depth a) = true := by
    apply List.pairwise_mergeSort
    · intro a b c hab hbc
      rw [decide_eq_true_eq] at hab hbc ⊢
      exact hbc.trans hab
    · intro a b
      rw [Bool.or_eq_true, decide_eq_true_eq, decide_eq_true_eq]
      exact le_total _ _
  exact hsorted.imp fun hle => decide_eq_true_eq.mp hle

theorem nodup_cidsToCheck (task : Task) : task.cidsToCheck.Nodup :=
  (List.mergeSort_perm _ _).nodup_iff.mpr (List.nodup_dedup _)

theorem removed_foldl (hgrown : Grown task.root tree) (hinspected : task.Inspected tree)
    {before after : List Text} (hsplit : task.cidsToCheck = before ++ after)
    (h : Removed task.root tree (Emptied tree task.cidsToCheck before) s)
    (hall : ∀ r ∈ (after.foldl (cleanupFolder server task) s).requests, r.Succeeds) :
    Removed task.root tree (Emptied tree task.cidsToCheck task.cidsToCheck)
      (after.foldl (cleanupFolder server task) s) := by
  induction after generalizing before s with
  | nil =>
    rw [List.append_nil] at hsplit
    rwa [← hsplit] at h
  | cons cid after ih =>
    have hcid : cid ∈ task.cidsToCheck := by
      rw [hsplit]
      exact List.mem_append_right before List.mem_cons_self
    have hnodup := nodup_cidsToCheck task
    have hpairwise := pairwise_depth task
    rw [hsplit] at hnodup hpairwise
    have hnew : cid ∉ before := fun hmem =>
      List.disjoint_of_nodup_append hnodup hmem List.mem_cons_self
    have hlater := (List.pairwise_cons.mp (List.pairwise_append.mp hpairwise).2.1).1
    have hdeep : ∀ n ∈ tree, n.id ∈ task.cidsToCheck → task.depth cid < n.above.length →
        n.id ∈ before := by
      intro n hn hmem hlt
      have hdepth : task.depth n.id = n.above.length := by
        obtain hroot | ⟨m, hm, hid, -, hdepth, -⟩ := hinspected.folders n.id hmem
        · exact absurd hroot (hgrown.fresh n hn)
        · rw [hdepth, hgrown.unique m hm n hn hid]
      rw [hsplit] at hmem
      rcases List.mem_append.mp hmem with hbefore | hcons
      · exact hbefore
      · rcases List.mem_cons.mp hcons with hid | hafter
        · rw [← hid] at hlt
          omega
        · have hle := hlater n.id hafter
          omega
    rw [List.foldl_cons] at hall ⊢
    have hstep := removed_cleanupFolder hgrown hinspected hcid hnew hdeep h
      fun r hr => hall r (subset_foldl after hr)
    rw [List.append_cons] at hsplit
    exact ih hsplit hstep hall

/-- When all requests succeed, what is gone in the end is as computed in advance. -/
theorem removed_cleanup (hgrown : Grown task.root tree) (hinspected : task.Inspected tree)
    (hroot : task.root ≠ [])
    (hall : ∀ r ∈ (cleanupEmptyLocalFolders server true task tree).requests, r.Succeeds) :
    Removed task.root tree (Gone tree task.cidsToCheck)
      (cleanupEmptyLocalFolders server true task tree) := by
  have hskip : ¬(true = false ∨ task.root = []) := by simp [hroot]
  rw [cleanupEmptyLocalFolders, if_neg hskip] at hall ⊢
  have hstart : ∀ x, ¬Emptied tree task.cidsToCheck [] x := by
    rintro x ⟨hgone, hwhen⟩
    obtain ⟨n, hn, rfl⟩ := hgone.1.1
    have hlooked := ((gone_iff hgrown hn).mp hgone).2.2.1
    by_cases hown : own tree task.cidsToCheck n.id = true
    · rw [if_pos hown] at hwhen
      exact List.not_mem_nil hwhen
    · rw [if_neg hown] at hwhen
      obtain ⟨e, he, howne⟩ := hlooked.exists_own hgrown hn hown
      exact List.not_mem_nil (hwhen e he howne)
  have hfirst : Removed task.root tree (Emptied tree task.cidsToCheck []) ⟨tree, [], []⟩ :=
    ⟨hgrown.rooted, fun n => (and_iff_left (hstart n.id)).symm,
      fun x => iff_of_false List.not_mem_nil (hstart x)⟩
  apply (removed_foldl hgrown hinspected rfl hfirst hall).congr
  intro x
  refine ⟨fun hgone => ⟨hgone, ?_⟩, And.left⟩
  obtain ⟨n, hn, rfl⟩ := hgone.1.1
  split_ifs with hown
  · exact ((own_iff hgrown hn).mp hown).1
  · intro e he howne
    exact ((own_iff hgrown (mem_entries.mp he).1).mp howne).1

/-- The run is complete just when every folder that should go is looked at. -/
theorem complete_iff (hgrown : Grown task.root tree) (hinspected : task.Inspected tree)
    (h : Removed task.root tree (Gone tree task.cidsToCheck) s) :
    Complete task tree s.tree ↔
      ∀ n ∈ tree, Vanishing tree task.cidsToCheck n.id → LookedAt tree task.cidsToCheck n.id := by
  constructor
  · intro hcomplete
    have hgone : ∀ n ∈ tree, Vanishing tree task.cidsToCheck n.id →
        Gone tree task.cidsToCheck n.id := by
      intro n hn hvanishing
      induction hlow : height tree - n.above.length using Nat.strong_induction_on
        generalizing n with
      | _ k ih =>
        obtain ⟨hdir, hleads⟩ := hvanishing.2 n hn (.inl rfl)
        have hentries : ∀ e ∈ entries tree n.id, Gone tree task.cidsToCheck e.id := by
          intro e he
          have hmem := (mem_entries.mp he).1
          have hlen := congrArg List.length (hgrown.above_entry hn he)
          have hle := length_above_le hmem
          rw [List.length_cons] at hlen
          exact ih (height tree - e.above.length) (by omega) e hmem
            (hvanishing.entry hgrown hn he) rfl
        by_contra hnot
        exact hcomplete n ((h.left n).mpr ⟨hn, hnot⟩) hleads (h.entries_eq_nil_iff.mpr hentries)
    exact fun n hn hvanishing => (hgone n hn hvanishing).2 n hn (.inl rfl)
  · intro hlooked n hleft hleads hnil
    obtain ⟨hn, hnot⟩ := (h.left n).mp hleft
    have hentries := h.entries_eq_nil_iff.mp hnil
    have hdir : n.isDir = true := by
      obtain ⟨m, hm, hmem, hid | habove⟩ := hleads
      · rw [hgrown.unique m hm n hn hid] at hmem
        obtain hroot | ⟨x, hx, hid, hdir, -⟩ := hinspected.folders n.id hmem
        · exact absurd hroot (hgrown.fresh n hn)
        · rwa [← hgrown.unique x hx n hn hid]
      · exact hgrown.isDir_of_mem_above hm hn habove
    have hvanishing : Vanishing tree task.cidsToCheck n.id := by
      refine ⟨⟨n, hn, rfl⟩, fun m hm hbelow => ?_⟩
      rcases (hgrown.atOrBelow_iff hn hm).mp hbelow with rfl | ⟨e, he, hbelow⟩
      · exact ⟨hdir, hleads⟩
      · exact (hentries e he).1.2 m hm hbelow
    exact hnot ((gone_iff hgrown hn).mpr ⟨hdir, hleads, hlooked n hn hvanishing, hentries⟩)

/-- The cleanup is safe just when no folder with entries is answered with data that is not a list;
and complete just when, if all requests succeed, every folder that should go is recorded, or has an
entry that is deleted on its own turn. -/
theorem empty_folders_right_iff (server : Server) (hroot : task.root ≠ []) (hgrown : Grown task.root tree)
    (hinspected : task.Inspected tree) :
    ((∀ r ∈ (cleanupEmptyLocalFolders server true task tree).requests, r.Safe task.root) ∧
      ((∀ r ∈ (cleanupEmptyLocalFolders server true task tree).requests, r.Succeeds) →
        Complete task tree (cleanupEmptyLocalFolders server true task tree).tree)) ↔
    (∀ r ∈ (cleanupEmptyLocalFolders server true task tree).requests, r.NotMisread) ∧
      ((∀ r ∈ (cleanupEmptyLocalFolders server true task tree).requests, r.Succeeds) →
        ∀ n ∈ tree, Vanishing tree task.cidsToCheck n.id →
          LookedAt tree task.cidsToCheck n.id) := by
  refine and_congr (faithful_cleanup true task tree) (imp_congr_right fun hall => ?_)
  exact complete_iff hgrown hinspected (removed_cleanup hgrown hinspected hroot hall)

/-! ### A folder with one file, and one with an empty folder -/

/-- Two folders in the root, one with an empty folder and one with a file. -/
def folders : Tree :=
  [⟨['p'], [['0']], true⟩, ⟨['c'], [['p'], ['0']], true⟩, ⟨['a'], [['0']], true⟩,
    ⟨['f'], [['a'], ['0']], false⟩]

def foldersTask : Task where
  foldersToCleanup := [['c'], ['a']]
  localDirMap := fun cid =>
    if cid = ['c'] then some ⟨['p'], [['p'], ['c']]⟩
    else if cid = ['a'] then some ⟨['0'], [['a']]⟩
    else none
  rootCid := ['0']

theorem grown_folders : Grown foldersTask.root folders := by
  refine ⟨?_, by decide, by decide⟩
  simp only [folders, Rooted, List.forall_mem_cons]
  refine ⟨⟨_, _, rfl, .inl ⟨by decide, rfl⟩⟩, ⟨_, _, rfl, .inr ?_⟩, ⟨_, _, rfl, .inl ⟨by decide, rfl⟩⟩,
    ⟨_, _, rfl, .inr ?_⟩, List.forall_mem_nil _⟩
  · exact ⟨⟨['p'], [['0']], true⟩, by decide, rfl, rfl, rfl⟩
  · exact ⟨⟨['a'], [['0']], true⟩, by decide, rfl, rfl, rfl⟩

theorem cidsToCheck_folders : foldersTask.cidsToCheck = [['c'], ['a']] := by
  rw [Task.cidsToCheck, List.mergeSort_of_pairwise (by decide)]
  decide

theorem inspected_folders : foldersTask.Inspected folders := by
  refine ⟨by decide, ?_⟩
  rw [cidsToCheck_folders]
  simp only [List.forall_mem_cons]
  refine ⟨.inr ?_, .inr ?_, List.forall_mem_nil _⟩
  · exact ⟨⟨['c'], [['p'], ['0']], true⟩, by decide, rfl, rfl, by decide, by decide⟩
  · exact ⟨⟨['a'], [['0']], true⟩, by decide, rfl, rfl, by decide, by decide⟩

/-- All requests succeed. -/
def willing : Server := ⟨fun _ => .entries, fun _ => .done⟩

/-- The recorded folder goes, and the one that it was in; the folder with the file stays. -/
theorem empty_folders_right_iff_folders :
    (cleanupEmptyLocalFolders willing true foldersTask folders).tree = folders.drop 2 ∧
      (∀ r ∈ (cleanupEmptyLocalFolders willing true foldersTask folders).requests,
        r.Safe foldersTask.root) ∧
      Complete foldersTask folders
        (cleanupEmptyLocalFolders willing true foldersTask folders).tree := by
  have hrun : cleanupEmptyLocalFolders willing true foldersTask folders =
      ⟨folders.drop 2, [['c'], ['p']],
        [.list ['c'] folders .entries, .delete ['c'] folders .done,
          .list ['p'] (remove folders ['c']) .entries, .delete ['p'] (remove folders ['c']) .done,
          .list ['a'] (folders.drop 2) .entries]⟩ := by
    rw [cleanupEmptyLocalFolders, if_neg (by decide), cidsToCheck_folders]
    rfl
  have hlooked : ∀ n ∈ folders, Vanishing folders foldersTask.cidsToCheck n.id →
      LookedAt folders foldersTask.cidsToCheck n.id := by
    rw [cidsToCheck_folders]
    simp only [folders, List.forall_mem_cons]
    refine ⟨fun _ => .inr ⟨⟨['c'], [['p'], ['0']], true⟩, by decide, by decide⟩,
      fun _ => .inl (by decide), fun _ => .inl (by decide), fun hvanishing => ?_,
      List.forall_mem_nil _⟩
    exact absurd (hvanishing.2 ⟨['f'], [['a'], ['0']], false⟩ (by decide) (.inl rfl)).1 (by decide)
  have hright := (empty_folders_right_iff willing (by decide) grown_folders inspected_folders).mpr
    ⟨by rw [hrun]; simp [Request.NotMisread], fun _ => hlooked⟩
  exact ⟨by rw [hrun], hright.1, hright.2 (by rw [hrun]; simp [Request.Succeeds])⟩

/-- The folder is deleted with its file. -/
theorem folder_with_file_deleted : ¬∀ (server : Server) (task : Task) (tree : Tree),
    task.root ≠ [] → Grown task.root tree → task.Inspected tree →
      ∀ r ∈ (cleanupEmptyLocalFolders server true task tree).requests, r.Safe task.root := by
  intro hall
  have hasked : Request.delete ['a'] (folders.drop 2) .done ∈ (cleanupEmptyLocalFolders
      ⟨fun _ => .malformed, fun _ => .done⟩ true foldersTask folders).requests := by
    rw [cleanupEmptyLocalFolders, if_neg (by decide), cidsToCheck_folders]
    exact List.mem_of_mem_getLast? rfl
  have hsafe := hall ⟨fun _ => .malformed, fun _ => .done⟩ foldersTask folders (by decide)
    grown_folders inspected_folders _ hasked
  exact absurd hsafe.2 (by decide)

end AllInOneBackup.Cloud123.FolderCleanup
