import AllInOneBackup.LitePan.Strm.Sidecars
import Mathlib.Data.Set.Finite.Lemmas

/-! The stale `.strm` files of a directory are removed one after the other, in any order. Of two
stems that a subtitle matches the longer one on disk is asked for, but nobody asks for an image or an
`.nfo` file, nor for two stems of one length. -/

namespace AllInOneBackup.LitePan.Strm.Cleanup

open Data Data.Text

/-! ### The loop -/

section Loop

variable (u : UnicodeCase) (stays : Text → Bool)

/-- The body of the loop; `stays` is a file that is seen, or lies under a skipped directory. -/
def cleanupEntry (dir : List Entry) (e : Entry) : List Entry :=
  if e.isDir then dir
  else if !isStrm u e.name then dir
  else if stays e.name then dir
  else removeStaleStrmAndSameStemSidecars u dir e.name

/-- `cleanupScopedStaleFiles`, over the entries of one directory. -/
def cleanupScopedStaleFiles (dir entries : List Entry) : List Entry :=
  entries.foldl (cleanupEntry u stays) dir

/-! ### The property and the condition -/

def isStale (e : Entry) : Bool := !e.isDir && isStrm u e.name && !stays e.name

/-- The longest of the stems that the name matches is the one of a `.strm` file that stays. -/
def BelongsToStaying (dir : List Entry) (f : Entry) : Prop :=
  ∃ w ∈ dir, w.isDir = false ∧ isStrm u w.name ∧ stays w.name ∧
    matchesStem u (stemOf w.name) f.name ∧
    ∀ v ∈ dir, v.isDir = false → isStrm u v.name → matchesStem u (stemOf v.name) f.name →
      len (stemOf v.name) ≤ len (stemOf w.name)

/-- No step of the loop removes what belongs to a file that stays, and shared artwork goes only with
all the rest. -/
structure Right (dir entries : List Entry) : Prop where
  owned : ∀ pre e post, entries = pre ++ e :: post →
    ∀ f ∈ cleanupScopedStaleFiles u stays dir pre,
      f ∉ cleanupEntry u stays (cleanupScopedStaleFiles u stays dir pre) e →
      ¬BelongsToStaying u stays dir f
  shared : ∀ pre e post, entries = pre ++ e :: post →
    ∀ f ∈ cleanupScopedStaleFiles u stays dir pre,
      f ∉ cleanupEntry u stays (cleanupScopedStaleFiles u stays dir pre) e →
      isSharedFile u f → cleanupEntry u stays (cleanupScopedStaleFiles u stays dir pre) e = []

/-- A longer stem that is not removed has the subtitle. -/
def Guarded (dir : List Entry) (e f : Entry) : Prop :=
  isSubtitle u f.name ∧ ∃ g ∈ dir, isStrm u g.name ∧ (g.isDir ∨ stays g.name) ∧
    len (stemOf e.name) < len (stemOf g.name) ∧ isSubtitleOf u (stemOf g.name) (stemOf f.name)

/-- The entry goes with a stale file, or as shared artwork. -/
def Passes (dir : List Entry) (g : Entry) : Prop :=
  isStale u stays g ∨ g.isDir = false ∧ (isSharedMediaSidecar u g.name ∨
    ∃ s ∈ dir, isStale u stays s ∧ stemOf s.name ≠ [] ∧ matchesStem u (stemOf s.name) g.name)

/-- Only subtitles that a longer stem guards belong to a file that stays and match a stale stem, and
a stale stem names shared artwork only where it is the last and nothing is to be left. -/
structure Clear (dir entries : List Entry) : Prop where
  owned : ∀ e ∈ dir, isStale u stays e → stemOf e.name ≠ [] → ∀ f ∈ dir, f.isDir = false →
    matchesStem u (stemOf e.name) f.name → BelongsToStaying u stays dir f →
    Guarded u stays dir e f
  shared : ∀ pre e post, entries = pre ++ e :: post → isStale u stays e → stemOf e.name ≠ [] →
    ∀ f ∈ dir, isSharedFile u f → matchesStem u (stemOf e.name) f.name →
    (∀ s ∈ post, ¬isStale u stays s) ∧ ∀ g ∈ dir, Passes u stays dir g

end Loop

/-! ### What the loop keeps and takes -/

section Run

variable {u : UnicodeCase} {stays : Text → Bool} {dir pre post entries : List Entry}
  {e f g : Entry}

theorem isStale_iff :
    isStale u stays e ↔ e.isDir = false ∧ isStrm u e.name ∧ stays e.name = false := by
  simp [isStale, and_assoc]

theorem cleanupEntry_eq : cleanupEntry u stays dir e =
    if isStale u stays e then removeStaleStrmAndSameStemSidecars u dir e.name else dir := by
  unfold cleanupEntry isStale
  cases e.isDir <;> cases isStrm u e.name <;> cases stays e.name <;> rfl

theorem shrinks : Sweep.Shrinks (cleanupEntry u stays) := by
  intro dir e
  rw [cleanupEntry_eq]
  split_ifs
  · exact removeStale_subset
  · exact List.Subset.refl dir

theorem taken_cases (hf : f ∈ dir) (hnot : f ∉ cleanupEntry u stays dir e) :
    isStale u stays e ∧ (f.name = e.name ∨ RemovedAsSidecar u dir e.name f ∨
      isSharedFile u f ∧ cleanupEntry u stays dir e = []) := by
  rw [cleanupEntry_eq] at hnot ⊢
  split_ifs at hnot ⊢ with hstale
  · exact ⟨hstale, removed_cases hf hnot⟩
  · exact absurd hf hnot

theorem isShared_of_isSharedFile (h : isSharedFile u f) :
    f.isDir = false ∧ isSharedMediaSidecar u f.name := by
  simpa [isSharedFile] using h

theorem matchesStem_of_removedAsSidecar {base : Text} (h : RemovedAsSidecar u dir base f) :
    matchesStem u (stemOf base) f.name := by
  have hsidecar := h.2.2
  rw [isSidecar, Bool.and_eq_true] at hsidecar
  exact hsidecar.1

/-- A name that is `.strm` is there until its own step. -/
theorem strm_mem (u : UnicodeCase) (stays : Text → Bool) (hdir : (dir.map Entry.name).Nodup) (hpre : pre ⊆ dir) (hg : g ∈ dir)
    (hstrm : isStrm u g.name) (h : isStale u stays g → g ∉ pre) :
    g ∈ cleanupScopedStaleFiles u stays dir pre := by
  by_contra hnot
  obtain ⟨a, e, b, rfl, hmem, hgone⟩ := Sweep.exists_step hg hnot
  obtain ⟨hstale, hname | hsidecar | hshared⟩ := taken_cases hmem hgone
  · have he : e ∈ a ++ e :: b := by simp
    have hge : g = e := List.inj_on_of_nodup_map hdir hg (hpre he) hname
    subst hge
    exact h hstale he
  · exact not_matchesStem_of_isStrm hstrm (matchesStem_of_removedAsSidecar hsidecar)
  · exact not_isSharedMediaSidecar_of_isStrm hstrm (isShared_of_isSharedFile hshared.1).2

theorem stale_not_mem (he : e ∈ pre) (hstale : isStale u stays e) :
    e ∉ cleanupScopedStaleFiles u stays dir pre := by
  obtain ⟨a, b, rfl⟩ := List.append_of_mem he
  refine Sweep.not_mem_foldl _ _ _ shrinks ?_
  rw [cleanupEntry_eq, if_pos hstale]
  exact not_mem_of_name rfl

theorem run_concat : cleanupScopedStaleFiles u stays dir (pre ++ [e]) =
    cleanupEntry u stays (cleanupScopedStaleFiles u stays dir pre) e := by
  rw [cleanupScopedStaleFiles, List.foldl_append, List.foldl_cons, List.foldl_nil,
    cleanupScopedStaleFiles]

theorem passes_of_not_mem (hdir : (dir.map Entry.name).Nodup) (hpre : pre ⊆ dir) (hg : g ∈ dir)
    (hnot : g ∉ cleanupScopedStaleFiles u stays dir pre) : Passes u stays dir g := by
  obtain ⟨a, e, b, rfl, hmem, hgone⟩ := Sweep.exists_step hg hnot
  have he : e ∈ dir := hpre (by simp)
  obtain ⟨hstale, hname | hsidecar | hshared⟩ := taken_cases hmem hgone
  · have hge : g = e := List.inj_on_of_nodup_map hdir hg he hname
    exact .inl (hge ▸ hstale)
  · exact .inr ⟨hsidecar.2.1, .inr ⟨e, he, hstale, hsidecar.1,
      matchesStem_of_removedAsSidecar hsidecar⟩⟩
  · have hg := isShared_of_isSharedFile hshared.1
    exact .inr ⟨hg.1, .inl hg.2⟩

/-- A file that matches a stale stem is removed in the step of it, unless another stem of the
directory is longer. -/
theorem removedAsSidecar_of_matchesStem (hstem : stemOf e.name ≠ []) (hfile : f.isDir = false)
    (hmatch : matchesStem u (stemOf e.name) f.name)
    (hlonger : isSubtitle u f.name → ∀ other ∈ dir, isStrm u other.name → other.name ≠ e.name →
      len (stemOf e.name) < len (stemOf other.name) →
      ¬isSubtitleOf u (stemOf other.name) (stemOf f.name)) :
    RemovedAsSidecar u dir e.name f := by
  refine ⟨hstem, hfile, ?_⟩
  rw [isSidecar, hmatch, Bool.true_and, Bool.not_eq_true', Bool.and_eq_false_imp]
  intro hsub
  rw [hasLongerStem, List.any_eq_false]
  intro other hother
  obtain ⟨hmem, hname⟩ := List.mem_filter.mp hother
  simp only [Bool.and_eq_true, decide_eq_true_eq]
  rintro ⟨⟨⟨hstrm, -⟩, hlen⟩, hof⟩
  exact hlonger hsub other hmem hstrm (of_decide_eq_true hname) hlen hof

theorem matchesStem_of_isSubtitle {stem name : Text} (h : isSubtitle u name) :
    matchesStem u stem name = isSubtitleOf u stem (stemOf name) := if_pos h

end Run

/-! ### Files of others -/

section Owned

variable {u : UnicodeCase} {stays : Text → Bool} {dir entries : List Entry}

/-- A stale file is no rival of a stem that stays and is at least as long. -/
theorem guarded_of_longer {e f other : Entry} (hother : other ∈ dir)
    (hbelongs : BelongsToStaying u stays dir f) (hsub : isSubtitle u f.name)
    (hstrm : isStrm u other.name) (hlen : len (stemOf e.name) < len (stemOf other.name))
    (hof : isSubtitleOf u (stemOf other.name) (stemOf f.name)) : Guarded u stays dir e f := by
  by_cases hstays : other.isDir ∨ stays other.name
  · exact ⟨hsub, other, hother, hstrm, hstays, hlen, hof⟩
  · obtain ⟨w, hw, -, hwstrm, hwstays, hwmatch, hmax⟩ := hbelongs
    have hfile : other.isDir = false := by simpa using (not_or.mp hstays).1
    have hle := hmax other hother hfile hstrm (by rw [matchesStem_of_isSubtitle hsub, hof])
    rw [matchesStem_of_isSubtitle hsub] at hwmatch
    exact ⟨hsub, w, hw, hwstrm, .inr hwstays, by omega, hwmatch⟩

theorem owned_of_right (hperm : entries.Perm dir) (h : Right u stays dir entries) :
    ∀ e ∈ dir, isStale u stays e → stemOf e.name ≠ [] → ∀ f ∈ dir, f.isDir = false →
      matchesStem u (stemOf e.name) f.name → BelongsToStaying u stays dir f →
      Guarded u stays dir e f := by
  intro e he hstale hstem f hf hfile hmatch hbelongs
  by_contra hguard
  obtain ⟨pre, post, rfl⟩ := List.append_of_mem (hperm.mem_iff.mpr he)
  by_cases hbefore : f ∈ cleanupScopedStaleFiles u stays dir pre
  · refine h.owned pre e post rfl f hbefore ?_ hbelongs
    rw [cleanupEntry_eq, if_pos hstale]
    refine not_mem_of_removedAsSidecar (isStale_iff.mp hstale).2.1
      (removedAsSidecar_of_matchesStem hstem hfile hmatch ?_)
    intro hsub other hother hstrm _ hlen hof
    exact hguard (guarded_of_longer (Sweep.foldl_subset shrinks pre dir hother) hbelongs hsub hstrm
      hlen hof)
  · obtain ⟨a, e', b, rfl, hmem, hgone⟩ := Sweep.exists_step hf hbefore
    exact h.owned a e' (b ++ e :: post) (by simp) f hmem hgone hbelongs

theorem owned_of_clear (hdir : (dir.map Entry.name).Nodup) (hperm : entries.Perm dir)
    (h : Clear u stays dir entries) {pre post : List Entry} {e f : Entry}
    (hcut : entries = pre ++ e :: post) (hf : f ∈ cleanupScopedStaleFiles u stays dir pre)
    (hgone : f ∉ cleanupEntry u stays (cleanupScopedStaleFiles u stays dir pre) e) :
    ¬BelongsToStaying u stays dir f := by
  intro hbelongs
  subst hcut
  have hpre : pre ⊆ dir := fun x hx => hperm.mem_iff.mp (by simp [hx])
  have he : e ∈ dir := hperm.mem_iff.mp (by simp)
  have hfdir : f ∈ dir := Sweep.foldl_subset shrinks pre dir hf
  obtain ⟨w, hw, hwfile, hwstrm, hwstays, hwmatch, -⟩ := id hbelongs
  obtain ⟨hstale, hname | hsidecar | hshared⟩ := taken_cases hf hgone
  · rw [hname] at hwmatch
    exact not_matchesStem_of_isStrm (isStale_iff.mp hstale).2.1 hwmatch
  · obtain ⟨hsub, g, hg, hgstrm, hgstays, hlen, hof⟩ := h.owned e he hstale hsidecar.1 f hfdir
      hsidecar.2.1 (matchesStem_of_removedAsSidecar hsidecar) hbelongs
    have hgstale : ¬isStale u stays g := by
      intro hgstale
      obtain ⟨hgfile, -, hgnot⟩ := isStale_iff.mp hgstale
      rcases hgstays with hgdir | hgstays
      · rw [hgfile] at hgdir
        cases hgdir
      · rw [hgnot] at hgstays
        cases hgstays
    have hgname : g.name ≠ e.name := by
      intro heq
      exact hgstale (List.inj_on_of_nodup_map hdir hg he heq ▸ hstale)
    have hgmem := strm_mem u stays hdir hpre hg hgstrm fun hs => absurd hs hgstale
    have hlonger : hasLongerStem u
        ((cleanupScopedStaleFiles u stays dir pre).filter (·.name ≠ e.name)) e.name (stemOf e.name)
        f.name := by
      refine List.any_eq_true.mpr ⟨g, List.mem_filter.mpr ⟨hgmem, decide_eq_true hgname⟩, ?_⟩
      simp [hgstrm, hgname, hlen, hof]
    have hnot := hsidecar.2.2
    rw [isSidecar, hsub, hlonger] at hnot
    simp at hnot
  · have hwstale : ¬isStale u stays w := by
      intro hwstale
      rw [(isStale_iff.mp hwstale).2.2] at hwstays
      cases hwstays
    have hkept := strm_mem u stays hdir (show pre ++ [e] ⊆ dir by simp [hpre, he]) hw hwstrm fun hs =>
      absurd hs hwstale
    rw [run_concat, hshared.2] at hkept
    cases hkept

end Owned

/-! ### Shared artwork -/

section Shared

variable {u : UnicodeCase} {stays : Text → Bool} {dir entries : List Entry}

theorem shared_of_right (hdir : (dir.map Entry.name).Nodup) (hperm : entries.Perm dir)
    (h : Right u stays dir entries) {pre post : List Entry} {e f : Entry}
    (hcut : entries = pre ++ e :: post) (hstale : isStale u stays e) (hstem : stemOf e.name ≠ [])
    (hf : f ∈ dir) (hshared : isSharedFile u f) (hmatch : matchesStem u (stemOf e.name) f.name) :
    (∀ s ∈ post, ¬isStale u stays s) ∧ ∀ g ∈ dir, Passes u stays dir g := by
  have hnodup : entries.Nodup := hperm.nodup_iff.mpr hdir.of_map
  subst hcut
  have hsub : pre ++ e :: post ⊆ dir := fun x hx => hperm.mem_iff.mp hx
  have hpre : pre ⊆ dir := fun x hx => hsub (by simp [hx])
  have he : e ∈ dir := hsub (by simp)
  have hstrm := (isStale_iff.mp hstale).2.1
  have hsplit := List.nodup_append.mp hnodup
  have hbefore : f ∈ cleanupScopedStaleFiles u stays dir pre := by
    by_contra hnot
    obtain ⟨a, e', b, rfl, hmem, hgone⟩ := Sweep.exists_step hf hnot
    have hnil := h.shared a e' (b ++ e :: post) (by simp) f hmem hgone hshared
    have hsubset : a ++ [e'] ⊆ a ++ e' :: b := by simp
    have hkept := strm_mem u stays hdir (List.Subset.trans hsubset hpre) he hstrm
      fun _ hin => hsplit.2.2 e (hsubset hin) e List.mem_cons_self rfl
    rw [run_concat, hnil] at hkept
    cases hkept
  have hfile := isShared_of_isSharedFile hshared
  have hgone : f ∉ cleanupEntry u stays (cleanupScopedStaleFiles u stays dir pre) e := by
    rw [cleanupEntry_eq, if_pos hstale]
    exact not_mem_of_removedAsSidecar hstrm (removedAsSidecar_of_matchesStem hstem hfile.1 hmatch
      fun hsub => absurd hsub (not_isSubtitle_of_isSharedMediaSidecar hfile.2))
  have hnil := h.shared pre e post rfl f hbefore hgone hshared
  have hrun : cleanupScopedStaleFiles u stays dir (pre ++ [e]) = [] := run_concat.trans hnil
  have hpre' : pre ++ [e] ⊆ dir := by simp [hpre, he]
  constructor
  · intro s hs hsstale
    have hmem := strm_mem u stays hdir hpre' (hsub (by simp [hs])) (isStale_iff.mp hsstale).2.1
      fun _ hin => by
        rw [List.mem_append, List.mem_singleton] at hin
        rcases hin with hin | rfl
        · exact hsplit.2.2 s hin s (by simp [hs]) rfl
        · exact (List.nodup_cons.mp hsplit.2.1).1 hs
    rw [hrun] at hmem
    cases hmem
  · intro g hg
    refine passes_of_not_mem hdir hpre' hg ?_
    rw [hrun]
    exact List.not_mem_nil

/-- Of the stale stems that a file matches the longest takes it, so that after all of them it is
gone where no other `.strm` name is left. -/
theorem exists_longest {g : Entry}
    (h : ∃ s ∈ dir, isStale u stays s ∧ stemOf s.name ≠ [] ∧ matchesStem u (stemOf s.name) g.name) :
    ∃ s ∈ dir, isStale u stays s ∧ stemOf s.name ≠ [] ∧ matchesStem u (stemOf s.name) g.name ∧
      ∀ v ∈ dir, isStale u stays v → stemOf v.name ≠ [] → matchesStem u (stemOf v.name) g.name →
        len (stemOf v.name) ≤ len (stemOf s.name) := by
  have hfinite : {s | s ∈ dir ∧ isStale u stays s ∧ stemOf s.name ≠ [] ∧
      matchesStem u (stemOf s.name) g.name}.Finite :=
    (List.finite_toSet dir).subset fun s hs => hs.1
  obtain ⟨s, ⟨hs, hstale, hstem, hmatch⟩, hmax⟩ :=
    Set.exists_max_image _ (fun s : Entry => len (stemOf s.name)) hfinite h
  exact ⟨s, hs, hstale, hstem, hmatch, fun v hv hvstale hvstem hvmatch =>
    hmax v ⟨hv, hvstale, hvstem, hvmatch⟩⟩

/-- Where all entries pass, the longest stale stem removes the file in its step. -/
theorem removedAsSidecar_of_longest {l : List Entry} (hl : l ⊆ dir)
    (hpass : ∀ g ∈ dir, Passes u stays dir g) {s g : Entry} (hstem : stemOf s.name ≠ [])
    (hfile : g.isDir = false) (hmatch : matchesStem u (stemOf s.name) g.name)
    (hmax : ∀ v ∈ dir, isStale u stays v → stemOf v.name ≠ [] →
      matchesStem u (stemOf v.name) g.name → len (stemOf v.name) ≤ len (stemOf s.name)) :
    RemovedAsSidecar u l s.name g := by
  refine removedAsSidecar_of_matchesStem hstem hfile hmatch ?_
  intro hsub other hother hstrm _ hlen hof
  rcases hpass other (hl hother) with hstale | ⟨-, hshared | ⟨v, -, -, -, hv⟩⟩
  · have hne : stemOf other.name ≠ [] := by
      intro hnil
      rw [hnil] at hlen
      exact Nat.not_lt_zero _ hlen
    have hle := hmax other (hl hother) hstale hne (by rw [matchesStem_of_isSubtitle hsub, hof])
    omega
  · exact not_isSharedMediaSidecar_of_isStrm hstrm hshared
  · exact not_matchesStem_of_isStrm hstrm hv

theorem shared_of_clear (hperm : entries.Perm dir) (h : Clear u stays dir entries)
    {pre post : List Entry} {e f : Entry} (hcut : entries = pre ++ e :: post)
    (hf : f ∈ cleanupScopedStaleFiles u stays dir pre)
    (hgone : f ∉ cleanupEntry u stays (cleanupScopedStaleFiles u stays dir pre) e)
    (hshared : isSharedFile u f) :
    cleanupEntry u stays (cleanupScopedStaleFiles u stays dir pre) e = [] := by
  have hsubset : cleanupScopedStaleFiles u stays dir pre ⊆ dir := Sweep.foldl_subset shrinks pre dir
  obtain ⟨hstale, hname | hsidecar | hnil⟩ := taken_cases hf hgone
  · have hstrm := (isStale_iff.mp hstale).2.1
    rw [← hname] at hstrm
    exact absurd (isShared_of_isSharedFile hshared).2 (not_isSharedMediaSidecar_of_isStrm hstrm)
  · obtain ⟨hlast, hpass⟩ := h.shared pre e post hcut hstale hsidecar.1 f (hsubset hf) hshared
      (matchesStem_of_removedAsSidecar hsidecar)
    have hplace : ∀ s ∈ dir, isStale u stays s → s ∈ pre ∨ s = e := by
      intro s hs hsstale
      have hin : s ∈ pre ++ e :: post := hcut ▸ hperm.mem_iff.mpr hs
      rw [List.mem_append, List.mem_cons] at hin
      rcases hin with hin | hin | hin
      · exact .inl hin
      · exact .inr hin
      · exact absurd hsstale (hlast s hin)
    rw [cleanupEntry_eq, if_pos hstale]
    refine removeStale_eq_nil (isStale_iff.mp hstale).2.1 hsidecar.1 fun g hg hgname hgkept => ?_
    rcases hpass g (hsubset hg) with hgstale | ⟨hgfile, hgshared | hgstem⟩
    · rcases hplace g (hsubset hg) hgstale with hin | rfl
      · exact absurd hg (stale_not_mem hin hgstale)
      · exact absurd rfl hgname
    · rw [isSharedFile, hgfile, hgshared]
      rfl
    · exfalso
      obtain ⟨s, hs, hsstale, hsstem, hsmatch, hmax⟩ := exists_longest hgstem
      rcases hplace s hs hsstale with hin | rfl
      · obtain ⟨a, b, rfl⟩ := List.append_of_mem hin
        refine Sweep.not_mem_foldl a s b shrinks ?_ hg
        rw [cleanupEntry_eq, if_pos hsstale]
        exact not_mem_of_removedAsSidecar (isStale_iff.mp hsstale).2.1
          (removedAsSidecar_of_longest (Sweep.foldl_subset shrinks a dir) hpass hsstem hgfile
            hsmatch hmax)
      · exact hgkept (removedAsSidecar_of_longest hsubset hpass hsstem hgfile hsmatch hmax)
  · exact hnil.2

end Shared

/-- In whatever order the entries of a directory come, no step removes what belongs to a file that
stays, and shared artwork goes only with all the rest, just where the names are clear. -/
theorem cleanup_right_iff (u : UnicodeCase) (stays : Text → Bool) (dir entries : List Entry)
    (hdir : (dir.map Entry.name).Nodup) (hperm : entries.Perm dir) :
    Right u stays dir entries ↔ Clear u stays dir entries := by
  constructor
  · intro h
    exact ⟨owned_of_right hperm h, fun pre e post hcut hstale hstem f hf hshared hmatch =>
      shared_of_right hdir hperm h hcut hstale hstem hf hshared hmatch⟩
  · intro h
    exact ⟨fun pre e post hcut f hf hgone => owned_of_clear hdir hperm h hcut hf hgone,
      fun pre e post hcut f hf hgone hshared => shared_of_clear hperm h hcut hf hgone hshared⟩

/-- Two versions of a film with their subtitles. -/
def versions : List Entry :=
  ["A.strm", "A.en.srt", "A.B.strm", "A.B.en.srt"].map fun name => ⟨name.toList, false⟩

theorem cleanup_right_iff_versions : (versions.map Entry.name).Nodup ∧
    versions.reverse.Perm versions ∧
    (Right asciiCase (· = "A.B.strm".toList) versions versions.reverse ↔
      Clear asciiCase (· = "A.B.strm".toList) versions versions.reverse) :=
  ⟨by decide, List.reverse_perm _, cleanup_right_iff _ _ _ _ (by decide) (List.reverse_perm _)⟩

/-- A film, and another one whose name goes on. -/
def posters : List Entry :=
  ["A.strm", "A-poster.strm", "A-poster.jpg"].map fun name => ⟨name.toList, false⟩

/-- The image of `A-poster.strm`, which stays, goes with `A.strm`. -/
theorem image_of_other_removed :
    ¬Right asciiCase (· = "A-poster.strm".toList) posters posters := by
  intro h
  exact h.owned [] ⟨"A.strm".toList, false⟩ _ rfl ⟨"A-poster.jpg".toList, false⟩ (by decide)
    (by decide) ⟨⟨"A-poster.strm".toList, false⟩, by decide⟩

end AllInOneBackup.LitePan.Strm.Cleanup
