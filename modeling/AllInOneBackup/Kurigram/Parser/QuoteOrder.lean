import AllInOneBackup.Kurigram.Parser.QuoteLines

/-! What quoting leaves of the lines of a text. A line inside an expandable quote loses its first
character whether that is a delimiter or not, and a quote that is never closed takes the plain
quote at the beginning of the text into itself, after its own lines. -/

namespace AllInOneBackup.Kurigram.Markdown

open Quoting

/-! ### Text without its tags -/

/-- The lines that a line of the output is made of. -/
def Line.parts : Line → List Str
  | .plain s => [s]
  | .quote _ first rest => (first :: rest).map (·.2)

theorem deleteTags_marks (line : Line) : deleteTags line.marks = Str.joinLines line.parts := by
  have hchars : ∀ s : Str, (s.map Mark.char).filterMap Mark.char? = s := by
    intro s
    rw [List.filterMap_map]
    exact List.filterMap_some
  cases line with
  | plain s => exact (hchars s).trans List.intercalate_singleton.symm
  | quote e first rest =>
    rw [deleteTags, Line.marks, List.cons_append, List.filterMap_cons_none rfl,
      List.filterMap_append, hchars]
    exact List.append_nil _

theorem deleteTags_intercalate (lines : List (List Mark)) :
    deleteTags ([Mark.char 0x0A].intercalate lines) = Str.joinLines (lines.map deleteTags) := by
  induction lines with
  | nil => rfl
  | cons l lines ih =>
    cases lines with
    | nil =>
      rw [List.intercalate_singleton]
      exact List.intercalate_singleton.symm
    | cons m lines =>
      rw [List.intercalate_cons_cons, deleteTags, List.filterMap_append, List.filterMap_append]
      rw [deleteTags] at ih
      rw [ih]
      exact List.intercalate_cons_cons.symm

theorem contentFrom_map_snd (i : ℕ) (lines : List (Option Line)) :
    (contentFrom id i lines).map (·.2) = (lines.filterMap id).flatMap Line.parts := by
  induction lines generalizing i with
  | nil => rfl
  | cons x lines ih =>
    cases x with
    | none => exact ih (i + 1)
    | some line =>
      have hcons : (some line :: lines).filterMap id = line :: lines.filterMap id := rfl
      rw [hcons, List.flatMap_cons, ← ih (i + 1)]
      cases line with
      | plain s => rfl
      | quote e first rest =>
        rw [contentFrom, List.map_append]
        rfl

/-- Without its tags the text is its lines, joined. -/
theorem deleteTags_quoted (text : Str) :
    deleteTags (quoted text false) =
      Str.joinLines ((quoteLines text.splitlines false).outLines.map (·.2)) := by
  rw [quoted, deleteTags_intercalate, outLines, contentFrom_map_snd, Str.joinLines_flatMap,
    List.map_map]
  · congr 2
    funext line
    exact deleteTags_marks line
  · intro line
    cases line <;> simp [Line.parts]

/-! ### Texts whose lines stay in order -/

variable {lines : List Str} {D : List (Option Line)} {st : Quoting}

/-- The text of the first line of the list begins with a delimiter when the first line did. -/
theorem Expanding.exists_head {k : ℕ} (h : Expanding lines D k st) (hne : lines ≠ []) :
    ∃ l, st.textLines.head? = some (some l) ∧
      (blockquoteDelim <+: l.text ↔
        ∃ line, lines.head? = some line ∧ blockquoteDelim <+: line) := by
  rw [h.split]
  cases D with
  | nil =>
    obtain ⟨line, rest, rfl⟩ := List.exists_cons_of_ne_nil hne
    refine ⟨.plain line, rfl, ?_⟩
    simp
  | cons d D =>
    obtain ⟨l, rfl, hl⟩ := h.head d rfl
    exact ⟨l, rfl, hl⟩

/-- Merging what the first pass has left before the second pass changes nothing, when the second
pass begins with merging it. -/
theorem forLines_merged {line : Line} (hhead : st.textLines.head? = some (some line))
    (hstarts : ¬blockquoteDelim <+: line.text)
    (hempty : (st.createBlockquote false).toQuoteList = [])
    (hmerged : ∀ s, (st.createBlockquote false).textLines.head? = some (some (.plain s)) →
      ¬blockquoteDelim <+: s) :
    forLines (quoteStep false) st = forLines (quoteStep false) (st.createBlockquote false) := by
  have hlen := createBlockquote_length false st
  obtain ⟨x, rest, hcons⟩ := List.exists_cons_of_ne_nil (l := st.textLines) fun hnil => by
    simp [hnil] at hhead
  have hrange : List.range st.textLines.length = 0 :: (List.range rest.length).map (· + 1) := by
    rw [hcons, List.length_cons, List.range_succ_eq_map]
  have hfirst : atLine (quoteStep false) st 0 = st.createBlockquote false := by
    rw [List.head?_eq_getElem?] at hhead
    rw [atLine_some hhead, quoteStep, if_neg hstarts]
  have hagain : atLine (quoteStep false) (st.createBlockquote false) 0 =
      st.createBlockquote false := by
    have hidle : (st.createBlockquote false).createBlockquote false =
        st.createBlockquote false := by
      generalize st.createBlockquote false = st' at hempty
      rw [createBlockquote, hempty]
    unfold atLine
    rw [← List.head?_eq_getElem?]
    split
    · rename_i l hl
      rw [quoteStep, if_neg ?_, hidle]
      cases l with
      | plain s =>
        rw [text_plain]
        exact hmerged s hl
      | quote e first rest => exact quote_not_starts e first rest
    · rfl
  rw [forLines, forLines, hlen, hrange, List.foldl_cons, List.foldl_cons, hfirst, hagain]

/-- The lines come out in their order unless a queue that was left open meets a quote at the
beginning of the text. -/
theorem Expanding.outLines_eq (h : Expanding lines D lines.length st)
    (hfirst : opened lines = true → ∀ line, lines.head? = some line → ¬blockquoteDelim <+: line) :
    ((forLines (quoteStep false) st).createBlockquote false).outLines = kept lines := by
  obtain ⟨P', hP', -, hnil, hcontent, hmerged⟩ := merge false st h.done (le_refl _) h.split h.queue
    h.content
  rw [List.drop_length, List.map_nil, List.append_nil] at hP'
  have hsame : forLines (quoteStep false) st =
      forLines (quoteStep false) (st.createBlockquote false) := by
    cases hin : st.insideBlockquote with
    | false =>
      have hqueue : st.toQuoteList = [] := by
        rw [h.queue, h.shut hin, List.drop_eq_nil_of_le (List.length_take_le _ _)]
      rw [show st.createBlockquote false = st by rw [createBlockquote, hqueue]]
    | true =>
      have hopen : opened lines = true := by
        rw [← hin, h.inside, List.take_length]
      have hne : lines ≠ [] := by
        rintro rfl
        cases hopen
      obtain ⟨l, hhead, hl⟩ := h.exists_head hne
      have hstarts : ¬blockquoteDelim <+: l.text := by
        rw [hl]
        rintro ⟨line, hline, hp⟩
        exact hfirst hopen line hline hp
      refine forLines_merged hhead hstarts hnil ?_
      intro s hs
      rw [hP'] at hs
      cases D with
      | nil => exact absurd (List.mem_of_head? hs) (hmerged.quoted s)
      | cons d D =>
        rw [h.split] at hhead
        obtain rfl : l = .plain s := by
          have := hhead.symm.trans hs
          simpa using this
        rwa [text_plain] at hstarts
  rw [hsame, quotePass_outLines hnil, hP', hcontent, ← length_kept, List.take_length]

/-! ### Texts whose first line is moved -/

/-- The first line of the text is behind the line `a`, in the queue or in a quote. -/
inductive Behind (a : ℕ) (st : Quoting) : Prop
  | queued {t l : Str} {rest : List (ℕ × Str)} (hqueue : st.toQuoteList = (a, t) :: rest)
      (hfirst : 0 ∈ rest.map (·.1)) (hrest : a ∉ rest.map (·.1))
      (hline : st.textLines[a]? = some (some (.plain l))) (hstarts : ¬blockquoteDelim <+: l)
  | quoted {e : Bool} {t : Str} {rest : List (ℕ × Str)}
      (hline : st.textLines[a]? = some (some (.quote e (a, t) rest)))
      (hfirst : 0 ∈ rest.map (·.1)) (hqueue : a ∉ st.toQuoteList.map (·.1))

theorem getElem?_clear {a : ℕ} {rest : List (ℕ × Str)} (h : a ∉ rest.map (·.1))
    (ls : List (Option Line)) :
    (rest.foldl (fun lines lineToRemove => lines.set lineToRemove.1 none) ls)[a]? = ls[a]? := by
  induction rest generalizing ls with
  | nil => rfl
  | cons r rest ih =>
    rw [List.map_cons, List.mem_cons, not_or] at h
    rw [List.foldl_cons, ih h.2, List.getElem?_set_ne fun heq => h.1 heq.symm]

theorem Behind.merge {a : ℕ} (h : Behind a st) : Behind a (st.createBlockquote false) := by
  cases h with
  | @queued t l rest hqueue hfirst hrest hline hstarts =>
    have ha : a < st.textLines.length := (List.getElem?_eq_some_iff.mp hline).1
    refine @Behind.quoted _ _ false t rest ?_ hfirst ?_
    · simp only [createBlockquote, hqueue, getElem?_clear hrest, List.getElem?_set_self ha]
    · simp [createBlockquote, hqueue]
  | @quoted e t rest hline hfirst hqueue =>
    unfold createBlockquote
    split
    · exact .quoted hline hfirst hqueue
    · rename_i first others heq
      rw [heq, List.map_cons, List.mem_cons, not_or] at hqueue
      refine @Behind.quoted _ _ e t rest ?_ hfirst (by simp)
      rw [getElem?_clear hqueue.2, List.getElem?_set_ne fun heq => hqueue.1 heq.symm, hline]

theorem Behind.step {a : ℕ} (h : Behind a st) (k : ℕ) :
    Behind a (atLine (quoteStep false) st k) := by
  unfold atLine
  split
  · rename_i line hk
    unfold quoteStep
    split_ifs with hstarts
    · have hother : a ≠ k := by
        rintro rfl
        cases h with
        | queued _ _ _ hline hno =>
          cases hk.symm.trans hline
          rw [text_plain] at hstarts
          exact hno hstarts
        | quoted hline =>
          cases hk.symm.trans hline
          exact quote_not_starts _ _ _ hstarts
      cases h with
      | @queued t l rest hqueue hfirst hrest hline hno =>
        refine @Behind.queued _ _ t l (rest ++ [(k, stripDelim blockquoteDelim line.text)])
          ?_ ?_ ?_ hline hno
        · simp [enqueue, hqueue]
        · rw [List.map_append, List.mem_append]
          exact .inl hfirst
        · rw [List.map_append, List.mem_append, not_or]
          exact ⟨hrest, by simpa using hother⟩
      | quoted hline hfirst hqueue =>
        refine .quoted hline hfirst ?_
        simp only [enqueue, List.map_append, List.mem_append, not_or]
        exact ⟨hqueue, by simpa using hother⟩
    · exact h.merge
  · exact h

/-- Lines that are behind another line are not in their order. -/
theorem Behind.outLines_ne {a : ℕ} (h : Behind a st) (n : ℕ) :
    (st.createBlockquote false).outLines.map (·.1) ≠ List.range n := by
  intro heq
  cases h.merge with
  | queued hqueue =>
    rw [createBlockquote_toQuoteList] at hqueue
    cases hqueue
  | @quoted e t rest hline hfirst =>
    obtain ⟨A, B, hsplit⟩ := List.append_of_mem (List.mem_of_getElem? hline)
    have hsub : ((a, t) :: rest).Sublist (st.createBlockquote false).outLines := by
      rw [outLines, hsplit, contentFrom_append, contentFrom]
      exact (List.sublist_append_left _ _).trans (List.sublist_append_right _ _)
    have hsorted : (a :: rest.map (·.1)).Pairwise (· < ·) := by
      have hmap := hsub.map (·.1)
      rw [heq] at hmap
      exact List.pairwise_lt_range.sublist hmap
    exact absurd (List.rel_of_pairwise_cons hsorted hfirst) (Nat.not_lt_zero a)

/-- The plain quote at the beginning goes into the queue that was left open. -/
theorem Expanding.behind (h : Expanding lines D lines.length st) (hopen : opened lines = true)
    {line : Str} (hline : lines.head? = some line) (hstarts : blockquoteDelim <+: line) :
    Behind D.length (forLines (quoteStep false) st) := by
  have hin : st.insideBlockquote = true := by rw [h.inside, List.take_length, hopen]
  obtain ⟨hlt, first, hfirst, hdelim⟩ := h.unclosed hin
  have hne : lines ≠ [] := by
    rintro rfl
    cases hline
  obtain ⟨l, hhead, hl⟩ := h.exists_head hne
  have hlstarts := hl.mpr ⟨line, hline, hstarts⟩
  have hstart : Behind D.length (atLine (quoteStep false) st 0) := by
    rw [List.head?_eq_getElem?] at hhead
    rw [atLine_some hhead, quoteStep, if_pos hlstarts]
    have hzero : D.length ≠ 0 := by
      intro hzero
      rw [hzero, ← List.head?_eq_getElem?, hline] at hfirst
      cases hfirst
      exact not_starts_of_expandable hdelim hstarts
    have hplain : st.textLines[D.length]? = some (some (.plain first)) := by
      rw [h.split, List.getElem?_append_right (le_refl _), List.getElem?_map, List.getElem?_drop,
        Nat.sub_self, Nat.add_zero, hfirst]
      rfl
    have hqueue := @kept_slice_fst lines D.length _ (le_refl _)
    rw [← h.queue, show lines.length - D.length = (lines.length - D.length - 1) + 1 by omega,
      List.range'_succ] at hqueue
    obtain ⟨⟨a, t⟩, rest, hcons⟩ := List.exists_cons_of_ne_nil (l := st.toQuoteList) fun hnil => by
      simp [hnil] at hqueue
    rw [hcons, List.map_cons, List.cons.injEq] at hqueue
    obtain ⟨rfl, hrest⟩ := hqueue
    refine @Behind.queued _ _ t first (rest ++ [(0, stripDelim blockquoteDelim l.text)])
      ?_ ?_ ?_ hplain (not_starts_of_expandable hdelim)
    · simp [enqueue, hcons]
    · simp
    · rw [List.map_append, hrest, List.mem_append, not_or]
      refine ⟨fun hmem => ?_, by simpa using hzero⟩
      have := (List.mem_range'_1.mp hmem).1
      omega
  have hrun : (st.textLines.length = 0 ∧ forLines (quoteStep false) st = st) ∨
      Behind D.length (forLines (quoteStep false) st) := by
    refine forLines_induct (I := fun k st' => (k = 0 ∧ st' = st) ∨ Behind D.length st')
      (.inl ⟨rfl, rfl⟩) ?_
    rintro k - st' (⟨rfl, rfl⟩ | hbehind)
    · exact .inr hstart
    · exact .inr (hbehind.step k)
  refine hrun.resolve_left fun hzero => ?_
  rw [List.length_eq_zero_iff.mp hzero.1] at hhead
  cases hhead

/-! ### What a line may lose -/

/-- What may be taken away before a line. -/
def delims : List Str := [[], str ">", str "> ", str "**>", str "**> "]

/-- `s` is the line without one delimiter before it, and without the end of an expandable quote
where it ends one. -/
def Differs (r : Role) (line s : Str) : Prop :=
  ∃ d ∈ delims, line = d ++ s ∨ r = .closes ∧ line = d ++ s ++ blockquoteExpandableEndDelim

theorem stripDelim_spec {delim line : Str} (h : delim <+: line) :
    line = delim ++ stripDelim delim line ∨ line = delim ++ str " " ++ stripDelim delim line := by
  unfold stripDelim
  split_ifs with hspace
  · right
    obtain ⟨t, rfl⟩ := hspace
    have hlen : delim.length + 1 = (delim ++ str " ").length := by simp [str]
    rw [hlen, List.drop_left]
  · left
    obtain ⟨t, rfl⟩ := h
    rw [Nat.add_zero, List.drop_left]

theorem unwrap_spec (line : Str) :
    line = unwrap line ∨ line = str ">" ++ unwrap line ∨ line = str "> " ++ unwrap line := by
  by_cases h : blockquoteDelim <+: line
  · rw [unwrap_of_starts h]
    exact .inr (stripDelim_spec h)
  · exact .inl (if_neg h).symm

/-- What closes a quote is still at the end of the line without its delimiter. -/
theorem stripEnd_unwrap {line : Str} (h : blockquoteExpandableEndDelim <:+ line) :
    unwrap line = stripEnd (unwrap line) ++ blockquoteExpandableEndDelim := by
  have hend : blockquoteExpandableEndDelim <:+ unwrap line := by
    generalize hu : unwrap line = u
    have hspec := unwrap_spec line
    rw [hu] at hspec
    rcases hspec with heq | heq | heq
    · rwa [← heq]
    · rw [heq] at h
      simpa [blockquoteExpandableEndDelim, str, List.suffix_cons_iff] using h
    · rw [heq] at h
      simpa [blockquoteExpandableEndDelim, str, List.suffix_cons_iff] using h
  obtain ⟨t, ht⟩ := hend
  rw [← ht, stripEnd, List.length_append, Nat.add_sub_cancel, List.take_left]

theorem differs_strip {inside : Bool} {line : Str}
    (h : role inside line = .within → line = [] ∨ blockquoteDelim <+: line) :
    Differs (role inside line) line (strip line (role inside line)) := by
  cases hr : role inside line with
  | opens =>
    rcases stripDelim_spec (of_role_opens hr).2 with heq | heq
    · exact ⟨str "**>", by decide, .inl heq⟩
    · exact ⟨str "**> ", by decide, .inl heq⟩
  | within =>
    rcases h hr with rfl | hstarts
    · exact ⟨[], by decide, .inl (by decide)⟩
    · rcases stripDelim_spec hstarts with heq | heq
      · exact ⟨str ">", by decide, .inl heq⟩
      · exact ⟨str "> ", by decide, .inl heq⟩
  | closes =>
    have hend := stripEnd_unwrap (of_role_closes hr).2
    have hspec := unwrap_spec line
    rw [hend] at hspec
    rcases hspec with heq | heq | heq
    · exact ⟨[], by decide, .inr ⟨rfl, heq⟩⟩
    · exact ⟨str ">", by decide, .inr ⟨rfl, by rwa [List.append_assoc]⟩⟩
    · exact ⟨str "> ", by decide, .inr ⟨rfl, by rwa [List.append_assoc]⟩⟩
  | outside =>
    rcases unwrap_spec line with heq | heq | heq
    · exact ⟨[], by decide, .inl heq⟩
    · exact ⟨str ">", by decide, .inl heq⟩
    · exact ⟨str "> ", by decide, .inl heq⟩

theorem within_of_differs {line : Str} (h : Differs .within line (strip line .within)) :
    line = [] ∨ blockquoteDelim <+: line := by
  by_contra hno
  obtain ⟨hne, hstarts⟩ := not_or.mp hno
  have hspace : ¬blockquoteDelim ++ str " " <+: line :=
    fun h => hstarts ((List.prefix_append _ _).trans h)
  obtain ⟨c, rest, rfl⟩ := List.exists_cons_of_ne_nil hne
  have hstrip : strip (c :: rest) .within = rest := by
    rw [strip, stripDelim, if_neg hspace]
    rfl
  rw [hstrip] at h
  obtain ⟨d, hd, heq | ⟨hr, -⟩⟩ := h
  · have hlen : d.length = 1 := by
      have := congrArg List.length heq
      rw [List.length_append, List.length_cons] at this
      omega
    have hdelim : d = blockquoteDelim := by
      simp only [delims, List.mem_cons, List.not_mem_nil, or_false] at hd
      rcases hd with rfl | rfl | rfl | rfl | rfl <;> first | rfl | cases hlen
    rw [heq, hdelim] at hstarts
    exact hstarts (List.prefix_append _ _)
  · cases hr

/-- Without its tags the text is the lines in their order, each without its delimiters. -/
structure Kept (text : Str) : Prop where
  joined : deleteTags (quoted text false) =
    Str.joinLines ((quoteLines text.splitlines false).outLines.map (·.2))
  order : (quoteLines text.splitlines false).outLines.map (·.1) =
    List.range text.splitlines.length
  each : ∀ l ∈ (quoteLines text.splitlines false).outLines, ∀ line,
    text.splitlines[l.1]? = some line → Differs (roleAt text.splitlines l.1 line) line l.2

/-- The lines are kept exactly when no line inside an expandable quote begins with another
character than a delimiter, and no quote that is left open meets a quote at the beginning. -/
theorem kept_iff (text : Str) :
    Kept text ↔
      (∀ i line, text.splitlines[i]? = some line → roleAt text.splitlines i line = .within →
        line = [] ∨ blockquoteDelim <+: line) ∧
      (opened text.splitlines = true → ∀ line, text.splitlines.head? = some line →
        ¬blockquoteDelim <+: line) := by
  obtain ⟨D, hD⟩ := expandablePass_spec text.splitlines
  have hfinal : quoteLines text.splitlines false = (forLines (quoteStep false)
      (forLines (expandableStep false) (unquoted text.splitlines))).createBlockquote false := rfl
  generalize forLines (expandableStep false) (unquoted text.splitlines) = st at hD hfinal
  constructor
  · intro h
    have hfirst : opened text.splitlines = true → ∀ line, text.splitlines.head? = some line →
        ¬blockquoteDelim <+: line := by
      intro hopen line hline hstarts
      have hbehind := hD.behind hopen hline hstarts
      exact hbehind.outLines_ne _ (hfinal ▸ h.order)
    refine ⟨fun i line hline hrole => ?_, hfirst⟩
    have hmem : (i, strip line .within) ∈ (quoteLines text.splitlines false).outLines := by
      rw [hfinal, hD.outLines_eq hfirst, ← hrole, kept]
      apply List.mem_of_getElem? (i := i)
      rw [List.getElem?_mapIdx, hline]
      rfl
    have hdiffers := h.each _ hmem line hline
    rw [hrole] at hdiffers
    exact within_of_differs hdiffers
  · rintro ⟨hwithin, hfirst⟩
    have hlines : (quoteLines text.splitlines false).outLines = kept text.splitlines := by
      rw [hfinal, hD.outLines_eq hfirst]
    constructor
    · exact deleteTags_quoted text
    · rw [hlines, kept_map_fst]
    · intro l hl line hline
      rw [hlines] at hl
      obtain ⟨i, hi, rfl⟩ := List.mem_mapIdx.mp hl
      obtain rfl : text.splitlines[i] = line := by
        rw [List.getElem?_eq_getElem hi] at hline
        exact Option.some.inj hline
      exact differs_strip (hwithin i _ hline)

/-- The second line of the quote loses its first character. -/
theorem quote_loses_character : ¬∀ text, Kept text := by
  intro h
  have hkept := h (str "**>a\nbc\nd||")
  have hmem : (1, str "c") ∈
      (quoteLines (Str.splitlines (str "**>a\nbc\nd||")) false).outLines := by decide
  have hdiffers := hkept.each _ hmem (str "bc") (by decide)
  have hrole : roleAt (Str.splitlines (str "**>a\nbc\nd||")) 1 (str "bc") = .within := by decide
  rw [hrole] at hdiffers
  exact absurd (within_of_differs hdiffers) (by decide)

example : (quoteLines [str ">x", str "**>y"] false).outLines = [(1, str "y"), (0, str "x")] := by
  decide

end AllInOneBackup.Kurigram.Markdown
