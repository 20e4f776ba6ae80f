import AllInOneBackup.Kurigram.Parser.Quotes

/-! Which lines the quoted text is made of. Every line that is still to come stands in the list, in
the queue or in a quote, so that a pass moves lines and loses none. They come out in their order
unless a queue that the first pass left open goes on with the first line of the text. -/

namespace AllInOneBackup.Kurigram.Markdown

open Quoting

/-! ### The lines a list of text lines is made of -/

/-- The numbered lines in a list whose first element has number `i`, those that were not quoted
with `f` applied to them. -/
def contentFrom (f : Str → Str) : ℕ → List (Option Line) → List (ℕ × Str)
  | _, [] => []
  | i, none :: lines => contentFrom f (i + 1) lines
  | i, some (.plain s) :: lines => (i, f s) :: contentFrom f (i + 1) lines
  | i, some (.quote _ first rest) :: lines => first :: rest ++ contentFrom f (i + 1) lines

/-- The lines of the text, each with the number of the input line it was made from. -/
def Quoting.outLines (st : Quoting) : List (ℕ × Str) := contentFrom id 0 st.textLines

/-- The numbers of the elements that are not `None`. -/
def positions : ℕ → List (Option Line) → List ℕ
  | _, [] => []
  | i, none :: lines => positions (i + 1) lines
  | i, some _ :: lines => i :: positions (i + 1) lines

theorem contentFrom_append (f : Str → Str) (i : ℕ) (A B : List (Option Line)) :
    contentFrom f i (A ++ B) = contentFrom f i A ++ contentFrom f (i + A.length) B := by
  induction A generalizing i with
  | nil => rfl
  | cons a A ih =>
    have hlen : i + (a :: A).length = i + 1 + A.length := by rw [List.length_cons]; omega
    rw [List.cons_append, hlen]
    cases a with
    | none => simp only [contentFrom, ih]
    | some line => cases line <;> simp only [contentFrom, ih, List.cons_append, List.append_assoc]

theorem positions_append (i : ℕ) (A B : List (Option Line)) :
    positions i (A ++ B) = positions i A ++ positions (i + A.length) B := by
  induction A generalizing i with
  | nil => rfl
  | cons a A ih =>
    have hlen : i + (a :: A).length = i + 1 + A.length := by rw [List.length_cons]; omega
    rw [List.cons_append, hlen]
    cases a with
    | none => simp only [positions, ih]
    | some line => simp only [positions, ih, List.cons_append]

@[simp] theorem contentFrom_replicate (f : Str → Str) (i n : ℕ) :
    contentFrom f i (List.replicate n none) = [] := by
  induction n generalizing i with
  | zero => rfl
  | succ n ih => rw [List.replicate_succ, contentFrom, ih]

/-! ### Merging the queue -/

/-- The queue `q` was merged where the lines `P` stood. -/
structure Merged (q : List (ℕ × Str)) (P P' : List (Option Line)) : Prop where
  length : P'.length = P.length
  content : ∀ f i, contentFrom f i P' = q
  quoted : ∀ s, some (.plain s) ∉ P'
  head : ∀ line, P.head? = some (some line) → ∃ e first rest, P'.head? =
    some (some (.quote e first rest))

theorem clear_eq (D P R : List (Option Line)) (rest : List (ℕ × Str))
    (h : rest.map (·.1) = positions D.length P) :
    rest.foldl (fun lines lineToRemove => lines.set lineToRemove.1 none) (D ++ P ++ R) =
      D ++ List.replicate P.length none ++ R := by
  induction P generalizing D rest with
  | nil =>
    rw [List.map_eq_nil_iff.mp h]
    rfl
  | cons p P ih =>
    have happend : ∀ x : Option Line, D ++ x :: P ++ R = D ++ [x] ++ P ++ R := fun x => by simp
    have hnone : D ++ List.replicate (p :: P).length none ++ R =
        D ++ [none] ++ List.replicate P.length none ++ R := by
      rw [List.length_cons, List.replicate_succ]
      simp
    rw [happend, hnone]
    cases p with
    | none => exact ih (D ++ [none]) rest (by rw [h, positions, List.length_append]; rfl)
    | some line =>
      obtain ⟨r, rest, rfl⟩ : ∃ r rest', rest = r :: rest' :=
        List.exists_cons_of_ne_nil fun hnil => by simp [hnil, positions] at h
      rw [positions, List.map_cons, List.cons.injEq] at h
      have hset : (D ++ [some line] ++ P ++ R).set r.1 none = D ++ [none] ++ P ++ R := by
        simp [h.1]
      rw [List.foldl_cons, hset]
      exact ih (D ++ [none]) rest (by rw [h.2, List.length_append]; rfl)

theorem createBlockquote_eq (e : Bool) (st : Quoting) (D P R : List (Option Line))
    (hlines : st.textLines = D ++ P ++ R)
    (hqueue : st.toQuoteList.map (·.1) = positions D.length P) :
    ∃ P', (st.createBlockquote e).textLines = D ++ P' ++ R ∧
      (st.createBlockquote e).toQuoteList = [] ∧ Merged st.toQuoteList P P' := by
  induction P generalizing D with
  | nil =>
    have hnil : st.toQuoteList = [] := List.map_eq_nil_iff.mp hqueue
    refine ⟨[], ?_, ?_, ?_⟩
    · rw [createBlockquote, hnil, hlines]
    · rw [createBlockquote, hnil]
      exact hnil
    · rw [hnil]
      exact ⟨rfl, fun _ _ => rfl, fun _ => List.not_mem_nil, fun line h => by cases h⟩
  | cons p P ih =>
    cases p with
    | none =>
      obtain ⟨P', hP', hnil, hmerged⟩ := ih (D ++ [none]) (by rw [hlines]; simp)
        (by rw [hqueue, positions, List.length_append]; rfl)
      refine ⟨none :: P', by rw [hP']; simp, hnil, ?_⟩
      constructor
      · rw [List.length_cons, hmerged.length, List.length_cons]
      · intro f i
        exact hmerged.content f (i + 1)
      · intro s h
        exact hmerged.quoted s ((List.mem_cons.mp h).resolve_left (by simp))
      · intro line h
        cases h
    | some line =>
      obtain ⟨r, rest, hcons⟩ := List.exists_cons_of_ne_nil (l := st.toQuoteList) fun hnil => by
        simp [hnil, positions] at hqueue
      rw [hcons, positions, List.map_cons, List.cons.injEq] at hqueue
      refine ⟨some (.quote e r rest) :: List.replicate P.length none, ?_, ?_, ?_⟩
      · have hset : (D ++ some line :: P ++ R).set r.1 (some (.quote e r rest)) =
            D ++ [some (.quote e r rest)] ++ P ++ R := by
          simp [hqueue.1]
        simp only [createBlockquote, hcons, hlines, hset]
        rw [clear_eq (D ++ [some (Line.quote e r rest)]) P R rest
          (by rw [hqueue.2, List.length_append]; rfl)]
        simp
      · simp only [createBlockquote, hcons]
      · rw [hcons]
        constructor
        · rw [List.length_cons, List.length_replicate, List.length_cons]
        · intro f i
          rw [contentFrom, contentFrom_replicate, List.append_nil]
        · intro s h
          simp [List.mem_replicate] at h
        · intro _ _
          exact ⟨e, r, rest, rfl⟩

/-! ### Loops over the lines -/

theorem forLines_induct {body : ℕ → Str → Quoting → Quoting} {I : ℕ → Quoting → Prop}
    {st : Quoting}
    (hzero : I 0 st)
    (hstep : ∀ k < st.textLines.length, ∀ st', I k st' → I (k + 1) (atLine body st' k)) :
    I st.textLines.length (forLines body st) := by
  unfold forLines
  generalize hn : st.textLines.length = n
  replace hstep : ∀ k < n, ∀ st', I k st' → I (k + 1) (atLine body st' k) := hn ▸ hstep
  clear hn
  induction n with
  | zero => exact hzero
  | succ n ih =>
    rw [List.range_succ, List.foldl_concat]
    exact hstep n (by omega) _ (ih fun k hk => hstep k (by omega))

theorem getElem?_middle {α : Type*} (D R : List α) (x : α) :
    (D ++ x :: R)[D.length]? = some x := by
  rw [List.getElem?_append_right (le_refl _), Nat.sub_self, List.getElem?_cons_zero]

theorem atLine_some {body : ℕ → Str → Quoting → Quoting} {st : Quoting} {k : ℕ} {line : Line}
    (h : st.textLines[k]? = some (some line)) : atLine body st k = body k line.text st := by
  rw [atLine, h]

theorem atLine_none {body : ℕ → Str → Quoting → Quoting} {st : Quoting} {k : ℕ}
    (h : st.textLines[k]? = some none) : atLine body st k = st := by
  rw [atLine, h]

@[simp] theorem text_plain (s : Str) : (Line.plain s).text = s := by
  unfold Line.text Line.marks
  rw [List.flatMap_map]
  exact List.flatMap_singleton' s

/-- No quote begins with a delimiter: it begins with a tag. -/
theorem quote_not_starts (e : Bool) (first : ℕ × Str) (rest : List (ℕ × Str)) :
    ¬blockquoteDelim <+: (Line.quote e first rest).text := by
  rintro ⟨t, ht⟩
  have hhead := congrArg List.head? ht
  cases e <;> simp [blockquoteDelim, str, Line.text, Line.marks, Mark.text] at hhead

/-! ### The second pass -/

/-- The second pass before the line `k`: what is done, what is in the queue and what is to come
is always the same. -/
def Passing (C : List (ℕ × Str)) (k : ℕ) (st : Quoting) : Prop :=
  ∃ D P R, st.textLines = D ++ P ++ R ∧ D.length + P.length = k ∧
    st.toQuoteList.map (·.1) = positions D.length P ∧
    contentFrom id 0 D ++ st.toQuoteList ++ contentFrom unwrap k R = C

theorem unwrap_of_starts {s : Str} (h : blockquoteDelim <+: s) :
    unwrap s = stripDelim blockquoteDelim s := if_pos h

theorem Passing.step {C : List (ℕ × Str)} {k : ℕ} {st : Quoting} (h : Passing C k st)
    (hk : k < st.textLines.length) : Passing C (k + 1) (atLine (quoteStep false) st k) := by
  obtain ⟨D, P, R, hlines, hlen, hqueue, hcontent⟩ := h
  obtain ⟨x, R, rfl⟩ := List.exists_cons_of_ne_nil (l := R) fun hnil => by
    rw [hlines, hnil, List.append_nil, List.length_append] at hk
    omega
  have hx : st.textLines[k]? = some x := by
    rw [hlines, ← hlen, ← List.length_append]
    exact getElem?_middle _ _ _
  cases x with
  | none =>
    rw [atLine_none hx]
    refine ⟨D, P ++ [none], R, by rw [hlines]; simp, by simp; omega, ?_, hcontent⟩
    rw [positions_append, hqueue]
    simp [positions]
  | some line =>
    rw [atLine_some hx]
    by_cases hstarts : blockquoteDelim <+: line.text
    · cases line with
      | quote e first rest => exact absurd hstarts (quote_not_starts e first rest)
      | plain s =>
        rw [text_plain] at hstarts
        simp only [text_plain, quoteStep, if_pos hstarts]
        refine ⟨D, P ++ [some (.plain s)], R, by simp [enqueue, hlines], by simp; omega, ?_, ?_⟩
        · rw [positions_append, ← hqueue, hlen]
          simp [positions, enqueue]
        · rw [← hcontent, contentFrom, unwrap_of_starts hstarts]
          simp [enqueue]
    · simp only [quoteStep, if_neg hstarts]
      obtain ⟨P', hP', hnil, hmerged⟩ := createBlockquote_eq false st D P (some line :: R) hlines
        hqueue
      have hsame : contentFrom unwrap k (some line :: R) =
          contentFrom id k [some line] ++ contentFrom unwrap (k + 1) R := by
        cases line with
        | plain s =>
          have hs : unwrap s = s := if_neg (by rwa [text_plain] at hstarts)
          simp only [contentFrom, hs, id, List.cons_append, List.nil_append]
        | quote e first rest => simp only [contentFrom, List.append_nil]
      refine ⟨D ++ P' ++ [some line], [], R, by rw [hP']; simp, ?_, ?_, ?_⟩
      · simp [← hlen, hmerged.length, Nat.add_assoc]
      · rw [hnil]
        rfl
      · rw [hnil, List.append_nil, contentFrom_append, contentFrom_append, hmerged.content,
          ← hcontent, hsame, List.length_append, hmerged.length, hlen, Nat.zero_add,
          List.append_assoc]

theorem createBlockquote_toQuoteList (e : Bool) (st : Quoting) :
    (st.createBlockquote e).toQuoteList = [] := by
  unfold createBlockquote
  split
  · assumption
  · rfl

theorem createBlockquote_length (e : Bool) (st : Quoting) :
    (st.createBlockquote e).textLines.length = st.textLines.length := by
  have hclear : ∀ (rest : List (ℕ × Str)) (lines : List (Option Line)),
      (rest.foldl (fun lines l => lines.set l.1 none) lines).length = lines.length := by
    intro rest
    induction rest with
    | nil => exact fun _ => rfl
    | cons r rest ih =>
      intro lines
      rw [List.foldl_cons, ih, List.length_set]
  unfold createBlockquote
  split
  · rfl
  · rw [hclear, List.length_set]

theorem quoteStep_length (strict : Bool) (index : ℕ) (line : Str) (st : Quoting) :
    (quoteStep strict index line st).textLines.length = st.textLines.length := by
  unfold quoteStep
  split
  · rfl
  · exact createBlockquote_length _ _

/-- The second pass, from an empty queue, loses no line and moves none. -/
theorem quotePass_outLines {st : Quoting} (h : st.toQuoteList = []) :
    ((forLines (quoteStep false) st).createBlockquote false).outLines =
      contentFrom unwrap 0 st.textLines := by
  have hrun : Passing (contentFrom unwrap 0 st.textLines) st.textLines.length
      (forLines (quoteStep false) st) ∧
        (forLines (quoteStep false) st).textLines.length = st.textLines.length := by
    refine forLines_induct (I := fun k st' => Passing _ k st' ∧
      st'.textLines.length = st.textLines.length) ⟨?_, rfl⟩ ?_
    · exact ⟨[], [], st.textLines, rfl, rfl, by rw [h]; rfl, by rw [h]; rfl⟩
    · rintro k hk st' ⟨hpassing, hlen⟩
      refine ⟨hpassing.step (hlen ▸ hk), ?_⟩
      unfold atLine
      split
      · rw [quoteStep_length, hlen]
      · exact hlen
  generalize forLines (quoteStep false) st = st' at hrun
  obtain ⟨⟨D, P, R, hlines, hlen, hqueue, hcontent⟩, hlength⟩ := hrun
  have hR : R = [] := by
    rw [hlines, List.length_append, List.length_append, hlen] at hlength
    exact List.length_eq_zero_iff.mp (by omega)
  rw [hR] at hlines hcontent
  obtain ⟨P', hP', -, hmerged⟩ := createBlockquote_eq false st' D P [] hlines hqueue
  rw [outLines, hP', List.append_nil, contentFrom_append, hmerged.content, ← hcontent]
  exact (List.append_nil _).symm

/-! ### What a line is -/

inductive Role
  | opens
  | within
  | closes
  | outside
deriving DecidableEq

/-- What a line is, by whether an expandable quote is open before it. -/
def role (inside : Bool) (line : Str) : Role :=
  if inside then if blockquoteExpandableEndDelim <:+ line then .closes else .within
  else if blockquoteExpandableDelim <+: line then .opens else .outside

theorem of_role_opens {inside : Bool} {line : Str} (h : role inside line = .opens) :
    inside = false ∧ blockquoteExpandableDelim <+: line := by
  unfold role at h
  split_ifs at h with hin hclose hopen
  exact ⟨by simpa using hin, hopen⟩

theorem of_role_outside {inside : Bool} {line : Str} (h : role inside line = .outside) :
    inside = false := by
  unfold role at h
  split_ifs at h with hin hclose hopen
  simpa using hin

theorem of_role_within {inside : Bool} {line : Str} (h : role inside line = .within) :
    inside = true := by
  unfold role at h
  split_ifs at h with hin hclose hopen
  exact hin

theorem of_role_closes {inside : Bool} {line : Str} (h : role inside line = .closes) :
    inside = true ∧ blockquoteExpandableEndDelim <:+ line := by
  unfold role at h
  split_ifs at h with hin hclose hopen
  exact ⟨hin, hclose⟩

/-- Whether an expandable quote is open after the lines. -/
def opened (lines : List Str) : Bool :=
  lines.foldl (fun inside line => role inside line = .opens ∨ role inside line = .within) false

def roleAt (lines : List Str) (i : ℕ) (line : Str) : Role := role (opened (lines.take i)) line

/-- What is left of a line. -/
def strip (line : Str) : Role → Str
  | .opens => stripDelim blockquoteExpandableDelim line
  | .within => stripDelim blockquoteDelim line
  | .closes => stripEnd (unwrap line)
  | .outside => unwrap line

/-- The lines of the text in their order, stripped. -/
def kept (lines : List Str) : List (ℕ × Str) :=
  lines.mapIdx fun i line => (i, strip line (roleAt lines i line))

variable {lines : List Str}

theorem opened_take_succ {k : ℕ} {line : Str} (h : lines[k]? = some line) :
    opened (lines.take (k + 1)) =
      decide (roleAt lines k line = .opens ∨ roleAt lines k line = .within) := by
  unfold opened
  rw [List.take_add_one, h, Option.toList_some, List.foldl_concat]
  rfl

theorem kept_take_succ {k : ℕ} {line : Str} (h : lines[k]? = some line) :
    (kept lines).take (k + 1) =
      (kept lines).take k ++ [(k, strip line (roleAt lines k line))] := by
  rw [List.take_add_one, kept, List.getElem?_mapIdx, h]
  rfl

theorem kept_map_fst (lines : List Str) : (kept lines).map (·.1) = List.range lines.length := by
  apply List.ext_getElem?
  intro i
  rw [List.getElem?_map, kept, List.getElem?_mapIdx]
  by_cases hi : i < lines.length
  · rw [List.getElem?_eq_getElem hi, List.getElem?_range hi]
    rfl
  · rw [List.getElem?_eq_none (by omega), List.getElem?_eq_none (by rw [List.length_range]; omega)]
    rfl

theorem length_kept (lines : List Str) : (kept lines).length = lines.length := List.length_mapIdx

theorem kept_slice_fst {d m : ℕ} (hm : m ≤ lines.length) :
    (((kept lines).take m).drop d).map (·.1) = List.range' d (m - d) := by
  rw [List.map_drop, List.map_take, kept_map_fst, List.take_range, Nat.min_eq_left hm,
    List.range_eq_range', List.drop_range', Nat.zero_add, Nat.mul_one]

theorem positions_plain (i : ℕ) (ls : List Str) :
    positions i (ls.map (some ∘ .plain)) = List.range' i ls.length := by
  induction ls generalizing i with
  | nil => rfl
  | cons l ls ih =>
    rw [List.map_cons, List.length_cons, List.range'_succ, ← ih]
    rfl

theorem not_starts_of_expandable {line : Str} (h : blockquoteExpandableDelim <+: line) :
    ¬blockquoteDelim <+: line := by
  rintro ⟨t, rfl⟩
  obtain ⟨u, hu⟩ := h
  have hhead := congrArg List.head? hu
  simp [blockquoteExpandableDelim, blockquoteDelim, str] at hhead

/-! ### The first pass -/

theorem createBlockquote_inside (e : Bool) (st : Quoting) :
    (st.createBlockquote e).insideBlockquote = st.insideBlockquote := by
  unfold createBlockquote
  split <;> rfl

theorem expandableStep_eq (k : ℕ) (line : Str) (st : Quoting) :
    expandableStep false k line st = match role st.insideBlockquote line with
      | .opens => { st.enqueue false k (strip line .opens) with insideBlockquote := true }
      | .within => st.enqueue false k (strip line .within)
      | .closes => createBlockquote true
          { st.enqueue false k (strip line .closes) with insideBlockquote := false }
      | .outside => st := by
  unfold expandableStep role
  cases hin : st.insideBlockquote with
  | false =>
    by_cases hopens : blockquoteExpandableDelim <+: line
    · simp [hopens, strip]
    · simp [hopens, hin]
  | true =>
    by_cases hcloses : blockquoteExpandableEndDelim <:+ line
    · simp [hcloses, strip, createBlockquote_inside]
    · simp [hcloses, hin, strip]

/-- The first pass before the line `k`: `D` is done, and the lines after it are in the queue as far
as the pass has come. -/
structure Expanding (lines : List Str) (D : List (Option Line)) (k : ℕ) (st : Quoting) : Prop where
  done : D.length ≤ k
  split : st.textLines = D ++ (lines.drop D.length).map (some ∘ .plain)
  content : contentFrom unwrap 0 D = (kept lines).take D.length
  queue : st.toQuoteList = ((kept lines).take k).drop D.length
  inside : st.insideBlockquote = opened (lines.take k)
  shut : st.insideBlockquote = false → D.length = k
  unclosed : st.insideBlockquote = true → D.length < k ∧
    ∃ line, lines[D.length]? = some line ∧ blockquoteExpandableDelim <+: line
  head : ∀ x, D.head? = some x → ∃ l, x = some l ∧
    (blockquoteDelim <+: l.text ↔ ∃ line, lines.head? = some line ∧ blockquoteDelim <+: line)

namespace Expanding

variable {D : List (Option Line)} {k : ℕ} {st : Quoting}

theorem getElem?_textLines (h : Expanding lines D k st) {line : Str}
    (hline : lines[k]? = some line) :
    st.textLines[k]? = some (some (.plain line)) := by
  rw [h.split, List.getElem?_append_right h.done, List.getElem?_map, List.getElem?_drop,
    Nat.add_sub_cancel' h.done, hline]
  rfl

/-- The lines a queue was made of lose their place to the quote. -/
theorem merge (e : Bool) (st : Quoting) {m : ℕ} (hd : D.length ≤ m) (hm : m ≤ lines.length)
    (hsplit : st.textLines = D ++ (lines.drop D.length).map (some ∘ .plain))
    (hqueue : st.toQuoteList = ((kept lines).take m).drop D.length)
    (hcontent : contentFrom unwrap 0 D = (kept lines).take D.length) :
    ∃ P', (st.createBlockquote e).textLines =
        D ++ P' ++ (lines.drop m).map (some ∘ .plain) ∧
      (D ++ P').length = m ∧ (st.createBlockquote e).toQuoteList = [] ∧
      contentFrom unwrap 0 (D ++ P') = (kept lines).take m ∧
      Merged st.toQuoteList (((lines.drop D.length).take (m - D.length)).map (some ∘ .plain)) P' := by
  have hlen : ((lines.drop D.length).take (m - D.length)).length = m - D.length := by
    rw [List.length_take, List.length_drop]
    omega
  obtain ⟨P', hP', hnil, hmerged⟩ := createBlockquote_eq e st D
    (((lines.drop D.length).take (m - D.length)).map (some ∘ .plain))
    ((lines.drop m).map (some ∘ .plain))
    (by
      rw [hsplit, List.append_assoc, ← List.map_append]
      have hdrop : lines.drop m = (lines.drop D.length).drop (m - D.length) := by
        rw [List.drop_drop, Nat.add_sub_cancel' hd]
      rw [hdrop, List.take_append_drop])
    (by rw [hqueue, kept_slice_fst hm, positions_plain, hlen])
  refine ⟨P', hP', ?_, hnil, ?_, hmerged⟩
  · rw [List.length_append, hmerged.length, List.length_map, hlen]
    omega
  · have htake : (kept lines).take D.length = ((kept lines).take m).take D.length := by
      rw [List.take_take, Nat.min_eq_left hd]
    rw [contentFrom_append, hcontent, hmerged.content, hqueue, htake, List.take_append_drop]

theorem roleAt_eq (h : Expanding lines D k st) (line : Str) :
    roleAt lines k line = role st.insideBlockquote line := by
  rw [roleAt, h.inside]

theorem slice_succ (h : Expanding lines D k st) {line : Str} (hline : lines[k]? = some line) :
    ((kept lines).take (k + 1)).drop D.length =
      st.toQuoteList ++ [(k, strip line (roleAt lines k line))] := by
  have hk : k < lines.length := (List.getElem?_eq_some_iff.mp hline).1
  have hlong : D.length ≤ ((kept lines).take k).length := by
    rw [List.length_take, length_kept]
    have := h.done
    omega
  rw [kept_take_succ hline, List.drop_append_of_le_length hlong, ← h.queue]

theorem opens (h : Expanding lines D k st) {line : Str} (hline : lines[k]? = some line)
    (hr : roleAt lines k line = .opens) :
    Expanding lines D (k + 1)
      { st.enqueue false k (strip line .opens) with insideBlockquote := true } := by
  obtain ⟨hout, hdelim⟩ := of_role_opens (h.roleAt_eq line ▸ hr)
  have hd : D.length = k := h.shut hout
  constructor
  · exact Nat.le_succ_of_le h.done
  · exact h.split
  · exact h.content
  · rw [h.slice_succ hline, hr]
    rfl
  · rw [opened_take_succ hline, hr]
    rfl
  · intro hfalse
    cases hfalse
  · intro _
    exact ⟨by omega, line, hd ▸ hline, hdelim⟩
  · exact h.head

theorem within (h : Expanding lines D k st) {line : Str} (hline : lines[k]? = some line)
    (hr : roleAt lines k line = .within) :
    Expanding lines D (k + 1) (st.enqueue false k (strip line .within)) := by
  have hin := of_role_within (h.roleAt_eq line ▸ hr)
  obtain ⟨hlt, hfirst⟩ := h.unclosed hin
  constructor
  · exact Nat.le_succ_of_le h.done
  · exact h.split
  · exact h.content
  · rw [h.slice_succ hline, hr]
    rfl
  · rw [opened_take_succ hline, hr]
    exact hin
  · intro hfalse
    cases hin.symm.trans hfalse
  · intro _
    exact ⟨by omega, hfirst⟩
  · exact h.head

theorem closes (h : Expanding lines D k st) {line : Str} (hline : lines[k]? = some line)
    (hr : roleAt lines k line = .closes) :
    ∃ D', Expanding lines D' (k + 1) (createBlockquote true
      { st.enqueue false k (strip line .closes) with insideBlockquote := false }) := by
  obtain ⟨hlt, first, hfirst, hdelim⟩ := h.unclosed (of_role_closes (h.roleAt_eq line ▸ hr)).1
  have hk : k < lines.length := (List.getElem?_eq_some_iff.mp hline).1
  have hslice := h.slice_succ hline
  rw [hr] at hslice
  obtain ⟨P', hP', hlen, hnil, hcontent, hmerged⟩ := merge true
    { st.enqueue false k (strip line .closes) with insideBlockquote := false }
    (m := k + 1) (Nat.le_succ_of_le h.done) hk h.split hslice.symm h.content
  refine ⟨D ++ P', ?_⟩
  constructor
  · exact hlen.le
  · rw [hP', hlen]
  · rw [hcontent, hlen]
  · rw [hnil, hlen, List.drop_eq_nil_of_le (List.length_take_le _ _)]
  · rw [createBlockquote_inside, opened_take_succ hline, hr]
    rfl
  · intro _
    exact hlen
  · intro htrue
    rw [createBlockquote_inside] at htrue
    cases htrue
  · intro x hx
    cases D with
    | cons d D => exact h.head x hx
    | nil =>
      -- The quote that begins the text was opened by its first line.
      have hhead : lines.head? = some first := by rw [List.head?_eq_getElem?]; exact hfirst
      obtain ⟨l, rest, rfl⟩ := List.exists_cons_of_ne_nil (l := lines) fun hnil => by
        simp [hnil] at hk
      obtain ⟨e, f, r, hquote⟩ := hmerged.head (.plain l) (by simp)
      rw [List.nil_append, hquote] at hx
      refine ⟨.quote e f r, (Option.some.inj hx).symm, ?_⟩
      refine iff_of_false (quote_not_starts e f r) ?_
      rintro ⟨line', hline', hstarts⟩
      rw [hhead] at hline'
      cases hline'
      exact not_starts_of_expandable hdelim hstarts

theorem outside (h : Expanding lines D k st) {line : Str} (hline : lines[k]? = some line)
    (hr : roleAt lines k line = .outside) :
    Expanding lines (D ++ [some (.plain line)]) (k + 1) st := by
  have hout := of_role_outside (h.roleAt_eq line ▸ hr)
  have hd : D.length = k := h.shut hout
  have hlen : (D ++ [some (Line.plain line)]).length = k + 1 := by simp [hd]
  have hdrop : lines.drop k = line :: lines.drop (k + 1) := by
    obtain ⟨hk, rfl⟩ := List.getElem?_eq_some_iff.mp hline
    exact List.drop_eq_getElem_cons hk
  constructor
  · exact hlen.le
  · rw [h.split, hlen, hd, hdrop]
    simp
  · rw [contentFrom_append, h.content, hlen, hd, kept_take_succ hline, hr]
    simp only [contentFrom, strip, Nat.zero_add]
  · rw [h.queue, hlen, hd, List.drop_eq_nil_of_le (List.length_take_le _ _),
      List.drop_eq_nil_of_le (List.length_take_le _ _)]
  · rw [opened_take_succ hline, hr]
    exact hout
  · intro _
    exact hlen
  · intro htrue
    cases hout.symm.trans htrue
  · intro x hx
    cases D with
    | cons d D => exact h.head x hx
    | nil =>
      obtain rfl : 0 = k := hd
      have hhead : lines.head? = some line := by rw [List.head?_eq_getElem?]; exact hline
      refine ⟨.plain line, (Option.some.inj hx).symm, ?_⟩
      rw [text_plain, hhead]
      simp

theorem step (h : Expanding lines D k st) (hk : k < lines.length) :
    ∃ D', Expanding lines D' (k + 1) (atLine (expandableStep false) st k) := by
  have hline : lines[k]? = some lines[k] := List.getElem?_eq_getElem hk
  generalize lines[k] = line at hline
  rw [atLine_some (h.getElem?_textLines hline), text_plain, expandableStep_eq, ← h.roleAt_eq]
  cases hr : roleAt lines k line with
  | opens => exact ⟨D, h.opens hline hr⟩
  | within => exact ⟨D, h.within hline hr⟩
  | closes => exact h.closes hline hr
  | outside => exact ⟨_, h.outside hline hr⟩

end Expanding

/-- The first pass before its first line. -/
def unquoted (lines : List Str) : Quoting := { textLines := lines.map (some ∘ .plain) }

theorem expandablePass_spec (lines : List Str) : ∃ D, Expanding lines D lines.length
    (forLines (expandableStep false) (unquoted lines)) := by
  have hlength : (unquoted lines).textLines.length = lines.length := List.length_map _
  rw [← hlength]
  refine forLines_induct (I := fun k st => ∃ D, Expanding lines D k st) ⟨[], ?_⟩ ?_
  · constructor
    · exact le_refl _
    · rfl
    · rfl
    · rfl
    · rfl
    · exact fun _ => rfl
    · intro htrue
      cases htrue
    · intro x hx
      cases hx
  · rintro k hk st ⟨D, h⟩
    exact h.step (hlength ▸ hk)

end AllInOneBackup.Kurigram.Markdown
