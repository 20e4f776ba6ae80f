import AllInOneBackup.Data.Trim

/-! White space as Python's `str` has it. -/

namespace AllInOneBackup.Data.PyText

open Text

/-- `c.isspace()`, and what `\s` stands for. -/
def isSpace (c : Char) : Bool :=
  c.toNat ∈ [0x20, 0x85, 0xA0, 0x1680, 0x2028, 0x2029, 0x202F, 0x205F, 0x3000] ||
    decide (0x09 ≤ c.toNat ∧ c.toNat ≤ 0x0D) || decide (0x1C ≤ c.toNat ∧ c.toNat ≤ 0x1F) ||
    decide (0x2000 ≤ c.toNat ∧ c.toNat ≤ 0x200A)

/-- `s.strip()`. -/
def strip (s : Text) : Text := trim isSpace s

/-- The loop of `re.sub(r"\s+", " ", s)`; a run of white space becomes one space. -/
def collapseFrom (inRun : Bool) : Text → Text
  | [] => []
  | c :: s =>
    if isSpace c then
      if inRun then collapseFrom true s else ' ' :: collapseFrom true s
    else c :: collapseFrom false s

/-- `re.sub(r"\s+", " ", s)`. -/
def collapse (s : Text) : Text := collapseFrom false s

/-- White space is single spaces. -/
def Collapsed : Text → Prop
  | [] => True
  | c :: s => (isSpace c = true → c = ' ' ∧ ∀ d ∈ s.head?, isSpace d = false) ∧ Collapsed s

theorem strip_strip (s : Text) : strip (strip s) = strip s := trim_trim s

theorem length_strip_le (s : Text) : (strip s).length ≤ s.length := by
  obtain ⟨a, b, -, -, hs⟩ := exists_trim (p := isSpace) s
  have hlen := congrArg List.length hs
  rw [List.length_append, List.length_append] at hlen
  rw [strip]
  omega

theorem collapsed_collapseFrom (s : Text) (inRun : Bool) :
    Collapsed (collapseFrom inRun s) ∧
      (inRun = true → ∀ d ∈ (collapseFrom inRun s).head?, isSpace d = false) := by
  induction s generalizing inRun with
  | nil => exact ⟨trivial, fun _ d hd => by cases hd⟩
  | cons c s ih =>
    rw [collapseFrom]
    split_ifs with hspace hrun
    · exact ⟨(ih true).1, fun _ => (ih true).2 rfl⟩
    · exact ⟨⟨fun _ => ⟨rfl, (ih true).2 rfl⟩, (ih true).1⟩, fun htrue => absurd htrue hrun⟩
    · refine ⟨⟨fun htrue => absurd htrue hspace, (ih false).1⟩, fun _ d hd => ?_⟩
      rw [← Option.some.inj hd]
      exact Bool.eq_false_iff.mpr hspace

theorem collapseFrom_eq_self {s : Text} (h : Collapsed s) (inRun : Bool)
    (hrun : inRun = true → ∀ d ∈ s.head?, isSpace d = false) : collapseFrom inRun s = s := by
  induction s generalizing inRun with
  | nil => rfl
  | cons c s ih =>
    rw [collapseFrom]
    by_cases hspace : isSpace c = true
    · have hfirst : inRun ≠ true := by
        intro htrue
        have hfalse := hrun htrue c rfl
        rw [hspace] at hfalse
        cases hfalse
      rw [if_pos hspace, if_neg hfirst, ih h.2 true fun _ => (h.1 hspace).2, ← (h.1 hspace).1]
    · rw [if_neg hspace, ih h.2 false fun hfalse => by cases hfalse]

theorem Collapsed.of_append {a b : Text} (h : Collapsed (a ++ b)) : Collapsed a ∧ Collapsed b := by
  induction a with
  | nil => exact ⟨trivial, h⟩
  | cons c a ih =>
    obtain ⟨hc, hrest⟩ := h
    obtain ⟨ha, hb⟩ := ih hrest
    refine ⟨⟨fun hspace => ⟨(hc hspace).1, fun d hd => (hc hspace).2 d ?_⟩, ha⟩, hb⟩
    cases a with
    | nil => cases hd
    | cons x a => exact hd

/-- What is squeezed and stripped is left alone. -/
theorem squeeze_squeeze (s : Text) :
    strip (collapse (strip (collapse s))) = strip (collapse s) := by
  have hcollapsed : Collapsed (collapse s) := (collapsed_collapseFrom s false).1
  obtain ⟨a, b, -, -, hsplit⟩ := exists_trim (p := isSpace) (collapse s)
  rw [hsplit] at hcollapsed
  have hmiddle : Collapsed (strip (collapse s)) := hcollapsed.of_append.1.of_append.2
  have hsame : collapse (strip (collapse s)) = strip (collapse s) :=
    collapseFrom_eq_self hmiddle false fun hfalse => by cases hfalse
  rw [hsame, strip_strip]

end AllInOneBackup.Data.PyText
