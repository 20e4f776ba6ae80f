import AllInOneBackup.Data.Utf8

/-! `html.escape`, which writes five characters as character references, and lines of text. -/

namespace AllInOneBackup

namespace Html

def escapeChar (c : CodePoint) : Str :=
  if c = 0x26 then str "&amp;"
  else if c = 0x3C then str "&lt;"
  else if c = 0x3E then str "&gt;"
  else if c = 0x22 then str "&quot;"
  else if c = 0x27 then str "&#x27;"
  else [c]

/-- `html.escape(s)`. -/
def escape (s : Str) : Str := s.flatMap escapeChar

end Html

namespace Str

/-- The characters at which `str.splitlines` ends a line. -/
def lineBreaks : Str :=
  [0x0A, 0x0B, 0x0C, 0x0D, 0x1C, 0x1D, 0x1E, 0x85, 0x2028, 0x2029]

/-- The lines of a text whose last line has begun with `line`. A line feed right after a carriage
return ends no other line. -/
def splitlinesFrom (afterReturn : Bool) (line : Str) : Str → List Str
  | [] => if line = [] then [] else [line]
  | c :: s =>
    if afterReturn ∧ c = 0x0A then splitlinesFrom false line s
    else if c ∈ lineBreaks then line :: splitlinesFrom (c = 0x0D) [] s
    else splitlinesFrom false (line ++ [c]) s

/-- `s.splitlines()`. -/
def splitlines (s : Str) : List Str := splitlinesFrom false [] s

example : splitlines (str "a\r\n\nb\n") = [str "a", [], str "b"] := by decide

/-- `"\n".join(lines)`. -/
def joinLines (lines : List Str) : Str := [0x0A].intercalate lines

theorem joinLines_append {ls ms : List Str} (hls : ls ≠ []) (hms : ms ≠ []) :
    joinLines (ls ++ ms) = joinLines ls ++ [0x0A] ++ joinLines ms := by
  unfold joinLines
  induction ls with
  | nil => exact absurd rfl hls
  | cons l ls ih =>
    rw [List.cons_append]
    by_cases hnil : ls = []
    · rw [hnil, List.nil_append, List.intercalate_singleton, List.intercalate_cons_of_ne_nil hms]
    · rw [List.intercalate_cons_of_ne_nil (by simp [hnil]), ih hnil,
        List.intercalate_cons_of_ne_nil hnil]
      simp only [List.append_assoc]

/-- Joining what was joined joins all the lines. -/
theorem joinLines_flatMap {α : Type*} {g : α → List Str} (h : ∀ x, g x ≠ []) (xs : List α) :
    joinLines (xs.flatMap g) = joinLines (xs.map fun x => joinLines (g x)) := by
  induction xs with
  | nil => rfl
  | cons x xs ih =>
    rw [List.flatMap_cons, List.map_cons]
    by_cases hnil : xs = []
    · rw [hnil, List.flatMap_nil, List.append_nil, List.map_nil]
      exact List.intercalate_singleton.symm
    · have hne : xs.flatMap g ≠ [] := by
        obtain ⟨y, ys, rfl⟩ := List.exists_cons_of_ne_nil hnil
        rw [List.flatMap_cons]
        exact fun happend => h y (List.append_eq_nil_iff.mp happend).1
      rw [joinLines_append (h x) hne, ih]
      exact (List.intercalate_cons_of_ne_nil (by simp [hnil])).symm

end Str

end AllInOneBackup
