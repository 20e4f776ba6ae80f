import Mathlib.Data.List.DropRight
import Mathlib.Data.List.Infix
import Mathlib.Data.List.TakeWhile

/-! Texts as lists of characters, with the operations of Python's `str` on a separator. -/

namespace AllInOneBackup.Data

abbrev Text := List Char

instance : LawfulBEq Text := inferInstance

namespace Text

variable (c : Char) (s : Text)

/-- `s.lstrip(c)`. -/
def lstrip : Text := s.dropWhile (· = c)

/-- `s.strip(c)`. -/
def strip : Text := (lstrip c s).rdropWhile (· = c)

/-- `s.rsplit(c, 1)`, where `c` occurs in `s`. -/
def rsplitOnce : Option (Text × Text) :=
  if c ∈ s then some ((s.rdropWhile (· ≠ c)).dropLast, s.rtakeWhile (· ≠ c)) else none

/-- `s.rsplit(c, 1)[-1]`. -/
def lastPart : Text := s.rtakeWhile (· ≠ c)

/-- `s.split(c)`. -/
def split : List Text := s.splitOn c

/-- `c.join(parts)`. -/
def join (parts : List Text) : Text := [c].intercalate parts

end Text

end AllInOneBackup.Data
