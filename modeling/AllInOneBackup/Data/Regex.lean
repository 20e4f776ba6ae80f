import AllInOneBackup.Data.Text

/-! Patterns of Python's `re` without alternatives: character classes that are repeated, and looks
behind and ahead at one character. -/

namespace AllInOneBackup.Data.Regex

inductive Item
  /-- A class, at least and at most so many times, as often as possible. -/
  | rep (cls : Char → Bool) (least : ℕ) (most : Option ℕ)
  /-- The same, and what it matches is kept. -/
  | group (cls : Char → Bool) (least : ℕ) (most : Option ℕ)
  | notBehind (cls : Char → Bool)
  | notAhead (cls : Char → Bool)

/-- A single character of a class. -/
def one (cls : Char → Bool) : Item := .rep cls 1 (some 1)

/-- How often a class can match, the longest first. -/
def counts (cls : Char → Bool) (least : ℕ) (most : Option ℕ) (s : Text) : List ℕ :=
  let longest := (s.takeWhile cls).length
  let bound := most.elim longest (min longest)
  (List.range' least (bound + 1 - least)).reverse

/-- The character before what is left of a text. -/
def behind (before : Option Char) (taken : Text) : Option Char := taken.getLast?.or before

/-- The groups of a match that begins where `before` is the character before `s`. -/
def matchFrom : List Item → Option Char → Text → Option (List Text)
  | [], _, _ => some []
  | .rep cls least most :: items, before, s =>
    (counts cls least most s).findSome? fun k =>
      matchFrom items (behind before (s.take k)) (s.drop k)
  | .group cls least most :: items, before, s =>
    (counts cls least most s).findSome? fun k =>
      (matchFrom items (behind before (s.take k)) (s.drop k)).map (s.take k :: ·)
  | .notBehind cls :: items, before, s => if before.any cls then none else matchFrom items before s
  | .notAhead cls :: items, before, s => if s.head?.any cls then none else matchFrom items before s

/-- `re.match(pattern, s)`. -/
def matchStart (items : List Item) (s : Text) : Option (List Text) := matchFrom items none s

def searchFrom (items : List Item) : Option Char → Text → Option (List Text)
  | before, [] => matchFrom items before []
  | before, c :: s => (matchFrom items before (c :: s)).or (searchFrom items (some c) s)

/-- `re.search(pattern, s)`. -/
def search (items : List Item) (s : Text) : Option (List Text) := searchFrom items none s

end AllInOneBackup.Data.Regex
