import AllInOneBackup.Data.PyText
import AllInOneBackup.Data.Regex

/-! The season and the episode that the path and the name of a file tell. -/

namespace AllInOneBackup.Cloud123.Library

open Data Data.Regex

/-- What the tables of Unicode say: the value of a decimal digit, which is what `\d` stands for,
`str.isdigit`, which is wider, and `str.lower`. -/
structure Unicode where
  decimal : Char → Option ℕ
  isDigit : Char → Bool
  lower : Text → Text

variable (U : Unicode)

/-! ### Classes -/

/-- `\d`. -/
def Unicode.digit (c : Char) : Bool := (U.decimal c).isSome

/-- `[0-9]`. -/
def asciiDigit (c : Char) : Bool := decide ('0' ≤ c ∧ c ≤ '9')

/-- `[a-z]` where case is ignored. -/
def letter (c : Char) : Bool :=
  decide ('a' ≤ c ∧ c ≤ 'z') || decide ('A' ≤ c ∧ c ≤ 'Z') || decide (c ∈ "İıſ\u212A".toList)

/-- `[0-9a-z]` where case is ignored. -/
def alphanumeric (c : Char) : Bool := asciiDigit c || letter c

/-- A letter where case is ignored. -/
def anyCase (lower upper : Char) (c : Char) : Bool := c = lower || c = upper

/-- The letter `s` where case is ignored, which is the long one as well. -/
def anyS (c : Char) : Bool := anyCase 's' 'S' c || c = 'ſ'

/-- `[\s._-]`. -/
def separator (c : Char) : Bool := PyText.isSpace c || c = '.' || c = '_' || c = '-'

/-- `[一二三四五六七八九十]`. -/
def cnDigit (c : Char) : Bool := decide (c ∈ "一二三四五六七八九十".toList)

/-- `[集话話]`. -/
def episodeSign (c : Char) : Bool := decide (c ∈ "集话話".toList)

/-! ### Patterns -/

/-- `(?<![0-9a-z])s(\d{1,3})[\s._-]*e(\d{1,4})(?![0-9])`. -/
def reSeasonEpisode : List Item :=
  [.notBehind alphanumeric, one anyS, .group U.digit 1 (some 3), .rep separator 0 none,
    one (anyCase 'e' 'E'), .group U.digit 1 (some 4), .notAhead asciiDigit]

/-- `(?<![0-9])(\d{1,3})x(\d{1,4})(?![0-9])`. -/
def reEpisodeCross : List Item :=
  [.notBehind asciiDigit, .group U.digit 1 (some 3), one (anyCase 'x' 'X'),
    .group U.digit 1 (some 4), .notAhead asciiDigit]

/-- `(?<![a-z0-9])e(?:p)?[\s._-]?(\d{1,4})(?![0-9])`. -/
def reEpisodeOnly : List Item :=
  [.notBehind alphanumeric, one (anyCase 'e' 'E'), .rep (anyCase 'p' 'P') 0 (some 1),
    .rep separator 0 (some 1), .group U.digit 1 (some 4), .notAhead asciiDigit]

/-- `第\s*(…)\s*[…]`. -/
def reOrdinal (number : Item) (sign : Char → Bool) : List Item :=
  [one (· = '第'), .rep PyText.isSpace 0 none, number, .rep PyText.isSpace 0 none, one sign]

def reEpisodeZh : List Item := reOrdinal (.group U.digit 1 (some 4)) episodeSign

def reEpisodeZhCn : List Item := reOrdinal (.group cnDigit 1 (some 3)) episodeSign

def reSeasonZh : List Item := reOrdinal (.group U.digit 1 (some 3)) (· = '季')

def reSeasonZhCn : List Item := reOrdinal (.group cnDigit 1 (some 3)) (· = '季')

/-- `season[\s._-]*(\d{1,3})`, at the start. -/
def reSeasonSeg : List Item :=
  [one anyS, one (anyCase 'e' 'E'), one (anyCase 'a' 'A'), one anyS, one (anyCase 'o' 'O'),
    one (anyCase 'n' 'N'), .rep separator 0 none, .group U.digit 1 (some 3)]

/-- `s(\d{1,3})(?![0-9a-z])`, at the start. -/
def reSeasonSegS : List Item := [one anyS, .group U.digit 1 (some 3), .notAhead alphanumeric]

/-! ### Numbers -/

/-- `int(m.group(i))`, of decimal digits. -/
def intGroup (i : ℕ) (groups : List Text) : ℕ :=
  (groups.getD i []).foldl (fun n c => 10 * n + (U.decimal c).getD 0) 0

/-- `_CN_NUMERAL`. -/
def cnNumeral (s : Text) : Option ℕ :=
  List.lookup s (["一", "二", "三", "四", "五", "六", "七", "八", "九"].zipIdx.map fun p =>
    (p.1.toList, p.2 + 1))

/-- From one to ninety-nine. -/
def chineseNumeral (s : Text) : Option ℕ :=
  if s = [] then none
  else if s = ['十'] then some 10
  else if '十' ∈ s then
    let left := s.takeWhile (· ≠ '十')
    let right := (s.dropWhile (· ≠ '十')).drop 1
    let tens := if left = [] then 1 else (cnNumeral left).getD 1
    let ones := if right = [] then 0 else (cnNumeral right).getD 0
    if (left = [] ∨ (cnNumeral left).isSome) ∧ (right = [] ∨ (cnNumeral right).isSome) then
      some (tens * 10 + ones)
    else none
  else cnNumeral s

def cnGroup (groups : List Text) : Option ℕ := chineseNumeral (groups.getD 0 [])

/-! ### Seasons and episodes -/

/-- The season of a directory; `none` where it is no directory of a season. -/
def seasonFromSegment (segment : Text) : Option ℕ :=
  let seg := PyText.strip segment
  if seg = [] then none
  else
    let found :=
      ((matchStart (reSeasonSeg U) seg).or (matchStart (reSeasonSegS U) seg)).or
        (search (reSeasonZh U) seg)
    match found with
    | some m => some (intGroup U 0 m)
    | none => (search reSeasonZhCn seg).bind cnGroup

/-- The episode where the name does not say the season next to it. -/
def episodeOfName (name : Text) : Option ℕ :=
  match (search (reEpisodeOnly U) name).or (search (reEpisodeZh U) name) with
  | some m => some (intGroup U 0 m)
  | none => (search reEpisodeZhCn name).bind cnGroup

def seasonOfName (name : Text) : Option ℕ :=
  match search (reSeasonZh U) name with
  | some m => some (intGroup U 0 m)
  | none => (search reSeasonZhCn name).bind cnGroup

/-- The season of the nearest directory that has one. -/
def seasonOfPath (path : Text) : Option ℕ :=
  ((Text.split '/' path).filter (· ≠ [])).dropLast.reverse.findSome? (seasonFromSegment U)

/-- The season and the episode, or neither. -/
def parseSeasonEpisode (path fileName : Text) : Option (ℕ × ℕ) :=
  let name := if fileName = [] then Text.lastPart '/' path else fileName
  match (search (reSeasonEpisode U) name).or (search (reEpisodeCross U) name) with
  | some m => some (intGroup U 0 m, intGroup U 1 m)
  | none =>
    (episodeOfName U name).map fun episode =>
      (((seasonOfName U name).or (seasonOfPath U path)).getD 1, episode)

end AllInOneBackup.Cloud123.Library
