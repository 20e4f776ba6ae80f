import AllInOneBackup.Data.Html

/-! How block quotes of Markdown are made into HTML before the other delimiters are read: one pass
over the lines for the expandable quotes, one for the plain ones, on one list and one queue. A line
that was quoted keeps the queue it was made of, and the text that is returned is kept with its tags
apart from its characters. -/

namespace AllInOneBackup.Kurigram.Markdown

def blockquoteDelim : Str := str ">"

def blockquoteExpandableDelim : Str := str "**>"

def blockquoteExpandableEndDelim : Str := str "||"

/-- A tag that was put in, or a character. -/
inductive Mark
  | tag (text : Str)
  | char (c : CodePoint)

def Mark.text : Mark → Str
  | .tag text => text
  | .char c => [c]

def Mark.char? : Mark → Option CodePoint
  | .tag _ => none
  | .char c => some c

/-- The text without the tags that were put in. -/
def deleteTags (marks : List Mark) : Str := marks.filterMap Mark.char?

/-- A line that is still as it came, or a quote with the queue that was merged into it. -/
inductive Line
  | plain (s : Str)
  | quote (expandable : Bool) (first : ℕ × Str) (rest : List (ℕ × Str))

def Line.marks : Line → List Mark
  | .plain s => s.map .char
  | .quote expandable first rest =>
    .tag (if expandable then str "<blockquote expandable>" else str "<blockquote>") ::
      (Str.joinLines ((first :: rest).map (·.2))).map .char ++ [.tag (str "</blockquote>")]

def Line.text (line : Line) : Str := line.marks.flatMap Mark.text

structure Quoting where
  textLines : List (Option Line)
  htmlEscapedList : List ℕ := []
  toQuoteList : List (ℕ × Str) := []
  insideBlockquote : Bool := false

namespace Quoting

/-- Merges the queue into its first line; the other lines of it become `None`. -/
def createBlockquote (expandable : Bool) (st : Quoting) : Quoting :=
  match st.toQuoteList with
  | [] => st
  | first :: rest =>
    { st with
      textLines := rest.foldl (fun lines lineToRemove => lines.set lineToRemove.1 none)
        (st.textLines.set first.1 (some (.quote expandable first rest)))
      toQuoteList := [] }

def enqueue (strict : Bool) (index : ℕ) (line : Str) (st : Quoting) : Quoting :=
  { st with
    toQuoteList := st.toQuoteList ++ [(index, if strict then Html.escape line else line)]
    htmlEscapedList := st.htmlEscapedList ++ [index] }

/-- The body of a loop at a line, which a `None` skips. -/
def atLine (body : ℕ → Str → Quoting → Quoting) (st : Quoting) (index : ℕ) : Quoting :=
  match st.textLines[index]? with
  | some (some line) => body index line.text st
  | _ => st

/-- `for index, line in enumerate(text_lines)`; the list is read as it is when its turn comes. -/
def forLines (body : ℕ → Str → Quoting → Quoting) (st : Quoting) : Quoting :=
  (List.range st.textLines.length).foldl (atLine body) st

end Quoting

/-- `line[len(delim) + (1 if line.startswith(f"{delim} ") else 0):]`. -/
def stripDelim (delim line : Str) : Str :=
  line.drop (delim.length + if delim ++ str " " <+: line then 1 else 0)

def stripEnd (line : Str) : Str :=
  line.take (line.length - blockquoteExpandableEndDelim.length)

/-- What is left of a line that begins with a quote delimiter, or the line. -/
def unwrap (line : Str) : Str :=
  if blockquoteDelim <+: line then stripDelim blockquoteDelim line else line

open Quoting

def expandableStep (strict : Bool) (index : ℕ) (line : Str) (st : Quoting) : Quoting :=
  if blockquoteExpandableDelim <+: line ∧ ¬st.insideBlockquote then
    { st.enqueue strict index (stripDelim blockquoteExpandableDelim line) with
      insideBlockquote := true }
  else
    let st :=
      if blockquoteExpandableEndDelim <:+ line ∧ st.insideBlockquote then
        createBlockquote true
          { st.enqueue strict index (stripEnd (unwrap line)) with insideBlockquote := false }
      else st
    if st.insideBlockquote then st.enqueue strict index (stripDelim blockquoteDelim line) else st

def quoteStep (strict : Bool) (index : ℕ) (line : Str) (st : Quoting) : Quoting :=
  if blockquoteDelim <+: line then st.enqueue strict index (stripDelim blockquoteDelim line)
  else st.createBlockquote false

/-- `html.escape` of the lines that no pass has escaped. -/
def escapeOthers (st : Quoting) : Quoting :=
  { st with
    textLines := st.textLines.mapIdx fun idx line =>
      if idx ∈ st.htmlEscapedList then line
      else line.map fun line => .plain (Html.escape line.text) }

/-- The lines as they are at the end. -/
def quoteLines (lines : List Str) (strict : Bool) : Quoting :=
  let st := forLines (expandableStep strict) { textLines := lines.map (some ∘ .plain) }
  let st := (forLines (quoteStep strict) st).createBlockquote false
  if strict then escapeOthers st else st

/-- The text that is returned, its tags marked. -/
def quoted (text : Str) (strict : Bool) : List Mark :=
  [Mark.char 0x0A].intercalate
    (((quoteLines text.splitlines strict).textLines.filterMap id).map Line.marks)

def escapeAndCreateQuotes (text : Str) (strict : Bool) : Str :=
  (quoted text strict).flatMap Mark.text

example : escapeAndCreateQuotes (str "> a\n>b\n**> c\nd||\ne&") true =
    str "<blockquote>a\nb</blockquote>\n<blockquote expandable>c\nd</blockquote>\ne&amp;" := by
  decide

end AllInOneBackup.Kurigram.Markdown
