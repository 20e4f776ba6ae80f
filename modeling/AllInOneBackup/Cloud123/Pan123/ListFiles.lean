import AllInOneBackup.Data.Chunked
import AllInOneBackup.Data.PyText
import Mathlib.Algebra.Order.BigOperators.Group.List
import Mathlib.Algebra.Order.Ring.Nat

/-! A directory of 123 is listed page by page. Each answer names the page after it, or the last
entry does, and no more than a hundred pages are asked for. A folder that is not in the listing is
created. -/

namespace AllInOneBackup.Cloud123.Pan123

open Data

/-! ### The answers -/

/-- A value of a JSON answer; of a number with a fraction only what `int` makes of it, if it is
one. -/
inductive Value
  | null
  | bool (b : Bool)
  | int (n : ℤ)
  | float (truncated : Option ℤ)
  | str (s : Text)
  | list
  | dict
  deriving DecidableEq

/-- A record of an answer; what is not in it is `None`. -/
abbrev Item := Text → Value

/-- Python's conversions: `int(s)` of a text, and `str(value)` of what is no text. -/
structure Builtins where
  int : Text → Option ℤ
  str : Value → Text

namespace Builtins

variable (py : Builtins)

def asInt : Value → Option ℤ
  | .null => none
  | .bool b => some (if b then 1 else 0)
  | .int n => some n
  | .float truncated => truncated
  | .str s => if s = [] then none else py.int s
  | .list => none
  | .dict => none

def numberValue (values : List Value) : Option ℤ := values.findSome? py.asInt

def asText : Value → Option Text
  | .null => none
  | .str s => if s = [] then none else some s
  | value => if py.str value = [] then none else some (py.str value)

def stringValue (values : List Value) : Text := (values.findSome? py.asText).getD []

def isTrashed (item : Item) : Bool :=
  decide ((py.numberValue [item "trashed".toList, item "Trashed".toList]).getD 0 ≠ 0)

end Builtins

/-- What `normalize_file` makes of an entry, as far as it is used here. -/
structure File where
  fileId : ℤ
  name : Text
  type : ℤ
  deriving DecidableEq

/-- The `data` of an answer, with the cursor where it is there. -/
structure Body where
  fileList : List Item
  lastFileId : Option Value
  lastFileID : Option Value

section Listing

variable (py : Builtins) {ε : Type}

def normalizeFile (item : Item) : Option File :=
  let fileId := py.numberValue
    [item "FileId".toList, item "fileId".toList, item "fileID".toList, item "FileID".toList,
      item "id".toList]
  let name := py.stringValue
    [item "FileName".toList, item "fileName".toList, item "filename".toList,
      item "Filename".toList, item "name".toList]
  let type := py.numberValue [item "Type".toList, item "type".toList, item "file_type".toList]
  match fileId with
  | none => none
  | some fileId => if name = [] then none else some ⟨fileId, name, type.getD 0⟩

/-- The entries that are not trashed and have an id and a name. -/
def wanted (batch : List Item) : List File :=
  batch.filterMap fun item => if py.isTrashed item then none else normalizeFile py item

def nextFileId (body : Body) : Option ℤ :=
  if body.lastFileId.isSome || body.lastFileID.isSome then
    py.numberValue [body.lastFileId.getD .null, body.lastFileID.getD .null]
  else
    let last := body.fileList.getLast?.getD fun _ => .null
    some ((py.numberValue [last "fileId".toList, last "fileID".toList]).getD 0)

/-- The loop of `list_files`, with the number of pages that may still be asked for. -/
def listLoop (request : ℤ → Except ε Body) : ℕ → ℤ → List File → Except ε (List File)
  | 0, _, files => .ok files
  | pages + 1, lastFileId, files =>
    match request lastFileId with
    | .error e => .error e
    | .ok body =>
      let files := files ++ wanted py body.fileList
      match nextFileId py body with
      | none => .ok files
      | some next =>
        if body.fileList = [] ∨ next = -1 ∨ next = 0 ∨ next = lastFileId then .ok files
        else listLoop request pages next files

def listFiles (request : ℤ → Except ε Body) : Except ε (List File) :=
  listLoop py request 100 0 []

end Listing

/-! ### The folders of a path -/

/-- The account: what it answers to a page of a directory, and to the creation of a folder. -/
structure Account (ω ε : Type) where
  page : ω → Text → ℤ → Except ε Body
  createFolder : ω → Text → Text → Except ε Text × ω

variable {ω ε : Type}

/-- A call of `create_folder`, and the account at that time. -/
structure Creation (ω : Type) where
  state : ω
  parent : Text
  name : Text

def isFolder (name : Text) (file : File) : Bool := decide (file.type = 1 ∧ file.name = name)

/-- The id of a directory in a request. -/
def dirId (n : ℤ) : Text := (toString n).toList

/-- `ensure_path` from the directory `current`: its result, the account after it, and the folders
that it asked for. -/
def ensurePath (py : Builtins) (account : Account ω ε) :
    Text → List Text → ω → Except ε Text × ω × List (Creation ω)
  | current, [], s => (.ok current, s, [])
  | current, rawPart :: path, s =>
    let part := PyText.strip rawPart
    if part = [] then ensurePath py account current path s
    else
      match listFiles py (account.page s current) with
      | .error e => (.error e, s, [])
      | .ok files =>
        match files.find? (isFolder part) with
        | some existing => ensurePath py account (dirId existing.fileId) path s
        | none =>
          match account.createFolder s current part with
          | (.ok created, s') =>
            let r := ensurePath py account created path s'
            (r.1, r.2.1, ⟨s, current, part⟩ :: r.2.2)
          | (.error e, s') =>
            match listFiles py (account.page s' current) with
            | .error e' => (.error e', s', [⟨s, current, part⟩])
            | .ok files =>
              match files.find? (isFolder part) with
              | none => (.error e, s', [⟨s, current, part⟩])
              | some raced =>
                let r := ensurePath py account (dirId raced.fileId) path s'
                (r.1, r.2.1, ⟨s, current, part⟩ :: r.2.2)

/-! ### A directory that is served in pages -/

/-- From this cursor on the directory is answered with these pages: each answer that is not the
last one leads to another page, and the last one is empty or ends with the cursor `-1` or `0`. -/
inductive Serves (py : Builtins) (request : ℤ → Except ε Body) : ℤ → List (List Item) → Prop
  | empty {cursor : ℤ} {body : Body} (h : request cursor = .ok body) (hempty : body.fileList = []) :
      Serves py request cursor []
  | last {cursor : ℤ} {body : Body} (h : request cursor = .ok body) (hpage : body.fileList ≠ [])
      (hend : nextFileId py body = some (-1) ∨ nextFileId py body = some 0) :
      Serves py request cursor [body.fileList]
  | more {cursor next : ℤ} {body : Body} {pages : List (List Item)}
      (h : request cursor = .ok body) (hpage : body.fileList ≠ [])
      (hnext : nextFileId py body = some next) (hgo : next ≠ -1 ∧ next ≠ 0 ∧ next ≠ cursor)
      (hrest : Serves py request next pages) :
      Serves py request cursor (body.fileList :: pages)

section Complete

variable {py : Builtins} {request : ℤ → Except ε Body}

theorem wanted_append (a b : List Item) : wanted py (a ++ b) = wanted py a ++ wanted py b :=
  List.filterMap_append

/-- The loop reads as many pages as it may. -/
theorem listLoop_eq {cursor : ℤ} {pages : List (List Item)} (h : Serves py request cursor pages)
    (n : ℕ) (files : List File) :
    listLoop py request n cursor files = .ok (files ++ wanted py (pages.take n).flatten) := by
  induction h generalizing n files with
  | empty hbody hempty =>
    cases n with
    | zero => simp [listLoop, wanted]
    | succ n =>
      rw [listLoop, hbody]
      simp only [hempty, true_or, if_true, List.take_nil, List.flatten_nil]
      cases nextFileId py _ with
      | none => rfl
      | some next => rfl
  | last hbody hpage hend =>
    cases n with
    | zero => simp [listLoop, wanted]
    | succ n =>
      rw [listLoop, hbody]
      rcases hend with hend | hend
      · simp [hend]
      · simp [hend]
  | more hbody hpage hnext hgo hrest ih =>
    cases n with
    | zero => simp [listLoop, wanted]
    | succ n =>
      rw [listLoop, hbody]
      simp only [hnext, hpage, hgo.1, hgo.2.1, hgo.2.2, or_self, if_false]
      rw [ih, List.take_succ_cons, List.flatten_cons, wanted_append, List.append_assoc]

theorem listFiles_eq {pages : List (List Item)} (h : Serves py request 0 pages) :
    listFiles py request = .ok (wanted py (pages.take 100).flatten) := by
  rw [listFiles, listLoop_eq h, List.nil_append]

/-- The listing is complete when nothing that is wanted is behind the hundredth page. -/
theorem listFiles_complete_iff {pages : List (List Item)} (h : Serves py request 0 pages) :
    listFiles py request = .ok (wanted py pages.flatten) ↔
      wanted py (pages.drop 100).flatten = [] := by
  have hsplit : wanted py pages.flatten =
      wanted py (pages.take 100).flatten ++ wanted py (pages.drop 100).flatten := by
    rw [← wanted_append, ← List.flatten_append, List.take_append_drop]
  rw [listFiles_eq h, hsplit]
  constructor
  · intro heq
    exact List.append_right_eq_self.mp (Except.ok.inj heq).symm
  · intro hnil
    rw [hnil, List.append_nil]

end Complete

/-- A folder is asked for only where the listing has none of its name. -/
theorem not_listed_of_creation {py : Builtins} {account : Account ω ε} {current : Text}
    {path : List Text} {s : ω} :
    ∀ creation ∈ (ensurePath py account current path s).2.2, ∃ files,
      listFiles py (account.page creation.state creation.parent) = .ok files ∧
        ∀ file ∈ files, isFolder creation.name file = false := by
  induction path generalizing current s with
  | nil => exact fun creation h => absurd h List.not_mem_nil
  | cons rawPart path ih =>
    rw [ensurePath]
    simp only
    by_cases hpart : PyText.strip rawPart = []
    · rw [if_pos hpart]
      exact ih
    · rw [if_neg hpart]
      cases hlist : listFiles py (account.page s current) with
      | error e => exact fun creation h => absurd h List.not_mem_nil
      | ok files =>
        simp only
        cases hfind : files.find? (isFolder (PyText.strip rawPart)) with
        | some existing => exact ih
        | none =>
          have hnone : ∀ file ∈ files, isFolder (PyText.strip rawPart) file = false :=
            fun file hfile => Bool.eq_false_iff.mpr (List.find?_eq_none.mp hfind file hfile)
          have hhere : ∃ files', listFiles py (account.page s current) = .ok files' ∧
              ∀ file ∈ files', isFolder (PyText.strip rawPart) file = false :=
            ⟨files, hlist, hnone⟩
          simp only
          split
          case h_1 created s' hcreate => exact List.forall_mem_cons.mpr ⟨hhere, ih⟩
          case h_2 e s' hcreate =>
            split
            case h_1 e' hlist' => exact List.forall_mem_cons.mpr ⟨hhere, List.forall_mem_nil _⟩
            case h_2 files' hlist' =>
              split
              case h_1 hfind' => exact List.forall_mem_cons.mpr ⟨hhere, List.forall_mem_nil _⟩
              case h_2 raced hfind' => exact List.forall_mem_cons.mpr ⟨hhere, ih⟩

/-- Where every directory is served in pages, each listing is complete just when nothing wanted is
behind the hundredth page; and where all are, no folder is created that is there. -/
theorem list_files_right_iff (py : Builtins) (account : Account ω ε)
    (pages : ω → Text → List (List Item))
    (h : ∀ s parent, Serves py (account.page s parent) 0 (pages s parent)) :
    (∀ s parent, listFiles py (account.page s parent) = .ok (wanted py (pages s parent).flatten) ↔
      wanted py ((pages s parent).drop 100).flatten = []) ∧
    ((∀ s parent, wanted py ((pages s parent).drop 100).flatten = []) →
      ∀ rootDirId path s, ∀ creation ∈ (ensurePath py account rootDirId path s).2.2,
        ∀ file ∈ wanted py (pages creation.state creation.parent).flatten,
          isFolder creation.name file = false) := by
  refine ⟨fun s parent => listFiles_complete_iff (h s parent), ?_⟩
  intro hshort rootDirId path s creation hcreation file hfile
  obtain ⟨files, hlist, hnone⟩ := not_listed_of_creation creation hcreation
  rw [(listFiles_complete_iff (h _ _)).mpr (hshort _ _)] at hlist
  rw [← Except.ok.inj hlist] at hnone
  exact hnone file hfile

/-! ### A directory with more than a hundred full pages -/

/-- Entry `n` of a directory; the one on the second page is a folder. -/
def numbered (n : ℕ) : Item := fun key =>
  if key = "fileId".toList then .int (n + 1)
  else if key = "filename".toList then .str "a".toList
  else if key = "type".toList then .int (if n = 150 then 1 else 0)
  else .null

def entries (total : ℕ) : List Item := (List.range total).map numbered

/-- A server of `total` entries, a hundred on a page; the cursor is the id of the last entry, and
`-1` on the last page. -/
def serverOf (total : ℕ) (cursor : ℤ) : Except Empty Body :=
  .ok ⟨((entries total).drop cursor.toNat).take 100,
    some (.int (if cursor.toNat + 100 < total then cursor.toNat + 100 else -1)), none⟩

theorem length_entries (total : ℕ) : (entries total).length = total := by
  rw [entries, List.length_map, List.length_range]

theorem serves_serverOf (py : Builtins) (total : ℕ) (cursor : ℕ) :
    Serves py (serverOf total) cursor (Chunked.pieces 100 ((entries total).drop cursor)) := by
  induction hleft : total - cursor using Nat.strong_induction_on generalizing cursor with
  | _ left ih =>
    have hlen : ((entries total).drop cursor).length = total - cursor := by
      rw [List.length_drop, length_entries]
    by_cases hnil : (entries total).drop cursor = []
    · rw [hnil, Chunked.pieces_nil]
      exact .empty rfl (by simp [hnil])
    · have hpos := List.length_pos_iff.mpr hnil
      have hpage : ((entries total).drop cursor).take 100 ≠ [] := by
        simpa using hnil
      rw [Chunked.pieces_cons (by decide) hnil]
      by_cases hmore : cursor + 100 < total
      · have hrest := ih (total - (cursor + 100)) (by omega) (cursor + 100) rfl
        rw [← List.drop_drop] at hrest
        have hnext : nextFileId py ⟨((entries total).drop cursor).take 100,
            some (.int (if cursor + 100 < total then (cursor : ℤ) + 100 else -1)), none⟩ =
            some ((cursor + 100 : ℕ) : ℤ) := by
          rw [if_pos hmore]
          rfl
        exact .more rfl hpage hnext (by omega) hrest
      · have hshort : ((entries total).drop cursor).length ≤ 100 := by omega
        have hend : nextFileId py ⟨((entries total).drop cursor).take 100,
            some (.int (if cursor + 100 < total then (cursor : ℤ) + 100 else -1)), none⟩ =
            some (-1) := by
          rw [if_neg hmore]
          rfl
        rw [List.drop_of_length_le hshort, Chunked.pieces_nil]
        exact .last rfl hpage (.inl hend)

theorem wanted_entries (py : Builtins) (total : ℕ) : wanted py (entries total) =
    (List.range total).map fun n => ⟨n + 1, "a".toList, if n = 150 then 1 else 0⟩ := by
  have hwanted : ((fun item => if py.isTrashed item then none else normalizeFile py item) ∘
      numbered) = fun n : ℕ => some ⟨n + 1, "a".toList, if n = 150 then 1 else 0⟩ := by
    funext n
    rfl
  rw [wanted, entries, List.filterMap_map, hwanted, List.filterMap_eq_map']

theorem length_wanted_entries (py : Builtins) (total : ℕ) :
    (wanted py (entries total)).length = total := by
  rw [wanted_entries, List.length_map, List.length_range]

theorem length_pieces_entries (total : ℕ) :
    (Chunked.pieces 100 (entries total)).length = (total + 100 - 1) / 100 := by
  rw [Chunked.pieces, List.length_map, List.length_range, length_entries]

/-- No texts with numbers in them. -/
def plain : Builtins := ⟨fun _ => none, fun _ => []⟩

/-- An account in which every directory has 250 entries. -/
def threePages : Account Unit Empty := ⟨fun _ _ => serverOf 250, fun _ _ name => (.ok name, ())⟩

/-- The folder on the second of three pages is in the listing, and not created again. -/
theorem list_files_right_iff_threePages :
    listFiles plain (serverOf 250) = .ok (wanted plain (entries 250)) ∧
      ∀ creation ∈ (ensurePath plain threePages ['0'] ["a".toList] ()).2.2,
        creation.name ≠ "a".toList := by
  have hserves : ∀ (_ : Unit) (_ : Text),
      Serves plain (serverOf 250) 0 (Chunked.pieces 100 (entries 250)) :=
    fun _ _ => serves_serverOf plain 250 0
  have hshort : (Chunked.pieces 100 (entries 250)).drop 100 = [] := by
    rw [List.drop_eq_nil_iff, length_pieces_entries]
    decide
  have hnone : wanted plain ((Chunked.pieces 100 (entries 250)).drop 100).flatten = [] := by
    rw [hshort]
    rfl
  have hright := list_files_right_iff plain threePages
    (fun _ _ => Chunked.pieces 100 (entries 250)) hserves
  rw [Chunked.flatten_pieces (by decide)] at hright
  refine ⟨(hright.1 () []).mpr hnone, fun creation hcreation hname => ?_⟩
  have hfolder : (⟨151, "a".toList, 1⟩ : File) ∈ wanted plain (entries 250) := by
    rw [wanted_entries]
    exact List.mem_map.mpr ⟨150, List.mem_range.mpr (by decide), rfl⟩
  have hnot := hright.2 (fun _ _ => hnone) _ _ _ creation hcreation _ hfolder
  rw [hname] at hnot
  exact absurd hnot (by decide)

/-- The last of 10001 entries is missing. -/
theorem listing_truncated : ¬∀ (py : Builtins) (request : ℤ → Except Empty Body)
    (pages : List (List Item)), Serves py request 0 pages → (∀ page ∈ pages, page.length ≤ 100) →
      listFiles py request = .ok (wanted py pages.flatten) := by
  intro hall
  have hserves := serves_serverOf plain 10001 0
  rw [List.drop_zero] at hserves
  have hsize : ∀ page ∈ Chunked.pieces 100 (entries 10001), page.length ≤ 100 := fun page hpage =>
    Chunked.length_of_mem_pieces hpage
  have hcomplete := hall plain _ _ hserves hsize
  rw [listFiles_eq hserves, Chunked.flatten_pieces (by decide)] at hcomplete
  have hlen := congrArg List.length (Except.ok.inj hcomplete)
  rw [length_wanted_entries] at hlen
  have hread : (((Chunked.pieces 100 (entries 10001)).take 100).flatten).length ≤ 100 * 100 := by
    have hcard := List.sum_le_card_nsmul
      (((Chunked.pieces 100 (entries 10001)).take 100).map List.length) 100 (by
        intro n hn
        obtain ⟨page, hpage, rfl⟩ := List.mem_map.mp hn
        exact hsize page (List.mem_of_mem_take hpage))
    rw [← List.length_flatten, List.length_map, List.length_take, nsmul_eq_mul] at hcard
    exact hcard.trans (Nat.mul_le_mul_right 100 (min_le_left _ _))
  have hle := List.length_filterMap_le
    (fun item => if plain.isTrashed item then none else normalizeFile plain item)
    ((Chunked.pieces 100 (entries 10001)).take 100).flatten
  rw [wanted] at hlen
  omega

end AllInOneBackup.Cloud123.Pan123
