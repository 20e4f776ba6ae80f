import AllInOneBackup.Cloud123.Library.Episodes
import AllInOneBackup.Cloud123.Library.Tables
import AllInOneBackup.Data.Dict
import Mathlib.Data.Char
import Mathlib.Data.List.Lex
import Mathlib.Data.List.Sort
import Mathlib.Data.Prod.Lex
import Mathlib.Data.Sum.Order
import Mathlib.Order.Defs.LinearOrder
import Mathlib.Algebra.Order.Ring.Int

/-! The play list of a work: its video files by season and episode, the largest version first. -/

namespace AllInOneBackup.Cloud123.Library

open Data

variable (U : Unicode)

/-! ### The natural order -/

/-- `re.split(r"(\d+)", s)`: texts and runs of digits in turn, a text at both ends. -/
def splitDigits (s : Text) : List Text :=
  let runs := s.splitBy fun a b => U.digit a = U.digit b
  let first := if s.head?.any U.digit then [[]] else []
  let last := if s.getLast?.all U.digit then [[]] else []
  first ++ runs ++ last

/-- `int(p)`, where every character is a decimal digit. -/
def intOf? (p : Text) : Option ℕ := p.foldlM (fun n c => (U.decimal c).map (10 * n + ·)) 0

abbrev NaturalKey := List (Lex (Text ⊕ ℕ))

/-- `int(p) if p.isdigit() else p`; `none` where it raises. -/
def naturalPiece (p : Text) : Option (Lex (Text ⊕ ℕ)) :=
  if p ≠ [] ∧ p.all U.isDigit then (intOf? U p).map fun n => toLex (.inr n) else some (toLex (.inl p))

def naturalKey (text : Text) : Option NaturalKey :=
  (splitDigits U (U.lower text)).mapM (naturalPiece U)

/-! ### The list -/

/-- An episode with its largest version and the others. -/
structure PlayItem where
  season : ℕ
  episode : ℕ
  file : WorkFile
  alternates : List WorkFile

/-- The seasons with their items; a film, which has none, stands alone. -/
structure PlayList where
  seasons : List (ℕ × List PlayItem)
  standalone : Option WorkFile

namespace PlayItem

variable (item : PlayItem)

def pair : ℕ × ℕ := (item.season, item.episode)

def files : List WorkFile := item.file :: item.alternates

end PlayItem

namespace PlayList

variable (play : PlayList)

def items : List PlayItem := play.seasons.flatMap Prod.snd

def pairs : List (ℕ × ℕ) := play.items.map PlayItem.pair

end PlayList

/-- The season and the episode of a file as they are played; there is no season 0. -/
def playPair (f : WorkFile) : Option (ℕ × ℕ) :=
  (parseSeasonEpisode U f.path f.fileName).map fun p => (if p.1 = 0 then 1 else p.1, p.2)

/-- A file with the natural key of its name; `none` where that raises. -/
def keyed (f : WorkFile) : Option (NaturalKey × WorkFile) :=
  (naturalKey U f.fileName).map (·, f)

/-- A size with the natural key of a name. -/
abbrev SizeKey := ℤ ×ₗ NaturalKey

instance : LinearOrder SizeKey := @Prod.Lex.instLinearOrder ℤ NaturalKey Int.instLinearOrder _

/-- Larger files are first, then the natural order of the names. -/
def versionKey (p : NaturalKey × WorkFile) : SizeKey := toLex (-p.2.size, p.1)

/-- `l.sort(key=key)`. -/
def sortBy {α κ : Type} [LinearOrder κ] (key : α → κ) (l : List α) : List α :=
  l.insertionSort fun a b => key a ≤ key b

/-- `max(l, key=key, default=None)`: the first of the largest. -/
def maxBy {α κ : Type} [LinearOrder κ] (key : α → κ) : List α → Option α
  | [] => none
  | a :: l => some (l.foldl (fun best b => if key best < key b then b else best) a)

/-- The item of a group, with the key of its file. -/
def itemOf (p : ℕ × ℕ) (group : List (NaturalKey × WorkFile)) : List (NaturalKey × PlayItem) :=
  match sortBy versionKey group with
  | [] => []
  | f :: alternates => [(f.1, ⟨p.1, p.2, f.2, alternates.map Prod.snd⟩)]

def itemKey (p : NaturalKey × PlayItem) : ℕ ×ₗ NaturalKey := toLex (p.2.episode, p.1)

/-- The items of each season, in the order of the episodes. -/
def seasonsOf (parsed : List ((ℕ × ℕ) × NaturalKey × WorkFile)) : List (ℕ × List PlayItem) :=
  let items := (Dict.collect parsed).flatMap fun g => itemOf g.1 g.2
  (Dict.collect (items.map fun e => (e.2.season, e))).map fun s =>
    (s.1, (sortBy itemKey s.2).map Prod.snd)

/-- `none` where a name has no natural key. -/
def orderPlayItems (files : List WorkFile) : Option PlayList :=
  let videos := files.filter (·.isVideo)
  let parsed := videos.filterMap fun f => (playPair U f).map (·, f)
  if parsed = [] then
    (videos.mapM (keyed U)).map fun unparsed =>
      { seasons := []
        standalone := (maxBy (fun p => (toLex (p.2.size, p.1) : SizeKey)) unparsed).map (·.2) }
  else
    (parsed.mapM fun p => (keyed U p.2).map (p.1, ·)).map fun parsed =>
      { seasons := seasonsOf parsed, standalone := none }

/-! ### What is in the list -/

variable {U} {files : List WorkFile} {play : PlayList} {item : PlayItem} {f : WorkFile}
  {p : ℕ × ℕ} {k : NaturalKey} {group : List (NaturalKey × WorkFile)}
  {parsed : List ((ℕ × ℕ) × NaturalKey × WorkFile)}

theorem mem_sortBy {α κ : Type} [LinearOrder κ] {key : α → κ} {l : List α} {a : α} :
    a ∈ sortBy key l ↔ a ∈ l :=
  List.mem_insertionSort _

/-- What a pass that may fail returns, in both directions. -/
theorem mem_of_mapM {α β : Type} {g : α → Option β} {l : List α} {l' : List β}
    (h : l.mapM g = some l') :
    (∀ b ∈ l', ∃ a ∈ l, g a = some b) ∧ ∀ a ∈ l, ∃ b ∈ l', g a = some b := by
  induction l generalizing l' with
  | nil =>
    obtain rfl := Option.some.inj h
    exact ⟨fun b hb => absurd hb List.not_mem_nil, fun a ha => absurd ha List.not_mem_nil⟩
  | cons a l ih =>
    rw [List.mapM_cons] at h
    obtain ⟨b, hb, h⟩ := Option.bind_eq_some_iff.mp h
    obtain ⟨rest, hrest, h⟩ := Option.bind_eq_some_iff.mp h
    obtain rfl := Option.some.inj h
    obtain ⟨hback, hforth⟩ := ih hrest
    constructor
    · intro b' hb'
      rcases List.mem_cons.mp hb' with rfl | hmem
      · exact ⟨a, List.mem_cons_self, hb⟩
      · obtain ⟨a', ha', heq⟩ := hback b' hmem
        exact ⟨a', List.mem_cons_of_mem _ ha', heq⟩
    · intro a' ha'
      rcases List.mem_cons.mp ha' with rfl | hmem
      · exact ⟨b, List.mem_cons_self, hb⟩
      · obtain ⟨b', hb', heq⟩ := hforth a' hmem
        exact ⟨b', List.mem_cons_of_mem _ hb', heq⟩

theorem mem_itemOf (h : (k, item) ∈ itemOf p group) :
    item.pair = p ∧ ∀ f, f ∈ item.files ↔ ∃ k, (k, f) ∈ group := by
  unfold itemOf at h
  split at h
  · cases h
  · rename_i first alternates hsort
    obtain ⟨rfl, rfl⟩ := Prod.mk.inj (List.mem_singleton.mp h)
    refine ⟨rfl, fun f => ?_⟩
    have hfiles : f ∈ first.2 :: alternates.map Prod.snd ↔
        ∃ q ∈ sortBy versionKey group, q.2 = f := by
      rw [hsort, ← List.map_cons, List.mem_map]
    have hpair : (∃ q ∈ sortBy versionKey group, q.2 = f) ↔ ∃ k, (k, f) ∈ group := by
      constructor
      · rintro ⟨⟨k, f'⟩, hq, rfl⟩
        exact ⟨k, mem_sortBy.mp hq⟩
      · rintro ⟨k, hq⟩
        exact ⟨(k, f), mem_sortBy.mpr hq, rfl⟩
    exact hfiles.trans hpair

theorem exists_mem_itemOf (h : group ≠ []) : ∃ k item, (k, item) ∈ itemOf p group := by
  unfold itemOf
  split
  · rename_i hsort
    have hlength := congrArg List.length hsort
    rw [sortBy, List.length_insertionSort] at hlength
    exact absurd (List.length_eq_zero_iff.mp hlength) h
  · exact ⟨_, _, List.mem_singleton_self _⟩

/-- The items of all seasons are those of the groups. -/
theorem mem_seasonsOf : item ∈ (seasonsOf parsed).flatMap Prod.snd ↔
    ∃ g ∈ Dict.collect parsed, ∃ k, (k, item) ∈ itemOf g.1 g.2 := by
  simp only [seasonsOf, List.mem_flatMap, List.mem_map]
  constructor
  · rintro ⟨_, ⟨⟨season, es⟩, hs, rfl⟩, hitem⟩
    obtain ⟨⟨k, item'⟩, he, rfl⟩ := List.mem_map.mp hitem
    obtain ⟨-, rfl⟩ := Dict.mem_collect.mp hs
    have hpair := Dict.mem_valuesOf.mp (mem_sortBy.mp he)
    obtain ⟨e, he, heq⟩ := List.mem_map.mp hpair
    obtain ⟨-, rfl⟩ := Prod.mk.inj heq
    obtain ⟨g, hg, hmem⟩ := List.mem_flatMap.mp he
    exact ⟨g, hg, k, hmem⟩
  · rintro ⟨g, hg, k, hmem⟩
    have hitem : (k, item) ∈ (Dict.collect parsed).flatMap fun g => itemOf g.1 g.2 :=
      List.mem_flatMap.mpr ⟨g, hg, hmem⟩
    have he : (item.season, (k, item)) ∈
        ((Dict.collect parsed).flatMap fun g => itemOf g.1 g.2).map fun e => (e.2.season, e) :=
      List.mem_map.mpr ⟨_, hitem, rfl⟩
    refine ⟨_, ⟨(item.season, _), Dict.mem_collect.mpr ⟨List.mem_map.mpr ⟨_, he, rfl⟩, rfl⟩,
      rfl⟩, ?_⟩
    exact List.mem_map.mpr ⟨_, mem_sortBy.mpr (Dict.mem_valuesOf.mpr he), rfl⟩

/-- An item has the files of its season and episode, and there is an item for each. -/
theorem items_of_orderPlayItems (h : orderPlayItems U files = some play) :
    (∀ item ∈ play.items, ∀ f, f ∈ item.files ↔
      f ∈ files ∧ f.isVideo = true ∧ playPair U f = some item.pair) ∧
    ∀ f ∈ files, f.isVideo = true → ∀ p, playPair U f = some p → p ∈ play.pairs := by
  have hparsed : ∀ (q : ℕ × ℕ) (f : WorkFile),
      (q, f) ∈ (files.filter (·.isVideo)).filterMap (fun f => (playPair U f).map (·, f)) ↔
        f ∈ files ∧ f.isVideo = true ∧ playPair U f = some q := by
    intro q f
    rw [List.mem_filterMap]
    constructor
    · rintro ⟨f', hf', heq⟩
      obtain ⟨q', hq', hpair⟩ := Option.map_eq_some_iff.mp heq
      obtain ⟨rfl, rfl⟩ := Prod.mk.inj hpair
      obtain ⟨hmem, hvideo⟩ := List.mem_filter.mp hf'
      exact ⟨hmem, hvideo, hq'⟩
    · rintro ⟨hmem, hvideo, hq⟩
      exact ⟨f, List.mem_filter.mpr ⟨hmem, hvideo⟩, by rw [hq]; rfl⟩
  unfold orderPlayItems at h
  dsimp only at h
  split_ifs at h with hnil
  · obtain ⟨unparsed, -, rfl⟩ := Option.map_eq_some_iff.mp h
    refine ⟨fun item hitem => absurd hitem List.not_mem_nil, fun f hf hvideo p hp => ?_⟩
    have hmem := (hparsed p f).mpr ⟨hf, hvideo, hp⟩
    rw [hnil] at hmem
    cases hmem
  · obtain ⟨keys, hkeys, rfl⟩ := Option.map_eq_some_iff.mp h
    obtain ⟨hback, hforth⟩ := mem_of_mapM hkeys
    have hkeyed : ∀ (q : ℕ × ℕ) (f : WorkFile), (∃ k, (q, k, f) ∈ keys) ↔
        f ∈ files ∧ f.isVideo = true ∧ playPair U f = some q := by
      intro q f
      rw [← hparsed]
      constructor
      · rintro ⟨k, hk⟩
        obtain ⟨⟨q', f'⟩, hmem, heq⟩ := hback _ hk
        obtain ⟨e, he, hpair⟩ := Option.map_eq_some_iff.mp heq
        obtain ⟨k', -, rfl⟩ := Option.map_eq_some_iff.mp he
        obtain ⟨rfl, hrest⟩ := Prod.mk.inj hpair
        obtain ⟨-, rfl⟩ := Prod.mk.inj hrest
        exact hmem
      · intro hmem
        obtain ⟨⟨q', k', f'⟩, hk, heq⟩ := hforth _ hmem
        obtain ⟨e, he, hpair⟩ := Option.map_eq_some_iff.mp heq
        obtain ⟨k'', -, rfl⟩ := Option.map_eq_some_iff.mp he
        obtain ⟨rfl, hrest⟩ := Prod.mk.inj hpair
        obtain ⟨-, rfl⟩ := Prod.mk.inj hrest
        exact ⟨_, hk⟩
    have hgroup : ∀ (q : ℕ × ℕ) (vs : List (NaturalKey × WorkFile)),
        (q, vs) ∈ Dict.collect keys → ∀ f, (∃ k, (k, f) ∈ vs) ↔
          f ∈ files ∧ f.isVideo = true ∧ playPair U f = some q := by
      intro q vs hvs f
      obtain ⟨-, rfl⟩ := Dict.mem_collect.mp hvs
      rw [← hkeyed]
      exact exists_congr fun k => Dict.mem_valuesOf
    constructor
    · intro item hitem f
      obtain ⟨⟨q, vs⟩, hg, k, hmem⟩ := mem_seasonsOf.mp hitem
      obtain ⟨rfl, hfiles⟩ := mem_itemOf hmem
      rw [hfiles, hgroup _ _ hg]
    · intro f hf hvideo p hp
      obtain ⟨k, hk⟩ := (hkeyed p f).mpr ⟨hf, hvideo, hp⟩
      have hg : (p, Dict.valuesOf p keys) ∈ Dict.collect keys :=
        Dict.mem_collect.mpr ⟨List.mem_map_of_mem hk, rfl⟩
      have hne : Dict.valuesOf p keys ≠ [] :=
        List.ne_nil_of_mem (Dict.mem_valuesOf.mpr hk)
      obtain ⟨k', item, hmem⟩ := exists_mem_itemOf (p := p) hne
      refine List.mem_map.mpr ⟨item, mem_seasonsOf.mpr ⟨_, hg, k', hmem⟩, (mem_itemOf hmem).1⟩

end AllInOneBackup.Cloud123.Library
