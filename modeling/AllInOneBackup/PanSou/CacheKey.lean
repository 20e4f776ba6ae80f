import AllInOneBackup.Data.Netstring
import Mathlib.Data.List.Sort

/-! Cache keys. A key is the digest of a keyword and a list, joined by a colon. The list is
written unambiguously, but the keyword may hold a colon too, and then the text can be cut in two
ways; and a list of plugins that stands for the default or has five entries or more is written as
its digest, whatever is left of it. Two searches share a key just when they are equal but for
these cases. -/

namespace AllInOneBackup.PanSou.CacheKey

open Netstring

/-! ### Model -/

/-- `sort.Strings`. -/
def sortStrings (items : List Bytes) : List Bytes := items.insertionSort (· ≤ ·)

/-- `encodeList`. -/
def encodeList (items : List Bytes) : Bytes := encode items

/-- `tgSearchParserVersion`. -/
def tgSearchParserVersion : Bytes := ascii ['v', '2']

/-- `allChannelsHash`. -/
def allChannelsHash : Bytes := ascii ['a', 'l', 'l']

/-- `listHashCacheLimit`. -/
def listHashCacheLimit : ℕ := 4096

section Model

-- `hex.EncodeToString` of `md5.Sum`, `strings.ToLower` of `strings.TrimSpace`, and the names of
-- the registered plugins.
variable (md5 normalize : Bytes → Bytes) (allPluginNames : List Bytes)

def calculateListHash (items : List Bytes) : Bytes := md5 (encodeList items)

def allPluginsHash : Bytes := calculateListHash md5 (sortStrings allPluginNames)

/-- `channelHashCache` and `pluginHashCache`: what was computed for a list, under its encoding. -/
structure HashCache where
  entries : List (Bytes × Bytes) := []
  computed : ∀ e ∈ entries, e.2 = md5 e.1 := by exact List.forall_mem_nil _

namespace HashCache

variable {md5}

def load (c : HashCache md5) (key : Bytes) : Option Bytes := c.entries.lookup key

/-- `storeListHash`, for a list and its hash. -/
def storeListHash (c : HashCache md5) (items : List Bytes) : HashCache md5 :=
  let c : HashCache md5 := if listHashCacheLimit ≤ c.entries.length then {} else c
  if (c.load (encodeList items)).isSome then c
  else ⟨(encodeList items, calculateListHash md5 items) :: c.entries,
    List.forall_mem_cons.mpr ⟨rfl, c.computed⟩⟩

end HashCache

/-- The way by the cache that both list hashes take. -/
def cachedListHash (c : HashCache md5) (items : List Bytes) : Bytes × HashCache md5 :=
  match c.load (encodeList items) with
  | some hash => (hash, c)
  | none => (calculateListHash md5 items, c.storeListHash items)

def getChannelsHash (c : HashCache md5) (channels : List Bytes) : Bytes × HashCache md5 :=
  if channels = [] then (allChannelsHash, c)
  else if channels.length < 5 then (encodeList (sortStrings channels), c)
  else cachedListHash md5 c (sortStrings channels)

def getPluginsHash (c : HashCache md5) (plugins : List Bytes) : Bytes × HashCache md5 :=
  if plugins = [] then (allPluginsHash md5 allPluginNames, c)
  else if plugins.all (· = []) then (allPluginsHash md5 allPluginNames, c)
  else if plugins.length < 5 then (encodeList (sortStrings (plugins.filter (· ≠ []))), c)
  else cachedListHash md5 c (sortStrings (plugins.filter (· ≠ [])))

structure TGSearch where
  keyword : Bytes
  channels : List Bytes

/-- Names are shorter than `2 ^ 63` bytes, as all strings are. -/
structure PluginSearch where
  keyword : Bytes
  plugins : List Bytes
  extDigest : Bytes
  fits : ∀ name ∈ plugins, name.length < 2 ^ 63

def generateTGCacheKey (c : HashCache md5) (r : TGSearch) : Bytes × HashCache md5 :=
  let (channelsHash, c) := getChannelsHash md5 c r.channels
  (md5 (ascii ['t', 'g', ':'] ++ (tgSearchParserVersion ++ colon ::
    (normalize r.keyword ++ colon :: channelsHash))), c)

def generatePluginCacheKey (c : HashCache md5) (r : PluginSearch) : Bytes × HashCache md5 :=
  let (pluginsHash, c) := getPluginsHash md5 allPluginNames c r.plugins
  (md5 (ascii ['p', 'l', 'u', 'g', 'i', 'n', ':'] ++
    (normalize r.keyword ++ colon :: (pluginsHash ++ colon :: r.extDigest))), c)

end Model

/-! ### Sorted lists -/

theorem perm_sortStrings (items : List Bytes) : (sortStrings items).Perm items :=
  List.perm_insertionSort _ items

theorem sortStrings_eq_iff {xs ys : List Bytes} : sortStrings xs = sortStrings ys ↔ xs.Perm ys := by
  constructor
  · intro h
    exact (perm_sortStrings xs).symm.trans (h ▸ perm_sortStrings ys)
  · intro h
    have hperm := (perm_sortStrings xs).trans (h.trans (perm_sortStrings ys).symm)
    exact hperm.eq_of_pairwise (fun a b _ _ => List.le_antisymm)
      (List.pairwise_insertionSort _ xs) (List.pairwise_insertionSort _ ys)

theorem sortStrings_ne_nil {items : List Bytes} (h : items ≠ []) : sortStrings items ≠ [] :=
  fun hnil => h (List.perm_nil.mp (hnil ▸ (perm_sortStrings items).symm))

theorem encodeList_injective : Function.Injective encodeList := encode_injective

theorem comma_mem_encodeList {items : List Bytes} (h : items ≠ []) :
    (encodeList items).getLast? = some comma := getLast?_encode h

/-! ### What a list is written as -/

section Text

variable {md5 normalize : Bytes → Bytes} {allPluginNames : List Bytes}

theorem fst_cachedListHash (c : HashCache md5) (items : List Bytes) :
    (cachedListHash md5 c items).1 = calculateListHash md5 items := by
  rw [cachedListHash]
  cases h : c.load (encodeList items) with
  | none => rfl
  | some hash =>
    obtain ⟨before, after, hentries, -⟩ := List.lookup_eq_some_iff.mp h
    exact c.computed _ (hentries ▸ List.mem_append_right _ List.mem_cons_self)

/-- A list of channels that is written as its encoding. -/
def Short (channels : List Bytes) : Prop := channels ≠ [] ∧ channels.length < 5

theorem short_of_sortStrings_eq {xs ys : List Bytes} (h : sortStrings xs = sortStrings ys)
    (hx : Short xs) : Short ys := by
  have hperm := sortStrings_eq_iff.mp h
  refine ⟨fun hnil => hx.1 ?_, hperm.length_eq ▸ hx.2⟩
  subst hnil
  exact List.perm_nil.mp hperm

theorem getChannelsHash_of_short (c : HashCache md5) {channels : List Bytes} (h : Short channels) :
    (getChannelsHash md5 c channels).1 = encodeList (sortStrings channels) := by
  rw [getChannelsHash, if_neg h.1, if_pos h.2]

theorem getChannelsHash_of_not_short (c : HashCache md5) {channels : List Bytes}
    (h : ¬Short channels) : (getChannelsHash md5 c channels).1 =
      if channels = [] then allChannelsHash else calculateListHash md5 (sortStrings channels) := by
  rw [getChannelsHash]
  split_ifs with hnil hlt
  · rfl
  · exact absurd ⟨hnil, hlt⟩ h
  · exact fst_cachedListHash c _

/-- The plugins that are searched, in order. -/
def PluginSearch.names (allPluginNames : List Bytes) (r : PluginSearch) : List Bytes :=
  let kept := r.plugins.filter (· ≠ [])
  sortStrings (if kept = [] then allPluginNames else kept)

/-- The list is written as its digest. -/
def PluginSearch.Hashed (r : PluginSearch) : Prop :=
  r.plugins.filter (· ≠ []) = [] ∨ 5 ≤ r.plugins.length

instance (r : PluginSearch) : Decidable r.Hashed := inferInstanceAs (Decidable (_ ∨ _))

/-- What follows the keyword of a search of plugins. -/
def PluginSearch.tail (md5 : Bytes → Bytes) (allPluginNames : List Bytes) (r : PluginSearch) :
    Bytes :=
  let text := encodeList (r.names allPluginNames)
  (if r.Hashed then md5 text else text) ++ colon :: r.extDigest

theorem getPluginsHash_eq (c : HashCache md5) (r : PluginSearch) :
    (getPluginsHash md5 allPluginNames c r.plugins).1 = if r.Hashed
      then md5 (encodeList (r.names allPluginNames)) else encodeList (r.names allPluginNames) := by
  have hblank : (r.plugins.all fun p => decide (p = [])) = true ↔
      r.plugins.filter (· ≠ []) = [] := by
    simp [List.filter_eq_nil_iff]
  rw [getPluginsHash]
  by_cases hkept : r.plugins.filter (· ≠ []) = []
  · have hhashed : r.Hashed := .inl hkept
    have hnames : r.names allPluginNames = sortStrings allPluginNames :=
      congrArg sortStrings (if_pos hkept)
    rw [if_pos hhashed, hnames, if_pos (hblank.mpr hkept), ite_self]
    rfl
  · have hnil : r.plugins ≠ [] := fun h => hkept (by rw [h]; rfl)
    have hnames : r.names allPluginNames = sortStrings (r.plugins.filter (· ≠ [])) :=
      congrArg sortStrings (if_neg hkept)
    rw [if_neg hnil, if_neg (hkept ∘ hblank.mp), hnames]
    by_cases hlong : 5 ≤ r.plugins.length
    · rw [if_neg (by omega), if_pos (.inr hlong), fst_cachedListHash]
      rfl
    · have hplain : ¬r.Hashed := fun h => h.elim hkept hlong
      rw [if_pos (by omega), if_neg hplain]

/-! ### Shared keys -/

def IsHex (b : UInt8) : Prop := 48 ≤ b.toNat ∧ b.toNat ≤ 57 ∨ 97 ≤ b.toNat ∧ b.toNat ≤ 102

instance (b : UInt8) : Decidable (IsHex b) := inferInstanceAs (Decidable (_ ∨ _))

/-- What is used of `md5`: different texts have different digests, of 32 hexadecimal digits or
more. -/
structure IsDigest (md5 : Bytes → Bytes) : Prop where
  injective : Function.Injective md5
  hex : ∀ s, ∀ b ∈ md5 s, IsHex b
  length : ∀ s, 32 ≤ (md5 s).length

theorem IsDigest.not_mem (h : IsDigest md5) {b : UInt8} (s : Bytes) (hb : ¬IsHex b) : b ∉ md5 s :=
  fun hmem => hb (h.hex s b hmem)

/-- The same keyword and the same channels. -/
def TGSearch.Same (normalize : Bytes → Bytes) (r r' : TGSearch) : Prop :=
  normalize r.keyword = normalize r'.keyword ∧ sortStrings r.channels = sortStrings r'.channels

/-- The keyword of `r'` is that of `r` with a colon and a text behind it, and the channels of `r`
are written as that text, a colon and the channels of `r'`. -/
def TGSearch.Overlaps (normalize : Bytes → Bytes) (r r' : TGSearch) : Prop :=
  Short r.channels ∧ Short r'.channels ∧
    ∃ s, normalize r'.keyword = normalize r.keyword ++ colon :: s ∧
      encodeList (sortStrings r.channels) = s ++ colon :: encodeList (sortStrings r'.channels)

/-- The same keyword, plugins and `ext`. -/
def PluginSearch.Same (normalize : Bytes → Bytes) (allPluginNames : List Bytes)
    (r r' : PluginSearch) : Prop :=
  normalize r.keyword = normalize r'.keyword ∧
    r.names allPluginNames = r'.names allPluginNames ∧ r.extDigest = r'.extDigest

/-- The keyword of `r'` is that of `r` with a colon and a text behind it, and what follows the
keyword of `r` is that text, a colon and what follows the keyword of `r'`. -/
def PluginSearch.Overlaps (md5 normalize : Bytes → Bytes) (allPluginNames : List Bytes)
    (r r' : PluginSearch) : Prop :=
  ∃ s, normalize r'.keyword = normalize r.keyword ++ colon :: s ∧
    r.tail md5 allPluginNames = s ++ colon :: r'.tail md5 allPluginNames

/-- A keyword is not its own longer form. -/
theorem ne_append_colon (a s : Bytes) : a ≠ a ++ colon :: s := by
  intro h
  have hlen := congrArg List.length h
  rw [List.length_append, List.length_cons] at hlen
  omega

theorem tgKey_eq_iff_text (h : IsDigest md5) (c c' : HashCache md5) (r r' : TGSearch) :
    (generateTGCacheKey md5 normalize c r).1 = (generateTGCacheKey md5 normalize c' r').1 ↔
      normalize r.keyword ++ colon :: (getChannelsHash md5 c r.channels).1 =
        normalize r'.keyword ++ colon :: (getChannelsHash md5 c' r'.channels).1 := by
  simp only [generateTGCacheKey, h.injective.eq_iff, List.append_cancel_left_eq,
    List.cons.injEq, true_and]

/-- A list that is not written as its encoding has neither a colon nor a comma. -/
theorem not_mem_getChannelsHash (h : IsDigest md5) (c : HashCache md5) {channels : List Bytes}
    (hshort : ¬Short channels) : colon ∉ (getChannelsHash md5 c channels).1 ∧
      comma ∉ (getChannelsHash md5 c channels).1 := by
  rw [getChannelsHash_of_not_short c hshort]
  split_ifs
  · decide
  · exact ⟨h.not_mem _ (by decide), h.not_mem _ (by decide)⟩

/-- The default is not a digest. -/
theorem allChannelsHash_ne (h : IsDigest md5) (s : Bytes) : allChannelsHash ≠ md5 s := by
  intro hall
  have hmem : (108 : UInt8) ∈ md5 s := hall ▸ by decide
  exact h.not_mem s (by decide) hmem

/-- Only one of two equal texts cannot end in a comma. -/
theorem short_of_text_eq (h : IsDigest md5) (c c' : HashCache md5) {kw kw' : Bytes}
    {xs ys : List Bytes} (hx : Short xs)
    (htext : kw ++ colon :: (getChannelsHash md5 c xs).1 =
      kw' ++ colon :: (getChannelsHash md5 c' ys).1) : Short ys := by
  by_contra hy
  obtain ⟨-, hcomma⟩ := not_mem_getChannelsHash h c' hy
  have hlast := congrArg List.getLast? htext
  rw [getChannelsHash_of_short c hx, List.getLast?_append, List.getLast?_append,
    List.getLast?_cons, List.getLast?_cons, comma_mem_encodeList (sortStrings_ne_nil hx.1)] at hlast
  cases ht : (getChannelsHash md5 c' ys).1.getLast? with
  | none => simp [ht, comma, colon] at hlast
  | some b =>
    simp only [ht, Option.getD_some, Option.some_or, Option.some.injEq] at hlast
    exact hcomma (hlast ▸ List.mem_of_getLast? ht)

/-- Two searches with one text are the same, or overlap. -/
theorem tg_cases (h : IsDigest md5) (c c' : HashCache md5) {r r' : TGSearch}
    (htext : normalize r.keyword ++ colon :: (getChannelsHash md5 c r.channels).1 =
      normalize r'.keyword ++ colon :: (getChannelsHash md5 c' r'.channels).1) :
    r.Same normalize r' ∨ r.Overlaps normalize r' ∨ r'.Overlaps normalize r := by
  by_cases hx : Short r.channels
  · have hy := short_of_text_eq h c c' hx htext
    rw [getChannelsHash_of_short c hx, getChannelsHash_of_short c' hy] at htext
    obtain ⟨hkw, hlist⟩ | hover | hover := cut_cases htext
    · exact .inl ⟨hkw, encodeList_injective hlist⟩
    · exact .inr (.inl ⟨hx, hy, hover⟩)
    · exact .inr (.inr ⟨hy, hx, hover⟩)
  · have hy : ¬Short r'.channels := fun hy => hx (short_of_text_eq h c' c hy htext.symm)
    obtain ⟨hkw, hlist⟩ := eq_of_append_colon_last (not_mem_getChannelsHash h c hx).1
      (not_mem_getChannelsHash h c' hy).1 htext
    rw [getChannelsHash_of_not_short c hx, getChannelsHash_of_not_short c' hy] at hlist
    refine .inl ⟨hkw, ?_⟩
    split_ifs at hlist with hnil hnil' hnil'
    · rw [hnil, hnil']
    · exact absurd hlist (allChannelsHash_ne h _)
    · exact absurd hlist.symm (allChannelsHash_ne h _)
    · exact encodeList_injective (h.injective hlist)

/-- The text of a list of channels depends on the sorted list only. -/
theorem getChannelsHash_congr (c c' : HashCache md5) {xs ys : List Bytes}
    (h : sortStrings xs = sortStrings ys) :
    (getChannelsHash md5 c xs).1 = (getChannelsHash md5 c' ys).1 := by
  by_cases hx : Short xs
  · have hy := short_of_sortStrings_eq h hx
    rw [getChannelsHash_of_short c hx, getChannelsHash_of_short c' hy, h]
  · have hy : ¬Short ys := fun hy => hx (short_of_sortStrings_eq h.symm hy)
    have hnil : xs = [] ↔ ys = [] := by
      have hperm := sortStrings_eq_iff.mp h
      rw [← List.length_eq_zero_iff, hperm.length_eq, List.length_eq_zero_iff]
    simp only [getChannelsHash_of_not_short c hx, getChannelsHash_of_not_short c' hy, hnil, h]

theorem tgKey_iff (h : IsDigest md5) (c c' : HashCache md5) (r r' : TGSearch) :
    ((generateTGCacheKey md5 normalize c r).1 = (generateTGCacheKey md5 normalize c' r').1 ↔
      r.Same normalize r') ↔ ¬r.Overlaps normalize r' ∧ ¬r'.Overlaps normalize r := by
  rw [tgKey_eq_iff_text h]
  constructor
  · intro hiff
    constructor
    · rintro ⟨hx, hy, s, hkw, hlist⟩
      have hsame := hiff.mp (by
        rw [getChannelsHash_of_short c hx, getChannelsHash_of_short c' hy, hkw, hlist]
        simp)
      exact ne_append_colon _ s (hsame.1.trans hkw)
    · rintro ⟨hy, hx, s, hkw, hlist⟩
      have hsame := hiff.mp (by
        rw [getChannelsHash_of_short c hx, getChannelsHash_of_short c' hy, hkw, hlist]
        simp)
      exact ne_append_colon _ s (hsame.1.symm.trans hkw)
  · rintro ⟨hover, hover'⟩
    constructor
    · intro htext
      obtain hsame | ho | ho := tg_cases h c c' htext
      · exact hsame
      · exact absurd ho hover
      · exact absurd ho hover'
    · rintro ⟨hkw, hlist⟩
      rw [hkw, getChannelsHash_congr c c' hlist]

/-! ### Plugins -/

theorem pluginKey_eq_iff_text (h : IsDigest md5) (c c' : HashCache md5) (r r' : PluginSearch) :
    (generatePluginCacheKey md5 normalize allPluginNames c r).1 =
        (generatePluginCacheKey md5 normalize allPluginNames c' r').1 ↔
      normalize r.keyword ++ colon :: r.tail md5 allPluginNames =
        normalize r'.keyword ++ colon :: r'.tail md5 allPluginNames := by
  simp only [generatePluginCacheKey, getPluginsHash_eq, h.injective.eq_iff,
    List.append_cancel_left_eq, PluginSearch.tail]

/-- A digest is not the length of a name. -/
theorem digest_ne_encoding (h : IsDigest md5) {r : PluginSearch} (hplain : ¬r.Hashed)
    {s ext : Bytes} :
    md5 s ++ colon :: ext ≠ encodeList (r.names allPluginNames) ++ colon :: r.extDigest := by
  intro htext
  have hkept : r.plugins.filter (· ≠ []) ≠ [] := fun hnil => hplain (.inl hnil)
  have hnames : r.names allPluginNames = sortStrings (r.plugins.filter (· ≠ [])) :=
    congrArg sortStrings (if_neg hkept)
  obtain ⟨name, names, hcons⟩ := List.exists_cons_of_ne_nil (sortStrings_ne_nil hkept)
  rw [hnames, hcons, encodeList, encode] at htext
  simp only [List.append_assoc, List.cons_append] at htext
  obtain ⟨hdigits, -⟩ := eq_of_append_colon (h.not_mem s (by decide))
    (colon_not_mem_decimal name.length) htext
  have hmem : name ∈ r.plugins :=
    (List.mem_filter.mp ((perm_sortStrings _).subset (hcons ▸ List.mem_cons_self))).1
  have hshort : (decimal name.length).length ≤ 19 := by
    have hfits := r.fits name hmem
    exact length_decimal_le (by decide) (by omega)
  have hlong := h.length s
  rw [hdigits] at hlong
  omega

/-- Two searches with equal tails, both written as digests or both as encodings. -/
theorem names_eq_of_tail_eq (h : IsDigest md5) {r r' : PluginSearch}
    (htail : r.tail md5 allPluginNames = r'.tail md5 allPluginNames) :
    r.names allPluginNames = r'.names allPluginNames ∧ r.extDigest = r'.extDigest := by
  simp only [PluginSearch.tail] at htail
  have hcolon : ∀ s, colon ∉ md5 s := fun s => h.not_mem s (by decide)
  split_ifs at htail with hx hy hy
  · obtain ⟨hdigest, hext⟩ := eq_of_append_colon (hcolon _) (hcolon _) htail
    exact ⟨encodeList_injective (h.injective hdigest), hext⟩
  · exact absurd htail (digest_ne_encoding h hy)
  · exact absurd htail.symm (digest_ne_encoding h hx)
  · exact encode_append_colon htail

theorem pluginKey_iff (h : IsDigest md5) (c c' : HashCache md5) (r r' : PluginSearch) :
    ((generatePluginCacheKey md5 normalize allPluginNames c r).1 =
        (generatePluginCacheKey md5 normalize allPluginNames c' r').1 ↔
      r.Same normalize allPluginNames r') ↔
    ¬r.Overlaps md5 normalize allPluginNames r' ∧ ¬r'.Overlaps md5 normalize allPluginNames r ∧
      (r.Same normalize allPluginNames r' → (r.Hashed ↔ r'.Hashed)) := by
  rw [pluginKey_eq_iff_text h]
  constructor
  · intro hiff
    refine ⟨?_, ?_, fun hsame => ?_⟩
    · rintro ⟨s, hkw, htail⟩
      have hsame := hiff.mp (by rw [hkw, htail]; simp)
      exact ne_append_colon _ s (hsame.1.trans hkw)
    · rintro ⟨s, hkw, htail⟩
      have hsame := hiff.mp (by rw [hkw, htail]; simp)
      exact ne_append_colon _ s (hsame.1.symm.trans hkw)
    · have htext := hiff.mpr hsame
      obtain ⟨hkw, hnames, hext⟩ := hsame
      rw [hkw] at htext
      have htail := (List.cons.inj (List.append_cancel_left htext)).2
      have hrefl : r.Hashed ↔ r'.Hashed := by
        by_contra hne
        simp only [PluginSearch.tail] at htail
        split_ifs at htail with hx hy hy
        · exact hne (iff_of_true hx hy)
        · exact digest_ne_encoding h hy htail
        · exact digest_ne_encoding h hx htail.symm
        · exact hne (iff_of_false hx hy)
      exact hrefl
  · rintro ⟨hover, hover', hform⟩
    constructor
    · intro htext
      obtain ⟨hkw, htail⟩ | ho | ho := cut_cases htext
      · exact ⟨hkw, names_eq_of_tail_eq h htail⟩
      · exact absurd ho hover
      · exact absurd ho hover'
    · rintro ⟨hkw, hnames, hext⟩
      simp only [PluginSearch.tail, hkw, hnames, hext, hform ⟨hkw, hnames, hext⟩]

/-- Two searches have one key just when they are the same, unless their texts can be cut in two
ways, or one list of plugins is written as its digest and the other, of the same plugins, as its
encoding. -/
theorem cacheKeys_iff (h : IsDigest md5) (c c' : HashCache md5) :
    (∀ r r' : TGSearch, ((generateTGCacheKey md5 normalize c r).1 =
        (generateTGCacheKey md5 normalize c' r').1 ↔ r.Same normalize r') ↔
      ¬r.Overlaps normalize r' ∧ ¬r'.Overlaps normalize r) ∧
    ∀ r r' : PluginSearch, ((generatePluginCacheKey md5 normalize allPluginNames c r).1 =
        (generatePluginCacheKey md5 normalize allPluginNames c' r').1 ↔
          r.Same normalize allPluginNames r') ↔
      ¬r.Overlaps md5 normalize allPluginNames r' ∧
        ¬r'.Overlaps md5 normalize allPluginNames r ∧
        (r.Same normalize allPluginNames r' → (r.Hashed ↔ r'.Hashed)) :=
  ⟨tgKey_iff h c c', pluginKey_iff h c c'⟩

/-- No text can be cut in two ways where the keywords hold no colon. -/
theorem TGSearch.not_overlaps {r r' : TGSearch} (h : colon ∉ normalize r'.keyword) :
    ¬r.Overlaps normalize r' := by
  rintro ⟨-, -, s, hkw, -⟩
  exact h (hkw ▸ List.mem_append_right _ List.mem_cons_self)

end Text

/-! ### A digest -/

def hexDigit (n : ℕ) : UInt8 := UInt8.ofNat (if n < 10 then 48 + n else 87 + n)

def hexByte (b : UInt8) : Bytes := [hexDigit (b.toNat / 16), hexDigit (b.toNat % 16)]

/-- The digests of three texts. -/
def known : List (Bytes × Bytes) :=
  [(ascii "tg:v2:go:1:a,".toList, ascii "e795c89ab33d35035f8077e2f5d3bde0".toList),
    (ascii "tg:v2:go:1:b,".toList, ascii "5448da5ace04663abf41316ff8520779".toList),
    (ascii "tg:v2:x:5:b:1:a,".toList, ascii "d474863cff10b498b6da9f05788b5c43".toList)]

/-- The known digest, and for any other text its bytes in hexadecimal behind 33 zeros. -/
def digest (s : Bytes) : Bytes :=
  match known.lookup s with
  | some d => d
  | none => List.replicate 33 48 ++ s.flatMap hexByte

theorem hexByte_injective : ∀ a b : UInt8, hexByte a = hexByte b → a = b := by
  intro a b h
  have hdigit : ∀ m < 16, ∀ n < 16, hexDigit m = hexDigit n → m = n := by decide
  obtain ⟨hhigh, hlow⟩ := List.cons.inj h
  have ha := a.toNat_lt
  have hb := b.toNat_lt
  have hdiv := hdigit _ (by omega) _ (by omega) hhigh
  have hmod := hdigit _ (by omega) _ (by omega) (List.cons.inj hlow).1
  exact UInt8.toNat_inj.mp (by omega)

theorem flatMap_hexByte_injective : ∀ s t : Bytes,
    s.flatMap hexByte = t.flatMap hexByte → s = t
  | [], [], _ => rfl
  | [], b :: t, h => by simp [hexByte] at h
  | a :: s, [], h => by simp [hexByte] at h
  | a :: s, b :: t, h => by
    rw [List.flatMap_cons, List.flatMap_cons] at h
    obtain ⟨hbyte, hrest⟩ := List.append_inj h rfl
    rw [hexByte_injective a b hbyte, flatMap_hexByte_injective s t hrest]

theorem isHex_hexDigit : ∀ n < 16, IsHex (hexDigit n) := by decide

theorem isHex_of_mem_flatMap {s : Bytes} {b : UInt8} (hb : b ∈ s.flatMap hexByte) : IsHex b := by
  obtain ⟨a, -, ha⟩ := List.mem_flatMap.mp hb
  have hlt := a.toNat_lt
  rw [hexByte, List.mem_cons, List.mem_singleton] at ha
  obtain rfl | rfl := ha
  · exact isHex_hexDigit _ (by omega)
  · exact isHex_hexDigit _ (by omega)

theorem mem_known {s d : Bytes} (h : known.lookup s = some d) : (s, d) ∈ known := by
  obtain ⟨before, after, hknown, -⟩ := List.lookup_eq_some_iff.mp h
  exact hknown ▸ List.mem_append_right _ List.mem_cons_self

theorem length_known : ∀ e ∈ known, e.2.length = 32 := by decide

theorem isHex_known : ∀ e ∈ known, (e.2.all fun b => IsHex b) = true := by decide

theorem known_injective : ∀ e ∈ known, ∀ e' ∈ known, e.2 = e'.2 → e.1 = e'.1 := by decide

theorem length_unknown (s : Bytes) :
    32 < (List.replicate 33 (48 : UInt8) ++ s.flatMap hexByte).length := by
  rw [List.length_append, List.length_replicate]
  omega

theorem digest_injective : Function.Injective digest := by
  intro s t h
  simp only [digest] at h
  cases hs : known.lookup s with
  | some d =>
    cases ht : known.lookup t with
    | some e =>
      simp only [hs, ht] at h
      exact known_injective _ (mem_known hs) _ (mem_known ht) h
    | none =>
      simp only [hs, ht] at h
      have hlen := length_unknown t
      rw [← h, length_known _ (mem_known hs)] at hlen
      exact absurd hlen (lt_irrefl 32)
  | none =>
    cases ht : known.lookup t with
    | some e =>
      simp only [hs, ht] at h
      have hlen := length_unknown s
      rw [h, length_known _ (mem_known ht)] at hlen
      exact absurd hlen (lt_irrefl 32)
    | none =>
      simp only [hs, ht] at h
      exact flatMap_hexByte_injective s t (List.append_cancel_left h)

theorem isDigest_digest : IsDigest digest := by
  constructor
  · exact digest_injective
  · intro s b hb
    rw [digest] at hb
    split at hb
    · exact of_decide_eq_true (List.all_eq_true.mp (isHex_known _ (mem_known ‹_›)) b hb)
    · obtain hzero | hhex := List.mem_append.mp hb
      · rw [List.eq_of_mem_replicate hzero]
        decide
      · exact isHex_of_mem_flatMap hhex
  · intro s
    rw [digest]
    split
    · exact (length_known _ (mem_known ‹_›)).ge
    · exact (length_unknown s).le

/-- Two searches for `go`, in the channels `a` and `b`. -/
theorem cacheKeys_iff_go :
    (generateTGCacheKey digest id {} ⟨ascii ['g', 'o'], [ascii ['a']]⟩).1 ≠
      (generateTGCacheKey digest id {} ⟨ascii ['g', 'o'], [ascii ['b']]⟩).1 := by
  have hfree : colon ∉ ascii ['g', 'o'] := by decide
  have hiff := ((@cacheKeys_iff digest id [] isDigest_digest {} {}).1
    ⟨ascii ['g', 'o'], [ascii ['a']]⟩ ⟨ascii ['g', 'o'], [ascii ['b']]⟩).mpr
    ⟨TGSearch.not_overlaps hfree, TGSearch.not_overlaps hfree⟩
  intro hkey
  exact absurd (hiff.mp hkey).2 (by decide)

/-- The search for `x` in the channel `b:1:a` and the search for `x:5:b` in the channel `a`. -/
theorem cacheKeys_collide :
    ¬∀ (md5 normalize : Bytes → Bytes), IsDigest md5 → ∀ (c : HashCache md5) (r r' : TGSearch),
      (generateTGCacheKey md5 normalize c r).1 = (generateTGCacheKey md5 normalize c r').1 ↔
        r.Same normalize r' := by
  intro hall
  have hsame := (hall digest id isDigest_digest {} ⟨ascii ['x'], [ascii "b:1:a".toList]⟩
    ⟨ascii "x:5:b".toList, [ascii ['a']]⟩).mp (by decide)
  exact absurd hsame.1 (by decide)

end AllInOneBackup.PanSou.CacheKey
