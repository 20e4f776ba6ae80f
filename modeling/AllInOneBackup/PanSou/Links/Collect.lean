import AllInOneBackup.PanSou.DiskCache.Store
import AllInOneBackup.PanSou.Links.Idempotent

/-! The links of one message. The links of six drives are kept by their cleaned URL, with the last
password that was found for it, until the message has been read, and their URLs are cleaned again
when they are listed. The links of all other types are listed at once, each with its first
password. -/

namespace AllInOneBackup.PanSou.Links

open Data.Search
open DiskCache (Table)

/-! ### The model -/

inductive Drive
  | baidu | tianyi | uc | pan123 | pan115 | aliyun
  deriving DecidableEq

/-- The type of a link: one of the six, or any other. -/
inductive LinkType
  | drive (drive : Drive)
  | other (name : String)
  deriving DecidableEq

/-- `model.Link`. -/
structure Link where
  type : LinkType
  url : Bytes
  password : Bytes
  deriving DecidableEq

/-- The part of a Baidu link before its password. -/
def baiduBase (rawURL : Bytes) : Bytes :=
  match index pwdMark rawURL with
  | some pwdIdx => rawURL.take pwdIdx
  | none => rawURL

def normalizeBaiduPanURL (url password : Bytes) : Bytes :=
  let url := cleanBaiduPanURL url
  if contains pwdMark url then url
  else if password ≠ [] then url ++ pwdMark ++ password.take 4
  else url

def normalizeUrl (rawUrl : Bytes) : Bytes := (queryUnescape rawUrl).getD rawUrl

namespace Drive

def clean : Drive → Bytes → Bytes
  | baidu => cleanBaiduPanURL
  | tianyi => cleanTianyiPanURL
  | uc => cleanUCPanURL
  | pan123 => clean123PanURL
  | pan115 => clean115PanURL
  | aliyun => cleanAliyunPanURL

/-- The key of a link in the map of its drive. -/
def base : Drive → Bytes → Bytes
  | baidu => baiduBase
  | d => d.clean

/-- The URL under which an entry is listed; only the one of Baidu has the password. -/
def normalize : Drive → Bytes → Bytes → Bytes
  | baidu => normalizeBaiduPanURL
  | d => fun baseURL _ => d.clean baseURL

/-- The order in which the drives are listed. -/
def specs : List Drive := [baidu, tianyi, uc, pan123, pan115, aliyun]

end Drive

structure LinkCandidates where
  direct : List Link := []
  found : List Bytes := []
  byType : Drive → Table Bytes Bytes := fun _ => ∅

def setPassword (byType : Table Bytes Bytes) (baseURL password : Bytes) : Table Bytes Bytes :=
  if password ≠ [] then byType.insert baseURL password
  else if (byType.lookup baseURL).isSome then byType
  else byType.insert baseURL []

namespace LinkCandidates

local instance lawfulBEq_bytes : LawfulBEq Bytes := inferInstance

/-- `add(link.type, link.url, link.password)`. -/
def add (c : LinkCandidates) (link : Link) : LinkCandidates :=
  match link.type with
  | .drive d =>
    let byType := setPassword (c.byType d) (d.base link.url) link.password
    { c with byType := Function.update c.byType d byType }
  | .other name =>
    let normalizedHref := normalizeUrl link.url
    if normalizedHref ∈ c.found then c
    else
      let direct := c.direct ++ [⟨.other name, normalizedHref, link.password⟩]
      { c with found := c.found ++ [normalizedHref], direct := direct }

/-- The links that have been listed, and their URLs. -/
structure Listing where
  found : List Bytes
  links : List Link

/-- The link of one entry of the map of a drive is listed. -/
def Listing.emit (s : Listing) (e : Drive × (Sigma fun _ : Bytes => Bytes)) : Listing :=
  let normalizedURL := e.1.normalize e.2.1 e.2.2
  if normalizedURL ∈ s.found then s
  else ⟨s.found ++ [normalizedURL], s.links ++ [⟨.drive e.1, normalizedURL, e.2.2⟩]⟩

/-- The entries of all drives, those of one drive in any order. -/
def entries (order : Drive → List (Sigma fun _ : Bytes => Bytes)) :
    List (Drive × (Sigma fun _ : Bytes => Bytes)) :=
  Drive.specs.flatMap fun d => (order d).map (d, ·)

def finalize (c : LinkCandidates) (order : Drive → List (Sigma fun _ : Bytes => Bytes)) :
    List Link :=
  ((entries order).foldl Listing.emit ⟨c.found, c.direct⟩).links

end LinkCandidates

def collect (links : List Link) : LinkCandidates := links.foldl .add {}

theorem collect_concat (links : List Link) (link : Link) :
    collect (links ++ [link]) = (collect links).add link := by
  rw [collect, List.foldl_append]
  rfl

/-! ### The links that are listed at once -/

def Direct (link : Link) : Prop := ∃ name, link.type = .other name

/-- The link is one of the candidates, and no candidate before it has its URL. -/
def First (candidates : List Link) (l : Link) : Prop :=
  ∃ before link after, candidates = before ++ link :: after ∧ Direct link ∧
    l = { link with url := normalizeUrl link.url } ∧
    ∀ earlier ∈ before, Direct earlier → normalizeUrl earlier.url ≠ l.url

variable {candidates : List Link} {c : LinkCandidates} {link l l' : Link} {d : Drive}
variable {order : Drive → List (Sigma fun _ : Bytes => Bytes)}

theorem First.append (h : First candidates l) (more : List Link) :
    First (candidates ++ more) l := by
  obtain ⟨before, link, after, rfl, hrest⟩ := h
  exact ⟨before, link, after ++ more, by simp, hrest⟩

/-- What is known of the links that are listed at once. -/
structure DirectRight (candidates : List Link) (c : LinkCandidates) : Prop where
  found : c.found = c.direct.map Link.url
  nodup : c.found.Nodup
  first : ∀ l ∈ c.direct, First candidates l
  listed : ∀ link ∈ candidates, Direct link → normalizeUrl link.url ∈ c.found

theorem directRight_collect (candidates : List Link) :
    DirectRight candidates (collect candidates) := by
  induction candidates using List.reverseRecOn with
  | nil =>
    exact ⟨rfl, List.nodup_nil, fun l hl => absurd hl List.not_mem_nil,
      fun l hl => absurd hl List.not_mem_nil⟩
  | append_singleton candidates link ih =>
    rw [collect_concat]
    cases htype : link.type with
    | drive d =>
      have hadd : ((collect candidates).add link).direct = (collect candidates).direct ∧
          ((collect candidates).add link).found = (collect candidates).found := by
        rw [LinkCandidates.add, htype]
        exact ⟨rfl, rfl⟩
      constructor
      · rw [hadd.1, hadd.2]
        exact ih.found
      · rw [hadd.2]
        exact ih.nodup
      · rw [hadd.1]
        exact fun l hl => (ih.first l hl).append _
      · rw [hadd.2]
        intro link' hlink' hdirect
        rcases List.mem_append.mp hlink' with hlink' | hlink'
        · exact ih.listed link' hlink' hdirect
        · obtain ⟨name, hname⟩ := hdirect
          rw [List.mem_singleton.mp hlink', htype] at hname
          cases hname
    | other name =>
      have hdirect : Direct link := ⟨name, htype⟩
      by_cases hfound : normalizeUrl link.url ∈ (collect candidates).found
      · have hadd : (collect candidates).add link = collect candidates := by
          rw [LinkCandidates.add, htype]
          exact if_pos hfound
        rw [hadd]
        refine ⟨ih.found, ih.nodup, fun l hl => (ih.first l hl).append _, ?_⟩
        intro link' hlink' hdirect'
        rcases List.mem_append.mp hlink' with hlink' | hlink'
        · exact ih.listed link' hlink' hdirect'
        · rwa [List.mem_singleton.mp hlink']
      · have hadd : (collect candidates).add link =
            { collect candidates with
              found := (collect candidates).found ++ [normalizeUrl link.url],
              direct := (collect candidates).direct ++
                [⟨.other name, normalizeUrl link.url, link.password⟩] } := by
          rw [LinkCandidates.add, htype]
          exact if_neg hfound
        rw [hadd]
        constructor
        · simp only [List.map_append, List.map_cons, List.map_nil, ih.found]
        · exact List.nodup_append.mpr ⟨ih.nodup, List.nodup_singleton _, fun u hu u' hu' heq =>
            hfound (by rwa [← List.mem_singleton.mp hu', ← heq])⟩
        · intro l hl
          rcases List.mem_append.mp hl with hl | hl
          · exact (ih.first l hl).append _
          · rw [List.mem_singleton.mp hl]
            refine ⟨candidates, link, [], rfl, hdirect, by rw [← htype], ?_⟩
            intro earlier hearlier hdirect' heq
            have hurl : normalizeUrl earlier.url = normalizeUrl link.url := heq
            exact hfound (hurl ▸ ih.listed earlier hearlier hdirect')
        · intro link' hlink' hdirect'
          rcases List.mem_append.mp hlink' with hlink' | hlink'
          · exact List.mem_append_left _ (ih.listed link' hlink' hdirect')
          · rw [List.mem_singleton.mp hlink']
            exact List.mem_append_right _ (List.mem_singleton_self _)

/-! ### The maps of the drives -/

/-- What the map of a drive has at a key: the password of a candidate with the key, and none only
where no candidate with the key had one. -/
def EntryOf (candidates : List Link) (d : Drive) (baseURL password : Bytes) : Prop :=
  (∃ link ∈ candidates, link.type = .drive d ∧ d.base link.url = baseURL ∧
    link.password = password) ∧
  (password = [] → ∀ link ∈ candidates, link.type = .drive d → d.base link.url = baseURL →
    link.password = [])

structure MapsRight (candidates : List Link) (c : LinkCandidates) : Prop where
  entry : ∀ d baseURL password, (c.byType d).lookup baseURL = some password →
    EntryOf candidates d baseURL password
  known : ∀ link ∈ candidates, ∀ d, link.type = .drive d →
    ((c.byType d).lookup (d.base link.url)).isSome = true

theorem lookup_setPassword {t : Table Bytes Bytes} {baseURL password key : Bytes} :
    (setPassword t baseURL password).lookup key =
      if key = baseURL then
        some (if password ≠ [] then password else (t.lookup baseURL).getD [])
      else t.lookup key := by
  unfold setPassword
  by_cases hkey : key = baseURL
  · subst hkey
    rw [if_pos rfl]
    split_ifs with hpassword hsome
    · exact AList.lookup_insert t
    · obtain ⟨old, hold⟩ := Option.isSome_iff_exists.mp hsome
      rw [hold]
      rfl
    · rw [AList.lookup_insert, Option.not_isSome_iff_eq_none.mp hsome]
      rfl
  · rw [if_neg hkey]
    split_ifs
    · exact AList.lookup_insert_ne hkey
    · rfl
    · exact AList.lookup_insert_ne hkey

/-- A candidate changes at most the entry of its drive and key. -/
theorem lookup_add {baseURL : Bytes} : ((c.add link).byType d).lookup baseURL =
    if link.type = .drive d ∧ d.base link.url = baseURL then
      some (if link.password ≠ [] then link.password
        else ((c.byType d).lookup baseURL).getD [])
    else (c.byType d).lookup baseURL := by
  cases htype : link.type with
  | other name =>
    have hadd : (c.add link).byType = c.byType := by
      rw [LinkCandidates.add, htype]
      simp only
      split_ifs
      · rfl
      · rfl
    rw [hadd, if_neg (fun h => by cases h.1)]
  | drive d' =>
    have hadd : (c.add link).byType = Function.update c.byType d'
        (setPassword (c.byType d') (d'.base link.url) link.password) := by
      rw [LinkCandidates.add, htype]
    rw [hadd]
    by_cases hd : d = d'
    · subst hd
      rw [Function.update_self, lookup_setPassword]
      by_cases hkey : baseURL = d.base link.url
      · subst hkey
        rw [if_pos rfl]
        exact (if_pos ⟨rfl, rfl⟩).symm
      · rw [if_neg hkey, if_neg fun h => hkey h.2.symm]
    · rw [Function.update_of_ne hd, if_neg]
      rintro ⟨heq, -⟩
      exact hd (LinkType.drive.inj heq).symm

theorem mapsRight_collect (candidates : List Link) : MapsRight candidates (collect candidates) := by
  induction candidates using List.reverseRecOn with
  | nil =>
    refine ⟨fun d baseURL password h => ?_, fun link hlink => absurd hlink List.not_mem_nil⟩
    have hnone : (none : Option Bytes) = some password := h
    cases hnone
  | append_singleton candidates link ih =>
    rw [collect_concat]
    have hmem : ∀ link' ∈ candidates, link' ∈ candidates ++ [link] := fun link' h =>
      List.mem_append_left _ h
    constructor
    · intro d baseURL password hlookup
      rw [lookup_add] at hlookup
      by_cases hhere : link.type = .drive d ∧ d.base link.url = baseURL
      · rw [if_pos hhere] at hlookup
        have heq := Option.some.inj hlookup
        by_cases hpassword : link.password = []
        · rw [if_neg (not_not_intro hpassword)] at heq
          cases hold : ((collect candidates).byType d).lookup baseURL with
          | none =>
            rw [hold] at heq
            have hnil : password = [] := heq.symm
            refine ⟨⟨link, by simp, hhere.1, hhere.2, hpassword.trans hnil.symm⟩, fun _ => ?_⟩
            intro link' hlink' htype hbase
            rcases List.mem_append.mp hlink' with hlink' | hlink'
            · have hsome := ih.known link' hlink' d htype
              rw [hbase, hold] at hsome
              cases hsome
            · rwa [List.mem_singleton.mp hlink']
          | some old =>
            rw [hold] at heq
            have hold' : old = password := heq
            subst hold'
            obtain ⟨⟨link', hlink', hrest⟩, hnone⟩ := ih.entry d baseURL old hold
            refine ⟨⟨link', hmem _ hlink', hrest⟩, fun hnil link'' hlink'' htype hbase => ?_⟩
            rcases List.mem_append.mp hlink'' with hlink'' | hlink''
            · exact hnone hnil link'' hlink'' htype hbase
            · rwa [List.mem_singleton.mp hlink'']
        · rw [if_pos hpassword] at heq
          refine ⟨⟨link, by simp, hhere.1, hhere.2, heq⟩, fun hnil => ?_⟩
          exact absurd (heq.trans hnil) hpassword
      · rw [if_neg hhere] at hlookup
        obtain ⟨⟨link', hlink', hrest⟩, hnone⟩ := ih.entry d baseURL password hlookup
        refine ⟨⟨link', hmem _ hlink', hrest⟩, fun hnil link'' hlink'' htype hbase => ?_⟩
        rcases List.mem_append.mp hlink'' with hlink'' | hlink''
        · exact hnone hnil link'' hlink'' htype hbase
        · rw [List.mem_singleton.mp hlink''] at htype hbase
          exact absurd ⟨htype, hbase⟩ hhere
    · intro link' hlink' d htype
      rw [lookup_add]
      by_cases hhere : link.type = .drive d ∧ d.base link.url = d.base link'.url
      · rw [if_pos hhere]
        rfl
      · rw [if_neg hhere]
        rcases List.mem_append.mp hlink' with hlink' | hlink'
        · exact ih.known link' hlink' d htype
        · rw [List.mem_singleton.mp hlink'] at htype hhere
          exact absurd ⟨htype, rfl⟩ hhere

/-! ### The listing -/

/-- The listing contains what was there, and the link of each entry unless its URL is there. -/
structure ListedFrom (s₀ : LinkCandidates.Listing)
    (es : List (Drive × (Sigma fun _ : Bytes => Bytes))) (s : LinkCandidates.Listing) : Prop where
  found : s.found = s.links.map Link.url
  nodup : s.found.Nodup
  kept : s₀.links ⊆ s.links
  links : ∀ l ∈ s.links, l ∈ s₀.links ∨
    ∃ e ∈ es, l = ⟨.drive e.1, e.1.normalize e.2.1 e.2.2, e.2.2⟩
  listed : ∀ e ∈ es, e.1.normalize e.2.1 e.2.2 ∈ s.found

theorem listedFrom_foldl {s₀ : LinkCandidates.Listing} (hfound : s₀.found = s₀.links.map Link.url)
    (hnodup : s₀.found.Nodup) (es : List (Drive × (Sigma fun _ : Bytes => Bytes))) :
    ListedFrom s₀ es (es.foldl LinkCandidates.Listing.emit s₀) := by
  induction es using List.reverseRecOn with
  | nil =>
    exact ⟨hfound, hnodup, List.Subset.refl _, fun l hl => .inl hl,
      fun e he => absurd he List.not_mem_nil⟩
  | append_singleton es e ih =>
    rw [List.foldl_append, List.foldl_cons, List.foldl_nil]
    have hmem : ∀ e' ∈ es, e' ∈ es ++ [e] := fun e' h => List.mem_append_left _ h
    generalize es.foldl LinkCandidates.Listing.emit s₀ = s at ih ⊢
    unfold LinkCandidates.Listing.emit
    simp only
    split_ifs with hthere
    · refine ⟨ih.found, ih.nodup, ih.kept, fun l hl => ?_, fun e' he' => ?_⟩
      · refine (ih.links l hl).imp_right ?_
        rintro ⟨e', he', heq⟩
        exact ⟨e', hmem e' he', heq⟩
      · rcases List.mem_append.mp he' with he' | he'
        · exact ih.listed e' he'
        · rwa [List.mem_singleton.mp he']
    · constructor
      · simp only [List.map_append, List.map_cons, List.map_nil, ih.found]
      · exact List.nodup_append.mpr ⟨ih.nodup, List.nodup_singleton _, fun u hu u' hu' heq =>
          hthere (by rwa [← List.mem_singleton.mp hu', ← heq])⟩
      · exact fun l hl => List.mem_append_left _ (ih.kept hl)
      · intro l hl
        rcases List.mem_append.mp hl with hl | hl
        · refine (ih.links l hl).imp_right ?_
          rintro ⟨e', he', heq⟩
          exact ⟨e', hmem e' he', heq⟩
        · exact .inr ⟨e, by simp, List.mem_singleton.mp hl⟩
      · intro e' he'
        rcases List.mem_append.mp he' with he' | he'
        · exact List.mem_append_left _ (ih.listed e' he')
        · rw [List.mem_singleton.mp he']
          exact List.mem_append_right _ (List.mem_singleton_self _)

theorem mem_entries {e : Drive × (Sigma fun _ : Bytes => Bytes)} :
    e ∈ LinkCandidates.entries order ↔ e.2 ∈ order e.1 := by
  have hall : ∀ d, d ∈ Drive.specs := fun d => by cases d <;> decide
  simp only [LinkCandidates.entries, List.mem_flatMap, List.mem_map]
  constructor
  · rintro ⟨d, -, e', he', rfl⟩
    exact he'
  · exact fun he => ⟨e.1, hall e.1, e.2, he, rfl⟩

/-! ### The shares -/

namespace Drive

/-- The cleaned URL of a candidate, without the password that is added to a Baidu link. -/
def cleaned : Drive → Bytes → Bytes
  | baidu => fun url => cleanBaiduPanURL (baiduBase url)
  | d => d.clean

/-- The share that a listed URL stands for. -/
def share : Drive → Bytes → Bytes
  | baidu => baiduBase
  | _ => id

/-- The URL is left alone when it is cleaned again. -/
def Settled : Drive → Bytes → Prop
  | tianyi => TianyiSettled
  | uc => UCSettled
  | pan123 => Settled123
  | _ => fun _ => True

theorem clean_idem {d : Drive} {url : Bytes} (h : d.Settled url) :
    d.clean (d.clean url) = d.clean url := by
  cases d with
  | baidu => exact cleanBaiduPanURL_idem url
  | tianyi => exact (cleanTianyiPanURL_idem_iff url).mpr h
  | uc => exact (cleanUCPanURL_idem_iff url).mpr h
  | pan123 => exact (clean123PanURL_idem_iff url).mpr h
  | pan115 => exact clean115PanURL_idem url
  | aliyun => exact cleanAliyunPanURL_idem url

end Drive

theorem pwdMark_not_isInfix_baiduBase (url : Bytes) : ¬pwdMark <:+: baiduBase url := by
  unfold baiduBase
  cases h : index pwdMark url with
  | none => exact index_eq_none_iff.mp h
  | some i =>
    refine index_eq_none_iff.mp ?_
    cases hj : index pwdMark (url.take i) with
    | none => rfl
    | some j =>
      obtain ⟨hurl, hle⟩ := (index_of_isPrefix (List.take_prefix i url)).mp hj
      have heq := Option.some.inj (h.symm.trans hurl)
      have hpos : 0 < pwdMark.length := by decide
      rw [List.length_take] at hle
      omega

theorem baiduBase_of_not_isInfix {url : Bytes} (h : ¬pwdMark <:+: url) : baiduBase url = url := by
  rw [baiduBase, index_eq_none_iff.mpr h]

theorem cleanBaiduPanURL_isInfix (url : Bytes) : cleanBaiduPanURL url <:+: url := by
  cases h : index baiduShare url with
  | none =>
    rw [cleanBaiduPanURL, h]
  | some i =>
    rw [cleanBaiduPanURL_of_index h]
    exact cut_isPrefix.isInfix.trans (List.drop_suffix i url).isInfix

/-- The password that is added to a Baidu link is what is stripped from it. -/
theorem baiduBase_normalize (url password : Bytes) :
    baiduBase (normalizeBaiduPanURL (baiduBase url) password) =
      cleanBaiduPanURL (baiduBase url) := by
  have hnot : ¬pwdMark <:+: cleanBaiduPanURL (baiduBase url) := fun h =>
    pwdMark_not_isInfix_baiduBase url (h.trans (cleanBaiduPanURL_isInfix _))
  unfold normalizeBaiduPanURL
  simp only
  rw [contains_eq_false_iff.mpr hnot]
  simp only [Bool.false_eq_true, if_false]
  split_ifs
  · rw [baiduBase, index_append_self (by decide) hnot]
    simp only
    rw [List.append_assoc, List.take_left]
  · exact baiduBase_of_not_isInfix hnot

theorem share_normalize {url : Bytes} (h : d.Settled url) (password : Bytes) :
    d.share (d.normalize (d.base url) password) = d.cleaned url := by
  cases d with
  | baidu => exact baiduBase_normalize url password
  | tianyi => exact Drive.clean_idem h
  | uc => exact Drive.clean_idem h
  | pan123 => exact Drive.clean_idem h
  | pan115 => exact Drive.clean_idem h
  | aliyun => exact Drive.clean_idem h

/-- Every candidate of the drive is left alone when it is cleaned again, and two Baidu links with one
cleaned URL are the same before their passwords. -/
structure Steady (d : Drive) (candidates : List Link) : Prop where
  settled : ∀ link ∈ candidates, link.type = .drive d → d.Settled link.url
  baidu : d = .baidu → ∀ link ∈ candidates, ∀ link' ∈ candidates, link.type = .drive .baidu →
    link'.type = .drive .baidu →
      Drive.baidu.cleaned link.url = Drive.baidu.cleaned link'.url →
        baiduBase link.url = baiduBase link'.url

/-- Two candidates for one share have one entry. -/
theorem Steady.base_eq (h : Steady d candidates) {link' : Link} (hlink : link ∈ candidates)
    (hlink' : link' ∈ candidates) (htype : link.type = .drive d) (htype' : link'.type = .drive d)
    (heq : d.cleaned link.url = d.cleaned link'.url) : d.base link.url = d.base link'.url := by
  cases d with
  | baidu => exact h.baidu rfl link hlink link' hlink' htype htype' heq
  | tianyi => exact heq
  | uc => exact heq
  | pan123 => exact heq
  | pan115 => exact heq
  | aliyun => exact heq

/-! ### What is listed -/

/-- The orders of the entries are orders in which the maps may be read. -/
def Reads (candidates : List Link) (order : Drive → List (Sigma fun _ : Bytes => Bytes)) : Prop :=
  ∀ d, (order d).Perm ((collect candidates).byType d).entries

def listed (candidates : List Link) (order : Drive → List (Sigma fun _ : Bytes => Bytes)) :
    List Link :=
  (collect candidates).finalize order

theorem listedFrom_collect (candidates : List Link)
    (order : Drive → List (Sigma fun _ : Bytes => Bytes)) :
    ListedFrom ⟨(collect candidates).found, (collect candidates).direct⟩
      (LinkCandidates.entries order)
      ((LinkCandidates.entries order).foldl LinkCandidates.Listing.emit
        ⟨(collect candidates).found, (collect candidates).direct⟩) := by
  have hdirect := directRight_collect candidates
  exact listedFrom_foldl hdirect.found hdirect.nodup _

theorem lookup_of_mem_order (h : Reads candidates order) {e : Sigma fun _ : Bytes => Bytes} :
    e ∈ order d ↔ ((collect candidates).byType d).lookup e.1 = some e.2 := by
  rw [(h d).mem_iff]
  exact AList.mem_lookup_iff.symm

/-- A listed link of a drive is the link of an entry. -/
theorem exists_entry (h : Reads candidates order) (hl : l ∈ listed candidates order)
    (htype : l.type = .drive d) : ∃ baseURL,
      ((collect candidates).byType d).lookup baseURL = some l.password ∧
        l.url = d.normalize baseURL l.password := by
  rcases (listedFrom_collect candidates order).links l hl with hdirect | ⟨e, he, rfl⟩
  · obtain ⟨before, link, after, -, ⟨name, hname⟩, rfl, -⟩ :=
      (directRight_collect candidates).first l hdirect
    rw [hname] at htype
    cases htype
  · obtain rfl : e.1 = d := LinkType.drive.inj htype
    exact ⟨e.2.1, (lookup_of_mem_order h).mp (mem_entries.mp he), rfl⟩

theorem exists_candidate (h : Reads candidates order) (hsteady : Steady d candidates)
    (hl : l ∈ listed candidates order) (htype : l.type = .drive d) :
    ∃ link ∈ candidates, link.type = .drive d ∧ d.share l.url = d.cleaned link.url ∧
      EntryOf candidates d (d.base link.url) l.password ∧
      l.url = d.normalize (d.base link.url) l.password ∧
      ((collect candidates).byType d).lookup (d.base link.url) = some l.password := by
  obtain ⟨baseURL, hlookup, hurl⟩ := exists_entry h hl htype
  have hentry := (mapsRight_collect candidates).entry d baseURL l.password hlookup
  obtain ⟨link, hlink, htype', rfl, -⟩ := hentry.1
  refine ⟨link, hlink, htype', ?_, hentry, hurl, hlookup⟩
  rw [hurl]
  exact share_normalize (hsteady.settled link hlink htype') _

theorem nodup_listed : ((listed candidates order).map Link.url).Nodup := by
  have hlisted := listedFrom_collect candidates order
  exact hlisted.found ▸ hlisted.nodup

theorem exists_listed (h : Reads candidates order) (hlink : link ∈ candidates)
    (htype : link.type = .drive d) (hsettled : d.Settled link.url) :
    ∃ l ∈ listed candidates order, d.share l.url = d.cleaned link.url := by
  obtain ⟨password, hlookup⟩ := Option.isSome_iff_exists.mp
    ((mapsRight_collect candidates).known link hlink d htype)
  have hlisted := listedFrom_collect candidates order
  have hmem : (d, (⟨d.base link.url, password⟩ : Sigma fun _ : Bytes => Bytes)) ∈
      LinkCandidates.entries order := mem_entries.mpr ((lookup_of_mem_order h).mpr hlookup)
  have hurl := hlisted.listed _ hmem
  rw [hlisted.found] at hurl
  obtain ⟨l, hl, heq⟩ := List.mem_map.mp hurl
  refine ⟨l, hl, ?_⟩
  rw [heq]
  exact share_normalize hsettled password

theorem exists_listed_direct (hlink : link ∈ candidates) (hdirect : Direct link) :
    ∃ l ∈ listed candidates order, First candidates l ∧ l.url = normalizeUrl link.url := by
  have hright := directRight_collect candidates
  have hurl := hright.listed link hlink hdirect
  rw [hright.found] at hurl
  obtain ⟨l, hl, heq⟩ := List.mem_map.mp hurl
  exact ⟨l, (listedFrom_collect candidates order).kept hl, hright.first l hl, heq⟩

/-- No URL is listed twice; a link of another type than the six drives has the password of its
first candidate; and of each share of a drive there is one link, with a password if any candidate
for it had one, where all candidates of the drive are left alone when they are cleaned again. -/
theorem links_listed (candidates : List Link)
    (order : Drive → List (Sigma fun _ : Bytes => Bytes)) (h : Reads candidates order) :
    ((listed candidates order).map Link.url).Nodup ∧
    (∀ link ∈ candidates, Direct link →
      ∃ l ∈ listed candidates order, First candidates l ∧ l.url = normalizeUrl link.url) ∧
    (∀ link ∈ candidates, ∀ d, link.type = .drive d → d.Settled link.url →
      ∃ l ∈ listed candidates order, d.share l.url = d.cleaned link.url) ∧
    (∀ d, Steady d candidates → ∀ l ∈ listed candidates order, l.type = .drive d →
      (∀ link ∈ candidates, link.type = .drive d → d.cleaned link.url = d.share l.url →
        link.password ≠ [] → l.password ≠ []) ∧
      ∀ l' ∈ listed candidates order, l'.type = .drive d → d.share l'.url = d.share l.url →
        l' = l) ∧
    ∀ d url, Drive.Settled d url → d.clean (d.clean url) = d.clean url := by
  refine ⟨nodup_listed, fun link hlink hdirect => exists_listed_direct hlink hdirect,
    fun link hlink d htype hsettled => exists_listed h hlink htype hsettled,
    fun d hsteady l hl htype => ?_, fun d url hsettled => Drive.clean_idem hsettled⟩
  obtain ⟨link, hlink, htype', hshare, hentry, hurl, hlookup⟩ :=
    exists_candidate h hsteady hl htype
  constructor
  · intro link' hlink' hlinkType hcleaned hpassword hnil
    have hbase := hsteady.base_eq hlink' hlink hlinkType htype' (hcleaned.trans hshare)
    exact hpassword (hentry.2 hnil link' hlink' hlinkType hbase)
  · intro l' hl' hltype hshare'
    obtain ⟨link', hlink', htype'', hshare'', -, hurl', hlookup'⟩ :=
      exists_candidate h hsteady hl' hltype
    have hcleaned : d.cleaned link'.url = d.cleaned link.url := by
      rw [← hshare'', hshare', hshare]
    have hbase := hsteady.base_eq hlink' hlink htype'' htype' hcleaned
    rw [hbase] at hlookup' hurl'
    have hpassword := Option.some.inj (hlookup'.symm.trans hlookup)
    have htypes : l'.type = l.type := hltype.trans htype.symm
    have hurls : l'.url = l.url := by rw [hurl', hurl, hpassword]
    cases l'
    cases l
    simp_all

/-- A share of Baidu, first without its password and then with it. -/
def sharedTwice : List Link :=
  [⟨.drive .baidu, utf8 "https://pan.baidu.com/s/1a", []⟩,
    ⟨.drive .baidu, utf8 "https://pan.baidu.com/s/1a?pwd=abcd", utf8 "abcd"⟩]

theorem steady_sharedTwice : Steady .baidu sharedTwice := by
  have hbase : ∀ link ∈ sharedTwice,
      link.type = .drive .baidu ∧ baiduBase link.url = utf8 "https://pan.baidu.com/s/1a" := by
    decide +kernel
  constructor
  · exact fun _ _ _ => trivial
  · intro _ link hlink link' hlink' _ _ _
    rw [(hbase link hlink).2, (hbase link' hlink').2]

theorem links_listed_sharedTwice :
    ¬∃ l ∈ listed sharedTwice fun d => ((collect sharedTwice).byType d).entries,
      l.type = .drive .baidu ∧ Drive.baidu.share l.url = utf8 "https://pan.baidu.com/s/1a" ∧
        l.password = [] := by
  rintro ⟨l, hl, htype, hshare, hempty⟩
  have hlisted := links_listed sharedTwice (fun d => ((collect sharedTwice).byType d).entries)
    fun d => List.Perm.refl _
  have hlink : (⟨.drive .baidu, utf8 "https://pan.baidu.com/s/1a?pwd=abcd", utf8 "abcd"⟩ : Link) ∈
      sharedTwice := List.mem_cons_of_mem _ List.mem_cons_self
  have hcleaned : Drive.baidu.cleaned (utf8 "https://pan.baidu.com/s/1a?pwd=abcd") =
      utf8 "https://pan.baidu.com/s/1a" := by decide +kernel
  exact (hlisted.2.2.2.1 .baidu steady_sharedTwice l hl htype).1 _ hlink rfl
    (hcleaned.trans hshare.symm) (by decide) hempty

/-- A link of another type keeps its first password, also where it is none. -/
theorem later_password_lost : ¬∀ candidates order, Reads candidates order →
    ∀ link ∈ candidates, Direct link → ∃ l ∈ listed candidates order,
      l.url = normalizeUrl link.url ∧ (link.password ≠ [] → l.password ≠ []) := by
  intro hall
  let url := utf8 "https://pan.quark.cn/s/a"
  let quark : LinkType := .other "quark"
  have hlisted : listed [⟨quark, url, []⟩, ⟨quark, url, utf8 "abcd"⟩] (fun _ => []) =
      [⟨quark, url, []⟩] := by decide +kernel
  have hreads : Reads [⟨quark, url, []⟩, ⟨quark, url, utf8 "abcd"⟩] fun _ => [] := by
    intro d
    cases d <;> decide +kernel
  obtain ⟨l, hl, -, hpassword⟩ := hall _ _ hreads ⟨quark, url, utf8 "abcd"⟩ (by simp)
    ⟨"quark", rfl⟩
  rw [hlisted] at hl
  rw [List.mem_singleton.mp hl] at hpassword
  exact hpassword (by decide) rfl

end AllInOneBackup.PanSou.Links
