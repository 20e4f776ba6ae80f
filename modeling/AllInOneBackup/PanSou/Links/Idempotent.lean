import AllInOneBackup.PanSou.Links.Clean

/-! When a URL that is cleaned again stays as it is. The functions of Baidu, 115 and Aliyun return
what they leave alone. Those of the other three drives cut or decode what they then do not look at
again, and leave it alone for certain URLs only. -/

namespace AllInOneBackup.PanSou.Links

open Data.Search

variable {url v w p : Bytes} {marks domains : List Bytes} {i : ℕ}

/-! ### The marks -/

/-- The bytes with which the marks begin. -/
def heads : Bytes := [0x20, 0x0A, 0x09, 0xEF, 0xE3, 0x3B, 0x2C, 0x3F, 0xE5, 0xE6, 0xE7, 0xE9, 0xF0]

def markerLists : List (List Bytes) := [baiduMarkers, tianyiMarkers, ucMarkers, emojiMarkers]

theorem head_mem_heads : ∀ marks ∈ markerLists, ∀ m ∈ marks,
    (m.head?.any fun a => heads.contains a) = true := by decide

theorem foreign_of_heads (hmarks : marks ∈ markerLists)
    (h : (heads.all fun a => !p.contains a) = true) : Foreign p marks := by
  intro m hm
  have hhead := head_mem_heads marks hmarks m hm
  cases ha : m.head? with
  | none =>
    rw [ha] at hhead
    cases hhead
  | some a =>
    rw [ha] at hhead
    have hnot := List.all_eq_true.mp h a (List.contains_iff_mem.mp hhead)
    exact ⟨a, rfl, by simpa using hnot⟩

/-- What is cut out of a URL begins with the share's address, and is cut out of itself. -/
theorem cut_share (hforeign : Foreign p marks) (h : index p url = some i) :
    p <+: cut marks (url.drop i) ∧ index p (cut marks (url.drop i)) = some 0 ∧
      cut marks (cut marks (url.drop i)) = cut marks (url.drop i) := by
  have hbegin := hforeign.prefix_cut (prefix_drop_of_index h)
  exact ⟨hbegin, index_eq_zero hbegin, cut_cut hforeign.ne_nil⟩

/-! ### Baidu -/

theorem foreign_baidu : Foreign baiduShare baiduMarkers :=
  foreign_of_heads (by simp [markerLists]) (by decide)

/-- No password is left in a link that is cut off at the first password. -/
theorem cleanBaiduPanURL_of_index (h : index baiduShare url = some i) :
    cleanBaiduPanURL url = cut baiduMarkers (url.drop i) := by
  obtain ⟨hbegin, -, hcut⟩ := cut_share foreign_baidu h
  have hne : baiduShare ≠ [] := by decide
  have hnot := (foreign_baidu.cut_eq_self_iff hbegin hne).mp hcut pwdMark (by simp [baiduMarkers])
  rw [cleanBaiduPanURL, h]
  simp only [index_eq_none_iff.mpr hnot]

theorem cleanBaiduPanURL_idem (url : Bytes) :
    cleanBaiduPanURL (cleanBaiduPanURL url) = cleanBaiduPanURL url := by
  cases h : index baiduShare url with
  | none =>
    have hself : cleanBaiduPanURL url = url := by rw [cleanBaiduPanURL, h]
    rw [hself, hself]
  | some i =>
    obtain ⟨-, hstart, hcut⟩ := cut_share foreign_baidu h
    rw [cleanBaiduPanURL_of_index h, cleanBaiduPanURL_of_index hstart, List.drop_zero, hcut]

/-! ### Tianyi -/

theorem queryUnescape_cons {c : UInt8} (h : c ≠ percent) (s : Bytes) :
    queryUnescape (c :: s) = (queryUnescape s).map ((if c = plus then space else c) :: ·) := by
  conv_lhs => unfold queryUnescape
  exact if_neg h

theorem queryUnescape_append (hpercent : percent ∉ p) (hplus : plus ∉ p) (s : Bytes) :
    queryUnescape (p ++ s) = (queryUnescape s).map (p ++ ·) := by
  induction p with
  | nil => simp
  | cons c p ih =>
    obtain ⟨hc, hp⟩ := not_or.mp (List.mem_cons.not.mp hpercent)
    obtain ⟨hc', hp'⟩ := not_or.mp (List.mem_cons.not.mp hplus)
    rw [List.cons_append, queryUnescape_cons (Ne.symm hc), ih hp hp', if_neg (Ne.symm hc'),
      Option.map_map]
    rfl

theorem queryUnescape_of_not_mem {s : Bytes} (h : percent ∉ s) :
    queryUnescape s = some (s.map fun c => if c = plus then space else c) := by
  induction s with
  | nil => rfl
  | cons c s ih =>
    obtain ⟨hc, hs⟩ := not_or.mp (List.mem_cons.not.mp h)
    rw [queryUnescape_cons (Ne.symm hc), ih hs]
    rfl

/-- Decoding keeps the length only where nothing is escaped. -/
theorem length_queryUnescape {s : Bytes} : ∀ d, queryUnescape s = some d →
    d.length ≤ s.length ∧ (percent ∈ s → d.length < s.length) := by
  induction s using queryUnescape.induct with
  | case1 =>
    intro d h
    rw [queryUnescape] at h
    rw [← Option.some.inj h]
    simp
  | case2 a b s hhex ih =>
    intro d h
    rw [queryUnescape, if_pos rfl] at h
    simp only [hhex, if_true] at h
    obtain ⟨d', hd', rfl⟩ := Option.map_eq_some_iff.mp h
    have hle := (ih d' hd').1
    simp only [List.length_cons]
    omega
  | case3 a b s hhex =>
    intro d h
    rw [queryUnescape, if_pos rfl] at h
    simp only [hhex] at h
    cases h
  | case4 s hshort =>
    intro d h
    rw [queryUnescape, if_pos rfl] at h
    · cases h
    · exact hshort
  | case5 c s hc ih =>
    intro d h
    rw [queryUnescape_cons hc] at h
    obtain ⟨d', hd', rfl⟩ := Option.map_eq_some_iff.mp h
    obtain ⟨hle, hlt⟩ := ih d' hd'
    refine ⟨by simpa using hle, fun hmem => ?_⟩
    rcases List.mem_cons.mp hmem with hmem | hmem
    · exact absurd hmem.symm hc
    · simpa using hlt hmem

theorem queryUnescape_eq_self_iff {s : Bytes} :
    queryUnescape s = some s ↔ percent ∉ s ∧ plus ∉ s := by
  constructor
  · intro h
    have hpercent : percent ∉ s := fun hmem => lt_irrefl _ ((length_queryUnescape s h).2 hmem)
    refine ⟨hpercent, fun hmem => ?_⟩
    rw [queryUnescape_of_not_mem hpercent] at h
    have hmap := Option.some.inj h
    nth_rewrite 2 [← List.map_id s] at hmap
    exact absurd (List.map_inj_left.mp hmap plus hmem) (by decide)
  · rintro ⟨hpercent, hplus⟩
    have happend := queryUnescape_append hpercent hplus []
    rwa [List.append_nil, queryUnescape, Option.map_some, List.append_nil] at happend

theorem foreign_tianyi : Foreign tianyiShare tianyiMarkers :=
  foreign_of_heads (by simp [markerLists]) (by decide)

/-- The decoded link has no end mark of its own, and nothing in it would be decoded again. -/
def TianyiSettled (url : Bytes) : Prop :=
  ∀ i d, index tianyiShare url = some i →
    queryUnescape (cut tianyiMarkers (url.drop i)) = some d →
      (∀ m ∈ tianyiMarkers, ¬m <:+: d) ∧ (percent ∉ d ∧ plus ∉ d ∨ queryUnescape d = none)

theorem cleanTianyiPanURL_of_index (h : index tianyiShare url = some i) :
    cleanTianyiPanURL url =
      (queryUnescape (cut tianyiMarkers (url.drop i))).getD (cut tianyiMarkers (url.drop i)) := by
  rw [cleanTianyiPanURL, h]

theorem cleanTianyiPanURL_eq_self_iff (h : tianyiShare <+: url) : cleanTianyiPanURL url = url ↔
    (∀ m ∈ tianyiMarkers, ¬m <:+: url) ∧
      (percent ∉ url ∧ plus ∉ url ∨ queryUnescape url = none) := by
  have hne : tianyiShare ≠ [] := by decide
  rw [cleanTianyiPanURL_of_index (index_eq_zero h), List.drop_zero,
    ← foreign_tianyi.cut_eq_self_iff h hne, ← queryUnescape_eq_self_iff]
  constructor
  · intro hself
    have hle : ((queryUnescape (cut tianyiMarkers url)).getD (cut tianyiMarkers url)).length ≤
        (cut tianyiMarkers url).length := by
      cases hd : queryUnescape (cut tianyiMarkers url) with
      | none => rfl
      | some d => exact (length_queryUnescape d hd).1
    rw [hself] at hle
    have hcut := cut_isPrefix.eq_of_length_le hle
    rw [hcut] at hself
    refine ⟨hcut, ?_⟩
    cases hd : queryUnescape url with
    | none => exact .inr rfl
    | some d =>
      rw [hd] at hself
      exact .inl (congrArg some hself)
  · rintro ⟨hcut, hself | hnone⟩
    · rw [hcut, hself]
      rfl
    · rw [hcut, hnone]
      rfl

theorem cleanTianyiPanURL_idem_iff (url : Bytes) :
    cleanTianyiPanURL (cleanTianyiPanURL url) = cleanTianyiPanURL url ↔ TianyiSettled url := by
  cases h : index tianyiShare url with
  | none =>
    have hself : cleanTianyiPanURL url = url := by rw [cleanTianyiPanURL, h]
    rw [hself]
    refine iff_of_true hself fun i d hi => ?_
    rw [h] at hi
    cases hi
  | some i =>
    obtain ⟨⟨x, hx⟩, hstart, hcut⟩ := cut_share foreign_tianyi h
    rw [cleanTianyiPanURL_of_index h]
    cases hd : queryUnescape (cut tianyiMarkers (url.drop i)) with
    | none =>
      rw [Option.getD_none, cleanTianyiPanURL_of_index hstart, List.drop_zero, hcut, hd]
      refine iff_of_true rfl fun j d hj hsome => ?_
      rw [h] at hj
      rw [← Option.some.inj hj, hd] at hsome
      cases hsome
    | some d =>
      have hbegin : tianyiShare <+: d := by
        rw [← hx, queryUnescape_append (by decide) (by decide)] at hd
        obtain ⟨y, -, rfl⟩ := Option.map_eq_some_iff.mp hd
        exact List.prefix_append _ y
      rw [Option.getD_some, cleanTianyiPanURL_eq_self_iff hbegin]
      constructor
      · intro hself j d' hj hsome
        rw [h] at hj
        rw [← Option.some.inj hj, hd] at hsome
        rwa [← Option.some.inj hsome]
      · exact fun hsettled => hsettled i d h hd

/-! ### UC -/

theorem foreign_uc : Foreign ucShare ucMarkers :=
  foreign_of_heads (by simp [markerLists]) (by decide)

theorem foreign_public : Foreign ucShare [publicMark] := by decide

/-- A parameter `public` before an end mark has at most one byte of value. -/
def UCSettled (url : Bytes) : Prop :=
  ∀ i j, index ucShare url = some i → cut ucMarkers (url.drop i) ≠ url.drop i →
    index publicMark (cut ucMarkers (url.drop i)) = some j →
      (cut ucMarkers (url.drop i)).length ≤ j + 9

theorem keepPublic_isPrefix : keepPublic v <+: v := by
  unfold keepPublic
  cases index publicMark v with
  | none => exact List.prefix_rfl
  | some j =>
    simp only
    split_ifs
    · exact List.take_prefix _ v
    · exact List.take_prefix _ v
    · exact List.prefix_rfl

/-- The end of the kept part is after the address of the share. -/
theorem share_prefix_keepPublic (h : ucShare <+: v) : ucShare <+: keepPublic v := by
  unfold keepPublic
  cases hj : index publicMark v with
  | none => exact h
  | some j =>
    have hle := foreign_public.length_le h (List.mem_singleton_self _) hj
    simp only
    split_ifs
    · exact List.prefix_take_iff.mpr ⟨h, by omega⟩
    · exact List.prefix_take_iff.mpr ⟨h, by omega⟩
    · exact h

theorem keepPublic_eq_self_iff (h : ucShare <+: v) :
    keepPublic v = v ↔ ∀ j, index publicMark v = some j → v.length ≤ j + 9 := by
  unfold keepPublic
  cases hj : index publicMark v with
  | none => exact iff_of_true rfl fun j hj' => by cases hj'
  | some j =>
    have hle := foreign_public.length_le h (List.mem_singleton_self _) hj
    have hpos : 0 < ucShare.length := by decide
    have hmark : publicMark.length = 8 := by decide
    have hbound := add_length_le_of_index hj
    simp only [Option.some.injEq, forall_eq']
    rw [if_pos (by omega)]
    split_ifs with hlen
    · exact List.take_eq_self_iff v
    · rw [List.take_eq_self_iff]
      omega

theorem keepPublic_idem (h : ucShare <+: v) : keepPublic (keepPublic v) = keepPublic v := by
  refine (keepPublic_eq_self_iff (share_prefix_keepPublic h)).mpr fun j hj => ?_
  obtain ⟨hv, -⟩ := (index_of_isPrefix keepPublic_isPrefix).mp hj
  have hle := foreign_public.length_le h (List.mem_singleton_self _) hv
  have hpos : 0 < ucShare.length := by decide
  rw [keepPublic, hv]
  simp only
  rw [if_pos (by omega)]
  split_ifs
  · rw [List.length_take]
    exact min_le_left _ _
  · rw [List.length_take]
    omega

theorem cleanUCPanURL_of_index (h : index ucShare url = some i) : cleanUCPanURL url =
    if cut ucMarkers (url.drop i) ≠ url.drop i then cut ucMarkers (url.drop i)
    else keepPublic (url.drop i) := by
  have hiff : endIndex ucMarkers (url.drop i) < (url.drop i).length ↔
      cut ucMarkers (url.drop i) ≠ url.drop i := by
    rw [cut, Ne, List.take_eq_self_iff, not_le]
  rw [cleanUCPanURL, h]
  exact if_congr hiff rfl rfl

theorem cleanUCPanURL_idem_iff (url : Bytes) :
    cleanUCPanURL (cleanUCPanURL url) = cleanUCPanURL url ↔ UCSettled url := by
  cases h : index ucShare url with
  | none =>
    have hself : cleanUCPanURL url = url := by rw [cleanUCPanURL, h]
    rw [hself]
    refine iff_of_true hself fun i j hi => ?_
    rw [h] at hi
    cases hi
  | some i =>
    obtain ⟨hbegin, hstart, hcut⟩ := cut_share foreign_uc h
    rw [cleanUCPanURL_of_index h]
    by_cases hmark : cut ucMarkers (url.drop i) = url.drop i
    · rw [if_neg (not_not_intro hmark)]
      rw [hmark] at hbegin
      have hkeep := share_prefix_keepPublic hbegin
      have huncut : cut ucMarkers (keepPublic (url.drop i)) = keepPublic (url.drop i) := by
        have hne : ucShare ≠ [] := by decide
        refine (foreign_uc.cut_eq_self_iff hkeep hne).mpr fun m hm hoccurs => ?_
        have hnot := (foreign_uc.cut_eq_self_iff hbegin hne).mp hmark m hm
        exact hnot (hoccurs.trans keepPublic_isPrefix.isInfix)
      rw [cleanUCPanURL_of_index (index_eq_zero hkeep), List.drop_zero,
        if_neg (not_not_intro huncut), keepPublic_idem hbegin]
      refine iff_of_true rfl fun j _ hj hcut' => ?_
      rw [h] at hj
      rw [← Option.some.inj hj] at hcut'
      exact absurd hmark hcut'
    · rw [if_pos hmark, cleanUCPanURL_of_index hstart, List.drop_zero, if_neg (not_not_intro hcut),
        keepPublic_eq_self_iff hbegin]
      constructor
      · intro hpublic i' j hi' _ hj
        rw [h] at hi'
        rw [← Option.some.inj hi'] at hj ⊢
        exact hpublic j hj
      · exact fun hsettled j hj => hsettled i j h hmark hj

/-! ### A link with a protocol and one of several domains -/

/-- The link has the protocol `p` and then the first of the domains that occurs in it. -/
def Begins (domains : List Bytes) (p v : Bytes) : Prop :=
  ∃ before domain after, domains = before ++ domain :: after ∧ p ++ domain <+: v ∧
    index domain v = some p.length ∧ ∀ e ∈ before, index e v = none

theorem Begins.startIn (h : Begins domains p v) : startIn domains v = some p.length := by
  obtain ⟨before, domain, after, rfl, -, hdomain, hbefore⟩ := h
  exact List.findSome?_eq_some_iff.mpr ⟨before, domain, after, rfl, hdomain, hbefore⟩

/-- A link that is cut off after its domain begins like the link. -/
theorem Begins.isPrefix (h : Begins domains p v) (hw : w <+: v)
    (hle : ∀ domain ∈ domains, p ++ domain <+: v → p.length + domain.length ≤ w.length) :
    Begins domains p w := by
  obtain ⟨before, domain, after, rfl, hbegin, hdomain, hbefore⟩ := h
  have hlen := hle domain (by simp) hbegin
  refine ⟨before, domain, after, rfl, ?_, (index_of_isPrefix hw).mpr ⟨hdomain, hlen⟩, ?_⟩
  · exact List.prefix_of_prefix_length_le hbegin hw (by rwa [List.length_append])
  · exact fun e he => index_eq_none_of_isInfix hw.isInfix (hbefore e he)

theorem Begins.mem (h : Begins domains p v) : ∃ domain ∈ domains, p ++ domain <+: v := by
  obtain ⟨before, domain, after, rfl, hbegin, -⟩ := h
  exact ⟨domain, by simp, hbegin⟩

theorem index_protocol : ∀ p ∈ protocols, index (utf8 "://") p = some (p.length - 3) ∧
    3 ≤ p.length ∧ (utf8 "://").length = 3 := by decide

/-- A link that has a protocol keeps it. -/
theorem withProtocol_of_isPrefix (hp : p ∈ protocols) (h : p <+: url) (hi : 0 < i) :
    withProtocol url i = p ++ url.drop i := by
  obtain ⟨hindex, hlen, hthree⟩ := index_protocol p hp
  obtain ⟨x, rfl⟩ := h
  have hhas : hasProtocol (p ++ x) = true :=
    List.any_eq_true.mpr ⟨p, hp, List.isPrefixOf_iff_prefix.mpr (List.prefix_append p x)⟩
  have hat : index (utf8 "://") (p ++ x) = some (p.length - 3) := (index_of_append.mp hindex).1
  rw [withProtocol, hhas, hat]
  simp only [Bool.not_true, if_false, Bool.false_eq_true, gt_iff_lt, hi, if_true]
  rw [Nat.sub_add_cancel hlen, List.take_left]

theorem withProtocol_self (hp : p ∈ protocols) (h : p <+: v) : withProtocol v p.length = v := by
  have hpos : 0 < p.length := by
    have hlen := (index_protocol p hp).2.1
    omega
  rw [withProtocol_of_isPrefix hp h hpos]
  obtain ⟨x, rfl⟩ := h
  rw [List.drop_left]

theorem exists_begins (hforeign : ∀ p ∈ protocols, Foreign p domains)
    (h : startIn domains url = some i) :
    ∃ p ∈ protocols, Begins domains p (withProtocol url i) := by
  obtain ⟨before, domain, after, rfl, hdomain, hbefore⟩ := List.findSome?_eq_some_iff.mp h
  have hbegins : ∀ p ∈ protocols, Begins (before ++ domain :: after) p (p ++ url.drop i) := by
    intro p hp
    have hindex := fun m hm => (hforeign p hp).index_append (m := m) (u := url.drop i) hm
    have hat := prefix_drop_of_index hdomain
    refine ⟨before, domain, after, rfl, (List.prefix_append_right_inj p).mpr hat, ?_, ?_⟩
    · rw [hindex domain (by simp), index_eq_zero hat, Option.map_some, Nat.add_zero]
    · intro e he
      have hnone := index_eq_none_of_isInfix (List.drop_suffix i url).isInfix (hbefore e he)
      rw [hindex e (List.mem_append_left _ he), hnone, Option.map_none]
  cases hhas : hasProtocol url with
  | false =>
    have hhttps : utf8 "https://" ∈ protocols := by simp [protocols]
    refine ⟨_, hhttps, ?_⟩
    rw [withProtocol, hhas]
    exact hbegins _ hhttps
  | true =>
    obtain ⟨p, hp, hbegin⟩ := List.any_eq_true.mp hhas
    rw [List.isPrefixOf_iff_prefix] at hbegin
    have hle := (hforeign p hp).length_le hbegin (by simp) hdomain
    have hlen := (index_protocol p hp).2.1
    rw [withProtocol_of_isPrefix hp hbegin (by omega)]
    exact ⟨p, hp, hbegins p hp⟩

theorem Begins.cut (hforeign : ∀ domain ∈ domains, Foreign (p ++ domain) marks)
    (h : Begins domains p v) : Begins domains p (cut marks v) := by
  refine h.isPrefix cut_isPrefix fun domain hdomain hbegin => ?_
  have hle := ((hforeign domain hdomain).prefix_cut hbegin).length_le
  rwa [List.length_append] at hle

theorem foreign_protocols : ∀ domains ∈ [domains123, domains115, domainsAliyun],
    ∀ p ∈ protocols, Foreign p domains := by decide

/-- The end marks that begin with none of the bytes of an address. -/
theorem foreign_addresses : ∀ domains ∈ [domains123, domains115, domainsAliyun],
    ∀ p ∈ protocols, ∀ domain ∈ domains,
      (heads.all fun a => !(p ++ domain).contains a) = true := by decide

theorem foreign_emoji (hdomains : domains ∈ [domains123, domains115, domainsAliyun])
    (hp : p ∈ protocols) : ∀ domain ∈ domains, Foreign (p ++ domain) emojiMarkers :=
  fun domain hdomain => foreign_of_heads (by simp [markerLists])
    (foreign_addresses domains hdomains p hp domain hdomain)

theorem protocol_isPrefix (h : Begins domains p v) : p <+: v := by
  obtain ⟨domain, -, hbegin⟩ := h.mem
  exact (List.prefix_append p domain).trans hbegin

/-! ### Aliyun -/

theorem cleanAliyunPanURL_of_none (h : startIn domainsAliyun url = none) :
    cleanAliyunPanURL url = url := by
  rw [cleanAliyunPanURL, h]
  exact ite_self url

theorem cleanAliyunPanURL_of_startIn (h : startIn domainsAliyun url = some i) :
    cleanAliyunPanURL url = cut emojiMarkers (withProtocol url i) := by
  have hdomain : ∀ domain ∈ domainsAliyun,
      utf8 "alipan.com/s/" <:+: domain ∨ utf8 "aliyundrive.com/s/" <:+: domain := by decide
  have hcontains :
      (contains (utf8 "alipan.com/s/") url || contains (utf8 "aliyundrive.com/s/") url) = true := by
    obtain ⟨domain, hmem, hat⟩ := List.exists_of_findSome?_eq_some h
    have hoccurs : domain <:+: url := contains_iff.mp (by
      rw [contains_iff]
      exact (prefix_drop_of_index hat).isInfix.trans (List.drop_suffix i url).isInfix)
    rw [Bool.or_eq_true, contains_iff, contains_iff]
    exact (hdomain domain hmem).imp (·.trans hoccurs) (·.trans hoccurs)
  rw [cleanAliyunPanURL, hcontains, if_pos rfl, h]

theorem cleanAliyunPanURL_idem (url : Bytes) :
    cleanAliyunPanURL (cleanAliyunPanURL url) = cleanAliyunPanURL url := by
  cases h : startIn domainsAliyun url with
  | none => rw [cleanAliyunPanURL_of_none h, cleanAliyunPanURL_of_none h]
  | some i =>
    have hlist : domainsAliyun ∈ [domains123, domains115, domainsAliyun] := by simp
    obtain ⟨p, hp, hbegins⟩ := exists_begins (foreign_protocols _ hlist) h
    have hcut := hbegins.cut (foreign_emoji hlist hp)
    have hne : ∀ m ∈ emojiMarkers, m ≠ [] := by
      obtain ⟨domain, hdomain, -⟩ := hbegins.mem
      exact (foreign_emoji hlist hp domain hdomain).ne_nil
    rw [cleanAliyunPanURL_of_startIn h, cleanAliyunPanURL_of_startIn hcut.startIn,
      withProtocol_self hp (protocol_isPrefix hcut), cut_cut hne]

/-! ### 115 -/

theorem foreign_password : ∀ p ∈ protocols, ∀ domain ∈ domains115,
    Foreign (p ++ domain) [passwordMark, hash] := by decide

theorem clean115PanURL_of_none (h : startIn domains115 url = none) : clean115PanURL url = url := by
  rw [clean115PanURL, h]

theorem clean115PanURL_of_startIn (h : startIn domains115 url = some i) :
    clean115PanURL url = keepPassword (withProtocol url i) := by
  rw [clean115PanURL, h]

/-- What is kept of a link, whose password and `#` are not at its beginning. -/
theorem keepPassword_spec (hpos : ∀ m ∈ [passwordMark, hash], ∀ j, index m v = some j → 0 < j) :
    (∃ j, index passwordMark v = some j ∧ j + 14 ≤ v.length ∧ keepPassword v = v.take (j + 14)) ∨
    (∀ j, index passwordMark v = some j → v.length < j + 14) ∧
      ((∃ j, index hash v = some j ∧ keepPassword v = v.take j) ∨
        index hash v = none ∧ keepPassword v = v) := by
  have hhash : (∃ j, index hash v = some j ∧ beforeHash v = v.take j) ∨
      index hash v = none ∧ beforeHash v = v := by
    unfold beforeHash
    cases h : index hash v with
    | none => exact .inr ⟨rfl, rfl⟩
    | some j => exact .inl ⟨j, rfl, if_pos (hpos hash (by simp) j h)⟩
  unfold keepPassword
  cases h : index passwordMark v with
  | none => exact .inr ⟨fun j hj => (by cases hj), hhash⟩
  | some j =>
    by_cases hlen : j + 14 ≤ v.length
    · exact .inl ⟨j, rfl, hlen, if_pos ⟨hpos _ (by simp) j h, hlen⟩⟩
    · simp only [hlen, and_false, if_false]
      refine .inr ⟨fun j' hj' => ?_, hhash⟩
      rw [← Option.some.inj hj']
      omega

theorem keepPassword_isPrefix (hpos : ∀ m ∈ [passwordMark, hash], ∀ j, index m v = some j → 0 < j) :
    keepPassword v <+: v := by
  rcases keepPassword_spec hpos with ⟨j, -, -, h⟩ | ⟨-, ⟨j, -, h⟩ | ⟨-, h⟩⟩
  · exact h ▸ List.take_prefix _ v
  · exact h ▸ List.take_prefix _ v
  · rw [h]

theorem keepPassword_idem (hpos : ∀ m ∈ [passwordMark, hash], ∀ j, index m v = some j → 0 < j) :
    keepPassword (keepPassword v) = keepPassword v := by
  have hbegin := keepPassword_isPrefix hpos
  have hpos' : ∀ m ∈ [passwordMark, hash], ∀ j, index m (keepPassword v) = some j → 0 < j :=
    fun m hm j hj => hpos m hm j ((index_of_isPrefix hbegin).mp hj).1
  have hlength : passwordMark.length = 10 ∧ hash.length = 1 := by decide
  rcases keepPassword_spec hpos' with ⟨j, hj, hlen, h⟩ | ⟨hshort, ⟨j, hj, h⟩ | ⟨-, h⟩⟩
  · -- the password is the one of the whole link, and the link ends behind it
    obtain ⟨hv, -⟩ := (index_of_isPrefix hbegin).mp hj
    have hle := hbegin.length_le
    rcases keepPassword_spec hpos with ⟨j', hj', -, h'⟩ | ⟨hshort, -⟩
    · rw [h, h', Option.some.inj (hv.symm.trans hj'), List.take_take, min_self]
    · have hlt := hshort j hv
      omega
  · -- a `#` that is left would be the one before which the link was cut
    obtain ⟨hv, hle⟩ := (index_of_isPrefix hbegin).mp hj
    rcases keepPassword_spec hpos with ⟨j', hj', hlen', h'⟩ | ⟨-, ⟨j', hj', h'⟩ | ⟨hnone, -⟩⟩
    · have hlen : (keepPassword v).length = j' + 14 := by
        rw [h', List.length_take, min_eq_left hlen']
      have hkept : index passwordMark (keepPassword v) = some j' :=
        (index_of_isPrefix hbegin).mpr ⟨hj', by omega⟩
      have hlt := hshort j' hkept
      omega
    · rw [h', List.length_take, Option.some.inj (hv.symm.trans hj')] at hle
      omega
    · rw [hnone] at hv
      cases hv
  · exact h

theorem clean115PanURL_idem (url : Bytes) :
    clean115PanURL (clean115PanURL url) = clean115PanURL url := by
  cases h : startIn domains115 url with
  | none => rw [clean115PanURL_of_none h, clean115PanURL_of_none h]
  | some i =>
    have hlist : domains115 ∈ [domains123, domains115, domainsAliyun] := by simp
    obtain ⟨p, hp, hbegins⟩ := exists_begins (foreign_protocols _ hlist) h
    have hle : ∀ domain ∈ domains115, p ++ domain <+: withProtocol url i →
        ∀ m ∈ [passwordMark, hash], ∀ j, index m (withProtocol url i) = some j →
          p.length + domain.length ≤ j := by
      intro domain hdomain hbegin m hm j hj
      have hbound := (foreign_password p hp domain hdomain).length_le hbegin hm hj
      rwa [List.length_append] at hbound
    have hlen := (index_protocol p hp).2.1
    have hpos : ∀ m ∈ [passwordMark, hash], ∀ j,
        index m (withProtocol url i) = some j → 0 < j := by
      intro m hm j hj
      obtain ⟨domain, hdomain, hbegin⟩ := hbegins.mem
      have hbound := hle domain hdomain hbegin m hm j hj
      omega
    have hkept : Begins domains115 p (keepPassword (withProtocol url i)) := by
      refine hbegins.isPrefix (keepPassword_isPrefix hpos) fun domain hdomain hbegin => ?_
      rcases keepPassword_spec hpos with ⟨j, hj, hlen', hkeep⟩ | ⟨-, ⟨j, hj, hkeep⟩ | ⟨-, hkeep⟩⟩
      · have hbound := hle domain hdomain hbegin passwordMark (by simp) j hj
        rw [hkeep, List.length_take]
        omega
      · have hbound := hle domain hdomain hbegin hash (by simp) j hj
        have hend := add_length_le_of_index hj
        rw [hkeep, List.length_take]
        omega
      · rw [hkeep]
        have hbound := hbegin.length_le
        rwa [List.length_append] at hbound
    rw [clean115PanURL_of_startIn h, clean115PanURL_of_startIn hkept.startIn,
      withProtocol_self hp (protocol_isPrefix hkept), keepPassword_idem hpos]

/-! ### 123 -/

theorem foreign_encoded : ∀ p ∈ protocols, ∀ domain ∈ domains123,
    Foreign (p ++ domain) [encodedCode] := by decide

theorem emoji_apart : ∀ m ∈ emojiMarkers, Apart m plainCode := by decide

theorem domains_apart : ∀ domain ∈ domains123, Apart domain plainCode := by decide

theorem encoded_apart : Apart encodedCode plainCode := by decide

/-- The encoded code is not before an end mark, and not in the link a second time. -/
def Settled123 (url : Bytes) : Prop :=
  ∀ i, startIn domains123 url = some i →
    (cut emojiMarkers (withProtocol url i) ≠ withProtocol url i →
      ¬encodedCode <:+: cut emojiMarkers (withProtocol url i)) ∧
    (cut emojiMarkers (withProtocol url i) = withProtocol url i →
      ∀ j, index encodedCode (withProtocol url i) = some j →
        ¬encodedCode <:+: (withProtocol url i).drop (j + encodedCode.length))

theorem clean123PanURL_of_none (h : startIn domains123 url = none) : clean123PanURL url = url := by
  rw [clean123PanURL, h]

theorem clean123PanURL_of_startIn (h : startIn domains123 url = some i) : clean123PanURL url =
    if cut emojiMarkers (withProtocol url i) ≠ withProtocol url i then
      cut emojiMarkers (withProtocol url i)
    else replaceOnce encodedCode plainCode (withProtocol url i) := by
  have hiff : endIndex emojiMarkers (withProtocol url i) < (withProtocol url i).length ↔
      cut emojiMarkers (withProtocol url i) ≠ withProtocol url i := by
    rw [cut, Ne, List.take_eq_self_iff, not_le]
  have hreplace : (if contains encodedCode (withProtocol url i) = true then
      replaceOnce encodedCode plainCode (withProtocol url i) else withProtocol url i) =
      replaceOnce encodedCode plainCode (withProtocol url i) := by
    split_ifs with hoccurs
    · rfl
    · exact (replaceOnce_of_not_isInfix (fun hin => hoccurs (contains_iff.mpr hin)) _).symm
  rw [clean123PanURL, h]
  exact if_congr hiff rfl hreplace

/-- A code that is written out changes the link. -/
theorem replaceOnce_eq_self_iff :
    replaceOnce encodedCode plainCode v = v ↔ ¬encodedCode <:+: v := by
  constructor
  · intro hself hoccurs
    cases hj : index encodedCode v with
    | none => exact index_eq_none_iff.mp hj hoccurs
    | some j =>
      obtain ⟨q, s, hv, -, hreplace⟩ := replaceOnce_of_index hj
      have hlength : encodedCode.length = 27 ∧ plainCode.length = 9 := by decide
      have hlen := congrArg List.length ((hreplace plainCode).symm.trans hself)
      rw [hv] at hlen
      simp only [List.length_append] at hlen
      omega
  · exact fun h => replaceOnce_of_not_isInfix h _

/-- Writing out the code moves neither the domain nor adds an end mark. -/
theorem Begins.replaceOnce (hp : p ∈ protocols) (h : Begins domains123 p v) :
    Begins domains123 p (replaceOnce encodedCode plainCode v) := by
  cases hj : index encodedCode v with
  | none =>
    rw [replaceOnce_of_not_isInfix (index_eq_none_iff.mp hj)]
    exact h
  | some j =>
    obtain ⟨q, s, rfl, rfl, hreplace⟩ := replaceOnce_of_index hj
    rw [hreplace]
    obtain ⟨before, domain, after, hdomains, hbegin, hdomain, hbefore⟩ := h
    have hmem : ∀ e ∈ before ++ domain :: after, e ∈ domains123 := fun e he => hdomains ▸ he
    have hle := (foreign_encoded p hp domain (hmem domain (by simp))).length_le hbegin (by simp) hj
    have hq : p ++ domain <+: q := by
      refine List.prefix_of_prefix_length_le hbegin ?_ hle
      rw [List.append_assoc]
      exact List.prefix_append q _
    have hat : index domain q = some p.length := by
      rw [List.append_assoc] at hdomain
      refine index_of_append.mpr ⟨hdomain, ?_⟩
      rwa [List.length_append] at hle
    refine ⟨before, domain, after, hdomains, ?_, ?_, fun e he => ?_⟩
    · rw [List.append_assoc]
      exact hq.trans (List.prefix_append q _)
    · rw [List.append_assoc]
      exact (index_of_append.mp hat).1
    · have hnot := index_eq_none_iff.mp (hbefore e he)
      refine index_eq_none_iff.mpr fun hoccurs => ?_
      rcases (domains_apart e (hmem e (by simp [he]))).isInfix hoccurs with hleft | hright
      · exact hnot (hleft.trans ⟨[], encodedCode ++ s, by simp⟩)
      · exact hnot (hright.trans ⟨q ++ encodedCode, [], by simp⟩)

theorem mark_replaceOnce {m : Bytes} (hm : m ∈ emojiMarkers)
    (h : m <:+: replaceOnce encodedCode plainCode v) : m <:+: v := by
  cases hj : index encodedCode v with
  | none => rwa [replaceOnce_of_not_isInfix (index_eq_none_iff.mp hj)] at h
  | some j =>
    obtain ⟨q, s, rfl, -, hreplace⟩ := replaceOnce_of_index hj
    rw [hreplace] at h
    rcases (emoji_apart m hm).isInfix h with hleft | hright
    · exact hleft.trans ⟨[], encodedCode ++ s, by simp⟩
    · exact hright.trans ⟨q ++ encodedCode, [], by simp⟩

theorem encoded_replaceOnce {j : ℕ} (hj : index encodedCode v = some j) :
    encodedCode <:+: replaceOnce encodedCode plainCode v ↔
      encodedCode <:+: v.drop (j + encodedCode.length) := by
  obtain ⟨q, s, rfl, rfl, hreplace⟩ := replaceOnce_of_index hj
  have hdrop : (q ++ encodedCode ++ s).drop (q.length + encodedCode.length) = s := by
    rw [← List.length_append, List.drop_left]
  rw [hreplace, hdrop]
  constructor
  · intro hoccurs
    refine (encoded_apart.isInfix hoccurs).resolve_left fun hleft => ?_
    -- the first place is not before the first place
    obtain ⟨a, b, rfl⟩ := hleft
    have hle := (index_eq_some_iff.mp hj).2 a (b ++ encodedCode ++ s) (by simp)
    have hpos : 0 < encodedCode.length := by decide
    simp only [List.length_append] at hle
    omega
  · exact fun hoccurs => hoccurs.trans (List.suffix_append _ s).isInfix

theorem clean123PanURL_idem_iff (url : Bytes) :
    clean123PanURL (clean123PanURL url) = clean123PanURL url ↔ Settled123 url := by
  cases h : startIn domains123 url with
  | none =>
    have hself := clean123PanURL_of_none h
    rw [hself]
    refine iff_of_true hself fun i hi => ?_
    rw [h] at hi
    cases hi
  | some i =>
    have hlist : domains123 ∈ [domains123, domains115, domainsAliyun] := by simp
    obtain ⟨p, hp, hbegins⟩ := exists_begins (foreign_protocols _ hlist) h
    have hemoji := foreign_emoji hlist hp
    have hne : ∀ domain : Bytes, p ++ domain ≠ [] := by
      intro domain hnil
      have hlen := (index_protocol p hp).2.1
      rw [(List.append_eq_nil_iff.mp hnil).1] at hlen
      exact absurd hlen (by simp)
    have hsettled : Settled123 url ↔
        (cut emojiMarkers (withProtocol url i) ≠ withProtocol url i →
          ¬encodedCode <:+: cut emojiMarkers (withProtocol url i)) ∧
        (cut emojiMarkers (withProtocol url i) = withProtocol url i →
          ∀ j, index encodedCode (withProtocol url i) = some j →
            ¬encodedCode <:+: (withProtocol url i).drop (j + encodedCode.length)) := by
      constructor
      · exact fun hs => hs i h
      · intro hs j hj
        rw [h] at hj
        rwa [← Option.some.inj hj]
    rw [hsettled, clean123PanURL_of_startIn h]
    by_cases hmark : cut emojiMarkers (withProtocol url i) = withProtocol url i
    · have hstart := hbegins.replaceOnce hp
      have huncut : cut emojiMarkers (replaceOnce encodedCode plainCode (withProtocol url i)) =
          replaceOnce encodedCode plainCode (withProtocol url i) := by
        obtain ⟨domain, hdomain, hbegin⟩ := hstart.mem
        refine ((hemoji domain hdomain).cut_eq_self_iff hbegin (hne domain)).mpr fun m hm hm' => ?_
        obtain ⟨domain', hdomain', hbegin'⟩ := hbegins.mem
        have hnot := ((hemoji domain' hdomain').cut_eq_self_iff hbegin' (hne domain')).mp hmark
        exact hnot m hm (mark_replaceOnce hm hm')
      rw [if_neg (not_not_intro hmark), clean123PanURL_of_startIn hstart.startIn,
        withProtocol_self hp (protocol_isPrefix hstart), if_neg (not_not_intro huncut),
        replaceOnce_eq_self_iff]
      constructor
      · intro hnot
        refine ⟨fun hmark' => absurd hmark hmark', fun _ j hj hoccurs => hnot ?_⟩
        exact (encoded_replaceOnce hj).mpr hoccurs
      · rintro ⟨-, hrest⟩ hoccurs
        cases hj : index encodedCode (withProtocol url i) with
        | none =>
          have hnot := index_eq_none_iff.mp hj
          rw [replaceOnce_of_not_isInfix hnot] at hoccurs
          exact hnot hoccurs
        | some j => exact hrest hmark j hj ((encoded_replaceOnce hj).mp hoccurs)
    · have hstart := hbegins.cut hemoji
      have huncut : cut emojiMarkers (cut emojiMarkers (withProtocol url i)) =
          cut emojiMarkers (withProtocol url i) := by
        obtain ⟨domain, hdomain, -⟩ := hstart.mem
        exact cut_cut (hemoji domain hdomain).ne_nil
      rw [if_pos hmark, clean123PanURL_of_startIn hstart.startIn,
        withProtocol_self hp (protocol_isPrefix hstart), if_neg (not_not_intro huncut),
        replaceOnce_eq_self_iff]
      constructor
      · exact fun hnot => ⟨fun _ => hnot, fun hmark' => absurd hmark' hmark⟩
      · exact fun hs => hs.1 hmark

end AllInOneBackup.PanSou.Links
