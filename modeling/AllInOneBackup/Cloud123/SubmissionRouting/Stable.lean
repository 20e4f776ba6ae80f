import AllInOneBackup.Cloud123.SubmissionRouting.Normalize
import Mathlib

/-! A routing that is normalised twice. Each part of what the first pass returns is left alone by
the second, but for a condition that any TMDB id is there, and a name that is cut behind a blank. -/

namespace AllInOneBackup.Cloud123.SubmissionRouting

open Data

/-! ### Statements -/

/-- `int` takes no text with an ASCII letter in it, and `str(None)` is `None`. -/
structure Builtins.Right (py : Builtins) : Prop where
  int_letter : ∀ s : Text, s.any Char.isAlpha = true → py.int s = none
  str_null : py.str .null = "None".toList

variable (py : Builtins)

/-- Normalising again changes no rule, no channel and no group, and no rule matches other facts. -/
def Stable (value : Value) : Prop :=
  ∀ once, normalizeRouting py value = some once →
    ∃ twice, normalizeRouting py once.toValue = some twice ∧
      twice.rules = once.rules ∧ twice.fallbackChannelId = once.fallbackChannelId ∧
      twice.publicReleaseGroups = once.publicReleaseGroups ∧
      ∀ facts, twice.rules.map (ruleMatches py · facts twice.toValue.fields) =
        once.rules.map (ruleMatches py · facts once.toValue.fields)

/-- A rule with a channel. -/
def keeps (item : Value) : Bool :=
  item.isDict && decide (py.clean (get item.fields "channelId") ≠ [])

/-- The rules that are kept: the first 40 that have a channel. -/
def keptRules (raw : List (Text × Value)) : List Value :=
  ((rulesOf raw).filter (keeps py)).take 40

/-- The condition `tmdbId` of a rule is not `true`, and its name, cut to 60 characters, does not end
in white space. -/
def Settled (item : Value) : Prop :=
  (get (get item.fields "when").fields "tmdbId").isTrue = false ∧
    PyText.strip ((py.clean (get item.fields "name")).take 60) =
      (py.clean (get item.fields "name")).take 60

/-- No kept rule is changed by a second pass, and if none is kept there is no fallback channel. -/
def SettledRouting (value : Value) : Prop :=
  (iterated (get value.fields "publicReleaseGroups")).isSome = true → isV2 value.fields = true →
    (∀ item ∈ keptRules py value.fields, Settled py item) ∧
      (keptRules py value.fields = [] → py.clean (get value.fields "fallbackChannelId") = [])

/-! ### Fields -/

variable {py}

theorem get_cons (k : String) (v : Value) (fields : List (Text × Value)) (key : String) :
    get ((k.toList, v) :: fields) key = if k = key then v else get fields key := by
  rw [get, List.find?_cons]
  by_cases h : k = key
  · subst h
    simp
  · have hne : ¬k.toList = key.toList := fun heq => h (String.toList_inj.mp heq)
    simp [hne, h, get]

@[simp] theorem get_nil (key : String) : get [] key = .null := rfl

/-- What is found of the fields that a function makes, one for each key or none. -/
theorem get_filterMap (keys : List String) (f : String → Option Value)
    (rest : List (Text × Value)) (key : String) :
    get (keys.filterMap (fun k => (f k).map fun v => (k.toList, v)) ++ rest) key =
      (if key ∈ keys then f key else none).getD (get rest key) := by
  induction keys with
  | nil => rfl
  | cons k keys ih =>
    rw [List.filterMap_cons]
    cases hk : f k with
    | none =>
      simp only [Option.map_none, ih, List.mem_cons]
      by_cases heq : key = k
      · subst heq
        simp [hk]
      · simp [heq]
    | some v =>
      simp only [Option.map_some, List.cons_append, get_cons, ih, List.mem_cons]
      by_cases heq : k = key
      · subst heq
        simp [hk]
      · simp [heq, Ne.symm heq]

/-! ### Conditions -/

@[simp] theorem clean_str (s : Text) : py.clean (.str s) = PyText.strip s := by
  cases s <;> rfl

theorem cleaned_str {names : List Text} (h : ∀ s ∈ names, PyText.strip s = s ∧ s ≠ [])
    (hne : names ≠ []) : cleaned py (names.map .str) = some (.list (names.map .str)) := by
  have hmap : (names.map Value.str).map py.clean = names := by
    rw [List.map_map]
    exact (List.map_congr_left fun s hs => (clean_str s).trans (h s hs).1).trans (List.map_id names)
  have hfilter : names.filter (· ≠ []) = names :=
    List.filter_eq_self.mpr fun s hs => decide_eq_true (h s hs).2
  rw [cleaned, hmap, hfilter]
  simp only [hne, if_false]

/-- A list of texts that is left is left again. -/
theorem condition_cleaned {items : List Value} {value : Value} (h : cleaned py items = some value) :
    condition py value = some value := by
  simp only [cleaned] at h
  split_ifs at h with hnil
  rw [← Option.some.inj h, condition]
  apply cleaned_str _ hnil
  intro s hs
  obtain ⟨hs, hne⟩ := List.mem_filter.mp hs
  obtain ⟨item, -, rfl⟩ := List.mem_map.mp hs
  exact ⟨PyText.strip_strip _, decide_eq_true_eq.mp hne⟩

theorem condition_condition (value : Value) :
    condition py ((condition py value).getD .null) = condition py value := by
  cases hcondition : condition py value with
  | none => rfl
  | some result =>
    cases value with
    | str s => exact condition_cleaned hcondition
    | list items => exact condition_cleaned hcondition
    | _ => cases hcondition

variable (py) in
/-- Numbers above zero, each once, as they are kept. -/
def Ids (items : List Value) : Prop :=
  (∀ item ∈ items, parsedId py item = item ∧ 0 < number item) ∧ (items.map number).Nodup

theorem Ids.concat {items : List Value} {item : Value} (h : Ids py items)
    (hitem : parsedId py item = item) (hpos : 0 < number item)
    (hnew : number item ∉ items.map number) : Ids py (items ++ [item]) := by
  refine ⟨?_, ?_⟩
  · intro x hx
    rcases List.mem_append.mp hx with hx | hx
    · exact h.1 x hx
    · rw [List.mem_singleton.mp hx]
      exact ⟨hitem, hpos⟩
  · rw [List.map_append, List.map_singleton, List.nodup_append]
    refine ⟨h.2, List.nodup_cons.mpr ⟨List.not_mem_nil, List.nodup_nil⟩, ?_⟩
    intro a ha b hb heq
    rw [List.mem_singleton.mp hb] at heq
    exact hnew (heq ▸ ha)

theorem parsedId_parsedId (item : Value) : parsedId py (parsedId py item) = parsedId py item := by
  cases item <;> rfl

theorem ids_tmdbLoop {tmdbValues : List Value} (h : Ids py tmdbValues) (items : List Value) :
    Ids py (tmdbLoop py tmdbValues items) := by
  induction items generalizing tmdbValues with
  | nil => exact h
  | cons item items ih =>
    simp only [tmdbLoop]
    split_ifs with hnew
    · exact ih (h.concat (parsedId_parsedId item) hnew.1 hnew.2)
    · exact ih h

/-- The loop takes every item of a list that it has made. -/
theorem tmdbLoop_eq {tmdbValues items : List Value} (h : Ids py (tmdbValues ++ items)) :
    tmdbLoop py tmdbValues items = tmdbValues ++ items := by
  induction items generalizing tmdbValues with
  | nil => rw [tmdbLoop, List.append_nil]
  | cons item items ih =>
    obtain ⟨hitem, hpos⟩ := h.1 item (List.mem_append_right _ List.mem_cons_self)
    have hnodup := h.2
    rw [List.map_append, List.map_cons, List.nodup_append] at hnodup
    have hnew : number item ∉ tmdbValues.map number := fun hmem =>
      hnodup.2.2 _ hmem _ List.mem_cons_self rfl
    simp only [tmdbLoop, hitem]
    rw [if_pos ⟨hpos, hnew⟩]
    rw [List.append_cons] at h
    rw [ih h, List.append_assoc, List.singleton_append]

theorem tmdbCondition_ids {items : List Value} (h : Ids py items) (hne : items ≠ []) :
    tmdbCondition py (.list items) = some (.list items) := by
  have hloop : tmdbLoop py [] items = items := tmdbLoop_eq h
  have hempty : items.isEmpty = false := Bool.eq_false_iff.mpr (mt List.isEmpty_iff.mp hne)
  simp only [tmdbCondition, hloop, hempty]
  rfl

theorem ids_singleton {n : ℤ} (hpos : 0 < n) : Ids py [.int n] := by
  refine ⟨fun item hitem => ?_, List.nodup_cons.mpr ⟨List.not_mem_nil, List.nodup_nil⟩⟩
  rw [List.mem_singleton.mp hitem]
  exact ⟨rfl, hpos⟩

theorem get_normalizeWhen (rawWhen : List (Text × Value)) (key : String) :
    get (normalizeWhen py rawWhen) key =
      (if key ∈ conditionKeys ++ ["releaseGroups"] then condition py (get rawWhen key) else
        none).getD (if key = "tmdbId" then
          (tmdbCondition py (get rawWhen "tmdbId")).getD .null else .null) := by
  rw [normalizeWhen, get_filterMap _ fun key => condition py (get rawWhen key)]
  congr 1
  cases tmdbCondition py (get rawWhen "tmdbId") with
  | none => simp
  | some value =>
    rw [Option.map_some, Option.toList_some, get_cons, get_nil, Option.getD_some]
    simp only [eq_comm]

section Right

variable (hpy : py.Right)

include hpy

theorem tmdbCondition_null : tmdbCondition py .null = none := by
  have hzero : py.safeRoutingInt .null = 0 := by
    rw [Builtins.safeRoutingInt, Builtins.text, hpy.str_null, hpy.int_letter _ (by decide),
      Option.getD_none]
    exact fun s hs => by cases hs
  exact if_neg (by rw [hzero]; exact Int.lt_irrefl 0)

theorem tmdbCondition_required : tmdbCondition py (.str "required".toList) = none := by
  have hzero : py.safeRoutingInt (.str "required".toList) = 0 := by
    rw [Builtins.safeRoutingInt, Builtins.text, hpy.int_letter _ (by decide), Option.getD_none]
  exact if_neg (by rw [hzero]; exact Int.lt_irrefl 0)

/-- Only the mark for any id is not kept by a second pass. -/
theorem tmdbCondition_tmdbCondition (value : Value) :
    tmdbCondition py ((tmdbCondition py value).getD .null) = tmdbCondition py value ↔
      value.isTrue = false := by
  have hnone : ∀ value : Value, tmdbCondition py value = none →
      tmdbCondition py ((tmdbCondition py value).getD .null) = tmdbCondition py value := by
    intro value heq
    rw [heq, Option.getD_none, tmdbCondition_null hpy]
  have hids : ∀ (value : Value) (items : List Value), tmdbCondition py value = some (.list items) →
      Ids py items → items ≠ [] →
      tmdbCondition py ((tmdbCondition py value).getD .null) = tmdbCondition py value := by
    intro value items heq h hne
    rw [heq, Option.getD_some, tmdbCondition_ids h hne]
  have hscalar : ∀ value : Value, (tmdbCondition py value = if 0 < py.safeRoutingInt value then
      some (.list [.int (py.safeRoutingInt value)]) else none) →
      tmdbCondition py ((tmdbCondition py value).getD .null) = tmdbCondition py value := by
    intro value heq
    by_cases hpos : 0 < py.safeRoutingInt value
    · rw [if_pos hpos] at heq
      exact hids value _ heq (ids_singleton hpos) (List.cons_ne_nil _ _)
    · rw [if_neg hpos] at heq
      exact hnone value heq
  cases value with
  | list items =>
    refine iff_of_true ?_ rfl
    have hitems : Ids py (tmdbLoop py [] items) :=
      ids_tmdbLoop ⟨List.forall_mem_nil _, List.nodup_nil⟩ items
    by_cases hempty : (tmdbLoop py [] items).isEmpty = true
    · exact hnone _ (by rw [tmdbCondition]; exact if_pos hempty)
    · refine hids _ (tmdbLoop py [] items) ?_ hitems (mt List.isEmpty_iff.mpr hempty)
      rw [tmdbCondition]
      exact if_neg hempty
  | bool b =>
    cases b with
    | false => exact iff_of_true (hnone _ rfl) rfl
    | true =>
      refine iff_of_false ?_ (by decide)
      have hmark : tmdbCondition py (.bool true) = some (.str "required".toList) := rfl
      rw [hmark, Option.getD_some, tmdbCondition_required hpy]
      exact fun h => by cases h
  | null => exact iff_of_true (hscalar _ rfl) rfl
  | int n => exact iff_of_true (hscalar _ rfl) rfl
  | float text zero => exact iff_of_true (hscalar _ rfl) rfl
  | str s => exact iff_of_true (hscalar _ rfl) rfl
  | dict fields => exact iff_of_true (hscalar _ rfl) rfl

/-- The conditions are left alone by a second pass, unless `tmdbId` was `true`. -/
theorem normalizeWhen_normalizeWhen (rawWhen : List (Text × Value)) :
    normalizeWhen py (normalizeWhen py rawWhen) = normalizeWhen py rawWhen ↔
      (get rawWhen "tmdbId").isTrue = false := by
  have hkeys : ∀ key ∈ conditionKeys ++ ["releaseGroups"],
      condition py (get (normalizeWhen py rawWhen) key) = condition py (get rawWhen key) := by
    intro key hkey
    have hne : key ≠ "tmdbId" := by
      rintro rfl
      exact absurd hkey (by decide)
    rw [get_normalizeWhen, if_pos hkey, if_neg hne, condition_condition]
  have htmdb : get (normalizeWhen py rawWhen) "tmdbId" =
      (tmdbCondition py (get rawWhen "tmdbId")).getD .null := by
    rw [get_normalizeWhen, if_neg (by decide), if_pos rfl, Option.getD_none]
  have hconditions : (conditionKeys ++ ["releaseGroups"]).filterMap (fun key =>
      (condition py (get (normalizeWhen py rawWhen) key)).map fun value => (key.toList, value)) =
      (conditionKeys ++ ["releaseGroups"]).filterMap (fun key =>
        (condition py (get rawWhen key)).map fun value => (key.toList, value)) :=
    List.filterMap_congr fun key hkey => by rw [hkeys key hkey]
  rw [← tmdbCondition_tmdbCondition hpy, ← htmdb]
  have hpart : ∀ a b : Option Value, (a.map fun value => ("tmdbId".toList, value)).toList =
      (b.map fun value => ("tmdbId".toList, value)).toList ↔ a = b := by
    intro a b
    cases a <;> cases b <;> simp
  rw [normalizeWhen, hconditions, normalizeWhen.eq_def py rawWhen, List.append_right_inj, hpart,
    ← normalizeWhen.eq_def]

end Right

/-! ### Rules -/

theorem isSpace_of_isDigit {c : Char} (h : c.isDigit = true) : PyText.isSpace c = false := by
  have hrange : 48 ≤ c.toNat ∧ c.toNat ≤ 57 := by
    simpa [Char.isDigit, UInt32.le_iff_toNat_le] using h
  have hnot : c.toNat ∉ [0x20, 0x85, 0xA0, 0x1680, 0x2028, 0x2029, 0x202F, 0x205F, 0x3000] := by
    simp only [List.mem_cons, List.not_mem_nil, or_false]
    omega
  simp only [PyText.isSpace, decide_eq_false hnot, Bool.false_or, Bool.or_eq_false_iff,
    decide_eq_false_iff_not]
  omega

theorem strip_ruleId (index : ℕ) : PyText.strip (ruleId index) = ruleId index := by
  apply trim_eq_self
  · intro c hc
    rw [ruleId, List.head?_append] at hc
    rw [← Option.some.inj hc]
    decide
  · intro c hc
    have hne : Nat.toDigits 10 (index + 1) ≠ [] := Nat.toDigits_ne_nil
    rw [ruleId, List.getLast?_append_of_ne_nil _ hne] at hc
    exact isSpace_of_isDigit
      (Nat.isDigit_of_mem_toDigits (by decide) (by decide) (List.mem_of_getLast? hc))

theorem rule_fields (id name : Text) (enabled : Bool) (when : List (Text × Value))
    (channelId : Text) :
    get (rule id name enabled when channelId).fields "id" = .str id ∧
      get (rule id name enabled when channelId).fields "name" = .str name ∧
      get (rule id name enabled when channelId).fields "enabled" = .bool enabled ∧
      get (rule id name enabled when channelId).fields "when" = .dict when ∧
      get (rule id name enabled when channelId).fields "channelId" = .str channelId := by
  exact ⟨rfl, rfl, rfl, rfl, rfl⟩

/-- What becomes of a dict with a channel. -/
def ruleOf (py : Builtins) (fields : List (Text × Value)) (index : ℕ) : Value :=
  rule (orElse (PyText.strip (py.textOr (get fields "id") (ruleId index))) (ruleId index))
    ((py.clean (get fields "name")).take 60) (!(get fields "enabled").isFalse)
    (normalizeWhen py (get fields "when").fields) (py.clean (get fields "channelId"))

theorem normalizeRule_eq (item : Value) (index : ℕ) : normalizeRule py item index =
    if keeps py item then some (ruleOf py item.fields index) else none := by
  cases item with
  | dict fields =>
    by_cases hchannel : py.clean (get fields "channelId") = []
    · simp [normalizeRule, keeps, Value.isDict, Value.fields, hchannel]
    · simp [normalizeRule, keeps, Value.isDict, Value.fields, hchannel, ruleOf]
  | _ => rfl

theorem rule_inj {id id' name name' channelId channelId' : Text} {enabled enabled' : Bool}
    {when when' : List (Text × Value)} :
    rule id name enabled when channelId = rule id' name' enabled' when' channelId' ↔
      id = id' ∧ name = name' ∧ enabled = enabled' ∧ when = when' ∧ channelId = channelId' := by
  constructor
  · intro h
    rw [rule, rule] at h
    injection h with h
    simp only [List.cons.injEq, Prod.mk.injEq, Value.str.injEq, Value.bool.injEq,
      Value.dict.injEq, true_and, and_true] at h
    exact h
  · rintro ⟨rfl, rfl, rfl, rfl, rfl⟩
    rfl

theorem orElse_spec {s default : Text} (hs : PyText.strip s = s)
    (hdefault : PyText.strip default = default) (hne : default ≠ []) :
    PyText.strip (orElse s default) = orElse s default ∧ orElse s default ≠ [] := by
  rw [orElse]
  split_ifs with hnil
  · exact ⟨hdefault, hne⟩
  · exact ⟨hs, hnil⟩

/-- A rule is left alone by a second pass when its conditions and its name are. -/
theorem ruleOf_ruleOf (hpy : py.Right) {fields : List (Text × Value)}
    (hchannel : py.clean (get fields "channelId") ≠ []) (index index' : ℕ) :
    ∃ again, normalizeRule py (ruleOf py fields index) index' = some again ∧
      (again = ruleOf py fields index ↔ Settled py (.dict fields)) := by
  obtain ⟨hid, hidne⟩ := orElse_spec
    (PyText.strip_strip (py.textOr (get fields "id") (ruleId index))) (strip_ruleId index) (by simp [ruleId])
  have hchannel' : PyText.strip (py.clean (get fields "channelId")) =
      py.clean (get fields "channelId") := PyText.strip_strip _
  obtain ⟨hgetid, hgetname, hgetenabled, hgetwhen, hgetchannel⟩ := rule_fields
    (orElse (PyText.strip (py.textOr (get fields "id") (ruleId index))) (ruleId index))
    ((py.clean (get fields "name")).take 60) (!(get fields "enabled").isFalse)
    (normalizeWhen py (get fields "when").fields) (py.clean (get fields "channelId"))
  have hagain : normalizeRule py (ruleOf py fields index) index' =
      some (ruleOf py (ruleOf py fields index).fields index') := by
    rw [normalizeRule_eq]
    apply if_pos
    rw [ruleOf, keeps, hgetchannel, clean_str, hchannel']
    simpa [rule, Value.isDict] using hchannel
  refine ⟨_, hagain, ?_⟩
  have htextOr : ∀ s : Text, s ≠ [] → py.textOr (.str s) (ruleId index') = s := by
    intro s hs
    cases s with
    | nil => exact absurd rfl hs
    | cons c s => rfl
  rw [ruleOf, ruleOf, hgetid, hgetname, hgetenabled, hgetwhen, hgetchannel, rule_inj,
    htextOr _ hidne, hid, clean_str, clean_str, hchannel', orElse, if_neg hidne]
  have hname : (PyText.strip ((py.clean (get fields "name")).take 60)).take 60 =
      PyText.strip ((py.clean (get fields "name")).take 60) :=
    List.take_of_length_le ((PyText.length_strip_le _).trans (List.length_take_le _ _))
  have henabled : (!(Value.bool !(get fields "enabled").isFalse).isFalse) =
      !(get fields "enabled").isFalse := by
    simp [Value.isFalse]
  have hwhen := normalizeWhen_normalizeWhen hpy (get fields "when").fields
  rw [hname, henabled, eq_self_iff_true, eq_self_iff_true, eq_self_iff_true, true_and, true_and,
    and_true, and_comm]
  exact and_congr_left' hwhen

/-! ### Routings -/

/-- What is kept, of the rules with their index. -/
theorem normalizeRules_eq (rules : List Value) : normalizeRules py rules =
    (rules.zipIdx.filter fun item => keeps py item.1).map fun item =>
      ruleOf py item.1.fields item.2 := by
  rw [normalizeRules, ← List.filterMap_eq_map, List.filterMap_filter]
  apply List.filterMap_congr
  intro item _
  rw [normalizeRule_eq]
  rfl

theorem map_fst_filter_zipIdx (rules : List Value) (p : Value → Bool) :
    (rules.zipIdx.filter fun item => p item.1).map Prod.fst = rules.filter p := by
  have h : (rules.zipIdx.map Prod.fst).filter p =
      (rules.zipIdx.filter (p ∘ Prod.fst)).map Prod.fst := List.filter_map
  rw [List.zipIdx_map_fst] at h
  exact h.symm

/-- Rules that are kept stay, and stay the same just when each is settled. -/
theorem normalizeRules_ruleOf (hpy : py.Right) {sources : List (Value × ℕ)}
    (hchannels : ∀ item ∈ sources, py.clean (get item.1.fields "channelId") ≠ []) (k : ℕ) :
    (((sources.map fun item => ruleOf py item.1.fields item.2).zipIdx k).filterMap
      fun item => normalizeRule py item.1 item.2).length = sources.length ∧
    ((((sources.map fun item => ruleOf py item.1.fields item.2).zipIdx k).filterMap
      fun item => normalizeRule py item.1 item.2) =
        (sources.map fun item => ruleOf py item.1.fields item.2) ↔
      ∀ item ∈ sources, Settled py item.1) := by
  induction sources generalizing k with
  | nil => exact ⟨rfl, iff_of_true rfl (List.forall_mem_nil _)⟩
  | cons item sources ih =>
    obtain ⟨hchannel, hchannels⟩ := List.forall_mem_cons.mp hchannels
    obtain ⟨again, hagain, hsame⟩ := ruleOf_ruleOf hpy hchannel item.2 k
    obtain ⟨hlen, hrest⟩ := ih hchannels (k + 1)
    rw [List.map_cons, List.zipIdx_cons, List.filterMap_cons, hagain]
    constructor
    · rw [List.length_cons, hlen, List.length_cons]
    · rw [List.cons_eq_cons, hsame, hrest, List.forall_mem_cons]
      exact Iff.rfl

/-! ### Public groups -/

variable (py) in
/-- Squeezed texts, each once. -/
def Groups (groups : List Text) : Prop :=
  (∀ group ∈ groups, squeezed py (.str group) = group ∧ group ≠ []) ∧ groups.Nodup

theorem squeezed_squeezed (item : Value) :
    squeezed py (.str (squeezed py item)) = squeezed py item := by
  have htext : ∀ s : Text, py.textOr (.str s) [] = s := by
    intro s
    cases s <;> rfl
  rw [squeezed, htext]
  exact PyText.squeeze_squeeze _

theorem groups_publicLoop {groups : List Text} (h : Groups py groups) (items : List Value) :
    Groups py (publicLoop py groups items) := by
  induction items generalizing groups with
  | nil => exact h
  | cons item items ih =>
    rw [publicLoop]
    split_ifs with hnew
    · apply ih
      refine ⟨?_, List.nodup_append.mpr ⟨h.2, by simp, ?_⟩⟩
      · intro group hgroup
        rcases List.mem_append.mp hgroup with hgroup | hgroup
        · exact h.1 group hgroup
        · rw [List.mem_singleton.mp hgroup]
          exact ⟨squeezed_squeezed item, hnew.1⟩
      · intro a ha b hb heq
        rw [List.mem_singleton.mp hb] at heq
        exact hnew.2 (heq ▸ ha)
    · exact ih h

theorem publicLoop_eq {groups names : List Text} (h : Groups py (groups ++ names)) :
    publicLoop py groups (names.map .str) = groups ++ names := by
  induction names generalizing groups with
  | nil => rw [List.map_nil, publicLoop, List.append_nil]
  | cons name names ih =>
    obtain ⟨hsame, hne⟩ := h.1 name (List.mem_append_right _ List.mem_cons_self)
    have hnew : name ∉ groups := fun hmem =>
      (List.nodup_append.mp h.2).2.2 _ hmem _ List.mem_cons_self rfl
    rw [List.map_cons, publicLoop, hsame, if_pos ⟨hne, hnew⟩]
    rw [List.append_cons] at h
    rw [ih h, List.append_assoc, List.singleton_append]

/-! ### The second pass -/

theorem toValue_fields (routing : Routing) :
    get routing.toValue.fields "rules" = .list routing.rules ∧
      get routing.toValue.fields "fallbackChannelId" = .str routing.fallbackChannelId ∧
      get routing.toValue.fields "publicReleaseGroups" =
        .list (routing.publicReleaseGroups.map .str) := by
  exact ⟨rfl, rfl, rfl⟩

theorem iterated_list (items : List Value) : iterated (.list items) = some items := by
  cases items <;> rfl

theorem normalizeRouting_toValue {once : Routing} (hgroups : Groups py once.publicReleaseGroups) :
    normalizeRouting py once.toValue = some
      (if isV2 once.toValue.fields then
        ⟨(normalizeRules py once.rules).take 40, PyText.strip once.fallbackChannelId,
          once.publicReleaseGroups, none⟩
      else migrateV1Routing py once.toValue.fields once.publicReleaseGroups) := by
  obtain ⟨hrules, hfallback, hpublic⟩ := toValue_fields once
  have hsame : publicLoop py [] (once.publicReleaseGroups.map .str) = once.publicReleaseGroups :=
    publicLoop_eq hgroups
  rw [normalizeRouting, hpublic, iterated_list, Option.map_some, hsame, rulesOf, hrules, hfallback,
    clean_str]

/-- The rules after a second pass, of a routing that has some. -/
theorem twice_of_rules (hpy : py.Right) {once : Routing} {sources : List (Value × ℕ)}
    (hrules : once.rules = sources.map fun item => ruleOf py item.1.fields item.2)
    (hchannels : ∀ item ∈ sources, py.clean (get item.1.fields "channelId") ≠ [])
    (hlen : sources.length ≤ 40) (hne : sources ≠ [])
    (hfallback : PyText.strip once.fallbackChannelId = once.fallbackChannelId)
    (hgroups : Groups py once.publicReleaseGroups) :
    ∃ twice, normalizeRouting py once.toValue = some twice ∧
      twice.fallbackChannelId = once.fallbackChannelId ∧
      twice.publicReleaseGroups = once.publicReleaseGroups ∧
      (twice.rules = once.rules ↔ ∀ item ∈ sources, Settled py item.1) := by
  have hv2 : isV2 once.toValue.fields = true := by
    rw [isV2, (toValue_fields once).1]
    obtain ⟨item, sources, rfl⟩ := List.exists_cons_of_ne_nil hne
    have hchannel := hchannels item List.mem_cons_self
    refine List.any_eq_true.mpr ⟨ruleOf py item.1.fields item.2, ?_, ?_⟩
    · rw [hrules]
      exact List.mem_cons_self
    · rw [ruleOf, (rule_fields _ _ _ _ _).2.2.2.2]
      simp only [rule, Value.isDict, Value.truthy, Bool.true_and]
      simp [hchannel]
  rw [normalizeRouting_toValue hgroups, if_pos hv2]
  refine ⟨_, rfl, hfallback, rfl, ?_⟩
  obtain ⟨hsize, hsame⟩ := normalizeRules_ruleOf hpy hchannels 0
  rw [← hrules] at hsize hsame
  rw [List.take_of_length_le]
  · exact hsame
  · exact hsize.trans_le hlen

/-- Without rules, only a fallback channel makes one. -/
theorem twice_of_nil {once : Routing} (hrules : once.rules = [])
    (hshadow : once.shadow = none ∨ once.shadow = some ([], [], []))
    (hfallback : PyText.strip once.fallbackChannelId = once.fallbackChannelId)
    (hgroups : Groups py once.publicReleaseGroups) :
    ∃ twice, normalizeRouting py once.toValue = some twice ∧
      twice.fallbackChannelId = once.fallbackChannelId ∧
      twice.publicReleaseGroups = once.publicReleaseGroups ∧
      (twice.rules = once.rules ↔ once.fallbackChannelId = []) := by
  have hv2 : isV2 once.toValue.fields = false := by
    rw [isV2, (toValue_fields once).1, hrules]
    rfl
  have hchannels : py.clean (get once.toValue.fields "releaseGroupChannelId") = [] ∧
      py.clean (get once.toValue.fields "noReleaseGroupCompletedChannelId") = [] ∧
      py.clean (get once.toValue.fields "noReleaseGroupUpdatingChannelId") = [] := by
    rw [Routing.toValue]
    rcases hshadow with hshadow | hshadow
    · rw [hshadow]
      exact ⟨rfl, rfl, rfl⟩
    · rw [hshadow]
      exact ⟨rfl, rfl, rfl⟩
  rw [normalizeRouting_toValue hgroups, hv2, if_neg Bool.false_ne_true]
  obtain ⟨hgroup, hcompleted, hupdating⟩ := hchannels
  have hfallback' : orElse once.fallbackChannelId [] = once.fallbackChannelId := by
    rw [orElse]
    split_ifs with hnil
    · exact hnil.symm
    · rfl
  have htwice : migrateV1Routing py once.toValue.fields once.publicReleaseGroups =
      ⟨normalizeRules py (migratedRules [] [] [] once.fallbackChannelId once.publicReleaseGroups),
        once.fallbackChannelId, once.publicReleaseGroups, some ([], [], [])⟩ := by
    simp only [migrateV1Routing, (toValue_fields once).2.1, clean_str, hgroup, hcompleted,
      hupdating, hfallback, hfallback']
  rw [htwice]
  refine ⟨_, rfl, rfl, rfl, ?_⟩
  by_cases hnil : once.fallbackChannelId = []
  · rw [hnil, hrules]
    exact iff_of_true rfl rfl
  · have hmade : migratedRules [] [] [] once.fallbackChannelId once.publicReleaseGroups =
        [rule "migrated-fallback".toList "默认投递".toList true [] once.fallbackChannelId] := by
      simp [migratedRules, hnil]
    refine iff_of_false ?_ hnil
    rw [hrules, hmade, normalizeRules, List.zipIdx_singleton, List.filterMap_cons,
      normalizeRule_eq, keeps, (rule_fields _ _ _ _ _).2.2.2.2, clean_str, hfallback]
    simp [rule, Value.isDict, hnil]

/-- What matches is the same when the rules and the groups are. -/
theorem ruleMatches_congr {once twice : Routing} (hrules : twice.rules = once.rules)
    (hgroups : twice.publicReleaseGroups = once.publicReleaseGroups)
    (facts : List (Text × Value)) :
    twice.rules.map (ruleMatches py · facts twice.toValue.fields) =
      once.rules.map (ruleMatches py · facts once.toValue.fields) := by
  rw [hrules]
  apply List.map_congr_left
  intro rule _
  rw [ruleMatches, ruleMatches, (toValue_fields once).2.2, (toValue_fields twice).2.2, hgroups]

/-! ### The first pass -/

/-- The rules that `migrate_v1_routing` makes have a channel and are settled. -/
theorem settled_of_mem_migratedRules (py : Builtins) {a b c d : Text} {groups : List Text}
    {item : Value} (h : item ∈ migratedRules a b c d groups) :
    (∃ channelId ∈ [a, b, c, d], channelId ≠ [] ∧ item.isDict = true ∧
      get item.fields "channelId" = .str channelId) ∧ Settled py item := by
  simp only [migratedRules, List.mem_append, List.mem_ite_nil_right, List.mem_singleton] at h
  rcases h with ((⟨h, rfl⟩ | ⟨h, rfl⟩) | ⟨h, rfl⟩) | ⟨h, rfl⟩
  · refine ⟨⟨a, by simp, h.1, rfl, rfl⟩, rfl, ?_⟩
    rw [(rule_fields _ _ _ _ _).2.1, clean_str]
    decide
  · refine ⟨⟨b, by simp, h, rfl, rfl⟩, rfl, ?_⟩
    rw [(rule_fields _ _ _ _ _).2.1, clean_str]
    decide
  · refine ⟨⟨c, by simp, h, rfl, rfl⟩, rfl, ?_⟩
    rw [(rule_fields _ _ _ _ _).2.1, clean_str]
    decide
  · refine ⟨⟨d, by simp, h, rfl, rfl⟩, rfl, ?_⟩
    rw [(rule_fields _ _ _ _ _).2.1, clean_str]
    decide

theorem length_migratedRules (a b c d : Text) (groups : List Text) :
    (migratedRules a b c d groups).length ≤ 4 := by
  rw [migratedRules]
  split_ifs <;> simp

theorem migratedRules_eq_nil {a b c d : Text} {groups : List Text}
    (h : migratedRules a b c d groups = []) : b = [] ∧ c = [] ∧ d = [] := by
  rw [migratedRules] at h
  simp only [List.append_eq_nil_iff, ite_eq_right_iff, List.cons_ne_nil, imp_false, not_not] at h
  exact ⟨h.1.1.2, h.1.2, h.2⟩

/-- What the first pass keeps of the rules that it makes itself. -/
theorem migrate_cases (py : Builtins) (raw : List (Text × Value)) (groups : List Text) :
    ∃ sources : List (Value × ℕ),
      (migrateV1Routing py raw groups).rules =
        sources.map (fun item => ruleOf py item.1.fields item.2) ∧
      (∀ item ∈ sources, py.clean (get item.1.fields "channelId") ≠ [] ∧ Settled py item.1) ∧
      sources.length ≤ 40 ∧
      (sources = [] → (migrateV1Routing py raw groups).shadow = some ([], [], []) ∧
        (migrateV1Routing py raw groups).fallbackChannelId = []) := by
  have hkept : ∀ a b c d : Text, (∀ x ∈ [a, b, c, d], PyText.strip x = x) →
      ∀ item ∈ migratedRules a b c d groups, keeps py item = true := by
    intro a b c d habcd item hitem
    obtain ⟨channelId, hmem, hne, hdict, hget⟩ := (settled_of_mem_migratedRules py hitem).1
    rw [keeps, hdict, hget, clean_str, habcd channelId hmem, Bool.true_and, decide_eq_true_eq]
    exact hne
  have hclean : ∀ key, PyText.strip (py.clean (get raw key)) = py.clean (get raw key) :=
    fun key => PyText.strip_strip _
  have hstripped : ∀ x ∈ [py.clean (get raw "releaseGroupChannelId"),
      py.clean (get raw "noReleaseGroupCompletedChannelId"),
      py.clean (get raw "noReleaseGroupUpdatingChannelId"),
      orElse (py.clean (get raw "fallbackChannelId"))
        (py.clean (get raw "releaseGroupChannelId"))], PyText.strip x = x := by
    simp only [List.forall_mem_cons, List.not_mem_nil, false_imp_iff, implies_true, and_true]
    refine ⟨hclean _, hclean _, hclean _, ?_⟩
    rw [orElse]
    split_ifs
    · exact hclean _
    · exact hclean _
  have hall := hkept _ _ _ _ hstripped
  refine ⟨_, normalizeRules_eq _, ?_, ?_, ?_⟩
  · intro item hitem
    obtain ⟨hmem, hkeep⟩ := List.mem_filter.mp hitem
    rw [keeps, Bool.and_eq_true, decide_eq_true_eq] at hkeep
    exact ⟨hkeep.2, (settled_of_mem_migratedRules py (List.fst_mem_of_mem_zipIdx hmem)).2⟩
  · refine (List.length_filter_le _ _).trans ?_
    rw [List.length_zipIdx]
    exact (length_migratedRules _ _ _ _ _).trans (by decide)
  · intro hnil
    have hmade := congrArg (List.map Prod.fst) hnil
    rw [map_fst_filter_zipIdx, List.filter_eq_self.mpr hall, List.map_nil] at hmade
    obtain ⟨hcompleted, hupdating, hfallback⟩ := migratedRules_eq_nil hmade
    rw [orElse] at hfallback
    split_ifs at hfallback with hnone
    · simp only [migrateV1Routing, hcompleted, hupdating, hfallback, hnone, and_self]
    · exact absurd hfallback hnone

/-- What a second pass does to a routing whose rules were kept from these sources. -/
theorem twice_iff (hpy : py.Right) {once : Routing} {sources : List (Value × ℕ)}
    (hrules : once.rules = sources.map fun item => ruleOf py item.1.fields item.2)
    (hchannels : ∀ item ∈ sources, py.clean (get item.1.fields "channelId") ≠ [])
    (hlen : sources.length ≤ 40)
    (hshadow : sources = [] → once.shadow = none ∨ once.shadow = some ([], [], []))
    (hfallback : PyText.strip once.fallbackChannelId = once.fallbackChannelId)
    (hgroups : Groups py once.publicReleaseGroups) :
    (∃ twice, normalizeRouting py once.toValue = some twice ∧
      twice.rules = once.rules ∧ twice.fallbackChannelId = once.fallbackChannelId ∧
      twice.publicReleaseGroups = once.publicReleaseGroups ∧
      ∀ facts, twice.rules.map (ruleMatches py · facts twice.toValue.fields) =
        once.rules.map (ruleMatches py · facts once.toValue.fields)) ↔
    (∀ item ∈ sources, Settled py item.1) ∧ (sources = [] → once.fallbackChannelId = []) := by
  have hboth : ∀ {condition : Prop}, (∃ twice, normalizeRouting py once.toValue = some twice ∧
      twice.fallbackChannelId = once.fallbackChannelId ∧
      twice.publicReleaseGroups = once.publicReleaseGroups ∧
      (twice.rules = once.rules ↔ condition)) →
      ((∃ twice, normalizeRouting py once.toValue = some twice ∧
        twice.rules = once.rules ∧ twice.fallbackChannelId = once.fallbackChannelId ∧
        twice.publicReleaseGroups = once.publicReleaseGroups ∧
        ∀ facts, twice.rules.map (ruleMatches py · facts twice.toValue.fields) =
          once.rules.map (ruleMatches py · facts once.toValue.fields)) ↔ condition) := by
    rintro condition ⟨twice, htwice, hfallback, hgroups, hiff⟩
    constructor
    · rintro ⟨twice', htwice', hsame, -⟩
      rw [htwice] at htwice'
      rw [← Option.some.inj htwice'] at hsame
      exact hiff.mp hsame
    · intro hcondition
      have hsame := hiff.mpr hcondition
      exact ⟨twice, htwice, hsame, hfallback, hgroups, ruleMatches_congr hsame hgroups⟩
  by_cases hnil : sources = []
  · rw [hboth (twice_of_nil (by rw [hrules, hnil, List.map_nil]) (hshadow hnil) hfallback hgroups)]
    simp [hnil]
  · rw [hboth (twice_of_rules hpy hrules hchannels hlen hnil hfallback hgroups)]
    simp [hnil]

/-- A routing is stable just when what is kept of it is settled. -/
theorem normalize_stable_iff (hpy : py.Right) (value : Value) :
    Stable py value ↔ SettledRouting py value := by
  rw [Stable, SettledRouting]
  cases hitems : iterated (get value.fields "publicReleaseGroups") with
  | none =>
    rw [normalizeRouting, hitems]
    exact iff_of_true (fun once h => by cases h) fun h => by cases h
  | some items =>
    have hgroups : Groups py (publicLoop py [] items) :=
      groups_publicLoop ⟨List.forall_mem_nil _, List.nodup_nil⟩ items
    have hfallback : PyText.strip (py.clean (get value.fields "fallbackChannelId")) =
        py.clean (get value.fields "fallbackChannelId") := PyText.strip_strip _
    rw [normalizeRouting, hitems, Option.map_some]
    by_cases hv2 : isV2 value.fields = true
    · have hrules : (normalizeRules py (rulesOf value.fields)).take 40 =
          (((rulesOf value.fields).zipIdx.filter fun item => keeps py item.1).take 40).map
            fun item => ruleOf py item.1.fields item.2 := by
        rw [normalizeRules_eq, List.map_take]
      have hkept : keptRules py value.fields =
          (((rulesOf value.fields).zipIdx.filter fun item => keeps py item.1).take 40).map
            Prod.fst := by
        rw [keptRules, List.map_take, map_fst_filter_zipIdx]
      have hchannels : ∀ item ∈
          ((rulesOf value.fields).zipIdx.filter fun item => keeps py item.1).take 40,
          py.clean (get item.1.fields "channelId") ≠ [] := by
        intro item hitem
        have hkeep := (List.mem_filter.mp (List.mem_of_mem_take hitem)).2
        rw [keeps, Bool.and_eq_true, decide_eq_true_eq] at hkeep
        exact hkeep.2
      have hiff := @twice_iff py hpy ⟨(normalizeRules py (rulesOf value.fields)).take 40,
        py.clean (get value.fields "fallbackChannelId"), publicLoop py [] items, none⟩ _ hrules
        hchannels (List.length_take_le _ _) (fun _ => .inl rfl) hfallback hgroups
      rw [hkept, List.forall_mem_map, List.map_eq_nil_iff, if_pos hv2]
      constructor
      · intro hstable _ _
        exact hiff.mp (hstable _ rfl)
      · intro hsettled once honce
        rw [← Option.some.inj honce]
        exact hiff.mpr (hsettled rfl hv2)
    · rw [if_neg hv2]
      refine iff_of_true ?_ fun _ h => absurd h hv2
      intro once honce
      rw [← Option.some.inj honce]
      obtain ⟨sources, hrules, hsources, hlen, hnil⟩ :=
        migrate_cases py value.fields (publicLoop py [] items)
      exact (twice_iff hpy hrules (fun item h => (hsources item h).1) hlen
        (fun h => .inr (hnil h).1) hfallback hgroups).mpr
        ⟨fun item h => (hsources item h).2, fun h => (hnil h).2⟩

/-! ### One rule -/

/-- The conversions on ASCII texts and numbers. -/
def ascii : Builtins where
  str
    | .null => "None".toList
    | .bool b => (if b then "True" else "False").toList
    | .int n => (toString n).toList
    | .float text _ => text
    | _ => []
  int s :=
    if s ≠ [] ∧ s.all Char.isDigit then some (s.foldl (fun n c => 10 * n + (c.toNat - 48)) 0)
    else none
  lower s := s.map Char.toLower

theorem right_ascii : ascii.Right := by
  refine ⟨?_, rfl⟩
  intro s hs
  apply if_neg
  rintro ⟨-, hall⟩
  obtain ⟨c, hc, halpha⟩ := List.any_eq_true.mp hs
  have hdigit := List.all_eq_true.mp hall c hc
  simp only [Char.isAlpha, Char.isUpper, Char.isLower, Char.isDigit, Bool.or_eq_true,
    Bool.and_eq_true, decide_eq_true_eq, ge_iff_le, UInt32.le_iff_toNat_le] at halpha hdigit
  simp at halpha hdigit
  omega

/-- A rule for a channel, with a condition on the TMDB id. -/
def oneRule (tmdbId : Value) : Value :=
  .dict [("rules".toList, .list [.dict [("channelId".toList, .str ['1']),
    ("when".toList, .dict [("tmdbId".toList, tmdbId)])]])]

theorem normalize_stable_iff_oneRule : Stable ascii (oneRule (.str "603".toList)) ↔
    SettledRouting ascii (oneRule (.str "603".toList)) :=
  normalize_stable_iff right_ascii _

/-- A rule for any TMDB id becomes a rule without a condition. -/
theorem required_dropped :
    ¬∀ py : Builtins, py.Right → ∀ value, Stable py value := by
  intro hall
  have hconditions : ∀ routing, normalizeRouting ascii (oneRule (.bool true)) = some routing →
      routing.rules.map (fun rule => (get (get rule.fields "when").fields "tmdbId").truthy) =
        [true] ∧
      (normalizeRouting ascii routing.toValue).map (fun again => again.rules.map fun rule =>
        (get (get rule.fields "when").fields "tmdbId").truthy) = some [false] := by
    intro routing h
    rw [← Option.some.inj h]
    decide +kernel
  cases honce : normalizeRouting ascii (oneRule (.bool true)) with
  | none => cases honce
  | some once =>
    obtain ⟨twice, htwice, hrules, -⟩ := hall ascii right_ascii _ once honce
    obtain ⟨hone, htwo⟩ := hconditions once honce
    rw [htwice, Option.map_some, hrules, hone] at htwo
    cases htwo

end AllInOneBackup.Cloud123.SubmissionRouting
