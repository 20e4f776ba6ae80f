import AllInOneBackup.Data.PyText

/-! The routing of submissions: rules with conditions, the older form with three channels, and what
is made of either before it is stored. -/

namespace AllInOneBackup.Cloud123.SubmissionRouting

open Data

/-! ### Values -/

/-- A value of a JSON document; of a number with a fraction only its text and whether it is zero. -/
inductive Value
  | null
  | bool (b : Bool)
  | int (n : ℤ)
  | float (text : Text) (zero : Bool)
  | str (s : Text)
  | list (items : List Value)
  | dict (fields : List (Text × Value))

/-- Python's conversions: `str(value)` of what is no text, `int(s)` of a text, and `s.lower()`. -/
structure Builtins where
  str : Value → Text
  int : Text → Option ℤ
  lower : Text → Text

namespace Value

/-- `bool(value)`. -/
def truthy : Value → Bool
  | .null => false
  | .bool b => b
  | .int n => decide (n ≠ 0)
  | .float _ zero => !zero
  | .str s => !s.isEmpty
  | .list items => !items.isEmpty
  | .dict fields => !fields.isEmpty

/-- The fields of a dict; of another value there are none. -/
def fields : Value → List (Text × Value)
  | .dict fields => fields
  | _ => []

def isDict : Value → Bool
  | .dict _ => true
  | _ => false

def isTrue : Value → Bool
  | .bool b => b
  | _ => false

def isFalse : Value → Bool
  | .bool b => !b
  | _ => false

end Value

/-- `fields.get(key)`. -/
def get (fields : List (Text × Value)) (key : String) : Value :=
  ((fields.find? fun field => field.1 = key.toList).map Prod.snd).getD .null

namespace Builtins

variable (py : Builtins)

/-- `str(value)`. -/
def text : Value → Text
  | .str s => s
  | value => py.str value

/-- `str(value or default)`. -/
def textOr (value : Value) (default : Text) : Text :=
  if value.truthy then py.text value else default

/-- `str(value or "").strip()`. -/
def clean (value : Value) : Text := PyText.strip (py.textOr value [])

def safeRoutingInt (value : Value) : ℤ := (py.int (PyText.strip (py.text value))).getD 0

end Builtins

/-! ### Conditions -/

section Conditions

variable (py : Builtins)

def conditionKeys : List String :=
  ["linkType", "mediaType", "completion", "releaseGroupState", "releaseGroupWhitelist",
    "submitter", "quality", "source"]

/-- The texts of a list that are not blank. -/
def cleaned (items : List Value) : Option Value :=
  let names := (items.map py.clean).filter (· ≠ [])
  if names = [] then none else some (.list (names.map .str))

/-- A condition with texts: a text alone is a list of one. -/
def condition : Value → Option Value
  | .str s => cleaned py [.str s]
  | .list items => cleaned py items
  | _ => none

/-- `parsed` of an item of `tmdbId`: a number, or a boolean, is kept as it is. -/
def parsedId : Value → Value
  | .int n => .int n
  | .bool b => .bool b
  | item => .int (py.safeRoutingInt (.str (Text.lstrip '#' (PyText.strip (py.text item)))))

/-- What a number is compared by. -/
def number : Value → ℤ
  | .int n => n
  | .bool b => if b then 1 else 0
  | _ => 0

/-- The loop over the items of `tmdbId`. -/
def tmdbLoop : List Value → List Value → List Value
  | tmdbValues, [] => tmdbValues
  | tmdbValues, item :: items =>
    let parsed := parsedId py item
    if 0 < number parsed ∧ number parsed ∉ tmdbValues.map number then
      tmdbLoop (tmdbValues ++ [parsed]) items
    else tmdbLoop tmdbValues items

def tmdbCondition : Value → Option Value
  | .list items =>
    let tmdbValues := tmdbLoop py [] items
    if tmdbValues.isEmpty then none else some (.list tmdbValues)
  | .bool b => if b then some (.str "required".toList) else none
  | value =>
    if 0 < py.safeRoutingInt value then some (.list [.int (py.safeRoutingInt value)]) else none

/-- The conditions that are left of `when`. -/
def normalizeWhen (rawWhen : List (Text × Value)) : List (Text × Value) :=
  (conditionKeys ++ ["releaseGroups"]).filterMap (fun key =>
    (condition py (get rawWhen key)).map fun value => (key.toList, value)) ++
  ((tmdbCondition py (get rawWhen "tmdbId")).map fun value => ("tmdbId".toList, value)).toList

/-! ### Rules -/

/-- `f"rule_{index + 1}"`. -/
def ruleId (index : ℕ) : Text := "rule_".toList ++ Nat.toDigits 10 (index + 1)

/-- `s or default`. -/
def orElse (s default : Text) : Text := if s = [] then default else s

def rule (id name : Text) (enabled : Bool) (when : List (Text × Value)) (channelId : Text) :
    Value :=
  .dict [("id".toList, .str id), ("name".toList, .str name), ("enabled".toList, .bool enabled),
    ("when".toList, .dict when), ("channelId".toList, .str channelId)]

def normalizeRule (value : Value) (index : ℕ) : Option Value :=
  match value with
  | .dict fields =>
    let id := orElse (PyText.strip (py.textOr (get fields "id") (ruleId index))) (ruleId index)
    let name := (py.clean (get fields "name")).take 60
    let enabled := !(get fields "enabled").isFalse
    let when := normalizeWhen py (get fields "when").fields
    let channelId := py.clean (get fields "channelId")
    if channelId = [] then none else some (rule id name enabled when channelId)
  | _ => none

/-! ### Routings -/

/-- A normalised routing; the three channels of the older form are kept where it had them. -/
structure Routing where
  rules : List Value
  fallbackChannelId : Text
  publicReleaseGroups : List Text
  shadow : Option (Text × Text × Text)

def Routing.toValue (routing : Routing) : Value :=
  .dict <|
    [("version".toList, .int 2), ("rules".toList, .list routing.rules),
      ("fallbackChannelId".toList, .str routing.fallbackChannelId),
      ("publicReleaseGroups".toList, .list (routing.publicReleaseGroups.map .str))] ++
    match routing.shadow with
    | none => []
    | some (releaseGroupId, completedId, updatingId) =>
      [("releaseGroupChannelId".toList, .str releaseGroupId),
        ("noReleaseGroupCompletedChannelId".toList, .str completedId),
        ("noReleaseGroupUpdatingChannelId".toList, .str updatingId)]

/-- What a loop over `value or []` runs over; a number raises a `TypeError`. -/
def iterated (value : Value) : Option (List Value) :=
  if value.truthy then
    match value with
    | .str s => some (s.map fun c => .str [c])
    | .list items => some items
    | .dict fields => some (fields.map fun field => .str field.1)
    | _ => none
  else some []

/-- `re.sub(r"\s+", " ", str(item or "")).strip()`. -/
def squeezed (item : Value) : Text := PyText.strip (PyText.collapse (py.textOr item []))

/-- The loop over the public groups. -/
def publicLoop : List Text → List Value → List Text
  | groups, [] => groups
  | groups, item :: items =>
    if squeezed py item ≠ [] ∧ squeezed py item ∉ groups then
      publicLoop (groups ++ [squeezed py item]) items
    else publicLoop groups items

/-- `normalize_rule` of each rule with its index, without those that are dropped. -/
def normalizeRules (rules : List Value) : List Value :=
  rules.zipIdx.filterMap fun item => normalizeRule py item.1 item.2

/-- The rules that stand for the three channels and the fallback. -/
def migratedRules (releaseGroupId completedId updatingId fallback : Text) (groups : List Text) :
    List Value :=
  (if releaseGroupId ≠ [] ∧ groups ≠ [] then
    [rule "migrated-release-group".toList "发布组不在白名单".toList true
      [("releaseGroupState".toList, .list [.str "detected".toList]),
        ("releaseGroupWhitelist".toList, .str "notIn".toList)] releaseGroupId] else []) ++
  (if completedId ≠ [] then
    [rule "migrated-completed".toList "完结内容".toList true
      [("completion".toList, .list [.str "completed".toList])] completedId] else []) ++
  (if updatingId ≠ [] then
    [rule "migrated-updating".toList "连载内容".toList true
      [("completion".toList, .list [.str "updating".toList])] updatingId] else []) ++
  (if fallback ≠ [] then
    [rule "migrated-fallback".toList "默认投递".toList true [] fallback] else [])

def migrateV1Routing (raw : List (Text × Value)) (groups : List Text) : Routing :=
  let completedId := py.clean (get raw "noReleaseGroupCompletedChannelId")
  let updatingId := py.clean (get raw "noReleaseGroupUpdatingChannelId")
  let releaseGroupId := py.clean (get raw "releaseGroupChannelId")
  let fallback := orElse (py.clean (get raw "fallbackChannelId")) releaseGroupId
  ⟨normalizeRules py (migratedRules releaseGroupId completedId updatingId fallback groups),
    py.clean (get raw "fallbackChannelId"), groups, some (releaseGroupId, completedId, updatingId)⟩

/-- `rules` is a list with a rule in it that has a channel or a condition. -/
def isV2 (raw : List (Text × Value)) : Bool :=
  match get raw "rules" with
  | .list rules => rules.any fun item =>
    item.isDict && ((get item.fields "channelId").truthy || (get item.fields "when").truthy)
  | _ => false

def rulesOf (raw : List (Text × Value)) : List Value :=
  match get raw "rules" with
  | .list rules => rules
  | _ => []

def normalizeRouting (value : Value) : Option Routing :=
  let raw := value.fields
  (iterated (get raw "publicReleaseGroups")).map fun items =>
    let publicGroups := publicLoop py [] items
    if isV2 raw then
      ⟨(normalizeRules py (rulesOf raw)).take 40, py.clean (get raw "fallbackChannelId"),
        publicGroups, none⟩
    else migrateV1Routing py raw publicGroups

/-! ### Matching -/

/-- `any_of(key)`. -/
def anyOf (when facts : List (Text × Value)) (key : String) : Bool :=
  match get when key with
  | .list [] => true
  | .list wanted =>
    match get facts key with
    | .list fact => fact.any fun item => (wanted.map py.text).contains (py.text item)
    | fact => (wanted.map py.text).contains (py.textOr fact [])
  | _ => true

/-- The loop over a list of groups, in lower case. -/
def lowerLoop : List Text → List Value → List Text
  | groups, [] => groups
  | groups, item :: items =>
    let clean := squeezed py item
    if clean ≠ [] ∧ py.lower clean ∉ groups then lowerLoop (groups ++ [py.lower clean]) items
    else lowerLoop groups items

def isText (s : String) : Value → Bool
  | .str t => decide (t = s.toList)
  | _ => false

/-- The condition on the groups and the whitelist. -/
def whitelistMatches (modes : Value) (groups whitelist : List Text) : Bool :=
  match modes with
  | .list modes =>
    !(modes.any (isText "notIn") && !(groups.any fun group => !whitelist.contains group)) &&
      !(modes.any (isText "in") &&
        !(!groups.isEmpty && groups.all fun group => whitelist.contains group))
  | _ => true

def customMatches (custom : Value) (groups : List Text) : Bool :=
  match custom with
  | .list [] => true
  | .list custom => groups.any fun group => (lowerLoop py [] custom).contains group
  | _ => true

def tmdbMatches (condition fact : Value) : Bool :=
  match condition with
  | .list [] => true
  | .list items => (items.map py.safeRoutingInt).contains (py.safeRoutingInt fact)
  | .str s => decide (s = "required".toList → 0 < py.safeRoutingInt fact)
  | .bool b => decide (b = true → 0 < py.safeRoutingInt fact)
  | _ => true

/-- The items of a list; of another value there are none. -/
def Value.items : Value → List Value
  | .list items => items
  | _ => []

def ruleMatches (rule : Value) (facts routing : List (Text × Value)) : Option Bool :=
  let when := (get rule.fields "when").fields
  if ["linkType", "mediaType", "completion", "releaseGroupState", "submitter", "quality",
      "source"].all (anyOf py when facts) then
    (iterated (get facts "releaseGroups")).map fun items =>
      let whitelist := lowerLoop py [] (get routing "publicReleaseGroups").items
      let groups := items.map py.text
      whitelistMatches (get when "releaseGroupWhitelist") groups whitelist &&
        customMatches py (get when "releaseGroups") groups &&
        tmdbMatches py (get when "tmdbId") (get facts "tmdbId")
  else some false

end Conditions

end AllInOneBackup.Cloud123.SubmissionRouting
