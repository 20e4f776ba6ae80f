import AllInOneBackup.Data.Search
import AllInOneBackup.Data.Utf8

/-! What is cut off and rewritten in the URL of a share before it is compared with other URLs. Each
drive has its own function, and each is used on what it returned before. -/

namespace AllInOneBackup.PanSou.Links

open Data.Search

/-- The UTF-8 of a text of the source. -/
def utf8 (s : String) : Bytes := (Utf8.encode (str s)).getD []

def isHex (c : UInt8) : Bool :=
  48 ≤ c && c ≤ 57 || 65 ≤ c && c ≤ 70 || 97 ≤ c && c ≤ 102

def unhex (c : UInt8) : UInt8 :=
  if 97 ≤ c then c - 97 + 10 else if 65 ≤ c then c - 65 + 10 else c - 48

def percent : UInt8 := 37

def plus : UInt8 := 43

def space : UInt8 := 32

/-- `netUrl.QueryUnescape`. -/
def queryUnescape : Bytes → Option Bytes
  | [] => some []
  | c :: s =>
    if c = percent then
      match s with
      | a :: b :: s =>
        if isHex a && isHex b then (queryUnescape s).map ((unhex a * 16 + unhex b) :: ·) else none
      | _ => none
    else (queryUnescape s).map ((if c = plus then space else c) :: ·)

/-! ### The six functions -/

def endMarkers : List Bytes := [" ", "\n", "\t", "，", "。", "；", ";", "，", ","].map utf8

def baiduShare : Bytes := utf8 "https://pan.baidu.com/s/"

def pwdMark : Bytes := utf8 "?pwd="

def baiduMarkers : List Bytes := endMarkers ++ [pwdMark]

def cleanBaiduPanURL (url : Bytes) : Bytes :=
  match index baiduShare url with
  | none => url
  | some startIdx =>
    let url := cut baiduMarkers (url.drop startIdx)
    match index pwdMark url with
    | none => url
    | some pwdIdx =>
      if url.length > pwdIdx + 5 ∧ pwdIdx + 9 ≤ url.length then url.take (pwdIdx + 9) else url

def tianyiShare : Bytes := utf8 "https://cloud.189.cn/t/"

def tianyiMarkers : List Bytes := endMarkers ++ ["实时", "天翼", "更多"].map utf8

def cleanTianyiPanURL (url : Bytes) : Bytes :=
  match index tianyiShare url with
  | none => url
  | some startIdx =>
    let url := cut tianyiMarkers (url.drop startIdx)
    (queryUnescape url).getD url

def ucShare : Bytes := utf8 "https://drive.uc.cn/s/"

def ucMarkers : List Bytes := endMarkers ++ ["网盘", "夸克", "阿里", "百度"].map utf8

def publicMark : Bytes := utf8 "?public="

/-- The part with the parameter `public` and one byte of its value. -/
def keepPublic (url : Bytes) : Bytes :=
  match index publicMark url with
  | none => url
  | some publicIdx =>
    if publicIdx > 0 then
      if publicIdx + 9 ≤ url.length then url.take (publicIdx + 9) else url.take (publicIdx + 8)
    else url

def cleanUCPanURL (url : Bytes) : Bytes :=
  match index ucShare url with
  | none => url
  | some startIdx =>
    let url := url.drop startIdx
    let minEndIdx := endIndex ucMarkers url
    if minEndIdx < url.length then url.take minEndIdx else keepPublic url

def protocols : List Bytes := ["http://", "https://"].map utf8

def hasProtocol (url : Bytes) : Bool := protocols.any (·.isPrefixOf url)

/-- The place of the first of the domains that occurs at all. -/
def startIn (domains : List Bytes) (url : Bytes) : Option ℕ :=
  domains.findSome? fun domain => index domain url

/-- The link at `startIdx`, with the protocol of the text or a new one. -/
def withProtocol (url : Bytes) (startIdx : ℕ) : Bytes :=
  if !hasProtocol url then utf8 "https://" ++ url.drop startIdx
  else if startIdx > 0 then
    match index (utf8 "://") url with
    | some protocolIdx => url.take (protocolIdx + 3) ++ url.drop startIdx
    | none => url
  else url

def emojiMarkers : List Bytes :=
  endMarkers ++ ["📁", "🔍", "标签", "🏷", "📎", "🔗", "📌", "📋", "📂", "🗂️", "🔖", "📚", "📒", "📔", "📕",
    "📓", "📗", "📘", "📙", "📄", "📃", "📑", "🧾", "📊", "📈", "📉", "🗒️", "🗓️", "📆", "📅", "🗑️", "🔒", "🔓",
    "🔏", "🔐", "🔑", "🗝️"].map utf8

def domains123 : List Bytes :=
  ["123684.com", "123685.com", "123865.com", "123912.com", "123pan.com", "123pan.cn",
    "123592.com"].map fun domain => utf8 domain ++ utf8 "/s/"

def plainCode : Bytes := utf8 "提取码"

def encodedCode : Bytes := utf8 "%E6%8F%90%E5%8F%96%E7%A0%81"

def clean123PanURL (url : Bytes) : Bytes :=
  match startIn domains123 url with
  | none => url
  | some startIdx =>
    let url := withProtocol url startIdx
    let minEndIdx := endIndex emojiMarkers url
    if minEndIdx < url.length then url.take minEndIdx
    else if contains encodedCode url then replaceOnce encodedCode plainCode url
    else url

def domains115 : List Bytes := ["115.com/s/", "115cdn.com/s/", "anxia.com/s/"].map utf8

def passwordMark : Bytes := utf8 "?password="

def hash : Bytes := utf8 "#"

/-- The part before a `#`. -/
def beforeHash (url : Bytes) : Bytes :=
  match index hash url with
  | some hashIdx => if hashIdx > 0 then url.take hashIdx else url
  | none => url

/-- The part with the parameter `password` and four bytes of its value, or before a `#`. -/
def keepPassword (url : Bytes) : Bytes :=
  match index passwordMark url with
  | none => beforeHash url
  | some pwdIdx =>
    if pwdIdx > 0 ∧ pwdIdx + 14 ≤ url.length then url.take (pwdIdx + 14) else beforeHash url

def clean115PanURL (url : Bytes) : Bytes :=
  match startIn domains115 url with
  | none => url
  | some startIdx => keepPassword (withProtocol url startIdx)

def domainsAliyun : List Bytes :=
  ["www.alipan.com/s/", "alipan.com/s/", "www.aliyundrive.com/s/", "aliyundrive.com/s/"].map utf8

def cleanAliyunPanURL (url : Bytes) : Bytes :=
  if contains (utf8 "alipan.com/s/") url || contains (utf8 "aliyundrive.com/s/") url then
    match startIn domainsAliyun url with
    | none => url
    | some startIdx => cut emojiMarkers (withProtocol url startIdx)
  else url

end AllInOneBackup.PanSou.Links
