import AllInOneBackup.Data.Drawing
import AllInOneBackup.Data.Block
import AllInOneBackup.Data.Utf8
import AllInOneBackup.Kurigram.Raw.Core
import Mathlib.Data.List.Perm.Basic

/-! The fake-TLS greeting: a list of operations that a writer renders. A scope reserves two bytes
for its length and fills them when it is closed; the extensions are rendered one by one and put out
in a random order; and a greeting that is still short is padded. -/

namespace AllInOneBackup.Kurigram.FakeTls

open Bytes

def greaseSize : ℕ := 7

def curve25519Prime : ℕ := 2 ^ 255 - 19

def curve25519A : ℕ := 486662

def curve25519KeySize : ℕ := 32

def mlKem768Modulus : ℕ := 3329

def mlKem768CoefficientPairs : ℕ := 384

def mlKem768SeedSize : ℕ := 32

def paddingTargetOffset : ℕ := 513

/-- `_ECH_PAYLOAD_SIZE` is one of these, the same for all greetings of a process. -/
def echPayloadSizes : List ℕ := [144, 176, 208, 240]

def randomOffset : ℕ := 11

def randomSize : ℕ := 32

def timestampSize : ℕ := 4

def scopeLengthSize : ℕ := 2

inductive Op
  | string (data : Bytes)
  | random (length : ℕ)
  | zero (length : ℕ)
  | domain
  | grease (seed : ℕ)
  | beginScope
  | endScope
  | key
  | mlKem768Key
  | permutation (parts : List (List Op))
  | padding

open Op in
/-- The extensions. -/
def extensions (echPayloadSize : ℕ) : List (List Op) :=
  [[string [0x00, 0x00], beginScope, beginScope, string [0x00], beginScope, domain, endScope,
      endScope, endScope],
    [string [0x00, 0x05, 0x00, 0x05, 0x01, 0x00, 0x00, 0x00, 0x00]],
    [string [0x00, 0x0A, 0x00, 0x0C, 0x00, 0x0A], grease 4,
      string [0x11, 0xEC, 0x00, 0x1D, 0x00, 0x17, 0x00, 0x18]],
    [string [0x00, 0x0B, 0x00, 0x02, 0x01, 0x00]],
    [string [0x00, 0x0D, 0x00, 0x18, 0x00, 0x16, 0x09, 0x04, 0x09, 0x05, 0x09, 0x06, 0x04, 0x03,
      0x08, 0x04, 0x04, 0x01, 0x05, 0x03, 0x08, 0x05, 0x05, 0x01, 0x08, 0x06, 0x06, 0x01]],
    [string [0x00, 0x10, 0x00, 0x0E, 0x00, 0x0C, 0x02, 0x68, 0x32, 0x08, 0x68, 0x74, 0x74, 0x70,
      0x2F, 0x31, 0x2E, 0x31]],
    [string [0x00, 0x12, 0x00, 0x00]],
    [string [0x00, 0x17, 0x00, 0x00]],
    [string [0x00, 0x1B, 0x00, 0x03, 0x02, 0x00, 0x02]],
    [string [0x00, 0x23, 0x00, 0x00]],
    [string [0x00, 0x2B, 0x00, 0x07, 0x06], grease 6, string [0x03, 0x04, 0x03, 0x03]],
    [string [0x00, 0x2D, 0x00, 0x02, 0x01, 0x01]],
    [string [0x00, 0x33, 0x04, 0xEF, 0x04, 0xED], grease 4,
      string [0x00, 0x01, 0x00, 0x11, 0xEC, 0x04, 0xC0], mlKem768Key, key,
      string [0x00, 0x1D, 0x00, 0x20], key],
    [string [0x44, 0xCD, 0x00, 0x05, 0x00, 0x03, 0x02, 0x68, 0x32]],
    [string [0xFE, 0x0D], beginScope, string [0x00, 0x00, 0x01, 0x00, 0x01], random 1,
      string [0x00, 0x20], key, beginScope, random echPayloadSize, endScope, endScope],
    [string [0xFF, 0x01, 0x00, 0x01, 0x00]]]

open Op in
def clientHelloOps (echPayloadSize : ℕ) : List Op :=
  [string [0x16, 0x03, 0x01],
    beginScope,
    string [0x01, 0x00],
    beginScope,
    string [0x03, 0x03],
    zero randomSize,
    string [0x20],
    random 32,
    string [0x00, 0x20],
    grease 0,
    string [0x13, 0x01, 0x13, 0x02, 0x13, 0x03, 0xC0, 0x2B, 0xC0, 0x2F, 0xC0, 0x2C, 0xC0, 0x30,
      0xCC, 0xA9, 0xCC, 0xA8, 0xC0, 0x13, 0xC0, 0x14, 0x00, 0x9C, 0x00, 0x9D, 0x00, 0x2F, 0x00,
      0x35, 0x01, 0x00],
    beginScope,
    grease 2,
    string [0x00, 0x00],
    permutation (extensions echPayloadSize),
    grease 3,
    string [0x00, 0x01, 0x00],
    padding,
    endScope,
    endScope,
    endScope]

/-! ### What is drawn -/

abbrev Drawn (α : Type) := Draw Exc α

/-- `for index in range(1, _GREASE_SIZE, 2)`: a pair of equal bytes is told apart. -/
def parted : Bytes → Bytes
  | a :: b :: rest => a :: (if b = a then b ^^^ 0x10 else b) :: parted rest
  | rest => rest

/-- The pairs are those of the indices 0 and 1, 2 and 3, 4 and 5. -/
def generateGrease : Drawn Bytes := do
  let grease ← Draw.tokenBytes greaseSize
  return parted (grease.map fun b => (b &&& 0xF0) + 0x0A)

/-- `pow(a, e, p)`, by squaring, for an exponent of so many bits. -/
def powLoop (p : ℕ) : ℕ → ℕ → ℕ → ℕ
  | 0, _, _ => 1 % p
  | bits + 1, a, e =>
    let squares := powLoop p bits (a * a % p) (e / 2)
    if e % 2 = 1 then squares * a % p else squares

def pow (a e p : ℕ) : ℕ := powLoop p (e.log2 + 1) a e

def curve25519YSquared (x : ℕ) : ℕ := ((x + curve25519A) * x + 1) * x % curve25519Prime

/-- `x * x - 1` is negative for 0, whose square is that of 1. -/
def curve25519DoubleX (x : ℕ) : ℕ :=
  let denominator := curve25519YSquared x * 4 % curve25519Prime
  let numerator := pow ((x * x : ℤ) - 1).natAbs 2 curve25519Prime
  numerator * pow denominator (curve25519Prime - 2) curve25519Prime % curve25519Prime

def curve25519Candidate : Drawn ℕ := do
  let candidate ← Draw.tokenBytes curve25519KeySize
  return ofBE (candidate.take 31 ++ (candidate.drop 31).map (· &&& 0x7F))

def onCurve (x : ℕ) : Bool :=
  pow (curve25519YSquared x) ((curve25519Prime - 1) / 2) curve25519Prime = 1

/-- The key loop is left after `tries` candidates. -/
def generateCurve25519Key (tries : ℕ) : Drawn Bytes := do
  let x ← Draw.drawUntil onCurve curve25519Candidate tries
  match packUnsigned curve25519KeySize (curve25519DoubleX^[3] x) with
  | some bs => return bs
  | none => Draw.raise (.overflowError "int too big to convert")

/-- Two coefficients of twelve bits in three bytes. -/
def mlKem768Pairs : ℕ → Drawn Bytes
  | 0 => return []
  | n + 1 => do
    let first := (← Draw.randbits 32) % mlKem768Modulus
    let second := (← Draw.randbits 32) % mlKem768Modulus
    let key ← mlKem768Pairs n
    return [.ofNat (first &&& 0xFF), .ofNat (first >>> 8 ||| (second &&& 0x0F) <<< 4),
      .ofNat (second >>> 4)] ++ key

def generateMlKem768Key : Drawn Bytes := do
  let key ← mlKem768Pairs mlKem768CoefficientPairs
  return key ++ (← Draw.tokenBytes mlKem768SeedSize)

/-- The loop of `_shuffled` from an index on; `left` swaps are to be made. -/
def shuffleLoop : ℕ → ℕ → List Bytes → Drawn (List Bytes)
  | 0, _, shuffled => return shuffled
  | left + 1, index, shuffled => do
    let target := index + (← Draw.randbelow (shuffled.length - index))
    shuffleLoop left (index + 1) (shuffled.swap index target)

def shuffled (parts : List Bytes) : Drawn (List Bytes) := shuffleLoop (parts.length - 1) 0 parts

/-! ### The writer -/

structure HelloWriter where
  out : Bytes := []
  scopes : List ℕ := []

namespace HelloWriter

def append (w : HelloWriter) (data : Bytes) : HelloWriter := { w with out := w.out ++ data }

/-- `_scopes` ends where the list begins. -/
def beginScope (w : HelloWriter) : HelloWriter :=
  { scopes := w.out.length :: w.scopes, out := w.out ++ List.replicate scopeLengthSize 0 }

def closeScope (w : HelloWriter) : Drawn HelloWriter :=
  match w.scopes with
  | [] => Draw.raise (.other "IndexError: pop from empty list")
  | start :: scopes =>
    let size : ℤ := w.out.length - start - scopeLengthSize
    if 0 ≤ size ∧ size < 256 ^ scopeLengthSize then
      return {
        out := w.out.take start ++ beBytes scopeLengthSize size.toNat ++
          w.out.drop (start + scopeLengthSize)
        scopes }
    else Draw.raise (.overflowError "int too big to convert")

def writePadding (w : HelloWriter) : Drawn HelloWriter :=
  let size : ℤ := paddingTargetOffset - w.out.length
  if size ≤ 0 then return w
  else ((w.append [0x00, 0x15]).beginScope.append (List.replicate size.toNat 0)).closeScope

section Write

variable (grease domain : Bytes) (tries : ℕ)

mutual

/-- `_write`. -/
def write : Op → HelloWriter → Drawn HelloWriter
  | .string data, w => return w.append data
  | .random length, w => do return w.append (← Draw.tokenBytes length)
  | .zero length, w => return w.append (List.replicate length 0)
  | .domain, w => return w.append domain
  | .grease seed, w =>
    match grease[seed]? with
    | some b => return w.append [b, b]
    | none => Draw.raise (.other "IndexError: index out of range")
  | .beginScope, w => return w.beginScope
  | .endScope, w => w.closeScope
  | .key, w => do return w.append (← generateCurve25519Key tries)
  | .mlKem768Key, w => do return w.append (← generateMlKem768Key)
  | .permutation parts, w => do
    let rendered ← renderParts parts
    return w.append (← shuffled rendered).flatten
  | .padding, w => w.writePadding

def render : List Op → HelloWriter → Drawn HelloWriter
  | [], w => return w
  | op :: ops, w => do render ops (← write op w)

/-- Each part by a writer of its own. -/
def renderParts : List (List Op) → Drawn (List Bytes)
  | [] => return []
  | part :: parts => do
    let w ← render part {}
    return w.out :: (← renderParts parts)

end

end Write

end HelloWriter

/-! ### The greeting -/

structure FakeTlsHello where
  record : Bytes
  random : Bytes

/-- `domain.encode("ascii")`. -/
def encodeAscii (domain : Str) : Except Exc Bytes :=
  if domain.all (·.val < 128) then .ok (domain.map fun c : CodePoint => UInt8.ofNat c.val)
  else .error (.valueError "ordinal not in range(128)")

/-- The last bytes of the digest carry the clock. -/
def stamp (digest timestamp : Bytes) : Bytes :=
  digest.take (randomSize - timestampSize) ++
    List.zipWith (· ^^^ ·) (digest.drop (randomSize - timestampSize)) timestamp

def buildClientHello (hmacSha256 : Bytes → Bytes → Block 32) (echPayloadSize tries : ℕ)
    (domain : Str) (secret : Bytes) (unixTime : ℤ) : Drawn FakeTlsHello := do
  let grease ← generateGrease
  match encodeAscii domain with
  | .error e => Draw.raise e
  | .ok domain =>
    let w ← HelloWriter.render grease domain tries (clientHelloOps echPayloadSize) {}
    let digest := (hmacSha256 secret w.out).toList
    let timestamp := leBytes timestampSize (unixTime % 2 ^ 32).toNat
    let digest := stamp digest timestamp
    let record := w.out.take randomOffset ++ digest ++ w.out.drop (randomOffset + randomSize)
    return { record, random := digest }

end AllInOneBackup.Kurigram.FakeTls
