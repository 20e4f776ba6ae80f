import AllInOneBackup.Kurigram.Crypto.Srp
import AllInOneBackup.Kurigram.Raw.Containers

/-! The exchange that makes an authorization key: `Auth.create`. SHA-1, AES-IGE and the
factorization are arbitrary functions, and so is the server. What is random is drawn beforehand. -/

namespace AllInOneBackup.Kurigram.Auth

open AllInOneBackup.Bytes Raising Raw Struct

/-! ### Messages -/

structure ResPQ where
  nonce : ℤ
  serverNonce : ℤ
  pq : Bytes
  serverPublicKeyFingerprints : List ℤ

structure PQInnerData where
  pq : Bytes
  p : Bytes
  q : Bytes
  nonce : ℤ
  serverNonce : ℤ
  newNonce : ℤ

structure ReqDHParams where
  nonce : ℤ
  serverNonce : ℤ
  p : Bytes
  q : Bytes
  publicKeyFingerprint : ℤ
  encryptedData : Bytes

/-- `ServerDHParamsOk`; the other answer has no `encrypted_answer`, so reading it raises. -/
structure ServerDHParams where
  nonce : ℤ
  serverNonce : ℤ
  encryptedAnswer : Bytes

structure ServerDHInnerData where
  nonce : ℤ
  serverNonce : ℤ
  g : ℤ
  dhPrime : Bytes
  gA : Bytes
  serverTime : ℤ

structure ClientDHInnerData where
  nonce : ℤ
  serverNonce : ℤ
  retryId : ℤ
  gB : Bytes

structure SetClientDHParams where
  nonce : ℤ
  serverNonce : ℤ
  encryptedData : Bytes

/-- The classes `DhGenOk`, `DhGenRetry` and `DhGenFail`, which the client does not tell apart. -/
inductive DhGenKind
  | ok
  | retry
  | fail
  deriving DecidableEq

structure DhGen where
  kind : DhGenKind
  nonce : ℤ
  serverNonce : ℤ

/-! ### The classes of `auth_key.tl` that are encrypted -/

namespace PQInnerData

def id : ℕ := 0x83C95AEC

def write (x : PQInnerData) : Except Exc Bytes := do
  let pq ← Raw.Bytes.new x.pq
  let p ← Raw.Bytes.new x.p
  let q ← Raw.Bytes.new x.q
  let nonce ← newInt 16 x.nonce
  let serverNonce ← newInt 16 x.serverNonce
  let newNonce ← newInt 32 x.newNonce
  return leBytes 4 id ++ (pq ++ (p ++ (q ++ (nonce ++ (serverNonce ++ newNonce)))))

def read : Reader Exc PQInnerData := do
  let pq ← Raw.Bytes.reader
  let p ← Raw.Bytes.reader
  let q ← Raw.Bytes.reader
  let nonce ← intReader 16
  let serverNonce ← intReader 16
  let newNonce ← intReader 32
  return { pq, p, q, nonce, serverNonce, newNonce }

end PQInnerData

namespace ServerDHInnerData

def id : ℕ := 0xB5890DBA

def write (x : ServerDHInnerData) : Except Exc Bytes := do
  let nonce ← newInt 16 x.nonce
  let serverNonce ← newInt 16 x.serverNonce
  let g ← Int.new x.g
  let dhPrime ← Raw.Bytes.new x.dhPrime
  let gA ← Raw.Bytes.new x.gA
  let serverTime ← Int.new x.serverTime
  return leBytes 4 id ++ (nonce ++ (serverNonce ++ (g ++ (dhPrime ++ (gA ++ serverTime)))))

def read : Reader Exc ServerDHInnerData := do
  let nonce ← intReader 16
  let serverNonce ← intReader 16
  let g ← intReader 4
  let dhPrime ← Raw.Bytes.reader
  let gA ← Raw.Bytes.reader
  let serverTime ← intReader 4
  return { nonce, serverNonce, g, dhPrime, gA, serverTime }

end ServerDHInnerData

namespace ClientDHInnerData

def id : ℕ := 0x6643B654

def write (x : ClientDHInnerData) : Except Exc Bytes := do
  let nonce ← newInt 16 x.nonce
  let serverNonce ← newInt 16 x.serverNonce
  let retryId ← Long.new x.retryId
  let gB ← Raw.Bytes.new x.gB
  return leBytes 4 id ++ (nonce ++ (serverNonce ++ (retryId ++ gB)))

def read : Reader Exc ClientDHInnerData := do
  let nonce ← intReader 16
  let serverNonce ← intReader 16
  let retryId ← intReader 8
  let gB ← Raw.Bytes.reader
  return { nonce, serverNonce, retryId, gB }

end ClientDHInnerData

/-- `TLObject.read`, where an object of one class is wanted; no other class has its fields, so an
object of another one raises when they are read. -/
def readObject {α : Type} (id : ℕ) (fields : Reader Exc α) (bs : Bytes) : Except Exc α :=
  let (first, b) := (⟨bs, 0⟩ : ByteBuffer).read 4
  if ofLE first = id then (fields.run b).map Prod.fst
  else .error (.other "the object has no such attribute, or its id is not known")

/-! ### Surroundings -/

structure PublicKey where
  m : ℕ
  e : ℕ

/-- What the exchange calls: the hash, the cipher, `prime.decompose` and the table of RSA keys. -/
structure Env where
  sha1 : Bytes → Bytes
  ige256Encrypt : Bytes → Bytes → Bytes → Except Exc Bytes
  ige256Decrypt : Bytes → Bytes → Bytes → Except Exc Bytes
  decompose : ℕ → Except Exc ℕ
  serverPublicKeys : ℤ → Option PublicKey

/-- What `urandom` returns in one attempt. -/
structure Draws where
  nonce : Vector UInt8 16
  newNonce : Vector UInt8 32
  rsaPadding : (n : ℕ) → Vector UInt8 n
  b : Vector UInt8 256
  aesPadding : (n : ℕ) → Vector UInt8 n

/-- What the connection of an attempt answers; the last answer may depend on all that was sent. -/
structure Server where
  connect : Except Exc Unit
  reqPqMulti : ℤ → Except Exc ResPQ
  reqDHParams : ReqDHParams → Except Exc ServerDHParams
  setClientDHParams : ReqDHParams → SetClientDHParams → Except Exc DhGen

/-- `prime.CURRENT_DH_PRIME`. -/
def currentDhPrime : ℕ :=
  [ 0xC71CAEB9C6B1C9048E6C522F70F13F73980D40238E3E21C14934D037563D930F,
    0x48198A0AA7C14058229493D22530F4DBFA336F6E0AC925139543AED44CCE7C37,
    0x20FD51F69458705AC68CD4FE6B6B13ABDC9746512969328454F18FAF8C595F64,
    0x2477FE96BB2A941D5BCD1D4AC8CC49880708FA9B378E3C4F3A9060BEE67CF9A4,
    0xA4A695811051907E162753B56B0F6B410DBA74D8A84B2A14B3144E0EF1284754,
    0xFD17ED950D5965B4B9DD46582DB1178D169C6BC465B0D6FF9CA3928FEF5B9AE4,
    0xE418FC15E83EBEA0F87FA9FF5EED70050DED2849F47BF959D956850CE929851F,
    0x0D8115F635B105EE2E4E15D04B2454BF6F4FADF034B10403119CD8E3B92FCC5B ].foldl
    (fun n word => n * 2 ^ 256 + word) 0

variable (env : Env)

/-! ### Model -/

/-- `rsa.encrypt`, with the key of the fingerprint. -/
def rsaEncrypt (key : PublicKey) (data : Bytes) : Except Exc Bytes := do
  let power ← powMod (ofBE data) key.e key.m
  toBytesBE 256 power

/-- `tmp_aes_key` and `tmp_aes_iv`. -/
def tmpAes (newNonce serverNonce : Bytes) : Bytes × Bytes :=
  (env.sha1 (newNonce ++ serverNonce) ++ (env.sha1 (serverNonce ++ newNonce)).take 12,
    (env.sha1 (serverNonce ++ newNonce)).drop 12 ++ env.sha1 (newNonce ++ newNonce) ++
      newNonce.take 4)

/-- `sha + data + padding`, padded to a multiple of `size`. -/
def withHash (padding : (n : ℕ) → Vector UInt8 n) (size : ℕ) (data : Bytes) : Bytes :=
  let sha := env.sha1 data
  sha ++ data ++ (padding (-(data.length + sha.length : ℤ) % size).toNat).toList

/-- `1 < n < dh_prime - 1`. -/
def checkRange (name : String) (n : ℤ) (dhPrime : ℕ) : Except Exc Unit :=
  SecurityCheckMismatch.check (1 < n ∧ n < dhPrime - 1)
    ("1 < " ++ name ++ " < dh_prime - 1")

/-- `2 ** (2048 - 64) < n < dh_prime - 2 ** (2048 - 64)`. -/
def checkFar (name : String) (n : ℤ) (dhPrime : ℕ) : Except Exc Unit :=
  SecurityCheckMismatch.check (2 ^ (2048 - 64) < n ∧ n < dhPrime - 2 ^ (2048 - 64))
    ("2 ** (2048 - 64) < " ++ name ++ " < dh_prime - 2 ** (2048 - 64)")

/-- The fingerprint of the first key that is known, with the key. -/
def findKey (fingerprints : List ℤ) : Except Exc (ℤ × PublicKey) :=
  match fingerprints.findSome? fun i => (env.serverPublicKeys i).map (i, ·) with
  | some found => .ok found
  | none => .error (.other "Public key not found")

/-- `pq // g`. -/
def quotient (pq g : ℕ) : Except Exc ℕ :=
  if g = 0 then .error (.other "integer division or modulo by zero") else .ok (pq / g)

/-- Steps 1 to 5: what is sent in `req_DH_params`, and the server's nonce. -/
def requestDH (draws : Draws) (nonce : ℤ) (resPq : ResPQ) : Except Exc ReqDHParams := do
  let (fingerprint, key) ← findKey env resPq.serverPublicKeyFingerprints
  let pq := ofBE resPq.pq
  let g ← env.decompose pq
  let other ← quotient pq g
  let p ← toBytesBE 4 (min g other : ℕ)
  let q ← toBytesBE 4 (max g other : ℕ)
  let newNonce := ofSignedLE draws.newNonce.toList
  let data ← PQInnerData.write ⟨resPq.pq, p, q, nonce, resPq.serverNonce, newNonce⟩
  let encryptedData ← rsaEncrypt key (withHash env draws.rsaPadding 255 data)
  return ⟨nonce, resPq.serverNonce, p, q, fingerprint, encryptedData⟩

/-- Step 6: what is sent in `set_client_DH_params`. -/
def clientDH (draws : Draws) (request : ReqDHParams) (tmp : Bytes × Bytes) (g : ℤ) (dhPrime : ℕ) :
    Except Exc (Bytes × SetClientDHParams) := do
  let power ← powMod g (ofBE draws.b.toList) dhPrime
  let gB ← toBytesBE 256 power
  let data ← ClientDHInnerData.write ⟨request.nonce, request.serverNonce, 0, gB⟩
  let encryptedData ← env.ige256Encrypt (withHash env draws.aesPadding 16 data) tmp.1 tmp.2
  return (gB, ⟨request.nonce, request.serverNonce, encryptedData⟩)

/-- What the client has of the exchange when it comes to its checks. -/
structure Exchange where
  request : ReqDHParams
  resPq : ResPQ
  params : ServerDHParams
  answerWithHash : Bytes
  inner : ServerDHInnerData
  gB : Bytes
  dhGen : DhGen

/-- The checks, in their order. -/
def securityChecks (x : Exchange) : Except Exc Unit := do
  let dhPrime := ofBE x.inner.dhPrime
  SecurityCheckMismatch.check (dhPrime = currentDhPrime) "dh_prime == prime.CURRENT_DH_PRIME"
  checkRange "g" x.inner.g dhPrime
  checkRange "g_a" (ofBE x.inner.gA) dhPrime
  checkRange "g_b" (ofBE x.gB) dhPrime
  checkFar "g_a" (ofBE x.inner.gA) dhPrime
  checkFar "g_b" (ofBE x.gB) dhPrime
  let answer ← x.inner.write
  SecurityCheckMismatch.check (x.answerWithHash.take 20 = env.sha1 answer)
    "answer_with_hash[:20] == sha1(answer).digest()"
  SecurityCheckMismatch.check (x.request.nonce = x.resPq.nonce) "nonce == res_pq.nonce"
  SecurityCheckMismatch.check (x.request.nonce = x.params.nonce) "nonce == server_dh_params.nonce"
  SecurityCheckMismatch.check (x.request.serverNonce = x.params.serverNonce)
    "server_nonce == server_dh_params.server_nonce"
  SecurityCheckMismatch.check (x.request.nonce = x.dhGen.nonce)
    "nonce == set_client_dh_params_answer.nonce"
  SecurityCheckMismatch.check (x.request.serverNonce = x.dhGen.serverNonce)
    "server_nonce == set_client_dh_params_answer.server_nonce"

/-- One attempt: the body of the `try`, up to the key. -/
def attempt (draws : Draws) (server : Server) : Except Exc Bytes := do
  server.connect
  let nonce := ofSignedLE draws.nonce.toList
  let resPq ← server.reqPqMulti nonce
  let request ← requestDH env draws nonce resPq
  let params ← server.reqDHParams request
  let serverNonce ← newInt 16 resPq.serverNonce
  let newNonce ← newInt 32 (ofSignedLE draws.newNonce.toList)
  let tmp := tmpAes env newNonce serverNonce
  let answerWithHash ← env.ige256Decrypt params.encryptedAnswer tmp.1 tmp.2
  let inner ← readObject ServerDHInnerData.id ServerDHInnerData.read (answerWithHash.drop 20)
  let dhPrime := ofBE inner.dhPrime
  let (gB, sent) ← clientDH env draws request tmp inner.g dhPrime
  let dhGen ← server.setClientDHParams request sent
  let power ← powMod (ofBE inner.gA) (ofBE draws.b.toList) dhPrime
  let authKey ← toBytesBE 256 power
  securityChecks env ⟨request, resPq, params, answerWithHash, inner, gB, dhGen⟩
  return authKey

/-- `MAX_RETRIES`. -/
def maxRetries : ℕ := 5

/-- The loop of `create`, from an attempt on; a lost connection is not tried again. -/
def retry (draws : ℕ → Draws) (servers : ℕ → Server) (i : ℕ) : ℕ → Except Exc Bytes
  | 0 => attempt env (draws i) (servers i)
  | left + 1 => match attempt env (draws i) (servers i) with
    | .ok authKey => .ok authKey
    | .error (.connectionError text) => .error (.connectionError text)
    | .error _ => retry draws servers (i + 1) left

/-- `Auth.create`. -/
def create (draws : ℕ → Draws) (servers : ℕ → Server) : Except Exc Bytes :=
  retry env draws servers 0 maxRetries

/-! ### What a key that is made has been through -/

/-- The exchange took place: these are the answers to what was sent, what was sent last belongs to
the answer that was decrypted with the key of the two nonces, and `g_b` and the key are powers of
the numbers in it. -/
structure Made (draws : Draws) (server : Server) (x : Exchange) (authKey : Bytes) : Prop where
  resPq : server.reqPqMulti (ofSignedLE draws.nonce.toList) = .ok x.resPq
  request : requestDH env draws (ofSignedLE draws.nonce.toList) x.resPq = .ok x.request
  params : server.reqDHParams x.request = .ok x.params
  decrypted : ∃ serverNonce newNonce sent, newInt 16 x.resPq.serverNonce = .ok serverNonce ∧
    newInt 32 (ofSignedLE draws.newNonce.toList) = .ok newNonce ∧
    env.ige256Decrypt x.params.encryptedAnswer (tmpAes env newNonce serverNonce).1
      (tmpAes env newNonce serverNonce).2 = .ok x.answerWithHash ∧
    clientDH env draws x.request (tmpAes env newNonce serverNonce) x.inner.g
      (ofBE x.inner.dhPrime) = .ok (x.gB, sent) ∧
    server.setClientDHParams x.request sent = .ok x.dhGen
  inner : readObject ServerDHInnerData.id ServerDHInnerData.read (x.answerWithHash.drop 20) =
    .ok x.inner
  gB : (ofBE x.gB : ℤ) = x.inner.g ^ ofBE draws.b.toList % ofBE x.inner.dhPrime
  length_authKey : authKey.length = 256
  authKey : ofBE authKey = ofBE x.inner.gA ^ ofBE draws.b.toList % ofBE x.inner.dhPrime

/-- What the checks say of an exchange. -/
structure Checked (x : Exchange) : Prop where
  dhPrime : ofBE x.inner.dhPrime = currentDhPrime
  g : 1 < x.inner.g ∧ x.inner.g < currentDhPrime - 1
  gA : 2 ^ (2048 - 64) < (ofBE x.inner.gA : ℤ) ∧
    (ofBE x.inner.gA : ℤ) < currentDhPrime - 2 ^ (2048 - 64)
  gB : 2 ^ (2048 - 64) < (ofBE x.gB : ℤ) ∧ (ofBE x.gB : ℤ) < currentDhPrime - 2 ^ (2048 - 64)
  hash : ∃ answer, x.inner.write = .ok answer ∧
    x.answerWithHash.take 20 = env.sha1 answer
  nonce : x.resPq.nonce = x.request.nonce ∧ x.params.nonce = x.request.nonce ∧
    x.dhGen.nonce = x.request.nonce
  serverNonce : x.request.serverNonce = x.resPq.serverNonce ∧
    x.params.serverNonce = x.resPq.serverNonce ∧ x.dhGen.serverNonce = x.resPq.serverNonce

variable {env} {draws : Draws} {server : Server} {authKey : Bytes} {x : Exchange}

theorem requestDH_eq_ok {nonce : ℤ} {resPq : ResPQ} {request : ReqDHParams}
    (h : requestDH env draws nonce resPq = .ok request) :
    request.nonce = nonce ∧ request.serverNonce = resPq.serverNonce := by
  unfold requestDH at h
  obtain ⟨⟨fingerprint, key⟩, -, h⟩ := bind_eq_ok.mp h
  obtain ⟨g, -, h⟩ := bind_eq_ok.mp h
  obtain ⟨other, -, h⟩ := bind_eq_ok.mp h
  obtain ⟨p, -, h⟩ := bind_eq_ok.mp h
  obtain ⟨q, -, h⟩ := bind_eq_ok.mp h
  obtain ⟨data, -, h⟩ := bind_eq_ok.mp h
  obtain ⟨encrypted, -, h⟩ := bind_eq_ok.mp h
  obtain rfl := Except.ok.inj h
  exact ⟨rfl, rfl⟩

theorem clientDH_eq_ok {request : ReqDHParams} {tmp : Bytes × Bytes} {g : ℤ} {dhPrime : ℕ}
    {gB : Bytes} {sent : SetClientDHParams}
    (h : clientDH env draws request tmp g dhPrime = .ok (gB, sent)) :
    (ofBE gB : ℤ) = g ^ ofBE draws.b.toList % dhPrime := by
  unfold clientDH at h
  obtain ⟨power, hpower, h⟩ := bind_eq_ok.mp h
  obtain ⟨gB', hgB, h⟩ := bind_eq_ok.mp h
  obtain ⟨data, -, h⟩ := bind_eq_ok.mp h
  obtain ⟨encrypted, -, h⟩ := bind_eq_ok.mp h
  obtain ⟨rfl, -⟩ := Prod.mk.inj (Except.ok.inj h)
  rw [(ofBE_toBytesBE hgB).2, (powMod_eq_ok.mp hpower).2]

theorem checked_of_securityChecks (h : securityChecks env x = .ok ())
    (hserver : x.request.serverNonce = x.resPq.serverNonce) : Checked env x := by
  unfold securityChecks at h
  obtain ⟨_, h₁, h⟩ := bind_eq_ok.mp h
  obtain ⟨_, h₂, h⟩ := bind_eq_ok.mp h
  obtain ⟨_, -, h⟩ := bind_eq_ok.mp h
  obtain ⟨_, -, h⟩ := bind_eq_ok.mp h
  obtain ⟨_, h₃, h⟩ := bind_eq_ok.mp h
  obtain ⟨_, h₄, h⟩ := bind_eq_ok.mp h
  obtain ⟨answer, hanswer, h⟩ := bind_eq_ok.mp h
  obtain ⟨_, h₅, h⟩ := bind_eq_ok.mp h
  obtain ⟨_, h₆, h⟩ := bind_eq_ok.mp h
  obtain ⟨_, h₇, h⟩ := bind_eq_ok.mp h
  obtain ⟨_, h₈, h⟩ := bind_eq_ok.mp h
  obtain ⟨_, h₉, h⟩ := bind_eq_ok.mp h
  have hprime := SecurityCheckMismatch.check_eq_ok.mp h₁
  have hg := SecurityCheckMismatch.check_eq_ok.mp h₂
  have hgA := SecurityCheckMismatch.check_eq_ok.mp h₃
  have hgB := SecurityCheckMismatch.check_eq_ok.mp h₄
  rw [hprime] at hg hgA hgB
  refine ⟨hprime, hg, hgA, hgB, ⟨answer, hanswer, SecurityCheckMismatch.check_eq_ok.mp h₅⟩,
    ⟨(SecurityCheckMismatch.check_eq_ok.mp h₆).symm, (SecurityCheckMismatch.check_eq_ok.mp h₇).symm,
      (SecurityCheckMismatch.check_eq_ok.mp h₉).symm⟩,
    hserver, ?_, ?_⟩
  · exact (SecurityCheckMismatch.check_eq_ok.mp h₈).symm.trans hserver
  · exact (SecurityCheckMismatch.check_eq_ok.mp h).symm.trans hserver

/-- An attempt that returns a key has had an exchange that passes the checks. -/
theorem attempt_eq_ok (h : attempt env draws server = .ok authKey) :
    ∃ x, Made env draws server x authKey ∧ Checked env x := by
  unfold attempt at h
  obtain ⟨_, -, h⟩ := bind_eq_ok.mp h
  obtain ⟨resPq, hresPq, h⟩ := bind_eq_ok.mp h
  obtain ⟨request, hrequest, h⟩ := bind_eq_ok.mp h
  obtain ⟨params, hparams, h⟩ := bind_eq_ok.mp h
  obtain ⟨serverNonce, hserverNonce, h⟩ := bind_eq_ok.mp h
  obtain ⟨newNonce, hnewNonce, h⟩ := bind_eq_ok.mp h
  obtain ⟨answerWithHash, hdecrypted, h⟩ := bind_eq_ok.mp h
  obtain ⟨inner, hinner, h⟩ := bind_eq_ok.mp h
  obtain ⟨⟨gB, sent⟩, hclient, h⟩ := bind_eq_ok.mp h
  obtain ⟨dhGen, hdhGen, h⟩ := bind_eq_ok.mp h
  obtain ⟨power, hpower, h⟩ := bind_eq_ok.mp h
  obtain ⟨key, hkey, h⟩ := bind_eq_ok.mp h
  obtain ⟨_, hchecks, h⟩ := bind_eq_ok.mp h
  obtain rfl := Except.ok.inj h
  obtain ⟨hlength, hvalue⟩ := ofBE_toBytesBE hkey
  refine ⟨⟨request, resPq, params, answerWithHash, inner, gB, dhGen⟩,
    ⟨hresPq, hrequest, hparams, ⟨serverNonce, newNonce, sent, hserverNonce, hnewNonce, hdecrypted,
      hclient, hdhGen⟩, hinner, clientDH_eq_ok hclient, hlength, ?_⟩,
    checked_of_securityChecks hchecks (requestDH_eq_ok hrequest).2⟩
  rw [(powMod_eq_ok.mp hpower).2] at hvalue
  exact_mod_cast hvalue

/-- The attempt that returned the key, and the failures before it. -/
theorem retry_eq_ok {draws : ℕ → Draws} {servers : ℕ → Server} {i left : ℕ}
    (h : retry env draws servers i left = .ok authKey) :
    ∃ j, i ≤ j ∧ j ≤ i + left ∧ attempt env (draws j) (servers j) = .ok authKey ∧
      ∀ k, i ≤ k → k < j → ∃ e, attempt env (draws k) (servers k) = .error e ∧
        ∀ text, e ≠ .connectionError text := by
  induction left generalizing i with
  | zero => exact ⟨i, le_refl i, le_refl i, h, fun k hik hki => by omega⟩
  | succ left ih =>
    unfold retry at h
    split at h
    · rename_i key hkey
      obtain rfl := Except.ok.inj h
      exact ⟨i, le_refl i, by omega, hkey, fun k hik hki => by omega⟩
    · cases h
    · rename_i e hnot hfailed
      obtain ⟨j, hij, hj, hok, hbefore⟩ := ih h
      refine ⟨j, by omega, by omega, hok, fun k hik hkj => ?_⟩
      by_cases hki : k = i
      · subst hki
        exact ⟨e, hfailed, hnot⟩
      · exact hbefore k (by omega) hkj

/-- A key comes from the first of at most six attempts that does not fail, each with numbers of
its own and none of them failed by the connection; the exchange of that attempt, which returned the
key, has passed every check. -/
theorem create_sound {draws : ℕ → Draws} {servers : ℕ → Server}
    (h : create env draws servers = .ok authKey) :
    ∃ i ≤ maxRetries, (∀ j < i, ∃ e, attempt env (draws j) (servers j) = .error e ∧
        ∀ text, e ≠ .connectionError text) ∧
      attempt env (draws i) (servers i) = .ok authKey ∧
      ∃ x, Made env (draws i) (servers i) x authKey ∧ Checked env x := by
  obtain ⟨i, -, hi, hok, hbefore⟩ := retry_eq_ok h
  exact ⟨i, by omega, fun j hj => hbefore j (Nat.zero_le j) hj, hok, attempt_eq_ok hok⟩

end AllInOneBackup.Kurigram.Auth
