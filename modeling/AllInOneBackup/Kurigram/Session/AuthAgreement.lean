import AllInOneBackup.Data.Block
import AllInOneBackup.Data.Struct
import AllInOneBackup.Data.UndonePower
import AllInOneBackup.Kurigram.Session.Auth

/-! The exchange with a server that keeps to the protocol: the attempt returns a key, and the server
has the same one. -/

namespace AllInOneBackup.Kurigram.Auth

open AllInOneBackup.Bytes Raising Raw Struct

/-! ### The other side -/

/-- A server with the private exponent `d` of its RSA key and its own number `a`. -/
structure Honest where
  fingerprint : ℤ
  d : ℕ
  serverNonce : ℤ
  pq : Bytes
  g : ℤ
  a : ℕ
  serverTime : ℤ
  padding : (n : ℕ) → Vector UInt8 n

namespace Honest

variable (env : Env) (s : Honest)

def gA : Bytes := beBytes 256 (s.g ^ s.a % (currentDhPrime : ℤ)).toNat

def inner (nonce : ℤ) : ServerDHInnerData :=
  ⟨nonce, s.serverNonce, s.g, beBytes 256 currentDhPrime, s.gA, s.serverTime⟩

/-- The key and the vector of AES, from what the client encrypted with RSA. -/
def tmp (request : ReqDHParams) : Except Exc (Bytes × Bytes) := do
  let (_, key) ← findKey env [request.publicKeyFingerprint]
  let power ← powMod (ofBE request.encryptedData) s.d key.m
  let dataWithHash ← toBytesBE 255 power
  let inner ← readObject PQInnerData.id PQInnerData.read (dataWithHash.drop 20)
  let serverNonce ← newInt 16 s.serverNonce
  let newNonce ← newInt 32 inner.newNonce
  return tmpAes env newNonce serverNonce

/-- The key that the server has after `set_client_DH_params`. -/
def authKey (request : ReqDHParams) (sent : SetClientDHParams) : Except Exc Bytes := do
  let tmp ← s.tmp env request
  let dataWithHash ← env.ige256Decrypt sent.encryptedData tmp.1 tmp.2
  let inner ← readObject ClientDHInnerData.id ClientDHInnerData.read (dataWithHash.drop 20)
  let power ← powMod (ofBE inner.gB) s.a currentDhPrime
  toBytesBE 256 power

theorem inner_dhPrime (nonce : ℤ) : (s.inner nonce).dhPrime = beBytes 256 currentDhPrime := by
  rw [inner]

theorem inner_gA (nonce : ℤ) : (s.inner nonce).gA = s.gA := by
  rw [inner]

theorem length_inner (nonce : ℤ) : (s.inner nonce).dhPrime.length = 256 ∧
    (s.inner nonce).gA.length = 256 := by
  rw [inner_dhPrime, inner_gA, gA]
  exact ⟨length_beBytes _ _, length_beBytes _ _⟩

theorem inner_g (nonce : ℤ) : (s.inner nonce).g = s.g := by
  rw [inner]

def server : Server where
  connect := .ok ()
  reqPqMulti nonce := .ok ⟨nonce, s.serverNonce, s.pq, [s.fingerprint]⟩
  reqDHParams request := do
    let tmp ← s.tmp env request
    let answer ← (s.inner request.nonce).write
    let encryptedAnswer ← env.ige256Encrypt (withHash env s.padding 16 answer) tmp.1 tmp.2
    return ⟨request.nonce, s.serverNonce, encryptedAnswer⟩
  setClientDHParams request sent := do
    let _ ← s.authKey env request sent
    return ⟨.ok, request.nonce, s.serverNonce⟩

end Honest

/-- A number that `g_a` and `g_b` may be. -/
def Far (n : ℤ) : Prop := 2 ^ (2048 - 64) < n ∧ n < currentDhPrime - 2 ^ (2048 - 64)

/-- What is relied on: digests of SHA-1 have 20 bytes, AES-IGE and RSA are undone by their inverses,
`pq` is a product of two numbers of four bytes, the server's numbers fit into their fields, and the
numbers drawn are in the range that is checked. -/
structure Suitable (env : Env) (s : Honest) (draws : Draws) (key : PublicKey) : Prop where
  sha1 : ∀ bs, (env.sha1 bs).length = 20
  ige : ∀ data k iv, data.length % 16 = 0 → k.length = 32 → iv.length = 32 →
    ∃ c, env.ige256Encrypt data k iv = .ok c ∧ env.ige256Decrypt c k iv = .ok data
  publicKey : env.serverPublicKeys s.fingerprint = some key
  modulus : 256 ^ 255 ≤ key.m ∧ key.m ≤ 256 ^ 256
  rsa : ∀ n < key.m, (n ^ key.e % key.m) ^ s.d % key.m = n
  pq : s.pq.length ≤ 8
  factors : ∃ f, env.decompose (ofBE s.pq) = .ok f ∧ f ≠ 0 ∧ f < 256 ^ 4 ∧
    ofBE s.pq / f < 256 ^ 4
  serverNonce : Fits 16 s.serverNonce
  serverTime : Fits 4 s.serverTime
  g : 1 < s.g ∧ Fits 4 s.g
  gA : Far (s.g ^ s.a % currentDhPrime)
  gB : Far (s.g ^ ofBE draws.b.toList % currentDhPrime)

/-! ### Numbers -/

variable {env : Env} {s : Honest} {draws : Draws} {key : PublicKey}

theorem toBytesBE_natCast {w n : ℕ} (h : n < 256 ^ w) : toBytesBE w n = .ok (beBytes w n) := by
  have hlt : (n : ℤ) < 256 ^ w := by exact_mod_cast h
  rw [toBytesBE, if_neg (not_lt.mpr (Int.natCast_nonneg n)), if_pos hlt, Int.toNat_natCast]

theorem newInt_of_fits' {w : ℕ} {n : ℤ} (h : Fits w n) :
    ∃ bs, newInt w n = .ok bs ∧ bs.length = w := by
  obtain ⟨bs, hbs, hlength, -⟩ := exists_packSigned h
  exact ⟨bs, by rw [newInt, hbs], hlength⟩

/-- What is read from bytes fits into as many. -/
theorem fits_ofSignedLE (bs : Bytes) : Fits bs.length (ofSignedLE bs) := by
  have hpow : (0 : ℤ) < 256 ^ bs.length := by positivity
  have hlow := Int.le_bmod (x := (ofLE bs : ℤ)) (m := 256 ^ bs.length) (by positivity)
  have hhigh := Int.bmod_lt (x := (ofLE bs : ℤ)) (m := 256 ^ bs.length) (by positivity)
  have heven : ((256 ^ bs.length : ℕ) : ℤ) % 2 = 0 ∨ bs.length = 0 := by
    cases bs with
    | nil => exact .inr rfl
    | cons b bs =>
      left
      rw [List.length_cons, pow_succ]
      push_cast
      omega
  unfold Fits ofSignedLE
  push_cast at hlow hhigh heven ⊢
  rcases heven with heven | hzero
  · omega
  · rw [hzero] at hlow hhigh ⊢
    omega

/-! ### What is written is read -/

theorem readObject_append {α : Type} {id : ℕ} (hid : id < 256 ^ 4) {fields : Reader Exc α}
    {bs : Bytes} {x : α} (h : Reads fields bs x) (pad : Bytes) :
    readObject id fields (leBytes 4 id ++ bs ++ pad) = .ok x := by
  have hid' : (⟨leBytes 4 id ++ bs ++ pad, 0⟩ : ByteBuffer).read 4 =
      (leBytes 4 id, ⟨leBytes 4 id ++ bs ++ pad, 4⟩) := by
    have hread := ByteBuffer.read_append [] (leBytes 4 id) (bs ++ pad)
    rw [length_leBytes, List.nil_append, ← List.append_assoc] at hread
    exact hread
  have hfields := h (leBytes 4 id) pad
  rw [length_leBytes, ← List.append_assoc] at hfields
  rw [readObject, hid']
  simp only [ofLE_leBytes hid, if_true, hfields]
  rfl

/-- A byte string in few bytes, which are read. -/
theorem newBytes_short {value : Bytes} (h : value.length ≤ 253) :
    ∃ bs, Raw.Bytes.new value = .ok bs ∧ Reads Raw.Bytes.reader bs value ∧
      bs.length ≤ value.length + 4 := by
  obtain ⟨bs, hbs, hreads⟩ := @Raw.Bytes.new_reads value (by omega)
  refine ⟨bs, hbs, hreads, ?_⟩
  rw [Raw.Bytes.new, if_pos h] at hbs
  rw [← Except.ok.inj hbs]
  have hzeros := Raw.Bytes.length_zeros (value.length + 1)
  simp only [List.length_append, List.length_singleton]
  omega

theorem newInt_reads {w : ℕ} {n : ℤ} (h : Fits w n) :
    ∃ bs, newInt w n = .ok bs ∧ Reads (intReader w) bs n ∧ bs.length = w := by
  obtain ⟨bs, hbs, hlength⟩ := newInt_of_fits' h
  exact ⟨bs, hbs, Core.reads_intReader hbs, hlength⟩

theorem PQInnerData.read_write {x : PQInnerData} (hpq : x.pq.length ≤ 8) (hp : x.p.length = 4)
    (hq : x.q.length = 4) (hnonce : Fits 16 x.nonce) (hserver : Fits 16 x.serverNonce)
    (hnew : Fits 32 x.newNonce) :
    ∃ bs, x.write = .ok bs ∧ bs.length ≤ 235 ∧
      ∀ pad, readObject PQInnerData.id PQInnerData.read (bs ++ pad) = .ok x := by
  obtain ⟨pq, hpq', hreadPq, hlenPq⟩ := @newBytes_short x.pq (by omega)
  obtain ⟨p, hp', hreadP, hlenP⟩ := @newBytes_short x.p (by omega)
  obtain ⟨q, hq', hreadQ, hlenQ⟩ := @newBytes_short x.q (by omega)
  obtain ⟨nonce, hnonce', hreadNonce, hlenNonce⟩ := newInt_reads hnonce
  obtain ⟨server, hserver', hreadServer, hlenServer⟩ := newInt_reads hserver
  obtain ⟨new, hnew', hreadNew, hlenNew⟩ := newInt_reads hnew
  have hreads : Reads PQInnerData.read
      (pq ++ (p ++ (q ++ (nonce ++ (server ++ new))))) x :=
    hreadPq.bind (hreadP.bind (hreadQ.bind (hreadNonce.bind (hreadServer.bind
      (hreadNew.bind_pure rfl)))))
  refine ⟨_, bind_eq_ok.mpr ⟨pq, hpq', bind_eq_ok.mpr ⟨p, hp', bind_eq_ok.mpr ⟨q, hq',
    bind_eq_ok.mpr ⟨nonce, hnonce', bind_eq_ok.mpr ⟨server, hserver', bind_eq_ok.mpr ⟨new, hnew',
      rfl⟩⟩⟩⟩⟩⟩, ?_, fun pad => readObject_append (by decide) hreads pad⟩
  simp only [List.length_append, length_leBytes]
  omega

theorem ServerDHInnerData.read_write {x : ServerDHInnerData} (hnonce : Fits 16 x.nonce)
    (hserver : Fits 16 x.serverNonce) (hg : Fits 4 x.g) (hprime : x.dhPrime.length = 256)
    (hgA : x.gA.length = 256) (htime : Fits 4 x.serverTime) :
    ∃ bs, x.write = .ok bs ∧
      ∀ pad, readObject ServerDHInnerData.id ServerDHInnerData.read (bs ++ pad) = .ok x := by
  obtain ⟨nonce, hnonce', hreadNonce, -⟩ := newInt_reads hnonce
  obtain ⟨server, hserver', hreadServer, -⟩ := newInt_reads hserver
  obtain ⟨g, hg', hreadG, -⟩ := newInt_reads hg
  obtain ⟨prime, hprime', hreadPrime⟩ := @Raw.Bytes.new_reads x.dhPrime (by omega)
  obtain ⟨gA, hgA', hreadGA⟩ := @Raw.Bytes.new_reads x.gA (by omega)
  obtain ⟨time, htime', hreadTime, -⟩ := newInt_reads htime
  have hreads : Reads ServerDHInnerData.read
      (nonce ++ (server ++ (g ++ (prime ++ (gA ++ time))))) x :=
    hreadNonce.bind (hreadServer.bind (hreadG.bind (hreadPrime.bind (hreadGA.bind
      (hreadTime.bind_pure rfl)))))
  exact ⟨_, bind_eq_ok.mpr ⟨nonce, hnonce', bind_eq_ok.mpr ⟨server, hserver', bind_eq_ok.mpr ⟨g, hg',
    bind_eq_ok.mpr ⟨prime, hprime', bind_eq_ok.mpr ⟨gA, hgA', bind_eq_ok.mpr ⟨time, htime',
      rfl⟩⟩⟩⟩⟩⟩, fun pad => readObject_append (by decide) hreads pad⟩

theorem ClientDHInnerData.read_write {x : ClientDHInnerData} (hnonce : Fits 16 x.nonce)
    (hserver : Fits 16 x.serverNonce) (hretry : Fits 8 x.retryId) (hgB : x.gB.length = 256) :
    ∃ bs, x.write = .ok bs ∧
      ∀ pad, readObject ClientDHInnerData.id ClientDHInnerData.read (bs ++ pad) = .ok x := by
  obtain ⟨nonce, hnonce', hreadNonce, -⟩ := newInt_reads hnonce
  obtain ⟨server, hserver', hreadServer, -⟩ := newInt_reads hserver
  obtain ⟨retry, hretry', hreadRetry, -⟩ := newInt_reads hretry
  obtain ⟨gB, hgB', hreadGB⟩ := @Raw.Bytes.new_reads x.gB (by omega)
  have hreads : Reads ClientDHInnerData.read (nonce ++ (server ++ (retry ++ gB))) x :=
    hreadNonce.bind (hreadServer.bind (hreadRetry.bind (hreadGB.bind_pure rfl)))
  exact ⟨_, bind_eq_ok.mpr ⟨nonce, hnonce', bind_eq_ok.mpr ⟨server, hserver',
    bind_eq_ok.mpr ⟨retry, hretry', bind_eq_ok.mpr ⟨gB, hgB', rfl⟩⟩⟩⟩,
    fun pad => readObject_append (by decide) hreads pad⟩

/-! ### Padding -/

/-- The padded data begins with its hash, the data follows it, and the length is a multiple. -/
theorem withHash_spec (hsha : ∀ bs, (env.sha1 bs).length = 20) (padding : (n : ℕ) → Vector UInt8 n)
    {size : ℕ} (hsize : 0 < size) (data : Bytes) :
    (withHash env padding size data).take 20 = env.sha1 data ∧
      (∃ pad, (withHash env padding size data).drop 20 = data ++ pad) ∧
      (withHash env padding size data).length =
        data.length + 20 + (-(data.length + 20 : ℤ) % size).toNat ∧
      (withHash env padding size data).length % size = 0 := by
  have hlength := hsha data
  obtain ⟨n, hn, heq⟩ : ∃ n, n = (-(data.length + 20 : ℤ) % size).toNat ∧
      withHash env padding size data = env.sha1 data ++ (data ++ (padding n).toList) := by
    refine ⟨(-((data.length : ℤ) + (env.sha1 data).length) % size).toNat, ?_, ?_⟩
    · rw [hlength]
      rfl
    · rw [withHash, List.append_assoc]
  have hnonneg : 0 ≤ -(data.length + 20 : ℤ) % size :=
    Int.emod_nonneg _ (by exact_mod_cast hsize.ne')
  have hcast : (n : ℤ) = -(data.length + 20 : ℤ) % size := by
    rw [hn, Int.toNat_of_nonneg hnonneg]
  have htotal : (withHash env padding size data).length = data.length + 20 + n := by
    rw [heq]
    simp only [List.length_append, Vector.length_toList, hlength]
    omega
  refine ⟨?_, ⟨(padding n).toList, ?_⟩, ?_, ?_⟩
  · rw [heq, ← hlength, List.take_left]
  · rw [heq, ← hlength, List.drop_left]
  · rw [htotal, hn]
  · have hmod : ((data.length + 20 + n : ℕ) : ℤ) % size = 0 := by
      have hsum := Int.emod_add_mul_ediv (-(data.length + 20 : ℤ)) size
      have hmul : ((data.length + 20 + n : ℕ) : ℤ) =
          size * -(-(data.length + 20 : ℤ) / size) := by
        rw [mul_neg]
        push_cast
        omega
      rw [hmul]
      exact Int.mul_emod_right _ _
    rw [htotal]
    exact_mod_cast hmod

/-! ### Agreement -/

theorem currentDhPrime_bounds : 256 ^ 4 < currentDhPrime - 1 ∧ currentDhPrime < 256 ^ 256 := by
  decide +kernel

theorem lt_currentDhPrime : 256 ^ 4 < currentDhPrime - 1 := currentDhPrime_bounds.1

theorem currentDhPrime_lt : currentDhPrime < 256 ^ 256 := currentDhPrime_bounds.2

theorem currentDhPrime_pos : 0 < currentDhPrime :=
  (Nat.zero_lt_of_lt lt_currentDhPrime).trans_le (Nat.sub_le _ _)

theorem ofBE_currentDhPrime : ofBE (beBytes 256 currentDhPrime) = currentDhPrime :=
  ofBE_beBytes (w := 256) currentDhPrime_lt

theorem Far.range {n : ℤ} (hn : Far n) : 1 < n ∧ n < currentDhPrime - 1 := by
  have hpow : (1 : ℤ) < 2 ^ (2048 - 64) := one_lt_pow₀ one_lt_two (by decide)
  unfold Far at hn
  omega

/-- A power below the prime, in 256 bytes. -/
theorem power_bytes (g : ℤ) (e : ℕ) :
    ∃ bs, powMod g e currentDhPrime = .ok (g ^ e % currentDhPrime) ∧
      toBytesBE 256 (g ^ e % currentDhPrime) = .ok bs ∧ bs.length = 256 ∧
      (ofBE bs : ℤ) = g ^ e % currentDhPrime := by
  have hpos : (0 : ℤ) < currentDhPrime := by exact_mod_cast currentDhPrime_pos
  have hnonneg : 0 ≤ g ^ e % (currentDhPrime : ℤ) := Int.emod_nonneg _ hpos.ne'
  have hlt : (g ^ e % (currentDhPrime : ℤ)).toNat < 256 ^ 256 := by
    have hmod : g ^ e % (currentDhPrime : ℤ) < currentDhPrime := Int.emod_lt_of_pos _ hpos
    have hprime := currentDhPrime_lt
    omega
  have hbytes := toBytesBE_natCast hlt
  rw [Int.toNat_of_nonneg hnonneg] at hbytes
  obtain ⟨hlength, hvalue⟩ := ofBE_toBytesBE hbytes
  exact ⟨_, powMod_eq_ok.mpr ⟨currentDhPrime_pos, rfl⟩, hbytes, hlength, hvalue⟩

/-- What the key encrypts is found again with the private exponent. -/
theorem rsaEncrypt_spec {d : ℕ} {data : Bytes} (hlength : data.length = 255)
    (hm : 256 ^ 255 ≤ key.m ∧ key.m ≤ 256 ^ 256)
    (hrsa : ∀ n < key.m, (n ^ key.e % key.m) ^ d % key.m = n) :
    ∃ c power, rsaEncrypt key data = .ok c ∧ powMod (ofBE c) d key.m = .ok power ∧
      toBytesBE 255 power = .ok data := by
  have hpos : 0 < key.m := lt_of_lt_of_le (by positivity) hm.1
  have hdata : ofBE data < 256 ^ 255 := by
    have hlt := ofLE_lt data.reverse
    rw [List.length_reverse, hlength] at hlt
    exact hlt
  have hpower : powMod (ofBE data) key.e key.m = .ok ((ofBE data ^ key.e % key.m : ℕ) : ℤ) :=
    powMod_eq_ok.mpr ⟨hpos, by push_cast; rfl⟩
  have hbound : ofBE data ^ key.e % key.m < 256 ^ 256 := (Nat.mod_lt _ hpos).trans_le hm.2
  have hback : powMod (ofBE (beBytes 256 (ofBE data ^ key.e % key.m))) d key.m =
      .ok ((ofBE data : ℕ) : ℤ) := by
    refine powMod_eq_ok.mpr ⟨hpos, ?_⟩
    rw [ofBE_beBytes hbound]
    exact_mod_cast (hrsa (ofBE data) (hdata.trans_le hm.1)).symm
  have hsame := beBytes_ofBE data
  rw [hlength] at hsame
  refine ⟨_, _, bind_eq_ok.mpr ⟨_, hpower, toBytesBE_natCast hbound⟩, hback, ?_⟩
  rw [toBytesBE_natCast hdata, hsame]

theorem length_tmpAes (hsha : ∀ bs, (env.sha1 bs).length = 20) {newNonce : Bytes}
    (hnew : newNonce.length = 32) (serverNonce : Bytes) :
    (tmpAes env newNonce serverNonce).1.length = 32 ∧
      (tmpAes env newNonce serverNonce).2.length = 32 := by
  simp only [tmpAes, List.length_append, List.length_take, List.length_drop, hsha, hnew]
  omega

variable (h : Suitable env s draws key)

include h

theorem ofBE_gA : (ofBE s.gA : ℤ) = s.g ^ s.a % currentDhPrime := by
  obtain ⟨bs, -, hbytes, -, hvalue⟩ := power_bytes s.g s.a
  have hnonneg : 0 ≤ s.g ^ s.a % (currentDhPrime : ℤ) := by
    have hfar := h.gA.1
    have hpow : (0 : ℤ) ≤ 2 ^ (2048 - 64) := by positivity
    omega
  unfold toBytesBE at hbytes
  rw [if_neg (not_lt.mpr hnonneg)] at hbytes
  split_ifs at hbytes with hlt
  rw [Honest.gA, Except.ok.inj hbytes]
  exact hvalue

/-- What the client sends in `req_DH_params`, and that the server finds the key of AES in it. -/
theorem requestDH_suitable : ∃ request newNonce serverNonce,
    requestDH env draws (ofSignedLE draws.nonce.toList)
        ⟨ofSignedLE draws.nonce.toList, s.serverNonce, s.pq, [s.fingerprint]⟩ = .ok request ∧
      request.nonce = ofSignedLE draws.nonce.toList ∧ request.serverNonce = s.serverNonce ∧
      newInt 16 s.serverNonce = .ok serverNonce ∧
      newInt 32 (ofSignedLE draws.newNonce.toList) = .ok newNonce ∧
      s.tmp env request = .ok (tmpAes env newNonce serverNonce) ∧
      newNonce.length = 32 := by
  obtain ⟨serverNonce, hserver, -⟩ := newInt_of_fits' h.serverNonce
  have hfits := fits_ofSignedLE draws.newNonce.toList
  rw [Vector.length_toList] at hfits
  obtain ⟨newNonce, hnew, hnewLength⟩ := newInt_of_fits' hfits
  obtain ⟨f, hf, hne, hlt, hquotient⟩ := h.factors
  have hp := toBytesBE_natCast (w := 4) (n := min f (ofBE s.pq / f)) (by omega)
  have hq := toBytesBE_natCast (w := 4) (n := max f (ofBE s.pq / f)) (by omega)
  have hnonceFits := fits_ofSignedLE draws.nonce.toList
  rw [Vector.length_toList] at hnonceFits
  obtain ⟨data, hdata, hsize, hread⟩ := PQInnerData.read_write
    (x := ⟨s.pq, beBytes 4 (min f (ofBE s.pq / f)), beBytes 4 (max f (ofBE s.pq / f)),
      ofSignedLE draws.nonce.toList, s.serverNonce, ofSignedLE draws.newNonce.toList⟩)
    h.pq (length_beBytes 4 _) (length_beBytes 4 _) hnonceFits h.serverNonce hfits
  obtain ⟨-, ⟨pad, hdrop⟩, hlength, -⟩ :=
    withHash_spec h.sha1 draws.rsaPadding (by decide : 0 < 255) data
  have htotal : (withHash env draws.rsaPadding 255 data).length = 255 := by
    rw [hlength]
    omega
  obtain ⟨c, power, hencrypted, hpower, hback⟩ := rsaEncrypt_spec htotal h.modulus h.rsa
  have hfound : findKey env [s.fingerprint] = .ok (s.fingerprint, key) := by
    rw [findKey, List.findSome?_cons, h.publicKey]
    rfl
  refine ⟨⟨_, _, _, _, _, c⟩, newNonce, serverNonce, bind_eq_ok.mpr ⟨_, hfound,
    bind_eq_ok.mpr ⟨_, hf, bind_eq_ok.mpr ⟨_, if_neg hne, bind_eq_ok.mpr ⟨_, hp,
      bind_eq_ok.mpr ⟨_, hq, bind_eq_ok.mpr ⟨_, hdata, bind_eq_ok.mpr ⟨c, hencrypted, rfl⟩⟩⟩⟩⟩⟩⟩,
    rfl, rfl, hserver, hnew, ?_, hnewLength⟩
  have hinner := hread pad
  rw [← hdrop] at hinner
  exact bind_eq_ok.mpr ⟨_, hfound, bind_eq_ok.mpr ⟨_, hpower, bind_eq_ok.mpr ⟨_, hback,
    bind_eq_ok.mpr ⟨_, hinner, bind_eq_ok.mpr ⟨_, hserver, bind_eq_ok.mpr ⟨_, hnew, rfl⟩⟩⟩⟩⟩⟩

/-- What the client sends in `set_client_DH_params`, and that the server finds `g_b` in it. -/
theorem clientDH_suitable {request : ReqDHParams} {tmp : Bytes × Bytes}
    (hnonce : request.nonce = ofSignedLE draws.nonce.toList)
    (hserver : request.serverNonce = s.serverNonce)
    (htmp : tmp.1.length = 32 ∧ tmp.2.length = 32) :
    ∃ gB sent dataWithHash inner, clientDH env draws request tmp s.g currentDhPrime =
        .ok (gB, sent) ∧
      (ofBE gB : ℤ) = s.g ^ ofBE draws.b.toList % currentDhPrime ∧
      env.ige256Decrypt sent.encryptedData tmp.1 tmp.2 = .ok dataWithHash ∧
      readObject ClientDHInnerData.id ClientDHInnerData.read (dataWithHash.drop 20) = .ok inner ∧
      inner.gB = gB := by
  obtain ⟨gB, hpower, hbytes, hlength, hvalue⟩ := power_bytes s.g (ofBE draws.b.toList)
  have hnonceFits := fits_ofSignedLE draws.nonce.toList
  rw [Vector.length_toList] at hnonceFits
  obtain ⟨data, hdata, hread⟩ := ClientDHInnerData.read_write
    (x := ⟨ofSignedLE draws.nonce.toList, s.serverNonce, 0, gB⟩) hnonceFits h.serverNonce
    (by constructor <;> norm_num) hlength
  obtain ⟨-, ⟨pad, hdrop⟩, -, hmod⟩ :=
    withHash_spec h.sha1 draws.aesPadding (by decide : 0 < 16) data
  obtain ⟨c, hencrypt, hdecrypt⟩ := h.ige _ _ _ hmod htmp.1 htmp.2
  have hinner := hread pad
  rw [← hdrop] at hinner
  rw [← hnonce, ← hserver] at hdata
  exact ⟨gB, ⟨request.nonce, request.serverNonce, c⟩, _, _, bind_eq_ok.mpr ⟨_, hpower,
    bind_eq_ok.mpr ⟨_, hbytes, bind_eq_ok.mpr ⟨_, hdata, bind_eq_ok.mpr ⟨_, hencrypt, rfl⟩⟩⟩⟩,
    hvalue, hdecrypt, hinner, rfl⟩

theorem securityChecks_suitable {x : Exchange} {answer : Bytes}
    (hinner : x.inner = s.inner (ofSignedLE draws.nonce.toList))
    (hanswer : x.inner.write = .ok answer)
    (hhash : x.answerWithHash.take 20 = env.sha1 answer)
    (hgB : (ofBE x.gB : ℤ) = s.g ^ ofBE draws.b.toList % currentDhPrime)
    (hnonce : x.request.nonce = x.resPq.nonce ∧ x.request.nonce = x.params.nonce ∧
      x.request.nonce = x.dhGen.nonce)
    (hserver : x.request.serverNonce = x.params.serverNonce ∧
      x.request.serverNonce = x.dhGen.serverNonce) :
    securityChecks env x = .ok () := by
  have hprime : ofBE x.inner.dhPrime = currentDhPrime := by
    rw [hinner, Honest.inner_dhPrime, ofBE_currentDhPrime]
  have hgA : Far (ofBE x.inner.gA) := by
    rw [hinner, Honest.inner_gA, ofBE_gA h]
    exact h.gA
  have hb : Far (ofBE x.gB) := by
    rw [hgB]
    exact h.gB
  have hg : 1 < x.inner.g ∧ x.inner.g < currentDhPrime - 1 := by
    rw [hinner, Honest.inner_g]
    have hfits := h.g.2.2
    have hlt := lt_currentDhPrime
    exact ⟨h.g.1, by omega⟩
  unfold securityChecks
  dsimp only
  rw [hprime]
  have ok : ∀ {p : Prop} [Decidable p] {text : String}, p →
      SecurityCheckMismatch.check p text = .ok () := fun hp =>
    SecurityCheckMismatch.check_eq_ok.mpr hp
  exact bind_eq_ok.mpr ⟨(), ok rfl, bind_eq_ok.mpr ⟨(), ok hg, bind_eq_ok.mpr ⟨(), ok hgA.range,
    bind_eq_ok.mpr ⟨(), ok hb.range, bind_eq_ok.mpr ⟨(), ok hgA, bind_eq_ok.mpr ⟨(), ok hb,
      bind_eq_ok.mpr ⟨_, hanswer, bind_eq_ok.mpr ⟨(), ok hhash, bind_eq_ok.mpr ⟨(), ok hnonce.1,
        bind_eq_ok.mpr ⟨(), ok hnonce.2.1, bind_eq_ok.mpr ⟨(), ok hserver.1,
          bind_eq_ok.mpr ⟨(), ok hnonce.2.2, ok hserver.2⟩⟩⟩⟩⟩⟩⟩⟩⟩⟩⟩⟩

/-- The client's key and the server's are the power of `g` by both numbers. -/
theorem attempt_suitable : ∃ request newNonce serverNonce gB sent authKey,
    requestDH env draws (ofSignedLE draws.nonce.toList)
        ⟨ofSignedLE draws.nonce.toList, s.serverNonce, s.pq, [s.fingerprint]⟩ = .ok request ∧
      newInt 16 s.serverNonce = .ok serverNonce ∧
      newInt 32 (ofSignedLE draws.newNonce.toList) = .ok newNonce ∧
      clientDH env draws request (tmpAes env newNonce serverNonce) s.g currentDhPrime =
        .ok (gB, sent) ∧
      attempt env draws (s.server env) = .ok authKey ∧
      s.authKey env request sent = .ok authKey ∧
      (ofBE authKey : ℤ) = s.g ^ (s.a * ofBE draws.b.toList) % currentDhPrime := by
  obtain ⟨request, newNonce, serverNonce, hrequest, hnonce, hserver, hserverNonce, hnewNonce, htmp,
    hlength⟩ := requestDH_suitable h
  have haes := length_tmpAes h.sha1 hlength serverNonce
  obtain ⟨gB, sent, dataWithHash, clientInner, hclient, hgB, hdecrypted, hread, hinner⟩ :=
    clientDH_suitable h hnonce hserver haes
  have hnonceFits := fits_ofSignedLE draws.nonce.toList
  rw [Vector.length_toList] at hnonceFits
  obtain ⟨answer, hanswer, hreadServer⟩ := ServerDHInnerData.read_write
    (x := s.inner (ofSignedLE draws.nonce.toList)) hnonceFits h.serverNonce h.g.2
    (s.length_inner _).1 (s.length_inner _).2 h.serverTime
  obtain ⟨hhash, ⟨pad, hdrop⟩, -, hmod⟩ :=
    withHash_spec h.sha1 s.padding (by decide : 0 < 16) answer
  obtain ⟨c, hencrypt, hdecrypt⟩ := h.ige _ _ _ hmod haes.1 haes.2
  obtain ⟨authKey, hpower, hbytes, -, hvalue⟩ :=
    power_bytes s.g (s.a * ofBE draws.b.toList)
  -- both sides raise the other's number to their own
  have hclientPower : powMod (ofBE s.gA) (ofBE draws.b.toList) currentDhPrime =
      .ok (s.g ^ (s.a * ofBE draws.b.toList) % currentDhPrime) := by
    rw [powMod_eq_ok, ofBE_gA h, pow_mul]
    exact ⟨currentDhPrime_pos, ((Int.mod_modEq _ _).pow _).symm⟩
  have hserverPower : powMod (ofBE gB) s.a currentDhPrime =
      .ok (s.g ^ (s.a * ofBE draws.b.toList) % currentDhPrime) := by
    rw [powMod_eq_ok, hgB, mul_comm, pow_mul]
    exact ⟨currentDhPrime_pos, ((Int.mod_modEq _ _).pow _).symm⟩
  have hserverKey : s.authKey env request sent = .ok authKey := by
    refine bind_eq_ok.mpr ⟨_, htmp, bind_eq_ok.mpr ⟨_, hdecrypted, bind_eq_ok.mpr ⟨_, hread, ?_⟩⟩⟩
    rw [hinner]
    exact bind_eq_ok.mpr ⟨_, hserverPower, hbytes⟩
  have hparams : (s.server env).reqDHParams request =
      .ok ⟨request.nonce, s.serverNonce, c⟩ := by
    rw [← hnonce] at hanswer
    exact bind_eq_ok.mpr ⟨_, htmp, bind_eq_ok.mpr ⟨_, hanswer, bind_eq_ok.mpr ⟨_, hencrypt, rfl⟩⟩⟩
  have hdhGen : (s.server env).setClientDHParams request sent =
      .ok ⟨.ok, request.nonce, s.serverNonce⟩ := bind_eq_ok.mpr ⟨_, hserverKey, rfl⟩
  have hchecks := securityChecks_suitable h
    (x := ⟨request, ⟨ofSignedLE draws.nonce.toList, s.serverNonce, s.pq, [s.fingerprint]⟩,
      ⟨request.nonce, s.serverNonce, c⟩, withHash env s.padding 16 answer,
      s.inner (ofSignedLE draws.nonce.toList), gB, ⟨.ok, request.nonce, s.serverNonce⟩⟩)
    rfl hanswer hhash hgB ⟨hnonce, rfl, rfl⟩ ⟨hserver, hserver⟩
  have hinnerRead := hreadServer pad
  rw [← hdrop] at hinnerRead
  refine ⟨request, newNonce, serverNonce, gB, sent, authKey, hrequest, hserverNonce, hnewNonce,
    hclient, ?_, hserverKey, hvalue⟩
  refine bind_eq_ok.mpr ⟨(), rfl, bind_eq_ok.mpr ⟨_, rfl, bind_eq_ok.mpr ⟨_, hrequest,
    bind_eq_ok.mpr ⟨_, hparams, bind_eq_ok.mpr ⟨_, hserverNonce, bind_eq_ok.mpr ⟨_, hnewNonce,
      bind_eq_ok.mpr ⟨_, hdecrypt, bind_eq_ok.mpr ⟨_, hinnerRead, ?_⟩⟩⟩⟩⟩⟩⟩⟩
  rw [Honest.inner_dhPrime, Honest.inner_g, Honest.inner_gA, ofBE_currentDhPrime]
  exact bind_eq_ok.mpr ⟨_, hclient, bind_eq_ok.mpr ⟨_, hdhGen, bind_eq_ok.mpr ⟨_, hclientPower,
    bind_eq_ok.mpr ⟨_, hbytes, bind_eq_ok.mpr ⟨(), hchecks, rfl⟩⟩⟩⟩⟩

omit h

/-! ### The loop -/

theorem retry_of_first {draws : ℕ → Draws} {servers : ℕ → Server} {authKey : Bytes}
    {i k left : ℕ} (hi : i ≤ k) (hk : k ≤ i + left)
    (hbefore : ∀ j, i ≤ j → j < k → ∃ e, attempt env (draws j) (servers j) = .error e ∧
      ∀ text, e ≠ .connectionError text)
    (hok : attempt env (draws k) (servers k) = .ok authKey) :
    retry env draws servers i left = .ok authKey := by
  induction left generalizing i with
  | zero =>
    obtain rfl : i = k := by omega
    exact hok
  | succ left ih =>
    by_cases hik : i = k
    · subst hik
      rw [retry, hok]
    · obtain ⟨e, he, hnot⟩ := hbefore i (le_refl i) (by omega)
      have hrest : retry env draws servers (i + 1) left = .ok authKey :=
        ih (by omega) (by omega) fun j hj hjk => hbefore j (by omega) hjk
      rw [retry, he]
      cases e with
      | connectionError text => exact absurd rfl (hnot text)
      | _ => exact hrest

def sampleDraws : Draws where
  nonce := .replicate 16 1
  newNonce := .replicate 32 2
  rsaPadding n := .replicate n 0
  b := ((Vector.replicate 254 0).push 7).push 208
  aesPadding n := .replicate n 0

/-- A key of RSA of four prime factors. -/
def samplePublicKey : PublicKey where
  m := (2 ^ 31 - 1) * (2 ^ 127 - 1) * (2 ^ 607 - 1) * (2 ^ 1279 - 1)
  e := 65537

def sampleHonest : Honest where
  fingerprint := 7
  d := (1 + 1618 * ((2 ^ 31 - 2) * (2 ^ 127 - 2) * (2 ^ 607 - 2) * (2 ^ 1279 - 2))) / 65537
  serverNonce := 5
  pq := beBytes 8 0x17ED48941A08F981
  g := 2
  a := 2001
  serverTime := 0
  padding n := .replicate n 0

/-- SHA-1 at what is hashed in the exchange: what goes into RSA, the nonces, and the answers of both
sides. -/
def sampleSha1 (bs : Bytes) : Bytes :=
  beBytes 20 <| match bs.length, bs.head? with
    | 96, _ => 0x5d379e9484939e372242e43d7ad589fabf3afd7b
    | 48, some 2 => 0x85cafc304c1ea5d581949e47619efb8c28202605
    | 48, some 5 => 0x09c474b9884b31558bdd9cb5518ab7e103ea6ac9
    | 64, _ => 0xcf0b42666ef5e37edea0ab8e173e42c196d03814
    | 564, _ => 0x3a0150710be7ac9725666a356fbdccb1a67d41e9
    | 304, _ => 0x3f664a0b1799145caa6206c057af72386764022c
    | _, _ => 0

/-- The padded answer of the server, and what AES-IGE makes of it. -/
def sampleAnswer : Bytes :=
  beBytes 20 0x3a0150710be7ac9725666a356fbdccb1a67d41e9 ++ leBytes 4 ServerDHInnerData.id ++
    List.replicate 16 1 ++ leBytes 16 5 ++ leBytes 4 2 ++ [254, 0, 1, 0] ++
    beBytes 256 currentDhPrime ++ [254, 0, 1, 0] ++ beBytes 256 (2 ^ 2001) ++ leBytes 4 0 ++
    List.replicate 8 0

def sampleAnswerCipher : Bytes :=
  [ 0xe1df6876a5e8fc3a981594312cd6b065, 0x217e691d1ce753ee4824d9e539c99da7,
    0xa2a58d4d40fd4c250e2a460fb4fdfb66, 0x956d3ec545dc44f828751fe5508d843d,
    0x13af1d3021408b3dc087330eadb19bce, 0xb8c0cd02e2fc8476192efe6342ea7d9f,
    0x81b3984b21c52903cc9563a327de40f6, 0xdf1833a5de2f976a43c7a287e6afa4e6,
    0x2ca081a8159e65bdb60b8c19410354df, 0x7c13140bd25044c9d5e6e48ee3702ff3,
    0xa43e011c4c9b141bf17bbaa4a092ef5c, 0xb49d2be07f74d5e34df713895d8a33f0,
    0xbdc59f467faa2a900d6ae8b34619628e, 0xb64051901a466ce75118fee230620491,
    0x8f97555013772bb4e611bf77924aed43, 0x23a581d7f4cc07b59eb6e2bd1c6aa340,
    0x653e0cf1bca5049cf09483b5d014c699, 0x8a8f85fce53535ba94566bf2efbc9077,
    0xaf983fcf6c4295d95208e43d06c8aeb1, 0x97eeae8ea4ae05ad1d9daeac1c8eb258,
    0xf2d48048b0d67a527a556122e429464d, 0x3c4e707cbc2a5a1026ce8c4512999d33,
    0xcc67e2f1182a1802ba3c732c1f159c4a, 0x06c0932fa28eea9f1f685fbecae16fd0,
    0xb8f00ec8e76b80284fc5c5719148ba56, 0xa27fb8df1e163ea9ee62110147ec81a5,
    0xc7b533e04fc37e2a935e017bae7df6e8, 0xcdf81cb508fc38333e56ae90181c6b76,
    0xe219d61a30ea3bbacf5f7980c65f003d, 0x005326bb5285f4b62d7939bf78500368,
    0x47ea6979a60e9af16fc26b4212c2ba9e, 0x15e9c6de29af33b170f2a1d593777e03,
    0xe2d1943f3e30917dcf7e0bb2c9afe127, 0xa5b5dd5192ed14724a19e3cf04fb40bb,
    0xc4164b4c821d83e6ea8acf8393d36190, 0x4c52682df311166f9e4a60c9c4082543,
    0x32671a666c18af1e291e147ec3462b64 ].flatMap (beBytes 16)

/-- The padded data of the client, and what AES-IGE makes of it. -/
def sampleData : Bytes :=
  beBytes 20 0x3f664a0b1799145caa6206c057af72386764022c ++ leBytes 4 ClientDHInnerData.id ++
    List.replicate 16 1 ++ leBytes 16 5 ++ leBytes 8 0 ++ [254, 0, 1, 0] ++
    beBytes 256 (2 ^ 2000) ++ List.replicate 12 0

def sampleDataCipher : Bytes :=
  [ 0x2fada73556c2e442da6e8bf2e805ad8a, 0x0f611a53edc7a6c5bd889d3389e90e4d,
    0xf742eceb2c8a80fc5dc52113b79de8c4, 0x355b7f4cb59203726f33014ac2810217,
    0xb16952f422dbaaaa4f1170dfe92d819b, 0x8a584ee3e77018106e5d47557e6efcb5,
    0x88b9f3976b7378c85e27a8925040a1c7, 0x8edfd190d9293296fe42004001544841,
    0x96d67cb6cdb2d507b12da135da10a06f, 0x52b95a586a6b17088ee3e3341535b32b,
    0x223bde37b7aafe8122487941fadc0148, 0xd0cb78a66beaf2f745cac402edddec89,
    0x55d37c760cf1fb814b45d75dfdc5d47d, 0xcd3f997946a6154f0bc7e2908f8df71c,
    0x25d5a6396a1b92b0c02e534eb4834803, 0xe8fee50bee43c62f83d4f98eecf70c8a,
    0xd9390e1592d32d5408d4a935b731bfb8, 0x69372c52d8f98e8d2958abdbeb5789fd,
    0x2d1135c664113f57d2022becbac3286f, 0x8e3ebc324a273accfaccdf11f66c164e,
    0x6eff7c0f19853af5a6aa346f95677229 ].flatMap (beBytes 16)

/-- The values of SHA-1 and of AES-IGE at the data of the exchange, and a factor of `pq`. -/
def sampleEnv : Env where
  sha1 := sampleSha1
  ige256Encrypt data _ _ := .ok (Equiv.swap sampleAnswer sampleAnswerCipher
    (Equiv.swap sampleData sampleDataCipher data))
  ige256Decrypt data _ _ := .ok (Equiv.swap sampleData sampleDataCipher
    (Equiv.swap sampleAnswer sampleAnswerCipher data))
  decompose _ := .ok 0x494C553B
  serverPublicKeys fingerprint := if fingerprint = 7 then some samplePublicKey else none

theorem sample_undone : Data.Undone samplePublicKey.e sampleHonest.d samplePublicKey.m := by
  have h31 : Data.Undone samplePublicKey.e sampleHonest.d (2 ^ 31 - 1) :=
    Data.Undone.of_mersenne (by norm_num) (by norm_num) (by decide +kernel) (by decide +kernel)
  have h127 : Data.Undone samplePublicKey.e sampleHonest.d (2 ^ 127 - 1) :=
    Data.Undone.of_mersenne (by norm_num) (by norm_num) (by decide +kernel) (by decide +kernel)
  have h607 : Data.Undone samplePublicKey.e sampleHonest.d (2 ^ 607 - 1) :=
    Data.Undone.of_mersenne (by norm_num) (by norm_num) (by decide +kernel) (by decide +kernel)
  have h1279 : Data.Undone samplePublicKey.e sampleHonest.d (2 ^ 1279 - 1) :=
    Data.Undone.of_mersenne (by norm_num) (by norm_num) (by decide +kernel) (by decide +kernel)
  exact ((h31.mul h127 (by decide +kernel)).mul h607 (by decide +kernel)).mul h1279
    (by decide +kernel)

theorem sample_suitable : Suitable sampleEnv sampleHonest sampleDraws samplePublicKey where
  sha1 _ := length_beBytes 20 _
  ige data _ _ _ _ _ := by
    refine ⟨_, rfl, ?_⟩
    show Except.ok _ = _
    rw [Equiv.swap_apply_self, Equiv.swap_apply_self]
  publicKey := rfl
  modulus := by decide +kernel
  rsa n hn := by
    rw [← Nat.pow_mod]
    exact sample_undone.emod_eq hn
  pq := by decide
  factors := ⟨0x494C553B, rfl, by decide, by decide, by decide⟩
  serverNonce := by constructor <;> decide
  serverTime := by constructor <;> decide
  g := ⟨by decide, by constructor <;> decide⟩
  gA := by
    unfold Far
    decide +kernel
  gB := by
    unfold Far
    decide +kernel

/-- The client's data goes through the table. -/
example : (clientDH sampleEnv sampleDraws ⟨ofSignedLE sampleDraws.nonce.toList, 5, [], [], 7, []⟩
    ([], []) 2 currentDhPrime).map (·.2.encryptedData) = .ok sampleDataCipher := by decide +kernel

theorem create_sound_sample : ∃ authKey,
    create sampleEnv (fun _ => sampleDraws) (fun _ => sampleHonest.server sampleEnv) =
        .ok authKey ∧
      ∃ i ≤ maxRetries, (∀ j < i, ∃ e,
          attempt sampleEnv sampleDraws (sampleHonest.server sampleEnv) = .error e ∧
            ∀ text, e ≠ .connectionError text) ∧
        attempt sampleEnv sampleDraws (sampleHonest.server sampleEnv) = .ok authKey ∧
        ∃ x, Made sampleEnv sampleDraws (sampleHonest.server sampleEnv) x authKey ∧
          Checked sampleEnv x := by
  obtain ⟨_, _, _, _, _, authKey, -, -, -, -, hattempt, -⟩ := attempt_suitable sample_suitable
  have hcreate : create sampleEnv (fun _ => sampleDraws)
      (fun _ => sampleHonest.server sampleEnv) = .ok authKey :=
    retry_of_first (le_refl 0) (by decide) (fun j _ hj => absurd hj (Nat.not_lt_zero j)) hattempt
  exact ⟨authKey, hcreate, create_sound hcreate⟩

end AllInOneBackup.Kurigram.Auth
