import AllInOneBackup.Kurigram.Raw.Core
import Mathlib.Data.Int.ModEq
import Mathlib.Tactic.Ring

/-! The password check. The client proves with a number that both sides can form, the server from
its verifier, that it knows the password. `sha256` and the derivation of a key are arbitrary
functions. -/

namespace AllInOneBackup.Kurigram

open Bytes Raising

/-! ### Numbers -/

/-- `i.to_bytes(w, "big")`. -/
def toBytesBE (w : ℕ) (i : ℤ) : Except Exc Bytes :=
  if i < 0 then .error (.overflowError "can't convert negative int to unsigned")
  else if i < 256 ^ w then .ok (beBytes w i.toNat)
  else .error (.overflowError "int too big to convert")

/-- `pow(base, exponent, p)`. -/
def powMod (base : ℤ) (exponent p : ℕ) : Except Exc ℤ :=
  if p = 0 then .error (.valueError "pow() 3rd argument cannot be 0")
  else .ok (base ^ exponent % p)

theorem ofBE_toBytesBE {w : ℕ} {i : ℤ} {bs : Bytes} (h : toBytesBE w i = .ok bs) :
    bs.length = w ∧ (ofBE bs : ℤ) = i := by
  unfold toBytesBE at h
  split_ifs at h with hneg hlt
  obtain rfl := Except.ok.inj h
  have hnat : i.toNat < 256 ^ w := by
    have hcast : ((i.toNat : ℕ) : ℤ) < ((256 ^ w : ℕ) : ℤ) := by
      rw [Int.toNat_of_nonneg (not_lt.mp hneg)]
      exact_mod_cast hlt
    exact_mod_cast hcast
  exact ⟨length_beBytes w _, by rw [ofBE_beBytes hnat, Int.toNat_of_nonneg (not_lt.mp hneg)]⟩

theorem powMod_eq_ok {base n : ℤ} {e p : ℕ} :
    powMod base e p = .ok n ↔ 0 < p ∧ n = base ^ e % p := by
  unfold powMod
  split_ifs with hp
  · exact iff_of_false (fun h => by cases h) fun h => h.1.ne' hp
  · exact ⟨fun h => ⟨Nat.pos_of_ne_zero hp, (Except.ok.inj h).symm⟩, fun h => by rw [h.2]⟩

namespace Srp

/-! ### Model -/

/-- `sha256` and `pbkdf2_hmac("sha512", password, salt, 100000)`. -/
structure Hashes where
  sha256 : Bytes → Bytes
  pbkdf2 : Bytes → Bytes → Bytes

structure Algo where
  salt1 : Bytes
  salt2 : Bytes
  g : ℤ
  p : Bytes

/-- The fields of `account.Password` that are read. -/
structure Password where
  currentAlgo : Algo
  srpB : Option Bytes
  srpId : ℤ

structure InputCheckPasswordSRP where
  srpId : ℤ
  a : Bytes
  m1 : Bytes

def btoi (b : Bytes) : ℕ := ofBE b

def itob (i : ℤ) : Except Exc Bytes := toBytesBE 256 i

/-- `zip(strict=True)` raises where the lengths differ. -/
def xor (a b : Bytes) : Except Exc Bytes :=
  if a.length = b.length then .ok (a.zipWith (· ^^^ ·) b)
  else .error (.valueError "zip() argument 2 is shorter or longer than argument 1")

variable (h : Hashes)

def computePasswordHash (algo : Algo) (password : Bytes) : Bytes :=
  let hash1 := h.sha256 (algo.salt1 ++ password ++ algo.salt1)
  let hash2 := h.sha256 (algo.salt2 ++ hash1 ++ algo.salt2)
  let hash3 := h.pbkdf2 hash2 algo.salt1
  h.sha256 (algo.salt2 ++ hash3 ++ algo.salt2)

/-- What `M1` is the hash of. -/
def proofInput (algo : Algo) (gBytes aBytes bBytes kBytes : Bytes) : Except Exc Bytes := do
  let mixed ← xor (h.sha256 algo.p) (h.sha256 gBytes)
  return mixed ++ h.sha256 algo.salt1 ++ h.sha256 algo.salt2 ++ aBytes ++ bBytes ++ kBytes

/-- `M1`, which proves that `K` is known. -/
def proof (algo : Algo) (gBytes aBytes bBytes kBytes : Bytes) : Except Exc Bytes := do
  let input ← proofInput h algo gBytes aBytes bBytes kBytes
  return h.sha256 input

/-- The loop that draws `a` until `u` is not zero: `a`, `A` as bytes and `u`. The draws stand in a
list, and `none` says that they are used up. -/
def drawA (g : ℤ) (p : ℕ) (bBytes : Bytes) :
    List (Vector UInt8 256) → Except Exc (Option (ℕ × Bytes × ℕ))
  | [] => .ok none
  | draw :: draws => do
    let a := btoi draw.toList
    let power ← powMod g a p
    let aBytes ← itob power
    let u := btoi (h.sha256 (aBytes ++ bBytes))
    if 0 < u then return some (a, aBytes, u) else drawA g p bBytes draws

/-- `compute_password_check`. -/
def computePasswordCheck (draws : List (Vector UInt8 256)) (r : Password) (password : Bytes) :
    Except Exc (Option InputCheckPasswordSRP) := do
  let algo := r.currentAlgo
  let p := btoi algo.p
  let gBytes ← itob algo.g
  let some bBytes := r.srpB
    | throw (.other "`compute_password_check()` requires a password already set on the account")
  let x := btoi (computePasswordHash h algo password)
  let gX ← powMod algo.g x p
  let k := btoi (h.sha256 (algo.p ++ gBytes))
  let kgX := k * gX % p
  let some (a, aBytes, u) ← drawA h algo.g p bBytes draws | return none
  let gB := (btoi bBytes - kgX) % p
  let s ← powMod gB (a + u * x) p
  let sBytes ← itob s
  let m1 ← proof h algo gBytes aBytes bBytes (h.sha256 sBytes)
  return some ⟨r.srpId, aBytes, m1⟩

/-! ### The other side -/

/-- What the server keeps of the password. -/
def verifier (algo : Algo) (password : Bytes) : ℤ :=
  algo.g ^ btoi (computePasswordHash h algo password) % (btoi algo.p : ℤ)

/-- `B`, for a number `b` that the server draws. -/
def challenge (algo : Algo) (v : ℤ) (b : ℕ) (gBytes : Bytes) : ℤ :=
  ((btoi (h.sha256 (algo.p ++ gBytes)) : ℤ) * v + algo.g ^ b) % (btoi algo.p : ℤ)

/-- The number that the server forms from `A`. -/
def serverSecret (algo : Algo) (v : ℤ) (b : ℕ) (aBytes bBytes : Bytes) : ℤ :=
  ((btoi aBytes : ℤ) * v ^ btoi (h.sha256 (aBytes ++ bBytes))) ^ b % (btoi algo.p : ℤ)

/-- The server accepts a check whose proof is the one it forms itself. -/
def Accepts (algo : Algo) (v : ℤ) (b : ℕ) (bBytes : Bytes) (check : InputCheckPasswordSRP) : Prop :=
  ∃ gBytes sBytes, itob algo.g = .ok gBytes ∧
    itob (serverSecret h algo v b check.a bBytes) = .ok sBytes ∧
    proof h algo gBytes check.a bBytes (h.sha256 sBytes) = .ok check.m1

/-- The number that the client forms from `B`. -/
def clientSecret (algo : Algo) (password : Bytes) (a u : ℕ) (gBytes bBytes : Bytes) : ℤ :=
  let p := btoi algo.p
  let x := btoi (computePasswordHash h algo password)
  let k := btoi (h.sha256 (algo.p ++ gBytes))
  ((btoi bBytes - k * (algo.g ^ x % p) % p) % p) ^ (a + u * x) % p

/-- Two strings that the two sides hash are different and have one hash: the numbers that they form,
or what the proofs are the hashes of. -/
def Collides (algo : Algo) (gBytes aBytes bBytes sBytes sBytes' : Bytes) : Prop :=
  (sBytes ≠ sBytes' ∧ h.sha256 sBytes = h.sha256 sBytes') ∨
    ∃ x y, proofInput h algo gBytes aBytes bBytes (h.sha256 sBytes) = .ok x ∧
      proofInput h algo gBytes aBytes bBytes (h.sha256 sBytes') = .ok y ∧
      x ≠ y ∧ h.sha256 x = h.sha256 y

/-- The client has formed the number of the server from its password and its `a`, or hashes of the
two sides collide. -/
def SameSecret (draws : List (Vector UInt8 256)) (algo : Algo) (password : Bytes) (v : ℤ) (b : ℕ)
    (gBytes bBytes aBytes : Bytes) : Prop :=
  ∃ a u sBytes sBytes', drawA h algo.g (btoi algo.p) bBytes draws = .ok (some (a, aBytes, u)) ∧
    itob (clientSecret h algo password a u gBytes bBytes) = .ok sBytes ∧
    itob (serverSecret h algo v b aBytes bBytes) = .ok sBytes' ∧
    (clientSecret h algo password a u gBytes bBytes = serverSecret h algo v b aBytes bBytes ∨
      Collides h algo gBytes aBytes bBytes sBytes sBytes')

/-! ### What a check consists of -/

variable {h} {algo : Algo} {r : Password} {draws : List (Vector UInt8 256)} {password : Bytes}
  {check : InputCheckPasswordSRP} {gBytes aBytes bBytes sBytes : Bytes} {a u b p : ℕ} {i j : ℤ}

theorem btoi_itob {bs : Bytes} (hi : itob i = .ok bs) : (btoi bs : ℤ) = i := (ofBE_toBytesBE hi).2

theorem itob_inj {bs : Bytes} (hi : itob i = .ok bs) (hj : itob j = .ok bs) : i = j :=
  (btoi_itob hi).symm.trans (btoi_itob hj)

theorem drawA_eq_ok {g : ℤ} (hdraw : drawA h g p bBytes draws = .ok (some (a, aBytes, u))) :
    itob (g ^ a % p) = .ok aBytes ∧ u = btoi (h.sha256 (aBytes ++ bBytes)) := by
  induction draws with
  | nil => cases hdraw
  | cons draw draws ih =>
    obtain ⟨power, hpower, hdraw⟩ := bind_eq_ok.mp hdraw
    obtain ⟨bytes, hbytes, hdraw⟩ := bind_eq_ok.mp hdraw
    dsimp only at hdraw
    split_ifs at hdraw with hu
    · obtain ⟨rfl, rfl, rfl⟩ : btoi draw.toList = a ∧ bytes = aBytes ∧
          btoi (h.sha256 (bytes ++ bBytes)) = u := by
        simpa [pure, Except.pure] using hdraw
      rw [(powMod_eq_ok.mp hpower).2] at hbytes
      exact ⟨hbytes, rfl⟩
    · exact ih hdraw

/-- A check has `A` for some `a`, and the proof of the number that the client forms. -/
theorem computePasswordCheck_eq_ok
    (hcheck : computePasswordCheck h draws r password = .ok (some check)) :
    ∃ a u gBytes bBytes sBytes, itob r.currentAlgo.g = .ok gBytes ∧ r.srpB = some bBytes ∧
      drawA h r.currentAlgo.g (btoi r.currentAlgo.p) bBytes draws = .ok (some (a, check.a, u)) ∧
      itob (clientSecret h r.currentAlgo password a u gBytes bBytes) = .ok sBytes ∧
      proof h r.currentAlgo gBytes check.a bBytes (h.sha256 sBytes) = .ok check.m1 ∧
      check.srpId = r.srpId := by
  unfold computePasswordCheck at hcheck
  obtain ⟨gBytes, hg, hcheck⟩ := bind_eq_ok.mp hcheck
  cases hB : r.srpB with
  | none => rw [hB] at hcheck; cases hcheck
  | some bBytes =>
    rw [hB] at hcheck
    obtain ⟨gX, hgX, hcheck⟩ := bind_eq_ok.mp hcheck
    obtain ⟨drawn, hdrawn, hcheck⟩ := bind_eq_ok.mp hcheck
    obtain ⟨-, rfl⟩ := powMod_eq_ok.mp hgX
    cases drawn with
    | none => cases hcheck
    | some drawn =>
      obtain ⟨a, aBytes, u⟩ := drawn
      obtain ⟨s, hs, hcheck⟩ := bind_eq_ok.mp hcheck
      obtain ⟨-, rfl⟩ := powMod_eq_ok.mp hs
      obtain ⟨sBytes, hsBytes, hcheck⟩ := bind_eq_ok.mp hcheck
      obtain ⟨m1, hm1, hcheck⟩ := bind_eq_ok.mp hcheck
      obtain rfl : (⟨r.srpId, aBytes, m1⟩ : InputCheckPasswordSRP) = check := by
        simpa [pure, Except.pure] using hcheck
      exact ⟨a, u, gBytes, bBytes, sBytes, hg, rfl, hdrawn, hsBytes, hm1, rfl⟩

/-- The other way round: these steps make a check. -/
theorem computePasswordCheck_of {gX s : ℤ} {m1 : Bytes} (hg : itob r.currentAlgo.g = .ok gBytes)
    (hr : r.srpB = some bBytes)
    (hgX : powMod r.currentAlgo.g (btoi (computePasswordHash h r.currentAlgo password))
      (btoi r.currentAlgo.p) = .ok gX)
    (hdraw : drawA h r.currentAlgo.g (btoi r.currentAlgo.p) bBytes draws = .ok (some (a, aBytes, u)))
    (hs : powMod ((btoi bBytes - btoi (h.sha256 (r.currentAlgo.p ++ gBytes)) * gX %
        btoi r.currentAlgo.p) % btoi r.currentAlgo.p)
      (a + u * btoi (computePasswordHash h r.currentAlgo password)) (btoi r.currentAlgo.p) = .ok s)
    (hbytes : itob s = .ok sBytes)
    (hm : proof h r.currentAlgo gBytes aBytes bBytes (h.sha256 sBytes) = .ok m1) :
    computePasswordCheck h draws r password = .ok (some ⟨r.srpId, aBytes, m1⟩) := by
  unfold computePasswordCheck
  refine bind_eq_ok.mpr ⟨gBytes, hg, ?_⟩
  rw [hr]
  exact bind_eq_ok.mpr ⟨gX, hgX, bind_eq_ok.mpr ⟨_, hdraw, bind_eq_ok.mpr ⟨s, hs,
    bind_eq_ok.mpr ⟨sBytes, hbytes, bind_eq_ok.mpr ⟨m1, hm, rfl⟩⟩⟩⟩⟩

/-! ### Agreement -/

/-- With the password of the verifier both sides form the same number. -/
theorem clientSecret_eq_serverSecret {v : ℤ} (hv : v = verifier h algo password)
    (hB : (btoi bBytes : ℤ) = challenge h algo v b gBytes)
    (hA : (btoi aBytes : ℤ) = algo.g ^ a % btoi algo.p) :
    clientSecret h algo password a (btoi (h.sha256 (aBytes ++ bBytes))) gBytes bBytes =
      serverSecret h algo v b aBytes bBytes := by
  subst hv
  unfold clientSecret serverSecret
  dsimp only
  rw [hB, hA]
  unfold challenge verifier
  generalize btoi (computePasswordHash h algo password) = x
  generalize btoi (h.sha256 (algo.p ++ gBytes)) = k
  generalize btoi (h.sha256 (aBytes ++ bBytes)) = u
  generalize (btoi algo.p : ℤ) = p
  generalize algo.g = g
  have hbase : ((k * (g ^ x % p) + g ^ b) % p - k * (g ^ x % p) % p) % p ≡ g ^ b [ZMOD p] := by
    have hsub := (Int.mod_modEq (k * (g ^ x % p) + g ^ b) p).sub
      (Int.mod_modEq (k * (g ^ x % p)) p)
    rw [add_sub_cancel_left] at hsub
    exact (Int.mod_modEq _ p).trans hsub
  have hverifier : g ^ a % p * (g ^ x % p) ^ u ≡ g ^ a * (g ^ x) ^ u [ZMOD p] :=
    (Int.mod_modEq _ p).mul ((Int.mod_modEq _ p).pow u)
  have hexponents : (g ^ b) ^ (a + u * x) = (g ^ a * (g ^ x) ^ u) ^ b := by ring
  exact ((hbase.pow _).trans (hexponents ▸ (hverifier.pow b).symm))

/-- Two proofs for one `A` and one `B` that agree prove the same number, or hashes collide. -/
theorem secret_eq_of_proof {s s' : ℤ} {m : Bytes} {sBytes' : Bytes} (hs : itob s = .ok sBytes)
    (hs' : itob s' = .ok sBytes')
    (hm : proof h algo gBytes aBytes bBytes (h.sha256 sBytes) = .ok m)
    (hm' : proof h algo gBytes aBytes bBytes (h.sha256 sBytes') = .ok m) :
    s = s' ∨ Collides h algo gBytes aBytes bBytes sBytes sBytes' := by
  obtain ⟨x, hx, hm⟩ := bind_eq_ok.mp hm
  obtain ⟨y, hy, hm'⟩ := bind_eq_ok.mp hm'
  have heq := (Except.ok.inj hm).trans (Except.ok.inj hm').symm
  by_cases hk : h.sha256 sBytes = h.sha256 sBytes'
  · by_cases hbytes : sBytes = sBytes'
    · subst hbytes
      exact .inl (itob_inj hs hs')
    · exact .inr (.inl ⟨hbytes, hk⟩)
  · refine .inr (.inr ⟨x, y, hx, hy, fun hxy => hk ?_, heq⟩)
    obtain ⟨mixed, hmixed, hx⟩ := bind_eq_ok.mp hx
    obtain ⟨mixed', hmixed', hy⟩ := bind_eq_ok.mp hy
    obtain rfl := Except.ok.inj (hmixed.symm.trans hmixed')
    exact List.append_cancel_left ((Except.ok.inj hx).trans (hxy.trans (Except.ok.inj hy).symm))

/-- A check with the password of the verifier is accepted, and a check that is accepted, with
whatever password, was made from the number of the server, unless hashes of the two sides
collide. -/
theorem check_accepted {v : ℤ} {password' : Bytes}
    (hB : itob (challenge h r.currentAlgo v b gBytes) = .ok bBytes)
    (hg : itob r.currentAlgo.g = .ok gBytes) (hr : r.srpB = some bBytes)
    (hv : v = verifier h r.currentAlgo password)
    (hcheck : computePasswordCheck h draws r password' = .ok (some check)) :
    (password' = password → Accepts h r.currentAlgo v b bBytes check) ∧
    (Accepts h r.currentAlgo v b bBytes check →
      SameSecret h draws r.currentAlgo password' v b gBytes bBytes check.a) := by
  obtain ⟨a, u, gBytes', bBytes', sBytes, hg', hr', hdraw, hs, hm, -⟩ :=
    computePasswordCheck_eq_ok hcheck
  obtain rfl := Except.ok.inj (hg.symm.trans hg')
  obtain rfl := Option.some.inj (hr.symm.trans hr')
  constructor
  · rintro rfl
    refine ⟨gBytes, sBytes, hg, ?_, hm⟩
    obtain ⟨ha, rfl⟩ := drawA_eq_ok hdraw
    rw [← clientSecret_eq_serverSecret hv (btoi_itob hB) (btoi_itob ha)]
    exact hs
  · rintro ⟨gBytes', sBytes', hg', hs', hm'⟩
    obtain rfl := Except.ok.inj (hg.symm.trans hg')
    exact ⟨a, u, sBytes, sBytes', hdraw, hs, hs', secret_eq_of_proof hs hs' hm hm'⟩

/-! ### An account -/

/-- A power depends on the exponent modulo the order of the base. -/
theorem pow_emod_order {g p : ℤ} {n : ℕ} (hg : g ^ n ≡ 1 [ZMOD p]) (x : ℕ) :
    g ^ x % p = g ^ (x % n) % p := by
  have hpower : g ^ x = (g ^ n) ^ (x / n) * g ^ (x % n) := by
    rw [← pow_mul, ← pow_add, Nat.div_add_mod]
  have hone := (hg.pow (x / n)).mul_right (g ^ (x % n))
  rw [one_pow, one_mul] at hone
  rw [hpower]
  exact hone

/-- The values of SHA-256 and of the derivation at what is hashed for the account below with the
password "pw"; of these strings no two have one length, except for those that the first byte or the
last one tells apart. -/
def sampleHashes : Hashes where
  sha256 bs := beBytes 32 <| match bs.length, bs.head?, bs.getLast? with
    | 1, some 23, _ => 0x8f11b05da785e43e713d03774c6bd3405d99cd3024af334ffd68db663aa37034
    | 1, some 1, _ => 0x4bf5122f344554c53bde2ebb8cd2b7e3d1600ad631c385a5d7cce23c7785459a
    | 1, some 2, _ => 0xdbc1b4c900ffe48d575b5da5c638040125f65db0fe3e24494b76ea986457d986
    | 4, _, _ => 0x0fd322fbb273f9d883bf4ce1c765232e7eac0e45685e619d60c1ae8a7bfd8214
    | 34, _, _ => 0xd42f272df6cd3798ad68f26cf786763fc7984bff673326876b547a006e392048
    | 66, _, _ => 0x3b5d5f0c9eb370ff3e31e6112859841dea7655e3a96fd2fef9d5640c692e91e4
    | 256, _, some 3 => 0x380109a77dcb3859161593ef51e717c1fe61698bb25973d9dd7fc7c7e19e9643
    | 256, _, some 6 => 0x18beef1ff6127211fefd2fb8ca128e483b4454b7abcdc03900e153010d93a2fe
    | 257, _, _ => 0xafe222e77ff3d68f437cdb6beb95aabada00af23f21312dc9d6314b341c067d1
    | 512, _, _ => 0x98f2a4b796214a7271ad71f4640dcb43b89ddda539306276d1b2d012a315f991
    | 640, _, _ => 0xe3fe3633fdd7bfa80514802148fe9b27f671117ebee81ba5120670cc25eb6e5e
    | _, _, _ => 0
  pbkdf2 _ _ := beBytes 64
    0x3dce3ec84f83b55b427baecfddfd15d1a8eab309af92b747f0a3ce8ee0224c9b0f8bb9d945c1433717351c85d74f5bf1117e1435afd49c2e28b7f6144a2a0139

/-- The account, with the challenge for the number 4. -/
def samplePassword : Password :=
  { currentAlgo := ⟨[1], [2], 3, [23]⟩, srpB := some (beBytes 256 20), srpId := 7 }

/-- The draw of 5. -/
def sampleDraws : List (Vector UInt8 256) := [(Vector.replicate 255 0).push 5]

theorem three_pow_emod (x : ℕ) : (3 : ℤ) ^ x % 23 = 3 ^ (x % 11) % 23 :=
  pow_emod_order (by decide) x

/-- `x` for the password. -/
theorem sample_hash : btoi (computePasswordHash sampleHashes samplePassword.currentAlgo [112, 119]) =
    0x3b5d5f0c9eb370ff3e31e6112859841dea7655e3a96fd2fef9d5640c692e91e4 := by decide +kernel

theorem sample_verifier :
    verifier sampleHashes samplePassword.currentAlgo [112, 119] = 13 := by
  rw [verifier, sample_hash]
  exact three_pow_emod _

set_option maxRecDepth 16000 in
theorem sample_check : computePasswordCheck sampleHashes sampleDraws samplePassword [112, 119] =
    .ok (some ⟨7, beBytes 256 13, beBytes 32
      0xe3fe3633fdd7bfa80514802148fe9b27f671117ebee81ba5120670cc25eb6e5e⟩) := by
  have hg : itob samplePassword.currentAlgo.g = .ok (beBytes 256 3) := by rfl
  have hdraw : drawA sampleHashes samplePassword.currentAlgo.g (btoi samplePassword.currentAlgo.p)
      (beBytes 256 20) sampleDraws = .ok (some (5, beBytes 256 13,
        0x98f2a4b796214a7271ad71f4640dcb43b89ddda539306276d1b2d012a315f991)) := by rfl
  have hbase : ((btoi (beBytes 256 20) : ℤ) - btoi (sampleHashes.sha256
      (samplePassword.currentAlgo.p ++ beBytes 256 3)) * 13 % btoi samplePassword.currentAlgo.p) %
        btoi samplePassword.currentAlgo.p = 12 := by decide +kernel
  have horder : (12 : ℤ) ^ 11 ≡ 1 [ZMOD 23] := by decide
  refine @computePasswordCheck_of sampleHashes samplePassword sampleDraws [112, 119] _ _ _
    (beBytes 256 6) _ _ 13 6 _ hg rfl ?_ hdraw ?_ rfl rfl
  · rw [sample_hash]
    refine powMod_eq_ok.mpr ⟨(by decide : 0 < 23), ?_⟩
    symm
    exact three_pow_emod _
  · rw [sample_hash, hbase]
    refine powMod_eq_ok.mpr ⟨(by decide : 0 < 23), ?_⟩
    symm
    exact pow_emod_order horder _

set_option maxRecDepth 16000 in
theorem check_accepted_sample : ∃ check,
    Accepts sampleHashes samplePassword.currentAlgo 13 4 (beBytes 256 20) check ∧
      SameSecret sampleHashes sampleDraws samplePassword.currentAlgo [112, 119] 13 4
        (beBytes 256 3) (beBytes 256 20) check.a := by
  have hB : itob (challenge sampleHashes samplePassword.currentAlgo 13 4 (beBytes 256 3)) =
      .ok (beBytes 256 20) := by rfl
  have h := check_accepted hB rfl rfl sample_verifier.symm sample_check
  exact ⟨_, h.1 rfl, h.2 (h.1 rfl)⟩

end Srp

end AllInOneBackup.Kurigram
