import AllInOneBackup.P115.Cipher.Cbc
import Mathlib.Data.Nat.Bitwise
import Mathlib.Logic.Function.Iterate

/-! The S-box is generated: the inverse of a byte is searched for, and its rotations are added up.
That the inverse is the only one follows from the products being additive. -/

namespace AllInOneBackup.Cloud123.Pan115

/-! ### Generation -/

/-- The next `a` of `gmul`. -/
def shifted (a : ℕ) : ℕ :=
  let high := a &&& 0x80
  let a := (a <<< 1) &&& 0xFF
  if high ≠ 0 then a ^^^ 0x1B else a

/-- The loop of `gmul` inside of `_build_sbox`, with the rounds that are left. -/
def buildGmul : ℕ → ℕ → ℕ → ℕ → ℕ
  | 0, _, _, product => product
  | n + 1, a, b, product =>
    buildGmul n (shifted a) (b >>> 1) (if b &&& 1 ≠ 0 then product ^^^ a else product)

/-- `inverse[value]`. -/
def inverse (value : ℕ) : ℕ :=
  ((List.range' 1 255).find? fun candidate => buildGmul 8 value candidate 0 = 1).getD 0

/-- The loop over the rotations of `x`. -/
def affine : ℕ → ℕ → ℕ → ℕ
  | 0, _, transformed => transformed
  | n + 1, x, transformed =>
    let x := ((x <<< 1) ||| (x >>> 7)) &&& 0xFF
    affine n x (transformed ^^^ x)

/-- An entry of the S-box, of the inverse of its index. -/
def entry (x : ℕ) : ℕ := affine 4 x x ^^^ 0x63

def SBOX : List ℕ := (List.range 256).map fun value => entry (inverse value)

def SBOX_INV : List ℕ :=
  SBOX.zipIdx.foldl (fun table entry => table.set entry.1 entry.2) (List.replicate 256 0)

/-! ### The affine map -/

/-- A rotation to the left in a byte. -/
def rotated (i x : ℕ) : ℕ := ((x <<< i) ||| (x >>> (8 - i))) &&& 0xFF

/-- The affine map has an inverse. -/
theorem rotated_entry : ((List.range 256).all fun x => Nat.blt (entry x) 256 &&
    Nat.beq (rotated 1 (entry x) ^^^ rotated 3 (entry x) ^^^ rotated 6 (entry x) ^^^ 5) x) =
      true := by
  decide +kernel

theorem entry_lt {x : ℕ} (hx : x < 256) : entry x < 256 := by
  have hcheck := List.all_eq_true.mp rotated_entry x (List.mem_range.mpr hx)
  rw [Bool.and_eq_true, Nat.blt_eq] at hcheck
  exact hcheck.1

theorem entry_inj {x y : ℕ} (hx : x < 256) (hy : y < 256) (h : entry x = entry y) : x = y := by
  have hback : ∀ x < 256,
      rotated 1 (entry x) ^^^ rotated 3 (entry x) ^^^ rotated 6 (entry x) ^^^ 5 = x := by
    intro x hx
    have hcheck := List.all_eq_true.mp rotated_entry x (List.mem_range.mpr hx)
    rw [Bool.and_eq_true, Nat.beq_eq] at hcheck
    exact hcheck.2
  rw [← hback x hx, h, hback y hy]

/-! ### Products are additive -/

/-- A product of `buildGmul`. -/
abbrev mul (a b : ℕ) : ℕ := buildGmul 8 a b 0

theorem xor_xor_xor_comm (p q a b : ℕ) : (p ^^^ q) ^^^ (a ^^^ b) = (p ^^^ a) ^^^ (q ^^^ b) := by
  rw [Nat.xor_assoc, ← Nat.xor_assoc q, Nat.xor_comm q a, Nat.xor_assoc a, ← Nat.xor_assoc]

theorem buildGmul_zero (n a product : ℕ) : buildGmul n a 0 product = product := by
  induction n generalizing a with
  | zero => rfl
  | succ n ih => rw [buildGmul, Nat.zero_shiftRight, if_neg (by simp), ih]

theorem buildGmul_xor (n a b c p q : ℕ) :
    buildGmul n a (b ^^^ c) (p ^^^ q) = buildGmul n a b p ^^^ buildGmul n a c q := by
  induction n generalizing a b c p q with
  | zero => rfl
  | succ n ih =>
    have hadd : ∀ b product : ℕ, (if b &&& 1 ≠ 0 then product ^^^ a else product) =
        product ^^^ (if b &&& 1 ≠ 0 then a else 0) := by
      intro b product
      split_ifs
      · rfl
      · exact (Nat.xor_zero product).symm
    have hbit : (if (b ^^^ c) &&& 1 ≠ 0 then a else 0) =
        (if b &&& 1 ≠ 0 then a else 0) ^^^ (if c &&& 1 ≠ 0 then a else 0) := by
      rw [Nat.and_xor_distrib_right]
      rcases Nat.mod_two_eq_zero_or_one b with hb | hb <;>
        rcases Nat.mod_two_eq_zero_or_one c with hc | hc <;>
        simp [Nat.and_one_is_mod, hb, hc]
    rw [buildGmul, buildGmul, buildGmul, Nat.shiftRight_xor_distrib, hadd, hadd b, hadd c, hbit,
      xor_xor_xor_comm, ih]

theorem mul_xor (a b c : ℕ) : mul a (b ^^^ c) = mul a b ^^^ mul a c :=
  buildGmul_xor 8 a b c 0 0

theorem buildGmul_two_pow {n i : ℕ} (hi : i < n) (a : ℕ) :
    buildGmul n a (2 ^ i) 0 = shifted^[i] a := by
  induction n generalizing i a with
  | zero => exact absurd hi i.not_lt_zero
  | succ n ih =>
    cases i with
    | zero =>
      rw [buildGmul]
      simp [buildGmul_zero]
    | succ i =>
      have hhalf : 2 ^ (i + 1) >>> 1 = 2 ^ i := by
        rw [Nat.shiftRight_one, pow_succ, Nat.mul_div_cancel _ (by decide)]
      rw [buildGmul, hhalf, if_neg (by simp [Nat.and_one_is_mod, pow_succ]),
        ih (Nat.lt_of_succ_lt_succ hi), Function.iterate_succ_apply]

theorem mul_two_pow {i : ℕ} (hi : i < 8) (a : ℕ) : mul a (2 ^ i) = shifted^[i] a :=
  buildGmul_two_pow hi a

theorem shifted_lt (a : ℕ) : shifted a < 256 := by
  have hlow : (a <<< 1) &&& 0xFF < 2 ^ 8 := Nat.and_lt_two_pow _ (by decide)
  simp only [shifted]
  split_ifs
  · exact Nat.xor_lt_two_pow hlow (by decide)
  · exact hlow

theorem shifted_eq (a : ℕ) :
    shifted a = ((a <<< 1) &&& 0xFF) ^^^ (if a &&& 0x80 ≠ 0 then 0x1B else 0) := by
  simp only [shifted]
  split_ifs
  · rfl
  · exact (Nat.xor_zero _).symm

theorem shifted_xor (a b : ℕ) : shifted (a ^^^ b) = shifted a ^^^ shifted b := by
  have hbit : ∀ c, c &&& 0x80 = 0 ∨ c &&& 0x80 = 0x80 := by
    intro c
    rw [show 0x80 = 2 ^ 7 from rfl, Nat.and_two_pow]
    cases c.testBit 7 with
    | false => exact .inl rfl
    | true => exact .inr rfl
  have hhigh : (if (a ^^^ b) &&& 0x80 ≠ 0 then 0x1B else 0) =
      (if a &&& 0x80 ≠ 0 then 0x1B else 0) ^^^ (if b &&& 0x80 ≠ 0 then 0x1B else 0) := by
    rw [Nat.and_xor_distrib_right]
    rcases hbit a with ha | ha <;> rcases hbit b with hb | hb <;> simp [ha, hb]
  rw [shifted_eq, shifted_eq, shifted_eq, hhigh, Nat.shiftLeft_xor_distrib,
    Nat.and_xor_distrib_right, xor_xor_xor_comm]

/-- Additive functions that agree on the single bits agree. -/
theorem eq_of_eq_two_pow (f g : ℕ → ℕ) (n : ℕ) (hf : ∀ b c, f (b ^^^ c) = f b ^^^ f c)
    (hg : ∀ b c, g (b ^^^ c) = g b ^^^ g c) (h : ∀ i < n, f (2 ^ i) = g (2 ^ i)) :
    ∀ b < 2 ^ n, f b = g b := by
  induction n with
  | zero =>
    intro b hb
    have hzero : b = 0 ^^^ 0 := by
      rw [Nat.xor_self]
      omega
    rw [hzero, hf, hg, Nat.xor_self, Nat.xor_self]
  | succ n ih =>
    have hlow := ih fun i hi => h i (hi.trans n.lt_succ_self)
    intro b hb
    by_cases hsmall : b < 2 ^ n
    · exact hlow b hsmall
    · have hbit : b.testBit n = true :=
        Nat.testBit_of_two_pow_le_and_two_pow_add_one_gt (not_lt.mp hsmall) hb
      have hrest : b ^^^ 2 ^ n < 2 ^ n := by
        apply Nat.lt_pow_two_of_testBit
        intro i hi
        rw [Nat.testBit_xor, Nat.testBit_two_pow]
        rcases Nat.eq_or_lt_of_le hi with rfl | hlt
        · simp [hbit]
        · rw [Nat.testBit_lt_two_pow (hb.trans_le (Nat.pow_le_pow_right (by decide) hlt)),
            decide_eq_false (by omega), Bool.xor_false]
      have hsplit : b = 2 ^ n ^^^ (b ^^^ 2 ^ n) := by
        rw [Nat.xor_comm b, ← Nat.xor_assoc, Nat.xor_self, Nat.zero_xor]
      rw [hsplit, hf, hg, h n n.lt_succ_self, hlow _ hrest]

theorem iterate_shifted_xor (i a b : ℕ) :
    shifted^[i] (a ^^^ b) = shifted^[i] a ^^^ shifted^[i] b := by
  induction i generalizing a b with
  | zero => rfl
  | succ i ih => rw [Function.iterate_succ_apply, shifted_xor, ih]; rfl

/-- Eight shifts are the product with the reduction polynomial. -/
theorem mul_poly {a : ℕ} (ha : a < 256) : mul a 0x1B = shifted^[8] a := by
  have hleft : ∀ a, mul a 0x1B = (a ^^^ shifted a) ^^^ (shifted^[3] a ^^^ shifted^[4] a) := by
    intro a
    simp [mul, buildGmul, Nat.xor_assoc]
  have hadd : ∀ b c, mul (b ^^^ c) 0x1B = mul b 0x1B ^^^ mul c 0x1B := by
    intro b c
    rw [hleft, hleft, hleft, shifted_xor, iterate_shifted_xor, iterate_shifted_xor,
      xor_xor_xor_comm b, xor_xor_xor_comm (shifted^[3] b), xor_xor_xor_comm (b ^^^ shifted b)]
  have hbits : ∀ i < 8, mul (2 ^ i) 0x1B = shifted^[8] (2 ^ i) := by decide
  exact eq_of_eq_two_pow (mul · 0x1B) shifted^[8] 8 hadd (iterate_shifted_xor 8) hbits a ha

theorem mul_shifted {a b : ℕ} (ha : a < 256) (hb : b < 256) :
    mul a (shifted b) = shifted (mul a b) := by
  have hadd : ∀ b c, mul a (shifted (b ^^^ c)) = mul a (shifted b) ^^^ mul a (shifted c) := by
    intro b c
    rw [shifted_xor, mul_xor]
  have hadd' : ∀ b c, shifted (mul a (b ^^^ c)) = shifted (mul a b) ^^^ shifted (mul a c) := by
    intro b c
    rw [mul_xor, shifted_xor]
  have hbits : ∀ i < 8, mul a (shifted (2 ^ i)) = shifted (mul a (2 ^ i)) := by
    intro i hi
    rw [mul_two_pow hi, ← Function.iterate_succ_apply' shifted]
    by_cases hlast : i = 7
    · subst hlast
      exact mul_poly ha
    · have hdouble : shifted (2 ^ i) = 2 ^ (i + 1) := by
        have hsmall : i < 7 := by omega
        revert hsmall
        clear hi hlast
        revert i
        decide
      rw [hdouble, mul_two_pow (by omega)]
  exact eq_of_eq_two_pow (fun b => mul a (shifted b)) (fun b => shifted (mul a b)) 8 hadd hadd'
    hbits b hb

theorem mul_iterate {a b : ℕ} (ha : a < 256) (hb : b < 256) (i : ℕ) :
    mul a (shifted^[i] b) = shifted^[i] (mul a b) := by
  induction i with
  | zero => rfl
  | succ i ih =>
    rw [Function.iterate_succ_apply', Function.iterate_succ_apply', ← ih]
    apply mul_shifted ha
    cases i with
    | zero => exact hb
    | succ i =>
      rw [Function.iterate_succ_apply']
      exact shifted_lt _

/-- A factor with an inverse is undone by it. -/
theorem mul_mul_cancel {u v : ℕ} (hu : u < 256) (hv : v < 256) (h : mul u v = 1) :
    ∀ c < 256, mul u (mul v c) = c := by
  have hadd : ∀ b c, mul u (mul v (b ^^^ c)) = mul u (mul v b) ^^^ mul u (mul v c) := by
    intro b c
    rw [mul_xor, mul_xor]
  have hbits : ∀ i < 8, mul u (mul v (2 ^ i)) = 2 ^ i := by
    intro i hi
    rw [mul_two_pow hi, mul_iterate hu hv, h]
    revert i
    decide
  exact eq_of_eq_two_pow (fun c => mul u (mul v c)) id 8 hadd (fun b c => rfl) hbits

theorem mul_one (a : ℕ) : mul a 1 = a := by
  simp [mul, buildGmul]

/-- An inverse is the only one, so it is the one that the search finds. -/
theorem inverse_eq {u v : ℕ} (hu : 0 < u ∧ u < 256) (hv : v < 256) (h : mul u v = 1)
    (h' : mul v u = 1) : inverse v = u := by
  have hfind : (List.range' 1 255).find? (fun candidate => buildGmul 8 v candidate 0 = 1) =
      some u := by
    rw [List.find?_range'_eq_some]
    refine ⟨decide_eq_true h', List.mem_range'_1.mpr (by omega), ?_⟩
    intro j hj hlt
    have hne : mul v j ≠ 1 := by
      intro hone
      have hback := mul_mul_cancel hu.2 hv h j (by omega)
      rw [hone, mul_one] at hback
      omega
    simpa using hne
  rw [inverse, hfind, Option.getD_some]

theorem zero_mul (b : ℕ) : mul 0 b = 0 := by
  have hzero : ∀ n b, buildGmul n 0 b 0 = 0 := by
    intro n
    induction n with
    | zero => exact fun b => rfl
    | succ n ih =>
      intro b
      rw [buildGmul, ite_eq_right_iff.mpr fun _ => Nat.xor_zero 0]
      exact ih _
  exact hzero 8 b

theorem inverse_zero : inverse 0 = 0 := by
  have hfind : (List.range' 1 255).find? (fun candidate => buildGmul 8 0 candidate 0 = 1) =
      none := by
    rw [List.find?_eq_none]
    intro candidate _
    simp [show buildGmul 8 0 candidate 0 = 0 from zero_mul candidate]
  rw [inverse, hfind, Option.getD_none]

/-! ### Inverses -/

/-- `inverse` as a table. -/
def inverses : List ℕ :=
  [0, 1, 141, 246, 203, 82, 123, 209, 232, 79, 41, 192, 176, 225, 229, 199, 116, 180, 170, 75,
   153, 43, 96, 95, 88, 63, 253, 204, 255, 64, 238, 178, 58, 110, 90, 241, 85, 77, 168, 201, 193,
   10, 152, 21, 48, 68, 162, 194, 44, 69, 146, 108, 243, 57, 102, 66, 242, 53, 32, 111, 119, 187,
   89, 25, 29, 254, 55, 103, 45, 49, 245, 105, 167, 100, 171, 19, 84, 37, 233, 9, 237, 92, 5, 202,
   76, 36, 135, 191, 24, 62, 34, 240, 81, 236, 97, 23, 22, 94, 175, 211, 73, 166, 54, 67, 244, 71,
   145, 223, 51, 147, 33, 59, 121, 183, 151, 133, 16, 181, 186, 60, 182, 112, 208, 6, 161, 250,
   129, 130, 131, 126, 127, 128, 150, 115, 190, 86, 155, 158, 149, 217, 247, 2, 185, 164, 222,
   106, 50, 109, 216, 138, 132, 114, 42, 20, 159, 136, 249, 220, 137, 154, 251, 124, 46, 195, 143,
   184, 101, 72, 38, 200, 18, 74, 206, 231, 210, 98, 12, 224, 31, 239, 17, 117, 120, 113, 165,
   142, 118, 61, 189, 188, 134, 87, 11, 40, 47, 163, 218, 212, 228, 15, 169, 39, 83, 4, 27, 252,
   172, 230, 122, 7, 174, 99, 197, 219, 226, 234, 148, 139, 196, 213, 157, 248, 144, 107, 177, 13,
   214, 235, 198, 14, 207, 173, 8, 78, 215, 227, 93, 80, 30, 179, 91, 35, 56, 52, 104, 70, 3, 140,
   221, 156, 125, 160, 205, 26, 65, 28]

/-- Every number but zero times its tabled inverse is one. -/
theorem mul_inverses : (inverses.zipIdx.all fun e => Nat.beq e.2 0 ||
    (Nat.beq (mul e.1 e.2) 1 && Nat.beq (mul e.2 e.1) 1 && Nat.blt 0 e.1 &&
      Nat.blt e.1 256)) = true := by
  decide +kernel

set_option maxRecDepth 4000 in
theorem length_inverses : inverses.length = 256 := rfl

theorem inverse_eq_getElem {v : ℕ} (hv : v < inverses.length) : inverse v = inverses[v] := by
  have hmem : (inverses[v], v) ∈ inverses.zipIdx :=
    List.mk_mem_zipIdx_iff_getElem?.mpr (List.getElem?_eq_getElem hv)
  have hcheck := List.all_eq_true.mp mul_inverses _ hmem
  by_cases hzero : v = 0
  · subst hzero
    exact inverse_zero
  · simp only [Bool.or_eq_true, Bool.and_eq_true, Nat.beq_eq, Nat.blt_eq, hzero, false_or] at hcheck
    exact inverse_eq ⟨hcheck.1.2, hcheck.2⟩ (length_inverses ▸ hv) hcheck.1.1.1 hcheck.1.1.2

theorem inverse_spec {v : ℕ} (hv : v < 256) : inverse v < 256 ∧ inverse (inverse v) = v := by
  have hmem : (inverse v, v) ∈ inverses.zipIdx := by
    rw [inverse_eq_getElem (length_inverses.symm ▸ hv)]
    exact List.mk_mem_zipIdx_iff_getElem?.mpr (List.getElem?_eq_getElem _)
  have hcheck := List.all_eq_true.mp mul_inverses _ hmem
  by_cases hzero : v = 0
  · subst hzero
    rw [inverse_zero, inverse_zero]
    exact ⟨by decide, rfl⟩
  · simp only [Bool.or_eq_true, Bool.and_eq_true, Nat.beq_eq, Nat.blt_eq, hzero, false_or] at hcheck
    exact ⟨hcheck.2, inverse_eq ⟨by omega, hv⟩ hcheck.2 hcheck.1.1.2 hcheck.1.1.1⟩

/-! ### The S-box -/

theorem length_sbox : SBOX.length = 256 := by
  rw [SBOX, List.length_map, List.length_range]

theorem lt_of_mem_sbox {s : ℕ} (h : s ∈ SBOX) : s < 256 := by
  obtain ⟨v, hv, rfl⟩ := List.mem_map.mp h
  exact entry_lt (inverse_spec (List.mem_range.mp hv)).1

theorem nodup_sbox : SBOX.Nodup := by
  apply List.Nodup.map_on
  · intro v hv w hw heq
    have hv' := inverse_spec (List.mem_range.mp hv)
    have hw' := inverse_spec (List.mem_range.mp hw)
    rw [← hv'.2, entry_inj hv'.1 hw'.1 heq, hw'.2]
  · exact List.nodup_range

/-- The S-box is a permutation of the bytes. -/
theorem sbox_perm : SBOX.Perm (List.range 256) := by
  apply (List.subperm_of_subset nodup_sbox ?_).perm_of_length_le
  · rw [length_sbox, List.length_range]
  · intro s hs
    exact List.mem_range.mpr (lt_of_mem_sbox hs)

/-! ### The inverse table -/

/-- The loop that fills a table. -/
theorem getElem?_foldl_set (entries : List (ℕ × ℕ)) (table : List ℕ) :
    (∀ k, k ∉ entries.map Prod.fst →
      (entries.foldl (fun table entry => table.set entry.1 entry.2) table)[k]? = table[k]?) ∧
    ((entries.map Prod.fst).Nodup → ∀ e ∈ entries, e.1 < table.length →
      (entries.foldl (fun table entry => table.set entry.1 entry.2) table)[e.1]? = some e.2) := by
  induction entries generalizing table with
  | nil => exact ⟨fun k _ => rfl, fun _ e he => absurd he List.not_mem_nil⟩
  | cons entry entries ih =>
    rw [List.foldl_cons, List.map_cons]
    obtain ⟨hother, hthere⟩ := ih (table.set entry.1 entry.2)
    constructor
    · intro k hk
      obtain ⟨hne, hk⟩ := not_or.mp (mt List.mem_cons.mpr hk)
      rw [hother k hk, List.getElem?_set_ne (Ne.symm hne)]
    · intro hnodup e he hlt
      obtain ⟨hnew, hnodup⟩ := List.nodup_cons.mp hnodup
      rcases List.mem_cons.mp he with rfl | he
      · rw [hother _ hnew, List.getElem?_set_self hlt]
      · exact hthere hnodup e he (by rwa [List.length_set])

theorem sboxInv_sbox {v s : ℕ} (h : SBOX[v]? = some s) : SBOX_INV[s]? = some v := by
  have hkeys : (SBOX.zipIdx.map Prod.fst).Nodup := by
    rw [List.zipIdx_map_fst]
    exact nodup_sbox
  have hmem : (s, v) ∈ SBOX.zipIdx := List.mk_mem_zipIdx_iff_getElem?.mpr h
  have hlt : s < (List.replicate 256 0).length := by
    rw [List.length_replicate]
    exact lt_of_mem_sbox (List.mem_of_getElem? h)
  exact (getElem?_foldl_set _ _).2 hkeys (s, v) hmem hlt

end AllInOneBackup.Cloud123.Pan115
