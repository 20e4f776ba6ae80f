import AllInOneBackup.Data.Base64
import Mathlib.Data.List.Infix

/-! The text of a file id: a run-length encoding of the zero bytes, under Base64 without padding.
A run is counted in one byte, so the encoding exists for exactly the strings without a run of
more than 255 zero bytes, and then it is read back. -/

namespace AllInOneBackup.Kurigram.FileIds

open Base64

/-! ### Base64 without padding -/

/-- `s.strip("=")`. -/
def stripPad (s : List Char) : List Char :=
  ((s.dropWhile (· = '=')).reverse.dropWhile (· = '=')).reverse

def b64Encode (s : Bytes) : List Char := stripPad (urlsafeB64encode s)

def b64Decode (s : List Char) : Except String Bytes :=
  urlsafeB64decode (s ++ List.replicate (-s.length % 4 : ℤ).toNat '=')

theorem dropWhile_pad {s : List Char} (h : ∀ c ∈ s, c ≠ '=') : s.dropWhile (· = '=') = s := by
  cases s with
  | nil => rfl
  | cons c s => simp [h c]

theorem stripPad_append {s : List Char} (h : ∀ c ∈ s, c ≠ '=') (n : ℕ) (hn : s = [] → n = 0) :
    stripPad (s ++ List.replicate n '=') = s := by
  have hhead : (s ++ List.replicate n '=').dropWhile (· = '=') = s ++ List.replicate n '=' := by
    cases s with
    | nil => simp [hn rfl]
    | cons c s => simp [h c]
  have hpad : (List.replicate n '=').dropWhile (fun c => decide (c = '=')) = [] := by
    simp
  rw [stripPad, hhead, List.reverse_append, List.reverse_replicate, List.dropWhile_append, hpad,
    List.isEmpty_nil, if_pos rfl, dropWhile_pad fun c hc => h c (List.mem_reverse.mp hc),
    List.reverse_reverse]

theorem b64Encode_eq (s : Bytes) : b64Encode s = digits s := by
  refine stripPad_append (forall_mem_digits digit_ne_pad s) _ fun h => ?_
  cases s with
  | nil => rfl
  | cons a s => exact absurd h (by unfold digits; split <;> simp_all)

theorem b64Decode_b64Encode (s : Bytes) : b64Decode (b64Encode s) = .ok s := by
  rw [b64Encode_eq, b64Decode]
  have hpad : (-(digits s).length % 4 : ℤ).toNat = padding s.length := by
    have hlen := length_digits_mod s
    omega
  rw [hpad]
  exact urlsafeB64decode_encode s

/-! ### Runs of zeros -/

/-- The loop of `rle_encode`, with `n` zeros counted. -/
def rleEncodeLoop (n : ℕ) : Bytes → List ℕ
  | [] => if n ≠ 0 then [0, n] else []
  | b :: s =>
    if b = 0 then rleEncodeLoop (n + 1) s
    else (if n ≠ 0 then [0, n] else []) ++ b.toNat :: rleEncodeLoop 0 s

/-- `bytes(r)`. -/
def bytesOf (r : List ℕ) : Option Bytes :=
  if ∀ n ∈ r, n < 256 then some (r.map UInt8.ofNat) else none

/-- `rle_encode`; it raises where a count does not fit into a byte. -/
def rleEncode (s : Bytes) : Option Bytes := bytesOf (rleEncodeLoop 0 s)

/-- The loop of `rle_decode`; `z` says that a zero came before. -/
def rleDecodeLoop (z : Bool) : Bytes → Bytes
  | [] => []
  | b :: s =>
    if b = 0 then rleDecodeLoop true s
    else if z then List.replicate b.toNat 0 ++ rleDecodeLoop false s
    else b :: rleDecodeLoop false s

def rleDecode (s : Bytes) : Bytes := rleDecodeLoop false s

/-- There is no run of more than 255 zero bytes. -/
def ShortZeroRuns (s : Bytes) : Prop := ¬List.replicate 256 0 <:+: s

theorem isInfix_replicate {α : Type*} {m n : ℕ} (h : m ≤ n) (x : α) (s : List α) :
    List.replicate m x <:+: List.replicate n x ++ s := by
  obtain ⟨k, rfl⟩ := Nat.exists_eq_add_of_le h
  rw [List.replicate_add, List.append_assoc]
  exact (List.prefix_append _ _).isInfix

theorem ShortZeroRuns.le {n : ℕ} {s : Bytes} (h : ShortZeroRuns (List.replicate n 0 ++ s)) :
    n < 256 := by
  by_contra hn
  exact h (isInfix_replicate (not_lt.mp hn) 0 s)

theorem ShortZeroRuns.of_length_lt {s : Bytes} (h : s.length < 256) : ShortZeroRuns s :=
  fun hs => absurd hs.length_le (by rw [List.length_replicate]; omega)

theorem ShortZeroRuns.of_append {s t : Bytes} (h : ShortZeroRuns (s ++ t)) : ShortZeroRuns t :=
  fun ht => h (ht.trans (List.suffix_append s t).isInfix)

theorem rleDecodeLoop_count {n : ℕ} (hn : n < 256) (hne : n ≠ 0) (s : Bytes) :
    rleDecodeLoop false (0 :: UInt8.ofNat n :: s) = List.replicate n 0 ++ rleDecodeLoop false s := by
  have htoNat : (UInt8.ofNat n).toNat = n := by rw [UInt8.toNat_ofNat', Nat.mod_eq_of_lt hn]
  have hzero : UInt8.ofNat n ≠ 0 := by
    intro h
    rw [h] at htoNat
    exact hne htoNat.symm
  simp [rleDecodeLoop, hzero, htoNat]

/-- While `n` zeros are counted, what the encoder still writes fits into bytes, and the decoder
makes the zeros and the rest of it. -/
theorem rle_loop {n : ℕ} {s : Bytes} (h : ShortZeroRuns (List.replicate n 0 ++ s)) :
    (∀ m ∈ rleEncodeLoop n s, m < 256) ∧
      rleDecodeLoop false ((rleEncodeLoop n s).map UInt8.ofNat) = List.replicate n 0 ++ s := by
  induction s generalizing n with
  | nil =>
    by_cases hne : n = 0
    · subst hne
      exact ⟨nofun, rfl⟩
    · simp only [rleEncodeLoop, if_pos hne, List.map_cons, List.map_nil]
      exact ⟨by simp [h.le], rleDecodeLoop_count h.le hne []⟩
  | cons b s ih =>
    by_cases hb : b = 0
    · subst hb
      have hrep : List.replicate n (0 : UInt8) ++ 0 :: s = List.replicate (n + 1) 0 ++ s := by
        rw [List.replicate_succ', List.append_assoc, List.singleton_append]
      rw [hrep] at h ⊢
      exact ih h
    · have hrest : ShortZeroRuns (List.replicate 0 0 ++ s) := by
        rw [List.append_cons] at h
        exact h.of_append
      obtain ⟨hfits, hdecode⟩ := ih hrest
      have hlt := b.toNat_lt
      have hone : rleDecodeLoop false (b :: (rleEncodeLoop 0 s).map UInt8.ofNat) = b :: s := by
        simp [rleDecodeLoop, hb, hdecode]
      by_cases hne : n = 0
      · subst hne
        simp only [rleEncodeLoop, hb, if_false, ne_eq, not_true_eq_false, List.nil_append,
          List.map_cons, UInt8.ofNat_toNat, List.forall_mem_cons]
        exact ⟨⟨hlt, hfits⟩, hone⟩
      · simp only [rleEncodeLoop, hb, if_false, if_pos hne, List.cons_append, List.nil_append,
          List.map_cons, UInt8.ofNat_toNat, List.forall_mem_cons]
        exact ⟨⟨by omega, h.le, hlt, hfits⟩, (rleDecodeLoop_count h.le hne _).trans (congrArg _ hone)⟩

theorem rleDecode_rleEncode {s : Bytes} (h : ShortZeroRuns s) :
    (rleEncode s).map rleDecode = some s := by
  obtain ⟨hfits, hdecode⟩ := rle_loop (n := 0) h
  rw [rleEncode, bytesOf, if_pos hfits, Option.map_some]
  exact congrArg some hdecode

/-! ### Long runs -/

/-- A run does not go over another byte. -/
theorem isInfix_of_append_cons {α : Type*} {x l l' : List α} {b : α} (hb : b ∉ x)
    (h : x <:+: l ++ b :: l') : x <:+: l ∨ x <:+: l' := by
  obtain ⟨pre, post, heq⟩ := h
  obtain ⟨a, hl, -⟩ | ⟨c, hx, hrest⟩ := List.append_eq_append_iff.mp heq
  · exact .inl ⟨pre, a, hl.symm⟩
  · rcases List.append_eq_append_iff.mp hx with ⟨a, hl, hc⟩ | ⟨a, -, hc⟩
    · -- the run ends with `c`, which cannot begin with `b`
      cases c with
      | nil => exact .inl ⟨pre, [], by rw [hl, hc]; simp⟩
      | cons d c =>
        obtain rfl := (List.cons.inj hrest).1
        exact absurd (by rw [hc]; simp) hb
    · subst hc
      cases a with
      | nil =>
        cases x with
        | nil => exact .inl (List.nil_infix)
        | cons d x =>
          obtain rfl := (List.cons.inj hrest).1
          exact absurd List.mem_cons_self hb
      | cons d a => exact .inr ⟨a, post, (List.cons.inj hrest).2.symm⟩

theorem shortZeroRuns_of_fits {n : ℕ} {s : Bytes} (h : ∀ m ∈ rleEncodeLoop n s, m < 256) :
    ShortZeroRuns (List.replicate n 0 ++ s) := by
  induction s generalizing n with
  | nil =>
    rw [List.append_nil]
    apply ShortZeroRuns.of_length_lt
    rw [List.length_replicate]
    by_cases hne : n = 0
    · omega
    · rw [rleEncodeLoop, if_pos hne] at h
      exact h n (by simp)
  | cons b s ih =>
    by_cases hb : b = 0
    · subst hb
      have hrep : List.replicate n (0 : UInt8) ++ 0 :: s = List.replicate (n + 1) 0 ++ s := by
        rw [List.replicate_succ', List.append_assoc, List.singleton_append]
      rw [hrep]
      exact ih h
    · rw [rleEncodeLoop, if_neg hb] at h
      have hrest : ShortZeroRuns s :=
        ih (n := 0) fun m hm => h m (List.mem_append_right _ (List.mem_cons_of_mem _ hm))
      have hcount : n < 256 := by
        by_cases hne : n = 0
        · omega
        · exact h n (by simp [hne])
      intro hrun
      have hnot : b ∉ List.replicate 256 0 := fun hmem => hb (List.eq_of_mem_replicate hmem)
      rcases isInfix_of_append_cons hnot hrun with hrun | hrun
      · have hlen := hrun.length_le
        rw [List.length_replicate, List.length_replicate] at hlen
        omega
      · exact hrest hrun

/-- The encoding exists and is read back exactly where no run of zeros is too long for a byte. -/
theorem rle_round_trip_iff (s : Bytes) :
    (rleEncode s).map rleDecode = some s ↔ ShortZeroRuns s := by
  constructor
  · intro h
    obtain ⟨bs, hbs, -⟩ := Option.map_eq_some_iff.mp h
    exact shortZeroRuns_of_fits (n := 0) (Option.ite_none_right_eq_some.mp hbs).1
  · exact rleDecode_rleEncode

/-- 256 zeros. -/
theorem rleEncode_long_run : (rleEncode (List.replicate 256 0)).map rleDecode ≠
    some (List.replicate 256 0) := by
  decide +kernel

end AllInOneBackup.Kurigram.FileIds
