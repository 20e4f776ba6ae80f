import Mathlib.Data.List.Basic
import Mathlib.Tactic.Common

/-! Copying a list onto its own end from a fixed distance back, as the matches of the LZ77
family do. The copy may overlap what it writes. `SelfCopied` says which lists are results of
such a copy without saying how it is made, and there is only one of each length, so that any
two ways of making it agree. -/

namespace AllInOneBackup.SelfCopy

variable {α : Type*}

/-- One element at a time: `n` times the element `offset` back from the end. -/
def selfCopy (offset : ℕ) : ℕ → List α → List α
  | 0, out => out
  | n + 1, out => selfCopy offset n (out ++ out[out.length - offset]?.toList)

/-- `r` goes on behind `out` with the elements `offset` back. -/
structure SelfCopied (offset : ℕ) (out r : List α) : Prop where
  isPrefix : out <+: r
  period : ∀ i, out.length ≤ i → i < r.length → r[i]? = r[i - offset]?

namespace SelfCopied

variable {offset : ℕ} {out r r' : List α}

theorem refl (offset : ℕ) (out : List α) : SelfCopied offset out out :=
  ⟨List.prefix_rfl, fun _ h h' => absurd h' (by omega)⟩

theorem length_le (h : SelfCopied offset out r) : out.length ≤ r.length := h.isPrefix.length_le

/-- Two results of the same length are equal. -/
theorem unique (h : SelfCopied offset out r) (h' : SelfCopied offset out r') (hpos : 0 < offset)
    (hle : offset ≤ out.length) (hlen : r.length = r'.length) : r = r' := by
  obtain ⟨t, rfl⟩ := h.isPrefix
  obtain ⟨t', rfl⟩ := h'.isPrefix
  have hget : ∀ i, i < (out ++ t).length → (out ++ t)[i]? = (out ++ t')[i]? := by
    intro i
    induction i using Nat.strongRecOn with
    | ind i ih =>
      intro hi
      by_cases hlt : i < out.length
      · rw [List.getElem?_append_left hlt, List.getElem?_append_left hlt]
      · rw [h.period i (by omega) hi, h'.period i (by omega) (by omega)]
        exact ih _ (by omega) (by omega)
  refine List.ext_getElem? fun i => ?_
  by_cases hi : i < (out ++ t).length
  · exact hget i hi
  · rw [List.getElem?_eq_none (by omega), List.getElem?_eq_none (by omega)]

/-- The elements of the copy, and of the last `offset` before it, repeat every `offset`. -/
theorem getElem?_sub_mul (h : SelfCopied offset out r) {i : ℕ} (hi : i < r.length) (k : ℕ)
    (hk : out.length ≤ i + offset - k * offset) : r[i]? = r[i - k * offset]? := by
  induction k with
  | zero => simp
  | succ k ih =>
    rw [Nat.succ_mul] at hk ⊢
    rw [ih (by omega), h.period _ (by omega) (by omega), Nat.sub_sub]

/-- A slice that starts `k * offset` back and is no longer than that goes on with the copy. -/
theorem append_slice (h : SelfCopied offset out r) {k : ℕ} (hk : 0 < k) (hpos : 0 < offset)
    {start n : ℕ} (hstart : start + k * offset = r.length) (hout : start + offset = out.length)
    (hn : n ≤ k * offset) : SelfCopied offset out (r ++ (r.drop start).take n) := by
  refine ⟨h.isPrefix.trans (List.prefix_append _ _), fun i hlo hi => ?_⟩
  have hlen : ((r.drop start).take n).length = n := by
    rw [List.length_take, List.length_drop]
    omega
  rw [List.length_append, hlen] at hi
  by_cases hlt : i < r.length
  · rw [List.getElem?_append_left hlt, List.getElem?_append_left (by omega)]
    exact h.period i hlo hlt
  · -- the slice repeats what is `k * offset` back
    have hslice : ∀ j, r.length ≤ j → j < r.length + n →
        (r ++ (r.drop start).take n)[j]? = r[j - k * offset]? := by
      intro j hj hjn
      rw [List.getElem?_append_right hj, List.getElem?_take_of_lt (by omega),
        List.getElem?_drop]
      congr 1
      omega
    rw [hslice i (by omega) hi]
    by_cases hback : i - offset < r.length
    · rw [List.getElem?_append_left hback]
      obtain ⟨k, rfl⟩ := Nat.exists_eq_add_of_lt hk
      rw [Nat.zero_add, Nat.succ_mul] at hstart ⊢
      rw [h.getElem?_sub_mul hback k (by omega)]
      congr 1
      omega
    · rw [hslice _ (by omega) (by omega), h.period _ (by omega) (by omega)]
      congr 1
      omega

/-- One more element. -/
theorem append_getElem? (h : SelfCopied offset out r) (hpos : 0 < offset)
    (hle : offset ≤ out.length) :
    SelfCopied offset out (r ++ r[r.length - offset]?.toList) ∧
      (r ++ r[r.length - offset]?.toList).length = r.length + 1 := by
  have hr := h.length_le
  have hlt : r.length - offset < r.length := by omega
  rw [List.getElem?_eq_getElem hlt, Option.toList_some, List.length_append, List.length_singleton]
  refine ⟨⟨h.isPrefix.trans (List.prefix_append _ _), fun i hlo hi => ?_⟩, rfl⟩
  rw [List.length_append, List.length_singleton] at hi
  rw [List.getElem?_append_left (by omega : i - offset < r.length)]
  obtain hlt' | rfl := Nat.lt_or_eq_of_le (Nat.le_of_lt_succ hi)
  · rw [List.getElem?_append_left hlt']
    exact h.period i hlo hlt'
  · rw [List.getElem?_append_right (Nat.le_refl _), Nat.sub_self, List.getElem?_eq_getElem hlt]
    rfl

theorem selfCopy_of (h : SelfCopied offset out r) (hpos : 0 < offset) (hle : offset ≤ out.length)
    (n : ℕ) : SelfCopied offset out (selfCopy offset n r) ∧
      (selfCopy offset n r).length = r.length + n := by
  induction n generalizing r with
  | zero => exact ⟨h, rfl⟩
  | succ n ih =>
    obtain ⟨hstep, hlen⟩ := h.append_getElem? hpos hle
    obtain ⟨hrun, hrunLen⟩ := ih hstep
    refine ⟨hrun, ?_⟩
    rw [selfCopy, hrunLen, hlen]
    omega

end SelfCopied

/-- Any result of the right length is the copy made one element at a time. -/
theorem selfCopied_iff {offset n : ℕ} {out r : List α} (hpos : 0 < offset)
    (hle : offset ≤ out.length) : r = selfCopy offset n out ↔
      SelfCopied offset out r ∧ r.length = out.length + n := by
  obtain ⟨hcopy, hlen⟩ := (SelfCopied.refl offset out).selfCopy_of hpos hle n
  constructor
  · rintro rfl
    exact ⟨hcopy, hlen⟩
  · rintro ⟨h, hr⟩
    exact h.unique hcopy hpos hle (by omega)

end AllInOneBackup.SelfCopy
