import Mathlib.Data.List.Infix
import Mathlib.Tactic.Common

/-! A number of consecutive elements of a list, from an offset on. -/

namespace AllInOneBackup.Data

variable {α : Type*} {s t : List α} {off m n : ℕ}

/-- `s[off:off+n]`, as far as `s` goes. -/
def slice (s : List α) (off n : ℕ) : List α := (s.drop off).take n

@[simp] theorem slice_zero (s : List α) (off : ℕ) : slice s off 0 = [] := List.take_zero

theorem length_slice (s : List α) (off n : ℕ) : (slice s off n).length = min n (s.length - off) := by
  rw [slice, List.length_take, List.length_drop]

theorem length_slice_of_le (h : off + n ≤ s.length) : (slice s off n).length = n := by
  rw [length_slice]
  omega

theorem slice_add (s : List α) (off m n : ℕ) :
    slice s off (m + n) = slice s off m ++ slice s (off + m) n := by
  rw [slice, List.take_add, List.drop_drop, slice, slice]

theorem take_slice (s : List α) (off n m : ℕ) : (slice s off n).take m = slice s off (min m n) :=
  List.take_take

theorem drop_slice (s : List α) (off n m : ℕ) :
    (slice s off n).drop m = slice s (off + m) (n - m) := by
  rw [slice, List.drop_take, List.drop_drop, slice]

/-- A slice that goes as far as the list. -/
theorem slice_eq_drop (h : s.length ≤ off + n) : slice s off n = s.drop off :=
  List.take_of_length_le (by rw [List.length_drop]; omega)

theorem slice_prefix (s : List α) (off n : ℕ) : slice s off n <+: s.drop off := List.take_prefix _ _

theorem slice_prefix_slice (s : List α) (off : ℕ) (h : m ≤ n) : slice s off m <+: slice s off n :=
  List.take_prefix_take_left h

/-- What a list goes on with from an offset is a slice. -/
theorem eq_slice_of_isPrefix (h : t <+: s.drop off) : t = slice s off t.length :=
  List.prefix_iff_eq_take.mp h

theorem append_drop_of_isPrefix (h : t <+: s.drop off) :
    t ++ s.drop (off + t.length) = s.drop off := by
  obtain ⟨rest, hrest⟩ := h
  rw [← List.drop_drop, ← hrest, List.drop_left]

theorem getElem?_slice (s : List α) (off n k : ℕ) :
    (slice s off n)[k]? = if k < n then s[off + k]? else none := by
  rw [slice, List.getElem?_take, List.getElem?_drop]

/-! ### Writing over a list -/

/-- `copy(s[off:], t)`, where `s` is long enough. -/
def splice (s : List α) (off : ℕ) (t : List α) : List α :=
  s.take off ++ t ++ s.drop (off + t.length)

theorem length_splice (h : off + t.length ≤ s.length) : (splice s off t).length = s.length := by
  rw [splice, List.length_append, List.length_append, List.length_take, List.length_drop]
  omega

theorem getElem?_splice (h : off + t.length ≤ s.length) (k : ℕ) :
    (splice s off t)[k]? = if off ≤ k ∧ k < off + t.length then t[k - off]? else s[k]? := by
  have htake : (s.take off).length = off := by
    rw [List.length_take]
    omega
  rw [splice, List.append_assoc]
  split_ifs with hk
  · rw [List.getElem?_append_right (by omega), htake, List.getElem?_append_left (by omega)]
  · by_cases hlow : k < off
    · rw [List.getElem?_append_left (by omega), List.getElem?_take, if_pos hlow]
    · rw [List.getElem?_append_right (by omega), htake, List.getElem?_append_right (by omega),
        List.getElem?_drop]
      congr 1
      omega

end AllInOneBackup.Data
