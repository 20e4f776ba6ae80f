import Mathlib.Data.List.Sort
import Mathlib.Order.Lattice

/-! A bounded window of keys already seen, kept in strictly ascending order. A key is
refused when it is in the window or below all of it, so the lowest keys can be dropped
without accepting any of them again. What the window refuses only grows, and every key
it takes in is refused from then on: no key is taken in twice, in whatever order the
keys come and whenever the window is cut. -/

namespace AllInOneBackup.ReplayWindow

variable {α : Type*} [LinearOrder α]

/-- Insertion after the entries that are not above `x`. -/
def insort (x : α) (l : List α) : List α := l.orderedInsert (· < ·) x

@[simp] theorem mem_insort {x y : α} {l : List α} : y ∈ insort x l ↔ y = x ∨ y ∈ l :=
  List.mem_orderedInsert (· < ·)

@[simp] theorem length_insort (x : α) (l : List α) : (insort x l).length = l.length + 1 :=
  List.orderedInsert_length (· < ·) l x

theorem insort_ne_nil (x : α) (l : List α) : insort x l ≠ [] :=
  List.ne_nil_of_mem (mem_insort.mpr (.inl rfl))

theorem insort_ascending {x : α} {l : List α} (hl : l.Pairwise (· < ·)) (hx : x ∉ l) :
    (insort x l).Pairwise (· < ·) := by
  induction l with
  | nil => simp [insort]
  | cons y l ih =>
    obtain ⟨hy, hl⟩ := List.pairwise_cons.mp hl
    obtain ⟨hxy, hx⟩ := not_or.mp (mt List.mem_cons.mpr hx)
    unfold insort List.orderedInsert
    split_ifs with h
    · exact List.pairwise_cons.mpr ⟨fun z hz => (List.mem_cons.mp hz).elim (· ▸ h)
        (fun hz => h.trans (hy z hz)), List.pairwise_cons.mpr ⟨hy, hl⟩⟩
    · have hyx : y < x := lt_of_le_of_ne (not_lt.mp h) (Ne.symm hxy)
      exact List.pairwise_cons.mpr ⟨fun z hz => (mem_insort.mp hz).elim (· ▸ hyx) (hy z), ih hl hx⟩

/-- `l` refuses `x`: it holds `x`, or holds something and only entries above `x`. -/
def Refuses (l : List α) (x : α) : Prop := l ≠ [] ∧ (x ∈ l ∨ ∀ y ∈ l, x < y)

theorem refuses_insort_self (x : α) (l : List α) : Refuses (insort x l) x :=
  ⟨insort_ne_nil x l, .inl (mem_insort.mpr (.inl rfl))⟩

/-- A key that was not refused has an entry at or below it, unless the window is empty. -/
theorem Refuses.insort {x z : α} {l : List α} (h : Refuses l z) (hx : ¬Refuses l x) :
    Refuses (insort x l) z := by
  refine ⟨insort_ne_nil x l, h.2.imp (fun hz => mem_insort.mpr (.inr hz)) fun hz y hy => ?_⟩
  obtain rfl | hy := mem_insort.mp hy
  · simp only [Refuses, not_and, not_or, not_forall, not_lt] at hx
    obtain ⟨w, hw, hwy⟩ := (hx h.1).2
    exact (hz w hw).trans_le hwy
  · exact hz y hy

/-- Dropping the lowest entries of a window, but not all of it, keeps its refusals. -/
theorem Refuses.drop {x : α} {l : List α} (h : Refuses l x) (hl : l.Pairwise (· < ·)) {n : ℕ}
    (hn : n < l.length) : Refuses (l.drop n) x := by
  refine ⟨by simpa using hn, ?_⟩
  rw [← List.take_append_drop n l] at hl
  obtain hx | hx := h.2
  · rw [← List.take_append_drop n l] at hx
    obtain hx | hx := List.mem_append.mp hx
    · exact .inr fun y hy => (List.pairwise_append.mp hl).2.2 x hx y hy
    · exact .inl hx
  · exact .inr fun y hy => hx y (List.mem_of_mem_drop hy)

/-- The window `l` after the keys `seen` have been taken in. -/
structure Covers (l seen : List α) : Prop where
  ascending : l.Pairwise (· < ·)
  nodup : seen.Nodup
  refuses : ∀ x ∈ seen, Refuses l x

theorem covers_nil : Covers ([] : List α) [] := ⟨.nil, .nil, by simp⟩

theorem Covers.insort {l seen : List α} {x : α} (h : Covers l seen) (hx : ¬Refuses l x) :
    Covers (insort x l) (seen ++ [x]) where
  ascending := by
    refine insort_ascending h.ascending fun hm => hx ⟨?_, .inl hm⟩
    rintro rfl
    simp at hm
  nodup := by
    refine List.nodup_append.mpr ⟨h.nodup, by simp, ?_⟩
    rintro y hy z hz rfl
    exact hx (List.mem_singleton.mp hz ▸ h.refuses y hy)
  refuses := by
    intro y hy
    obtain hy | hy := List.mem_append.mp hy
    · exact (h.refuses y hy).insort hx
    · exact List.mem_singleton.mp hy ▸ refuses_insort_self x l

theorem Covers.drop {l seen : List α} (h : Covers l seen) {n : ℕ} (hn : n < l.length) :
    Covers (l.drop n) seen where
  ascending := h.ascending.sublist (List.drop_sublist n l)
  nodup := h.nodup
  refuses := fun x hx => (h.refuses x hx).drop h.ascending hn

end AllInOneBackup.ReplayWindow
