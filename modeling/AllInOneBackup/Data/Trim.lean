import AllInOneBackup.Data.Text

/-! Lists without what they begin and end with, and white space as Go's `strings` know it. -/

namespace AllInOneBackup.Data

section Trim

variable {α β : Type*} (p : α → Bool)

def trim (s : List α) : List α := (s.dropWhile p).rdropWhile p

variable {p} {s a b : List α}

theorem exists_trim (s : List α) :
    ∃ a b, (∀ x ∈ a, p x) ∧ (∀ x ∈ b, p x) ∧ s = a ++ trim p s ++ b := by
  refine ⟨s.takeWhile p, (s.dropWhile p).rtakeWhile p, fun x hx => List.mem_takeWhile_imp hx,
    fun x hx => List.mem_rtakeWhile_imp hx, ?_⟩
  rw [trim, List.append_assoc, List.rdropWhile_append_rtakeWhile, List.takeWhile_append_dropWhile]

theorem rdropWhile_append_of_pos (hb : ∀ x ∈ b, p x) :
    (s ++ b).rdropWhile p = s.rdropWhile p := by
  have hreverse : ∀ x ∈ b.reverse, p x := fun x hx => hb x (List.mem_reverse.mp hx)
  rw [List.rdropWhile, List.reverse_append, List.dropWhile_append_of_pos hreverse, List.rdropWhile]

/-- What surrounds a list is trimmed with it. -/
theorem trim_surround (ha : ∀ x ∈ a, p x) (hb : ∀ x ∈ b, p x) : trim p (a ++ s ++ b) = trim p s := by
  rw [trim, List.append_assoc, List.dropWhile_append_of_pos ha, List.dropWhile_append]
  split_ifs with hs
  · have hnil : s.dropWhile p = [] := List.isEmpty_iff.mp hs
    rw [trim, hnil, List.rdropWhile_nil, List.dropWhile_eq_nil_iff.mpr hb, List.rdropWhile_nil]
  · rw [rdropWhile_append_of_pos hb, trim]

theorem trim_eq_self (hfirst : ∀ x ∈ s.head?, p x = false) (hlast : ∀ x ∈ s.getLast?, p x = false) :
    trim p s = s := by
  have hdrop : s.dropWhile p = s := by
    cases s with
    | nil => rfl
    | cons x s => exact List.dropWhile_cons_of_neg (by simpa using hfirst x rfl)
  rw [trim, hdrop]
  refine List.rdropWhile_eq_self_iff.mpr fun hne => ?_
  simpa using hlast _ (List.getLast?_eq_some_getLast hne)

theorem trim_eq_nil_iff : trim p s = [] ↔ ∀ x ∈ s, p x := by
  constructor
  · intro h
    obtain ⟨a, b, ha, hb, hs⟩ := exists_trim (p := p) s
    rw [h, List.append_nil] at hs
    intro x hx
    rw [hs] at hx
    exact (List.mem_append.mp hx).elim (ha x) (hb x)
  · intro h
    rw [trim, List.dropWhile_eq_nil_iff.mpr h, List.rdropWhile_nil]

/-- A map that keeps what is trimmed may come first. -/
theorem trim_map {q : β → Bool} (f : α → β) (hf : ∀ x, q (f x) = p x) (s : List α) :
    trim q (s.map f) = (trim p s).map f := by
  have hcomp : q ∘ f = p := funext hf
  rw [trim, List.dropWhile_map, hcomp, List.rdropWhile, ← List.map_reverse, List.dropWhile_map,
    hcomp, ← List.map_reverse]
  rfl

theorem trim_rdropWhile (s : List α) : trim p (s.rdropWhile p) = trim p s := by
  have h := trim_surround (a := []) (s := s.rdropWhile p) (b := s.rtakeWhile p) nofun
    fun x hx => List.mem_rtakeWhile_imp hx
  rw [List.nil_append, List.rdropWhile_append_rtakeWhile] at h
  exact h.symm

theorem trim_dropWhile (s : List α) : trim p (s.dropWhile p) = trim p s := by
  rw [trim, List.dropWhile_idempotent, trim]

/-- What is not trimmed stops the trimming on both sides. -/
theorem trim_append_cons {x : α} (hx : p x = false) :
    trim p (a ++ x :: b) = a.dropWhile p ++ x :: b.rdropWhile p := by
  have hfront : (a ++ x :: b).dropWhile p = a.dropWhile p ++ x :: b := by
    rw [List.dropWhile_append]
    split_ifs with hnil
    · rw [List.isEmpty_iff.mp hnil, List.nil_append, List.dropWhile_cons_of_neg (by simp [hx])]
    · rfl
  rw [trim, hfront, List.rdropWhile, List.reverse_append, List.reverse_cons, List.append_assoc,
    List.dropWhile_append]
  split_ifs with hnil
  · have hb : b.rdropWhile p = [] := by rw [List.rdropWhile, List.isEmpty_iff.mp hnil, List.reverse_nil]
    rw [List.singleton_append, List.dropWhile_cons_of_neg (by simp [hx]), hb]
    simp
  · simp [List.rdropWhile]

theorem mem_of_mem_trim {x : α} (h : x ∈ trim p s) : x ∈ s := by
  obtain ⟨a, b, -, -, hs⟩ := exists_trim (p := p) s
  rw [hs]
  exact List.mem_append_left _ (List.mem_append_right _ h)

theorem trim_trim (s : List α) : trim p (trim p s) = trim p s := by
  obtain ⟨a, b, ha, hb, hs⟩ := exists_trim (p := p) s
  have h := trim_surround (s := trim p s) ha hb
  rw [← hs] at h
  exact h.symm

end Trim

namespace Text

/-- `unicode.IsSpace`. -/
def isSpace (c : Char) : Bool :=
  c.toNat ∈ [0x09, 0x0A, 0x0B, 0x0C, 0x0D, 0x20, 0x85, 0xA0, 0x1680, 0x2028, 0x2029, 0x202F,
    0x205F, 0x3000] || decide (0x2000 ≤ c.toNat ∧ c.toNat ≤ 0x200A)

/-- `strings.TrimSpace`. -/
def trimSpace (s : Text) : Text := trim isSpace s

/-- All of it is white space. -/
def Blank (s : Text) : Prop := ∀ c ∈ s, isSpace c

theorem trimSpace_eq_nil_iff {s : Text} : trimSpace s = [] ↔ Blank s := trim_eq_nil_iff

end Text

end AllInOneBackup.Data
