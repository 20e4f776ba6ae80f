import AllInOneBackup.P115.Pickcode

/-! The documented form of a pickcode: a prefix, a middle part that is not empty, and a suffix of
four characters whose first one is assigned to the prefix. `is_valid_pickcode` looks that character
up, and no key of the dictionary is left over for a character that belongs to no prefix. -/

namespace AllInOneBackup.P115.Pickcode

/-- The parts of a string that is cut as a pickcode with prefix `p`; `c` begins the suffix. -/
structure Parts (p : Prefix) (middle : Str) (c : Char) (last s : Str) : Prop where
  eq : s = p.text ++ (middle ++ c :: last)
  middle : middle ≠ []
  length : last.length = 3
  inAlphabet : InAlphabet s

/-- What the documentation calls a pickcode; the empty one is the root's. -/
inductive Documented : Str → Prop
  | root : Documented []
  | code {p : Prefix} {middle last s : Str} (h : Parts p middle p.shown last s) : Documented s

/-- A pickcode but for the beginning of its suffix, which is assigned to no prefix. -/
def Unassigned (s : Str) : Prop :=
  ∃ p middle c last, Parts p middle c last s ∧ ∀ q : Prefix, q.shown ≠ c

/-- `is_valid_pickcode` returns whether the string is a pickcode. -/
def Decides (s : Str) : Prop :=
  isValidPickcode s = some true ∧ Documented s ∨ isValidPickcode s = some false ∧ ¬Documented s

theorem firstSuffixToPrefix_eq_some {c : Char} {p : Prefix} :
    firstSuffixToPrefix c = some p ↔ p.shown = c := by
  constructor
  · intro h
    rw [← p.firstSuffix_eq, firstSuffix_of_firstSuffixToPrefix h]
  · rintro rfl
    rw [← p.firstSuffix_eq, p.firstSuffixToPrefix_firstSuffix]

theorem strip_of_inAlphabet {s : Str} (h : InAlphabet s) : strip alphabet s = [] := by
  have hdrop : s.dropWhile (· ∈ alphabet) = [] :=
    List.dropWhile_eq_nil_iff.mpr fun c hc => by simpa using h c hc
  rw [strip, hdrop]
  rfl

/-- The check that is left to a string that is cut as a pickcode. -/
theorem isValidPickcode_of_parts {p : Prefix} {middle : Str} {c : Char} {last s : Str}
    (h : Parts p middle c last s) :
    isValidPickcode s = (firstSuffixToPrefix c).map fun q => decide (p = q) := by
  have hstrip := strip_of_inAlphabet h.inAlphabet
  have hdrop : s.drop (s.length - 4) = c :: last := by
    rw [h.eq, ← List.append_assoc, List.drop_left']
    simp only [List.length_append, List.length_cons, h.length]
    omega
  obtain ⟨m, middle, rfl⟩ := List.exists_cons_of_ne_nil h.middle
  have hlen := h.length
  have htext := p.ofText_text
  rw [isValidPickcode, hdrop, hstrip, h.eq]
  cases p <;> simp_all [Prefix.text]

/-- A string is cut behind its prefix and four characters before its end. -/
theorem parts_of_text {s : Str} {p : Prefix} {k : ℕ} (htext : p.text = s.take k)
    (hlen : k + 5 ≤ s.length) (hs : InAlphabet s) : ∃ middle c last, Parts p middle c last s := by
  have hdrop : ((s.drop k).drop (s.length - k - 4)).length = 4 := by
    simp only [List.length_drop]
    omega
  obtain ⟨c, last, hlast⟩ := List.exists_cons_of_length_eq_add_one hdrop
  refine ⟨(s.drop k).take (s.length - k - 4), c, last, ?_, ?_, ?_, hs⟩
  · rw [htext, ← hlast, List.take_append_drop, List.take_append_drop]
  · rw [← List.length_pos_iff, List.length_take, List.length_drop]
    omega
  · rw [hlast, List.length_cons] at hdrop
    omega

theorem exists_text_of_match {s text : Str}
    (h : (match Prefix.ofText (Prefix.files ++ Prefix.folders) text with
      | none => some false
      | some p => ((s.drop (s.length - 4)).head?.bind firstSuffixToPrefix).map fun q => p = q) ≠
        some false) : ∃ p : Prefix, p.text = text := by
  split at h
  · exact absurd rfl h
  · rename_i p hp
    exact ⟨p, (Prefix.text_of_ofText hp).1⟩

/-- Any other string is refused, the empty one apart. -/
theorem exists_parts {s : Str} (hne : s ≠ []) (h : isValidPickcode s ≠ some false) :
    ∃ p middle c last, Parts p middle c last s := by
  simp only [isValidPickcode, if_neg hne] at h
  split_ifs at h with hstrip hlen hf
  · exact absurd rfl h
  · exact absurd rfl h
  · have hlong := not_and.mp (not_or.mp hlen).1 hf
    obtain ⟨p, htext⟩ := exists_text_of_match h
    exact ⟨p, parts_of_text htext (by omega) (inAlphabet_of_strip (not_not.mp hstrip))⟩
  · have hlong := (not_or.mp hlen).2
    obtain ⟨p, htext⟩ := exists_text_of_match h
    exact ⟨p, parts_of_text htext (by omega) (inAlphabet_of_strip (not_not.mp hstrip))⟩

/-- The prefix is told by the first two characters, the suffix by the last four. -/
theorem Parts.unique {p q : Prefix} {middle middle' : Str} {c d : Char} {last last' s : Str}
    (h : Parts p middle c last s) (h' : Parts q middle' d last' s) : p = q ∧ c = d := by
  constructor
  · have heq := h.eq.symm.trans h'.eq
    obtain ⟨m, middle, rfl⟩ := List.exists_cons_of_ne_nil h.middle
    obtain ⟨m', middle', rfl⟩ := List.exists_cons_of_ne_nil h'.middle
    cases p <;> cases q <;> simp_all [Prefix.text]
  · have heq := h.eq.symm.trans h'.eq
    rw [← List.append_assoc, ← List.append_assoc] at heq
    have hsuffix := List.append_inj_right' heq (by simp [h.length, h'.length])
    exact (List.cons.inj hsuffix).1

theorem Unassigned.raises {s : Str} (h : Unassigned s) : isValidPickcode s = none := by
  obtain ⟨p, middle, c, last, hparts, hnone⟩ := h
  have hlookup : firstSuffixToPrefix c = none := by
    by_contra hsome
    obtain ⟨q, hq⟩ := Option.ne_none_iff_exists'.mp hsome
    exact hnone q (firstSuffixToPrefix_eq_some.mp hq)
  rw [isValidPickcode_of_parts hparts, hlookup]
  rfl

/-- A string that is cut as a pickcode with an assigned suffix is decided. -/
theorem Parts.decides {p q : Prefix} {middle last s : Str} (h : Parts p middle q.shown last s) :
    Decides s := by
  have hvalid := isValidPickcode_of_parts h
  rw [firstSuffixToPrefix_eq_some.mpr rfl, Option.map_some] at hvalid
  by_cases hpq : p = q
  · subst hpq
    exact .inl ⟨by simpa using hvalid, .code h⟩
  · refine .inr ⟨by simpa [hpq] using hvalid, fun hdoc => ?_⟩
    cases hdoc with
    | root => simpa using congrArg List.length h.eq
    | code h' =>
      obtain ⟨rfl, hshown⟩ := h.unique h'
      have hassigned := firstSuffixToPrefix_eq_some.mpr hshown
      rw [firstSuffixToPrefix_eq_some.mpr rfl] at hassigned
      exact hpq (Option.some.inj hassigned)

theorem decides_of_not_parts {s : Str} (h : ¬∃ p middle c last, Parts p middle c last s) :
    Decides s := by
  by_cases hne : s = []
  · subst hne
    exact .inl ⟨rfl, .root⟩
  · have hfalse : isValidPickcode s = some false := by
      by_contra hvalid
      exact h (exists_parts hne hvalid)
    refine .inr ⟨hfalse, fun hdoc => ?_⟩
    cases hdoc with
    | root => exact hne rfl
    | code h' => exact h ⟨_, _, _, _, h'⟩

/-- The validity of a string is decided exactly when its suffix does not begin with a character
that is assigned to no prefix; there the lookup raises. -/
theorem decides_iff (s : Str) : Decides s ↔ ¬Unassigned s := by
  constructor
  · intro hdecides hunassigned
    have hraises := hunassigned.raises
    obtain ⟨h, -⟩ | ⟨h, -⟩ := hdecides <;> simp [hraises] at h
  · intro hassigned
    by_cases hparts : ∃ p middle c last, Parts p middle c last s
    · obtain ⟨p, middle, c, last, hparts⟩ := hparts
      obtain ⟨q, hq⟩ : ∃ q : Prefix, q.shown = c := by
        by_contra hnone
        exact hassigned ⟨p, middle, c, last, hparts, fun q hq => hnone ⟨q, hq⟩⟩
      subst hq
      exact hparts.decides
    · exact decides_of_not_parts hparts

/-- No prefix is assigned to `a`. -/
theorem isValidPickcode_raises : ¬∀ s, Decides s := by
  intro h
  have hraises : isValidPickcode "a1aaaa".toList = none := by decide +kernel
  obtain ⟨hbool, -⟩ | ⟨hbool, -⟩ := h "a1aaaa".toList
  · rw [hraises] at hbool
    cases hbool
  · rw [hraises] at hbool
    cases hbool

end AllInOneBackup.P115.Pickcode
