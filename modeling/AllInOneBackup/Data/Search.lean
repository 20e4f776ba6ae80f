import Mathlib.Data.List.Infix
import Mathlib.Data.Nat.Find

/-! The first place where a list is found in another, the cut of a list at the first of several
marks, and what a part that is put in the place of another can add: a list is found in the result
only where it was before, unless it overlaps the new part. -/

namespace AllInOneBackup.Data.Search

variable {α : Type*} [DecidableEq α]

/-- `strings.Index(u, m)`. -/
def index (m u : List α) : Option ℕ := (u.dropInfix? m).map (·.1.length)

/-- `strings.Contains(u, m)`. -/
def contains (m u : List α) : Bool := (u.dropInfix? m).isSome

variable {m p s u v x : List α} {marks : List (List α)} {i n : ℕ}

theorem index_eq_some_iff : index m u = some i ↔
    (∃ p s, u = p ++ m ++ s ∧ p.length = i) ∧ ∀ p s, u = p ++ m ++ s → i ≤ p.length := by
  rw [index, Option.map_eq_some_iff]
  constructor
  · rintro ⟨⟨p, s⟩, h, rfl⟩
    obtain ⟨⟨m', heq, hm⟩, hfirst⟩ := List.dropInfix?_eq_some_iff.mp h
    rw [eq_of_beq hm] at heq
    exact ⟨⟨p, s, heq, rfl⟩, fun p' s' h' => hfirst p' m s' h' (beq_self_eq_true m)⟩
  · rintro ⟨⟨p, s, heq, rfl⟩, hfirst⟩
    refine ⟨(p, s), List.dropInfix?_eq_some_iff.mpr ⟨⟨m, heq, beq_self_eq_true m⟩, ?_⟩, rfl⟩
    intro p' m' s' h' hm
    rw [eq_of_beq hm] at h'
    exact hfirst p' s' h'

theorem index_eq_none_iff : index m u = none ↔ ¬m <:+: u := by
  constructor
  · rintro hnone ⟨p, s, heq⟩
    have hex : ∃ n, ∃ p s, u = p ++ m ++ s ∧ p.length = n := ⟨_, p, s, heq.symm, rfl⟩
    classical
    have hsome : index m u = some (Nat.find hex) := by
      refine index_eq_some_iff.mpr ⟨Nat.find_spec hex, fun p' s' h' => ?_⟩
      exact Nat.find_min' hex ⟨p', s', h', rfl⟩
    rw [hnone] at hsome
    cases hsome
  · intro hnot
    cases h : index m u with
    | none => rfl
    | some i =>
      obtain ⟨p, s, heq, -⟩ := (index_eq_some_iff.mp h).1
      exact absurd ⟨p, s, heq.symm⟩ hnot

theorem contains_iff : contains m u = true ↔ m <:+: u := by
  have hmap : contains m u = (index m u).isSome := by rw [contains, index, Option.isSome_map]
  rw [hmap, ← not_iff_not, ← index_eq_none_iff, Option.not_isSome_iff_eq_none]

theorem contains_eq_false_iff : contains m u = false ↔ ¬m <:+: u := by
  rw [← contains_iff, Bool.not_eq_true]

theorem prefix_drop_of_index (h : index m u = some i) : m <+: u.drop i := by
  obtain ⟨p, s, rfl, rfl⟩ := (index_eq_some_iff.mp h).1
  rw [List.append_assoc, List.drop_left]
  exact List.prefix_append m s

theorem add_length_le_of_index (h : index m u = some i) : i + m.length ≤ u.length := by
  obtain ⟨p, s, rfl, rfl⟩ := (index_eq_some_iff.mp h).1
  simp only [List.length_append]
  omega

theorem index_eq_zero (h : m <+: u) : index m u = some 0 := by
  obtain ⟨s, rfl⟩ := h
  exact index_eq_some_iff.mpr ⟨⟨[], s, rfl, rfl⟩, fun p s h => Nat.zero_le _⟩

/-- What is found in the beginning of a list is what is found in the list, if it lies there. -/
theorem index_of_append : index m v = some i ↔
    index m (v ++ x) = some i ∧ i + m.length ≤ v.length := by
  constructor
  · intro h
    refine ⟨?_, add_length_le_of_index h⟩
    obtain ⟨⟨p, s, rfl, rfl⟩, hfirst⟩ := index_eq_some_iff.mp h
    refine index_eq_some_iff.mpr ⟨⟨p, s ++ x, by simp only [List.append_assoc], rfl⟩, ?_⟩
    intro p' s' h'
    by_contra hlt
    have hbegin : p' ++ m <+: p ++ m ++ s := by
      refine List.prefix_of_prefix_length_le ⟨s', h'.symm⟩ ⟨x, rfl⟩ ?_
      simp only [List.length_append]
      omega
    obtain ⟨t, ht⟩ := hbegin
    exact hlt (hfirst p' t ht.symm)
  · rintro ⟨h, hle⟩
    obtain ⟨⟨p, s, heq, rfl⟩, hfirst⟩ := index_eq_some_iff.mp h
    have hbegin : p ++ m <+: v := by
      refine List.prefix_of_prefix_length_le ⟨s, heq.symm⟩ ⟨x, rfl⟩ ?_
      rw [List.length_append]
      exact hle
    obtain ⟨t, ht⟩ := hbegin
    refine index_eq_some_iff.mpr ⟨⟨p, t, ht.symm, rfl⟩, fun p' s' h' => ?_⟩
    exact hfirst p' (s' ++ x) (by rw [h', List.append_assoc])

theorem index_of_isPrefix (h : v <+: u) : index m v = some i ↔
    index m u = some i ∧ i + m.length ≤ v.length := by
  obtain ⟨x, rfl⟩ := h
  exact index_of_append

theorem index_eq_none_of_isInfix (h : v <:+: u) (hnone : index m u = none) : index m v = none :=
  index_eq_none_iff.mpr fun hm => index_eq_none_iff.mp hnone (hm.trans h)

/-- No list that begins with another element is found within a beginning. -/
theorem index_append_left {a : α} (ha : a ∉ p) :
    index (a :: m) (p ++ u) = (index (a :: m) u).map (p.length + ·) := by
  have hle : ∀ q s, p ++ u = q ++ (a :: m) ++ s → p.length ≤ q.length := by
    intro q s heq
    by_contra hlt
    have hget : p[q.length]? = some a := by
      have hat := congrArg (·[q.length]?) heq
      rw [List.append_assoc] at hat
      simp only [List.getElem?_append_left (show q.length < p.length by omega),
        List.getElem?_append_right le_rfl, Nat.sub_self] at hat
      exact hat
    exact ha (List.mem_of_getElem? hget)
  have hdrop : ∀ q s, p ++ u = q ++ (a :: m) ++ s → u = q.drop p.length ++ (a :: m) ++ s := by
    intro q s heq
    have hat := congrArg (List.drop p.length) heq
    rwa [List.drop_left, List.append_assoc, List.drop_append_of_le_length (hle q s heq),
      ← List.append_assoc] at hat
  cases h : index (a :: m) u with
  | none =>
    rw [Option.map_none]
    refine index_eq_none_iff.mpr ?_
    rintro ⟨q, s, heq⟩
    exact index_eq_none_iff.mp h ⟨_, s, (hdrop q s heq.symm).symm⟩
  | some i =>
    obtain ⟨⟨q, s, rfl, rfl⟩, hfirst⟩ := index_eq_some_iff.mp h
    rw [Option.map_some]
    refine index_eq_some_iff.mpr ⟨⟨p ++ q, s, by simp only [List.append_assoc], by simp⟩, ?_⟩
    intro q' s' heq
    have hge := hfirst _ s' (hdrop q' s' heq)
    rw [List.length_drop] at hge
    have hle' := hle q' s' heq
    omega

/-! ### The first of several marks -/

def earlier (minEndIdx : ℕ) : Option ℕ → ℕ
  | some idx => if idx > 0 ∧ idx < minEndIdx then idx else minEndIdx
  | none => minEndIdx

/-- The first place of one of the marks, except at the very beginning, and else the end. -/
def endIndex (marks : List (List α)) (u : List α) : ℕ :=
  marks.foldl (fun minEndIdx marker => earlier minEndIdx (index marker u)) u.length

/-- What is before the first mark. -/
def cut (marks : List (List α)) (u : List α) : List α := u.take (endIndex marks u)

theorem endIndex_concat :
    endIndex (marks ++ [m]) u = earlier (endIndex marks u) (index m u) := by
  simp only [endIndex, List.foldl_append, List.foldl_cons, List.foldl_nil]

/-- The end is the end of the list or the place of a mark, and no mark is before it. -/
theorem endIndex_spec (marks : List (List α)) (u : List α) : (endIndex marks u = u.length ∨
      0 < endIndex marks u ∧ ∃ m ∈ marks, index m u = some (endIndex marks u)) ∧
    ∀ m ∈ marks, ∀ i, index m u = some i → 0 < i → endIndex marks u ≤ i := by
  induction marks using List.reverseRecOn with
  | nil => exact ⟨.inl rfl, fun m hm => absurd hm List.not_mem_nil⟩
  | append_singleton marks m ih =>
    obtain ⟨hend, hfirst⟩ := ih
    have hmem : ∀ m' ∈ marks, m' ∈ marks ++ [m] := fun m' hm' => List.mem_append_left _ hm'
    have hkept : (endIndex marks u = u.length ∨
        0 < endIndex marks u ∧ ∃ m' ∈ marks ++ [m], index m' u = some (endIndex marks u)) :=
      hend.imp_right fun ⟨hpos, m', hm', hat⟩ => ⟨hpos, m', hmem m' hm', hat⟩
    rw [endIndex_concat]
    cases h : index m u with
    | none =>
      rw [earlier]
      refine ⟨hkept, fun m' hm' i hi hpos => ?_⟩
      rcases List.mem_append.mp hm' with hm' | hm'
      · exact hfirst m' hm' i hi hpos
      · rw [List.mem_singleton.mp hm', h] at hi
        cases hi
    | some idx =>
      rw [earlier]
      split_ifs with hlt
      · refine ⟨.inr ⟨hlt.1, m, by simp, h⟩, fun m' hm' i hi hpos => ?_⟩
        rcases List.mem_append.mp hm' with hm' | hm'
        · exact hlt.2.le.trans (hfirst m' hm' i hi hpos)
        · rw [List.mem_singleton.mp hm', h] at hi
          exact (Option.some.inj hi).le
      · refine ⟨hkept, fun m' hm' i hi hpos => ?_⟩
        rcases List.mem_append.mp hm' with hm' | hm'
        · exact hfirst m' hm' i hi hpos
        · rw [List.mem_singleton.mp hm', h] at hi
          have heq := Option.some.inj hi
          omega

theorem cut_isPrefix : cut marks u <+: u := List.take_prefix _ u

theorem endIndex_le : endIndex marks u ≤ u.length := by
  rcases (endIndex_spec marks u).1 with h | ⟨-, m, -, h⟩
  · exact h.le
  · have hle := add_length_le_of_index h
    omega

theorem length_cut : (cut marks u).length = endIndex marks u := by
  rw [cut, List.length_take, min_eq_left endIndex_le]

theorem cut_eq_self_iff (hne : ∀ m ∈ marks, m ≠ []) :
    cut marks u = u ↔ ∀ m ∈ marks, ∀ i, index m u = some i → i = 0 := by
  constructor
  · intro h m hm i hi
    by_contra hi0
    have hle := (endIndex_spec _ _).2 m hm i hi (Nat.pos_of_ne_zero hi0)
    have hlen := congrArg List.length h
    rw [length_cut] at hlen
    have hbound := add_length_le_of_index hi
    have hpos := List.length_pos_iff.mpr (hne m hm)
    omega
  · intro h
    rcases (endIndex_spec marks u).1 with hend | ⟨hpos, m, hm, hi⟩
    · rw [cut, hend, List.take_length]
    · exact absurd (h m hm _ hi) hpos.ne'

theorem cut_cut (hne : ∀ m ∈ marks, m ≠ []) : cut marks (cut marks u) = cut marks u := by
  refine (cut_eq_self_iff hne).mpr fun m hm i hi => ?_
  obtain ⟨hi, hle⟩ := (index_of_isPrefix cut_isPrefix).mp hi
  by_contra hi0
  have hend := (endIndex_spec _ _).2 m hm i hi (Nat.pos_of_ne_zero hi0)
  have hpos := List.length_pos_iff.mpr (hne m hm)
  rw [length_cut] at hle
  omega

/-- Every list begins with an element that is not one of `p`. -/
def Foreign (p : List α) (marks : List (List α)) : Prop := ∀ m ∈ marks, ∃ a ∈ m.head?, a ∉ p

instance (p : List α) (marks : List (List α)) : Decidable (Foreign p marks) :=
  inferInstanceAs (Decidable (∀ m ∈ marks, _))

omit [DecidableEq α] in
theorem Foreign.ne_nil (h : Foreign p marks) : ∀ m ∈ marks, m ≠ [] := by
  rintro m hm rfl
  obtain ⟨a, ha, -⟩ := h _ hm
  cases ha

theorem Foreign.index_append (h : Foreign p marks) (hm : m ∈ marks) :
    index m (p ++ u) = (index m u).map (p.length + ·) := by
  obtain ⟨a, ha, hnot⟩ := h m hm
  obtain ⟨m', rfl⟩ := List.head?_eq_some_iff.mp ha
  exact index_append_left hnot

theorem Foreign.length_le (h : Foreign p marks) (hp : p <+: u) (hm : m ∈ marks)
    (hi : index m u = some i) : p.length ≤ i := by
  obtain ⟨x, rfl⟩ := hp
  rw [h.index_append hm] at hi
  obtain ⟨j, -, hj⟩ := Option.map_eq_some_iff.mp hi
  omega

theorem Foreign.prefix_cut (h : Foreign p marks) (hp : p <+: u) : p <+: cut marks u := by
  refine List.prefix_of_prefix_length_le hp cut_isPrefix ?_
  rw [length_cut]
  rcases (endIndex_spec marks u).1 with hend | ⟨-, m, hm, hi⟩
  · rw [hend]
    exact hp.length_le
  · exact h.length_le hp hm hi

/-- A list that begins with elements foreign to the marks is not cut just when it has no mark. -/
theorem Foreign.cut_eq_self_iff (h : Foreign p marks) (hp : p <+: u) (hne : p ≠ []) :
    cut marks u = u ↔ ∀ m ∈ marks, ¬m <:+: u := by
  rw [Search.cut_eq_self_iff h.ne_nil]
  have hpos := List.length_pos_iff.mpr hne
  constructor
  · intro hzero m hm
    rw [← index_eq_none_iff]
    cases hi : index m u with
    | none => rfl
    | some i =>
      have hi0 := hzero m hm i hi
      have hle := h.length_le hp hm hi
      omega
  · intro hnot m hm i hi
    rw [index_eq_none_iff.mpr (hnot m hm)] at hi
    cases hi

/-! ### A part in the place of another -/

/-- `strings.Replace(u, old, new, 1)`. -/
def replaceOnce (old new u : List α) : List α :=
  match u.dropInfix? old with
  | some (p, s) => p ++ new ++ s
  | none => u

theorem replaceOnce_of_index (h : index m u = some i) :
    ∃ p s, u = p ++ m ++ s ∧ p.length = i ∧ ∀ new, replaceOnce m new u = p ++ new ++ s := by
  obtain ⟨⟨p, s⟩, hdrop, rfl⟩ := Option.map_eq_some_iff.mp h
  obtain ⟨⟨m', heq, hm⟩, -⟩ := List.dropInfix?_eq_some_iff.mp hdrop
  rw [eq_of_beq hm] at heq
  exact ⟨p, s, heq, rfl, fun new => by rw [replaceOnce, hdrop]⟩

theorem replaceOnce_of_not_isInfix (h : ¬m <:+: u) (new : List α) : replaceOnce m new u = u := by
  have hnone := Option.map_eq_none_iff.mp (index_eq_none_iff.mpr h)
  rw [replaceOnce, hnone]

/-- The two lists can be read at one place. -/
def Fit (a b : List α) : Prop := a <+: b ∨ b <+: a

instance (a b : List α) : Decidable (Fit a b) := inferInstanceAs (Decidable (_ ∨ _))

/-- There is no way to lay the list `m` over the list `d`. -/
def Apart (m d : List α) : Prop :=
  (∀ k < m.length, ¬Fit (m.drop k) d) ∧ ∀ k < d.length, ¬Fit (d.drop k) m

instance (m d : List α) : Decidable (Apart m d) := inferInstanceAs (Decidable (_ ∧ _))

omit [DecidableEq α] in
theorem fit_of_append {a b s t : List α} (h : a ++ s = b ++ t) : Fit a b :=
  List.prefix_or_prefix_of_prefix (List.prefix_append a s) (h ▸ List.prefix_append b t)

/-- A list that cannot be laid over itself is found behind a list that does not have it. -/
theorem index_append_self (hself : ∀ k < m.length, 0 < k → ¬Fit (m.drop k) m)
    (h : ¬m <:+: p) : index m (p ++ m ++ s) = some p.length := by
  refine index_eq_some_iff.mpr ⟨⟨p, s, rfl, rfl⟩, fun q t heq => ?_⟩
  by_contra hlt
  rw [List.append_assoc, List.append_assoc] at heq
  obtain ⟨r, rfl⟩ := List.prefix_of_prefix_length_le ⟨_, heq.symm⟩ ⟨_, rfl⟩ (not_le.mp hlt).le
  rw [List.append_assoc, List.append_cancel_left_eq] at heq
  rcases lt_or_ge r.length m.length with hr | hr
  · have hfit := congrArg (List.drop r.length) heq
    rw [List.drop_left, List.drop_append_of_le_length hr.le] at hfit
    have hpos : 0 < r.length := by
      rw [List.length_append] at hlt
      omega
    exact hself _ hr hpos (fit_of_append hfit.symm)
  · obtain ⟨w, rfl⟩ := List.prefix_of_prefix_length_le ⟨_, heq.symm⟩ ⟨_, rfl⟩ hr
    exact h ⟨q, w, by rw [List.append_assoc]⟩

omit [DecidableEq α] in
theorem Apart.isInfix {d : List α} (h : Apart m d) (hm : m <:+: p ++ d ++ s) :
    m <:+: p ∨ m <:+: s := by
  obtain ⟨q, t, heq⟩ := hm
  rw [List.append_assoc, List.append_assoc] at heq
  rcases le_total q.length p.length with hle | hle
  · -- the list starts before the part
    obtain ⟨r, rfl⟩ := List.prefix_of_prefix_length_le ⟨_, rfl⟩ ⟨_, heq.symm⟩ hle
    rw [List.append_assoc, List.append_cancel_left_eq] at heq
    rcases lt_or_ge r.length m.length with hlt | hge
    · have hfit := congrArg (List.drop r.length) heq
      rw [List.drop_append_of_le_length hlt.le, List.drop_left] at hfit
      exact absurd (fit_of_append hfit) (h.1 _ hlt)
    · obtain ⟨w, rfl⟩ := List.prefix_of_prefix_length_le ⟨_, heq⟩ ⟨_, rfl⟩ hge
      exact .inl ⟨q, w, by rw [List.append_assoc]⟩
  · obtain ⟨r, rfl⟩ := List.prefix_of_prefix_length_le ⟨_, heq.symm⟩ ⟨_, rfl⟩ hle
    rw [List.append_assoc, List.append_cancel_left_eq] at heq
    rcases lt_or_ge r.length d.length with hlt | hge
    · have hfit := congrArg (List.drop r.length) heq
      rw [List.drop_left, List.drop_append_of_le_length hlt.le] at hfit
      exact absurd (fit_of_append hfit.symm) (h.2 _ hlt)
    · obtain ⟨w, rfl⟩ := List.prefix_of_prefix_length_le ⟨_, rfl⟩ ⟨_, heq⟩ hge
      rw [List.append_assoc, List.append_cancel_left_eq] at heq
      exact .inr ⟨w, t, by rw [← heq, List.append_assoc]⟩

end AllInOneBackup.Data.Search
