import AllInOneBackup.Cloud123.FolderCleanup.Requests
import Mathlib.Order.Lattice.Nat

/-! Which folders of a tree are deleted when all requests succeed. -/

namespace AllInOneBackup.Cloud123.FolderCleanup

open Data

/-! ### Trees under a root -/

/-- Every node is in the root or in a folder of the tree, which has the same folders above it. -/
def Rooted (root : Text) (tree : Tree) : Prop :=
  ∀ n ∈ tree, ∃ p rest, n.above = p :: rest ∧
    (p = root ∧ rest = [] ∨ ∃ m ∈ tree, m.isDir ∧ m.id = p ∧ m.above = rest)

/-- A tree with unique ids. -/
structure Grown (root : Text) (tree : Tree) : Prop where
  rooted : Rooted root tree
  unique : ∀ n ∈ tree, ∀ m ∈ tree, n.id = m.id → n = m
  fresh : ∀ n ∈ tree, n.id ≠ root

variable {root : Text} {tree : Tree}

theorem mem_entries {n : Node} {cid : Text} :
    n ∈ entries tree cid ↔ n ∈ tree ∧ n.above.head? = some cid := by
  rw [entries, List.mem_filter, decide_eq_true_eq]

theorem Rooted.remove (h : Rooted root tree) (cid : Text) : Rooted root (remove tree cid) := by
  intro n hn
  obtain ⟨hn, hkept⟩ := List.mem_filter.mp hn
  obtain ⟨-, habove⟩ := decide_eq_true_eq.mp hkept
  obtain ⟨p, rest, heq, hparent⟩ := h n hn
  refine ⟨p, rest, heq, hparent.imp_right ?_⟩
  rintro ⟨m, hm, hdir, hid, hrest⟩
  refine ⟨m, List.mem_filter.mpr ⟨hm, decide_eq_true ⟨?_, ?_⟩⟩, hdir, hid, hrest⟩
  · rintro rfl
    exact habove (heq ▸ hid ▸ List.mem_cons_self)
  · rw [hrest]
    exact fun hmem => habove (heq ▸ List.mem_cons_of_mem p hmem)

/-- What is below a folder is one of its entries or below one. -/
theorem Rooted.exists_entry (h : Rooted root tree) {n : Node} (hn : n ∈ tree) {cid : Text}
    (hcid : cid ∈ n.above) : ∃ e ∈ entries tree cid, e = n ∨ e.id ∈ n.above := by
  induction hlen : n.above.length generalizing n with
  | zero => simp [List.length_eq_zero_iff.mp hlen] at hcid
  | succ k ih =>
    obtain ⟨p, rest, heq, hparent⟩ := h n hn
    rcases List.mem_cons.mp (heq ▸ hcid) with rfl | hrest
    · exact ⟨n, mem_entries.mpr ⟨hn, by rw [heq, List.head?_cons]⟩, .inl rfl⟩
    · obtain ⟨-, rfl⟩ | ⟨m, hm, -, rfl, rfl⟩ := hparent
      · exact absurd hrest List.not_mem_nil
      · have hshort : m.above.length = k := by simpa [heq] using hlen
        obtain ⟨e, he, hwhere⟩ := ih hm hrest hshort
        refine ⟨e, he, .inr ?_⟩
        rw [heq]
        rcases hwhere with rfl | habove
        · exact List.mem_cons_self
        · exact List.mem_cons_of_mem _ habove

theorem remove_of_entries_nil (h : Rooted root tree) {cid : Text} (hnil : entries tree cid = []) :
    remove tree cid = tree.filter fun n => n.id ≠ cid := by
  apply List.filter_congr
  intro n hn
  have hnot : cid ∉ n.above := by
    intro hmem
    obtain ⟨e, he, -⟩ := h.exists_entry hn hmem
    rw [hnil] at he
    exact List.not_mem_nil he
  simp only [hnot, not_false_eq_true, and_true]

namespace Grown

variable (h : Grown root tree)

include h

theorem above_entry {n e : Node} (hn : n ∈ tree) (he : e ∈ entries tree n.id) :
    e.above = n.id :: n.above := by
  obtain ⟨he, hhead⟩ := mem_entries.mp he
  obtain ⟨p, rest, heq, hparent⟩ := h.rooted e he
  rw [heq, List.head?_cons, Option.some.injEq] at hhead
  subst hhead
  obtain ⟨hroot, -⟩ | ⟨m, hm, -, hid, rfl⟩ := hparent
  · exact absurd hroot (h.fresh n hn)
  · rw [heq, h.unique m hm n hn hid]

/-- The folder that an entry is in is above what is below the entry. -/
theorem above_subset {n e : Node} (hn : n ∈ tree) (he : e ∈ tree) (habove : e.id ∈ n.above) :
    e.above ⊆ n.above := by
  induction hlen : n.above.length generalizing n with
  | zero => simp [List.length_eq_zero_iff.mp hlen] at habove
  | succ k ih =>
    obtain ⟨p, rest, heq, hparent⟩ := h.rooted n hn
    rcases List.mem_cons.mp (heq ▸ habove) with hid | hrest
    · obtain ⟨hroot, -⟩ | ⟨m, hm, -, hmid, rfl⟩ := hparent
      · exact absurd (hid.trans hroot) (h.fresh e he)
      · rw [heq, h.unique e he m hm (hid.trans hmid.symm)]
        exact List.subset_cons_self p m.above
    · obtain ⟨-, rfl⟩ | ⟨m, hm, -, -, rfl⟩ := hparent
      · exact absurd hrest List.not_mem_nil
      · have hshort : m.above.length = k := by simpa [heq] using hlen
        rw [heq]
        exact List.Subset.trans (ih hm hrest hshort) (List.subset_cons_self p m.above)

/-- What is above another node is a folder. -/
theorem isDir_of_mem_above {n e : Node} (hn : n ∈ tree) (he : e ∈ tree) (habove : e.id ∈ n.above) :
    e.isDir = true := by
  induction hlen : n.above.length generalizing n with
  | zero => simp [List.length_eq_zero_iff.mp hlen] at habove
  | succ k ih =>
    obtain ⟨p, rest, heq, hparent⟩ := h.rooted n hn
    rcases List.mem_cons.mp (heq ▸ habove) with hid | hrest
    · obtain ⟨hroot, -⟩ | ⟨m, hm, hdir, hmid, -⟩ := hparent
      · exact absurd (hid.trans hroot) (h.fresh e he)
      · rwa [h.unique e he m hm (hid.trans hmid.symm)]
    · obtain ⟨-, rfl⟩ | ⟨m, hm, -, -, rfl⟩ := hparent
      · exact absurd hrest List.not_mem_nil
      · exact ih hm hrest (by simpa [heq] using hlen)

end Grown

/-! ### Own turns -/

variable (tree) (recorded : List Text)

/-- Whether a folder is deleted on its own turn, as far as `n` folders down. -/
def ownUpTo : ℕ → Text → Bool
  | 0, _ => false
  | n + 1, cid => decide (cid ∈ recorded) && !(entries tree cid).any fun e => ownUpTo n e.id

def height : ℕ := (tree.map fun n => n.above.length).foldr max 0

/-- A recorded folder none of whose entries has its own turn is deleted on its own turn; another
folder is deleted with the last of its entries that are. -/
def own (cid : Text) : Bool := ownUpTo tree recorded (height tree + 1) cid

variable {tree recorded}

theorem length_above_le {n : Node} (hn : n ∈ tree) : n.above.length ≤ height tree := by
  induction tree with
  | nil => exact absurd hn List.not_mem_nil
  | cons m tree ih =>
    rw [height, List.map_cons, List.foldr_cons]
    rcases List.mem_cons.mp hn with rfl | hn
    · exact le_max_left _ _
    · exact (ih hn).trans (le_max_right _ _)

theorem ownUpTo_congr (h : Grown root tree) {n : Node} (hn : n ∈ tree) {a b : ℕ}
    (ha : height tree < a + n.above.length) (ha' : 0 < a)
    (hb : height tree < b + n.above.length) (hb' : 0 < b) :
    ownUpTo tree recorded a n.id = ownUpTo tree recorded b n.id := by
  induction a generalizing b n with
  | zero => exact absurd ha' (lt_irrefl 0)
  | succ a ih =>
    cases b with
    | zero => exact absurd hb' (lt_irrefl 0)
    | succ b =>
      have hentries : ∀ e ∈ entries tree n.id,
          ownUpTo tree recorded a e.id = ownUpTo tree recorded b e.id := by
        intro e he
        have hmem := (mem_entries.mp he).1
        have hlen := congrArg List.length (h.above_entry hn he)
        have hle := length_above_le hmem
        rw [List.length_cons] at hlen
        exact ih hmem (by omega) (by omega) (by omega) (by omega)
      rw [Bool.eq_iff_iff]
      simp only [ownUpTo, Bool.and_eq_true, Bool.not_eq_true', List.any_eq_false, Bool.not_eq_true]
      refine and_congr_right fun _ => forall₂_congr fun e he => ?_
      rw [hentries e he]

theorem own_iff (h : Grown root tree) {n : Node} (hn : n ∈ tree) :
    own tree recorded n.id = true ↔
      n.id ∈ recorded ∧ ∀ e ∈ entries tree n.id, own tree recorded e.id = false := by
  have hentries : ∀ e ∈ entries tree n.id,
      ownUpTo tree recorded (height tree) e.id = own tree recorded e.id := by
    intro e he
    have hmem := (mem_entries.mp he).1
    have hlen := congrArg List.length (h.above_entry hn he)
    have hle := length_above_le hmem
    rw [List.length_cons] at hlen
    exact ownUpTo_congr h hmem (by omega) (by omega) (by omega) (by omega)
  rw [own]
  simp only [ownUpTo, Bool.and_eq_true, decide_eq_true_eq, Bool.not_eq_true', List.any_eq_false,
    Bool.not_eq_true]
  refine and_congr_right fun _ => forall₂_congr fun e he => ?_
  rw [hentries e he]

/-! ### Folders that should go -/

variable (tree recorded)

def AtOrBelow (cid : Text) (n : Node) : Prop := n.id = cid ∨ cid ∈ n.above

/-- A recorded folder, or one above. -/
def LeadsToRecorded (cid : Text) : Prop := ∃ m ∈ tree, m.id ∈ recorded ∧ AtOrBelow cid m

/-- All that is left of it are folders that lead to recorded ones. -/
def Vanishing (cid : Text) : Prop :=
  (∃ n ∈ tree, n.id = cid) ∧
    ∀ n ∈ tree, AtOrBelow cid n → n.isDir = true ∧ LeadsToRecorded tree recorded n.id

/-- The folder is looked at when its entries are gone. -/
def LookedAt (cid : Text) : Prop :=
  cid ∈ recorded ∨ ∃ e ∈ entries tree cid, own tree recorded e.id = true

/-- What is deleted in the end. -/
def Gone (cid : Text) : Prop :=
  Vanishing tree recorded cid ∧ ∀ n ∈ tree, AtOrBelow cid n → LookedAt tree recorded n.id

/-- What is deleted when the folders of `before` had their turns. -/
def Emptied (before : List Text) (cid : Text) : Prop :=
  Gone tree recorded cid ∧
    if own tree recorded cid then cid ∈ before
    else ∀ e ∈ entries tree cid, own tree recorded e.id = true → e.id ∈ before

variable {tree recorded}

theorem Grown.atOrBelow_iff (h : Grown root tree) {n m : Node} (hn : n ∈ tree) (hm : m ∈ tree) :
    AtOrBelow n.id m ↔ m = n ∨ ∃ e ∈ entries tree n.id, AtOrBelow e.id m := by
  constructor
  · rintro (hid | habove)
    · exact .inl (h.unique m hm n hn hid)
    · obtain ⟨e, he, hwhere⟩ := h.rooted.exists_entry hm habove
      refine .inr ⟨e, he, ?_⟩
      rcases hwhere with rfl | hbelow
      · exact .inl rfl
      · exact .inr hbelow
  · rintro (rfl | ⟨e, he, hbelow⟩)
    · exact .inl rfl
    · have hmem := (mem_entries.mp he).1
      have hin : n.id ∈ e.above := h.above_entry hn he ▸ List.mem_cons_self
      rcases hbelow with hid | habove
      · exact .inr (h.unique m hm e hmem hid ▸ hin)
      · exact .inr (h.above_subset hm hmem habove hin)

theorem Vanishing.entry (h : Grown root tree) {n e : Node} (hn : n ∈ tree)
    (he : e ∈ entries tree n.id) (hvanishing : Vanishing tree recorded n.id) :
    Vanishing tree recorded e.id :=
  ⟨⟨e, (mem_entries.mp he).1, rfl⟩, fun m hm hbelow =>
    hvanishing.2 m hm ((h.atOrBelow_iff hn hm).mpr (.inr ⟨e, he, hbelow⟩))⟩

/-- A folder is gone when it is looked at and its entries are. -/
theorem gone_iff (h : Grown root tree) {n : Node} (hn : n ∈ tree) :
    Gone tree recorded n.id ↔
      n.isDir = true ∧ LeadsToRecorded tree recorded n.id ∧ LookedAt tree recorded n.id ∧
        ∀ e ∈ entries tree n.id, Gone tree recorded e.id := by
  constructor
  · rintro ⟨⟨-, hall⟩, hlooked⟩
    obtain ⟨hdir, hleads⟩ := hall n hn (.inl rfl)
    refine ⟨hdir, hleads, hlooked n hn (.inl rfl), ?_⟩
    intro e he
    have hbelow : ∀ m ∈ tree, AtOrBelow e.id m → AtOrBelow n.id m := fun m hm hbelow =>
      (h.atOrBelow_iff hn hm).mpr (.inr ⟨e, he, hbelow⟩)
    exact ⟨⟨⟨e, (mem_entries.mp he).1, rfl⟩, fun m hm hm' => hall m hm (hbelow m hm hm')⟩,
      fun m hm hm' => hlooked m hm (hbelow m hm hm')⟩
  · rintro ⟨hdir, hleads, hlooked, hentries⟩
    refine ⟨⟨⟨n, hn, rfl⟩, ?_⟩, ?_⟩
    · intro m hm hbelow
      rcases (h.atOrBelow_iff hn hm).mp hbelow with rfl | ⟨e, he, hbelow⟩
      · exact ⟨hdir, hleads⟩
      · exact (hentries e he).1.2 m hm hbelow
    · intro m hm hbelow
      rcases (h.atOrBelow_iff hn hm).mp hbelow with rfl | ⟨e, he, hbelow⟩
      · exact hlooked
      · exact (hentries e he).2 m hm hbelow

/-- Where a folder without an own turn is looked at, an entry has one. -/
theorem LookedAt.exists_own (h : Grown root tree) {n : Node} (hn : n ∈ tree)
    (hlooked : LookedAt tree recorded n.id) (hown : own tree recorded n.id ≠ true) :
    ∃ e ∈ entries tree n.id, own tree recorded e.id = true := by
  obtain hmem | hentry := hlooked
  · by_contra hnone
    refine hown ((own_iff h hn).mpr ⟨hmem, fun e he => ?_⟩)
    exact Bool.eq_false_iff.mpr fun howne => hnone ⟨e, he, howne⟩
  · exact hentry

theorem Emptied.exists_node {before : List Text} {cid : Text}
    (h : Emptied tree recorded before cid) : ∃ n ∈ tree, n.id = cid := h.1.1.1

/-! ### A turn -/

section Turn

variable (h : Grown root tree) {before : List Text} {c : Node} (hc : c ∈ tree)
  (hrecorded : c.id ∈ recorded) (hdir : c.isDir = true)
  (hdeep : ∀ n ∈ tree, n.id ∈ recorded → c.above.length < n.above.length → n.id ∈ before)

include h in
/-- Only folders with an own turn count. -/
theorem emptied_concat_of_not_own {cid : Text} {x : Text}
    (hx : ∀ n ∈ tree, n.id = x → ¬(Gone tree recorded x ∧ own tree recorded x = true)) :
    Emptied tree recorded (before ++ [x]) cid ↔ Emptied tree recorded before cid := by
  refine and_congr_right fun hgone => ?_
  have hmem : ∀ n ∈ tree, Gone tree recorded n.id → own tree recorded n.id = true →
      (n.id ∈ before ++ [x] ↔ n.id ∈ before) := by
    intro n hn hgone hown
    rw [List.mem_append, List.mem_singleton, or_iff_left]
    rintro rfl
    exact hx n hn rfl ⟨hgone, hown⟩
  obtain ⟨n, hn, rfl⟩ := hgone.1.1
  split_ifs with hown
  · exact hmem n hn hgone hown
  · have hentries := ((gone_iff h hn).mp hgone).2.2.2
    refine forall₂_congr fun e he => ?_
    exact imp_congr_right fun hown => hmem e (mem_entries.mp he).1 (hentries e he) hown

include h hdeep in
/-- A folder without an own turn, as deep as `c`, is deleted before `c` has its turn. -/
theorem emptied_of_deep {e : Node} (he : e ∈ tree) (hgone : Gone tree recorded e.id)
    (hown : own tree recorded e.id ≠ true) (hlen : c.above.length ≤ e.above.length) :
    Emptied tree recorded before e.id := by
  refine ⟨hgone, ?_⟩
  rw [if_neg hown]
  intro f hf hownf
  have hmem := (mem_entries.mp hf).1
  have hflen := congrArg List.length (h.above_entry he hf)
  rw [List.length_cons] at hflen
  exact hdeep f hmem ((own_iff h hmem).mp hownf).1 (by omega)

include h hc hrecorded hdir hdeep in
/-- A recorded folder that is still there has no entries left just when it is gone in the end, and
on its own turn. -/
theorem entries_emptied_iff (hthere : ¬Emptied tree recorded before c.id) :
    (∀ e ∈ entries tree c.id, Emptied tree recorded before e.id) ↔
      Gone tree recorded c.id ∧ own tree recorded c.id = true := by
  constructor
  · intro hentries
    have hgone : Gone tree recorded c.id :=
      (gone_iff h hc).mpr ⟨hdir, ⟨c, hc, hrecorded, .inl rfl⟩, .inl hrecorded,
        fun e he => (hentries e he).1⟩
    refine ⟨hgone, by_contra fun hown => hthere ⟨hgone, ?_⟩⟩
    rw [if_neg hown]
    intro e he hown'
    have hemptied := (hentries e he).2
    rwa [if_pos hown'] at hemptied
  · rintro ⟨hgone, hown⟩ e he
    have hnot := ((own_iff h hc).mp hown).2 e he
    have hlen := congrArg List.length (h.above_entry hc he)
    rw [List.length_cons] at hlen
    exact emptied_of_deep h hdeep (mem_entries.mp he).1 (((gone_iff h hc).mp hgone).2.2.2 e he)
      (by simp [hnot]) (by omega)

theorem Emptied.concat {cid : Text} (hemptied : Emptied tree recorded before cid) (x : Text) :
    Emptied tree recorded (before ++ [x]) cid := by
  refine ⟨hemptied.1, ?_⟩
  have hwhen := hemptied.2
  split_ifs at hwhen ⊢
  · exact List.mem_append_left [x] hwhen
  · exact fun e he hown => List.mem_append_left [x] (hwhen e he hown)

variable (hgone : Gone tree recorded c.id) (hown : own tree recorded c.id = true)

include hgone hown in
/-- The turn of `c` takes `c`, and nothing else but a folder that `c` is in. -/
theorem emptied_concat_iff {n : Node} (hother : c ∉ entries tree n.id)
    (hunique : ∀ e ∈ tree, e.id = c.id → e = c) :
    Emptied tree recorded (before ++ [c.id]) n.id ↔
      Emptied tree recorded before n.id ∨ n.id = c.id := by
  constructor
  · rintro ⟨hgone', hwhen⟩
    by_cases hown' : own tree recorded n.id = true
    · rw [if_pos hown', List.mem_append, List.mem_singleton] at hwhen
      refine hwhen.imp_left fun hbefore => ⟨hgone', ?_⟩
      rwa [if_pos hown']
    · rw [if_neg hown'] at hwhen
      refine .inl ⟨hgone', ?_⟩
      rw [if_neg hown']
      intro e he howne
      refine (List.mem_append.mp (hwhen e he howne)).resolve_right fun heq => hother ?_
      rwa [← hunique e (mem_entries.mp he).1 (List.mem_singleton.mp heq)]
  · rintro (hemptied | hid)
    · exact hemptied.concat c.id
    · rw [hid]
      refine ⟨hgone, ?_⟩
      rw [if_pos hown]
      exact List.mem_append_right before List.mem_cons_self

include h hc hrecorded hdeep hgone hown in
/-- The folder that `c` is in goes with `c` just when `c` is the last in it. -/
theorem parent_emptied_iff {p : Node} (hp : p ∈ tree) (hpdir : p.isDir = true)
    (hin : c ∈ entries tree p.id) :
    (∀ e ∈ entries tree p.id, Emptied tree recorded before e.id ∨ e.id = c.id) ↔
      Emptied tree recorded (before ++ [c.id]) p.id := by
  have hnot : own tree recorded p.id ≠ true := by
    intro hownp
    have hfalse := ((own_iff h hp).mp hownp).2 c hin
    rw [hown] at hfalse
    cases hfalse
  constructor
  · intro hentries
    have hbelow : AtOrBelow p.id c := (h.atOrBelow_iff hp hc).mpr (.inr ⟨c, hin, .inl rfl⟩)
    have hpgone : Gone tree recorded p.id := by
      refine (gone_iff h hp).mpr ⟨hpdir, ⟨c, hc, hrecorded, hbelow⟩, .inr ⟨c, hin, hown⟩, ?_⟩
      intro e he
      rcases hentries e he with hemptied | hid
      · exact hemptied.1
      · rwa [hid]
    refine ⟨hpgone, ?_⟩
    rw [if_neg hnot]
    intro e he howne
    rcases hentries e he with hemptied | hid
    · have hwhen := hemptied.2
      rw [if_pos howne] at hwhen
      exact List.mem_append_left _ hwhen
    · rw [hid]
      exact List.mem_append_right before List.mem_cons_self
  · rintro ⟨hpgone, hwhen⟩ e he
    rw [if_neg hnot] at hwhen
    have hmem := (mem_entries.mp he).1
    have hegone := ((gone_iff h hp).mp hpgone).2.2.2 e he
    by_cases howne : own tree recorded e.id = true
    · rcases List.mem_append.mp (hwhen e he howne) with hbefore | hid
      · refine .inl ⟨hegone, ?_⟩
        rwa [if_pos howne]
      · exact .inr (List.mem_singleton.mp hid)
    · have hlen : c.above.length = e.above.length := by
        rw [h.above_entry hp hin, h.above_entry hp he]
      exact .inl (emptied_of_deep h hdeep hmem hegone howne hlen.le)

end Turn

end AllInOneBackup.Cloud123.FolderCleanup
