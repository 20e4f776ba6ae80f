import Mathlib.Data.List.Basic
import Mathlib.Order.Nat
import Mathlib.Tactic.Common

/-! A file of which only what was there at the last `Sync` is safe. Until the next one a crash may
leave at every position what any content since then had there, and the length of any of them. The
lemmas follow how far contents agree with a source that the file is to become. -/

namespace AllInOneBackup.Storage

variable {α : Type*}

/-- `past` has the contents since the last `Sync`, the oldest first, but for the last one. -/
structure File (α : Type*) where
  data : List α
  past : List (List α) := []

namespace File

variable (f : File α)

def versions : List (List α) := f.past ++ [f.data]

/-- The file after a crash may have this content. -/
def Survives (d : List α) : Prop :=
  (∃ v ∈ f.versions, v.length ≤ d.length) ∧ ∀ i < d.length, ∃ v ∈ f.versions, v[i]? = d[i]?

instance [DecidableEq α] (d : List α) : Decidable (f.Survives d) := by
  unfold Survives
  infer_instance

def extend (zero : α) (data : List α) (n : ℕ) : List α :=
  data ++ List.replicate (n - data.length) zero

def overwrite (data : List α) (offset : ℕ) (bytes : List α) : List α :=
  data.take offset ++ bytes ++ data.drop (offset + bytes.length)

/-- The length may get to the disk before the bytes do. -/
def writeAt (zero : α) (offset : ℕ) (bytes : List α) : File α :=
  let grown := extend zero f.data (offset + bytes.length)
  { data := overwrite grown offset bytes, past := f.past ++ [f.data, grown] }

def truncate (zero : α) (n : ℕ) : File α :=
  { data := (extend zero f.data n).take n, past := f.versions }

/-- A `Sync` that began when there were `mark` contents before the one it saves. -/
def sync (mark : ℕ) : File α := { f with past := f.past.drop mark }

@[simp] theorem data_mem_versions : f.data ∈ f.versions :=
  List.mem_append_right _ List.mem_cons_self

theorem survives_data : f.Survives f.data :=
  ⟨⟨f.data, f.data_mem_versions, le_rfl⟩, fun _ _ => ⟨f.data, f.data_mem_versions, rfl⟩⟩

theorem versions_writeAt (zero : α) (offset : ℕ) (bytes : List α) :
    (f.writeAt zero offset bytes).versions = f.versions ++
      [extend zero f.data (offset + bytes.length), (f.writeAt zero offset bytes).data] := by
  simp [versions, writeAt]

theorem versions_truncate (zero : α) (n : ℕ) :
    (f.truncate zero n).versions = f.versions ++ [(f.truncate zero n).data] := rfl

theorem versions_sync {mark : ℕ} (h : mark ≤ f.past.length) :
    (f.sync mark).versions = f.versions.drop mark := by
  rw [versions, versions, sync, List.drop_append_of_le_length h]

theorem versions_sync_all : (f.sync f.past.length).versions = [f.data] := by
  rw [versions, sync, List.drop_length, List.nil_append]

end File

/-! ### Agreement with a source -/

variable {source v d : List α} {n m : ℕ}

/-- Below `n` there is nothing but what the source has there. -/
def Agrees (source v : List α) (n : ℕ) : Prop :=
  ∀ i < n, ∀ b, v[i]? = some b → source[i]? = some b

/-- The first `n` elements are there and those of the source. -/
def Has (source v : List α) (n : ℕ) : Prop := n ≤ v.length ∧ Agrees source v n

theorem Agrees.mono (h : Agrees source v n) (hm : m ≤ n) : Agrees source v m :=
  fun i hi => h i (hi.trans_le hm)

theorem Has.mono (h : Has source v n) (hm : m ≤ n) : Has source v m :=
  ⟨hm.trans h.1, h.2.mono hm⟩

theorem Agrees.of_length_le (h : Agrees source v n) (hv : v.length ≤ n) : Agrees source v m := by
  intro i _ b hb
  obtain ⟨hi, -⟩ := List.getElem?_eq_some_iff.mp hb
  exact h i (hi.trans_le hv) b hb

theorem Agrees.take (h : Agrees source v n) (k : ℕ) : Agrees source (v.take k) n := by
  intro i hi b hb
  rw [List.getElem?_take] at hb
  split_ifs at hb
  exact h i hi b hb

theorem Has.zero (source v : List α) : Has source v 0 := ⟨Nat.zero_le _, by nofun⟩

theorem Has.le_length (h : Has source v n) : n ≤ source.length := by
  obtain rfl | n := n
  · exact Nat.zero_le _
  · have hlt : n < v.length := h.1
    have hn := h.2 n (Nat.lt_succ_self n) v[n] (List.getElem?_eq_getElem hlt)
    exact (List.getElem?_eq_some_iff.mp hn).1

theorem has_iff : Has source v n ↔ n ≤ v.length ∧ ∀ i < n, v[i]? = source[i]? := by
  refine and_congr_right fun hn => forall₂_congr fun i hi => ?_
  rw [List.getElem?_eq_getElem (hi.trans_le hn)]
  constructor
  · exact fun h => (h _ rfl).symm
  · exact fun h b hb => h ▸ hb

theorem Has.take (h : Has source v n) {k : ℕ} (hk : n ≤ k) : Has source (v.take k) n :=
  ⟨by rw [List.length_take]; exact Nat.le_min.mpr ⟨hk, h.1⟩, h.2.take k⟩

theorem Has.extend (h : Has source v n) (zero : α) (m : ℕ) :
    Has source (File.extend zero v m) n := by
  rw [has_iff] at h ⊢
  refine ⟨h.1.trans (by simp [File.extend]), fun i hi => ?_⟩
  rw [File.extend, List.getElem?_append_left (hi.trans_le h.1)]
  exact h.2 i hi

theorem extend_of_le {zero : α} (h : n ≤ v.length) : File.extend zero v n = v := by
  rw [File.extend, Nat.sub_eq_zero_of_le h, List.replicate_zero, List.append_nil]

theorem length_extend (zero : α) (v : List α) (n : ℕ) :
    (File.extend zero v n).length = max v.length n := by
  rw [File.extend, List.length_append, List.length_replicate]
  omega

theorem length_overwrite {offset : ℕ} {bytes : List α} (h : offset + bytes.length ≤ v.length) :
    (File.overwrite v offset bytes).length = v.length := by
  simp only [File.overwrite, List.length_append, List.length_take, List.length_drop]
  omega

theorem getElem?_overwrite {offset : ℕ} {bytes : List α} (h : offset + bytes.length ≤ v.length)
    (i : ℕ) : (File.overwrite v offset bytes)[i]? =
      if offset ≤ i ∧ i < offset + bytes.length then bytes[i - offset]? else v[i]? := by
  have htake : (v.take offset).length = offset := by
    rw [List.length_take]
    omega
  have hleft : (v.take offset ++ bytes).length = offset + bytes.length := by
    rw [List.length_append, htake]
  rw [File.overwrite]
  split_ifs with hi
  · rw [List.getElem?_append_left (hleft ▸ hi.2), List.getElem?_append_right (htake.symm ▸ hi.1),
      htake]
  · obtain hlt | hge := Nat.lt_or_ge i offset
    · rw [List.append_assoc, List.getElem?_append_left (htake.symm ▸ hlt), List.getElem?_take,
        if_pos hlt]
    · have hge : offset + bytes.length ≤ i := by omega
      rw [List.getElem?_append_right (hleft.symm ▸ hge), hleft, List.getElem?_drop]
      congr 1
      omega

theorem Has.getElem? (h : Has source v n) {i : ℕ} (hi : i < n) :
    ∃ b, v[i]? = some b ∧ source[i]? = some b := by
  have hlt : i < v.length := hi.trans_le h.1
  have hget : v[i]? = some v[i] := List.getElem?_eq_getElem hlt
  exact ⟨v[i], hget, h.2 i hi _ hget⟩

theorem has_of_getElem? (h : ∀ i < n, ∃ b, v[i]? = some b ∧ source[i]? = some b) :
    Has source v n := by
  refine has_iff.mpr ⟨?_, fun i hi => ?_⟩
  · cases n with
    | zero => exact Nat.zero_le _
    | succ n =>
      obtain ⟨b, hb, -⟩ := h n (Nat.lt_succ_self n)
      exact (List.getElem?_eq_some_iff.mp hb).1
  · obtain ⟨b, hb, hb'⟩ := h i hi
    exact hb.trans hb'.symm

/-- The first `n` elements of the source and no more. -/
def Exactly (source v : List α) (n : ℕ) : Prop := Has source v n ∧ v.length = n

theorem Exactly.agrees (h : Exactly source v n) (m : ℕ) : Agrees source v m :=
  h.1.2.of_length_le h.2.le

theorem exactly_nil (source : List α) : Exactly source [] 0 := ⟨.zero source [], rfl⟩

/-! ### Crashes -/

/-- A crash leaves the first `n` elements where all contents since the last `Sync` agree so far, if
it leaves that many. -/
theorem File.Survives.has {f : File α} (h : f.Survives d)
    (hagrees : ∀ v ∈ f.versions, Agrees source v n) (hn : n ≤ d.length) : Has source d n := by
  refine ⟨hn, fun i hi b hb => ?_⟩
  obtain ⟨v, hv, heq⟩ := h.2 i (hi.trans_le hn)
  exact hagrees v hv i hi b (heq.trans hb)

theorem File.Survives.length_le {f : File α} (h : f.Survives d)
    (hn : ∀ v ∈ f.versions, v.length ≤ n) : d.length ≤ n := by
  by_contra hlt
  obtain ⟨v, hv, heq⟩ := h.2 n (Nat.lt_of_not_le hlt)
  rw [List.getElem?_eq_none (hn v hv), List.getElem?_eq_getElem (Nat.lt_of_not_le hlt)] at heq
  exact absurd heq (by nofun)

/-! ### Writes -/

section Writes

variable {file : File α} {zero : α} {offset : ℕ}

theorem length_bytes (h : offset + n ≤ source.length) :
    ((source.drop offset).take n).length = n := by
  rw [List.length_take, List.length_drop]
  omega

/-- What the file holds after the next bytes of the source have been written at their own offset. -/
theorem getElem?_writeAt (h : offset + n ≤ source.length) {i : ℕ} {b : α}
    (hb : (offset ≤ i ∧ i < offset + n) ∧ source[i]? = some b ∨
      file.data[i]? = some b ∧ source[i]? = some b) :
    (file.writeAt zero offset ((source.drop offset).take n)).data[i]? = some b := by
  rw [File.writeAt, length_bytes h, getElem?_overwrite, length_bytes h]
  · split_ifs with hin
    · rw [List.getElem?_take, if_pos (by omega), List.getElem?_drop, Nat.add_sub_cancel' hin.1]
      exact hb.elim And.right And.right
    · obtain ⟨hin', -⟩ | ⟨hold, -⟩ := hb
      · exact absurd hin' hin
      · obtain ⟨hlt, -⟩ := List.getElem?_eq_some_iff.mp hold
        rw [File.extend, List.getElem?_append_left hlt]
        exact hold
  · rw [length_bytes h, length_extend]
    exact le_max_right _ _

/-- The contents that a write adds have what the file had of the source. -/
theorem has_writeAt (h : offset + n ≤ source.length) {m k : ℕ} (hk : k ≤ file.versions.length)
    (hall : ∀ v ∈ file.versions.drop k, Has source v m) (hdata : Has source file.data m) :
    ∀ v ∈ (file.writeAt zero offset ((source.drop offset).take n)).versions.drop k,
      Has source v m := by
  rw [File.versions_writeAt, length_bytes h, List.drop_append_of_le_length hk,
    List.forall_mem_append]
  refine ⟨hall, List.forall_mem_cons.mpr ⟨hdata.extend zero _, List.forall_mem_singleton.mpr ?_⟩⟩
  refine has_of_getElem? fun i hi => ?_
  obtain ⟨b, hb⟩ := hdata.getElem? hi
  exact ⟨b, getElem?_writeAt h (.inr hb), hb.2⟩

theorem bounded_writeAt (h : offset + n ≤ source.length)
    (hall : ∀ v ∈ file.versions, v.length ≤ source.length) :
    ∀ v ∈ (file.writeAt zero offset ((source.drop offset).take n)).versions,
      v.length ≤ source.length := by
  have hgrown : (File.extend zero file.data (offset + n)).length ≤ source.length := by
    rw [length_extend]
    exact max_le (hall _ file.data_mem_versions) h
  rw [File.versions_writeAt, length_bytes h, List.forall_mem_append]
  refine ⟨hall, List.forall_mem_cons.mpr ⟨hgrown, List.forall_mem_singleton.mpr ?_⟩⟩
  rw [File.writeAt, length_bytes h, length_overwrite]
  · exact hgrown
  · rw [length_bytes h, length_extend]
    exact le_max_right _ _

/-- The next bytes of the source go behind those that are there. -/
theorem exactly_writeAt (h : offset + n ≤ source.length) (hdata : Exactly source file.data offset) :
    Exactly source (file.writeAt zero offset ((source.drop offset).take n)).data (offset + n) := by
  constructor
  · refine has_of_getElem? fun i hi => ?_
    have hlt : i < source.length := hi.trans_le h
    refine ⟨source[i], getElem?_writeAt h ?_, List.getElem?_eq_getElem hlt⟩
    obtain hlow | hhigh := Nat.lt_or_ge i offset
    · obtain ⟨b, hb, hb'⟩ := hdata.1.getElem? hlow
      rw [List.getElem?_eq_getElem hlt] at hb' ⊢
      exact .inr ⟨hb.trans hb'.symm, rfl⟩
    · exact .inl ⟨⟨hhigh, hi⟩, List.getElem?_eq_getElem hlt⟩
  · rw [File.writeAt, length_bytes h, length_overwrite] <;> rw [length_extend, hdata.2]
    · exact Nat.max_eq_right (Nat.le_add_right _ _)
    · rw [length_bytes h]
      exact le_max_right _ _

theorem data_truncate (h : n ≤ file.data.length) :
    (file.truncate zero n).data = file.data.take n := by
  rw [File.truncate, extend_of_le h]

theorem Has.exactly_truncate (h : Has source file.data n) :
    Exactly source (file.truncate zero n).data n := by
  rw [data_truncate h.1]
  exact ⟨h.take le_rfl, by rw [List.length_take]; exact Nat.min_eq_left h.1⟩

end Writes

/-! ### The common prefix -/

/-- The length of the longest common prefix. -/
def commonPrefix [DecidableEq α] : List α → List α → ℕ
  | a :: as, b :: bs => if a = b then commonPrefix as bs + 1 else 0
  | _, _ => 0

theorem Has.le_commonPrefix [DecidableEq α] (h : Has source v n) : n ≤ commonPrefix v source := by
  induction v generalizing source n with
  | nil => exact h.1.trans (Nat.zero_le _)
  | cons a v ih =>
    cases n with
    | zero => exact Nat.zero_le _
    | succ n =>
      rw [has_iff] at h
      cases source with
      | nil => exact absurd (h.2 0 (Nat.succ_pos n)) (by nofun)
      | cons b source =>
        have hab : a = b := Option.some.inj (h.2 0 (Nat.succ_pos n))
        rw [commonPrefix, if_pos hab]
        refine Nat.succ_le_succ (ih (has_iff.mpr ⟨Nat.le_of_succ_le_succ h.1, fun i hi => ?_⟩))
        exact h.2 (i + 1) (Nat.succ_lt_succ hi)

end AllInOneBackup.Storage
