import AllInOneBackup.LitePan.Playback.Transfer
import Mathlib.Data.List.Nodup

/-! The prefix that `DownloadOriginal` reports has been written, every byte at its own offset. Of each
part, `got` says how much has been reported of it, and `absorbed` counts the parts that the prefix
has left behind: `written` has what `got` says but for those, and the prefix stands in the first of
the others. A worker holds its part alone, with its writer where the part has been written to. -/

namespace AllInOneBackup.LitePan.Playback

open Concurrency

/-! ### The parts tile the range -/

namespace Span

variable {s : Span}

def partEnd (s : Span) (i : ℕ) : ℕ := s.partStart i + s.partLength i

theorem partEnd_of_succ_lt {i : ℕ} (h : i + 1 < s.count) : s.partEnd i = s.partStart (i + 1) := by
  have hle := partStart_le_last h
  simp only [partEnd, partLength, partStart, Nat.add_mul, Nat.one_mul] at hle ⊢
  omega

theorem partEnd_of_succ_eq {i : ℕ} (h : i + 1 = s.count) : s.partEnd i = s.last + 1 := by
  have hi : i = (s.last - s.start) / s.chunk := Nat.succ.inj h
  have hle := partStart_le_last (s := s) (i := i) (by omega)
  have hlt := s.lt_partEnd (le_refl s.last)
  rw [← hi] at hlt
  simp only [partEnd, partLength] at hlt ⊢
  omega

theorem partEnd_le {i : ℕ} (h : i < s.count) : s.partEnd i ≤ s.last + 1 := by
  have hle := partStart_le_last h
  simp only [partEnd, partLength]
  omega

theorem partLength_pos {i : ℕ} (h : i < s.count) : 0 < s.partLength i := by
  have hpos := s.chunk_pos
  have hle := partStart_le_last h
  simp only [partLength]
  omega

theorem start_le_partStart (s : Span) (i : ℕ) : s.start ≤ s.partStart i := Nat.le_add_right _ _

/-- A part ends before the next ones begin. -/
theorem partEnd_le_partStart {i j : ℕ} (h : i < j) : s.partEnd i ≤ s.partStart j := by
  have hmul : (i + 1) * s.chunk ≤ j * s.chunk := Nat.mul_le_mul_right _ h
  rw [Nat.add_mul, Nat.one_mul] at hmul
  simp only [partEnd, partLength, partStart]
  omega

/-- A position lies in no part but the one in which the loop of `report` looks for it. -/
theorem index_eq {i pos : ℕ} (hle : s.partStart i ≤ pos) (hlt : pos < s.partEnd i) :
    (pos - s.start) / s.chunk = i := by
  have hchunk : s.partLength i ≤ s.chunk := Nat.min_le_left _ _
  simp only [partEnd, partStart] at hle hlt
  rw [Nat.div_eq_iff s.chunk_pos]
  constructor <;> omega

end Span

/-! ### The loop of `report` -/

/-- The prefix has left `absorbed` parts behind, which are complete, and stands in the next one. -/
structure Span.Merged (s : Span) (pfx : ℕ) (written got : ℕ → ℕ) (absorbed : ℕ) : Prop where
  absorbed_le : absorbed ≤ s.count
  written_eq : ∀ i, written i = if i < absorbed then 0 else got i
  complete : ∀ i < absorbed, got i = s.partLength i
  pfx_eq : pfx = if absorbed < s.count then s.partStart absorbed + got absorbed else s.last + 1
  incomplete : absorbed < s.count → got absorbed < s.partLength absorbed

namespace Span

variable {s : Span}

/-- What the loop starts from: the prefix stands anywhere in the part that is next. -/
theorem merged_merge {got : ℕ → ℕ} (hgot : ∀ i, got i ≤ s.partLength i) {pfx : ℕ}
    {written : ℕ → ℕ} {absorbed : ℕ} (habsorbed : absorbed ≤ s.count)
    (hwritten : ∀ i, written i = if i < absorbed then 0 else got i)
    (hcomplete : ∀ i < absorbed, got i = s.partLength i)
    (hpfx : if absorbed < s.count then s.partStart absorbed ≤ pfx ∧
      pfx ≤ s.partStart absorbed + got absorbed ∧ pfx < s.partEnd absorbed else pfx = s.last + 1) :
    pfx ≤ (s.merge pfx written).1 ∧
      ∃ absorbed', s.Merged (s.merge pfx written).1 (s.merge pfx written).2 got absorbed' := by
  fun_induction Span.merge s pfx written generalizing absorbed with
  | case1 pfx written hle i =>
    rename_i hlt
    obtain habs | rfl := Nat.lt_or_eq_of_le habsorbed
    · rw [if_pos habs] at hpfx
      obtain rfl : i = absorbed := index_eq hpfx.1 hpfx.2.2
      have hgoti : written i = got i := by rw [hwritten, if_neg (Nat.lt_irrefl _)]
      rw [hgoti] at hlt ⊢
      exact ⟨hpfx.2.1, i, habsorbed, hwritten, hcomplete, by rw [if_pos habs], fun _ => hlt⟩
    · rw [if_neg (Nat.lt_irrefl _)] at hpfx
      omega
  | case2 pfx written hle i =>
    rename_i hnlt ih
    obtain habs | rfl := Nat.lt_or_eq_of_le habsorbed
    · rw [if_pos habs] at hpfx
      obtain rfl : i = absorbed := index_eq hpfx.1 hpfx.2.2
      have hgoti : written i = got i := by rw [hwritten, if_neg (Nat.lt_irrefl _)]
      have hfull : got i = s.partLength i := le_antisymm (hgot i) (by omega)
      rw [hgoti, hfull] at ih ⊢
      have hnext := @ih (i + 1) habs (fun j => ?_) (fun j hj => ?_) ?_
      · exact ⟨hpfx.2.1.trans (hfull ▸ hnext.1), hnext.2⟩
      · obtain rfl | hne := eq_or_ne j i
        · simp
        · rw [Function.update_of_ne hne, hwritten]
          exact if_congr (by omega) rfl rfl
      · obtain hj | rfl := Nat.lt_succ_iff_lt_or_eq.mp hj
        · exact hcomplete j hj
        · exact hfull
      · split_ifs with hlt
        · have hend : s.partStart i + s.partLength i = _ := partEnd_of_succ_lt hlt
          have hpos := partLength_pos hlt
          rw [hend, partEnd]
          omega
        · exact partEnd_of_succ_eq (by omega)
    · rw [if_neg (Nat.lt_irrefl _)] at hpfx
      omega
  | case3 pfx written hnle =>
    obtain habs | rfl := Nat.lt_or_eq_of_le habsorbed
    · rw [if_pos habs] at hpfx
      have hend := partEnd_le habs
      omega
    · rw [if_neg (Nat.lt_irrefl _)] at hpfx
      refine ⟨le_rfl, s.count, le_rfl, hwritten, hcomplete, ?_, fun h => absurd h (Nat.lt_irrefl _)⟩
      rw [if_neg (Nat.lt_irrefl _), hpfx]

/-- A prefix lies in the range. -/
theorem Merged.bounds {pfx : ℕ} {written got : ℕ → ℕ} {absorbed : ℕ}
    (h : s.Merged pfx written got absorbed) : s.start ≤ pfx ∧ pfx ≤ s.last + 1 := by
  have hstart := s.start_le
  rw [h.pfx_eq]
  split_ifs with habs
  · have hlt := h.incomplete habs
    have hend := partEnd_le habs
    have hle := s.start_le_partStart absorbed
    rw [partEnd] at hend
    omega
  · omega

/-- A prefix covers what has been reported of the parts that it has reached. -/
theorem Merged.reached {pfx : ℕ} {written got : ℕ → ℕ} {absorbed : ℕ}
    (h : s.Merged pfx written got absorbed) {pos : ℕ} (hstart : s.start ≤ pos) (hlt : pos < pfx) :
    ∃ i < s.count, s.partStart i ≤ pos ∧ pos < s.partStart i + got i := by
  have hlast : pos ≤ s.last := by
    have hle := h.bounds.2
    omega
  refine ⟨(pos - s.start) / s.chunk, lt_count hlast, partStart_le hstart, ?_⟩
  obtain hi | hi := Nat.lt_or_ge ((pos - s.start) / s.chunk) absorbed
  · rw [h.complete _ hi]
    exact lt_partEnd hlast
  · have habs : absorbed < s.count := hi.trans_lt (lt_count hlast)
    rw [h.pfx_eq, if_pos habs] at hlt
    obtain hi | hi := Nat.lt_or_eq_of_le hi
    · have hend := (partEnd_le_partStart hi).trans (partStart_le hstart)
      have hinc := h.incomplete habs
      rw [partEnd] at hend
      omega
    · rwa [← hi]

/-- What has been reported is merged again once more of a part has been. -/
theorem Merged.report {t : Transfer} {got : ℕ → ℕ} {absorbed : ℕ}
    (h : s.Merged t.pfx t.written got absorbed) (hgot : ∀ i, got i ≤ s.partLength i) {index n : ℕ}
    (hindex : index < s.count) (hle : got index + n ≤ s.partLength index) (hn : 0 < n) :
    t.pfx ≤ (t.report s index n).pfx ∧
      ∃ absorbed', s.Merged (t.report s index n).pfx (t.report s index n).written
        (Function.update got index (got index + n)) absorbed' := by
  have habsorbed : ¬index < absorbed := fun hlt => by
    have heq := h.complete _ hlt
    omega
  refine merged_merge (fun i => ?_) h.absorbed_le (fun i => ?_)
    (fun i hi => ?_) ?_
  · obtain rfl | hne := eq_or_ne i index
    · rwa [Function.update_self]
    · rw [Function.update_of_ne hne]
      exact hgot i
  · obtain rfl | hne := eq_or_ne i index
    · rw [Function.update_self, Function.update_self, h.written_eq, if_neg habsorbed,
        if_neg habsorbed]
    · rw [Function.update_of_ne hne, Function.update_of_ne hne, h.written_eq]
  · rw [Function.update_of_ne (by rintro rfl; exact habsorbed hi)]
    exact h.complete i hi
  · rw [h.pfx_eq]
    split_ifs with habs
    · have hinc := h.incomplete habs
      rw [partEnd]
      refine ⟨Nat.le_add_right _ _, Nat.add_le_add_left ?_ _, Nat.add_lt_add_left hinc _⟩
      obtain rfl | hne := eq_or_ne absorbed index
      · rw [Function.update_self]
        exact Nat.le_add_right _ _
      · rw [Function.update_of_ne hne]
    · rfl

end Span

/-! ### What an observer sees -/

/-- The prefix that is reported or returned. -/
def Event.pfx? : Event → Option ℕ
  | .progressed _ pfx => some pfx
  | .returned pfx _ => some pfx
  | .wrote .. => none

def Covered (trace : List Event) (pos : ℕ) : Prop :=
  ∃ index source offset n, .wrote index source offset n ∈ trace ∧ offset ≤ pos ∧ pos < offset + n

/-- A prefix that may be reported after `before`. -/
structure TruePrefix (s : Span) (before : List Event) (pfx : ℕ) : Prop where
  start_le : s.start ≤ pfx
  le_last : pfx ≤ s.last + 1
  mono : ∀ e ∈ before, ∀ earlier, e.pfx? = some earlier → earlier ≤ pfx
  covered : ∀ pos, s.start ≤ pos → pos < pfx → Covered before pos

/-- Bytes are written at their own offset, each by one part; every prefix is true when it is
reported, and it is the whole range where no error is returned. -/
structure Contiguous (s : Span) (trace : List Event) : Prop where
  own_offset : ∀ {index source offset n}, .wrote index source offset n ∈ trace → source = offset
  disjoint : ∀ {index source offset n index' source' offset' n'},
    .wrote index source offset n ∈ trace → .wrote index' source' offset' n' ∈ trace →
      index ≠ index' → offset + n ≤ offset' ∨ offset' + n' ≤ offset
  truePrefix : ∀ {before e after pfx}, trace = before ++ e :: after → e.pfx? = some pfx →
    TruePrefix s before pfx
  finished : ∀ {pfx}, .returned pfx none ∈ trace → pfx = s.last + 1

/-! ### The invariant -/

namespace Goroutine

/-- The part that a worker holds. -/
def part : Goroutine → Option ℕ
  | .claimed index => some index
  | .attempting index .. => some index
  | .copying index .. => some index
  | .reporting index .. => some index
  | .failing index .. => some index
  | _ => none

def isWorker : Goroutine → Bool
  | .joining => false
  | .returned => false
  | _ => true

/-- `wg` counts these. -/
def isRunning : Goroutine → Bool
  | .exited => false
  | g => g.isWorker

theorem isRunning_of_part {g : Goroutine} {i : ℕ} (h : g.part = some i) : g.isRunning = true := by
  cases g <;> first | rfl | exact absurd h (by nofun)

end Goroutine

def Transfer.Stopped (t : Transfer) : Prop := t.firstErr.isSome ∨ t.ctxErr

/-- A worker's part has been written to up to its offset; while it reports a write, what has been
reported of the part falls short by that. A worker leaves when there is no part left, or when the
transfer has stopped. -/
def Goroutine.Fits (s : Span) (t : Transfer) (got : ℕ → ℕ) (trace : List Event) :
    Goroutine → Prop
  | .claimed i => i < t.next ∧ got i = 0
  | .attempting i _ offset => i < t.next ∧ i < s.count ∧ offset = s.partStart i + got i
  | .copying i _ offset source =>
    i < t.next ∧ i < s.count ∧ offset = s.partStart i + got i ∧ source = offset
  | .reporting i _ offset source n err =>
    i < t.next ∧ i < s.count ∧ offset = s.partStart i + got i + n ∧ 0 < n ∧ offset ≤ s.partEnd i ∧
      (err = none → source = offset) ∧
      ∀ pos, s.partStart i + got i ≤ pos → pos < offset → Covered trace pos
  | .failing i _ _ => i < t.next
  | .cancelling => t.firstErr.isSome
  | .leaving => s.count ≤ t.next ∨ t.Stopped
  | .exited => s.count ≤ t.next ∨ t.Stopped
  | _ => True

structure Holds (s : Span) (t : Transfer) (tasks : List Goroutine) (trace : List Event)
    (got : ℕ → ℕ) : Prop where
  merged : ∃ absorbed, s.Merged t.pfx t.written got absorbed
  got_le : ∀ i, got i ≤ s.partLength i
  nodup : (tasks.filterMap Goroutine.part).Nodup
  fits : ∀ g ∈ tasks, g.Fits s t got trace
  complete : ∀ i < t.next, i < s.count →
    i ∈ tasks.filterMap Goroutine.part ∨ got i = s.partLength i ∨ t.Stopped
  unclaimed : ∀ i, t.next ≤ i → got i = 0
  cancelled : t.cancelled → t.firstErr.isSome
  wg : t.wg = tasks.countP Goroutine.isRunning
  worker : ∃ g ∈ tasks, g.isWorker
  covered : ∀ i < s.count, ∀ pos, s.partStart i ≤ pos → pos < s.partStart i + got i →
    Covered trace pos
  inPart : ∀ {index source offset n}, .wrote index source offset n ∈ trace →
    index < s.count ∧ s.partStart index ≤ offset ∧ offset + n ≤ s.partEnd index
  earlier : ∀ e ∈ trace, ∀ pfx, e.pfx? = some pfx → pfx ≤ t.pfx
  contiguous : Contiguous s trace

/-- What the workers rely on stays. -/
structure Transfer.Grows (t t' : Transfer) : Prop where
  next : t.next ≤ t'.next
  stopped : t.firstErr.isSome → t'.firstErr.isSome
  ctxErr : t.ctxErr → t'.ctxErr

section Turns

variable {s : Span} {t t' : Transfer} {g g' : Goroutine} {others tasks : List Goroutine}
  {trace : List Event} {got : ℕ → ℕ}

theorem Transfer.Grows.refl (t : Transfer) : t.Grows t := ⟨le_rfl, id, id⟩

theorem Covered.append {pos : ℕ} (h : Covered trace pos) (seen : List Event) :
    Covered (trace ++ seen) pos := by
  obtain ⟨index, source, offset, n, hmem, hpos⟩ := h
  exact ⟨index, source, offset, n, List.mem_append_left _ hmem, hpos⟩

theorem Transfer.Grows.stopped' (h : t.Grows t') (hs : t.Stopped) : t'.Stopped :=
  hs.imp h.stopped h.ctxErr

theorem Goroutine.Fits.mono (h : g.Fits s t got trace) (hgrows : t.Grows t') {got' : ℕ → ℕ}
    (hgot : ∀ i, g.part = some i → got' i = got i) (seen : List Event) :
    g.Fits s t' got' (trace ++ seen) := by
  have hnext := hgrows.next
  have hleave : s.count ≤ t.next ∨ t.Stopped → s.count ≤ t'.next ∨ t'.Stopped :=
    Or.imp (fun h => h.trans hnext) hgrows.stopped'
  cases g with
  | claimed i => exact ⟨h.1.trans_le hnext, (hgot i rfl).trans h.2⟩
  | attempting i attempt offset =>
    exact ⟨h.1.trans_le hnext, h.2.1, (hgot i rfl).symm ▸ h.2.2⟩
  | copying i attempt offset source =>
    exact ⟨h.1.trans_le hnext, h.2.1, (hgot i rfl).symm ▸ h.2.2⟩
  | reporting i attempt offset source n err =>
    obtain ⟨hi, hcount, hoffset, hpos, hend, hsource, hcovered⟩ := h
    rw [← hgot i rfl] at hoffset hcovered
    exact ⟨hi.trans_le hnext, hcount, hoffset, hpos, hend, hsource, fun pos hle hlt =>
      (hcovered pos hle hlt).append seen⟩
  | failing i offset err => exact h.trans_le hnext
  | cancelling => exact hgrows.stopped h
  | leaving => exact hleave h
  | exited => exact hleave h
  | idle => trivial
  | joining => trivial
  | returned => trivial

theorem Goroutine.Fits.lt_next {i : ℕ} (h : g.Fits s t got trace) (hpart : g.part = some i) :
    i < t.next := by
  cases g with
  | claimed => exact Option.some.inj hpart ▸ h.1
  | attempting => exact Option.some.inj hpart ▸ h.1
  | copying => exact Option.some.inj hpart ▸ h.1
  | reporting => exact Option.some.inj hpart ▸ h.1
  | failing => exact Option.some.inj hpart ▸ h
  | _ => exact absurd hpart (by nofun)

namespace Holds

theorem perm {tasks' : List Goroutine} (h : Holds s t tasks trace got)
    (hperm : tasks.Perm tasks') : Holds s t tasks' trace got :=
  { h with
    nodup := ((hperm.filterMap _).nodup_iff).mp h.nodup
    fits := fun g hg => h.fits g (hperm.mem_iff.mpr hg)
    complete := fun i hi hcount =>
      (h.complete i hi hcount).imp_left (hperm.filterMap _).mem_iff.mp
    wg := h.wg.trans (hperm.countP_eq _)
    worker := h.worker.imp fun _ hg => ⟨hperm.mem_iff.mp hg.1, hg.2⟩ }

/-- A turn that writes and reports nothing. A new part is one that was next. -/
theorem turn (h : Holds s t (g :: others) trace got) (hgrows : t.Grows t')
    (hpfx : t'.pfx = t.pfx) (hwritten : t'.written = t.written)
    (hcancelled : t'.cancelled → t'.firstErr.isSome)
    (hwg : t'.wg + g.isRunning.toNat = t.wg + g'.isRunning.toNat)
    (hworker : g'.isWorker = g.isWorker)
    (hpart : ∀ i, g'.part = some i → g.part = some i ∨ t.next ≤ i)
    (hkeeps : ∀ i, g.part = some i → i < s.count →
      g'.part = some i ∨ got i = s.partLength i ∨ t'.Stopped)
    (hclaims : ∀ i, t.next ≤ i → i < t'.next → g'.part = some i)
    (hfits : g'.Fits s t' got trace) : Holds s t' (g' :: others) trace got where
  merged := by rw [hpfx, hwritten]; exact h.merged
  got_le := h.got_le
  nodup := by
    have hothers : (others.filterMap Goroutine.part).Nodup := by
      have hnodup := h.nodup
      rw [List.filterMap_cons] at hnodup
      split at hnodup
      · exact hnodup
      · exact (List.nodup_cons.mp hnodup).2
    rw [List.filterMap_cons]
    split
    · exact hothers
    · rename_i i hi
      refine List.nodup_cons.mpr ⟨fun hmem => ?_, hothers⟩
      obtain hold | hnew := hpart i hi
      · have hnodup := h.nodup
        rw [List.filterMap_cons, hold] at hnodup
        exact (List.nodup_cons.mp hnodup).1 hmem
      · obtain ⟨x, hx, hxi⟩ := List.mem_filterMap.mp hmem
        have hlt := (h.fits x (List.mem_cons_of_mem _ hx)).lt_next hxi
        omega
  fits := by
    refine List.forall_mem_cons.mpr ⟨hfits, fun x hx => ?_⟩
    have hmono := (h.fits x (List.mem_cons_of_mem _ hx)).mono hgrows (fun _ _ => rfl) []
    rwa [List.append_nil] at hmono
  complete := by
    intro i hi hcount
    obtain hlt | hge := Nat.lt_or_ge i t.next
    · obtain hheld | hfull | hstopped := h.complete i hlt hcount
      · obtain ⟨x, hx, hxi⟩ := List.mem_filterMap.mp hheld
        obtain rfl | hx := List.mem_cons.mp hx
        · refine (hkeeps i hxi hcount).imp_left fun hg' => ?_
          exact List.mem_filterMap.mpr ⟨g', List.mem_cons_self, hg'⟩
        · exact .inl (List.mem_filterMap.mpr ⟨x, List.mem_cons_of_mem _ hx, hxi⟩)
      · exact .inr (.inl hfull)
      · exact .inr (.inr (hgrows.stopped' hstopped))
    · exact .inl (List.mem_filterMap.mpr ⟨g', List.mem_cons_self, hclaims i hge hi⟩)
  unclaimed := fun i hi => h.unclaimed i (hgrows.next.trans hi)
  cancelled := hcancelled
  wg := by
    have hcount := h.wg
    rw [List.countP_cons] at hcount ⊢
    cases hg : g.isRunning <;> cases hg' : g'.isRunning <;>
      simp only [hg, hg', Bool.toNat_true, Bool.toNat_false, if_true, Bool.false_eq_true,
        if_false] at hcount hwg ⊢ <;> omega
  worker := by
    obtain ⟨x, hx, hxw⟩ := h.worker
    obtain rfl | hx := List.mem_cons.mp hx
    · exact ⟨g', List.mem_cons_self, hworker.trans hxw⟩
    · exact ⟨x, List.mem_cons_of_mem _ hx, hxw⟩
  covered := h.covered
  inPart := h.inPart
  earlier := by rw [hpfx]; exact h.earlier
  contiguous := h.contiguous

/-- A turn that only takes a worker on with its part. -/
theorem moves (h : Holds s t (g :: others) trace got) (hpart : g'.part = g.part)
    (hrunning : g'.isRunning = g.isRunning) (hworker : g'.isWorker = g.isWorker)
    (hfits : g'.Fits s t got trace) : Holds s t (g' :: others) trace got :=
  h.turn (.refl t) rfl rfl h.cancelled (by rw [hrunning]) hworker
    (fun _ hi => .inl (hpart ▸ hi)) (fun _ hi _ => .inl (hpart ▸ hi))
    (fun _ hle hlt => absurd hlt (Nat.not_lt.mpr hle)) hfits

end Holds

/-! ### What is seen -/

theorem Contiguous.snoc (h : Contiguous s trace) {e : Event}
    (hown : ∀ {index source offset n}, e = .wrote index source offset n → source = offset)
    (hdisjoint : ∀ {index source offset n index' source' offset' n'},
      e = .wrote index source offset n → .wrote index' source' offset' n' ∈ trace →
        index ≠ index' → offset + n ≤ offset' ∨ offset' + n' ≤ offset)
    (htrue : ∀ {pfx}, e.pfx? = some pfx → TruePrefix s trace pfx)
    (hfinished : ∀ {pfx}, e = .returned pfx none → pfx = s.last + 1) :
    Contiguous s (trace ++ [e]) where
  own_offset := by
    intro index source offset n hmem
    obtain hmem | hmem := List.mem_append.mp hmem
    · exact h.own_offset hmem
    · exact hown (List.mem_singleton.mp hmem).symm
  disjoint := by
    intro index source offset n index' source' offset' n' hmem hmem' hne
    obtain hmem | hmem := List.mem_append.mp hmem <;>
      obtain hmem' | hmem' := List.mem_append.mp hmem'
    · exact h.disjoint hmem hmem' hne
    · exact (hdisjoint (List.mem_singleton.mp hmem').symm hmem hne.symm).symm
    · exact hdisjoint (List.mem_singleton.mp hmem).symm hmem' hne
    · have heq := (List.mem_singleton.mp hmem).trans (List.mem_singleton.mp hmem').symm
      exact absurd (Event.wrote.inj heq).1 hne
  truePrefix := by
    intro before x after pfx hsplit hpfx
    obtain rfl | ⟨after, y, rfl⟩ := after.eq_nil_or_concat
    · obtain ⟨rfl, he⟩ := List.append_inj' hsplit rfl
      obtain rfl := List.singleton_inj.mp he
      exact htrue hpfx
    · rw [List.concat_eq_append, ← List.cons_append, ← List.append_assoc] at hsplit
      exact h.truePrefix (List.append_inj' hsplit rfl).1 hpfx
  finished := by
    intro pfx hmem
    obtain hmem | hmem := List.mem_append.mp hmem
    · exact h.finished hmem
    · exact hfinished (List.mem_singleton.mp hmem).symm

namespace Holds

/-- The prefix at any time is true. -/
theorem truePrefix (h : Holds s t tasks trace got) : TruePrefix s trace t.pfx := by
  obtain ⟨absorbed, hmerged⟩ := h.merged
  refine ⟨hmerged.bounds.1, hmerged.bounds.2, h.earlier, fun pos hle hlt => ?_⟩
  obtain ⟨i, hi, hstart, hend⟩ := hmerged.reached hle hlt
  exact h.covered i hi pos hstart hend

/-- The prefix is seen. -/
theorem sees (h : Holds s t tasks trace got) {e : Event} (he : e.pfx? = some t.pfx)
    (hfinished : ∀ {pfx}, e = .returned pfx none → pfx = s.last + 1) :
    Holds s t tasks (trace ++ [e]) got :=
  { h with
    fits := fun g hg => (h.fits g hg).mono (.refl t) (fun _ _ => rfl) _
    covered := fun i hi pos hle hlt => (h.covered i hi pos hle hlt).append _
    inPart := fun {index source offset n} hmem => by
      obtain hmem | hmem := List.mem_append.mp hmem
      · exact h.inPart hmem
      · rw [← List.mem_singleton.mp hmem] at he
        exact absurd he (by nofun)
    earlier := fun x hx pfx hpfx => by
      obtain hx | hx := List.mem_append.mp hx
      · exact h.earlier x hx pfx hpfx
      · rw [List.mem_singleton.mp hx, he] at hpfx
        exact (Option.some.inj hpfx).ge
    contiguous := by
      refine h.contiguous.snoc ?_ ?_ (fun hpfx => ?_) hfinished
      · rintro _ _ _ _ rfl
        exact absurd he (by nofun)
      · rintro _ _ _ _ _ _ _ _ rfl
        exact absurd he (by nofun)
      · obtain rfl : t.pfx = _ := Option.some.inj (he.symm.trans hpfx)
        exact h.truePrefix }

/-- Bytes are written within a part, at their own offset. -/
theorem writes (h : Holds s t tasks trace got) {index offset n : ℕ} (hcount : index < s.count)
    (hle : s.partStart index ≤ offset) (hend : offset + n ≤ s.partEnd index) :
    Holds s t tasks (trace ++ [.wrote index offset offset n]) got :=
  { h with
    fits := fun g hg => (h.fits g hg).mono (.refl t) (fun _ _ => rfl) _
    covered := fun i hi pos hle hlt => (h.covered i hi pos hle hlt).append _
    inPart := fun {index source offset n} hmem => by
      obtain hmem | hmem := List.mem_append.mp hmem
      · exact h.inPart hmem
      · cases List.mem_singleton.mp hmem
        exact ⟨hcount, hle, hend⟩
    earlier := fun x hx pfx hpfx => by
      obtain hx | hx := List.mem_append.mp hx
      · exact h.earlier x hx pfx hpfx
      · rw [List.mem_singleton.mp hx] at hpfx
        exact absurd hpfx (by nofun)
    contiguous := by
      refine h.contiguous.snoc ?_ ?_ (by nofun) (by nofun)
      · rintro _ _ _ _ ⟨⟩
        rfl
      · rintro _ _ _ _ index' source' offset' n' ⟨⟩ hmem hne
        have hin := h.inPart hmem
        obtain hlt | hlt := Nat.lt_or_gt_of_ne hne
        · exact .inl (hend.trans ((Span.partEnd_le_partStart hlt).trans hin.2.1))
        · exact .inr (hin.2.2.trans ((Span.partEnd_le_partStart hlt).trans hle)) }

/-- Nothing is written outside of the range. -/
theorem inRange (h : Holds s t tasks trace got) {index source offset n : ℕ}
    (hmem : .wrote index source offset n ∈ trace) : s.start ≤ offset ∧ offset + n ≤ s.last + 1 := by
  obtain ⟨hcount, hle, hend⟩ := h.inPart hmem
  exact ⟨(s.start_le_partStart index).trans hle, hend.trans (Span.partEnd_le hcount)⟩

/-- A write is reported, and the prefix goes on where the part is the one that was missing. -/
theorem reports {index attempt offset source n : ℕ} {err : Option TransferError}
    (h : Holds s t (.reporting index attempt offset source n err :: others) trace got)
    (hpart : g'.part = some index) (hworker : g'.isWorker = true)
    (hfits : g'.Fits s t (Function.update got index (got index + n)) trace) :
    Holds s (t.report s index n) (g' :: others) (trace ++ [.progressed n (t.report s index n).pfx])
      (Function.update got index (got index + n)) := by
  obtain ⟨hlt, hcount, hoffset, hpos, hend, -, hcovered⟩ := h.fits _ List.mem_cons_self
  have hle : got index + n ≤ s.partLength index := by
    rw [Span.partEnd] at hend
    omega
  obtain ⟨absorbed, hmerged⟩ := h.merged
  have hmerge := hmerged.report h.got_le hcount hle hpos
  have hparts : (g' :: others).filterMap Goroutine.part =
      (Goroutine.reporting index attempt offset source n err :: others).filterMap
        Goroutine.part := by
    rw [List.filterMap_cons_some hpart, List.filterMap_cons_some (by rfl)]
  have hgrows : t.Grows (t.report s index n) := ⟨le_rfl, id, id⟩
  refine sees ?_ rfl (by nofun)
  exact
    { h with
      merged := hmerge.2
      got_le := fun i => by
        obtain rfl | hne := eq_or_ne i index
        · rwa [Function.update_self]
        · rw [Function.update_of_ne hne]
          exact h.got_le i
      nodup := hparts ▸ h.nodup
      fits := by
        refine List.forall_mem_cons.mpr ⟨?_, fun x hx => ?_⟩
        · exact List.append_nil trace ▸ hfits.mono hgrows (fun _ _ => rfl) []
        · have hother : ∀ i, x.part = some i →
              Function.update got index (got index + n) i = got i := fun i hi => by
            refine Function.update_of_ne ?_ _ _
            rintro rfl
            have hnodup := h.nodup
            rw [List.filterMap_cons_some (by rfl)] at hnodup
            exact (List.nodup_cons.mp hnodup).1 (List.mem_filterMap.mpr ⟨x, hx, hi⟩)
          exact List.append_nil trace ▸
            (h.fits x (List.mem_cons_of_mem _ hx)).mono hgrows hother []
      complete := fun i hi hcount' => by
        rw [hparts]
        obtain rfl | hne := eq_or_ne i index
        · exact .inl (List.mem_filterMap.mpr ⟨_, List.mem_cons_self, rfl⟩)
        · rw [Function.update_of_ne hne]
          exact h.complete i hi hcount'
      unclaimed := fun i hi => by
        have hi : t.next ≤ i := hi
        rw [Function.update_of_ne (by omega)]
        exact h.unclaimed i hi
      wg := by
        have hwg := h.wg
        rw [List.countP_cons_of_pos (by rfl)] at hwg
        rw [List.countP_cons_of_pos (Goroutine.isRunning_of_part hpart)]
        exact hwg
      worker := ⟨g', List.mem_cons_self, hworker⟩
      covered := fun i hi pos hstart hlt' => by
        obtain rfl | hne := eq_or_ne i index
        · rw [Function.update_self] at hlt'
          obtain hold | hnew := Nat.lt_or_ge pos (s.partStart i + got i)
          · exact h.covered i hi pos hstart hold
          · exact hcovered pos hnew (by omega)
        · rw [Function.update_of_ne hne] at hlt'
          exact h.covered i hi pos hstart hlt'
      earlier := fun e he pfx hpfx => (h.earlier e he pfx hpfx).trans hmerge.1 }

/-- When all workers have left and nothing went wrong, the prefix is the whole range. -/
theorem finished (h : Holds s t tasks trace got) (hwg : t.wg = 0) (hstopped : ¬t.Stopped) :
    t.pfx = s.last + 1 := by
  have hleft : ∀ g ∈ tasks, g.isRunning = false := fun g hg =>
    Bool.eq_false_iff.mpr (List.countP_eq_zero.mp (h.wg.symm.trans hwg) g hg)
  have hnext : s.count ≤ t.next := by
    obtain ⟨g, hg, hworker⟩ := h.worker
    have hfits := h.fits g hg
    have hrunning := hleft g hg
    cases g with
    | exited => exact hfits.resolve_right hstopped
    | joining => exact absurd hworker (by nofun)
    | returned => exact absurd hworker (by nofun)
    | _ => exact absurd hrunning (by nofun)
  obtain ⟨absorbed, hmerged⟩ := h.merged
  rw [hmerged.pfx_eq]
  split_ifs with habs
  · obtain hheld | hfull | hs := h.complete absorbed (habs.trans_le hnext) habs
    · obtain ⟨g, hg, hpart⟩ := List.mem_filterMap.mp hheld
      have hrunning := Goroutine.isRunning_of_part hpart
      rw [hleft g hg] at hrunning
      exact absurd hrunning (by nofun)
    · exact absurd hfull (hmerged.incomplete habs).ne
    · exact absurd hs hstopped
  · rfl

end Holds

/-! ### Every turn and every run -/

theorem nextAttempt_part (index attempt offset : ℕ) :
    (nextAttempt index attempt offset).part = some index := by
  unfold nextAttempt
  split <;> rfl

theorem nextAttempt_isWorker (index attempt offset : ℕ) :
    (nextAttempt index attempt offset).isWorker = true := by
  unfold nextAttempt
  split <;> rfl

theorem fits_nextAttempt {index attempt offset : ℕ} (hlt : index < t.next)
    (hcount : index < s.count) (hoffset : offset = s.partStart index + got index) :
    (nextAttempt index attempt offset).Fits s t got trace := by
  unfold nextAttempt
  split
  · exact ⟨hlt, hcount, hoffset⟩
  · exact hlt

/-- The worker goes on with its part, or gives up. -/
theorem Holds.takesOn (h : Holds s t (g :: others) trace got) {i : ℕ} (hg : g.part = some i)
    (hg' : g'.part = some i) (hworker : g'.isWorker = g.isWorker)
    (hfits : g'.Fits s t got trace) : Holds s t (g' :: others) trace got :=
  h.moves (hg'.trans hg.symm)
    ((Goroutine.isRunning_of_part hg').trans (Goroutine.isRunning_of_part hg).symm) hworker hfits

theorem holds_resume {o : Outcome} {r : TransferTurn} (h : Holds s t (g :: others) trace got)
    (hr : resume s t g o = some r) :
    ∃ got', Holds s r.shared (r.task :: r.spawned ++ others) (trace ++ r.seen) got' := by
  have hfits := h.fits g List.mem_cons_self
  cases g with
  | idle =>
    cases o <;> cases hr
    refine ⟨got, ?_⟩
    rw [List.append_nil]
    refine h.turn ⟨Nat.le_succ _, id, id⟩ rfl rfl h.cancelled rfl rfl (fun i hi => .inr ?_)
      (by nofun) (fun i hle hlt => ?_) ⟨Nat.lt_succ_self _, h.unclaimed _ le_rfl⟩
    · exact (Option.some.inj hi).le
    · exact congrArg some (Nat.le_antisymm hle (Nat.le_of_lt_succ hlt))
  | claimed index =>
    cases o <;> cases hr
    refine ⟨got, ?_⟩
    rw [List.append_nil]
    dsimp only
    split_ifs with hleave
    · have hstop : s.count ≤ index ∨ t.Stopped :=
        hleave.imp_right fun hs => hs.elim .inr fun hc => .inl (h.cancelled hc)
      refine h.turn (.refl t) rfl rfl h.cancelled rfl rfl (by nofun) (fun i hi hcount => ?_)
        (fun i hle hlt => absurd hlt (Nat.not_lt.mpr hle)) (hstop.imp_left hfits.1.le.trans')
      obtain rfl : index = i := Option.some.inj hi
      exact .inr (.inr (hstop.resolve_left (Nat.not_le.mpr hcount)))
    · refine h.takesOn rfl rfl rfl ⟨hfits.1, Nat.lt_of_not_le fun hge => hleave (.inl hge), ?_⟩
      rw [hfits.2, Nat.add_zero]
  | attempting index attempt offset =>
    cases o <;> cases hr
    all_goals
      refine ⟨got, ?_⟩
      rw [List.append_nil]
    · exact h.takesOn rfl rfl rfl hfits.1
    · exact h
    · exact h.takesOn rfl (nextAttempt_part ..) (nextAttempt_isWorker ..)
        (fits_nextAttempt hfits.1 hfits.2.1 hfits.2.2)
    · exact h.takesOn rfl rfl rfl ⟨hfits.1, hfits.2.1, hfits.2.2, rfl⟩
  | copying index attempt offset source =>
    obtain ⟨hlt, hcount, hoffset, rfl⟩ := hfits
    cases o <;> try cases hr
    case write read written werr =>
      obtain ⟨⟨hread, hend, hle⟩, hr⟩ := Option.ite_none_right_eq_some.mp hr
      obtain rfl := Option.some.inj hr
      refine ⟨got, ?_⟩
      by_cases hwritten : written > 0
      · rw [if_pos hwritten]
        have hend : source + read ≤ s.partEnd index := hend
        have hwrites : Holds s t _ (trace ++ [.wrote index source source written]) got :=
          h.writes hcount (by omega) (by omega)
        refine hwrites.takesOn rfl rfl rfl ⟨hlt, hcount, by omega, hwritten, by omega, fun herr => ?_,
          fun pos hle hlt => ?_⟩
        · split_ifs at herr with hbad
          rw [not_or, not_not] at hbad
          rw [hbad.2]
        · exact ⟨index, source, source, written,
            List.mem_append_right _ (List.mem_singleton_self _), by omega, hlt⟩
      · rw [if_neg hwritten, List.append_nil]
        exact h.takesOn rfl rfl rfl hlt
    case bodyEnded.refl =>
      refine ⟨got, ?_⟩
      rw [List.append_nil]
      dsimp only
      split_ifs with hfull
      · refine h.turn (.refl t) rfl rfl h.cancelled rfl rfl (by nofun) (fun i hi _ => ?_)
          (fun i hle hlt => absurd hlt (Nat.not_lt.mpr hle)) trivial
        obtain rfl : index = i := Option.some.inj hi
        exact .inr (.inl (by omega))
      · exact h.takesOn rfl (nextAttempt_part ..) (nextAttempt_isWorker ..)
          (fits_nextAttempt hlt hcount hoffset)
  | reporting index attempt offset source n err =>
    obtain ⟨hlt, hcount, hoffset, hpos, hend, hsource, hcovered⟩ := hfits
    cases o <;> cases hr
    · refine ⟨_, h.reports ?_ ?_ ?_⟩ <;> cases err <;> try rfl
      · refine ⟨hlt, hcount, ?_, hsource rfl⟩
        rw [Function.update_self]
        omega
      · exact hlt
    · exact ⟨_, h.reports rfl rfl hlt⟩
  | failing index offset err =>
    cases o <;> cases hr
    refine ⟨got, ?_⟩
    rw [List.append_nil]
    exact h.turn ⟨le_rfl, fun _ => rfl, id⟩ rfl rfl (fun _ => rfl) rfl rfl (by nofun)
      (fun _ _ _ => .inr (.inr (.inl rfl))) (fun i hle hlt => absurd hlt (Nat.not_lt.mpr hle)) rfl
  | cancelling =>
    cases o <;> cases hr
    refine ⟨got, ?_⟩
    rw [List.append_nil]
    exact h.turn ⟨le_rfl, id, id⟩ rfl rfl (fun _ => hfits) rfl rfl (by nofun) (by nofun)
      (fun i hle hlt => absurd hlt (Nat.not_lt.mpr hle)) (.inr (.inl hfits))
  | leaving =>
    cases o <;> cases hr
    refine ⟨got, ?_⟩
    rw [List.append_nil]
    refine h.turn ⟨le_rfl, id, id⟩ rfl rfl h.cancelled ?_ rfl (by nofun) (by nofun)
      (fun i hle hlt => absurd hlt (Nat.not_lt.mpr hle)) hfits
    have hwg := h.wg
    rw [List.countP_cons_of_pos (by rfl)] at hwg
    exact Nat.sub_add_cancel (hwg ▸ Nat.succ_pos _)
  | joining =>
    cases o <;> try cases hr
    obtain ⟨hwg, hr⟩ := Option.ite_none_right_eq_some.mp hr
    obtain rfl := Option.some.inj hr
    have hmoved : Holds s t (.returned :: others) trace got := h.moves rfl rfl rfl trivial
    refine ⟨got, hmoved.sees (by rfl) fun {pfx} hreturned => ?_⟩
    obtain ⟨rfl, herr⟩ := Event.returned.inj hreturned
    refine h.finished hwg fun hstopped => ?_
    split_ifs at herr with hctx
    obtain hfirst | hctx' := hstopped
    · rw [herr] at hfirst
      exact absurd hfirst (by nofun)
    · exact hctx hctx'
  | exited => cases o <;> cases hr
  | returned => cases o <;> cases hr

end Turns

variable {s : Span}

theorem holds_step {p q : TransferPool} {a : Action Outcome Unit}
    (h : ∃ got, Holds s p.shared p.tasks p.trace got) (hq : (system s).step p a = some q) :
    ∃ got, Holds s q.shared q.tasks q.trace got := by
  obtain ⟨got, h⟩ := h
  obtain ⟨i, o, g, r, others, rfl, -, hr, hshared, htrace, hp, hperm⟩ |
    ⟨e, r, rfl, hr, hshared, htrace, hperm⟩ := System.step_perm hq
  · obtain ⟨got', h'⟩ := holds_resume (h.perm hp) hr
    rw [hshared, htrace]
    exact ⟨got', h'.perm hperm.symm⟩
  · obtain rfl := Option.some.inj hr
    have hgrows : p.shared.Grows { p.shared with ctxErr := true } := ⟨le_rfl, id, fun _ => rfl⟩
    rw [hshared, htrace, List.append_nil]
    refine ⟨got, Holds.perm ?_ hperm.symm⟩
    exact
      { h with
        fits := fun g hg => List.append_nil p.trace ▸ (h.fits g hg).mono hgrows (fun _ _ => rfl) []
        complete := fun i hi hcount => .inr (.inr (.inr rfl)) }

theorem holds_downloadOriginal (s : Span) :
    Holds s (downloadOriginal s).shared (downloadOriginal s).tasks [] fun _ => 0 where
  merged := by
    have hcount : 0 < s.count := Nat.succ_pos _
    refine ⟨0, Nat.zero_le _, fun i => rfl, by intros; contradiction, ?_,
      fun h => Span.partLength_pos h⟩
    rw [if_pos hcount, Span.partStart]
    simp [downloadOriginal]
  got_le := fun _ => Nat.zero_le _
  nodup := by
    have hparts : (downloadOriginal s).tasks.filterMap Goroutine.part = [] := by
      refine List.filterMap_eq_nil_iff.mpr (List.forall_mem_cons.mpr ⟨rfl, fun g hg => ?_⟩)
      rw [List.eq_of_mem_replicate hg]
      rfl
    rw [hparts]
    exact List.nodup_nil
  fits := by
    refine List.forall_mem_cons.mpr ⟨trivial, fun g hg => ?_⟩
    rw [List.eq_of_mem_replicate hg]
    trivial
  complete := by intros; contradiction
  unclaimed := fun _ _ => rfl
  cancelled := by intros; contradiction
  wg := by
    simp only [downloadOriginal]
    rw [List.countP_cons_of_neg (by decide), List.countP_replicate, if_pos (by rfl)]
  worker := ⟨.idle, List.mem_cons_of_mem _ (List.mem_replicate.mpr ⟨s.workers_pos.ne', rfl⟩), rfl⟩
  covered := by
    intro i hi pos hle hlt
    omega
  inPart := by intros; contradiction
  earlier := by intros; contradiction
  contiguous := ⟨by intros; contradiction, by intros; contradiction, by simp,
    by intros; contradiction⟩

/-- The arguments say which range is transferred; the link, how. -/
theorem Span.ofArgs_range {present : Bool} {link : DownloadInfo} {fileSize start last : ℤ}
    (hs : Span.ofArgs present link fileSize start last = some s) : s.start = start ∧ s.last = last := by
  simp only [Span.ofArgs] at hs
  split_ifs at hs with hvalid hsize
  all_goals
    obtain rfl := Option.some.inj hs
    exact ⟨Int.toNat_of_nonneg hvalid.2.1, Int.toNat_of_nonneg (hvalid.2.1.trans hvalid.2.2)⟩

/-- For every link and in every run the prefix that is reported grows and is true, each part writes
at its own offsets, and a transfer that returns without an error has written the whole range. -/
theorem prefix_contiguous {present : Bool} {link : DownloadInfo} {fileSize start last : ℤ}
    (hs : Span.ofArgs present link fileSize start last = some s) (as : List (Action Outcome Unit)) :
    s.start = start ∧ s.last = last ∧
      (system s).Throughout (fun p => Contiguous s p.trace) (downloadOriginal s) as := by
  have hinv := System.throughout_of_step (S := system s)
    (I := fun p => ∃ got, Holds s p.shared p.tasks p.trace got)
    (fun _ _ _ hp hq => holds_step hp hq) ⟨_, holds_downloadOriginal s⟩ as
  obtain ⟨hstart, hlast⟩ := Span.ofArgs_range hs
  exact ⟨hstart, hlast, hinv.mono fun p ⟨_, hp⟩ => hp.contiguous⟩

/-- Six bytes in two parts. -/
def sixBytes : Span := ⟨0, 5, 4, 2, by decide, by decide, by decide⟩

/-- The second part is written before the first. -/
theorem prefix_contiguous_outOfOrder :
    Span.ofArgs true ⟨4, 2, 0, 0, 6⟩ 6 0 5 = some sixBytes ∧ (sixBytes.start : ℤ) = 0 ∧
      (sixBytes.last : ℤ) = 5 ∧
        (system sixBytes).Throughout (fun p => Contiguous sixBytes p.trace)
          (downloadOriginal sixBytes)
          [.resume 1 .turn, .resume 1 .turn, .resume 2 .turn, .resume 2 .turn, .resume 2 .responded,
            .resume 2 (.write 2 2 false), .resume 2 .turn, .resume 1 .responded,
            .resume 1 (.write 4 4 false), .resume 1 .turn] :=
  have hargs : Span.ofArgs true ⟨4, 2, 0, 0, 6⟩ 6 0 5 = some sixBytes := rfl
  ⟨hargs, prefix_contiguous hargs _⟩

end AllInOneBackup.LitePan.Playback
