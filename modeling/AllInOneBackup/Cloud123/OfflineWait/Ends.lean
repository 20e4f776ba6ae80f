import AllInOneBackup.Cloud123.OfflineWait.Manager
import Mathlib.Algebra.Order.Ring.Int
import Mathlib.Data.List.Forall2
import Mathlib.Tactic.Ring

/-! How long `wait_all` waits. A file that is found and cannot be finished is looked at again without
its deadline, and a file that is found by its size and cannot be renamed ends the wait for all.
Where neither happens, each look after a deadline uses up an extension or a resubmission, or ends
the file. -/

namespace AllInOneBackup.Cloud123.OfflineWait

/-! ### The property and the condition -/

/-- The waiting periods of a file. -/
def maxWaits : ℕ := 1 + OFFLINE_WAIT_EXTEND_MAX + TRANSFER_OFFLINE_RESUBMIT_MAX

/-- The file is done or failed when `maxWaits` periods have ended, and has been submitted again at
most `TRANSFER_OFFLINE_RESUBMIT_MAX` times. -/
structure OfflineItem.Bounded (item : OfflineItem) : Prop where
  overdue : item.overdue ≤ maxWaits
  resolved : item.overdue = maxWaits → item.Resolved
  recreated : item.recreated ≤ TRANSFER_OFFLINE_RESUBMIT_MAX

namespace Answer

variable (a : Answer)

/-- The look finds the file. -/
def Found : Prop := a.listed = true ∨ a.suspicious = none ∧ a.recovered = .found

instance : Decidable a.Found := inferInstanceAs (Decidable (_ ∨ _))

/-- The recovery raises. -/
def Raises : Prop := a.listed = false ∧ a.suspicious = none ∧ a.recovered = .raised

instance : Decidable a.Raises := inferInstanceAs (Decidable (_ ∧ _))

end Answer

/-- The recovery does not raise, and a file that is found after its deadline can be finished. -/
def Sound (c : Config) (item : OfflineItem) (a : Answer) (before : ℤ) : Prop :=
  ¬a.Raises ∧ (Overdue c item (before + a.elapsed) → a.Found → a.finished = true)

instance (c : Config) (item : OfflineItem) (a : Answer) (before : ℤ) :
    Decidable (Sound c item a before) :=
  inferInstanceAs (Decidable (_ ∧ _))

/-- Every look of a loop over the files is sound. -/
def SoundAll (c : Config) (answers : ℕ → Answer) : ℕ → ℤ → List OfflineItem → Prop
  | _, _, [] => True
  | i, now, item :: items =>
    if item.Inflight then
      Sound c item (answers i) now ∧
        ∀ r ∈ look c item (answers i) now, SoundAll c answers (i + 1) r.1 items
    else SoundAll c answers (i + 1) now items

instance instDecidableSoundAll (c : Config) (answers : ℕ → Answer) :
    ∀ (i : ℕ) (now : ℤ) (items : List OfflineItem), Decidable (SoundAll c answers i now items)
  | _, _, [] => .isTrue trivial
  | i, now, item :: items =>
    have := fun now => instDecidableSoundAll c answers (i + 1) now items
    inferInstanceAs (Decidable (if item.Inflight then
      Sound c item (answers i) now ∧
        ∀ r ∈ look c item (answers i) now, SoundAll c answers (i + 1) r.1 items
      else SoundAll c answers (i + 1) now items))

/-- Every look of the rounds is sound. -/
def Manager.Sound (c : Config) (m : Manager) : List Round → Prop
  | [] => True
  | r :: rs => (¬m.Finished → SoundAll c r.answers 0 m.now m.items) ∧
    ∀ m' ∈ m.round c r, m'.Sound c rs

instance Manager.instDecidableSound (c : Config) :
    ∀ (m : Manager) (rs : List Round), Decidable (m.Sound c rs)
  | _, [] => .isTrue trivial
  | m, r :: rs =>
    have := fun m' => Manager.instDecidableSound c m' rs
    inferInstanceAs (Decidable ((¬m.Finished → SoundAll c r.answers 0 m.now m.items) ∧
      ∀ m' ∈ m.round c r, Manager.Sound c m' rs))

/-! ### A look -/

/-- The extensions and resubmissions that are left. -/
def File.budget (file : File) : ℕ :=
  (OFFLINE_WAIT_EXTEND_MAX - file.offlineWaitExtends) +
    (TRANSFER_OFFLINE_RESUBMIT_MAX - file.offlineResubmits)

/-- What the counts of an item keep within, at a time not before its timer was set. -/
structure OfflineItem.Within (item : OfflineItem) (now : ℤ) : Prop where
  overdue : item.overdue ≤ maxWaits
  left : item.Resolved ∨ item.overdue + item.file.budget < maxWaits
  recreated : item.recreated + (TRANSFER_OFFLINE_RESUBMIT_MAX - item.file.offlineResubmits) ≤
    TRANSFER_OFFLINE_RESUBMIT_MAX
  started : item.startedMs ≤ now
  pending : item.Pending → item.overdue = 0 ∧ item.recreated = 0

/-- What a look makes of an item in flight: it is resolved, or it is as it was before its deadline,
or it waits again on a smaller budget. -/
inductive Looked (c : Config) (item item' : OfflineItem) (now later : ℤ) : Prop
  | resolved (h : item'.Resolved) (overdue : item'.overdue ≤ item.overdue + 1)
      (recreated : item'.recreated = item.recreated)
      (resubmits : item.file.offlineResubmits ≤ item'.file.offlineResubmits)
      (started : item'.startedMs = item.startedMs)
  | waiting (h : item' = item) (early : now - item.startedMs < c.deadlineMs)
  | renewed (h : item'.Inflight) (overdue : item'.overdue = item.overdue + 1)
      (budget : item'.file.budget < item.file.budget)
      (recreated : item'.recreated + (TRANSFER_OFFLINE_RESUBMIT_MAX - item'.file.offlineResubmits) ≤
        item.recreated + (TRANSFER_OFFLINE_RESUBMIT_MAX - item.file.offlineResubmits))
      (started : now ≤ item'.startedMs ∧ item'.startedMs ≤ later)

theorem renewSourceUrl_eq {file file' : File} {url : Option String}
    (h : renewSourceUrl file url = .ok file') :
    file'.offlineWaitExtends = file.offlineWaitExtends ∧
      file'.offlineResubmits = file.offlineResubmits := by
  have hstale : ∀ {f}, renewSourceUrl.stale file = .ok f → f = file := by
    intro f hf
    unfold renewSourceUrl.stale at hf
    split_ifs at hf
    cases hf
    rfl
  unfold renewSourceUrl at h
  split at h
  · split_ifs at h
    · cases h
      exact ⟨rfl, rfl⟩
    · rw [hstale h]
      exact ⟨rfl, rfl⟩
  · rw [hstale h]
    exact ⟨rfl, rfl⟩

/-- After the deadline. -/
theorem looked_expire (c : Config) {item : OfflineItem} (hin : item.Inflight) (a : Answer)
    {now now' : ℤ} (hnow : now ≤ now') :
    Looked c item (expire { item with overdue := item.overdue + 1 } a now').2 now
        (expire { item with overdue := item.overdue + 1 } a now').1 ∧
      now' ≤ (expire { item with overdue := item.overdue + 1 } a now').1 := by
  have hlater : now' ≤ now' + a.elapsedAfter := by omega
  simp only [expire]
  generalize (if item.file.offlineTaskId = 0 then none else a.status) = status
  split
  case isTrue h =>
    refine ⟨.renewed ⟨hin.1, hin.2.1, hin.2.2⟩ rfl ?_ le_rfl ⟨hnow.trans hlater, le_rfl⟩, hlater⟩
    have := h.2
    simp only [File.budget]
    omega
  case isFalse h =>
    split
    case isTrue h => exact ⟨.resolved (Or.inr rfl) le_rfl rfl le_rfl rfl, hlater⟩
    case isFalse h =>
      split
      case isTrue h =>
        split
        case h_1 e he => exact ⟨.resolved (Or.inr rfl) le_rfl rfl (Nat.le_succ _) rfl, hlater⟩
        case h_2 file hfile =>
          obtain ⟨hext, hres⟩ := renewSourceUrl_eq hfile
          simp only at hext hres
          split
          case h_1 e he =>
            refine ⟨.resolved (Or.inr rfl) le_rfl rfl ?_ rfl, hlater⟩
            simp only [OfflineItem.markFailed]
            omega
          case h_2 id hid =>
            refine ⟨.renewed ⟨hin.1, hin.2.1, hin.2.2⟩ rfl ?_ ?_ ⟨hnow.trans hlater, le_rfl⟩, hlater⟩
            · simp only [File.budget]
              omega
            · simp only
              omega
      case isFalse h => exact ⟨.resolved (Or.inr rfl) le_rfl rfl le_rfl rfl, hlater⟩

/-- A sound look does not raise. -/
theorem look_spec {c : Config} {item : OfflineItem} {a : Answer} {now before : ℤ}
    (hin : item.Inflight) (hnow : now ≤ before) (hs : Sound c item a before) :
    ∃ later item', look c item a before = some (later, item') ∧ before ≤ later ∧
      Looked c item item' now later := by
  have hcheck : before ≤ before + a.elapsed := by omega
  obtain ⟨hraises, hfinish⟩ := hs
  by_cases hover : Overdue c item (before + a.elapsed)
  · have hdone : Looked c item { item with overdue := item.overdue + 1, done := true } now
        (before + a.elapsed) := .resolved (Or.inl rfl) le_rfl rfl le_rfl rfl
    simp only [look, if_pos hover]
    cases hl : a.listed with
    | true =>
      rw [hfinish hover (Or.inl hl)]
      exact ⟨_, _, rfl, hcheck, hdone⟩
    | false =>
      cases hsusp : a.suspicious with
      | some name => exact ⟨_, _, rfl, hcheck, .resolved (Or.inr rfl) le_rfl rfl le_rfl rfl⟩
      | none =>
        cases hrec : a.recovered with
        | raised => exact absurd ⟨hl, hsusp, hrec⟩ hraises
        | found =>
          rw [hfinish hover (Or.inr ⟨hsusp, hrec⟩)]
          exact ⟨_, _, rfl, hcheck, hdone⟩
        | none =>
          have hexp := looked_expire c hin a (le_trans hnow hcheck)
          exact ⟨_, _, if_pos hover, le_trans hcheck hexp.2, hexp.1⟩
  · have hearly : now - item.startedMs < c.deadlineMs := by
      have := not_le.mp hover
      omega
    have hwait : Looked c item (if a.finished then { item with done := true } else item) now
        (before + a.elapsed) := by
      split_ifs
      · exact .resolved (Or.inl rfl) (Nat.le_succ _) rfl le_rfl rfl
      · exact .waiting rfl hearly
    simp only [look, if_neg hover]
    cases hl : a.listed with
    | true => exact ⟨_, _, rfl, hcheck, hwait⟩
    | false =>
      cases hsusp : a.suspicious with
      | some name =>
        exact ⟨_, _, rfl, hcheck, .resolved (Or.inr rfl) (Nat.le_succ _) rfl le_rfl rfl⟩
      | none =>
        cases hrec : a.recovered with
        | raised => exact absurd ⟨hl, hsusp, hrec⟩ hraises
        | found => exact ⟨_, _, rfl, hcheck, hwait⟩
        | none => exact ⟨_, _, rfl, hcheck, .waiting rfl hearly⟩

/-! ### The rounds that are left -/

/-- At most so many rounds until an item in flight is resolved. -/
def roundsLeft (c : Config) (item : OfflineItem) (now : ℤ) : ℕ :=
  item.file.budget * (c.maxPolls + 1) +
    (c.maxPolls - ((now - item.startedMs) / c.pollMs).toNat) + 1

namespace Looked

variable {c : Config} {item item' : OfflineItem} {now later : ℤ}

/-- A look keeps the counts of an item within their bounds. -/
theorem within (h : Looked c item item' now later) (hin : item.Inflight) (hw : item.Within now)
    (hle : now ≤ later) : item'.Within later := by
  have hunresolved : ¬item.Resolved := by
    rintro (hd | hf)
    · rw [hin.2.1] at hd
      cases hd
    · rw [hin.2.2] at hf
      cases hf
  have hleft := hw.left.resolve_left hunresolved
  have hrecreated := hw.recreated
  have hstarted := hw.started
  cases h with
  | resolved h overdue recreated resubmits started =>
    refine ⟨by omega, Or.inl h, by omega, by omega, ?_⟩
    rintro ⟨-, hd, hf⟩
    rcases h with h | h
    · rw [hd] at h
      cases h
    · rw [hf] at h
      cases h
  | waiting h early =>
    rw [h]
    exact ⟨hw.overdue, hw.left, hw.recreated, by omega, hw.pending⟩
  | renewed h overdue budget recreated started =>
    refine ⟨by omega, Or.inr (by omega), by omega, started.2, ?_⟩
    rintro ⟨hs, -⟩
    rw [h.1] at hs
    cases hs

/-- After a look an item is resolved, or fewer rounds are left in the next round. -/
theorem left_lt (h : Looked c item item' now later) (hin : item.Inflight)
    (hstarted : item.startedMs ≤ now) (hle : now ≤ later) {next : ℤ}
    (hnext : later + c.pollMs ≤ next) :
    item'.Resolved ∨ item'.Inflight ∧ roundsLeft c item' next < roundsLeft c item now := by
  cases h with
  | resolved h => exact Or.inl h
  | waiting h early =>
    rw [h]
    have hpoll : (0 : ℤ) < c.pollMs := by
      have : 2000 ≤ c.pollMs := Nat.le_max_left _ _
      omega
    rw [Config.deadlineMs_eq, Nat.cast_mul] at early
    -- A round more has gone by, and before the deadline that is one of `maxPolls`.
    have hlt : (now - item.startedMs) / c.pollMs < c.maxPolls := Int.ediv_lt_of_lt_mul hpoll early
    have hnonneg : 0 ≤ (now - item.startedMs) / c.pollMs := Int.ediv_nonneg (by omega) hpoll.le
    have hstep : (now - item.startedMs) / c.pollMs + 1 ≤ (next - item.startedMs) / c.pollMs := by
      rw [← Int.add_mul_ediv_right _ 1 hpoll.ne']
      exact Int.ediv_le_ediv hpoll (by omega)
    refine Or.inr ⟨hin, ?_⟩
    simp only [roundsLeft]
    omega
  | renewed h overdue budget =>
    refine Or.inr ⟨h, ?_⟩
    calc roundsLeft c item' next ≤ item'.file.budget * (c.maxPolls + 1) + c.maxPolls + 1 := by
          simp only [roundsLeft]
          omega
      _ = (item'.file.budget + 1) * (c.maxPolls + 1) := by ring
      _ ≤ item.file.budget * (c.maxPolls + 1) := Nat.mul_le_mul_right _ budget
      _ < roundsLeft c item now := by
          simp only [roundsLeft]
          omega

end Looked

/-! ### A round -/

/-- What a round makes of an item: one in flight is looked at, a pending one may be submitted. -/
def Turned (c : Config) (now later : ℤ) (item item' : OfflineItem) : Prop :=
  if item.Inflight then Looked c item item' now later else item' = item

theorem Turned.mono {c : Config} {now later later' : ℤ} {item item' : OfflineItem}
    (h : Turned c now later item item') (hle : later ≤ later') : Turned c now later' item item' := by
  unfold Turned at *
  split_ifs at * with hin
  · cases h with
    | resolved h overdue recreated resubmits started =>
      exact .resolved h overdue recreated resubmits started
    | waiting h early => exact .waiting h early
    | renewed h overdue budget recreated started =>
      exact .renewed h overdue budget recreated ⟨started.1, started.2.trans hle⟩
  · exact h

/-- A sound loop over the files does not raise. -/
theorem lookAll_spec {c : Config} {answers : ℕ → Answer} {items : List OfflineItem} {i : ℕ}
    {start now : ℤ} (hstart : start ≤ now) (hs : SoundAll c answers i now items) :
    ∃ later items', lookAll c answers i now items = some (later, items') ∧ now ≤ later ∧
      List.Forall₂ (Turned c start later) items items' := by
  induction items generalizing i now with
  | nil => exact ⟨now, [], rfl, le_rfl, .nil⟩
  | cons item items ih =>
    by_cases hin : item.Inflight
    · simp only [SoundAll, if_pos hin] at hs
      obtain ⟨later, item', hlook, hle, hlooked⟩ := look_spec hin hstart hs.1
      obtain ⟨later', items', hrest, hle', hturned⟩ := ih (hstart.trans hle) (hs.2 _ hlook)
      refine ⟨later', item' :: items', ?_, hle.trans hle', .cons ?_ hturned⟩
      · simp only [lookAll, if_pos hin, hlook, Option.bind_some, hrest, Option.map_some]
      · have hself : Turned c start later item item' := by
          rw [Turned, if_pos hin]
          exact hlooked
        exact hself.mono hle'
    · simp only [SoundAll, if_neg hin] at hs
      obtain ⟨later, items', hrest, hle, hturned⟩ := ih hstart hs
      refine ⟨later, item :: items', ?_, hle, .cons ?_ hturned⟩
      · simp only [lookAll, if_neg hin, hrest, Option.map_some]
      · rw [Turned, if_neg hin]

/-- What `fill` makes of an item. -/
def Filled (later : ℤ) (item item' : OfflineItem) : Prop :=
  item' = item ∨ item.Pending ∧ (item'.Inflight ∨ item'.Resolved) ∧
    item'.overdue = item.overdue ∧ item'.recreated = item.recreated ∧
    (item'.startedMs = item.startedMs ∨ item'.startedMs ≤ later)

theorem Filled.mono {later later' : ℤ} {item item' : OfflineItem} (h : Filled later item item')
    (hle : later ≤ later') : Filled later' item item' := by
  rcases h with h | ⟨hp, hsub, hover, hrec, hstart⟩
  · exact Or.inl h
  · exact Or.inr ⟨hp, hsub, hover, hrec, hstart.imp_right fun h => h.trans hle⟩

theorem submit_spec {item : OfflineItem} (hp : item.Pending) (s : Submission) (now : ℤ) :
    now ≤ (submit item s now).1 ∧ Filled (submit item s now).1 item (submit item s now).2 := by
  have hlater : now ≤ now + s.elapsed := by omega
  unfold submit
  split_ifs
  · cases s.result with
    | error e => exact ⟨hlater, Or.inr ⟨hp, Or.inr (Or.inr rfl), rfl, rfl, Or.inl rfl⟩⟩
    | ok r =>
      exact ⟨hlater, Or.inr ⟨hp, Or.inl ⟨rfl, hp.2.1, hp.2.2⟩, rfl, rfl, Or.inr le_rfl⟩⟩
  · exact ⟨le_rfl, Or.inr ⟨hp, Or.inr (Or.inr rfl), rfl, rfl, Or.inl rfl⟩⟩

theorem fill_spec (c : Config) (slots : ℕ → Option Submission) (items : List OfflineItem)
    (k inflight : ℕ) (now : ℤ) :
    now ≤ (fill c slots k inflight now items).1 ∧
      List.Forall₂ (Filled (fill c slots k inflight now items).1) items
        (fill c slots k inflight now items).2 := by
  have hrfl : ∀ later items, List.Forall₂ (Filled later) items items := fun later items =>
    List.forall₂_same.mpr fun item _ => Or.inl rfl
  induction items generalizing k inflight now with
  | nil => exact ⟨le_rfl, .nil⟩
  | cons item items ih =>
    simp only [fill]
    split_ifs with hp hroom
    · split
      case h_1 => exact ⟨le_rfl, hrfl _ _⟩
      case h_2 s hs =>
        obtain ⟨hle, hfilled⟩ := submit_spec hp s now
        obtain ⟨hle', hrest⟩ := ih (k + 1)
          (if (submit item s now).2.Inflight then inflight + 1 else inflight) (submit item s now).1
        exact ⟨hle.trans hle', .cons (hfilled.mono hle') hrest⟩
    · exact ⟨le_rfl, hrfl _ _⟩
    · obtain ⟨hle, hrest⟩ := ih k inflight now
      exact ⟨hle, .cons (Or.inl rfl) hrest⟩

theorem Filled.within {now later : ℤ} {item item' : OfflineItem} (h : Filled later item item')
    (hw : item.Within now) (hle : now ≤ later) : item'.Within later := by
  rcases h with rfl | ⟨hp, hsub, hover, hrec, hstart⟩
  · exact ⟨hw.overdue, hw.left, hw.recreated, hw.started.trans hle, hw.pending⟩
  · obtain ⟨hzero, hzero'⟩ := hw.pending hp
    have hstarted := hw.started
    refine ⟨by omega, Or.inr ?_, by omega, by omega, fun hp' => ⟨by omega, by omega⟩⟩
    simp only [File.budget, maxWaits]
    omega

theorem forall_mem_of_forall₂ {α β : Type} {R : α → β → Prop} {P : α → Prop} {Q : β → Prop}
    {l : List α} {l' : List β} (h : List.Forall₂ R l l') (hPQ : ∀ a b, R a b → P a → Q b)
    (hP : ∀ a ∈ l, P a) : ∀ b ∈ l', Q b := by
  induction h with
  | nil => exact List.forall_mem_nil _
  | cons hab _ ih =>
    obtain ⟨ha, hl⟩ := List.forall_mem_cons.mp hP
    exact List.forall_mem_cons.mpr ⟨hPQ _ _ hab ha, ih hl⟩

/-- The item is resolved, or it is in flight and will be resolved within so many rounds. -/
def Ranked (c : Config) (n : ℕ) (now : ℤ) (item : OfflineItem) : Prop :=
  item.Resolved ∨ item.Inflight ∧ roundsLeft c item now ≤ n

theorem Ranked.mono {c : Config} {n : ℕ} {now later : ℤ} {item : OfflineItem}
    (h : Ranked c n now item) (hle : now ≤ later) : Ranked c n later item := by
  refine h.imp_right fun ⟨hin, hleft⟩ => ⟨hin, le_trans ?_ hleft⟩
  have hpoll : (0 : ℤ) < c.pollMs := by
    have : 2000 ≤ c.pollMs := Nat.le_max_left _ _
    omega
  have hdiv : (now - item.startedMs) / c.pollMs ≤ (later - item.startedMs) / c.pollMs :=
    Int.ediv_le_ediv hpoll (by omega)
  simp only [roundsLeft]
  omega

theorem not_inflight_of_resolved {item : OfflineItem} (h : item.Resolved) :
    ¬item.Inflight ∧ ¬item.Pending := by
  constructor <;> rintro ⟨-, hd, hf⟩ <;> rcases h with h | h <;> simp_all

theorem OfflineItem.Within.mono {item : OfflineItem} {now later : ℤ} (h : item.Within now)
    (hle : now ≤ later) : item.Within later :=
  ⟨h.overdue, h.left, h.recreated, h.started.trans hle, h.pending⟩

theorem Turned.within {c : Config} {now later : ℤ} {item item' : OfflineItem}
    (h : Turned c now later item item') (hle : now ≤ later) (hw : item.Within now) :
    item'.Within later := by
  unfold Turned at h
  split_ifs at h with hin
  · exact h.within hin hw hle
  · rw [h]
    exact hw.mono hle

theorem Turned.ranked {c : Config} {n : ℕ} {now later : ℤ} {item item' : OfflineItem}
    (h : Turned c now later item item') (hle : now ≤ later) (hw : item.Within now)
    (hr : Ranked c (n + 1) now item) : Ranked c n (later + c.pollMs) item' := by
  unfold Turned at h
  split_ifs at h with hin
  · refine (h.left_lt hin hw.started hle le_rfl).imp_right fun ⟨hin', hlt⟩ => ⟨hin', ?_⟩
    rcases hr with hr | ⟨-, hr⟩
    · exact absurd hin (not_inflight_of_resolved hr).1
    · omega
  · rw [h]
    exact Or.inl (hr.resolve_right fun hr => hin hr.1)

theorem Filled.ranked {c : Config} {n : ℕ} {now later : ℤ} {item item' : OfflineItem}
    (h : Filled later item item') (hr : Ranked c n now item) : Ranked c n now item' := by
  rcases h with rfl | ⟨hp, -⟩
  · exact hr
  · rcases hr with hr | ⟨hin, -⟩
    · exact absurd hp (not_inflight_of_resolved hr).2
    · have hnot := hp.1
      rw [hin.1] at hnot
      cases hnot

/-- A sound round keeps the counts within their bounds, and when nothing is pending one round less
is left. -/
theorem round_spec {c : Config} {m : Manager} {r : Round}
    (hs : ¬m.Finished → SoundAll c r.answers 0 m.now m.items)
    (hw : ∀ item ∈ m.items, item.Within m.now) :
    ∃ m', m.round c r = some m' ∧ (∀ item ∈ m'.items, item.Within m'.now) ∧
      ∀ n, (∀ item ∈ m.items, Ranked c (n + 1) m.now item) →
        ∀ item ∈ m'.items, Ranked c n m'.now item := by
  by_cases hfin : m.Finished
  · exact ⟨m, if_pos hfin, hw, fun n _ item hi => Or.inl (hfin item hi)⟩
  obtain ⟨later, items, hlook, hle, hturned⟩ := lookAll_spec le_rfl (hs hfin)
  obtain ⟨hle', hfilled⟩ := fill_spec c r.slots items 0
    (items.countP fun item => item.Inflight) later
  refine ⟨_, by rw [Manager.round, if_neg hfin, hlook]; rfl, ?_, fun n hrank => ?_⟩
  · have hlooked := forall_mem_of_forall₂ hturned (fun _ _ h hw => h.within hle hw) hw
    have hfill := forall_mem_of_forall₂ hfilled (fun _ _ h hw => h.within hw hle') hlooked
    intro item hi
    apply (hfill item hi).mono
    simp only [Manager.fillSlots]
    omega
  · have hlooked := forall_mem_of_forall₂
      (P := fun item => item.Within m.now ∧ Ranked c (n + 1) m.now item) hturned
      (fun _ _ h hwr => h.ranked hle hwr.1 hwr.2) fun item hi => ⟨hw item hi, hrank item hi⟩
    have hfill := forall_mem_of_forall₂ hfilled (fun _ _ h hr => h.ranked hr) hlooked
    intro item hi
    apply (hfill item hi).mono
    simp only [Manager.fillSlots]
    omega

/-! ### The wait -/

theorem rounds_spec {c : Config} {m : Manager} {rs : List Round} (hs : m.Sound c rs)
    (hw : ∀ item ∈ m.items, item.Within m.now) :
    ∃ m', m.rounds c rs = some m' ∧ (∀ item ∈ m'.items, item.Within m'.now) ∧
      ∀ n, (∀ item ∈ m.items, Ranked c (n + rs.length) m.now item) →
        ∀ item ∈ m'.items, Ranked c n m'.now item := by
  induction rs generalizing m with
  | nil => exact ⟨m, rfl, hw, fun n hr => hr⟩
  | cons r rs ih =>
    obtain ⟨m₁, hround, hw₁, hr₁⟩ := round_spec hs.1 hw
    obtain ⟨m₂, hrounds, hw₂, hr₂⟩ := ih (hs.2 m₁ hround) hw₁
    refine ⟨m₂, ?_, hw₂, fun n hr => hr₂ n (hr₁ (n + rs.length) hr)⟩
    rw [Manager.rounds, hround, Option.bind_some, hrounds]

theorem rounds_append (c : Config) (m : Manager) (as bs : List Round) :
    m.rounds c (as ++ bs) = (m.rounds c as).bind fun m => m.rounds c bs := by
  induction as generalizing m with
  | nil => rfl
  | cons r as ih => simp only [List.cons_append, Manager.rounds, ih, Option.bind_assoc]

theorem Manager.Sound.append {c : Config} {m m' : Manager} {as bs : List Round}
    (h : m.Sound c (as ++ bs)) (hr : m.rounds c as = some m') : m.Sound c as ∧ m'.Sound c bs := by
  induction as generalizing m with
  | nil =>
    cases hr
    exact ⟨trivial, h⟩
  | cons r as ih =>
    obtain ⟨m₁, hround, hrest⟩ := Option.bind_eq_some_iff.mp hr
    obtain ⟨has, hbs⟩ := ih (h.2 m₁ hround) hrest
    refine ⟨⟨h.1, fun m₂ hm₂ => ?_⟩, hbs⟩
    rw [← Option.some.inj (hround.symm.trans hm₂)]
    exact has

theorem within_newManager (now : ℤ) (entries : List Entry) :
    ∀ item ∈ (newManager now entries).items, item.Within now := by
  have hfresh : ∀ item : OfflineItem, item.overdue = 0 → item.recreated = 0 →
      item.startedMs ≤ now → item.Within now := by
    intro item hover hrec hstart
    refine ⟨by omega, Or.inr ?_, by omega, hstart, fun _ => ⟨hover, hrec⟩⟩
    simp only [File.budget, maxWaits]
    omega
  intro item hi
  obtain ⟨entry, -, rfl⟩ := List.mem_map.mp hi
  cases entry with
  | queued file => exact hfresh _ rfl rfl le_rfl
  | resumed file age => exact hfresh _ rfl rfl (Int.sub_le_self _ (Int.natCast_nonneg age))

theorem OfflineItem.Within.bounded {item : OfflineItem} {now : ℤ} (h : item.Within now) :
    item.Bounded := by
  have hrecreated := h.recreated
  refine ⟨h.overdue, fun hmax => h.left.resolve_right ?_, by omega⟩
  omega

/-- An item in flight is resolved within its waiting periods, of `maxPolls` rounds and one each. -/
theorem ranked_of_not_pending (c : Config) {item : OfflineItem} (now : ℤ) (hp : ¬item.Pending) :
    Ranked c (maxWaits * (c.maxPolls + 1)) now item := by
  by_cases hres : item.Resolved
  · exact Or.inl hres
  have hin : item.Inflight := by
    obtain ⟨hdone, hfailed⟩ := not_or.mp hres
    have hdone := Bool.eq_false_of_not_eq_true hdone
    have hfailed := Bool.eq_false_of_not_eq_true hfailed
    refine ⟨?_, hdone, hfailed⟩
    by_contra hsub
    exact hp ⟨Bool.eq_false_of_not_eq_true hsub, hdone, hfailed⟩
  have hbudget : item.file.budget + 1 ≤ maxWaits := by
    simp only [File.budget, maxWaits]
    omega
  refine Or.inr ⟨hin, ?_⟩
  calc roundsLeft c item now ≤ item.file.budget * (c.maxPolls + 1) + c.maxPolls + 1 := by
        simp only [roundsLeft]
        omega
    _ = (item.file.budget + 1) * (c.maxPolls + 1) := by ring
    _ ≤ maxWaits * (c.maxPolls + 1) := Nat.mul_le_mul_right _ hbudget

/-- When the recovery never raises and every file that is found after its deadline can be finished,
`wait_all` does not raise, each file is done or failed when its waiting periods have ended and is
submitted again at most `TRANSFER_OFFLINE_RESUBMIT_MAX` times, and `wait_all` returns within the
rounds of these periods after the last file has got a slot. -/
theorem wait_all_ends {c : Config} {now : ℤ} {entries : List Entry}
    {slots : ℕ → Option Submission} {rs : List Round}
    (hs : ((newManager now entries).fillSlots c slots).Sound c rs) :
    ∃ m, (newManager now entries).waitAll c slots rs = some m ∧
      (∀ item ∈ m.items, item.Bounded) ∧
      ∀ k m', (newManager now entries).waitAll c slots (rs.take k) = some m' →
        (∀ item ∈ m'.items, ¬item.Pending) →
        k + maxWaits * (c.maxPolls + 1) ≤ rs.length → m.Finished := by
  have hfill := fill_spec c slots (newManager now entries).items 0
    ((newManager now entries).items.countP fun item => item.Inflight) now
  have hw : ∀ item ∈ ((newManager now entries).fillSlots c slots).items,
      item.Within ((newManager now entries).fillSlots c slots).now :=
    forall_mem_of_forall₂ hfill.2 (fun _ _ h hw => h.within hw hfill.1)
      (within_newManager now entries)
  obtain ⟨m, hm, hwm, -⟩ := rounds_spec hs hw
  refine ⟨m, hm, fun item hi => (hwm item hi).bounded, fun k m' hm' hpending hk => ?_⟩
  have hsplit : rs = rs.take k ++ rs.drop k := (List.take_append_drop k rs).symm
  rw [hsplit] at hs hm
  obtain ⟨hsk, hsrest⟩ := hs.append hm'
  obtain ⟨m₁, hm₁, hwm', -⟩ := rounds_spec hsk hw
  obtain rfl := Option.some.inj (hm₁.symm.trans hm')
  obtain ⟨m₂, hm₂, -, hrank⟩ := rounds_spec hsrest hwm'
  rw [rounds_append, hm₁, Option.bind_some] at hm
  obtain rfl := Option.some.inj (hm₂.symm.trans hm)
  intro item hi
  have hlen : maxWaits * (c.maxPolls + 1) ≤ 0 + (rs.drop k).length := by
    rw [List.length_drop]
    omega
  rcases hrank 0 (fun item hi => (ranked_of_not_pending c _ (hpending item hi)).imp_right
    fun h => ⟨h.1, h.2.trans hlen⟩) item hi with hres | ⟨-, hleft⟩
  · exact hres
  · simp only [roundsLeft] at hleft
    omega

/-- A queued file that is not there in the first round, and found in the second. -/
theorem wait_all_ends_found :
    let rs : List Round :=
      [⟨fun _ => ⟨100, false, none, .none, true, none, none, .ok 8, 100⟩, fun _ => none, 0⟩,
        ⟨fun _ => ⟨100, true, none, .none, true, none, none, .ok 8, 100⟩, fun _ => none, 0⟩]
    let m₀ := newManager 0 [.queued ⟨"", 0, 0, 0, none, true⟩]
    let slots : ℕ → Option Submission := fun _ => some ⟨.ok ("url", 7), 500⟩
    ∃ m, m₀.waitAll ⟨2000, 1, 1⟩ slots rs = some m ∧ (∀ item ∈ m.items, item.Bounded) ∧
      ∀ k m', m₀.waitAll ⟨2000, 1, 1⟩ slots (rs.take k) = some m' →
        (∀ item ∈ m'.items, ¬item.Pending) →
        k + maxWaits * (Config.maxPolls ⟨2000, 1, 1⟩ + 1) ≤ rs.length → m.Finished :=
  wait_all_ends (by decide)

/-- A file that is found in every round and can never be renamed is never given up. -/
theorem found_never_finished : ¬∀ (c : Config) (now : ℤ) (entries : List Entry)
    (slots : ℕ → Option Submission) (rs : List Round),
    ∃ m, (newManager now entries).waitAll c slots rs = some m ∧ ∀ item ∈ m.items, item.Bounded := by
  intro h
  obtain ⟨m, hm, hbounded⟩ := h ⟨2000, 1, 1⟩ 0 [.resumed ⟨"url", 7, 0, 0, none, true⟩ 0]
    (fun _ => none)
    (List.replicate 12
      ⟨fun _ => ⟨0, true, none, .none, false, none, none, .ok 8, 0⟩, fun _ => none, 0⟩)
  have hoverdue : ∀ m ∈ (newManager 0 [.resumed ⟨"url", 7, 0, 0, none, true⟩ 0]).waitAll
      ⟨2000, 1, 1⟩ (fun _ => none) (List.replicate 12
        ⟨fun _ => ⟨0, true, none, .none, false, none, none, .ok 8, 0⟩, fun _ => none, 0⟩),
      ¬∀ item ∈ m.items, item.overdue ≤ maxWaits := by
    decide
  exact hoverdue m hm fun item hi => (hbounded item hi).overdue

end AllInOneBackup.Cloud123.OfflineWait
