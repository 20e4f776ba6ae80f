import AllInOneBackup.Concurrency.Pool
import Mathlib.Data.List.Sort
import Mathlib.Data.Rat.Floor
import Mathlib.Tactic.Linarith
import Mathlib.Tactic.NormNum

/-! The adaptive limit of outbound requests. An adjustment takes the window of observations in one
critical section and writes the limit in another. Without a sample it returns after the first one,
which has then cleared the drops. -/

namespace AllInOneBackup.PanSou.AdaptiveConcurrency

open Concurrency

/-! ### `adaptive_concurrency.go` -/

def adaptiveQueueFactor : ℚ := 8 / 5
def adaptiveIncreaseRatio : ℚ := 1 / 8
def adaptiveDecreaseRatio : ℚ := 17 / 20
def adaptiveFloorRelax : ℚ := 1 / 8
def adaptiveMinLimit : ℚ := 8
def defaultOutboundMaxConcurrency : ℤ := 128

/-- `int` of a float. -/
def truncate (x : ℚ) : ℤ := x.num.tdiv x.den

/-- The controller; durations are in nanoseconds. -/
structure Controller where
  limit : ℚ
  minLimit : ℚ
  maxLimit : ℚ
  floor : ℤ := 0
  win : List ℤ := []
  dropped : ℕ := 0
  adjustCount : ℕ := 0
  deriving DecidableEq

/-- What `save` has written. -/
structure AdaptiveState where
  limit : ℚ
  floor : ℤ
  deriving DecidableEq

def Controller.load (a : Controller) : Option AdaptiveState → Controller
  | none => a
  | some st =>
    { a with
      limit := if a.minLimit ≤ st.limit ∧ st.limit ≤ a.maxLimit then st.limit else a.limit
      floor := if 0 < st.floor then st.floor else a.floor }

def newAdaptiveConcurrency (taskCount ceiling : ℤ) (st : Option AdaptiveState) : Controller :=
  let ceiling := if ceiling ≤ 0 then defaultOutboundMaxConcurrency else ceiling
  let maxLimit : ℚ := ceiling
  let initial : ℚ := taskCount / 4
  let initial := if initial < adaptiveMinLimit then adaptiveMinLimit else initial
  let initial := if initial > maxLimit then maxLimit else initial
  let maxLimit := if maxLimit < adaptiveMinLimit then adaptiveMinLimit else maxLimit
  Controller.load { limit := initial, minLimit := adaptiveMinLimit, maxLimit := maxLimit } st

def observeTask (a : Controller) (d : ℤ) : Controller :=
  if d ≤ 0 then a else { a with win := a.win ++ [d] }

def observeDropped (a : Controller) : Controller := { a with dropped := a.dropped + 1 }

def p90Of (s : List ℤ) : ℤ :=
  if s = [] then 0
  else (s.insertionSort (· ≤ ·)).getD (truncate (9 / 10 * (s.length - 1 : ℤ))).toNat 0

/-- What an adjustment takes in its first critical section. -/
structure Window where
  win : List ℤ
  dropped : ℕ
  limit : ℚ
  floor : ℤ
  deriving DecidableEq

def takeWindow (a : Controller) : Window × Controller :=
  (⟨a.win, a.dropped, a.limit, a.floor⟩, { a with win := [], dropped := 0 })

inductive Reason
  | noSamples
  | overload (p90 floor : ℤ) (dropped : ℕ)
  | free (p90 floor : ℤ)
  deriving DecidableEq

/-- What an adjustment computes between its critical sections, reading the bounds. -/
def nextLimit (a : Controller) (w : Window) : ℚ × ℤ × Reason :=
  let p90 := p90Of w.win
  let floor :=
    if w.floor = 0 ∨ p90 < w.floor then p90
    else if p90 > w.floor then w.floor + truncate ((p90 - w.floor : ℤ) * adaptiveFloorRelax)
    else w.floor
  let queued := floor > 0 ∧ (p90 : ℚ) > floor * adaptiveQueueFactor
  let overload := w.dropped > 0 ∨ queued
  let limit :=
    if overload then w.limit * adaptiveDecreaseRatio else w.limit + w.limit * adaptiveIncreaseRatio
  let reason := if overload then .overload p90 floor w.dropped else .free p90 floor
  let limit := if limit > a.maxLimit then a.maxLimit else limit
  let limit := if limit < a.minLimit then a.minLimit else limit
  (limit, floor, reason)

structure Adjusted where
  changed : Bool
  before : ℤ
  after : ℤ
  reason : Reason
  deriving DecidableEq

/-- `adjust`: before its first critical section, after it, before the second one, and at its end. -/
inductive Adjust
  | begun
  | taken (w : Window)
  | decided (w : Window) (limit : ℚ) (floor : ℤ) (reason : Reason)
  | returned (w : Window) (result : Adjusted)
  deriving DecidableEq

/-- `adaptiveGlobal` and `adaptiveCeil`. -/
structure Shared where
  adaptiveGlobal : Option Controller := none
  adaptiveCeil : ℤ := 0
  deriving DecidableEq

inductive Event
  | sharedAdaptiveConcurrency (taskCount ceiling : ℤ) (st : Option AdaptiveState)
  | observeTask (d : ℤ)
  | observeDropped
  | adjust
  deriving DecidableEq

abbrev AdjustTurn := Turn Shared Adjust Window

abbrev AdjustPool := Pool Shared Adjust Window

def sharedAdaptiveConcurrency (sh : Shared) (taskCount ceiling : ℤ) (st : Option AdaptiveState) :
    Shared :=
  match sh.adaptiveGlobal with
  | none => ⟨some (newAdaptiveConcurrency taskCount ceiling st), ceiling⟩
  | some a => if ceiling > sh.adaptiveCeil then ⟨some { a with maxLimit := ceiling }, ceiling⟩ else sh

/-- A turn of an adjustment of the controller; what it takes is seen. -/
def adjust (sh : Shared) (a : Controller) : Adjust → Option AdjustTurn
  | .begun =>
    let (w, a') := takeWindow a
    some
      { shared := { sh with adaptiveGlobal := some a' }
        seen := [w]
        task :=
          if w.win = [] then
            .returned w ⟨false, truncate w.limit, truncate w.limit, .noSamples⟩
          else .taken w }
  | .taken w =>
    let (limit, floor, reason) := nextLimit a w
    some { shared := sh, task := .decided w limit floor reason }
  | .decided w limit floor reason =>
    let a' := { a with limit := limit, floor := floor, adjustCount := a.adjustCount + 1 }
    some
      { shared := { sh with adaptiveGlobal := some a' }
        task := .returned w
          ⟨truncate limit ≠ truncate a.limit, truncate w.limit, truncate limit, reason⟩ }
  | .returned _ _ => none

/-- The methods are called on the controller that `sharedAdaptiveConcurrency` has returned. -/
def system : System Shared Adjust Window Unit Event where
  resume sh t _ := sh.adaptiveGlobal.bind fun a => adjust sh a t
  event sh
    | .sharedAdaptiveConcurrency taskCount ceiling st =>
      some { shared := sharedAdaptiveConcurrency sh taskCount ceiling st }
    | .observeTask d => sh.adaptiveGlobal.map fun a =>
      { shared := { sh with adaptiveGlobal := some (observeTask a d) } }
    | .observeDropped => sh.adaptiveGlobal.map fun a =>
      { shared := { sh with adaptiveGlobal := some (observeDropped a) } }
    | .adjust => sh.adaptiveGlobal.map fun _ => { shared := sh, spawned := [.begun] }

def start : AdjustPool := { shared := {} }

/-! ### The properties -/

/-- The samples that are observed. -/
def observedTasks : List (Action Unit Event) → List ℤ :=
  List.filterMap fun
    | .event (.observeTask d) => if d ≤ 0 then none else some d
    | _ => none

def observedDrops : List (Action Unit Event) → ℕ :=
  List.countP fun
    | .event .observeDropped => true
    | _ => false

def Adjust.window : Adjust → Option Window
  | .begun => none
  | .taken w | .decided w _ _ _ | .returned w _ => some w

/-- The windows of the adjustments, in the order in which they were taken, and the current one are
what has been observed, and each of the windows is that of one adjustment. -/
structure ConsumedOnce (actions : List (Action Unit Event)) (q : AdjustPool) : Prop where
  tasks : observedTasks actions =
    q.trace.flatMap Window.win ++ q.shared.adaptiveGlobal.elim [] Controller.win
  drops : observedDrops actions =
    (q.trace.map Window.dropped).sum + q.shared.adaptiveGlobal.elim 0 Controller.dropped
  windows : (q.tasks.filterMap Adjust.window).Perm q.trace

/-- What an adjustment leaves when it returns. -/
structure Leaves (w : Window) (a : Controller) : Prop where
  min : a.minLimit ≤ a.limit
  max : a.limit ≤ a.maxLimit
  drops : 0 < w.dropped → a.limit < w.limit ∨ a.limit = a.minLimit

/-- An adjustment that returns with this step leaves what it should. -/
def Right (p : AdjustPool) (action : Action Unit Event) : Prop :=
  ∀ q i w result, system.step p action = some q → action = .resume i () →
    q.tasks[i]? = some (.returned w result) → ∀ a, q.shared.adaptiveGlobal = some a → Leaves w a

/-- An adjustment that takes no sample takes no drop either, unless the limit is at its minimum, and
the limit is not below it. -/
def Sampled (p : AdjustPool) (action : Action Unit Event) : Prop :=
  ∀ i a, action = .resume i () → p.tasks[i]? = some .begun → p.shared.adaptiveGlobal = some a →
    a.win = [] → a.minLimit ≤ a.limit ∧ (a.dropped = 0 ∨ a.limit = a.minLimit)

/-- A ceiling above the ceiling before is not below the maximum. -/
def Raises (p : AdjustPool) (action : Action Unit Event) : Prop :=
  ∀ taskCount ceiling st a, action = .event (.sharedAdaptiveConcurrency taskCount ceiling st) →
    p.shared.adaptiveGlobal = some a → p.shared.adaptiveCeil < ceiling → a.maxLimit ≤ ceiling

/-! ### What every run keeps -/

structure Sound (a : Controller) : Prop where
  min_pos : 0 < a.minLimit
  pos : 0 < a.limit
  le : a.limit ≤ a.maxLimit
  room : a.minLimit ≤ a.maxLimit

/-- What an adjustment has computed, at a controller. -/
def Fits (a : Controller) : Adjust → Prop
  | .begun | .returned _ _ => True
  | .taken w => 0 < w.limit
  | .decided w limit _ _ =>
    a.minLimit ≤ limit ∧ limit ≤ a.maxLimit ∧ (0 < w.dropped → limit < w.limit ∨ limit = a.minLimit)

structure Inv (p : AdjustPool) : Prop where
  none : p.shared.adaptiveGlobal = none → p.tasks = []
  sound : ∀ a, p.shared.adaptiveGlobal = some a → Sound a
  fits : ∀ a, p.shared.adaptiveGlobal = some a → ∀ t ∈ p.tasks, Fits a t

section Steps

variable {a a' : Controller} {w : Window} {t : Adjust} {sh : Shared} {r : AdjustTurn}

/-- What an adjustment has computed stays right where the maximum is not lowered. -/
theorem Fits.mono (h : Fits a t) (hmin : a'.minLimit = a.minLimit) (hle : a.maxLimit ≤ a'.maxLimit) :
    Fits a' t := by
  cases t with
  | begun | returned w result => trivial
  | taken w => exact h
  | decided w limit floor reason =>
    rw [Fits, hmin]
    exact ⟨h.1, h.2.1.trans hle, h.2.2⟩

theorem load_sound (h : Sound a) (st : Option AdaptiveState) : Sound (a.load st) := by
  cases st with
  | none => exact h
  | some st =>
    refine ⟨h.min_pos, ?_, ?_, h.room⟩ <;> simp only [Controller.load] <;> split_ifs with hload
    · exact h.min_pos.trans_le hload.1
    · exact h.pos
    · exact hload.2
    · exact h.le

theorem sound_newAdaptiveConcurrency (taskCount ceiling : ℤ) (st : Option AdaptiveState) :
    Sound (newAdaptiveConcurrency taskCount ceiling st) := by
  refine load_sound ?_ st
  have hmin : 0 < adaptiveMinLimit := by norm_num [adaptiveMinLimit]
  have hceiling : (0 : ℚ) < ((if ceiling ≤ 0 then defaultOutboundMaxConcurrency else ceiling : ℤ) : ℚ) := by
    rw [Int.cast_pos]
    simp only [defaultOutboundMaxConcurrency]
    omega
  generalize ((if ceiling ≤ 0 then defaultOutboundMaxConcurrency else ceiling : ℤ) : ℚ) = maxLimit
    at hceiling ⊢
  generalize (taskCount / 4 : ℚ) = initial
  refine ⟨hmin, ?_, ?_, ?_⟩ <;> simp only
  · split_ifs <;> linarith
  · split_ifs <;> linarith
  · split_ifs <;> linarith

/-- With drops the limit gets lower, or it is the minimum. -/
theorem nextLimit_spec (h : Sound a) (hpos : 0 < w.limit) :
    a.minLimit ≤ (nextLimit a w).1 ∧ (nextLimit a w).1 ≤ a.maxLimit ∧
      (0 < w.dropped → (nextLimit a w).1 < w.limit ∨ (nextLimit a w).1 = a.minLimit) := by
  have hroom := h.room
  have hdecrease : w.limit * adaptiveDecreaseRatio < w.limit := by
    rw [adaptiveDecreaseRatio]
    linarith
  unfold nextLimit
  simp only
  generalize hfloor : (if w.floor = 0 ∨ p90Of w.win < w.floor then p90Of w.win
    else if p90Of w.win > w.floor then
      w.floor + truncate ((p90Of w.win - w.floor : ℤ) * adaptiveFloorRelax)
    else w.floor) = floor
  refine ⟨?_, ?_, fun hdropped => ?_⟩
  · split_ifs <;> linarith
  · split_ifs <;> linarith
  · have hoverload : w.dropped > 0 ∨ floor > 0 ∧ (p90Of w.win : ℚ) > floor * adaptiveQueueFactor :=
      .inl hdropped
    simp only [if_pos hoverload]
    split_ifs <;> first | exact .inr rfl | exact .inl (by linarith)

/-- What a turn of an adjustment is. -/
theorem adjust_cases (h : adjust sh a t = some r) :
    (t = .begun ∧ r =
      { shared := { sh with adaptiveGlobal := some { a with win := [], dropped := 0 } }
        seen := [⟨a.win, a.dropped, a.limit, a.floor⟩]
        task :=
          if a.win = [] then .returned ⟨a.win, a.dropped, a.limit, a.floor⟩
            ⟨false, truncate a.limit, truncate a.limit, .noSamples⟩
          else .taken ⟨a.win, a.dropped, a.limit, a.floor⟩ }) ∨
    (∃ w, t = .taken w ∧ r =
      { shared := sh
        task := .decided w (nextLimit a w).1 (nextLimit a w).2.1 (nextLimit a w).2.2 }) ∨
    (∃ w limit floor reason result, t = .decided w limit floor reason ∧ r =
      { shared := ⟨some { a with limit := limit, floor := floor, adjustCount := a.adjustCount + 1 },
          sh.adaptiveCeil⟩
        task := .returned w result }) := by
  cases t with
  | begun => exact .inl ⟨rfl, (Option.some.inj h).symm⟩
  | taken w => exact .inr (.inl ⟨w, rfl, (Option.some.inj h).symm⟩)
  | decided w limit floor reason =>
    exact .inr (.inr ⟨w, limit, floor, reason, _, rfl, (Option.some.inj h).symm⟩)
  | returned w result => cases h

theorem system_resume (h : system.resume sh t () = some r) :
    ∃ a, sh.adaptiveGlobal = some a ∧ adjust sh a t = some r :=
  Option.bind_eq_some_iff.mp h

/-- An event leaves the bounds and the limit, or it makes the controller, or it sets the maximum. -/
theorem event_cases {e : Event} {r : Effect Shared Adjust Window} (h : system.event sh e = some r) :
    r.seen = [] ∧ (∀ t ∈ r.spawned, t = .begun) ∧
      ((∃ a a', sh.adaptiveGlobal = some a ∧ r.shared.adaptiveGlobal = some a' ∧
        a'.limit = a.limit ∧ a'.minLimit = a.minLimit ∧ a'.maxLimit = a.maxLimit) ∨
      (∃ taskCount ceiling st, e = .sharedAdaptiveConcurrency taskCount ceiling st ∧
        ((sh.adaptiveGlobal = none ∧ r.spawned = [] ∧
          r.shared.adaptiveGlobal = some (newAdaptiveConcurrency taskCount ceiling st)) ∨
        ∃ a, sh.adaptiveGlobal = some a ∧ sh.adaptiveCeil < ceiling ∧
          r.shared.adaptiveGlobal = some { a with maxLimit := ceiling }))) := by
  cases e with
  | sharedAdaptiveConcurrency taskCount ceiling st =>
    obtain rfl := (Option.some.inj h).symm
    refine ⟨rfl, by simp, ?_⟩
    unfold sharedAdaptiveConcurrency
    cases ha : sh.adaptiveGlobal with
    | none => exact .inr ⟨taskCount, ceiling, st, rfl, .inl ⟨rfl, rfl, rfl⟩⟩
    | some a =>
      simp only
      split_ifs with hraise
      · exact .inr ⟨taskCount, ceiling, st, rfl, .inr ⟨a, rfl, hraise, rfl⟩⟩
      · exact .inl ⟨a, a, rfl, ha, rfl, rfl, rfl⟩
  | observeTask d =>
    obtain ⟨a, ha, rfl⟩ := Option.map_eq_some_iff.mp h
    refine ⟨rfl, by simp, .inl ⟨a, _, ha, rfl, ?_⟩⟩
    unfold observeTask
    split_ifs <;> exact ⟨rfl, rfl, rfl⟩
  | observeDropped =>
    obtain ⟨a, ha, rfl⟩ := Option.map_eq_some_iff.mp h
    exact ⟨rfl, by simp, .inl ⟨a, _, ha, rfl, rfl, rfl, rfl⟩⟩
  | adjust =>
    obtain ⟨a, ha, rfl⟩ := Option.map_eq_some_iff.mp h
    exact ⟨rfl, by simp, .inl ⟨a, a, ha, ha, rfl, rfl, rfl⟩⟩

end Steps

section Runs

variable {p q : AdjustPool} {action : Action Unit Event}

theorem Inv.step (h : Inv p) (hraises : Raises p action) (hs : system.step p action = some q) :
    Inv q := by
  obtain ⟨i, o, t, r, rfl, ht, hr, rfl⟩ | ⟨e, r, rfl, hr, rfl⟩ := System.step_cases hs
  · obtain ⟨a, ha, hr⟩ := system_resume hr
    have hsound := h.sound a ha
    have hfits := h.fits a ha
    have hfit := hfits t (List.mem_of_getElem? ht)
    obtain ⟨rfl, rfl⟩ | ⟨w, rfl, rfl⟩ | ⟨w, limit, floor, reason, result, rfl, rfl⟩ := adjust_cases hr
    · constructor <;> simp only [Option.some.injEq, forall_eq', reduceCtorEq, false_implies]
      · exact ⟨hsound.min_pos, hsound.pos, hsound.le, hsound.room⟩
      · refine forall_mem_set_append (fun x hx => (hfits x hx).mono rfl (le_refl _)) ?_ (by simp)
        split_ifs
        · trivial
        · exact hsound.pos
    · refine ⟨fun hnone => absurd (hnone.symm.trans ha) (by simp), h.sound, fun b hb => ?_⟩
      obtain rfl := Option.some.inj (ha.symm.trans hb)
      exact forall_mem_set_append hfits (nextLimit_spec hsound hfit) (by simp)
    · constructor <;> simp only [Option.some.injEq, forall_eq', reduceCtorEq, false_implies]
      · exact ⟨hsound.min_pos, hsound.min_pos.trans_le hfit.1, hfit.2.1, hsound.room⟩
      · exact forall_mem_set_append (fun x hx => (hfits x hx).mono rfl (le_refl _)) trivial (by simp)
  · obtain ⟨-, hspawned, ⟨a, a', ha, ha', hlimit, hmin, hmax⟩ |
      ⟨taskCount, ceiling, st, rfl, ⟨hnone, hempty, hnew⟩ | ⟨a, ha, hlt, hset⟩⟩⟩ := event_cases hr
    · have hsound := h.sound a ha
      refine ⟨fun hnone => absurd (hnone.symm.trans ha') (by simp), fun b hb => ?_, fun b hb t ht => ?_⟩ <;>
        obtain rfl := Option.some.inj (ha'.symm.trans hb)
      · exact ⟨hmin ▸ hsound.min_pos, hlimit ▸ hsound.pos, by rw [hlimit, hmax]; exact hsound.le,
          by rw [hmin, hmax]; exact hsound.room⟩
      · rcases List.mem_append.mp ht with ht | ht
        · exact (h.fits a ha t ht).mono hmin hmax.ge
        · rw [hspawned t ht]
          trivial
    · refine ⟨fun hnone' => absurd (hnone'.symm.trans hnew) (by simp), fun b hb => ?_,
        fun b hb t ht => ?_⟩
      · obtain rfl := Option.some.inj (hnew.symm.trans hb)
        exact sound_newAdaptiveConcurrency taskCount ceiling st
      · rw [hempty, h.none hnone] at ht
        cases ht
    · have hsound := h.sound a ha
      have hle := hraises taskCount ceiling st a rfl ha hlt
      refine ⟨fun hnone => absurd (hnone.symm.trans hset) (by simp), fun b hb => ?_,
        fun b hb t ht => ?_⟩ <;> obtain rfl := Option.some.inj (hset.symm.trans hb)
      · exact ⟨hsound.min_pos, hsound.pos, hsound.le.trans hle, hsound.room.trans hle⟩
      · rcases List.mem_append.mp ht with ht | ht
        · exact (h.fits a ha t ht).mono rfl hle
        · rw [hspawned t ht]
          trivial

theorem getElem?_turn {ts new : List Adjust} {i : ℕ} {t t' : Adjust} (h : ts[i]? = some t) :
    (ts.set i t' ++ new)[i]? = some t' := by
  have hi := (List.getElem?_eq_some_iff.mp h).1
  rw [List.getElem?_append_left (by simpa using hi), List.getElem?_set_self hi]

/-- An adjustment leaves what it should exactly where it has a sample, or needs none. -/
theorem right_iff (h : Inv p) (hs : system.step p action = some q) :
    Right p action ↔ Sampled p action := by
  obtain ⟨i, o, t, r, rfl, ht, hr, rfl⟩ | ⟨e, r, rfl, hr, rfl⟩ := System.step_cases hs
  · obtain ⟨a, ha, hr⟩ := system_resume hr
    have hsound := h.sound a ha
    have hfit := h.fits a ha t (List.mem_of_getElem? ht)
    unfold Right Sampled
    rw [hs]
    obtain ⟨rfl, rfl⟩ | ⟨w, rfl, rfl⟩ | ⟨w, limit, floor, reason, result, rfl, rfl⟩ := adjust_cases hr
    · constructor
      · intro hright j b hj hb ha' hwin
        obtain ⟨rfl, -⟩ := Action.resume.inj hj
        obtain rfl := Option.some.inj (ha.symm.trans ha')
        have hleaves := hright _ i _ _ rfl rfl
          ((getElem?_turn ht).trans (congrArg some (if_pos hwin))) _ rfl
        refine ⟨hleaves.min, ?_⟩
        by_cases hdropped : a.dropped = 0
        · exact .inl hdropped
        · exact .inr ((hleaves.drops (Nat.pos_of_ne_zero hdropped)).resolve_left (lt_irrefl _))
      · intro hsampled q j w result hq hj hreturned b hb
        obtain rfl := Option.some.inj hq
        obtain ⟨rfl, -⟩ := Action.resume.inj hj
        obtain rfl := Option.some.inj hb
        rw [getElem?_turn ht] at hreturned
        by_cases hwin : a.win = []
        · rw [if_pos hwin] at hreturned
          obtain ⟨rfl, -⟩ := Adjust.returned.inj (Option.some.inj hreturned)
          obtain ⟨hmin, hdrops⟩ := hsampled i a rfl ht ha hwin
          refine ⟨hmin, hsound.le, fun hpos => .inr (hdrops.resolve_left ?_)⟩
          exact Nat.pos_iff_ne_zero.mp hpos
        · rw [if_neg hwin] at hreturned
          cases Option.some.inj hreturned
    · constructor
      · intro _ j b hj hb
        obtain ⟨rfl, -⟩ := Action.resume.inj hj
        rw [ht] at hb
        cases hb
      · intro _ q j w' result hq hj hreturned
        obtain rfl := Option.some.inj hq
        obtain ⟨rfl, -⟩ := Action.resume.inj hj
        rw [getElem?_turn ht] at hreturned
        cases Option.some.inj hreturned
    · constructor
      · intro _ j b hj hb
        obtain ⟨rfl, -⟩ := Action.resume.inj hj
        rw [ht] at hb
        cases hb
      · intro _ q j w' result' hq hj hreturned b hb
        obtain rfl := Option.some.inj hq
        obtain ⟨rfl, -⟩ := Action.resume.inj hj
        obtain rfl := Option.some.inj hb
        rw [getElem?_turn ht] at hreturned
        obtain ⟨rfl, -⟩ := Adjust.returned.inj (Option.some.inj hreturned)
        exact ⟨hfit.1, hfit.2.1, hfit.2.2⟩
  · exact ⟨fun _ j _ hj => absurd hj (by simp), fun _ _ j _ _ _ hj => absurd hj (by simp)⟩

theorem inv_start : Inv start := by
  refine ⟨fun _ => rfl, fun a ha => ?_, fun a ha => ?_⟩ <;> cases ha

end Runs

/-! ### What is observed is taken once -/

section Consumed

variable {p q : AdjustPool} {action : Action Unit Event} {actions : List (Action Unit Event)}

def seenTasks (p : AdjustPool) : List ℤ :=
  p.trace.flatMap Window.win ++ p.shared.adaptiveGlobal.elim [] Controller.win

def seenDrops (p : AdjustPool) : ℕ :=
  (p.trace.map Window.dropped).sum + p.shared.adaptiveGlobal.elim 0 Controller.dropped

theorem newAdaptiveConcurrency_empty (taskCount ceiling : ℤ) (st : Option AdaptiveState) :
    (newAdaptiveConcurrency taskCount ceiling st).win = [] ∧
      (newAdaptiveConcurrency taskCount ceiling st).dropped = 0 := by
  cases st <;> exact ⟨rfl, rfl⟩

/-- A turn takes what is in the window, and an event leaves it but for what it observes. -/
theorem seen_step (hs : system.step p action = some q) :
    seenTasks q = seenTasks p ++ observedTasks [action] ∧
      seenDrops q = seenDrops p + observedDrops [action] := by
  unfold seenTasks seenDrops
  obtain ⟨i, o, t, r, rfl, ht, hr, rfl⟩ | ⟨e, r, rfl, hr, rfl⟩ := System.step_cases hs
  · obtain ⟨a, ha, hr⟩ := system_resume hr
    obtain ⟨rfl, rfl⟩ | ⟨w, rfl, rfl⟩ | ⟨w, limit, floor, reason, result, rfl, rfl⟩ := adjust_cases hr <;>
      simp [ha, observedTasks, observedDrops]
  · cases e with
    | sharedAdaptiveConcurrency taskCount ceiling st =>
      obtain rfl := (Option.some.inj hr).symm
      unfold sharedAdaptiveConcurrency
      cases ha : p.shared.adaptiveGlobal with
      | none =>
        have hempty := newAdaptiveConcurrency_empty taskCount ceiling st
        simp [hempty, observedTasks, observedDrops]
      | some a =>
        simp only
        split_ifs <;> simp [ha, observedTasks, observedDrops]
    | observeTask d =>
      obtain ⟨a, ha, rfl⟩ := Option.map_eq_some_iff.mp hr
      unfold observeTask
      by_cases hd : d ≤ 0 <;> simp [ha, hd, observedTasks, observedDrops]
    | observeDropped =>
      obtain ⟨a, ha, rfl⟩ := Option.map_eq_some_iff.mp hr
      simp [ha, observeDropped, observedTasks, observedDrops, Nat.add_assoc]
    | adjust =>
      obtain ⟨a, ha, rfl⟩ := Option.map_eq_some_iff.mp hr
      simp [ha, observedTasks, observedDrops]

/-- Each window that is taken is that of one adjustment. -/
theorem windows_step (h : (p.tasks.filterMap Adjust.window).Perm p.trace)
    (hs : system.step p action = some q) : (q.tasks.filterMap Adjust.window).Perm q.trace := by
  obtain ⟨i, o, t, r, others, rfl, -, hr, -, htrace, hp, hq⟩ | ⟨e, r, rfl, hr, -, htrace, hq⟩ :=
    System.step_perm hs
  · obtain ⟨a, ha, hr⟩ := system_resume hr
    refine (hq.filterMap _).trans ?_
    rw [htrace]
    have hbefore := ((hp.filterMap Adjust.window).symm.trans h)
    obtain ⟨rfl, rfl⟩ | ⟨w, rfl, rfl⟩ | ⟨w, limit, floor, reason, result, rfl, rfl⟩ := adjust_cases hr
    · have hwindow : Adjust.window (if a.win = [] then
          .returned ⟨a.win, a.dropped, a.limit, a.floor⟩
            ⟨false, truncate a.limit, truncate a.limit, .noSamples⟩
          else .taken ⟨a.win, a.dropped, a.limit, a.floor⟩) =
          some ⟨a.win, a.dropped, a.limit, a.floor⟩ := by
        split_ifs <;> rfl
      simp only [List.cons_append, List.nil_append]
      rw [List.filterMap_cons_some hwindow]
      exact (List.Perm.cons _ hbefore).trans (List.perm_append_singleton _ _).symm
    · simpa [Adjust.window] using hbefore
    · simpa [Adjust.window] using hbefore
  · obtain ⟨hseen, hspawned, -⟩ := event_cases hr
    have hnone : r.spawned.filterMap Adjust.window = [] :=
      List.filterMap_eq_nil_iff.mpr fun t ht => by rw [hspawned t ht]; rfl
    refine (hq.filterMap _).trans ?_
    rw [htrace, hseen, List.append_nil, List.filterMap_append, hnone]
    exact h

theorem seen_run (hr : system.run p actions = some q) :
    seenTasks q = seenTasks p ++ observedTasks actions ∧
      seenDrops q = seenDrops p + observedDrops actions := by
  induction actions generalizing p with
  | nil =>
    obtain rfl := Option.some.inj hr
    exact ⟨(List.append_nil _).symm, rfl⟩
  | cons action actions ih =>
    obtain ⟨p', hs, hr⟩ := (System.run_cons _).mp hr
    obtain ⟨htasks, hdrops⟩ := seen_step hs
    obtain ⟨htasks', hdrops'⟩ := ih hr
    have hcut : observedTasks (action :: actions) =
        observedTasks [action] ++ observedTasks actions := by
      simp only [observedTasks, ← List.filterMap_append, List.singleton_append]
    have hcut' : observedDrops (action :: actions) =
        observedDrops [action] + observedDrops actions := by
      simp only [observedDrops, ← List.countP_append, List.singleton_append]
    rw [htasks', htasks, hdrops', hdrops, hcut, hcut', List.append_assoc, Nat.add_assoc]
    exact ⟨rfl, rfl⟩

theorem consumedOnce (hr : system.run start actions = some q) : ConsumedOnce actions q := by
  obtain ⟨htasks, hdrops⟩ := seen_run hr
  refine ⟨htasks.symm, ?_, ?_⟩
  · rw [← seenDrops, hdrops]
    exact (Nat.zero_add _).symm
  · exact (System.throughout_of_step (I := fun p => (p.tasks.filterMap Adjust.window).Perm p.trace)
      (fun p a q hp hs => windows_step hp hs) (List.Perm.refl _) actions).last hr

end Consumed

/-- Every observation is consumed once. Where ceilings are raised only, the adjustments leave what
they should exactly where those that take no sample take no drop and find the limit in its bounds. -/
theorem adjust_right_iff (actions : List (Action Unit Event))
    (hraises : system.Along Raises start actions) :
    (∀ q, system.run start actions = some q → ConsumedOnce actions q) ∧
      (system.Along Right start actions ↔ system.Along Sampled start actions) := by
  refine ⟨fun q hr => consumedOnce hr, fun hright => ?_, fun hsampled => ?_⟩
  · exact (hraises.and hright).imp (fun p a q hp ha hs => hp.step ha.1 hs)
      (fun p a q hp ha hs => (right_iff hp hs).mp ha.2) inv_start
  · exact (hraises.and hsampled).imp (fun p a q hp ha hs => hp.step ha.1 hs)
      (fun p a q hp ha hs => (right_iff hp hs).mpr ha.2) inv_start

theorem along_raises {p : AdjustPool} {actions : List (Action Unit Event)}
    (h : ∀ action ∈ actions, ∀ taskCount ceiling st,
      action ≠ .event (.sharedAdaptiveConcurrency taskCount ceiling st)) :
    system.Along Raises p actions := by
  induction actions generalizing p with
  | nil => trivial
  | cons action actions ih =>
    intro q _
    refine ⟨fun taskCount ceiling st a ha => ?_, ih fun x hx => h x (List.mem_cons_of_mem _ hx)⟩
    exact absurd ha (h action List.mem_cons_self taskCount ceiling st)

/-- A ceiling, a sample and a drop, and an adjustment. -/
def oneAdjustment : List (Action Unit Event) :=
  [.event (.sharedAdaptiveConcurrency 40 16 none), .event (.observeTask 5), .event .observeDropped,
    .event .adjust, .resume 0 (), .resume 0 (), .resume 0 ()]

theorem adjust_right_iff_one :
    (∀ q, system.run start oneAdjustment = some q → ConsumedOnce oneAdjustment q) ∧
      (system.Along Right start oneAdjustment ↔ system.Along Sampled start oneAdjustment) :=
  adjust_right_iff oneAdjustment fun q _ =>
    ⟨fun _ _ _ _ _ ha => absurd ha (by simp [start]), along_raises (by simp)⟩

/-- A drop without a sample is taken, and the limit stays at ten. -/
def dropOnly : List (Action Unit Event) :=
  [.event (.sharedAdaptiveConcurrency 40 16 none), .event .observeDropped, .event .adjust,
    .resume 0 ()]

theorem drop_without_sample :
    system.Along Raises start dropOnly ∧ ¬ system.Along Right start dropOnly := by
  refine ⟨fun q _ => ⟨fun _ _ _ _ _ ha => absurd ha (by simp [start]), along_raises (by simp)⟩,
    fun h => ?_⟩
  have hright := ((((h _ rfl).2 _ rfl).2 _ rfl).2 _ rfl).1
  have hleaves := hright _ 0 _ _ rfl rfl rfl _ rfl
  have hlimit : (newAdaptiveConcurrency 40 16 none).limit = 10 := by
    norm_num [newAdaptiveConcurrency, Controller.load, adaptiveMinLimit]
  rcases hleaves.drops (by decide) with hlt | heq
  · exact lt_irrefl _ hlt
  · have hten : (10 : ℚ) = 8 := hlimit.symm.trans heq
    norm_num at hten

end AllInOneBackup.PanSou.AdaptiveConcurrency
