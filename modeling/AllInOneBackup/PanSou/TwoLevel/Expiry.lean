import AllInOneBackup.PanSou.TwoLevel.Levels

/-! Lifetimes. A move between the levels turns the expiry into what remains of it and adds that to
the clock again where it arrives, so an entry lives longer by the time the move takes; and a
back-fill takes the expiry of whatever the disk has by then for the key, or a default. Where the
clock stands still while a duration is in flight, and a back-fill finds the expiry of the entry
that it has read, no data outlive the lifetime of their `Set`. -/

namespace AllInOneBackup.PanSou.TwoLevel

open Concurrency
open DiskCache (lookup_of_lookup_erase)

variable {K D : Type}

/-! ### The property and the condition -/

/-- Some `Set` gave the data a lifetime up to the time, or longer. -/
def Lives (trace : List (Event K D)) (key : K) (data : D) (time : ℤ) : Prop :=
  ∃ deadline, .stored key data deadline ∈ trace ∧ time ≤ deadline

/-- No `Get` has returned data after their lifetime. -/
def OnTime (p : LevelsPool K D) : Prop :=
  ∀ key data time, .got key data time ∈ p.trace → Lives p.trace key data time

/-- A duration has been computed that a store is still to add to the clock. -/
def Point.inFlight : Point K D → Bool
  | .writing _ _ _ _ | .dating _ _ _ | .backfilling _ _ _ _ | .collecting _ _ _ => true
  | .flushing items => !items.isEmpty
  | .set _ _ _ | .evicted _ _ _ | .get _ | .looked _ _ | .expiring _ _ | .diskGet _ | .purging _
  | .timing _ _ | .remaining _ _ _ | .delete _ | .diskDelete _ | .returned _ => false

/-- `GetExpiry` finds the entry that the data were read from. -/
def FindsEntry [DecidableEq K] (s : Levels K D) : Point K D → Prop
  | .timing key data => (s.disk.lookup key).map (·.data) = some data
  | _ => True

def StepSteady [DecidableEq K] (p : LevelsPool K D) : Action (Outcome K) (External K D) → Prop
  | .resume i _ => ∀ t ∈ p.tasks[i]?, FindsEntry p.shared t
  | .event (.tick d) => 0 < d → ∀ t ∈ p.tasks, t.inFlight = false
  | .event _ => True

instance [DecidableEq K] [DecidableEq D] (s : Levels K D) : DecidablePred (FindsEntry s)
  | .timing key data =>
    inferInstanceAs (Decidable ((s.disk.lookup key).map (·.data) = some data))
  | .set _ _ _ | .writing _ _ _ _ | .evicted _ _ _ | .get _ | .looked _ _ | .expiring _ _
  | .diskGet _ | .purging _ | .remaining _ _ _ | .dating _ _ _ | .backfilling _ _ _ _
  | .delete _ | .diskDelete _ | .collecting _ _ _ | .flushing _ | .returned _ => .isTrue trivial

instance [DecidableEq K] [DecidableEq D] (p : LevelsPool K D) : DecidablePred (StepSteady p)
  | .resume i _ => inferInstanceAs (Decidable (∀ t ∈ p.tasks[i]?, FindsEntry p.shared t))
  | .event (.tick d) =>
    inferInstanceAs (Decidable (0 < d → ∀ t ∈ p.tasks, t.inFlight = false))
  | .event (.set _ _ _) | .event (.get _) | .event (.delete _) | .event (.flushMemoryToDisk _)
  | .event (.cleanItem _) | .event (.lose _) => .isTrue trivial

/-! ### What the turns keep -/

section Turn

variable {s s' : Levels K D} {trace : List (Event K D)} {t : Point K D} {o : Outcome K}
  {r : Step K D} {key : K} {data : D} {time time' : ℤ}

theorem Lives.mono (h : Lives trace key data time) (hle : time' ≤ time) (seen : List (Event K D)) :
    Lives (trace ++ seen) key data time' :=
  h.elim fun deadline hd => ⟨deadline, List.mem_append_left _ hd.1, hle.trans hd.2⟩

theorem Lives.append (h : Lives trace key data time) (seen : List (Event K D)) :
    Lives (trace ++ seen) key data time := h.mono le_rfl seen

/-- What a call holds lives until then, or for so long from now. -/
def Bounded (s : Levels K D) (trace : List (Event K D)) : Point K D → Prop
  | .writing _ key data ttl => Lives trace key data (s.now + ttl)
  | .dating key data ttl | .backfilling key data ttl _ =>
    0 < ttl ∧ Lives trace key data (s.now + ttl)
  | .evicted key data expiry | .remaining key data expiry => Lives trace key data expiry
  | .looked key item => Lives trace key item.data item.expiry
  | .collecting now _ items =>
    now = s.now ∧ ∀ e ∈ items, Lives trace e.1 e.2.1 (s.now + e.2.2)
  | .flushing items => ∀ e ∈ items, Lives trace e.1 e.2.1 (s.now + e.2.2)
  | _ => True

structure Lifetimes [DecidableEq K] (s : Levels K D) (ts : List (Point K D))
    (trace : List (Event K D)) : Prop where
  items : ∀ key item, s.items.lookup key = some item → Lives trace key item.data item.expiry
  disk : ∀ key e, s.disk.lookup key = some e → Lives trace key e.data e.expiry
  calls : ∀ t ∈ ts, Bounded s trace t
  got : ∀ key data time, .got key data time ∈ trace → Lives trace key data time

theorem Bounded.append (h : Bounded s trace t) (hnow : s'.now = s.now)
    (seen : List (Event K D)) : Bounded s' (trace ++ seen) t := by
  cases t with
  | writing _ _ _ _ =>
    rw [Bounded, hnow]
    exact Lives.append h seen
  | dating _ _ _ | backfilling _ _ _ _ =>
    rw [Bounded, hnow]
    exact ⟨h.1, h.2.append seen⟩
  | evicted _ _ _ | remaining _ _ _ | looked _ _ => exact Lives.append h seen
  | collecting _ _ _ =>
    rw [Bounded, hnow]
    exact ⟨h.1, fun e he => (h.2 e he).append seen⟩
  | flushing _ =>
    rw [Bounded, hnow]
    exact fun e he => (h e he).append seen
  | _ => trivial

/-- A call that has no duration in flight holds the same at any time. -/
theorem Bounded.of_not_inFlight (h : Bounded s trace t) (hfree : t.inFlight = false) :
    Bounded s' trace t := by
  cases t with
  | evicted _ _ _ | remaining _ _ _ | looked _ _ => exact h
  | writing _ _ _ _ | dating _ _ _ | backfilling _ _ _ _ | collecting _ _ _ => cases hfree
  | flushing items =>
    obtain rfl : items = [] := by simpa [Point.inFlight] using hfree
    exact List.forall_mem_nil _
  | _ => trivial

variable [DecidableEq K] {c : Config K D}

theorem stored_of_set {ttl : ℤ} (h : advance c s (.set key data ttl) o = some r) :
    Lives (trace ++ r.seen) key data (s.now + ttl) := by
  cases o <;> simp only [advance, reduceCtorEq] at h
  split_ifs at h
  obtain rfl := Option.some.inj h
  exact ⟨_, List.mem_append_right _ (List.mem_singleton_self _), le_rfl⟩

/-- The call after its turn, and what it returns. -/
theorem bounded_advance (hinv : Lifetimes s (t :: ts) trace) (hfinds : FindsEntry s t)
    (h : advance c s t o = some r) :
    Bounded s (trace ++ r.seen) r.point ∧
      ∀ key data time, .got key data time ∈ r.seen → Lives trace key data time := by
  have hself := hinv.calls t List.mem_cons_self
  cases t with
  | set key data ttl =>
    cases o <;> simp only [advance, reduceCtorEq] at h
    split_ifs at h
    obtain rfl := Option.some.inj h
    exact ⟨trivial, by simp⟩
  | writing writer key data ttl =>
    cases o <;> simp only [advance, reduceCtorEq] at h <;> obtain rfl := Option.some.inj h <;>
      exact ⟨trivial, by simp⟩
  | evicted key data expiry =>
    cases o <;> simp only [advance, reduceCtorEq] at h
    obtain rfl := Option.some.inj h
    refine ⟨?_, by simp⟩
    split_ifs
    · exact Lives.mono hself (by omega) []
    · trivial
  | get key =>
    cases o <;> simp only [advance, reduceCtorEq] at h
    cases hitem : s.items.lookup key with
    | none =>
      obtain rfl := Option.some.inj (by simpa only [hitem] using h)
      exact ⟨trivial, by simp⟩
    | some item =>
      obtain rfl := Option.some.inj (by simpa only [hitem] using h)
      exact ⟨(hinv.items key item hitem).append [], by simp⟩
  | looked key item =>
    cases o <;> simp only [advance, reduceCtorEq] at h
    split_ifs at h with hexpired <;> obtain rfl := Option.some.inj h
    · exact ⟨trivial, by simp⟩
    · refine ⟨trivial, fun k d time hgot => ?_⟩
      cases List.mem_singleton.mp hgot
      simpa using Lives.mono hself (by omega) []
  | expiring key size | purging key | delete key | diskDelete key =>
    cases o <;> simp only [advance, reduceCtorEq] at h
    obtain rfl := Option.some.inj h
    exact ⟨trivial, by simp⟩
  | diskGet key =>
    cases o <;> simp only [advance, reduceCtorEq] at h
    · split at h <;> obtain rfl := Option.some.inj h
      · exact ⟨trivial, by simp⟩
      · refine ⟨?_, by simp⟩
        split_ifs <;> trivial
    · obtain rfl := Option.some.inj h
      exact ⟨trivial, by simp⟩
  | timing key data =>
    cases o <;> simp only [advance, reduceCtorEq] at h
    obtain ⟨e, he, rfl⟩ := Option.map_eq_some_iff.mp hfinds
    obtain rfl := Option.some.inj (by simpa only [he] using h)
    exact ⟨(hinv.disk key e he).append [], by simp⟩
  | remaining key data expiry =>
    cases o <;> simp only [advance, reduceCtorEq] at h
    obtain rfl := Option.some.inj h
    refine ⟨?_, by simp⟩
    split_ifs with hle
    · trivial
    · exact ⟨by omega, Lives.mono hself (by omega) []⟩
  | dating key data ttl =>
    cases o <;> simp only [advance, reduceCtorEq] at h
    obtain rfl := Option.some.inj h
    exact ⟨⟨hself.1, hself.2.append []⟩, by simp⟩
  | backfilling key data ttl lastModified =>
    cases o <;> simp only [advance, reduceCtorEq] at h
    split_ifs at h
    obtain rfl := Option.some.inj h
    refine ⟨trivial, fun k d time hgot => ?_⟩
    cases List.mem_singleton.mp hgot
    have hpos := hself.1
    simpa using hself.2.mono (by omega : s.now ≤ s.now + ttl) []
  | collecting now shards items =>
    obtain ⟨rfl, hitems⟩ := hself
    cases shards with
    | nil =>
      cases o <;> simp only [advance, reduceCtorEq] at h
      obtain rfl := Option.some.inj h
      exact ⟨fun e he => (hitems e he).append [], by simp⟩
    | cons shard shards =>
      cases o <;> simp only [advance, reduceCtorEq] at h
      obtain rfl := Option.some.inj h
      refine ⟨⟨rfl, fun e he => ?_⟩, by simp⟩
      obtain hold | hnew := List.mem_append.mp he
      · exact (hitems e hold).append []
      · obtain ⟨x, hx, rfl⟩ := List.mem_map.mp hnew
        have hlookup := Levels.mem_shardItems (List.mem_of_mem_filter hx)
        exact (hinv.items x.1 x.2 hlookup).mono (by dsimp only; omega) []
  | flushing items =>
    cases o with
    | pick i ok =>
      obtain ⟨e, -, rfl⟩ := advance_flushing h
      exact ⟨fun e he => (hself e (List.mem_of_mem_eraseIdx he)).append [], by simp⟩
    | turn =>
      cases items <;> simp only [advance, reduceCtorEq] at h
      obtain rfl := Option.some.inj h
      exact ⟨trivial, by simp⟩
    | range | ok | failed => cases items <;> simp only [advance, reduceCtorEq] at h
  | returned result => cases o <;> simp only [advance, reduceCtorEq] at h

theorem lifetimes_perm {ts ts' : List (Point K D)} (h : Lifetimes s ts trace)
    (hp : ts'.Perm ts) : Lifetimes s ts' trace :=
  ⟨h.items, h.disk, fun t ht => h.calls t (hp.mem_iff.mp ht), h.got⟩

theorem lifetimes_resume {others : List (Point K D)} (hinv : Lifetimes s (t :: others) trace)
    (hfinds : FindsEntry s t) (h : advance c s t o = some r) :
    Lifetimes r.levels (r.point :: r.goroutines ++ others) (trace ++ r.seen) := by
  have hspec := spec_advance h
  have hself := hinv.calls t List.mem_cons_self
  obtain ⟨hpoint, hgot⟩ := bounded_advance hinv hfinds h
  constructor
  case items =>
    intro k item hk
    obtain ⟨-, item', hold, hdata, hexpiry⟩ | ⟨ttl, rfl | ⟨m, rfl⟩, hexpiry⟩ :=
      hspec.items k item hk
    · rw [← hdata, ← hexpiry]
      exact (hinv.items k item' hold).append r.seen
    · rw [hexpiry]
      exact stored_of_set h
    · rw [hexpiry]
      exact hself.2.append r.seen
  case disk =>
    intro k e hk
    obtain ⟨hold, -⟩ | ⟨ttl, ⟨w, rfl, -⟩ | ⟨items, i, rfl, -, hi⟩, hexpiry⟩ := hspec.disk k e hk
    · exact (hinv.disk k e hold).append r.seen
    · rw [hexpiry]
      exact Lives.append hself r.seen
    · rw [hexpiry]
      exact (hself _ (List.mem_of_getElem? hi)).append r.seen
  case calls =>
    refine List.forall_mem_append.mpr ⟨List.forall_mem_cons.mpr ⟨?_, fun g hg => ?_⟩, ?_⟩
    · simpa using hpoint.append hspec.now []
    · obtain ⟨k, d, ttl, rfl, rfl⟩ | ⟨k, item, hold, rfl⟩ := hspec.goroutines g hg
      · rw [Bounded, hspec.now]
        exact stored_of_set h
      · exact (hinv.items k item hold).append r.seen
    · exact fun u hu => (hinv.calls u (List.mem_cons_of_mem _ hu)).append hspec.now r.seen
  case got =>
    intro k d time hmem
    obtain hold | hnew := List.mem_append.mp hmem
    · exact (hinv.got k d time hold).append r.seen
    · exact (hgot k d time hnew).append r.seen

theorem lifetimes_event {ts : List (Point K D)} {e : External K D}
    {r : Effect (Levels K D) (Point K D) (Event K D)} (hinv : Lifetimes s ts trace)
    (hsteady : ∀ d, e = .tick d → 0 < d → ∀ t ∈ ts, t.inFlight = false)
    (h : event c s e = some r) : Lifetimes r.shared (r.spawned ++ ts) (trace ++ r.seen) := by
  have hcall : ∀ t : Point K D, Bounded s trace t → Lifetimes s ([t] ++ ts) (trace ++ []) := by
    intro t ht
    rw [List.append_nil]
    exact ⟨hinv.items, hinv.disk, List.forall_mem_cons.mpr ⟨ht, hinv.calls⟩, hinv.got⟩
  cases e with
  | set key data ttl =>
    cases h
    exact hcall (.set key data ttl) trivial
  | get key =>
    cases h
    exact hcall (.get key) trivial
  | delete key =>
    cases h
    exact hcall (.delete key) trivial
  | flushMemoryToDisk shards =>
    cases h
    exact hcall (.collecting s.now shards []) ⟨rfl, List.forall_mem_nil _⟩
  | tick d =>
    cases h
    rw [List.append_nil]
    refine ⟨hinv.items, hinv.disk, fun t ht => ?_, hinv.got⟩
    rcases Nat.eq_zero_or_pos d with rfl | hpos
    · have hnow : ({ s with now := s.now + (0 : ℕ) } : Levels K D).now = s.now := by simp
      simpa using (hinv.calls t ht).append hnow []
    · exact (hinv.calls t ht).of_not_inFlight (hsteady d rfl hpos t ht)
  | cleanItem key =>
    obtain ⟨item, -, h⟩ := Option.bind_eq_some_iff.mp h
    obtain ⟨-, h⟩ := Option.ite_none_right_eq_some.mp h
    cases h
    rw [List.append_nil]
    refine ⟨fun k it hk => hinv.items k it (Levels.lookup_deleteItem hk).2, hinv.disk,
      fun t ht => ?_, hinv.got⟩
    simpa using (hinv.calls t ht).append (Levels.deleteItem_now item.size) []
  | lose key =>
    cases h
    rw [List.append_nil]
    refine ⟨hinv.items, fun k e hk => hinv.disk k e (lookup_of_lookup_erase hk),
      fun t ht => ?_, hinv.got⟩
    simpa using (hinv.calls t ht).append (rfl : (s.diskDelete key).now = s.now) []

end Turn

/-! ### Every run -/

variable [DecidableEq K] {c : Config K D}

theorem lifetimes_step {p q : LevelsPool K D} {a : Action (Outcome K) (External K D)}
    (hinv : Lifetimes p.shared p.tasks p.trace) (hok : StepSteady p a)
    (hstep : (system c).step p a = some q) : Lifetimes q.shared q.tasks q.trace := by
  obtain ⟨i, o, t, r, others, rfl, ht, hr, hshared, htrace, hp, hq⟩ |
    ⟨e, r, rfl, he, hshared, htrace, hq⟩ := System.step_perm hstep
  · obtain ⟨r, hadvance, rfl⟩ := Option.map_eq_some_iff.mp hr
    rw [hshared, htrace]
    exact lifetimes_perm (lifetimes_resume (lifetimes_perm hinv hp.symm) (hok t ht) hadvance) hq
  · rw [hshared, htrace]
    refine lifetimes_perm (lifetimes_event hinv (fun d hd => ?_) he) hq
    subst hd
    exact hok

/-- In every run in which the clock stands still while a duration is in flight, and each back-fill
finds the expiry of the entry that it has read, no `Get` returns data after their lifetime. -/
theorem gets_onTime (c : Config K D) (actions : List (Action (Outcome K) (External K D)))
    (hok : (system c).Along StepSteady newTwoLevelCache actions) :
    (system c).Throughout OnTime newTwoLevelCache actions := by
  have hinit : Lifetimes (newTwoLevelCache : LevelsPool K D).shared [] [] := by
    refine ⟨fun k item hk => ?_, fun k e hk => ?_, List.forall_mem_nil _, fun k d t ht => ?_⟩
    · rw [newTwoLevelCache, AList.lookup_empty] at hk
      cases hk
    · rw [newTwoLevelCache, AList.lookup_empty] at hk
      cases hk
    · cases ht
  exact (System.throughout_of_along (I := fun p => Lifetimes p.shared p.tasks p.trace)
    (fun _ _ _ h hok hstep => lifetimes_step h hok hstep) hinit hok).mono fun _ h => h.got

/-- One shard that has room for one item. -/
def oneItem : Config ℕ ℕ := ⟨fun _ => 0, 0, fun _ => 1, 1, 1000, 3600⟩

/-- A `Set` whose value goes to the disk with another `Set`, and comes back with a `Get`. -/
def evictionRun : List (Action (Outcome ℕ) (External ℕ ℕ)) :=
  [.event (.set 7 5 100), .resume 0 (.range []), .resume 1 .ok,
    .event (.set 8 6 100), .resume 2 (.range [7]), .resume 3 .ok, .resume 4 .turn, .resume 4 .ok,
    .event (.tick 50), .event (.get 7), .resume 5 .turn, .resume 5 .ok, .resume 5 .turn,
    .resume 5 .turn, .resume 5 .turn, .resume 5 (.range [8])]

theorem gets_onTime_eviction :
    (system oneItem).Throughout OnTime newTwoLevelCache evictionRun ∧
      ((system oneItem).run newTwoLevelCache evictionRun).map (·.trace) =
        some [.stored 7 5 100, .stored 8 6 100, .got 7 5 50] :=
  ⟨gets_onTime oneItem evictionRun (by decide), rfl⟩

/-- A `Set` with a lifetime of 10 whose disk write comes 5 later, and a `Get` 12 after it. -/
def lateWriteRun : List (Action (Outcome ℕ) (External ℕ ℕ)) :=
  [.event (.set 7 5 10), .resume 0 (.range []), .event (.tick 5), .resume 1 .ok,
    .event (.tick 7), .event (.get 7), .resume 2 .turn, .resume 2 .turn, .resume 2 .turn,
    .resume 2 .ok, .resume 2 .turn, .resume 2 .turn, .resume 2 .turn, .resume 2 (.range [])]

/-- The data of the `Set` are returned after their lifetime. -/
theorem get_late :
    ¬∀ actions : List (Action (Outcome ℕ) (External ℕ ℕ)),
      (system oneItem).Throughout OnTime newTwoLevelCache actions := by
  intro hall
  obtain ⟨p, hp⟩ : ∃ p, (system oneItem).run newTwoLevelCache lateWriteRun = some p ∧
      p.trace = [.stored 7 5 10, .got 7 5 12] := ⟨_, rfl, rfl⟩
  have honTime := (hall lateWriteRun).last hp.1
  rw [OnTime, hp.2] at honTime
  obtain ⟨deadline, hstored, hle⟩ := honTime 7 5 12 (by simp)
  have hdeadline : deadline = 10 := by simpa using hstored
  omega

end AllInOneBackup.PanSou.TwoLevel
