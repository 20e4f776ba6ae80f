import AllInOneBackup.PanSou.TwoLevel.Levels

/-! Coherence. The last `Set` or `Delete` of a key in memory decides what a later `Get` may return.
Memory has its value or nothing, and so has the disk unless the write of that `Set`, or the
`Delete`, is still to come there. A write of an older value that comes after it, the back-fill of a
value that has been replaced meanwhile, and a write that fails over an older value break this, and
nothing else does. -/

namespace AllInOneBackup.PanSou.TwoLevel

open Concurrency
open DiskCache (lookup_of_lookup_erase)

variable {K D : Type} [DecidableEq K] {c : Config K D}

/-! ### The property and the condition -/

/-- The value of the last `Set` or `Delete` of the key in memory. -/
def last (key : K) (trace : List (Event K D)) : Option D :=
  trace.foldl (fun v e => match e with
    | .stored k d _ => if k = key then some d else v
    | .deleted k => if k = key then none else v
    | .got _ _ _ => v) none

/-- The disk operation of a `Set` of the value, or of a `Delete`, is still to come. -/
def Point.settles (k : K) (v : Option D) : Point K D → Prop
  | .writing .set key data _ => key = k ∧ v = some data
  | .diskDelete key => key = k ∧ v = none
  | _ => False

/-- No `Set` or `Delete` of the key is in progress, nor the disk write of a `Set`. -/
def Calm (k : K) (ts : List (Point K D)) : Prop :=
  ∀ t ∈ ts, ¬t.overwrites k ∧ ∀ v, ¬t.settles k v

/-- Memory has the last value of a key or nothing, and so has the disk when the key is calm. -/
def UpToDate (p : LevelsPool K D) : Prop :=
  ∀ k, (∀ item, p.shared.items.lookup k = some item → last k p.trace = some item.data) ∧
    (Calm k p.tasks → ∀ e, p.shared.disk.lookup k = some e → last k p.trace = some e.data)

/-- A `Get` that begins when the key is calm, and returns before there is another `Set` or `Delete`
of the key, returns the last value or nothing. -/
def GetsCoherent (c : Config K D) (actions : List (Action (Outcome K) (External K D))) : Prop :=
  ∀ before after key p q result, actions = before ++ .event (.get key) :: after →
    (system c).run newTwoLevelCache before = some p → Calm key p.tasks →
    (∀ a ∈ after, (∀ data ttl, a ≠ .event (.set key data ttl)) ∧ a ≠ .event (.delete key)) →
    (system c).run p (.event (.get key) :: after) = some q →
    q.tasks[p.tasks.length]? = some (.returned result) →
    result = none ∨ result = last key p.trace

/-- The value is the last of the key, or the disk operation of the last one is still to come. -/
def Superseded (p : LevelsPool K D) (k : K) (d : D) : Prop :=
  last k p.trace = some d ∨ ∃ u ∈ p.tasks, u.settles k (last k p.trace)

/-- What is asked of a turn. A value goes to the disk only before the disk operation of the last
`Set` or `Delete` of its key, or as the last value; the write of the last value does not fail over
another one; and a back-fill puts the last value into memory. -/
def UsesLast (p : LevelsPool K D) : Point K D → Outcome K → Prop
  | .writing _ key data _, .ok => Superseded p key data
  | .writing .set key data _, .failed => last key p.trace = some data →
      ∀ e ∈ p.shared.disk.lookup key, data = e.data
  | .flushing items, .pick i true => ∀ e ∈ items[i]?, Superseded p e.1 e.2.1
  | .backfilling key data _ _, _ => last key p.trace = some data
  | _, _ => True

def StepUsesLast (p : LevelsPool K D) : Action (Outcome K) (External K D) → Prop
  | .resume i o => ∀ t ∈ p.tasks[i]?, UsesLast p t o
  | .event _ => True

instance [DecidableEq D] (k : K) (v : Option D) : DecidablePred (Point.settles k v)
  | .writing .set key data _ => inferInstanceAs (Decidable (key = k ∧ v = some data))
  | .diskDelete key => inferInstanceAs (Decidable (key = k ∧ v = none))
  | .writing .evictFromShard _ _ _ | .set _ _ _ | .evicted _ _ _ | .get _ | .looked _ _
  | .expiring _ _ | .diskGet _ | .purging _ | .timing _ _ | .remaining _ _ _ | .dating _ _ _
  | .backfilling _ _ _ _ | .delete _ | .collecting _ _ _ | .flushing _ | .returned _ =>
    .isFalse id

instance [DecidableEq D] (p : LevelsPool K D) (k : K) (d : D) : Decidable (Superseded p k d) :=
  inferInstanceAs (Decidable (_ ∨ _))

instance [DecidableEq D] (p : LevelsPool K D) (t : Point K D) (o : Outcome K) :
    Decidable (UsesLast p t o) := by
  unfold UsesLast
  split <;> infer_instance

instance [DecidableEq D] (p : LevelsPool K D) : DecidablePred (StepUsesLast p)
  | .resume i o => inferInstanceAs (Decidable (∀ t ∈ p.tasks[i]?, UsesLast p t o))
  | .event _ => .isTrue trivial

/-! ### What the turns keep -/

section Turn

variable {s : Levels K D} {trace : List (Event K D)} {t : Point K D} {o : Outcome K}
  {r : Step K D} {k : K} {v : Option D}

theorem last_append (k : K) (trace seen : List (Event K D)) :
    last k (trace ++ seen) = seen.foldl (fun v e => match e with
      | .stored key d _ => if key = k then some d else v
      | .deleted key => if key = k then none else v
      | .got _ _ _ => v) (last k trace) :=
  List.foldl_append ..

/-- The other turns show at most what a `Get` returns. -/
theorem seen_advance (h : advance c s t o = some r) (ht : ∀ k, ¬t.overwrites k) :
    ∀ e ∈ r.seen, ∃ key data time, e = .got key data time := by
  cases t with
  | set key data ttl => exact absurd (.inl ⟨data, ttl, rfl⟩) (ht key)
  | delete key => exact absurd (.inr rfl) (ht key)
  | looked key item =>
    cases o <;> simp only [advance, reduceCtorEq] at h
    split_ifs at h <;> obtain rfl := Option.some.inj h <;> simp
  | backfilling key data ttl lastModified =>
    cases o <;> simp only [advance, reduceCtorEq] at h
    split_ifs at h
    obtain rfl := Option.some.inj h
    simp
  | get key | timing key data =>
    cases o <;> simp only [advance, reduceCtorEq] at h
    split at h <;> obtain rfl := Option.some.inj h <;> simp
  | diskGet key =>
    cases o <;> simp only [advance, reduceCtorEq] at h
    · split at h <;> obtain rfl := Option.some.inj h <;> simp
    · obtain rfl := Option.some.inj h
      simp
  | writing _ _ _ _ | evicted _ _ _ | expiring _ _ | purging _ | remaining _ _ _ | dating _ _ _
  | diskDelete _ | returned _ =>
    cases o <;> simp only [advance, reduceCtorEq] at h <;> obtain rfl := Option.some.inj h <;> simp
  | collecting now shards items =>
    cases shards <;> cases o <;> simp only [advance, reduceCtorEq] at h <;>
      obtain rfl := Option.some.inj h <;> simp
  | flushing items =>
    cases o with
    | pick i ok =>
      obtain ⟨e, -, rfl⟩ := advance_flushing h
      simp
    | turn =>
      cases items <;> simp only [advance, reduceCtorEq] at h
      obtain rfl := Option.some.inj h
      simp
    | range | ok | failed => cases items <;> simp only [advance, reduceCtorEq] at h

/-- A `Set` in memory is the last, and its disk write is still to come. -/
theorem set_advance {d : D} {ttl : ℤ} (trace : List (Event K D))
    (h : advance c s (.set k d ttl) o = some r) :
    last k (trace ++ r.seen) = some d ∧ .writing .set k d ttl ∈ r.goroutines ∧
      ∀ k', k' ≠ k → last k' (trace ++ r.seen) = last k' trace := by
  cases o <;> simp only [advance, reduceCtorEq] at h
  split_ifs at h
  obtain rfl := Option.some.inj h
  refine ⟨?_, List.mem_cons_self, fun k' hne => ?_⟩
  · simp [last_append]
  · simp [last_append, hne.symm]

theorem delete_advance (trace : List (Event K D)) (h : advance c s (.delete k) o = some r) :
    last k (trace ++ r.seen) = none ∧ r.point = .diskDelete k ∧
      ∀ k', k' ≠ k → last k' (trace ++ r.seen) = last k' trace := by
  cases o <;> simp only [advance, reduceCtorEq] at h
  obtain rfl := Option.some.inj h
  refine ⟨?_, rfl, fun k' hne => ?_⟩
  · simp [last_append]
  · simp [last_append, hne.symm]

/-- The last value changes with the turns in memory of a `Set` or `Delete`. -/
theorem last_advance (h : advance c s t o = some r) (ht : ¬t.overwrites k) :
    last k (trace ++ r.seen) = last k trace := by
  by_cases hother : ∃ key, t.overwrites key
  · obtain ⟨key, ⟨d, ttl, rfl⟩ | rfl⟩ := hother
    · exact (set_advance _ h).2.2 k fun heq => ht (.inl ⟨d, ttl, heq ▸ rfl⟩)
    · exact (delete_advance _ h).2.2 k fun heq => ht (.inr (heq ▸ rfl))
  · have hgot := seen_advance h (not_exists.mp hother)
    rw [last_append]
    generalize r.seen = seen at hgot
    induction seen with
    | nil => rfl
    | cons e seen ih =>
      obtain ⟨key, data, time, rfl⟩ := hgot e List.mem_cons_self
      exact ih fun e he => hgot e (List.mem_cons_of_mem _ he)

/-- What memory and the disk have for a key, when some calls are in progress. -/
structure Coherent (s : Levels K D) (ts : List (Point K D)) (trace : List (Event K D)) : Prop where
  memory : ∀ k item, s.items.lookup k = some item → last k trace = some item.data
  disk : ∀ k e, s.disk.lookup k = some e →
    last k trace = some e.data ∨ ∃ u ∈ ts, u.settles k (last k trace)

theorem Coherent.perm {ts ts' : List (Point K D)} (h : Coherent s ts trace) (hp : ts'.Perm ts) :
    Coherent s ts' trace where
  memory := h.memory
  disk k e he := (h.disk k e he).imp_right fun ⟨u, hu, hk⟩ => ⟨u, hp.mem_iff.mpr hu, hk⟩

theorem coherent_resume {others : List (Point K D)} {p : LevelsPool K D}
    (hinv : Coherent s (t :: others) trace) (hshared : p.shared = s) (htrace : p.trace = trace)
    (htasks : ∀ u ∈ p.tasks, u ∈ t :: others) (hok : UsesLast p t o)
    (h : advance c s t o = some r) :
    Coherent r.levels (r.point :: r.goroutines ++ others) (trace ++ r.seen) := by
  have hspec := spec_advance h
  subst hshared htrace
  constructor
  case memory =>
    intro k item hk
    obtain ⟨hnot, item', hold, hdata, -⟩ | ⟨ttl, rfl | ⟨m, rfl⟩, -⟩ := hspec.items k item hk
    · rw [last_advance h hnot, hinv.memory k item' hold, hdata]
    · exact (set_advance _ h).1
    · rw [last_advance h (by simp [Point.overwrites])]
      exact hok
  case disk =>
    intro k e hk
    by_cases hover : t.overwrites k
    · right
      obtain ⟨d, ttl, rfl⟩ | rfl := hover
      · obtain ⟨hlast, hmem, -⟩ := set_advance p.trace h
        exact ⟨_, List.mem_append_left _ (List.mem_cons_of_mem _ hmem), rfl, hlast⟩
      · obtain ⟨hlast, hpoint, -⟩ := delete_advance p.trace h
        exact ⟨_, List.mem_append_left _ List.mem_cons_self, hpoint ▸ ⟨rfl, hlast⟩⟩
    · rw [last_advance h hover]
      have hothers : ∀ u ∈ t :: others, u.settles k (last k p.trace) →
          ¬t.settles k (last k p.trace) →
          ∃ u ∈ r.point :: r.goroutines ++ others, u.settles k (last k p.trace) := by
        intro u hu hsettles hnot
        obtain rfl | hu := List.mem_cons.mp hu
        · exact absurd hsettles hnot
        · exact ⟨u, List.mem_append_right _ hu, hsettles⟩
      obtain ⟨hold, hdelete, hwrite⟩ | ⟨ttl, ⟨w, rfl, rfl⟩ | ⟨items, i, rfl, rfl, hi⟩, -⟩ :=
        hspec.disk k e hk
      · obtain hlast | ⟨u, hu, hsettles⟩ := hinv.disk k e hold
        · exact .inl hlast
        · by_cases hself : t.settles k (last k p.trace)
          · -- The turn was the disk operation of the last `Set`, and it has failed.
            left
            cases t with
            | writing writer key data ttl =>
              cases writer with
              | evictFromShard => cases hself
              | set =>
                obtain ⟨rfl, hlast⟩ := hself
                cases o with
                | ok => exact absurd (.inl ⟨.set, rfl, rfl⟩) (hwrite data ttl)
                | failed => exact hlast.trans (congrArg some (hok hlast e hold))
                | turn | range | pick => simp only [advance, reduceCtorEq] at h
            | diskDelete key => exact absurd (hself.1 ▸ rfl) hdelete
            | _ => cases hself
          · exact .inr (hothers u hu hsettles hself)
      · obtain hlast | ⟨u, hu, hsettles⟩ := hok
        · exact .inl hlast
        · by_cases hself : Point.settles k (last k p.trace) (.writing w k e.data ttl)
          · cases w with
            | set => exact .inl hself.2
            | evictFromShard => cases hself
          · exact .inr (hothers u (htasks u hu) hsettles hself)
      · obtain hlast | ⟨u, hu, hsettles⟩ := hok _ hi
        · exact .inl hlast
        · exact .inr (hothers u (htasks u hu) hsettles id)

theorem coherent_event {ts : List (Point K D)} {e : External K D}
    {r : Effect (Levels K D) (Point K D) (Event K D)} (hinv : Coherent s ts trace)
    (h : event c s e = some r) : Coherent r.shared (r.spawned ++ ts) (trace ++ r.seen) := by
  have hmore : ∀ new : List (Point K D), Coherent s (new ++ ts) (trace ++ []) := by
    intro new
    rw [List.append_nil]
    exact ⟨hinv.memory, fun k e he => (hinv.disk k e he).imp_right
      fun ⟨u, hu, hk⟩ => ⟨u, List.mem_append_right _ hu, hk⟩⟩
  cases e with
  | set key data ttl =>
    cases h
    exact hmore [.set key data ttl]
  | get key =>
    cases h
    exact hmore [.get key]
  | delete key =>
    cases h
    exact hmore [.delete key]
  | flushMemoryToDisk shards =>
    cases h
    exact hmore [.collecting s.now shards []]
  | tick d =>
    cases h
    exact ⟨(hmore []).memory, (hmore []).disk⟩
  | cleanItem key =>
    obtain ⟨item, -, h⟩ := Option.bind_eq_some_iff.mp h
    obtain ⟨-, h⟩ := Option.ite_none_right_eq_some.mp h
    cases h
    exact ⟨fun k it hk => (hmore []).memory k it (Levels.lookup_deleteItem hk).2, (hmore []).disk⟩
  | lose key =>
    cases h
    exact ⟨(hmore []).memory, fun k e hk => (hmore []).disk k e (lookup_of_lookup_erase hk)⟩

/-! ### A `Get` of a calm key -/

/-- What a `Get` of the key has in hand, where the last value is `v`. -/
def Point.reads (k : K) (v : Option D) : Point K D → Prop
  | .get key | .expiring key _ | .diskGet key | .purging key => key = k
  | .looked key item => key = k ∧ v = some item.data
  | .timing key data | .remaining key data _ | .dating key data _
  | .backfilling key data _ _ => key = k ∧ v = some data
  | .returned result => result = none ∨ result = v
  | _ => False

/-- Where the levels have the last value or nothing, a `Get` goes on with it. -/
theorem reads_advance (hitems : ∀ item, s.items.lookup k = some item → v = some item.data)
    (hdisk : ∀ e, s.disk.lookup k = some e → v = some e.data) (ht : t.reads k v)
    (h : advance c s t o = some r) : r.point.reads k v := by
  cases t with
  | get key =>
    cases o <;> simp only [advance, reduceCtorEq] at h
    obtain rfl := ht
    cases hitem : s.items.lookup key with
    | none =>
      obtain rfl := Option.some.inj (by simpa only [hitem] using h)
      rfl
    | some item =>
      obtain rfl := Option.some.inj (by simpa only [hitem] using h)
      exact ⟨rfl, hitems item hitem⟩
  | looked key item =>
    cases o <;> simp only [advance, reduceCtorEq] at h
    split_ifs at h <;> obtain rfl := Option.some.inj h
    · exact ht.1
    · exact .inr ht.2.symm
  | expiring key size =>
    cases o <;> simp only [advance, reduceCtorEq] at h
    obtain rfl := Option.some.inj h
    exact ht
  | diskGet key =>
    obtain rfl := ht
    cases o <;> simp only [advance, reduceCtorEq] at h
    · cases he : s.disk.lookup key with
      | none =>
        obtain rfl := Option.some.inj (by simpa only [he] using h)
        exact .inl rfl
      | some e =>
        obtain rfl := Option.some.inj (by simpa only [he] using h)
        simp only
        split_ifs
        · rfl
        · exact ⟨rfl, hdisk e he⟩
    · obtain rfl := Option.some.inj h
      exact .inl rfl
  | purging key =>
    cases o <;> simp only [advance, reduceCtorEq] at h
    obtain rfl := Option.some.inj h
    exact .inl rfl
  | timing key data =>
    cases o <;> simp only [advance, reduceCtorEq] at h
    split at h <;> obtain rfl := Option.some.inj h <;> exact ht
  | remaining key data expiry =>
    cases o <;> simp only [advance, reduceCtorEq] at h
    obtain rfl := Option.some.inj h
    simp only
    split_ifs
    · exact .inl rfl
    · exact ht
  | dating key data ttl =>
    cases o <;> simp only [advance, reduceCtorEq] at h
    obtain rfl := Option.some.inj h
    exact ht
  | backfilling key data ttl lastModified =>
    cases o <;> simp only [advance, reduceCtorEq] at h
    split_ifs at h
    obtain rfl := Option.some.inj h
    exact .inr ht.2.symm
  | returned result => cases o <;> simp only [advance, reduceCtorEq] at h
  | set _ _ _ | writing _ _ _ _ | evicted _ _ _ | delete _ | diskDelete _ | collecting _ _ _
  | flushing _ => cases ht

/-- No turn leads to one that overwrites or settles a key, but that of a `Delete` in memory. -/
theorem point_advance (ht : t ≠ .delete k) (h : advance c s t o = some r) :
    ¬r.point.overwrites k ∧ ∀ v, ¬r.point.settles k v := by
  cases t with
  | delete key =>
    cases o <;> simp only [advance, reduceCtorEq] at h
    obtain rfl := Option.some.inj h
    have hne : key ≠ k := fun heq => ht (heq ▸ rfl)
    simp [Point.overwrites, Point.settles, hne]
  | set key data ttl | backfilling key data ttl lastModified =>
    cases o <;> simp only [advance, reduceCtorEq] at h
    split_ifs at h
    obtain rfl := Option.some.inj h
    simp [Point.overwrites, Point.settles]
  | looked key item =>
    cases o <;> simp only [advance, reduceCtorEq] at h
    split_ifs at h <;> obtain rfl := Option.some.inj h <;>
      simp [Point.overwrites, Point.settles]
  | get key | timing key data =>
    cases o <;> simp only [advance, reduceCtorEq] at h
    split at h <;> obtain rfl := Option.some.inj h <;> simp [Point.overwrites, Point.settles]
  | diskGet key =>
    cases o <;> simp only [advance, reduceCtorEq] at h
    · split at h <;> obtain rfl := Option.some.inj h
      · simp [Point.overwrites, Point.settles]
      · simp only
        split_ifs <;> simp [Point.overwrites, Point.settles]
    · obtain rfl := Option.some.inj h
      simp [Point.overwrites, Point.settles]
  | evicted key data expiry | remaining key data expiry =>
    cases o <;> simp only [advance, reduceCtorEq] at h
    obtain rfl := Option.some.inj h
    simp only
    split_ifs <;> simp [Point.overwrites, Point.settles]
  | writing _ _ _ _ | expiring _ _ | purging _ | dating _ _ _ | diskDelete _ | returned _ =>
    cases o <;> simp only [advance, reduceCtorEq] at h <;> obtain rfl := Option.some.inj h <;>
      simp [Point.overwrites, Point.settles]
  | collecting now shards items =>
    cases shards <;> cases o <;> simp only [advance, reduceCtorEq] at h <;>
      obtain rfl := Option.some.inj h <;> simp [Point.overwrites, Point.settles]
  | flushing items =>
    cases o with
    | pick i ok =>
      obtain ⟨e, -, rfl⟩ := advance_flushing h
      simp [Point.overwrites, Point.settles]
    | turn =>
      cases items <;> simp only [advance, reduceCtorEq] at h
      obtain rfl := Option.some.inj h
      simp [Point.overwrites, Point.settles]
    | range | ok | failed => cases items <;> simp only [advance, reduceCtorEq] at h

/-- A key stays calm when no call of it begins. -/
theorem calm_advance (ht : ¬t.overwrites k) (h : advance c s t o = some r) :
    Calm k (r.point :: r.goroutines) := by
  refine List.forall_mem_cons.mpr ⟨point_advance (fun heq => ht (.inr heq)) h, fun g hg => ?_⟩
  obtain ⟨key, d, ttl, rfl, rfl⟩ | ⟨key, item, -, rfl⟩ := (spec_advance h).goroutines g hg
  · have hne : key ≠ k := fun heq => ht (.inl ⟨d, ttl, heq ▸ rfl⟩)
    simp [Point.overwrites, Point.settles, hne]
  · simp [Point.overwrites, Point.settles]

end Turn

/-! ### Every run -/

theorem coherent_step {p q : LevelsPool K D} {a : Action (Outcome K) (External K D)}
    (hinv : Coherent p.shared p.tasks p.trace) (hok : StepUsesLast p a)
    (hstep : (system c).step p a = some q) : Coherent q.shared q.tasks q.trace := by
  obtain ⟨i, o, t, r, others, rfl, ht, hr, hshared, htrace, hp, hq⟩ |
    ⟨e, r, rfl, he, hshared, htrace, hq⟩ := System.step_perm hstep
  · obtain ⟨r, hadvance, rfl⟩ := Option.map_eq_some_iff.mp hr
    rw [hshared, htrace]
    exact (coherent_resume (hinv.perm hp.symm) rfl rfl (fun u hu => hp.mem_iff.mp hu) (hok t ht)
      hadvance).perm hq
  · rw [hshared, htrace]
    exact (coherent_event hinv he).perm hq

theorem coherent_newTwoLevelCache :
    Coherent (newTwoLevelCache : LevelsPool K D).shared newTwoLevelCache.tasks
      newTwoLevelCache.trace := by
  constructor
  · intro k item hk
    rw [newTwoLevelCache, AList.lookup_empty] at hk
    cases hk
  · intro k e hk
    rw [newTwoLevelCache, AList.lookup_empty] at hk
    cases hk

theorem Coherent.upToDate {p : LevelsPool K D} (h : Coherent p.shared p.tasks p.trace) :
    UpToDate p := by
  refine fun k => ⟨h.memory k, fun hcalm e he => ?_⟩
  obtain hlast | ⟨u, hu, hsettles⟩ := h.disk k e he
  · exact hlast
  · exact absurd hsettles ((hcalm u hu).2 _)

/-- What holds from the beginning of the `Get` on: the key is calm, its last value is `v`, and the
`Get` has nothing else in hand. -/
structure Reading (k : K) (v : Option D) (i : ℕ) (p : LevelsPool K D) : Prop where
  coherent : Coherent p.shared p.tasks p.trace
  calm : Calm k p.tasks
  last_eq : last k p.trace = v
  reads : ∃ t, p.tasks[i]? = some t ∧ t.reads k v

/-- No event shows anything, and only a call of the key disturbs it. -/
theorem event_spec {s : Levels K D} {e : External K D} {k : K}
    {r : Effect (Levels K D) (Point K D) (Event K D)}
    (ha : (∀ data ttl, (Action.event e : Action (Outcome K) _) ≠ .event (.set k data ttl)) ∧
      (Action.event e : Action (Outcome K) _) ≠ .event (.delete k))
    (h : event c s e = some r) : r.seen = [] ∧ Calm k r.spawned := by
  cases e with
  | set key data ttl =>
    cases h
    have hne : key ≠ k := fun heq => ha.1 data ttl (heq ▸ rfl)
    exact ⟨rfl, List.forall_mem_singleton.mpr (by simp [Point.overwrites, Point.settles, hne])⟩
  | delete key =>
    cases h
    have hne : key ≠ k := fun heq => ha.2 (heq ▸ rfl)
    exact ⟨rfl, List.forall_mem_singleton.mpr (by simp [Point.overwrites, Point.settles, hne])⟩
  | get key | flushMemoryToDisk shards =>
    cases h
    exact ⟨rfl, List.forall_mem_singleton.mpr (by simp [Point.overwrites, Point.settles])⟩
  | tick d | lose key =>
    cases h
    exact ⟨rfl, List.forall_mem_nil _⟩
  | cleanItem key =>
    obtain ⟨item, -, h⟩ := Option.bind_eq_some_iff.mp h
    obtain ⟨-, h⟩ := Option.ite_none_right_eq_some.mp h
    cases h
    exact ⟨rfl, List.forall_mem_nil _⟩

theorem reading_step {p q : LevelsPool K D} {a : Action (Outcome K) (External K D)} {k : K}
    {v : Option D} {i : ℕ} (h : Reading k v i p) (hok : StepUsesLast p a)
    (ha : (∀ data ttl, a ≠ .event (.set k data ttl)) ∧ a ≠ .event (.delete k))
    (hstep : (system c).step p a = some q) : Reading k v i q := by
  have hcoherent := coherent_step h.coherent hok hstep
  obtain ⟨t, ht, hreads⟩ := h.reads
  obtain ⟨j, o, u, r, rfl, hu, hr, rfl⟩ | ⟨e, r, rfl, he, rfl⟩ := System.step_cases hstep
  · obtain ⟨r, hadvance, rfl⟩ := Option.map_eq_some_iff.mp hr
    have hcalm := h.calm u (List.mem_of_getElem? hu)
    have hnew := calm_advance hcalm.1 hadvance
    refine ⟨hcoherent, ?_, (last_advance hadvance hcalm.1).trans h.last_eq, ?_⟩
    · exact forall_mem_set_append h.calm (hnew _ List.mem_cons_self)
        fun x hx => hnew x (List.mem_cons_of_mem _ hx)
    · have hi := (List.getElem?_eq_some_iff.mp ht).1
      rw [List.getElem?_append_left (by simpa using hi)]
      rcases eq_or_ne j i with rfl | hne
      · obtain rfl := Option.some.inj (hu.symm.trans ht)
        have hdata := h.coherent.upToDate k
        rw [h.last_eq] at hdata
        exact ⟨_, List.getElem?_set_self hi,
          reads_advance hdata.1 (hdata.2 h.calm) hreads hadvance⟩
      · exact ⟨t, (List.getElem?_set_ne hne).trans ht, hreads⟩
  · obtain ⟨hseen, hcalm⟩ := event_spec ha he
    refine ⟨hcoherent, List.forall_mem_append.mpr ⟨h.calm, hcalm⟩, ?_, t, ?_, hreads⟩
    · rw [hseen, List.append_nil]
      exact h.last_eq
    · rw [List.getElem?_append_left (List.getElem?_eq_some_iff.mp ht).1]
      exact ht

theorem reading_run {p q : LevelsPool K D} {k : K} {v : Option D} {i : ℕ}
    {actions : List (Action (Outcome K) (External K D))} (h : Reading k v i p)
    (hok : (system c).Along StepUsesLast p actions)
    (hcalls : ∀ a ∈ actions,
      (∀ data ttl, a ≠ .event (.set k data ttl)) ∧ a ≠ .event (.delete k))
    (hrun : (system c).run p actions = some q) : Reading k v i q := by
  induction actions generalizing p with
  | nil => exact Option.some.inj hrun ▸ h
  | cons a actions ih =>
    obtain ⟨p', hstep, hrun⟩ := (System.run_cons _).mp hrun
    obtain ⟨hok, hrest⟩ := hok p' hstep
    exact ih (reading_step h hok (hcalls a List.mem_cons_self) hstep) hrest
      (fun a' ha' => hcalls a' (List.mem_cons_of_mem _ ha')) hrun

/-- In every run whose turns use the last value, the levels are up to date, and a `Get` of a calm
key returns the value of the last `Set` or `Delete`, or nothing. -/
theorem gets_coherent (c : Config K D) (actions : List (Action (Outcome K) (External K D)))
    (hok : (system c).Along StepUsesLast newTwoLevelCache actions) :
    (system c).Throughout UpToDate newTwoLevelCache actions ∧ GetsCoherent c actions := by
  have hstep : ∀ (p : LevelsPool K D) (a : Action (Outcome K) (External K D)) q,
      Coherent p.shared p.tasks p.trace → StepUsesLast p a → (system c).step p a = some q →
      Coherent q.shared q.tasks q.trace :=
    fun _ _ _ h hok hstep => coherent_step h hok hstep
  constructor
  · exact (System.throughout_of_along hstep coherent_newTwoLevelCache hok).mono
      fun _ h => h.upToDate
  · rintro before after key p q result rfl hbefore hcalm hcalls hafter hresult
    obtain ⟨hok, hok'⟩ := hok.append hbefore
    have hcoherent :=
      (System.throughout_of_along hstep coherent_newTwoLevelCache hok).last hbefore
    obtain ⟨p', hget, hafter⟩ := (System.run_cons _).mp hafter
    have hreading : Reading key (last key p.trace) p.tasks.length p' := by
      have hcoherent' := hstep p (.event (.get key)) p' hcoherent trivial hget
      cases hget
      refine ⟨hcoherent', ?_, congrArg (last key) (List.append_nil _), ?_⟩
      · refine List.forall_mem_append.mpr ⟨hcalm, List.forall_mem_singleton.mpr ?_⟩
        simp [Point.overwrites, Point.settles]
      · exact ⟨.get key, by simp, rfl⟩
    obtain ⟨t, ht, hreads⟩ := (reading_run hreading (hok' p' hget).2 hcalls hafter).reads
    obtain rfl := Option.some.inj (hresult.symm.trans ht)
    exact hreads

/-- One shard that has room for all items. -/
def oneShard : Config ℕ ℕ := ⟨fun _ => 0, 0, fun _ => 1, 10, 1000, 3600⟩

/-- Two `Set`s of a key whose disk writes come late but in order, and a `Get`. -/
def calmRun : List (Action (Outcome ℕ) (External ℕ ℕ)) :=
  [.event (.set 7 5 100), .resume 0 (.range []), .event (.set 7 6 100), .resume 2 (.range [7]),
    .resume 1 .ok, .resume 3 .ok, .event (.get 7), .resume 4 .turn, .resume 4 .turn]

theorem gets_coherent_calm :
    GetsCoherent oneShard calmRun ∧
      ((system oneShard).run newTwoLevelCache calmRun).bind (·.tasks[4]?) =
        some (.returned (some 6)) :=
  ⟨(gets_coherent oneShard calmRun (by decide)).2, rfl⟩

/-- A `Set`, a `Delete` that comes before its disk write, and a `Get`. -/
def resurrectRun : List (Action (Outcome ℕ) (External ℕ ℕ)) :=
  [.event (.set 7 5 100), .resume 0 (.range []), .event (.delete 7), .resume 2 .turn,
    .resume 2 .ok, .resume 1 .ok]

def getRun : List (Action (Outcome ℕ) (External ℕ ℕ)) :=
  [.resume 3 .turn, .resume 3 .ok, .resume 3 .turn, .resume 3 .turn, .resume 3 .turn,
    .resume 3 (.range [])]

/-- The `Get` returns what has been deleted. -/
theorem deleted_returned :
    ¬∀ actions : List (Action (Outcome ℕ) (External ℕ ℕ)), GetsCoherent oneShard actions := by
  intro hall
  obtain ⟨p, hp, htasks, hlast⟩ :
      ∃ p, (system oneShard).run newTwoLevelCache resurrectRun = some p ∧
        p.tasks = [.returned none, .returned none, .returned none] ∧ last 7 p.trace = none :=
    ⟨_, rfl, rfl, rfl⟩
  obtain ⟨q, hq, hresult⟩ : ∃ q, (system oneShard).run p (.event (.get 7) :: getRun) = some q ∧
      q.tasks[p.tasks.length]? = some (.returned (some 5)) := by
    cases hp
    exact ⟨_, rfl, rfl⟩
  have hcalm : Calm 7 p.tasks := by
    rw [htasks]
    simp [Calm, Point.overwrites, Point.settles]
  have hreturned := hall _ resurrectRun getRun 7 p q (some 5) rfl hp hcalm
    (by simp [getRun]) hq hresult
  rw [hlast] at hreturned
  simp at hreturned

end AllInOneBackup.PanSou.TwoLevel
