import AllInOneBackup.LitePan.FuseReadCache.Rows

/-! The running count of the read cache against its index. `usedBytes` is what the rows count as
long as no invalidation or maintenance fails half way, with the count known, and every block that
is put has a file of the size that its row says. Then a put that succeeds also keeps the limit. -/

namespace AllInOneBackup.LitePan.FuseReadCache

namespace Service

variable {s t : Service} {faults : Faults} {incoming now : ℤ} {key : BlockKey} {data : Bytes}

theorem mem_of_pickEvict {m : BlockMeta} (h : s.pickEvict = some m) : m ∈ s.store.rows := by
  unfold pickEvict at h
  split at h
  · exact StoreLayer.mem_of_pickEvictLargeFile h
  · exact StoreLayer.mem_of_firstBy h

theorem rows_of_pickEvict (h : s.pickEvict = none) : s.store.rows = [] := by
  unfold pickEvict at h
  split at h
  · exact StoreLayer.rows_of_pickEvictLargeFile h
  · exact StoreLayer.firstBy_eq_none h

/-- The count, where it is known, is what the rows count. -/
def Accounted (s : Service) : Prop := s.usageKnown = true → s.usedBytes = s.store.usedBytes

instance (s : Service) : Decidable s.Accounted := inferInstanceAs (Decidable (_ → _))

/-- After space was made for `incoming` bytes: the count is still right, and there is the space. -/
structure Spaced (s : Service) (incoming : ℤ) (r : Option Err × Service) : Prop where
  valid : r.2.store.Valid
  used : r.2.usedBytes = r.2.store.usedBytes
  cfg : r.2.cfg = s.cfg
  known : r.2.usageKnown = s.usageKnown
  fits : r.1 = none → incoming ≤ s.cfg.maxBytes → r.2.usedBytes + incoming ≤ s.cfg.maxBytes

theorem evictLoop_spec {n : ℕ} (hs : s.store.Valid) (hused : s.usedBytes = s.store.usedBytes)
    (hn : s.store.rows.length < n) : Spaced s incoming (evictLoop faults incoming n s) := by
  induction n generalizing s with
  | zero => exact absurd hn (Nat.not_lt_zero _)
  | succ n ih =>
    rw [evictLoop]
    split_ifs with hfits hpick
    · exact ⟨hs, hused, rfl, rfl, fun _ _ => hfits⟩
    · exact ⟨hs, hused, rfl, rfl, fun h => absurd h (by simp)⟩
    · cases hevict : s.pickEvict with
      | none =>
        refine ⟨hs, hused, rfl, rfl, fun _ hle => ?_⟩
        rw [hused, StoreLayer.usedBytes, rows_of_pickEvict hevict]
        simpa using hle
      | some m =>
        have hm := mem_of_pickEvict hevict
        simp only
        obtain ⟨-, herr, hrows⟩ | ⟨-, herr, hrows⟩ :=
          s.store.deleteBlock_cases faults m.toBlockKey
        · rw [← Prod.mk.eta (p := s.store.deleteBlock faults m.toBlockKey), herr]
          have hsame : (s.store.deleteBlock faults m.toBlockKey).2.usedBytes =
              s.store.usedBytes := by
            rw [StoreLayer.usedBytes, hrows]
            rfl
          exact ⟨hs.sublist (hrows ▸ .refl _), hused.trans hsame.symm, rfl, rfl, fun h => absurd h (by simp)⟩
        · rw [← Prod.mk.eta (p := s.store.deleteBlock faults m.toBlockKey), herr]
          have hvalid : (s.store.deleteBlock faults m.toBlockKey).2.Valid :=
            hs.sublist (hrows ▸ List.filter_sublist)
          have hone : (s.store.deleteBlock faults m.toBlockKey).2.usedBytes =
              s.store.usedBytes - m.byteLen := by
            rw [StoreLayer.usedBytes, hrows, StoreLayer.usedBytes_filter, hs.rowLen_of_mem hm]
          have hnonneg := hvalid.usedBytes_nonneg
          have hshorter : (s.store.deleteBlock faults m.toBlockKey).2.rows.length <
              s.store.rows.length := by
            rw [hrows]
            apply List.length_filter_lt_length_iff_exists.mpr
            exact ⟨m, hm, by simp⟩
          have hrest := ih (s := { s with
              store := (s.store.deleteBlock faults m.toBlockKey).2
              usedBytes := max 0 (s.usedBytes - m.byteLen) }) hvalid
            (by simp only; omega) (by simp only; omega)
          exact ⟨hrest.valid, hrest.used, hrest.cfg, hrest.known, hrest.fits⟩

/-- Where the count is not known, it is taken from the rows first. -/
theorem ensureSpace_spec (faults : Faults) (incoming : ℤ) (hs : s.store.Valid) (hacc : s.Accounted) :
    (s.ensureSpace faults incoming).2.store.Valid ∧ (s.ensureSpace faults incoming).2.Accounted ∧
      ((s.ensureSpace faults incoming).1 = none →
        Spaced { s with usageKnown := true } incoming (s.ensureSpace faults incoming)) := by
  unfold ensureSpace
  split_ifs with hknown hstats
  · have hspaced : Spaced s incoming (evictLoop faults incoming (s.store.rows.length + 1) s) :=
      evictLoop_spec hs (hacc hknown) (Nat.lt_succ_self _)
    exact ⟨hspaced.valid, fun _ => hspaced.used, fun _ =>
      ⟨hspaced.valid, hspaced.used, hspaced.cfg, hspaced.known.trans hknown, hspaced.fits⟩⟩
  · exact ⟨hs, hacc, nofun⟩
  · have hspaced : Spaced { s with usedBytes := s.store.usedBytes, usageKnown := true } incoming
        (evictLoop faults incoming (s.store.rows.length + 1)
          { s with usedBytes := s.store.usedBytes, usageKnown := true }) :=
      evictLoop_spec hs rfl (Nat.lt_succ_self _)
    exact ⟨hspaced.valid, fun _ => hspaced.used, fun _ =>
      ⟨hspaced.valid, hspaced.used, hspaced.cfg, hspaced.known, hspaced.fits⟩⟩

def due (s : Service) (now : ℤ) : Bool :=
  s.lastMaintainAt.elim true fun last => now - last ≥ maintenanceInterval

def expired (s : Service) (now : ℤ) (m : BlockMeta) : Bool := m.createdAt < now - s.cfg.retention

/-- With the count known, the deletion of what `p` finds fails half way. -/
def Drifts (s : Service) (faults : Faults) (p : BlockMeta → Bool) : Prop :=
  s.usageKnown = true ∧ s.store.GoesHalf faults p

instance (s : Service) (faults : Faults) (p : BlockMeta → Bool) : Decidable (s.Drifts faults p) :=
  inferInstanceAs (Decidable (_ ∧ _))

/-- The rows that are left count what is used, with the same count. -/
theorem accounted_deleteWhere_iff {p : BlockMeta → Bool} (hs : s.store.Valid) (hacc : s.Accounted)
    (ht : t.store.rows = (s.store.deleteWhere faults p).2.rows) (hused : t.usedBytes = s.usedBytes)
    (hknown : t.usageKnown = (s.usageKnown && (s.store.deleteWhere faults p).1.isSome)) :
    t.Accounted ↔ ¬s.Drifts faults p := by
  have hrows : t.store.usedBytes = (s.store.deleteWhere faults p).2.usedBytes := by
    rw [StoreLayer.usedBytes, ht]
    rfl
  unfold Accounted Drifts
  rw [hknown, hused, hrows]
  cases hk : s.usageKnown with
  | false => simp
  | true =>
    cases herr : (s.store.deleteWhere faults p).1.isSome with
    | false =>
      simp only [Bool.and_false, Bool.false_eq_true, false_implies, true_and, true_iff]
      intro hhalf
      rw [hhalf.isSome] at herr
      cases herr
    | true =>
      simp only [Bool.and_true, true_implies, true_and]
      rw [hacc hk, ← StoreLayer.usedBytes_deleteWhere_iff hs herr]
      exact eq_comm

theorem maintainIfDue_eq (s : Service) (faults : Faults) (now : ℤ) : s.maintainIfDue faults now =
    if s.due now then
      match s.store.deleteWhere faults (s.expired now) with
      | (some err, store) => (some err, { s with store })
      | (none, store) => (none, { s with store, usageKnown := false, lastMaintainAt := some now })
    else (none, s) := by
  have hexpired : (fun m : BlockMeta => decide (m.createdAt < now - s.cfg.retention)) =
      s.expired now := rfl
  unfold maintainIfDue maintain StoreLayer.expireBefore
  rw [hexpired]
  cases s.store.deleteWhere faults (s.expired now) with
  | mk err store =>
    cases err with
    | some err => rfl
    | none => rfl

/-- Maintenance keeps the count, but where it drifts. -/
theorem maintainIfDue_spec (faults : Faults) (now : ℤ) (hs : s.store.Valid) (hacc : s.Accounted) :
    (s.maintainIfDue faults now).2.store.Valid ∧ (s.maintainIfDue faults now).2.cfg = s.cfg ∧
      ((s.maintainIfDue faults now).2.Accounted ↔
        ¬(s.due now = true ∧ s.Drifts faults (s.expired now))) ∧
      ((s.maintainIfDue faults now).1 = none → (s.maintainIfDue faults now).2.Accounted) := by
  rw [maintainIfDue_eq]
  cases hdue : s.due now with
  | false => exact ⟨hs, rfl, by simpa using hacc, fun _ => hacc⟩
  | true =>
    rw [if_pos rfl]
    have hsub := s.store.deleteWhere_spec faults (s.expired now)
    cases hdel : s.store.deleteWhere faults (s.expired now) with
    | mk err store =>
      rw [hdel] at hsub
      have hiff : ∀ t : Service, t.store = store → t.usedBytes = s.usedBytes →
          t.usageKnown = (s.usageKnown && err.isSome) →
          (t.Accounted ↔ ¬s.Drifts faults (s.expired now)) := by
        intro t hstore hused hknown
        apply accounted_deleteWhere_iff hs hacc _ hused
        · rw [hknown, hdel]
        · rw [hstore, hdel]
      cases err with
      | some err =>
        have hsome := hiff { s with store } rfl rfl (Bool.and_true _).symm
        exact ⟨hs.sublist hsub, rfl, by simpa using hsome, nofun⟩
      | none =>
        have hnone := hiff { s with store, usageKnown := false, lastMaintainAt := some now } rfl rfl
          (Bool.and_false _).symm
        exact ⟨hs.sublist hsub, rfl, by simpa using hnone, fun _ => nofun⟩

/-- The state in which `putBlockWithPolicy` comes to put the block, if it does. -/
def reachesPut (s : Service) (faults : Faults) (now : ℤ) (data : Bytes) : Option Service :=
  match s.maintainIfDue faults now with
  | (some _, _) => none
  | (none, s) =>
    match s.ensureSpace faults data.length with
    | (some _, _) => none
    | (none, s) => some s

/-- The put would count the block by a file whose size is not what its row says. -/
def Miscounts (s : Service) (faults : Faults) (key : BlockKey) (data : Bytes) : Prop :=
  (data ≠ [] ∧ (faults.writeFile || faults.insertRow) = false) ∧
    s.store.statSize faults key ≠ s.store.rowLen key

instance (s : Service) (faults : Faults) (key : BlockKey) (data : Bytes) :
    Decidable (s.Miscounts faults key data) := inferInstanceAs (Decidable (_ ∧ _))

/-- Nothing that a put does makes the count drift. -/
def SoundPut (s : Service) (faults : Faults) (now : ℤ) (key : BlockKey) (data : Bytes) : Prop :=
  ¬(s.due now = true ∧ s.Drifts faults (s.expired now)) ∧
    ∀ t ∈ s.reachesPut faults now data, ¬t.Miscounts faults key data

instance (s : Service) (faults : Faults) (now : ℤ) (key : BlockKey) (data : Bytes) :
    Decidable (s.SoundPut faults now key data) := inferInstanceAs (Decidable (_ ∧ _))

/-- The last part of a put. -/
def finishPut (s : Service) (faults : Faults) (now : ℤ) (key : BlockKey) (data : Bytes) :
    Option Err × Service :=
  match s.store.putBlock faults now key data with
  | ((_, some err), store) => (some err, { s with store, usageKnown := false })
  | ((delta, none), store) => (none, { s with store, usedBytes := s.usedBytes + delta })

theorem finishPut_spec (faults : Faults) (now : ℤ) (key : BlockKey) (data : Bytes)
    (hs : s.store.Valid) (hused : s.usedBytes = s.store.usedBytes)
    (hknown : s.usageKnown = true) :
    (s.finishPut faults now key data).2.store.Valid ∧
      ((s.finishPut faults now key data).2.Accounted ↔ ¬s.Miscounts faults key data) ∧
      ((s.finishPut faults now key data).1 = none →
        (s.finishPut faults now key data).2.store.usedBytes ≤ s.usedBytes + data.length) := by
  unfold finishPut
  obtain ⟨hdata, heq⟩ | ⟨hfault, herr, hrows⟩ | ⟨⟨hdata, hok⟩, hres, hrows⟩ :=
    s.store.putBlock_cases faults now key data
  · rw [heq]
    subst hdata
    refine ⟨hs, ?_, fun _ => by simp [hused]⟩
    simp [Accounted, Miscounts, hused]
  · cases hput : s.store.putBlock faults now key data with
    | mk res store =>
      obtain ⟨delta, err⟩ := res
      rw [hput] at herr hrows
      obtain rfl : err = some .other := herr
      refine ⟨hs.sublist (by rw [hrows]), ?_, nofun⟩
      simp [Accounted, Miscounts, hfault]
  · have hlen : (0 : ℤ) < data.length := by
      have hpos := List.length_pos_iff.mpr hdata
      omega
    cases hput : s.store.putBlock faults now key data with
    | mk res store =>
      rw [hput] at hres hrows
      obtain rfl : res = _ := hres
      have hsum : store.usedBytes = s.store.usedBytes - s.store.rowLen key + data.length :=
        StoreLayer.usedBytes_withRow hs hrows
      have hnonneg := hs.rowLen_nonneg key
      refine ⟨hs.withRow hlen hrows, ?_, fun _ => by simp only; omega⟩
      simp only [Accounted, Miscounts, hknown, hsum, hused, true_implies]
      constructor
      · rintro heq ⟨-, hne⟩
        omega
      · intro hnot
        have hsame : s.store.statSize faults key = s.store.rowLen key := by
          by_contra hne
          exact hnot ⟨⟨hdata, hok⟩, hne⟩
        omega

/-- A put keeps the count where it is sound; one that succeeds keeps the limit in any case. -/
theorem putBlockWithPolicy_spec (hs : s.store.Valid) (hacc : s.Accounted) :
    (s.putBlockWithPolicy faults now key data).2.store.Valid ∧
      ((s.putBlockWithPolicy faults now key data).2.Accounted ↔ s.SoundPut faults now key data) ∧
      ((s.putBlockWithPolicy faults now key data).1 = none → data.length ≤ s.cfg.maxBytes →
        (s.putBlockWithPolicy faults now key data).2.store.usedBytes ≤ s.cfg.maxBytes) := by
  obtain ⟨hvalid, hcfg, hiff, haccounted⟩ := maintainIfDue_spec faults now hs hacc
  unfold putBlockWithPolicy SoundPut reachesPut
  cases hmaintain : s.maintainIfDue faults now with
  | mk err s₁ =>
    rw [hmaintain] at hvalid hcfg hiff haccounted
    cases err with
    | some err =>
      refine ⟨hvalid, ?_, fun h => absurd h (by simp)⟩
      simpa using hiff
    | none =>
      have hsound := hiff.mp (haccounted rfl)
      obtain ⟨hvalid₂, hacc₂, hspaced⟩ := ensureSpace_spec faults data.length hvalid (haccounted rfl)
      simp only
      cases hspace : s₁.ensureSpace faults data.length with
      | mk err s₂ =>
        rw [hspace] at hvalid₂ hacc₂ hspaced
        cases err with
        | some err =>
          refine ⟨hvalid₂, ?_, fun h => absurd h (by simp)⟩
          simpa [hsound] using hacc₂
        | none =>
          obtain ⟨-, hused, hcfg₂, hknown, hfits⟩ := hspaced rfl
          obtain ⟨hvalid₃, hiff₃, hle⟩ := finishPut_spec faults now key data hvalid₂ hused hknown
          refine ⟨hvalid₃, ?_, fun hok hlen => (hle hok).trans ?_⟩
          · change (s₂.finishPut faults now key data).2.Accounted ↔ _
            simpa [hsound] using hiff₃
          · have hmax : s₁.cfg.maxBytes = s.cfg.maxBytes := congrArg Config.maxBytes hcfg
            exact hmax ▸ hfits rfl (hlen.trans_eq hmax.symm)

end Service

/-! ### Runs -/

/-- The sections under the mutex; the settings are loaded anew for each put. -/
inductive Section
  | putBlockWithPolicy (now : ℤ) (key : BlockKey) (data : Bytes) (faults : Faults)
  | invalidateFile (accountId : ℤ) (fileId : String) (faults : Faults)
  | invalidateAccount (accountId : ℤ) (faults : Faults)
  | clearAll (now : ℤ) (faults : Faults)
  | loadBlockRange (now : ℤ) (key : BlockKey) (blockOff len : ℕ) (faults : Faults)
  | updateSettings (cfg : Config)

namespace Service

/-- `New`, over whatever is in the store. -/
def opened (cfg : Config) (store : StoreLayer) : Service := { cfg, store }

def step (s : Service) : Section → Service
  | .putBlockWithPolicy now key data faults => (s.putBlockWithPolicy faults now key data).2
  | .invalidateFile accountId fileId faults => s.invalidateFile faults accountId fileId
  | .invalidateAccount accountId faults => s.invalidateAccount faults accountId
  | .clearAll now faults => s.clearAll faults now
  | .loadBlockRange now key blockOff len faults =>
    { s with store := (s.store.loadBlockRange faults now key blockOff len).2 }
  | .updateSettings cfg => { s with cfg }

/-- A put that succeeds, of a block that fits, leaves the rows within the limit. -/
def Bounded (s : Service) : Section → Prop
  | .putBlockWithPolicy now key data faults =>
    (s.putBlockWithPolicy faults now key data).1 = none → data.length ≤ s.cfg.maxBytes →
      (s.putBlockWithPolicy faults now key data).2.store.usedBytes ≤ s.cfg.maxBytes
  | _ => True

/-- Every state of the run is accounted, and every put bounded. -/
def Accounts (s : Service) : List Section → Prop
  | [] => s.Accounted
  | sec :: run => s.Accounted ∧ s.Bounded sec ∧ Accounts (s.step sec) run

/-- Nothing in the section makes the count drift. -/
def Sound (s : Service) : Section → Prop
  | .putBlockWithPolicy now key data faults => s.SoundPut faults now key data
  | .invalidateFile accountId fileId faults => (accountId ≤ 0 ∨ fileId = "") ∨
    ¬s.Drifts faults fun m => m.accountId = accountId ∧ m.fileId = fileId
  | .invalidateAccount accountId faults => accountId ≤ 0 ∨
    ¬s.Drifts faults fun m => m.accountId = accountId
  | .clearAll .. | .loadBlockRange .. | .updateSettings _ => True

instance (s : Service) : DecidablePred s.Sound := fun sec => by
  unfold Sound
  split <;> infer_instance

/-- Every section of the run is sound in its state. -/
def SoundAlong (s : Service) : List Section → Prop
  | [] => True
  | sec :: run => s.Sound sec ∧ SoundAlong (s.step sec) run

variable {s t : Service}

/-- The same rows count the same. -/
theorem Accounted.of_rows (h : s.Accounted) (hrows : t.store.usedBytes = s.store.usedBytes)
    (hused : t.usedBytes = s.usedBytes) (hknown : t.usageKnown = s.usageKnown) : t.Accounted := by
  intro hk
  rw [hused, hrows]
  exact h (hknown ▸ hk)

theorem invalidateFile_spec (hs : s.store.Valid) (hacc : s.Accounted) (accountId : ℤ)
    (fileId : String) (faults : Faults) :
    (s.invalidateFile faults accountId fileId).store.Valid ∧
      ((s.invalidateFile faults accountId fileId).Accounted ↔ (accountId ≤ 0 ∨ fileId = "") ∨
        ¬s.Drifts faults fun m => m.accountId = accountId ∧ m.fileId = fileId) := by
  unfold invalidateFile
  split_ifs with hskip
  · exact ⟨hs, iff_of_true hacc (.inl hskip)⟩
  · obtain ⟨herr, hrows⟩ := s.store.invalidateFile_rows faults accountId fileId
    rw [or_iff_right hskip]
    refine ⟨hs.sublist ?_, accounted_deleteWhere_iff hs hacc hrows rfl (by rw [← herr])⟩
    rw [hrows]
    exact s.store.deleteWhere_spec faults _

theorem invalidateAccount_spec (hs : s.store.Valid) (hacc : s.Accounted) (accountId : ℤ)
    (faults : Faults) :
    (s.invalidateAccount faults accountId).store.Valid ∧
      ((s.invalidateAccount faults accountId).Accounted ↔ accountId ≤ 0 ∨
        ¬s.Drifts faults fun m => m.accountId = accountId) := by
  unfold invalidateAccount
  split_ifs with hskip
  · exact ⟨hs, iff_of_true hacc (.inl hskip)⟩
  · obtain ⟨herr, hrows⟩ := s.store.invalidateAccount_rows faults accountId
    rw [or_iff_right hskip]
    refine ⟨hs.sublist ?_, accounted_deleteWhere_iff hs hacc hrows rfl (by rw [← herr])⟩
    rw [hrows]
    exact s.store.deleteWhere_spec faults _

theorem clearAll_spec (hs : s.store.Valid) (hacc : s.Accounted) (now : ℤ) (faults : Faults) :
    (s.clearAll faults now).store.Valid ∧ (s.clearAll faults now).Accounted := by
  unfold clearAll StoreLayer.clearAll
  split_ifs
  · exact ⟨hs.sublist (.refl _), hacc.of_rows rfl rfl rfl⟩
  · exact ⟨hs.sublist (.refl _), hacc.of_rows rfl rfl rfl⟩
  · exact ⟨⟨List.nodup_nil, nofun⟩, fun _ => rfl⟩

/-- One section: the table stays one, and the count stays right exactly where it is sound. -/
theorem step_spec (sec : Section) (hs : s.store.Valid) (hacc : s.Accounted) :
    (s.step sec).store.Valid ∧ ((s.step sec).Accounted ↔ s.Sound sec) ∧ s.Bounded sec := by
  cases sec with
  | putBlockWithPolicy now key data faults => exact putBlockWithPolicy_spec hs hacc
  | invalidateFile accountId fileId faults =>
    obtain ⟨hvalid, hiff⟩ := invalidateFile_spec hs hacc accountId fileId faults
    exact ⟨hvalid, hiff, trivial⟩
  | invalidateAccount accountId faults =>
    obtain ⟨hvalid, hiff⟩ := invalidateAccount_spec hs hacc accountId faults
    exact ⟨hvalid, hiff, trivial⟩
  | clearAll now faults =>
    obtain ⟨hvalid, hacc'⟩ := clearAll_spec hs hacc now faults
    exact ⟨hvalid, iff_of_true hacc' trivial, trivial⟩
  | loadBlockRange now key blockOff len faults =>
    obtain ⟨hvalid, hused⟩ := hs.touched (s.store.loadBlockRange_rows faults now key blockOff len)
    exact ⟨hvalid, iff_of_true (hacc.of_rows hused rfl rfl) trivial, trivial⟩
  | updateSettings cfg => exact ⟨hs, iff_of_true (hacc.of_rows rfl rfl rfl) trivial, trivial⟩

theorem accounts_iff_soundAlong (hs : s.store.Valid) (hacc : s.Accounted) (run : List Section) :
    s.Accounts run ↔ s.SoundAlong run := by
  induction run generalizing s with
  | nil => exact iff_of_true hacc trivial
  | cons sec run ih =>
    obtain ⟨hvalid, hiff, hbounded⟩ := step_spec sec hs hacc
    constructor
    · rintro ⟨-, -, hrest⟩
      have hacc' : (s.step sec).Accounted := by
        cases run with
        | nil => exact hrest
        | cons => exact hrest.1
      exact ⟨hiff.mp hacc', (ih hvalid hacc').mp hrest⟩
    · rintro ⟨hsound, hrest⟩
      have hacc' := hiff.mpr hsound
      exact ⟨hacc, hbounded, (ih hvalid hacc').mpr hrest⟩

/-- From the start, over any table, the count is what the rows count and the puts keep the limit,
throughout a run, exactly where every section of the run is sound. -/
theorem opened_accounts_iff (cfg : Config) {store : StoreLayer} (hstore : store.Valid)
    (run : List Section) :
    (opened cfg store).Accounts run ↔ (opened cfg store).SoundAlong run :=
  accounts_iff_soundAlong hstore (fun hknown => absurd hknown Bool.false_ne_true) run

/-- Two blocks of a file of the account 1 are put, and the file is invalidated. -/
def invalidatedRun (faults : Faults) : List Section :=
  [.putBlockWithPolicy 0 ⟨1, "f", 0⟩ [0] {}, .putBlockWithPolicy 0 ⟨1, "f", 1⟩ [0] {},
    .invalidateFile 1 "f" faults]

def oneMegabyte : Config := ⟨true, 1048576, 86400, .lru⟩

theorem valid_empty : StoreLayer.Valid {} := ⟨List.nodup_nil, by simp⟩

theorem opened_accounts_iff_invalidated :
    (opened oneMegabyte {}).Accounts (invalidatedRun {}) ∧
      (opened oneMegabyte {}).SoundAlong (invalidatedRun {}) := by
  have hsound : (opened oneMegabyte {}).SoundAlong (invalidatedRun {}) :=
    ⟨by decide, by decide, by decide, trivial⟩
  exact ⟨(opened_accounts_iff oneMegabyte valid_empty _).mpr hsound, hsound⟩

/-- The row of the second block cannot be deleted: the count is of both, and there is one row. -/
theorem half_invalidated : ¬∀ (cfg : Config) (store : StoreLayer) (run : List Section),
    store.Valid → (opened cfg store).Accounts run := by
  intro h
  obtain ⟨-, -, -, -, -, -, hacc⟩ := h oneMegabyte {}
    (invalidatedRun { deleteRow := fun key => key.blockIdx = 1 }) valid_empty
  exact absurd (hacc rfl) (by decide)

end Service

end AllInOneBackup.LitePan.FuseReadCache
