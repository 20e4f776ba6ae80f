import AllInOneBackup.Data.Bytes
import Mathlib.Algebra.BigOperators.Group.List.Basic
import Mathlib.Logic.Function.Basic

/-! The store of the FUSE read cache: the files of the blocks, the table that indexes them, and
the policy by which a block gets its space. A storage call may fail at any point; what fails is
part of the input. Whatever the policy and the failures, the operations only ever drop blocks,
and a put stores its own block besides. -/

namespace AllInOneBackup.LitePan.FuseReadCache

/-- `BlockSize`. -/
def blockSize : ℕ := 4 * 1024 * 1024

/-- `io.EOF`, or any other error. -/
inductive Err
  | eof
  | other
  deriving DecidableEq

structure BlockKey where
  accountId : ℤ
  fileId : String
  blockIdx : ℕ
  deriving DecidableEq

structure BlockMeta extends BlockKey where
  byteLen : ℤ
  createdAt : ℤ
  accessedAt : ℤ
  deriving DecidableEq

/-- The storage calls that fail. -/
structure Faults where
  openFile : Bool := false
  readFile : Bool := false
  touchBlock : Bool := false
  query : Bool := false
  stats : Bool := false
  pickEvict : List BlockMeta → Bool := fun _ => false
  remove : BlockKey → Bool := fun _ => false
  deleteRow : BlockKey → Bool := fun _ => false
  removeAll : BlockKey → Bool := fun _ => false
  /-- `os.RemoveAll` or `os.MkdirAll` of the directory of all blocks. -/
  clearFiles : Bool := false
  stat : Bool := false
  writeFile : Bool := false
  insertRow : Bool := false

/-- `storeLayer`: the rows of `blocks`, the block files and `lastTouches`. -/
structure StoreLayer where
  rows : List BlockMeta := []
  files : BlockKey → Option Bytes := fun _ => none
  lastTouches : BlockKey → Option ℤ := fun _ => none

namespace StoreLayer

def touchBlock (s : StoreLayer) (faults : Faults) (now : ℤ) (key : BlockKey) :
    Option Err × StoreLayer :=
  if s.lastTouches key = some now then (none, s)
  else if faults.touchBlock then (some .other, s)
  else (none, { s with
    rows := s.rows.map fun m => if m.toBlockKey = key then { m with accessedAt := now } else m
    lastTouches := Function.update s.lastTouches key (some now) })

/-- `loadBlockRange` into `len` bytes: the bytes it reads, whether there is a block, and the
error. -/
def loadBlockRange (s : StoreLayer) (faults : Faults) (now : ℤ) (key : BlockKey)
    (blockOff len : ℕ) : (Bytes × Bool × Option Err) × StoreLayer :=
  match s.files key with
  | none => (([], false, none), s)
  | some block =>
    if faults.openFile then (([], false, some .other), s)
    else if faults.readFile then (([], true, some .other), s)
    else
      let data := (block.drop blockOff).take len
      let readErr := if data.length < len then some Err.eof else none
      match s.touchBlock faults now key with
      | (some err, s) => ((data, true, some err), s)
      | (none, s) => ((data, true, readErr), s)

/-- The size that `os.Stat` reports, zero if it fails. -/
def statSize (s : StoreLayer) (faults : Faults) (key : BlockKey) : ℤ :=
  if faults.stat then 0 else (s.files key).elim 0 fun block => block.length

def putBlock (s : StoreLayer) (faults : Faults) (now : ℤ) (key : BlockKey) (data : Bytes) :
    (ℤ × Option Err) × StoreLayer :=
  if data = [] then ((0, none), s)
  else
    let previousSize := s.statSize faults key
    if faults.writeFile then ((0, some .other), s)
    else
      let s := { s with files := Function.update s.files key (some data) }
      let delta := data.length - previousSize
      if faults.insertRow then ((delta, some .other), s)
      else
        let rows :=
          if s.rows.any fun m => m.toBlockKey = key then
            s.rows.map fun m => if m.toBlockKey = key then
              { m with byteLen := data.length, accessedAt := now } else m
          else s.rows ++ [⟨key, data.length, now, now⟩]
        ((delta, none),
          { s with rows, lastTouches := Function.update s.lastTouches key (some now) })

def deleteBlock (s : StoreLayer) (faults : Faults) (key : BlockKey) : Option Err × StoreLayer :=
  let s := { s with
    files := if faults.remove key then s.files else Function.update s.files key none
    lastTouches := Function.update s.lastTouches key none }
  if faults.deleteRow key then (some .other, s)
  else (none, { s with rows := s.rows.filter fun m => m.toBlockKey ≠ key })

def deleteMetas (s : StoreLayer) (faults : Faults) : List BlockMeta → Option Err × StoreLayer
  | [] => (none, s)
  | m :: metas =>
    match s.deleteBlock faults m.toBlockKey with
    | (some err, s) => (some err, s)
    | (none, s) => deleteMetas s faults metas

/-- `collectMetas` with the `WHERE` clause `p`, and the deletion of what it finds. -/
def deleteWhere (s : StoreLayer) (faults : Faults) (p : BlockMeta → Bool) :
    Option Err × StoreLayer :=
  if faults.query then (some .other, s) else s.deleteMetas faults (s.rows.filter p)

def expireBefore (s : StoreLayer) (faults : Faults) (cutoff : ℤ) : Option Err × StoreLayer :=
  s.deleteWhere faults fun m => m.createdAt < cutoff

/-- `os.RemoveAll` of the files under the keys that satisfy `p`. -/
def removeAll (s : StoreLayer) (faults : Faults) (p : BlockKey → Bool) : StoreLayer :=
  { s with files := fun key => if p key && !faults.removeAll key then none else s.files key }

def invalidateFile (s : StoreLayer) (faults : Faults) (accountId : ℤ) (fileId : String) :
    Option Err × StoreLayer :=
  match s.deleteWhere faults fun m => m.accountId = accountId ∧ m.fileId = fileId with
  | (some err, s) => (some err, s)
  | (none, s) => (none, s.removeAll faults fun key =>
      key.accountId = accountId ∧ key.fileId = fileId)

def invalidateAccount (s : StoreLayer) (faults : Faults) (accountId : ℤ) :
    Option Err × StoreLayer :=
  match s.deleteWhere faults fun m => m.accountId = accountId with
  | (some err, s) => (some err, s)
  | (none, s) => (none, s.removeAll faults fun key => key.accountId = accountId)

def clearAll (s : StoreLayer) (faults : Faults) : Option Err × StoreLayer :=
  if faults.clearFiles then (some .other, s.removeAll faults fun _ => true)
  else
    let s := { s with files := fun _ => none }
    if faults.query then (some .other, s)
    else (none, { s with rows := [], lastTouches := fun _ => none })

/-- The bytes that the index counts. -/
def usedBytes (s : StoreLayer) : ℤ := (s.rows.map (·.byteLen)).sum

/-- The first row with the least key: `ORDER BY key LIMIT 1`. -/
def firstBy (key : BlockMeta → ℤ) : List BlockMeta → Option BlockMeta
  | [] => none
  | m :: rows => match firstBy key rows with
    | none => some m
    | some best => if key m ≤ key best then some m else some best

/-- `pickEvictLRU`. -/
def pickEvictLRU (s : StoreLayer) : Option BlockMeta := firstBy (·.accessedAt) s.rows

/-- `pickEvictLargeFile`: of the file with the greatest total. -/
def pickEvictLargeFile (s : StoreLayer) : Option BlockMeta :=
  let ofFile (m : BlockMeta) := s.rows.filter fun r =>
    r.accountId = m.accountId ∧ r.fileId = m.fileId
  (firstBy (fun m => -((ofFile m).map (·.byteLen)).sum) s.rows).bind fun m =>
    firstBy (·.accessedAt) (ofFile m)

end StoreLayer

/-! ### The policy -/

inductive EvictionPolicy
  | lru
  | largeFile
  deriving DecidableEq

/-- `Config`, the retention in seconds. -/
structure Config where
  enabled : Bool
  maxBytes : ℤ
  retention : ℤ
  evictionPolicy : EvictionPolicy

/-- `maintenanceInterval` in seconds. -/
def maintenanceInterval : ℤ := 30 * 60

structure Service where
  cfg : Config
  store : StoreLayer := {}
  usedBytes : ℤ := 0
  usageKnown : Bool := false
  lastMaintainAt : Option ℤ := none

namespace Service

def pickEvict (s : Service) : Option BlockMeta :=
  match s.cfg.evictionPolicy with
  | .largeFile => s.store.pickEvictLargeFile
  | .lru => s.store.pickEvictLRU

/-- The loop of `ensureSpace`. A turn that goes on has deleted a row, so there is at most one
turn more than there are rows. -/
def evictLoop (faults : Faults) (incoming : ℤ) : ℕ → Service → Option Err × Service
  | 0, s => (none, s)
  | n + 1, s =>
    if s.usedBytes + incoming ≤ s.cfg.maxBytes then (none, s)
    else if faults.pickEvict s.store.rows then (some .other, s)
    else match s.pickEvict with
      | none => (none, s)
      | some m =>
        match s.store.deleteBlock faults m.toBlockKey with
        | (some err, store) => (some err, { s with store })
        | (none, store) =>
          evictLoop faults incoming n { s with store, usedBytes := max 0 (s.usedBytes - m.byteLen) }

def ensureSpace (s : Service) (faults : Faults) (incoming : ℤ) : Option Err × Service :=
  if s.usageKnown then evictLoop faults incoming (s.store.rows.length + 1) s
  else if faults.stats then (some .other, s)
  else evictLoop faults incoming (s.store.rows.length + 1)
    { s with usedBytes := s.store.usedBytes, usageKnown := true }

def maintain (s : Service) (faults : Faults) (now : ℤ) : Option Err × Service :=
  let (err, store) := s.store.expireBefore faults (now - s.cfg.retention)
  (err, { s with store })

/-- The first part of `putBlockWithPolicy`. -/
def maintainIfDue (s : Service) (faults : Faults) (now : ℤ) : Option Err × Service :=
  if s.lastMaintainAt.elim true fun last => now - last ≥ maintenanceInterval then
    match s.maintain faults now with
    | (some err, s) => (some err, s)
    | (none, s) => (none, { s with usageKnown := false, lastMaintainAt := some now })
  else (none, s)

def putBlockWithPolicy (s : Service) (faults : Faults) (now : ℤ) (key : BlockKey)
    (data : Bytes) : Option Err × Service :=
  match s.maintainIfDue faults now with
  | (some err, s) => (some err, s)
  | (none, s) =>
    match s.ensureSpace faults data.length with
    | (some err, s) => (some err, s)
    | (none, s) =>
      match s.store.putBlock faults now key data with
      | ((_, some err), store) => (some err, { s with store, usageKnown := false })
      | ((delta, none), store) => (none, { s with store, usedBytes := s.usedBytes + delta })

/-- Whether `putBlockWithPolicy` gets to write the file of the block. -/
def writesBlock (s : Service) (faults : Faults) (now : ℤ) (data : Bytes) : Bool :=
  match s.maintainIfDue faults now with
  | (some _, _) => false
  | (none, s) => (s.ensureSpace faults data.length).1.isNone && (data ≠ [] && !faults.writeFile)

def invalidateFile (s : Service) (faults : Faults) (accountId : ℤ) (fileId : String) : Service :=
  if accountId ≤ 0 ∨ fileId = "" then s
  else
    let (err, store) := s.store.invalidateFile faults accountId fileId
    { s with store, usageKnown := s.usageKnown && err.isSome }

def invalidateAccount (s : Service) (faults : Faults) (accountId : ℤ) : Service :=
  if accountId ≤ 0 then s
  else
    let (err, store) := s.store.invalidateAccount faults accountId
    { s with store, usageKnown := s.usageKnown && err.isSome }

def clearAll (s : Service) (faults : Faults) (now : ℤ) : Service :=
  let (err, store) := s.store.clearAll faults
  if err.isSome then { s with store }
  else { s with store, usedBytes := 0, usageKnown := true, lastMaintainAt := some now }

end Service

/-! ### Blocks are only dropped -/

/-- The block files of `t` are among those of `s`. -/
def Drops (s t : StoreLayer) : Prop := ∀ key block, t.files key = some block → s.files key = some block

theorem Drops.refl (s : StoreLayer) : Drops s s := fun _ _ h => h

theorem Drops.trans {s t u : StoreLayer} (h : Drops s t) (h' : Drops t u) : Drops s u :=
  fun key block hb => h key block (h' key block hb)

namespace StoreLayer

variable (s : StoreLayer) (faults : Faults)

theorem files_touchBlock (now : ℤ) (key : BlockKey) :
    (s.touchBlock faults now key).2.files = s.files := by
  unfold touchBlock
  split_ifs <;> rfl

/-- A load changes no block; where its error is none or the end of the block's file, what it reads
is what the block has there. -/
theorem loadBlockRange_cases (now : ℤ) (key : BlockKey) (blockOff len : ℕ) :
    ∃ data ok err t, s.loadBlockRange faults now key blockOff len = ((data, ok, err), t) ∧
      t.files = s.files ∧
      (ok = true → err = none ∨ err = some .eof →
        ∃ block, s.files key = some block ∧ data = (block.drop blockOff).take len) := by
  unfold loadBlockRange
  split
  · exact ⟨[], false, none, s, rfl, rfl, nofun⟩
  · rename_i block hblock
    split_ifs
    · exact ⟨[], false, some .other, s, rfl, rfl, nofun⟩
    · exact ⟨[], true, some .other, s, rfl, rfl, fun _ herr => by simp at herr⟩
    · have hfiles := s.files_touchBlock faults now key
      dsimp only
      split <;> rename_i htouch <;> rw [htouch] at hfiles <;>
        exact ⟨_, true, _, _, rfl, hfiles, fun _ _ => ⟨block, hblock, rfl⟩⟩

theorem drops_deleteBlock (key : BlockKey) : Drops s (s.deleteBlock faults key).2 := by
  have hfiles : (s.deleteBlock faults key).2.files =
      if faults.remove key then s.files else Function.update s.files key none := by
    unfold deleteBlock
    dsimp only
    split_ifs <;> rfl
  intro k block h
  rw [hfiles] at h
  split_ifs at h
  · exact h
  · by_cases hk : k = key
    · rw [hk, Function.update_self] at h
      cases h
    · rwa [Function.update_of_ne hk] at h

theorem drops_deleteMetas (metas : List BlockMeta) : Drops s (s.deleteMetas faults metas).2 := by
  induction metas generalizing s with
  | nil => exact .refl s
  | cons m metas ih =>
    have hdrop := s.drops_deleteBlock faults m.toBlockKey
    rw [deleteMetas]
    split
    · rename_i hdel
      rwa [hdel] at hdrop
    · rename_i t hdel
      rw [hdel] at hdrop
      exact hdrop.trans (ih t)

theorem drops_deleteWhere (p : BlockMeta → Bool) : Drops s (s.deleteWhere faults p).2 := by
  unfold deleteWhere
  split_ifs
  · exact .refl s
  · exact s.drops_deleteMetas faults _

theorem drops_removeAll (p : BlockKey → Bool) : Drops s (s.removeAll faults p) := by
  intro key block h
  rw [removeAll] at h
  dsimp only at h
  split_ifs at h
  exact h

theorem drops_invalidateFile (accountId : ℤ) (fileId : String) :
    Drops s (s.invalidateFile faults accountId fileId).2 := by
  have hdrop := s.drops_deleteWhere faults fun m => m.accountId = accountId ∧ m.fileId = fileId
  rw [invalidateFile]
  split
  · rename_i hdel
    rwa [hdel] at hdrop
  · rename_i t hdel
    rw [hdel] at hdrop
    exact hdrop.trans (t.drops_removeAll faults _)

theorem drops_invalidateAccount (accountId : ℤ) :
    Drops s (s.invalidateAccount faults accountId).2 := by
  have hdrop := s.drops_deleteWhere faults fun m => m.accountId = accountId
  rw [invalidateAccount]
  split
  · rename_i hdel
    rwa [hdel] at hdrop
  · rename_i t hdel
    rw [hdel] at hdrop
    exact hdrop.trans (t.drops_removeAll faults _)

theorem drops_clearAll : Drops s (s.clearAll faults).2 := by
  rw [clearAll]
  split_ifs
  · exact s.drops_removeAll faults fun _ => true
  · exact nofun
  · exact nofun

/-- A put that can write stores its block, and changes no other. -/
theorem files_putBlock (now : ℤ) (key : BlockKey) (data : Bytes) :
    (s.putBlock faults now key data).2.files =
      if data ≠ [] ∧ faults.writeFile = false then Function.update s.files key (some data)
      else s.files := by
  unfold putBlock
  by_cases hdata : data = []
  · rw [if_pos hdata, if_neg (by simp [hdata])]
  · cases hwrite : faults.writeFile
    · rw [if_neg hdata, if_pos (show data ≠ [] ∧ false = false from ⟨hdata, rfl⟩)]
      dsimp only
      split_ifs <;> first | rfl | contradiction
    · rw [if_neg hdata, if_pos rfl, if_neg (by simp)]

end StoreLayer

namespace Service

variable (s : Service) (faults : Faults)

theorem drops_evictLoop (incoming : ℤ) (n : ℕ) :
    Drops s.store (evictLoop faults incoming n s).2.store := by
  induction n generalizing s with
  | zero => exact .refl _
  | succ n ih =>
    rw [evictLoop]
    split_ifs
    · exact .refl _
    · exact .refl _
    · split
      · exact .refl _
      · rename_i m hm
        have hdrop := s.store.drops_deleteBlock faults m.toBlockKey
        split
        · rename_i hdel
          rwa [hdel] at hdrop
        · rename_i store hdel
          rw [hdel] at hdrop
          exact hdrop.trans (ih _)

theorem drops_ensureSpace (incoming : ℤ) :
    Drops s.store (s.ensureSpace faults incoming).2.store := by
  unfold ensureSpace
  split_ifs
  · exact s.drops_evictLoop faults incoming _
  · exact .refl _
  · exact drops_evictLoop { s with usedBytes := _, usageKnown := true } faults incoming _

theorem drops_maintain (now : ℤ) : Drops s.store (s.maintain faults now).2.store :=
  s.store.drops_deleteWhere faults _

theorem drops_maintainIfDue (now : ℤ) : Drops s.store (s.maintainIfDue faults now).2.store := by
  have hdrop := s.drops_maintain faults now
  unfold maintainIfDue
  split_ifs
  · split
    · rename_i hmaintain
      rwa [hmaintain] at hdrop
    · rename_i hmaintain
      rwa [hmaintain] at hdrop
  · exact .refl _

/-- A put with its policy drops blocks, and stores its own where it gets to write. -/
theorem files_putBlockWithPolicy (now : ℤ) (key : BlockKey) (data : Bytes) {k : BlockKey}
    {block : Bytes} (h : (s.putBlockWithPolicy faults now key data).2.store.files k = some block) :
    s.store.files k = some block ∨ s.writesBlock faults now data = true ∧ k = key ∧ block = data := by
  have hmaintain := s.drops_maintainIfDue faults now
  unfold putBlockWithPolicy at h
  unfold writesBlock
  split at h
  · rename_i heq
    rw [heq] at hmaintain
    exact .inl (hmaintain k block h)
  · rename_i s₁ heq
    rw [heq] at hmaintain
    have hspace := hmaintain.trans (s₁.drops_ensureSpace faults data.length)
    split at h
    · rename_i heq
      rw [heq] at hspace
      exact .inl (hspace k block h)
    · rename_i s₂ heq
      rw [heq] at hspace
      have hput : (s₂.store.putBlock faults now key data).2.files k = some block := by
        split at h <;> rename_i heq <;> rwa [heq]
      rw [StoreLayer.files_putBlock] at hput
      split_ifs at hput with hwrite
      · by_cases hk : k = key
        · rw [hk, Function.update_self] at hput
          exact .inr ⟨by simp [heq, hwrite], hk, (Option.some.inj hput).symm⟩
        · rw [Function.update_of_ne hk] at hput
          exact .inl (hspace k block hput)
      · exact .inl (hspace k block hput)

theorem drops_invalidateFile (accountId : ℤ) (fileId : String) :
    Drops s.store (s.invalidateFile faults accountId fileId).store := by
  unfold invalidateFile
  split_ifs
  · exact .refl _
  · exact s.store.drops_invalidateFile faults accountId fileId

theorem drops_invalidateAccount (accountId : ℤ) :
    Drops s.store (s.invalidateAccount faults accountId).store := by
  unfold invalidateAccount
  split_ifs
  · exact .refl _
  · exact s.store.drops_invalidateAccount faults accountId

theorem drops_clearAll (now : ℤ) : Drops s.store (s.clearAll faults now).store := by
  have hdrop := s.store.drops_clearAll faults
  unfold clearAll
  dsimp only
  split_ifs <;> exact hdrop

end Service

end AllInOneBackup.LitePan.FuseReadCache
