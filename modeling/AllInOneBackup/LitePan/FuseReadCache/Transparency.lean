import AllInOneBackup.LitePan.FuseReadCache.Service
import Mathlib.Data.List.Infix

/-! Transparency. Whatever fetches do, as long as their bytes are those of the file, `ReadAt`
returns bytes of the file. A block that was stored short, though, is the end of the file for the
reads after it, and an error after some bytes is dropped. So a read can end early without an
error unless every block that is stored is whole, and every fetch that falls short of the block
and of the file has an error and comes before anything is read. -/

namespace AllInOneBackup.LitePan.FuseReadCache

open Concurrency

/-- What a fetch at `off` returns: bytes of the file from there, and `io.EOF` only at its end. -/
def Honest (file : Bytes) (off : ℕ) (data : Bytes) (err : Option Err) : Prop :=
  data <+: file.drop off ∧ (err = some .eof → file.length ≤ off + data.length)

/-- The block at `off` has all that the file has for it. -/
def Whole (file : Bytes) (off : ℕ) (chunk : Bytes) : Prop :=
  chunk.length = blockSize ∨ file.length ≤ off + chunk.length

instance (file : Bytes) (off : ℕ) (data : Bytes) (err : Option Err) :
    Decidable (Honest file off data err) := inferInstanceAs (Decidable (_ ∧ _))

instance (file : Bytes) (off : ℕ) (chunk : Bytes) : Decidable (Whole file off chunk) :=
  inferInstanceAs (Decidable (_ ∨ _))

section Content

variable (content : ℤ → String → Bytes)

def Read.file (r : Read) : Bytes := content r.accountId r.fileId

/-- The fetch of the task returns what is in the file. -/
def HonestFetch (data : Bytes) (err : Option Err) : Task → Prop
  | .fetching r dest _ => Honest (r.file content) (r.fetchOff dest) data err
  | .passing r => Honest (r.file content) r.off data err
  | _ => True

/-- A fetch that falls short of the block and of the file has an error, and unless its bytes
would be stored it comes before anything is read. -/
def WholeFetch (data : Bytes) (err : Option Err) : Task → Prop
  | .fetching r dest _ => Whole (r.file content) (r.fetchOff dest) data ∨
      r.blockOff dest < data.length ∨ err ≠ none ∧ dest = []
  | .passing r => data.length = r.len ∨ (r.file content).length ≤ r.off + data.length ∨ err ≠ none
  | _ => True

/-- A block that is stored is whole. -/
def WholePut (service : Service) (now : ℤ) (faults : Faults) : Task → Prop
  | .putting r dest chunk _ _ => Whole (r.file content) (r.fetchOff dest) chunk ∨
      service.writesBlock faults now chunk = false
  | _ => True

def FetchesHonest (p : ReadPool) : Action Outcome Call → Prop
  | .resume i (.fetched data err) => ∀ t ∈ p.tasks[i]?, HonestFetch content data err t
  | _ => True

def FetchesWhole (p : ReadPool) : Action Outcome Call → Prop
  | .resume i (.fetched data err) => ∀ t ∈ p.tasks[i]?, WholeFetch content data err t
  | .resume i (.locked now faults) =>
    ∀ t ∈ p.tasks[i]?, WholePut content p.shared.service now faults t
  | .event _ => True

instance (data : Bytes) (err : Option Err) : DecidablePred (HonestFetch content data err)
  | .fetching _ _ _ | .passing _ => inferInstanceAs (Decidable (Honest _ _ _ _))
  | .loading _ _ | .putting _ _ _ _ _ | .finished => .isTrue trivial

instance (data : Bytes) (err : Option Err) : DecidablePred (WholeFetch content data err)
  | .fetching _ _ _ | .passing _ => inferInstanceAs (Decidable (_ ∨ _ ∨ _))
  | .loading _ _ | .putting _ _ _ _ _ | .finished => .isTrue trivial

instance (service : Service) (now : ℤ) (faults : Faults) :
    DecidablePred (WholePut content service now faults)
  | .putting _ _ _ _ _ => inferInstanceAs (Decidable (_ ∨ _))
  | .loading _ _ | .fetching _ _ _ | .passing _ | .finished => .isTrue trivial

instance (p : ReadPool) : DecidablePred (FetchesHonest content p)
  | .resume _ (.fetched _ _) => inferInstanceAs (Decidable (∀ t ∈ _, HonestFetch _ _ _ t))
  | .resume _ (.locked _ _) | .event _ => .isTrue trivial

instance (p : ReadPool) : DecidablePred (FetchesWhole content p)
  | .resume _ (.fetched _ _) => inferInstanceAs (Decidable (∀ t ∈ _, WholeFetch _ _ _ t))
  | .resume _ (.locked _ _) => inferInstanceAs (Decidable (∀ t ∈ _, WholePut _ _ _ _ t))
  | .event _ => .isTrue trivial

/-- Every read returned bytes of its file from its offset on. -/
def BytesRight (p : ReadPool) : Prop :=
  ∀ r data err, .returned r data err ∈ p.trace →
    data <+: (r.file content).drop r.off ∧ data.length ≤ r.len

/-- Every read that was short without an error reached the end of its file. -/
def NoShortRead (p : ReadPool) : Prop :=
  ∀ r data, .returned r data none ∈ p.trace → data.length < r.len →
    (r.file content).length ≤ r.off + data.length

/-! ### Windows of a file -/

theorem prefix_append {l a b : Bytes} (ha : a <+: l) (hb : b <+: l.drop a.length) :
    a ++ b <+: l := by
  obtain ⟨rest, rfl⟩ := ha
  rw [List.drop_left] at hb
  exact (List.prefix_append_right_inj a).mpr hb

theorem Read.curOff_eq (r : Read) (dest : Bytes) :
    r.fetchOff dest + r.blockOff dest = r.curOff dest := by
  rw [Read.fetchOff, Read.blockOff, Read.blockIdx, Nat.mul_comm]
  exact Nat.div_add_mod _ _

theorem Read.blockOff_lt (r : Read) (dest : Bytes) : r.blockOff dest < blockSize :=
  Nat.mod_lt _ (by decide)

/-- What a block has from the offset on continues what was read. -/
theorem window_prefix {r : Read} {dest block : Bytes} {n : ℕ} {file : Bytes}
    (hdest : dest <+: file.drop r.off) (hblock : block <+: file.drop (r.fetchOff dest)) :
    dest ++ (block.drop (r.blockOff dest)).take n <+: file.drop r.off := by
  refine prefix_append hdest ?_
  have hdrop := hblock.drop (r.blockOff dest)
  rw [List.drop_drop, r.curOff_eq dest] at hdrop
  rw [List.drop_drop]
  exact (List.take_prefix n _).trans hdrop

/-! ### What every turn keeps -/

variable (whole : Prop)

/-- A block of the cache holds bytes of its file, and where `whole` all that the file has. -/
def BlockOk (key : BlockKey) (block : Bytes) : Prop :=
  block <+: (content key.accountId key.fileId).drop (key.blockIdx * blockSize) ∧
    (whole → Whole (content key.accountId key.fileId) (key.blockIdx * blockSize) block)

def BlocksOk (s : State) : Prop :=
  ∀ key block, s.service.store.files key = some block → BlockOk content whole key block

/-- A call that goes on has read a part of what it is asked for. -/
def ReadOk (r : Read) (dest : Bytes) : Prop :=
  dest <+: (r.file content).drop r.off ∧ dest.length < r.len

def TaskOk : Task → Prop
  | .loading r dest | .fetching r dest _ => ReadOk content r dest
  | .putting r dest chunk _ _ => ReadOk content r dest ∧
      chunk <+: (r.file content).drop (r.fetchOff dest) ∧ r.blockOff dest < chunk.length
  | _ => True

def ReturnOk (r : Read) (data : Bytes) (err : Option Err) : Prop :=
  data <+: (r.file content).drop r.off ∧ data.length ≤ r.len ∧
    (whole → err = none → data.length < r.len → (r.file content).length ≤ r.off + data.length)

structure TurnOk (turn : ReadTurn) : Prop where
  blocks : BlocksOk content whole turn.shared
  task : TaskOk content turn.task
  spawned : turn.spawned = []
  seen : ∀ r data err, .returned r data err ∈ turn.seen → ReturnOk content whole r data err

variable {content whole}

theorem turnOk_leave {s : State} {r : Read} {data : Bytes} {err : Option Err}
    (hs : BlocksOk content whole s) (h : ReturnOk content whole r data err) :
    TurnOk content whole (s.leave r data err) := by
  refine ⟨hs, trivial, rfl, fun r' data' err' hmem => ?_⟩
  cases List.mem_singleton.mp hmem
  exact h

theorem turnOk_loop {s : State} {r : Read} {dest : Bytes} (hs : BlocksOk content whole s)
    (hdest : dest <+: (r.file content).drop r.off) (hlen : dest.length ≤ r.len) :
    TurnOk content whole (s.loop r dest) := by
  obtain ⟨hlt, h⟩ | ⟨hge, h⟩ := s.loop_cases r dest
  · rw [h]
    exact ⟨hs, ⟨hdest, hlt⟩, rfl, by simp⟩
  · rw [h]
    exact turnOk_leave hs ⟨hdest, hlen, fun _ _ hshort => by omega⟩

/-- What a whole block has from the offset on ends at the end of the file if it is short. -/
theorem length_le_of_short {r : Read} {dest block : Bytes} {file : Bytes}
    (hblock : Whole file (r.fetchOff dest) block)
    (hshort : ((block.drop (r.blockOff dest)).take (r.need dest)).length < r.need dest) :
    file.length ≤ r.off + (dest ++ (block.drop (r.blockOff dest)).take (r.need dest)).length := by
  have hoff := r.curOff_eq dest
  have hlt := r.blockOff_lt dest
  have hneed : r.need dest ≤ blockSize - r.blockOff dest := Nat.min_le_right _ _
  simp only [Read.curOff] at hoff
  simp only [List.length_take, List.length_drop, List.length_append] at hshort ⊢
  obtain hfull | hend := hblock <;> omega

theorem turnOk_load {s : State} {r : Read} {dest : Bytes} (hs : BlocksOk content whole s)
    (hr : ReadOk content r dest) (now : ℤ) (faults : Faults) :
    TurnOk content whole (s.load r dest now faults) := by
  obtain ⟨s', hfiles, -, h⟩ := s.load_cases r dest now faults
  have hs' : BlocksOk content whole s' := by
    intro key block hblock
    exact hs key block (hfiles ▸ hblock)
  obtain ⟨hdest, hlen⟩ := hr
  obtain h | ⟨block, data, hblock, rfl, ⟨hshort, h⟩ | ⟨hfull, h⟩⟩ := h
  · rw [h]
    exact ⟨hs', ⟨hdest, hlen⟩, rfl, by simp⟩
  all_goals
    obtain ⟨hpre, hwhole⟩ := hs _ _ hblock
    have hneed : r.need dest ≤ r.len - dest.length := Nat.min_le_left _ _
    have hbytes := window_prefix (n := r.need dest) hdest hpre
    rw [h]
  · refine turnOk_leave hs' ⟨hbytes, ?_, fun hw _ _ => length_le_of_short (hwhole hw) hshort⟩
    rw [List.length_append]
    omega
  · refine turnOk_loop hs' hbytes ?_
    rw [List.length_append]
    omega

theorem turnOk_fetched {s : State} {r : Read} {dest chunk : Bytes} {err : Option Err}
    {startedAfter : ℕ}
    (hs : BlocksOk content whole s) (hr : ReadOk content r dest)
    (hhonest : Honest (r.file content) (r.fetchOff dest) chunk err)
    (hwhole : whole → Whole (r.file content) (r.fetchOff dest) chunk ∨
      r.blockOff dest < chunk.length ∨ err ≠ none ∧ dest = []) :
    TurnOk content whole (s.fetched r dest chunk err startedAfter) := by
  obtain ⟨hdest, hlen⟩ := hr
  have hoff := r.curOff_eq dest
  have hlt := r.blockOff_lt dest
  simp only [Read.curOff] at hoff
  -- a whole block that does not reach the offset ends the file there
  have hend : Whole (r.file content) (r.fetchOff dest) chunk → chunk.length ≤ r.blockOff dest →
      (r.file content).length ≤ r.off + dest.length := by
    rintro (hfull | hend) hle <;> omega
  obtain ⟨rfl, hne, h⟩ | ⟨rfl, rfl, h⟩ | ⟨hle, rfl, h⟩ | ⟨hne, hle, heof, h⟩ | ⟨hreach, h⟩ :=
    s.fetched_cases r dest chunk err startedAfter
  all_goals rw [h]
  · refine turnOk_leave hs ⟨hdest, hlen.le, fun hw _ _ => ?_⟩
    obtain hw | hw | hw := hwhole hw
    · exact hend hw (Nat.zero_le _)
    · exact absurd hw (Nat.not_lt_zero _)
    · exact absurd hw.2 hne
  · refine turnOk_leave hs ⟨hdest, hlen.le, fun hw herr _ => ?_⟩
    obtain hw | hw | hw := hwhole hw
    · exact hend hw (Nat.zero_le _)
    · exact absurd hw (Nat.not_lt_zero _)
    · exact absurd herr hw.1
  · refine turnOk_leave hs ⟨hdest, hlen.le, fun _ _ _ => ?_⟩
    have := hhonest.2 rfl
    omega
  · refine turnOk_leave hs ⟨hdest, hlen.le, fun hw herr _ => ?_⟩
    obtain hw | hw | hw := hwhole hw
    · exact hend hw hle
    · omega
    · exact absurd herr hw.1
  · exact ⟨hs, ⟨⟨hdest, hlen⟩, hhonest.1, hreach⟩, rfl, by simp⟩

theorem turnOk_put {s : State} {r : Read} {dest chunk : Bytes} {err : Option Err}
    {startedAfter : ℕ} {now : ℤ} {faults : Faults} (hs : BlocksOk content whole s)
    (hr : ReadOk content r dest) (hchunk : chunk <+: (r.file content).drop (r.fetchOff dest))
    (hreach : r.blockOff dest < chunk.length)
    (hwhole : whole → Whole (r.file content) (r.fetchOff dest) chunk ∨
      s.service.writesBlock faults now chunk = false) :
    TurnOk content whole (s.put r dest chunk err startedAfter now faults) := by
  obtain ⟨hdest, hlen⟩ := hr
  have hlt := r.blockOff_lt dest
  have hs' : BlocksOk content whole
      { s with service := (s.service.putBlockWithPolicy faults now (r.key dest) chunk).2 } := by
    intro key block hblock
    obtain hold | ⟨hwrites, rfl, rfl⟩ := s.service.files_putBlockWithPolicy faults now _ _ hblock
    · exact hs key block hold
    · refine ⟨hchunk, fun hw => (hwhole hw).resolve_right ?_⟩
      simp [hwrites]
  have hcopied : (r.copied dest chunk).length = min (r.need dest) (chunk.length - r.blockOff dest) := by
    rw [Read.copied, List.length_take, List.length_drop]
    omega
  have hneed : r.need dest = min (r.len - dest.length) (blockSize - r.blockOff dest) := rfl
  have hbytes : dest ++ r.copied dest chunk <+: (r.file content).drop r.off :=
    window_prefix hdest hchunk
  have hfit : (dest ++ r.copied dest chunk).length ≤ r.len := by
    rw [List.length_append]
    omega
  unfold State.put
  dsimp only
  have hturn : TurnOk content whole
      (if err = some .eof ∨ (r.copied dest chunk).length = 0 then
        State.leave { s with service := (s.service.putBlockWithPolicy faults now (r.key dest) chunk).2 } r
          (dest ++ r.copied dest chunk) err
      else State.loop { s with service := (s.service.putBlockWithPolicy faults now (r.key dest) chunk).2 }
        r (dest ++ r.copied dest chunk)) := by
    split_ifs with hdone
    · refine turnOk_leave hs' ⟨hbytes, hfit, fun _ herr _ => ?_⟩
      obtain rfl | hzero := hdone
      · cases herr
      · omega
    · exact turnOk_loop hs' hbytes hfit
  refine ⟨hturn.blocks, hturn.task, hturn.spawned, fun r' data err' hmem => ?_⟩
  obtain hmem | hmem := List.mem_append.mp hmem
  · split_ifs at hmem <;> simp at hmem
  · exact hturn.seen r' data err' hmem

theorem turnOk_resume {p : ReadPool} {i : ℕ} {t : Task} {o : Outcome} {turn : ReadTurn}
    (hblocks : BlocksOk content whole p.shared) (hi : p.tasks[i]? = some t)
    (ht : TaskOk content t) (hhonest : FetchesHonest content p (.resume i o))
    (hwhole : whole → FetchesWhole content p (.resume i o))
    (h : resume p.shared t o = some turn) : TurnOk content whole turn := by
  obtain ⟨r, dest, now, faults, rfl, rfl, rfl⟩ |
    ⟨r, dest, startedAfter, chunk, err, rfl, rfl, -, rfl⟩ |
    ⟨r, dest, chunk, err, startedAfter, now, faults, rfl, rfl, rfl⟩ |
    ⟨r, data, err, rfl, rfl, hlen, rfl⟩ := resume_cases h
  · exact turnOk_load hblocks ht now faults
  · exact turnOk_fetched hblocks ht (hhonest _ hi) fun hw => hwhole hw _ hi
  · exact turnOk_put hblocks ht.1 ht.2.1 ht.2.2 fun hw => hwhole hw _ hi
  · refine turnOk_leave hblocks ⟨(hhonest _ hi).1, hlen, fun hw herr hshort => ?_⟩
    obtain hw | hw | hw := hwhole hw _ hi
    · omega
    · exact hw
    · exact absurd herr hw

variable (content whole)

structure Inv (p : ReadPool) : Prop where
  blocks : BlocksOk content whole p.shared
  tasks : ∀ t ∈ p.tasks, TaskOk content t
  returned : ∀ r data err, .returned r data err ∈ p.trace → ReturnOk content whole r data err

variable {content whole}

theorem inv_initial (cfg : Config) : Inv content whole (initial cfg) :=
  ⟨nofun, nofun, nofun⟩

theorem BlocksOk.of_drops {s s' : State} (h : BlocksOk content whole s)
    (hdrops : Drops s.service.store s'.service.store) : BlocksOk content whole s' :=
  fun key block hblock => h key block (hdrops key block hblock)

/-- A call begins with nothing read; the other events drop blocks. -/
theorem event_cases {s : State} {e : Call} {r : Effect State Task Event} (h : event s e = some r) :
    Drops s.service.store r.shared.service.store ∧
      ((r.spawned = [] ∧ r.seen = []) ∨ ∃ read, e = .readAt read ∧
        ((read.len = 0 ∧ r.spawned = [] ∧ r.seen = [.returned read [] none]) ∨
          (0 < read.len ∧ (r.spawned = [.loading read []] ∨ r.spawned = [.passing read]) ∧
            r.seen = []))) := by
  cases e with
  | readAt read =>
    cases h
    split_ifs with hlen henabled
    · exact ⟨.refl _, .inr ⟨read, rfl, .inl ⟨hlen, rfl, rfl⟩⟩⟩
    · exact ⟨.refl _, .inr ⟨read, rfl, .inr ⟨by omega, .inl rfl, rfl⟩⟩⟩
    · exact ⟨.refl _, .inr ⟨read, rfl, .inr ⟨by omega, .inr rfl, rfl⟩⟩⟩
  | invalidateFile accountId fileId faults =>
    cases h
    exact ⟨s.service.drops_invalidateFile faults accountId fileId, .inl ⟨rfl, rfl⟩⟩
  | invalidateAccount accountId faults =>
    cases h
    exact ⟨s.service.drops_invalidateAccount faults accountId, .inl ⟨rfl, rfl⟩⟩
  | clearAll now faults =>
    cases h
    exact ⟨s.service.drops_clearAll faults now, .inl ⟨rfl, rfl⟩⟩
  | updateSettings cfg =>
    cases h
    exact ⟨.refl _, .inl ⟨rfl, rfl⟩⟩

theorem inv_step {p q : ReadPool} {a : Action Outcome Call} (h : Inv content whole p)
    (hhonest : FetchesHonest content p a) (hwhole : whole → FetchesWhole content p a)
    (hstep : system.step p a = some q) : Inv content whole q := by
  obtain ⟨i, o, t, r, rfl, hi, hr, rfl⟩ | ⟨e, r, rfl, he, rfl⟩ := System.step_cases hstep
  · have hturn := turnOk_resume h.blocks hi (h.tasks t (List.mem_of_getElem? hi)) hhonest hwhole hr
    refine ⟨hturn.blocks, ?_, fun r' data err hmem => ?_⟩
    · exact forall_mem_set_append h.tasks hturn.task (by simp [hturn.spawned])
    · obtain hmem | hmem := List.mem_append.mp hmem
      · exact h.returned r' data err hmem
      · exact hturn.seen r' data err hmem
  · obtain ⟨hdrops, hcases⟩ := event_cases he
    refine ⟨h.blocks.of_drops hdrops, fun t ht => ?_, fun r' data err hmem => ?_⟩
    · obtain ht | ht := List.mem_append.mp ht
      · exact h.tasks t ht
      · obtain ⟨hnone, -⟩ | ⟨read, -, ⟨-, hnone, -⟩ | ⟨hlen, hspawn | hspawn, -⟩⟩ := hcases
        · simp [hnone] at ht
        · simp [hnone] at ht
        · rw [hspawn, List.mem_singleton] at ht
          rw [ht]
          exact ⟨List.nil_prefix, hlen⟩
        · rw [hspawn, List.mem_singleton] at ht
          rw [ht]
          trivial
    · obtain hmem | hmem := List.mem_append.mp hmem
      · exact h.returned r' data err hmem
      · obtain ⟨-, hnone⟩ | ⟨read, -, ⟨hzero, -, hseen⟩ | ⟨-, -, hnone⟩⟩ := hcases
        · simp [hnone] at hmem
        · rw [hseen, List.mem_singleton] at hmem
          cases hmem
          exact ⟨List.nil_prefix, Nat.zero_le _, fun _ _ hlt => by omega⟩
        · simp [hnone] at hmem

/-- In every run whose fetches are honest, every read returns bytes of its file; and where in
addition all blocks are stored whole, and the fetches that fall short have errors and come first,
a read is short without an error only at the end of its file. -/
theorem readAt_transparent (cfg : Config) (actions : List (Action Outcome Call))
    (hhonest : system.Along (FetchesHonest content) (initial cfg) actions) :
    system.Throughout (BytesRight content) (initial cfg) actions ∧
      (system.Along (FetchesWhole content) (initial cfg) actions →
        system.Throughout (NoShortRead content) (initial cfg) actions) := by
  constructor
  · have hrun := System.throughout_of_along (I := Inv content False)
      (fun p a q h hok hstep => inv_step h hok nofun hstep) (inv_initial cfg) hhonest
    exact hrun.mono fun p h r data err hmem =>
      ⟨(h.returned r data err hmem).1, (h.returned r data err hmem).2.1⟩
  · intro hwhole
    have hrun := System.throughout_of_along (I := Inv content True)
      (fun p a q h hok hstep => inv_step h hok.1 (fun _ => hok.2) hstep) (inv_initial cfg)
      (hhonest.and hwhole)
    exact hrun.mono fun p h r data hmem hshort =>
      (h.returned r data none hmem).2.2 trivial rfl hshort

end Content

/-! ### Runs -/

/-- A cache of ten GiB with blocks kept for seven days. -/
def someConfig : Config := ⟨true, 10 * 1024 ^ 3, 7 * 24 * 3600, .lru⟩

/-- Every file holds three bytes. -/
def someContent : ℤ → String → Bytes := fun _ _ => [1, 2, 3]

/-- A read of the first two bytes fetches the file to its end; a second read finds the rest. -/
def wholeRun : List (Action Outcome Call) :=
  [.event (.readAt ⟨1, "f", 2, 0⟩), .resume 0 (.locked 0 {}),
    .resume 0 (.fetched [1, 2, 3] (some .eof)), .resume 0 (.locked 0 {}),
    .event (.readAt ⟨1, "f", 5, 1⟩), .resume 1 (.locked 1 {})]

theorem readAt_transparent_two_reads :
    system.Throughout (BytesRight someContent) (initial someConfig) wholeRun ∧
      system.Throughout (NoShortRead someContent) (initial someConfig) wholeRun := by
  have hhonest : system.Along (FetchesHonest someContent) (initial someConfig) wholeRun := by decide
  obtain ⟨hbytes, hwhole⟩ := readAt_transparent someConfig wholeRun hhonest
  exact ⟨hbytes, hwhole (by decide)⟩

/-- A fetch fails after two of the three bytes, which is enough for a read of one byte; the next
read asks for all three. -/
def shortRun : List (Action Outcome Call) :=
  [.event (.readAt ⟨1, "f", 1, 0⟩), .resume 0 (.locked 0 {}),
    .resume 0 (.fetched [1, 2] (some .other)), .resume 0 (.locked 0 {}),
    .event (.readAt ⟨1, "f", 3, 0⟩), .resume 1 (.locked 1 {})]

/-- The fetch is honest, and the second read returns two bytes without an error. -/
theorem short_block_read : system.Along (FetchesHonest someContent) (initial someConfig) shortRun ∧
    ∃ p, system.run (initial someConfig) shortRun = some p ∧ ¬NoShortRead someContent p := by
  refine ⟨by decide, _, rfl, fun h => ?_⟩
  have hshort := h ⟨1, "f", 3, 0⟩ [1, 2] (by decide) (by decide)
  revert hshort
  decide

end AllInOneBackup.LitePan.FuseReadCache
