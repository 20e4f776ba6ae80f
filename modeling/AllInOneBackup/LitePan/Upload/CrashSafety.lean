import AllInOneBackup.LitePan.Playback.Prefix
import AllInOneBackup.LitePan.Upload.Checkpoint

/-! What a download that is resumed starts from. Where the size of the source is known, the local
file has, below the checkpoint, nothing but the source, and so has every content of it since the last
`Sync`; a local file without a checkpoint has nothing else at all. Where the size is not known, the
file is written with neither, and a crash may leave its length without its bytes. -/

namespace AllInOneBackup.LitePan.Upload.Checkpoint

open Concurrency Playback Storage

variable {source : List UInt8}

/-! ### What is to hold -/

/-- What is left of the local file, if the process dies now, is the source as far as the next run
will start from. -/
def Resumable (source : List UInt8) (d : Download) : Prop :=
  ∀ data, d.Leaves data →
    crossTransferResumeOffset data d.checkpoint ≤ commonPrefix (data.getD []) source

/-- The size of the source is known when the download begins. -/
def SizeKnown (source : List UInt8) (p : Pool Download Empty Unit) : Action Unit Act → Prop
  | .event (.resolved sizeKnown _) => match p.shared.main with
    | .resolving known _ => 0 < Download.totalBytes source (known || sizeKnown)
    | _ => True
  | _ => True

instance (p : Pool Download Empty Unit) (a : Action Unit Act) : Decidable (SizeKnown source p a) := by
  unfold SizeKnown
  split
  · split <;> infer_instance
  · infer_instance

/-! ### The invariant -/

/-- How far a local file is trusted. -/
def trusted (source : List UInt8) : CheckpointFile → ℕ
  | none => source.length
  | some none => 0
  | some (some offset) => offset.toNat

/-- A crash leaves nothing but the source where the local file is trusted. -/
structure Trusted (source : List UInt8) (file : File UInt8) (checkpoint : CheckpointFile) : Prop where
  bounded : ∀ v ∈ file.versions, v.length ≤ source.length
  agrees : ∀ v ∈ file.versions, Agrees source v (trusted source checkpoint)

/-- The records that are saved, or about to be, are of bytes that are safe then. -/
def Flush.Sound (source : List UInt8) (file : File UInt8) (reached : ℕ) : Flush → Prop
  | .waiting => True
  | .syncing offset mark => offset ≤ reached ∧ mark ≤ file.past.length ∧
    ∀ v ∈ file.versions.drop mark, Has source v offset
  | .replacing offset => offset ≤ reached ∧ ∀ v ∈ file.versions, Has source v offset

structure Saver (source : List UInt8) (file : File UInt8) (checkpoint : CheckpointFile)
    (saver : TransferCheckpoint) : Prop where
  saved : ∃ c : ℕ, checkpoint = some (some ↑c) ∧ c ≤ saver.offset ∧
    ∀ v ∈ file.versions, Has source v c
  has : Has source file.data saver.offset
  flush : saver.flush.Sound source file saver.offset

/-- While the workers are at work, what they have written is there. -/
structure Progress (source : List UInt8) (file : File UInt8) (checkpoint : CheckpointFile)
    (saver : TransferCheckpoint) (s : Span) (trace : List Playback.Event) : Prop
    extends Saver source file checkpoint saver where
  bounded : ∀ v ∈ file.versions, v.length ≤ source.length
  last : s.last + 1 = source.length
  started : Has source file.data s.start
  written : ∀ pos, Covered trace pos → ∃ b, file.data[pos]? = some b ∧ source[pos]? = some b
  offset : saver.offset = s.start ∨ ∃ e ∈ trace, e.pfx? = some saver.offset

def Saving.Ready (source : List UInt8) (d : Download) (offset : ℕ) : Saving → Prop
  | .start _ => True
  | .tail err => err = none → offset = source.length
  | .fallback => offset = 0 ∧ d.downloaded = 0
  | .copied failed => failed = false → offset = d.downloaded

/-- What is known before the next call. -/
def Main.Ready (source : List UInt8) (file : File UInt8) (d : Download) : Main → Prop
  | .idle => True
  | .resolving _ existing => Has source file.data existing ∧
    existing ≤ trusted source d.checkpoint
  | .truncating existing _ => Has source file.data existing
  | .seeking existing _ => Exactly source file.data existing
  | .syncing offset why => Exactly source file.data offset ∧ why.Ready source d offset
  | .replacing offset why => Exactly source file.data offset ∧ file.past = [] ∧
    why.Ready source d offset
  | .downloading s pool => Progress source file d.checkpoint d.saver s pool.trace ∧
    ∃ got, Holds s pool.shared pool.tasks pool.trace got
  | .stopping pfx err => Saver source file d.checkpoint d.saver ∧ Has source file.data pfx ∧ d.saver.offset ≤ pfx ∧
    (err = none → pfx = source.length)
  | .cutting pfx err => Has source file.data pfx ∧ (err = none → pfx = source.length)
  | .recreating => True
  | .recopying => d.checkpoint = some (some 0) ∧ Exactly source file.data d.downloaded
  | .copying => False
  | .completing => Exactly source file.data source.length
  | .removing => ∀ v ∈ file.versions, Agrees source v source.length

/-- The goroutine that saves the checkpoint may be at work. -/
def Main.saves : Main → Bool
  | .downloading .. => true
  | .stopping .. => true
  | _ => false

/-- A run has a local file once it has opened it. -/
def OnDisk (source : List UInt8) (d : Download) : Option (File UInt8) → Prop
  | none => d.main = .idle ∨ ∃ sizeKnown, d.main = .resolving sizeKnown 0
  | some file => Trusted source file d.checkpoint ∧ d.main.Ready source file d

structure Safe (source : List UInt8) (d : Download) : Prop where
  flush : d.main.saves = false → d.saver.flush = .waiting
  onDisk : OnDisk source d d.file

section Files

variable {file : File UInt8} {c : CheckpointFile} {data v : List UInt8} {n : ℕ}

namespace Trusted

/-- What a crash leaves is right as far as the next run will start from. -/
theorem has (h : Trusted source file c) (hd : file.Survives data) :
    Has source data (crossTransferResumeOffset (some data) c) := by
  match c with
  | none =>
    have hle : data.length ≤ source.length := hd.length_le h.bounded
    have hagrees : ∀ v ∈ file.versions, Agrees source v data.length := fun v hv =>
      (h.agrees v hv).mono hle
    exact hd.has hagrees le_rfl
  | some none => exact .zero source data
  | some (some offset) =>
    simp only [crossTransferResumeOffset]
    split_ifs with hbad
    · exact .zero source data
    · exact hd.has h.agrees (by omega)

/-- The next run starts from nothing that is not trusted. -/
theorem offset_le (h : Trusted source file c) :
    crossTransferResumeOffset (some file.data) c ≤ trusted source c := by
  match c with
  | none => exact h.bounded _ file.data_mem_versions
  | some none => exact le_rfl
  | some (some offset) =>
    simp only [crossTransferResumeOffset]
    split_ifs
    · exact Nat.zero_le _
    · exact le_rfl

theorem crash (h : Trusted source file c) (hd : file.Survives data) :
    Trusted source { data } c := by
  constructor <;> refine List.forall_mem_singleton.mpr ?_
  · exact hd.length_le h.bounded
  · intro i hi b hb
    obtain ⟨hlt, -⟩ := List.getElem?_eq_some_iff.mp hb
    obtain ⟨v, hv, heq⟩ := hd.2 i hlt
    exact h.agrees v hv i hi b (heq.trans hb)

theorem truncate (h : Trusted source file c) (hn : n ≤ file.data.length) :
    Trusted source (file.truncate 0 n) c := by
  have hdata : (file.truncate 0 n).data = file.data.take n := by
    rw [File.truncate, extend_of_le hn]
  constructor <;> rw [File.versions_truncate, List.forall_mem_append, List.forall_mem_singleton,
    hdata]
  · refine ⟨h.bounded, (List.length_take_le' _ _).trans (h.bounded _ file.data_mem_versions)⟩
  · exact ⟨h.agrees, (h.agrees _ file.data_mem_versions).take n⟩

theorem sync (h : Trusted source file c) {mark : ℕ} (hmark : mark ≤ file.past.length) :
    Trusted source (file.sync mark) c := by
  constructor <;> rw [file.versions_sync hmark]
  · exact fun v hv => h.bounded v (List.mem_of_mem_drop hv)
  · exact fun v hv => h.agrees v (List.mem_of_mem_drop hv)

/-- A file that is just synced and has nothing but the source is trusted whatever its checkpoint
says. -/
theorem of_exactly (h : Exactly source file.data n) (hpast : file.past = []) (c : CheckpointFile) :
    Trusted source file c := by
  have hversions : file.versions = [file.data] := by rw [File.versions, hpast, List.nil_append]
  constructor <;> rw [hversions, List.forall_mem_singleton]
  · exact h.2.le.trans h.1.le_length
  · exact h.agrees _

end Trusted

theorem Saver.trusted {saver : TransferCheckpoint} (h : Saver source file c saver)
    (hbounded : ∀ v ∈ file.versions, v.length ≤ source.length) : Trusted source file c := by
  obtain ⟨n, rfl, -, hhas⟩ := h.saved
  exact ⟨hbounded, fun v hv => (hhas v hv).2⟩

end Files

/-! ### The workers -/

section Workers

variable {file : File UInt8} {checkpoint : CheckpointFile} {saver : TransferCheckpoint} {s : Span}
  {trace : List Playback.Event}

theorem Saver.writeAt (h : Saver source file checkpoint saver) {offset n : ℕ}
    (hle : offset + n ≤ source.length) :
    Saver source (file.writeAt 0 offset ((source.drop offset).take n)) checkpoint saver := by
  have hdata : ∀ {m}, Has source file.data m →
      Has source (file.writeAt 0 offset ((source.drop offset).take n)).data m := fun hm =>
    has_of_getElem? fun i hi => by
      obtain ⟨b, hb⟩ := hm.getElem? hi
      exact ⟨b, getElem?_writeAt hle (.inr hb), hb.2⟩
  have hall : ∀ {m}, (∀ v ∈ file.versions, Has source v m) →
      ∀ v ∈ (file.writeAt 0 offset ((source.drop offset).take n)).versions, Has source v m :=
    fun hm => has_writeAt (k := 0) hle (Nat.zero_le _) hm (hm _ file.data_mem_versions)
  obtain ⟨c, hc, hle', hhas⟩ := h.saved
  refine ⟨⟨c, hc, hle', hall hhas⟩, hdata h.has, ?_⟩
  have hflush := h.flush
  unfold Flush.Sound at hflush ⊢
  split at hflush
  · trivial
  · obtain ⟨hreached, hmark, hsynced⟩ := hflush
    refine ⟨hreached, hmark.trans (by simp [File.writeAt]), has_writeAt hle ?_ hsynced ?_⟩
    · exact hmark.trans (by simp [File.versions])
    · exact h.has.mono hreached
  · exact ⟨hflush.1, hall hflush.2⟩

theorem Flush.Sound.mono {flush : Flush} {reached reached' : ℕ}
    (h : flush.Sound source file reached) (hle : reached ≤ reached') :
    flush.Sound source file reached' := by
  unfold Flush.Sound at h ⊢
  split at h
  · trivial
  · exact ⟨h.1.trans hle, h.2⟩
  · exact ⟨h.1.trans hle, h.2⟩

/-- What is covered when a prefix is reported is there. -/
theorem Progress.has_prefix (h : Progress source file checkpoint saver s trace) {pfx : ℕ}
    (hpfx : TruePrefix s trace pfx) : Has source file.data pfx := by
  refine has_of_getElem? fun i hi => ?_
  obtain hlt | hge := Nat.lt_or_ge i s.start
  · exact h.started.getElem? hlt
  · exact h.written i (hpfx.covered i hge hi)

theorem Progress.wrote (h : Progress source file checkpoint saver s trace) (index : ℕ)
    {offset n : ℕ} (hle : offset + n ≤ source.length) :
    Progress source (file.writeAt 0 offset ((source.drop offset).take n)) checkpoint saver s
      (trace ++ [.wrote index offset offset n]) := by
  have hkeeps : ∀ i, (∃ b, file.data[i]? = some b ∧ source[i]? = some b) →
      ∃ b, (file.writeAt 0 offset ((source.drop offset).take n)).data[i]? = some b ∧
        source[i]? = some b := fun i ⟨b, hb⟩ => ⟨b, getElem?_writeAt hle (.inr hb), hb.2⟩
  refine ⟨h.toSaver.writeAt hle, bounded_writeAt hle h.bounded, h.last, ?_, ?_, ?_⟩
  · exact has_of_getElem? fun i hi => hkeeps i (h.started.getElem? hi)
  · rintro pos ⟨index', source', offset', n', hmem, hpos⟩
    obtain hmem | hmem := List.mem_append.mp hmem
    · exact hkeeps pos (h.written pos ⟨index', source', offset', n', hmem, hpos⟩)
    · cases List.mem_singleton.mp hmem
      have hlt : pos < source.length := hpos.2.trans_le hle
      have hget : source[pos]? = some source[pos] := List.getElem?_eq_getElem hlt
      exact ⟨_, getElem?_writeAt hle (.inl ⟨hpos, hget⟩), hget⟩
  · exact h.offset.imp_right fun ⟨e, he, hpfx⟩ => ⟨e, List.mem_append_left _ he, hpfx⟩

theorem Progress.progressed (h : Progress source file checkpoint saver s trace) (n : ℕ) {pfx : ℕ}
    (hpfx : TruePrefix s trace pfx) :
    Progress source file checkpoint (saver.update pfx) s (trace ++ [.progressed n pfx]) := by
  have hwritten : ∀ pos, Covered (trace ++ [.progressed n pfx]) pos →
      ∃ b, file.data[pos]? = some b ∧ source[pos]? = some b := by
    rintro pos ⟨index, position, offset, m, hmem, hpos⟩
    exact h.written pos ⟨index, position, offset, m, by simpa using hmem, hpos⟩
  obtain ⟨c, hc, hle, hhas⟩ := h.saved
  unfold TransferCheckpoint.update
  split_ifs with hlt
  · exact ⟨⟨⟨c, hc, hle.trans hlt.le, hhas⟩, h.has_prefix hpfx, h.flush.mono hlt.le⟩, h.bounded,
      h.last, h.started, hwritten, .inr ⟨_, List.mem_append_right _ List.mem_cons_self, rfl⟩⟩
  · exact ⟨⟨⟨c, hc, hle, hhas⟩, h.has, h.flush⟩, h.bounded, h.last, h.started, hwritten,
      h.offset.imp_right fun ⟨e, he, hpfx⟩ => ⟨e, List.mem_append_left _ he, hpfx⟩⟩

/-- A prefix that is returned is the last one. -/
theorem Progress.offset_le (h : Progress source file checkpoint saver s trace) {pfx : ℕ}
    (hpfx : TruePrefix s trace pfx) : saver.offset ≤ pfx := by
  obtain heq | ⟨e, he, heq⟩ := h.offset
  · exact heq ▸ hpfx.start_le
  · exact hpfx.mono e he _ heq

/-- The goroutine that saves the checkpoint begins to sync. -/
theorem Saver.tick (h : Saver source file checkpoint saver) :
    Saver source file checkpoint
      { saver with flush := .syncing saver.offset file.past.length } := by
  refine ⟨h.saved, h.has, le_rfl, le_rfl, ?_⟩
  rw [File.versions, List.drop_left]
  exact List.forall_mem_singleton.mpr h.has

/-- It gives up, or there is nothing to save. -/
theorem Saver.wait (h : Saver source file checkpoint saver) :
    Saver source file checkpoint { saver with flush := .waiting } := ⟨h.saved, h.has, trivial⟩

theorem Saver.synced (h : Saver source file checkpoint saver) {offset mark : ℕ}
    (hflush : saver.flush = .syncing offset mark) :
    Saver source (file.sync mark) checkpoint { saver with flush := .replacing offset } := by
  have hsound := h.flush
  rw [hflush] at hsound
  obtain ⟨hreached, hmark, hsynced⟩ := hsound
  obtain ⟨c, hc, hle, hhas⟩ := h.saved
  refine ⟨⟨c, hc, hle, ?_⟩, h.has, hreached, ?_⟩ <;> rw [file.versions_sync hmark]
  · exact fun v hv => hhas v (List.mem_of_mem_drop hv)
  · exact hsynced

theorem Saver.replaced (h : Saver source file checkpoint saver) {offset : ℕ}
    (hflush : saver.flush = .replacing offset) (savedAt : ℕ) :
    Saver source file (some (some offset)) { saver with savedAt, flush := .waiting } := by
  have hsound := h.flush
  rw [hflush] at hsound
  exact ⟨⟨offset, rfl, hsound⟩, h.has, trivial⟩

theorem resume_seen {t : Transfer} {g : Playback.Goroutine} {o : Playback.Outcome} {r : TransferTurn}
    (h : Playback.resume s t g o = some r) : r.seen = [] ∨ ∃ e, r.seen = [e] := by
  cases g <;> cases o <;> try cases h
  all_goals first
    | exact .inl rfl
    | exact .inr ⟨_, rfl⟩
    | skip
  · obtain ⟨-, h⟩ := Option.ite_none_right_eq_some.mp h
    cases h
    split_ifs <;> first | exact .inl rfl | exact .inr ⟨_, rfl⟩
  · obtain ⟨-, h⟩ := Option.ite_none_right_eq_some.mp h
    cases h
    exact .inr ⟨_, rfl⟩

/-- A turn of the workers shows one thing at most. -/
theorem step_seen {p q : TransferPool} {a : Action Playback.Outcome Unit}
    (h : (Playback.system s).step p a = some q) :
    q.trace = p.trace ∨ ∃ e, q.trace = p.trace ++ [e] := by
  obtain ⟨i, o, g, r, rfl, -, hr, rfl⟩ | ⟨e, r, rfl, hr, rfl⟩ := System.step_cases h
  · obtain hseen | ⟨e, hseen⟩ := resume_seen hr
    · exact .inl (by rw [hseen, List.append_nil])
    · exact .inr ⟨e, by rw [hseen]⟩
  · cases hr
    exact .inl (List.append_nil _)

end Workers

theorem Safe.resumable {d : Download} (h : Safe source d) : Resumable source d := by
  intro data hdata
  have hdisk := h.onDisk
  cases hfile : d.file with
  | none =>
    cases data with
    | none => exact Nat.zero_le _
    | some data => simp only [Download.Leaves, hfile] at hdata
  | some file =>
    cases data with
    | none => exact Nat.zero_le _
    | some data =>
      simp only [Download.Leaves, hfile] at hdata
      rw [hfile] at hdisk
      exact (hdisk.1.has hdata).le_commonPrefix

/-! ### Every step -/

section Steps

variable {file : File UInt8} {d d' : Download}

theorem Safe.of_file (hfile : d.file = some file) (htrusted : Trusted source file d.checkpoint)
    (hready : d.main.Ready source file d)
    (hflush : d.main.saves = false → d.saver.flush = .waiting) : Safe source d :=
  ⟨hflush, by rw [hfile]; exact ⟨htrusted, hready⟩⟩

theorem Safe.of_idle (h : Safe source d) (hflush : d.saver.flush = .waiting) :
    Safe source { d with main := .idle } := by
  refine ⟨fun _ => hflush, ?_⟩
  have hdisk := h.onDisk
  revert hdisk
  cases d.file with
  | none => exact fun _ => .inl rfl
  | some file => exact fun hdisk => ⟨hdisk.1, trivial⟩

theorem safe_execute (h : Safe source d) (hmain : d.main = .idle) (sizeKnown : Bool)
    {existing : ℕ} (hexisting : existing ≤ crossTransferResumeOffset (d.file.map File.data)
      d.checkpoint) : Safe source { d with main := .resolving sizeKnown existing } := by
  refine ⟨fun _ => h.flush (by rw [hmain]; rfl), ?_⟩
  have hdisk := h.onDisk
  revert hdisk hexisting
  cases d.file with
  | none =>
    intro hexisting _
    exact .inr ⟨sizeKnown, congrArg _ (Nat.le_zero.mp hexisting)⟩
  | some file =>
    intro hexisting hdisk
    exact ⟨hdisk.1, (hdisk.1.has file.survives_data).mono hexisting,
      hexisting.trans hdisk.1.offset_le⟩

theorem safe_resolved {known sizeKnown : Bool} {existing : ℕ} {link : DownloadInfo}
    (h : Safe source d) (hmain : d.main = .resolving known existing)
    (hknown : 0 < Download.totalBytes source sizeKnown) :
    Safe source (d.resolved source sizeKnown existing link) := by
  have htotal : Download.totalBytes source sizeKnown = source.length := by
    unfold Download.totalBytes at hknown ⊢
    split_ifs at hknown ⊢ with hsize
    · rfl
    · exact absurd hknown (Nat.lt_irrefl 0)
  have hflush := h.flush (by rw [hmain]; rfl)
  have hdisk := h.onDisk
  rw [htotal] at hknown
  simp only [Download.resolved, htotal, hknown, true_and]
  cases hfile : d.file with
  | none =>
    rw [hfile] at hdisk
    obtain hidle | ⟨_, hresolving⟩ := hdisk
    · exact absurd (hmain.symm.trans hidle) (by nofun)
    · obtain ⟨-, rfl⟩ := Main.resolving.inj (hmain.symm.trans hresolving)
      have hne : ¬(if 0 > source.length then 0 else 0) = source.length := by
        rw [ite_self]
        exact hknown.ne
      rw [if_neg hne]
      refine .of_file rfl ?_ ?_ (fun _ => hflush)
      · simp only [Download.openCrossTransferTempFile, hfile]
        exact .of_exactly (exactly_nil source) rfl _
      · simp only [Download.openCrossTransferTempFile, hfile, ite_self, gt_iff_lt, lt_self_iff_false,
          if_false, if_true]
        exact ⟨exactly_nil source, trivial⟩
  | some file =>
    rw [hfile] at hdisk
    obtain ⟨htrusted, hready⟩ := hdisk
    rw [hmain] at hready
    obtain ⟨hhas, hle⟩ := hready
    have hbounded : existing ≤ source.length := hhas.le_length
    rw [if_neg (Nat.not_lt.mpr hbounded)]
    split_ifs with hall hresumed
    · refine .of_file rfl htrusted (fun v hv => ?_) (fun _ => hflush)
      exact (htrusted.agrees v hv).mono (hall ▸ hle)
    · refine .of_file rfl ?_ ?_ (fun _ => hflush) <;>
        simp only [Download.openCrossTransferTempFile, hfile, hresumed, decide_true, if_true]
      · exact htrusted
      · exact hhas
    · obtain rfl : existing = 0 := by omega
      refine .of_file rfl ?_ ?_ (fun _ => hflush) <;>
        simp only [Download.openCrossTransferTempFile, hfile, hresumed, decide_false,
          Bool.false_eq_true, if_false]
      · exact htrusted.truncate (Nat.zero_le _)
      · exact ⟨(Has.zero source _).exactly_truncate, trivial⟩

/-- What follows on a checkpoint that has been saved. -/
theorem safe_saved {offset : ℕ} {why : Saving} (hfile : d.file = some file)
    (hdata : Exactly source file.data offset) (hpast : file.past = [])
    (hwhy : why.Ready source d offset) (hflush : d.saver.flush = .waiting) :
    Safe source (Download.saved source { d with checkpoint := some (some offset) } offset why true)
    := by
  have htrusted : ∀ c, Trusted source file c := .of_exactly hdata hpast
  have hversions : file.versions = [file.data] := by rw [File.versions, hpast, List.nil_append]
  have hall : ∀ v ∈ file.versions, Has source v offset := by
    rw [hversions]
    exact List.forall_mem_singleton.mpr hdata.1
  cases why with
  | start link =>
    have hsaver : Saver source file (some (some ↑offset)) (newTransferCheckpoint offset) :=
      ⟨⟨offset, rfl, le_rfl, hall⟩, hdata.1, trivial⟩
    simp only [Download.saved]
    cases hspan : Span.ofArgs true link source.length offset (source.length - 1) with
    | none =>
      exact .of_file hfile (htrusted _) ⟨hsaver, hdata.1, le_rfl, by intros; contradiction⟩
        (by intros; contradiction)
    | some s =>
      obtain ⟨hstart, hlast⟩ := Span.ofArgs_range hspan
      have hstart : s.start = offset := Int.ofNat.inj hstart
      refine .of_file hfile (htrusted _) ⟨⟨hsaver, (htrusted none).bounded, by omega,
        hstart ▸ hdata.1, ?_, .inl hstart.symm⟩, _, holds_downloadOriginal s⟩
        (by intros; contradiction)
      rintro pos ⟨_, _, _, _, hmem, -⟩
      exact absurd hmem List.not_mem_nil
  | tail err =>
    cases err with
    | none =>
      refine .of_file hfile (htrusted _) ?_ fun _ => hflush
      simp only [Download.saved]
      split_ifs
      · exact hwhy rfl ▸ hdata
      · trivial
    | some err => cases err <;> exact .of_file hfile (htrusted _) trivial fun _ => hflush
  | fallback =>
    obtain ⟨rfl, hdownloaded⟩ := hwhy
    refine .of_file hfile (htrusted _) ⟨rfl, ?_⟩ fun _ => hflush
    exact hdownloaded.symm ▸ hdata
  | copied failed =>
    cases failed with
    | true => exact .of_file hfile (htrusted _) trivial fun _ => hflush
    | false =>
      refine .of_file hfile (htrusted _) ?_ fun _ => hflush
      simp only [Download.saved]
      split_ifs with hcomplete
      · have hoffset : offset = source.length := (hwhy rfl).trans hcomplete.2
        exact hoffset ▸ hdata
      · trivial

/-- What follows where the checkpoint could not be saved. -/
theorem safe_not_saved {offset : ℕ} {why : Saving} (hfile : d.file = some file)
    (htrusted : Trusted source file d.checkpoint) (hdata : Exactly source file.data offset)
    (hwhy : why.Ready source d offset) (hflush : d.saver.flush = .waiting) :
    Safe source (Download.saved source d offset why false) := by
  cases why with
  | start link => exact .of_file hfile htrusted ⟨hdata.1, by nofun⟩ fun _ => hflush
  | tail err =>
    cases err with
    | none => exact .of_file hfile htrusted trivial fun _ => hflush
    | some err => cases err <;> exact .of_file hfile htrusted trivial fun _ => hflush
  | fallback =>
    obtain ⟨rfl, hdownloaded⟩ := hwhy
    exact .of_file hfile htrusted ⟨hdownloaded.symm ▸ hdata, by nofun⟩ fun _ => hflush
  | copied failed => cases failed <;> exact .of_file hfile htrusted trivial fun _ => hflush

/-- The file is there in every state but those before it is opened. -/
theorem Safe.exists_file (h : Safe source d) (hidle : d.main ≠ .idle)
    (hresolving : ∀ sizeKnown existing, d.main ≠ .resolving sizeKnown existing) :
    ∃ file, d.file = some file ∧ Trusted source file d.checkpoint ∧ d.main.Ready source file d := by
  have hdisk := h.onDisk
  cases hfile : d.file with
  | none =>
    rw [hfile] at hdisk
    obtain hmain | ⟨sizeKnown, hmain⟩ := hdisk
    · exact absurd hmain hidle
    · exact absurd hmain (hresolving sizeKnown 0)
  | some file =>
    rw [hfile] at hdisk
    exact ⟨file, rfl, hdisk⟩

theorem safe_done (h : Safe source d) (hd : d.done source = some d') : Safe source d' := by
  have hflush := h.flush
  unfold Download.done at hd
  cases hmain : d.main with
  | idle | resolving | downloading =>
    rw [hmain] at hd
    cases hd
  | truncating existing link =>
    obtain ⟨file, hfile, htrusted, hready⟩ := h.exists_file (by simp [hmain]) (by simp [hmain])
    rw [hmain] at hd hready hflush
    cases hd
    refine .of_file (by rw [hfile]; rfl) (htrusted.truncate hready.1) ?_ hflush
    exact hready.exactly_truncate
  | seeking existing link =>
    obtain ⟨file, hfile, htrusted, hready⟩ := h.exists_file (by simp [hmain]) (by simp [hmain])
    rw [hmain] at hd hready hflush
    cases hd
    exact .of_file hfile htrusted ⟨hready, trivial⟩ hflush
  | syncing offset why =>
    obtain ⟨file, hfile, htrusted, hready⟩ := h.exists_file (by simp [hmain]) (by simp [hmain])
    rw [hmain] at hd hready hflush
    cases hd
    refine .of_file (by rw [hfile]; rfl) (htrusted.sync le_rfl) ⟨hready.1, ?_, ?_⟩ hflush
    · exact List.drop_length
    · exact hready.2
  | replacing offset why =>
    obtain ⟨file, hfile, htrusted, hready⟩ := h.exists_file (by simp [hmain]) (by simp [hmain])
    rw [hmain] at hd hready hflush
    cases hd
    exact safe_saved hfile hready.1 hready.2.1 hready.2.2 (hflush rfl)
  | stopping pfx err =>
    obtain ⟨file, hfile, htrusted, hready⟩ := h.exists_file (by simp [hmain]) (by simp [hmain])
    rw [hmain] at hd hready
    dsimp only at hd
    split at hd
    · rename_i hwaiting
      cases hd
      exact .of_file hfile htrusted ⟨hready.2.1, hready.2.2.2⟩ fun _ => hwaiting
    · cases hd
  | cutting pfx err =>
    obtain ⟨file, hfile, htrusted, hready⟩ := h.exists_file (by simp [hmain]) (by simp [hmain])
    rw [hmain] at hd hready hflush
    cases hd
    refine .of_file (by rw [hfile]; rfl) (htrusted.truncate hready.1.1) ⟨?_, hready.2⟩ hflush
    exact hready.1.exactly_truncate
  | recreating =>
    obtain ⟨file, hfile, htrusted, hready⟩ := h.exists_file (by simp [hmain]) (by simp [hmain])
    rw [hmain] at hd hflush
    cases hd
    have hopen : d.openCrossTransferTempFile false = file.truncate 0 0 := by
      simp [Download.openCrossTransferTempFile, hfile]
    refine .of_file (congrArg some hopen) (htrusted.truncate (Nat.zero_le _)) ⟨?_, rfl, rfl⟩ hflush
    exact (Has.zero source _).exactly_truncate
  | recopying =>
    obtain ⟨file, hfile, htrusted, hready⟩ := h.exists_file (by simp [hmain]) (by simp [hmain])
    rw [hmain] at hd hready hflush
    cases hd
    exact .of_file hfile htrusted ⟨hready.2, fun _ => rfl⟩ hflush
  | copying =>
    obtain ⟨file, -, -, hready⟩ := h.exists_file (by simp [hmain]) (by simp [hmain])
    rw [hmain] at hready
    exact hready.elim
  | completing =>
    obtain ⟨file, hfile, htrusted, hready⟩ := h.exists_file (by simp [hmain]) (by simp [hmain])
    rw [hmain] at hd hready hflush
    cases hd
    refine .of_file (by rw [hfile]; rfl) (htrusted.sync le_rfl) ?_ hflush
    simp only [Main.Ready]
    rw [file.versions_sync_all, List.forall_mem_singleton]
    exact Exactly.agrees hready _
  | removing =>
    obtain ⟨file, hfile, htrusted, hready⟩ := h.exists_file (by simp [hmain]) (by simp [hmain])
    rw [hmain] at hd hready hflush
    cases hd
    exact .of_file hfile ⟨htrusted.bounded, hready⟩ trivial hflush

theorem safe_failed (h : Safe source d) (hd : d.failed source = some d') : Safe source d' := by
  have hflush := h.flush
  unfold Download.failed at hd
  cases hmain : d.main with
  | idle | downloading | stopping =>
    rw [hmain] at hd
    cases hd
  | resolving | truncating | seeking | cutting | recreating | copying | completing | removing =>
    rw [hmain] at hd hflush
    cases hd
    exact h.of_idle (hflush rfl)
  | syncing offset why =>
    obtain ⟨file, hfile, htrusted, hready⟩ := h.exists_file (by simp [hmain]) (by simp [hmain])
    rw [hmain] at hd hready hflush
    cases hd
    exact safe_not_saved hfile htrusted hready.1 hready.2 (hflush rfl)
  | replacing offset why =>
    obtain ⟨file, hfile, htrusted, hready⟩ := h.exists_file (by simp [hmain]) (by simp [hmain])
    rw [hmain] at hd hready hflush
    cases hd
    exact safe_not_saved hfile htrusted hready.1 hready.2.2 (hflush rfl)
  | recopying =>
    obtain ⟨file, hfile, htrusted, hready⟩ := h.exists_file (by simp [hmain]) (by simp [hmain])
    rw [hmain] at hd hready hflush
    cases hd
    exact .of_file hfile htrusted ⟨hready.2, by nofun⟩ hflush

theorem safe_copied (h : Safe source d) {n : ℕ} (hd : d.copied source n = some d') :
    Safe source d' := by
  have hflush := h.flush
  unfold Download.copied at hd
  split at hd
  · rename_i hmain
    obtain ⟨file, hfile, htrusted, hready⟩ := h.exists_file (by simp [hmain]) (by simp [hmain])
    obtain ⟨hle, hd⟩ := Option.ite_none_right_eq_some.mp hd
    cases hd
    rw [hmain] at hready hflush
    obtain ⟨hcheckpoint, hdata⟩ := hready
    refine .of_file (by rw [hfile]; rfl) ⟨bounded_writeAt hle htrusted.bounded, ?_⟩ ?_ fun _ => ?_
    · rw [hcheckpoint]
      exact fun v _ => (Has.zero source v).2
    · simp only [hmain]
      exact ⟨hcheckpoint, exactly_writeAt hle hdata⟩
    · exact hflush rfl
  · rename_i hmain
    obtain ⟨file, -, -, hready⟩ := h.exists_file (by simp [hmain]) (by simp [hmain])
    rw [hmain] at hready
    exact hready.elim
  · cases hd

theorem safe_transfer (h : Safe source d) {a : Action Playback.Outcome Unit}
    (hd : d.transfer source a = some d') : Safe source d' := by
  unfold Download.transfer at hd
  split at hd
  · rename_i s pool hmain
    obtain ⟨file, hfile, htrusted, hready⟩ := h.exists_file (by simp [hmain]) (by simp [hmain])
    rw [hmain] at hready
    obtain ⟨hprogress, hpool⟩ := hready
    obtain ⟨next, hnext, rfl⟩ := Option.map_eq_some_iff.mp hd
    obtain ⟨got, hholds⟩ := holds_step hpool hnext
    obtain htrace | ⟨e, htrace⟩ := step_seen hnext
    · rw [htrace, List.drop_length]
      exact .of_file hfile htrusted ⟨htrace ▸ hprogress, got, hholds⟩ (by nofun)
    · have hcontiguous := hholds.contiguous
      have hrange := @hholds.inRange
      rw [htrace] at hcontiguous hrange
      rw [htrace, List.drop_left, List.foldl_cons, List.foldl_nil]
      cases e with
      | wrote index position offset n =>
        have hmem : Playback.Event.wrote index position offset n ∈
          pool.trace ++ [.wrote index position offset n] :=
            List.mem_append_right _ List.mem_cons_self
        obtain rfl := hcontiguous.own_offset hmem
        have hle : position + n ≤ source.length := (hrange hmem).2.trans hprogress.last.le
        have hwrote := hprogress.wrote index hle
        have hfile' : d.file.map (File.writeAt · 0 position ((source.drop position).take n)) =
            some (file.writeAt 0 position ((source.drop position).take n)) := by rw [hfile]; rfl
        refine .of_file hfile' (hwrote.toSaver.trusted hwrote.bounded) ⟨?_, got, hholds⟩ (by nofun)
        rw [htrace]
        exact hwrote
      | progressed n pfx =>
        have hprogressed := hprogress.progressed n (hcontiguous.truePrefix rfl rfl)
        refine .of_file hfile htrusted ⟨?_, got, hholds⟩ (by nofun)
        rw [htrace]
        exact hprogressed
      | returned pfx err =>
        have hpfx : TruePrefix s pool.trace pfx := hcontiguous.truePrefix rfl rfl
        refine .of_file hfile htrusted ⟨hprogress.toSaver, hprogress.has_prefix hpfx,
          hprogress.offset_le hpfx, ?_⟩ (by nofun)
        rintro rfl
        exact (hcontiguous.finished (List.mem_append_right _ List.mem_cons_self)).trans
          hprogress.last
  · cases hd

theorem Safe.file_of_saves (h : Safe source d) (hsaves : d.main.saves = true) :
    ∃ file, d.file = some file ∧ Trusted source file d.checkpoint ∧ d.main.Ready source file d := by
  refine h.exists_file ?_ ?_
  · intro hmain
    rw [hmain] at hsaves
    exact absurd hsaves (by nofun)
  · intro _ _ hmain
    rw [hmain] at hsaves
    exact absurd hsaves (by nofun)

/-- What the goroutine that saves the checkpoint does while the workers are at work, and after. -/
theorem safe_saver {file' : File UInt8} (h : Safe source d) (hsaves : d.main.saves = true)
    (hfile : d.file = some file) (hfile' : d'.file = some file') (hmain : d'.main = d.main)
    (hdata : file'.data = file.data) (hversions : ∀ v ∈ file'.versions, v ∈ file.versions)
    (hoffset : d'.saver.offset = d.saver.offset)
    (hsaver : Saver source file d.checkpoint d.saver →
      Saver source file' d'.checkpoint d'.saver) : Safe source d' := by
  obtain ⟨_, hfile'', htrusted, hready⟩ := h.file_of_saves hsaves
  obtain rfl := Option.some.inj (hfile''.symm.trans hfile)
  have hbounded : ∀ v ∈ file'.versions, v.length ≤ source.length := fun v hv =>
    htrusted.bounded v (hversions v hv)
  cases hm : d.main <;> rw [hm] at hsaves hready hmain <;> try cases hsaves
  case downloading.refl s pool =>
    obtain ⟨hprogress, hpool⟩ := hready
    have hsaver' := hsaver hprogress.toSaver
    refine .of_file hfile' (hsaver'.trusted hbounded) ?_ (by rw [hmain]; nofun)
    rw [hmain]
    refine ⟨⟨hsaver', hbounded, hprogress.last, ?_, ?_, ?_⟩, hpool⟩
    · exact hdata ▸ hprogress.started
    · exact hdata ▸ hprogress.written
    · exact hoffset ▸ hprogress.offset
  case stopping.refl pfx err =>
    obtain ⟨hold, hhas, hle, herr⟩ := hready
    have hsaver' := hsaver hold
    refine .of_file hfile' (hsaver'.trusted hbounded) ?_ (by rw [hmain]; nofun)
    rw [hmain]
    exact ⟨hsaver', hdata ▸ hhas, hoffset ▸ hle, herr⟩

theorem safe_tick (h : Safe source d) (hd : d.tick = some d') : Safe source d' := by
  unfold Download.tick at hd
  split at hd
  case h_3 => cases hd
  all_goals
    rename_i hmain hwaiting hfile
    obtain rfl := Option.some.inj hd
    split_ifs
    · exact h
    · exact safe_saver h (by rw [hmain]; rfl) hfile hfile rfl rfl (fun _ hv => hv) rfl Saver.tick

theorem safe_flushed (h : Safe source d) {ok : Bool} (hd : d.flushed ok = some d') :
    Safe source d' := by
  have hsaves : d.saver.flush ≠ .waiting → d.main.saves = true := fun hne =>
    Bool.not_eq_false _ ▸ mt h.flush hne
  unfold Download.flushed at hd
  cases hflush : d.saver.flush with
  | waiting =>
    rw [hflush] at hd
    cases hd
  | syncing offset mark =>
    have hsaves := hsaves (by rw [hflush]; nofun)
    obtain ⟨file, hfile, -⟩ := h.file_of_saves hsaves
    rw [hflush] at hd
    obtain rfl := Option.some.inj hd
    split_ifs
    · have hfile' : d.file.map (File.sync · mark) = some (file.sync mark) := by rw [hfile]; rfl
      refine safe_saver h hsaves hfile hfile' rfl rfl (fun v hv => ?_) rfl
        fun hsaver => hsaver.synced hflush
      obtain hv | hv := List.mem_append.mp hv
      · exact List.mem_append_left _ (List.mem_of_mem_drop hv)
      · exact List.mem_append_right _ hv
    · exact safe_saver h hsaves hfile hfile rfl rfl (fun _ hv => hv) rfl Saver.wait
  | replacing offset =>
    have hsaves := hsaves (by rw [hflush]; nofun)
    obtain ⟨file, hfile, -⟩ := h.file_of_saves hsaves
    rw [hflush] at hd
    obtain rfl := Option.some.inj hd
    split_ifs
    · exact safe_saver h hsaves hfile hfile rfl rfl (fun _ hv => hv) rfl fun hsaver =>
        hsaver.replaced hflush _
    · exact safe_saver h hsaves hfile hfile rfl rfl (fun _ hv => hv) rfl Saver.wait

theorem safe_crash (h : Safe source d) {data : Option (List UInt8)} (hdata : d.Leaves data) :
    Safe source { file := data.map fun data => { data }, checkpoint := d.checkpoint } := by
  refine ⟨fun _ => rfl, ?_⟩
  have hdisk := h.onDisk
  cases hfile : d.file with
  | none =>
    cases data with
    | none => exact .inl rfl
    | some data => simp only [Download.Leaves, hfile] at hdata
  | some file =>
    cases data with
    | none => exact .inl rfl
    | some data =>
      simp only [Download.Leaves, hfile] at hdata
      rw [hfile] at hdisk
      exact ⟨hdisk.1.crash hdata, trivial⟩

theorem safe_act (h : Safe source d) {a : Act}
    (hknown : ∀ known existing sizeKnown link, d.main = .resolving known existing →
      a = .resolved sizeKnown link → 0 < Download.totalBytes source (known || sizeKnown))
    (hd : d.act source a = some d') : Safe source d' := by
  cases a with
  | execute sizeKnown =>
    simp only [Download.act] at hd
    split at hd
    · rename_i hmain
      obtain rfl := Option.some.inj hd
      refine safe_execute h hmain sizeKnown ?_
      split_ifs
      · exact le_rfl
      · exact Nat.zero_le _
    · cases hd
  | resolved sizeKnown link =>
    simp only [Download.act] at hd
    split at hd
    · rename_i known existing hmain
      obtain rfl := Option.some.inj hd
      exact safe_resolved h hmain (hknown known existing sizeKnown link hmain rfl)
    · cases hd
  | done => exact safe_done h hd
  | failed => exact safe_failed h hd
  | copied n => exact safe_copied h hd
  | transfer a => exact safe_transfer h hd
  | tick => exact safe_tick h hd
  | flushed ok => exact safe_flushed h hd
  | crash data =>
    obtain ⟨hdata, hd⟩ := Option.ite_none_right_eq_some.mp hd
    obtain rfl := Option.some.inj hd
    exact safe_crash h hdata

end Steps

/-! ### Every run -/

theorem safe_step {p q : Pool Download Empty Unit} {a : Action Unit Act}
    (h : Safe source p.shared) (hok : SizeKnown source p a)
    (hq : (system source).step p a = some q) : Safe source q.shared := by
  obtain ⟨-, -, t, -, -, -, -, -⟩ | ⟨e, r, rfl, hr, rfl⟩ := System.step_cases hq
  · exact t.elim
  · obtain ⟨d, hd, rfl⟩ := Option.map_eq_some_iff.mp hr
    refine safe_act h (fun known existing sizeKnown link hmain he => ?_) hd
    subst he
    simp only [SizeKnown, hmain] at hok
    exact hok

/-- In every run in which the size of the source is known whenever a download begins, a crash at any
time leaves a local file that is the source as far as the next run will start from. -/
theorem resume_safe (source : List UInt8) {as : List (Action Unit Act)}
    (has : (system source).Along (SizeKnown source) fresh as) :
    (system source).Throughout (fun p => Resumable source p.shared) fresh as := by
  have hfresh : Safe source (fresh.shared) := ⟨fun _ => rfl, .inl rfl⟩
  have hinv := System.throughout_of_along (S := system source)
    (I := fun p => Safe source p.shared) (fun p a q hp hok hq => safe_step hp hok hq) hfresh has
  exact hinv.mono fun p hp => hp.resumable

/-- The size of the source is in the link: a crash while its second half is already there, but not
safe. -/
def knownSize : List (Action Unit Act) :=
  [.event (.execute false), .event (.resolved true ⟨2, 2, 0, 0, 4⟩), .event .done, .event .done,
    .event (.transfer (.resume 1 .turn)), .event (.transfer (.resume 1 .turn)),
    .event (.transfer (.resume 2 .turn)), .event (.transfer (.resume 2 .turn)),
    .event (.transfer (.resume 2 .responded)), .event (.transfer (.resume 2 (.write 2 2 false))),
    .event (.crash (some [0, 0, 3]))]

theorem resume_safe_knownSize : (system [1, 2, 3, 4]).Throughout
    (fun p => Resumable [1, 2, 3, 4] p.shared) fresh knownSize :=
  resume_safe [1, 2, 3, 4] (by decide +kernel)

/-- Nobody knows the size of the source: a crash when its bytes have been written, but are not
safe. -/
def unknownSize : List (Action Unit Act) :=
  [.event (.execute false), .event (.resolved false ⟨2, 2, 0, 0, 0⟩), .event (.copied 4)]

/-- The file is as long as the source, has none of its bytes and is taken for complete. -/
theorem length_trusted : ∃ p, (system [1, 2, 3, 4]).run fresh unknownSize = some p ∧
    p.shared.Leaves (some [0, 0, 0, 0]) ∧
      crossTransferResumeOffset (some [0, 0, 0, 0]) p.shared.checkpoint = 4 ∧
        ¬Resumable [1, 2, 3, 4] p.shared := by
  refine ⟨_, rfl, by decide, by decide, fun h => ?_⟩
  have hle := h (some [0, 0, 0, 0]) (by decide)
  revert hle
  decide

end AllInOneBackup.LitePan.Upload.Checkpoint
