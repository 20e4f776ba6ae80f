import AllInOneBackup.LitePan.Playback.Transfer
import AllInOneBackup.Storage.File

/-! `executeCrossTransferDownload`: the local file and its checkpoint while a source is downloaded.
`DownloadOriginal` is the pool of workers that it is, and the checkpoint is saved by a goroutine of
its own meanwhile. The process may die between any two steps. What directories list, such as the
rename of the checkpoint, is there at once; of the local file only what has been synced is safe. -/

namespace AllInOneBackup.LitePan.Upload.Checkpoint

open Concurrency Playback Storage

/-! ### The checkpoint -/

/-- The checkpoint file, where it is there, has what `ParseInt` makes of it. -/
abbrev CheckpointFile := Option (Option ℤ)

def crossTransferResumeOffset : Option (List UInt8) → CheckpointFile → ℕ
  | none, _ => 0
  | some data, none => data.length
  | some _, some none => 0
  | some data, some (some offset) => if offset < 0 ∨ offset > data.length then 0 else offset.toNat

/-- Where `flush` stands: with `mark` contents of the local file before the one that is synced, or
before the rename. -/
inductive Flush
  | waiting
  | syncing (offset mark : ℕ)
  | replacing (offset : ℕ)

structure TransferCheckpoint where
  offset : ℕ := 0
  savedAt : ℕ := 0
  flush : Flush := .waiting

def newTransferCheckpoint (offset : ℕ) : TransferCheckpoint := { offset, savedAt := offset }

def TransferCheckpoint.update (c : TransferCheckpoint) (offset : ℕ) : TransferCheckpoint :=
  if offset > c.offset then { c with offset } else c

/-! ### `executeCrossTransferDownload` -/

/-- Why `saveCrossTransferCheckpoint` is called: before `DownloadOriginal`, after it, and before and
after `CopyOriginalFull` where the source has no ranges. -/
inductive Saving
  | start (link : DownloadInfo)
  | tail (err : Option TransferError)
  | fallback
  | copied (failed : Bool)

/-- The call that comes next. `resolving` says whether the task knows the size; `syncing` and
`replacing` are in `saveCrossTransferCheckpoint`; `stopping` waits for the goroutine that saves the
checkpoint, `cutting` truncates what was written out of order. -/
inductive Main
  | idle
  | resolving (sizeKnown : Bool) (existing : ℕ)
  | truncating (existing : ℕ) (link : DownloadInfo)
  | seeking (existing : ℕ) (link : DownloadInfo)
  | syncing (offset : ℕ) (why : Saving)
  | replacing (offset : ℕ) (why : Saving)
  | downloading (s : Span) (transfer : TransferPool)
  | stopping (pfx : ℕ) (err : Option TransferError)
  | cutting (pfx : ℕ) (err : Option TransferError)
  | recreating
  | recopying
  | copying
  | completing
  | removing

structure Download where
  file : Option (File UInt8) := none
  checkpoint : CheckpointFile := none
  main : Main := .idle
  downloaded : ℕ := 0
  saver : TransferCheckpoint := {}

/-- What happens: a call of the task, and how `Resolve` and the other calls end; bytes that
`CopyOriginalFull` writes; turns of the workers; the ticker and the calls of the goroutine that saves
the checkpoint; and the end of the process, with what is left of the local file. -/
inductive Act
  | execute (sizeKnown : Bool)
  | resolved (sizeKnown : Bool) (link : DownloadInfo)
  | done
  | failed
  | copied (n : ℕ)
  | transfer (a : Action Playback.Outcome Unit)
  | tick
  | flushed (ok : Bool)
  | crash (data : Option (List UInt8))

namespace Download

variable (source : List UInt8) (d : Download)

/-- The source is as long as the task, the file or the link say, where they say it. -/
def totalBytes (sizeKnown : Bool) : ℕ := if sizeKnown then source.length else 0

/-- `openCrossTransferTempFile`. -/
def openCrossTransferTempFile (resume : Bool) : File UInt8 :=
  match d.file with
  | none => { data := [] }
  | some file => if resume then file else file.truncate 0 0

def resolved (sizeKnown : Bool) (existing : ℕ) (link : DownloadInfo) : Download :=
  let total := totalBytes source sizeKnown
  let existing := if total > 0 ∧ existing > total then 0 else existing
  if total > 0 ∧ existing = total then { d with main := .removing }
  else
    let resumed := total > 0 ∧ existing > 0
    { d with
      file := some (d.openCrossTransferTempFile resumed)
      downloaded := existing
      main := if resumed then .truncating existing link
        else if total > 0 then .syncing existing (.start link) else .copying }

/-- What follows on `saveCrossTransferCheckpoint`. -/
def saved (offset : ℕ) : Saving → Bool → Download
  | .start link, true =>
    let d := { d with saver := newTransferCheckpoint offset }
    match Span.ofArgs true link source.length offset (source.length - 1) with
    | some s => { d with main := .downloading s (downloadOriginal s) }
    | none => { d with main := .stopping offset (some .other) }
  | .start _, false => { d with main := .cutting offset (some .other) }
  | .tail (some .invalidRange), true => { d with main := .recreating }
  | .tail (some _), true => { d with main := .idle }
  | .tail none, true | .copied false, true =>
    { d with main := if d.downloaded > 0 ∧ d.downloaded = source.length then .completing else .idle }
  | .tail _, false => { d with main := .idle }
  | .fallback, true => { d with main := .recopying }
  | .fallback, false => { d with main := .syncing d.downloaded (.copied true) }
  | .copied true, true => { d with main := .idle }
  | .copied _, false => { d with main := .idle }

/-- The next call succeeds. -/
def done : Option Download :=
  match d.main with
  | .truncating existing link => some
    { d with file := d.file.map (File.truncate · 0 existing), main := .seeking existing link }
  | .seeking existing link => some { d with main := .syncing existing (.start link) }
  | .syncing offset why => some
    { d with file := d.file.map fun file => file.sync file.past.length, main := .replacing offset why }
  | .replacing offset why => some
    (saved source { d with checkpoint := some (some offset) } offset why true)
  | .stopping pfx err => match d.saver.flush with
    | .waiting => some { d with main := .cutting pfx err }
    | _ => none
  | .cutting pfx err => some
    { d with file := d.file.map (File.truncate · 0 pfx), main := .syncing pfx (.tail err) }
  | .recreating => some
    { d with
      file := some (d.openCrossTransferTempFile false)
      downloaded := 0
      main := .syncing 0 .fallback }
  | .recopying => some { d with main := .syncing d.downloaded (.copied false) }
  | .copying => some { d with main := if d.downloaded > 0 then .completing else .idle }
  | .completing => some
    { d with file := d.file.map fun file => file.sync file.past.length, main := .removing }
  | .removing => some { d with checkpoint := none, main := .idle }
  | _ => none

/-- The next call fails. -/
def failed : Option Download :=
  match d.main with
  | .resolving .. | .truncating .. | .seeking .. | .cutting .. | .recreating | .copying
  | .completing | .removing => some { d with main := .idle }
  | .syncing offset why | .replacing offset why => some (saved source d offset why false)
  | .recopying => some { d with main := .syncing d.downloaded (.copied true) }
  | _ => none

/-- `CopyOriginalFull` writes the next bytes of the source. -/
def copied (n : ℕ) : Option Download :=
  match d.main with
  | .recopying | .copying =>
    if d.downloaded + n ≤ source.length then
      some
        { d with
          file := d.file.map (File.writeAt · 0 d.downloaded ((source.drop d.downloaded).take n))
          downloaded := d.downloaded + n }
    else none
  | _ => none

/-- What the workers of `DownloadOriginal` do to the file, what they report and what it returns. -/
def see : Playback.Event → Download
  | .wrote _ position offset n =>
    { d with file := d.file.map (File.writeAt · 0 offset ((source.drop position).take n)) }
  | .progressed n contiguous =>
    { d with downloaded := d.downloaded + n, saver := d.saver.update contiguous }
  | .returned pfx err => { d with main := .stopping pfx err }

def transfer (a : Action Playback.Outcome Unit) : Option Download :=
  match d.main with
  | .downloading s pool => ((Playback.system s).step pool a).map fun next =>
    (next.trace.drop pool.trace.length).foldl (see source) { d with main := .downloading s next }
  | _ => none

/-- The ticker of the goroutine that saves the checkpoint. -/
def tick : Option Download :=
  match d.main, d.saver.flush, d.file with
  | .downloading .., .waiting, some file | .stopping .., .waiting, some file => some <|
    if d.saver.offset ≤ d.saver.savedAt then d
    else { d with saver.flush := .syncing d.saver.offset file.past.length }
  | _, _, _ => none

def flushed (ok : Bool) : Option Download :=
  match d.saver.flush with
  | .waiting => none
  | .syncing offset mark => some <|
    if ok then
      { d with file := d.file.map (File.sync · mark), saver.flush := .replacing offset }
    else { d with saver.flush := .waiting }
  | .replacing offset => some <|
    if ok then
      { d with
        checkpoint := some (some offset)
        saver.savedAt := max d.saver.savedAt offset
        saver.flush := .waiting }
    else { d with saver.flush := .waiting }

/-- What a crash may leave of the local file. -/
def Leaves (data : Option (List UInt8)) : Prop :=
  match d.file, data with
  | none, none => True
  | some file, some data => file.Survives data
  | _, _ => False

instance (data : Option (List UInt8)) : Decidable (d.Leaves data) := by
  unfold Leaves
  split <;> infer_instance

def act : Act → Option Download
  | .execute sizeKnown => match d.main with
    | .idle =>
      let total := totalBytes source sizeKnown
      let existing := crossTransferResumeOffset (d.file.map File.data) d.checkpoint
      some { d with main := .resolving sizeKnown (if total > 0 ∧ existing ≤ total then existing else 0) }
    | _ => none
  | .resolved sizeKnown link => match d.main with
    | .resolving known existing => some (d.resolved source (known || sizeKnown) existing link)
    | _ => none
  | .done => d.done source
  | .failed => d.failed source
  | .copied n => d.copied source n
  | .transfer a => d.transfer source a
  | .tick => d.tick
  | .flushed ok => d.flushed ok
  | .crash data =>
    if d.Leaves data then
      some { file := data.map fun data => { data }, checkpoint := d.checkpoint }
    else none

end Download

/-- The process and its disk, where all that happens is an event. -/
def system (source : List UInt8) : System Download Empty Unit Unit Act where
  resume := fun _ t _ => nomatch t
  event := fun d a => (d.act source a).map fun next => { shared := next }

/-- There is no local file yet. -/
def fresh : Pool Download Empty Unit := { shared := {} }

end AllInOneBackup.LitePan.Upload.Checkpoint
