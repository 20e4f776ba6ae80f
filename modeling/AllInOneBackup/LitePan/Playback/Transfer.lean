import AllInOneBackup.Concurrency.Pool
import Mathlib.Algebra.Order.Ring.Int
import Mathlib.Logic.Function.Basic
import Mathlib.Tactic.Linarith

/-! `DownloadOriginal`: workers take the parts of a range one after the other and write what they
receive at its own offset, and a report of every write merges the parts that are complete into a
prefix. Sections under `mu`, calls of `WriteAt` and requests are turns of their own. -/

namespace AllInOneBackup.LitePan.Playback

open Concurrency

/-! ### The range and its parts -/

/-- What a link says about its transfer. -/
structure DownloadInfo where
  chunkSize : ℤ
  concurrency : ℤ
  transferChunkSize : ℤ
  transferConcurrency : ℤ
  size : ℤ

def defaultPartSize : ℤ := 8 * 2 ^ 20

def maximumRangeConcurrency : ℤ := 8

/-- The size of a part and the number of workers. -/
def transferSettings (link : DownloadInfo) : ℤ × ℤ :=
  let chunk := link.transferChunkSize
  let workers := link.transferConcurrency
  let chunk := if chunk ≤ 0 then link.chunkSize else chunk
  let chunk := if chunk ≤ 0 then defaultPartSize else chunk
  let workers := if workers ≤ 0 then max 1 link.concurrency else workers
  let workers := if workers > maximumRangeConcurrency then maximumRangeConcurrency else workers
  (chunk, workers)

theorem transferSettings_pos (link : DownloadInfo) :
    0 < (transferSettings link).1 ∧ 0 < (transferSettings link).2 := by
  simp only [transferSettings, defaultPartSize, maximumRangeConcurrency]
  constructor <;> split_ifs <;> omega

/-- A range that the source has, and how it is transferred. -/
structure Span where
  start : ℕ
  last : ℕ
  chunk : ℕ
  workers : ℕ
  start_le : start ≤ last
  chunk_pos : 0 < chunk
  workers_pos : 0 < workers

namespace Span

variable (s : Span)

def count : ℕ := (s.last - s.start) / s.chunk + 1

def partStart (i : ℕ) : ℕ := s.start + i * s.chunk

def partLength (i : ℕ) : ℕ := min s.chunk (s.last - s.partStart i + 1)

/-- The checks and settings at the beginning of `DownloadOriginal`; `present` says that the service,
the writer, the account, the file and the link are given. -/
def ofArgs (present : Bool) (link : DownloadInfo) (fileSize start last : ℤ) : Option Span :=
  if h : present ∧ 0 ≤ start ∧ start ≤ last then
    let size := if fileSize ≤ 0 then link.size else fileSize
    let size := if size ≤ 0 then last + 1 else size
    if last ≥ size then none
    else
      let settings := transferSettings link
      let count := (last - start) / settings.1 + 1
      some
        { start := start.toNat
          last := last.toNat
          chunk := settings.1.toNat
          workers := (if settings.2 > count then count else settings.2).toNat
          start_le := Int.toNat_le_toNat h.2.2
          chunk_pos := Int.lt_toNat.mpr (transferSettings_pos link).1
          workers_pos := by
            have hpos := transferSettings_pos link
            have hcount : 0 ≤ (last - start) / settings.1 := Int.ediv_nonneg (by omega) hpos.1.le
            refine Int.lt_toNat.mpr ?_
            split_ifs
            · exact Int.lt_add_one_iff.mpr hcount
            · exact hpos.2 }
  else none

variable {s}

theorem lt_count {pos : ℕ} (h : pos ≤ s.last) : (pos - s.start) / s.chunk < s.count :=
  Nat.lt_succ_of_le (Nat.div_le_div_right (by omega))

/-- The part in which a position lies begins at the latest there. -/
theorem partStart_le {pos : ℕ} (h : s.start ≤ pos) :
    s.partStart ((pos - s.start) / s.chunk) ≤ pos := by
  have hle := Nat.div_mul_le_self (pos - s.start) s.chunk
  rw [partStart]
  omega

theorem partStart_le_last {i : ℕ} (h : i < s.count) : s.partStart i ≤ s.last := by
  have hle : i * s.chunk ≤ s.last - s.start :=
    (Nat.mul_le_mul_right _ (Nat.le_of_lt_succ h)).trans (Nat.div_mul_le_self _ _)
  have hstart := s.start_le
  rw [partStart]
  omega

/-- A position lies before the end of its part. -/
theorem lt_partEnd {pos : ℕ} (h : pos ≤ s.last) :
    pos < s.partStart ((pos - s.start) / s.chunk) +
      s.partLength ((pos - s.start) / s.chunk) := by
  have hlt : pos - s.start < ((pos - s.start) / s.chunk + 1) * s.chunk := by
    rw [Nat.mul_comm]
    exact Nat.lt_mul_div_succ _ s.chunk_pos
  rw [Nat.add_mul, Nat.one_mul] at hlt
  have hle := partStart_le_last (lt_count h)
  simp only [partLength, partStart] at hle ⊢
  omega

end Span

/-! ### The shared state -/

inductive TransferError
  | ctx
  | invalidRange
  | other
  deriving DecidableEq

/-- The variables of `DownloadOriginal`; `written` has what is reported of the parts that the prefix
has not absorbed, and `ctxErr` is the context of the caller. -/
structure Transfer where
  next : ℕ := 0
  pfx : ℕ
  written : ℕ → ℕ := fun _ => 0
  firstErr : Option TransferError := none
  cancelled : Bool := false
  ctxErr : Bool := false
  wg : ℕ

/-- The loop of `report`. -/
def Span.merge (s : Span) (pfx : ℕ) (written : ℕ → ℕ) : ℕ × (ℕ → ℕ) :=
  if _h : pfx ≤ s.last then
    let i := (pfx - s.start) / s.chunk
    if _h' : written i < s.partLength i then (s.partStart i + written i, written)
    else s.merge (s.partStart i + written i) (Function.update written i 0)
  else (pfx, written)
termination_by s.last + 1 - pfx
decreasing_by
  have hlt := s.lt_partEnd _h
  have hle := Nat.le_of_not_lt _h'
  exact Nat.sub_lt_sub_left (Nat.lt_succ_of_le _h) (Nat.lt_of_lt_of_le hlt (Nat.add_le_add_left hle _))

/-- `report`, but for the call of `progress`. -/
def Transfer.report (t : Transfer) (s : Span) (index n : ℕ) : Transfer :=
  let (pfx, written) := s.merge t.pfx (Function.update t.written index (t.written index + n))
  { t with pfx, written }

/-! ### Workers -/

/-- Where a worker stands: at the top of its loop; with a part; in an attempt of `downloadTransferPart` before
there is a response; in `CopyBuffer`, with `offset` the writer's and `source` the position up to
which the body has been read; in `Write` behind the call of `WriteAt`; with an error to be kept; and
on its way out. `joining` is `DownloadOriginal` itself. -/
inductive Goroutine
  | idle
  | claimed (index : ℕ)
  | attempting (index attempt offset : ℕ)
  | copying (index attempt offset source : ℕ)
  | reporting (index attempt offset source n : ℕ) (err : Option TransferError)
  | failing (index offset : ℕ) (err : TransferError)
  | cancelling
  | leaving
  | exited
  | joining
  | returned

/-- How requests, reads, writes and calls of `progress` end. `refreshed` is a new link after a
status of the old one; `retry` a failed request, or a status that allows another attempt. A write is
given by the bytes that `Read` returned, those of them that were written, and whether `WriteAt`
returned an error. -/
inductive Outcome
  | turn
  | failed (err : TransferError)
  | refreshed
  | retry
  | responded
  | write (read written : ℕ) (err : Bool)
  | bodyEnded
  deriving DecidableEq

/-- An observer sees which bytes of the source are written at which offset of the file, what is
reported and what is returned. -/
inductive Event
  | wrote (index source offset n : ℕ)
  | progressed (n pfx : ℕ)
  | returned (pfx : ℕ) (err : Option TransferError)

abbrev TransferTurn := Turn Transfer Goroutine Event

abbrev TransferPool := Pool Transfer Goroutine Event

def transferRetries : ℕ := 5

/-- `continue` in the loop of `downloadTransferPart`. -/
def nextAttempt (index attempt offset : ℕ) : Goroutine :=
  if attempt + 1 < transferRetries then .attempting index (attempt + 1) offset
  else .failing index offset .other

def resume (s : Span) (t : Transfer) : Goroutine → Outcome → Option TransferTurn
  | .idle, .turn => some
    { shared := { t with next := t.next + 1 }, task := .claimed t.next }
  | .claimed index, .turn => some
    { shared := t
      task := if index ≥ s.count ∨ t.ctxErr ∨ t.cancelled then .leaving
        else .attempting index 0 (s.partStart index) }
  | .attempting index _ offset, .failed err => some { shared := t, task := .failing index offset err }
  | .attempting index attempt offset, .refreshed =>
    some { shared := t, task := .attempting index attempt offset }
  | .attempting index attempt offset, .retry =>
    some { shared := t, task := nextAttempt index attempt offset }
  | .attempting index attempt offset, .responded =>
    some { shared := t, task := .copying index attempt offset offset }
  | .copying index attempt offset source, .write read written err =>
    if 0 < read ∧ source + read ≤ s.partStart index + s.partLength index ∧ written ≤ read then
      let err := if err ∨ written ≠ read then some .other else none
      some <| if written > 0 then
          { shared := t
            task := .reporting index attempt (offset + written) (source + read) written err
            seen := [.wrote index source offset written] }
        else { shared := t, task := .failing index offset .other }
    else none
  | .copying index attempt offset _, .bodyEnded => some
    { shared := t
      task := if offset = s.partStart index + s.partLength index then .idle
        else nextAttempt index attempt offset }
  | .reporting index attempt offset source n err, .turn =>
    let t := t.report s index n
    some
      { shared := t
        task := match err with
          | none => .copying index attempt offset source
          | some err => .failing index offset err
        seen := [.progressed n t.pfx] }
  | .reporting index _ offset _ n err, .failed progressErr =>
    let t := t.report s index n
    some
      { shared := t
        task := .failing index offset (err.getD progressErr)
        seen := [.progressed n t.pfx] }
  | .failing _ _ err, .turn => some
    { shared := { t with firstErr := some (t.firstErr.getD err) }, task := .cancelling }
  | .cancelling, .turn => some { shared := { t with cancelled := true }, task := .leaving }
  | .leaving, .turn => some { shared := { t with wg := t.wg - 1 }, task := .exited }
  | .joining, .turn =>
    if t.wg = 0 then some
      { shared := t
        task := .returned
        seen := [.returned t.pfx (if t.ctxErr then some .ctx else t.firstErr)] }
    else none
  | _, _ => none

/-- The context of the caller is done. -/
def event (t : Transfer) : Unit → Option (Effect Transfer Goroutine Event)
  | () => some { shared := { t with ctxErr := true } }

def system (s : Span) : System Transfer Goroutine Event Outcome Unit := ⟨resume s, event⟩

/-- `DownloadOriginal` after it has started its workers. -/
def downloadOriginal (s : Span) : TransferPool where
  shared := { pfx := s.start, wg := s.workers }
  tasks := .joining :: List.replicate s.workers .idle

end AllInOneBackup.LitePan.Playback
