import AllInOneBackup.Concurrency.Pool
import AllInOneBackup.LitePan.Playback.RangePipe

/-! `fetchWindow`. The workers write bytes of the file to where they belong, so what is once right
stays right, and a part that no worker reads any more is right unless something failed. -/

namespace AllInOneBackup.LitePan.Playback.WindowReader

open Concurrency Data RangePipe

variable {β : Type*}

/-! ### `remote_window_reader.go`: ranges -/

/-- A reader of a file of known size. -/
structure Config where
  size : ℕ
  partSize : ℕ
  concurrency : ℕ
  windowSize : ℕ
  size_pos : 0 < size
  part_pos : 0 < partSize
  window_pos : 0 < windowSize

def defaultRemotePartSize : ℤ := 4 * 2 ^ 20

def defaultRemoteWindowSize : ℤ := 8 * 2 ^ 20

def maximumRemoteWindowSize : ℤ := 32 * 2 ^ 20

def remoteSequentialGap : ℤ := 2 ^ 20

def maximumRangeConcurrency : ℤ := 8

/-- The part size. -/
def remotePartSize (chunkSize : ℤ) : ℤ :=
  let partSize := if chunkSize ≤ 0 then defaultRemotePartSize else chunkSize
  if partSize > maximumRemoteWindowSize then maximumRemoteWindowSize else partSize

def remoteConcurrency (concurrency : ℤ) : ℤ :=
  let concurrency := if concurrency ≤ 0 then 1 else concurrency
  if concurrency > maximumRangeConcurrency then maximumRangeConcurrency else concurrency

def remoteWindowSize (partSize concurrency : ℤ) : ℤ :=
  let windowSize := partSize * concurrency
  let windowSize := if windowSize < defaultRemoteWindowSize then defaultRemoteWindowSize else windowSize
  if windowSize > maximumRemoteWindowSize then maximumRemoteWindowSize else windowSize

theorem remotePartSize_pos (chunkSize : ℤ) : 0 < remotePartSize chunkSize := by
  simp only [remotePartSize, defaultRemotePartSize, maximumRemoteWindowSize]
  split_ifs <;> omega

theorem remoteWindowSize_pos (partSize concurrency : ℤ) :
    0 < remoteWindowSize partSize concurrency := by
  simp only [remoteWindowSize, defaultRemoteWindowSize, maximumRemoteWindowSize]
  split_ifs <;> omega

/-- The part size, the concurrency and the window size, from what the driver says of the link. -/
def newRemoteWindowReader (chunkSize concurrency : ℤ) (size : ℕ) (h : 0 < size) : Config where
  size
  partSize := (remotePartSize chunkSize).toNat
  concurrency := (remoteConcurrency concurrency).toNat
  windowSize := (remoteWindowSize (remotePartSize chunkSize) (remoteConcurrency concurrency)).toNat
  size_pos := h
  part_pos := Int.pos_iff_toNat_pos.mp (remotePartSize_pos chunkSize)
  window_pos := Int.pos_iff_toNat_pos.mp (remoteWindowSize_pos _ _)

inductive ReadError
  | eof
  | unexpectedEOF
  | noProgress
  | negativeOffset
  | request
  | refresh
  | unauthorized
  | status (status : ℕ)
  | rangeStart
  | body
  | context
  deriving DecidableEq

/-- `io.ReadFull`, into `n` bytes. -/
def readFull (body : Body β) (n : ℕ) : List β × Option ReadError :=
  let data := body.bytes.take n
  if data.length = n then (data, none)
  else if body.failed then (data, some .body)
  else if data.length = 0 then (data, some .eof)
  else (data, some .unexpectedEOF)

/-- The body of the loop of `readRangeOnce`; `none` where the link is refreshed. -/
def readRangeTry (c : Config) (off n : ℕ) (t : Try β) : Option (List β × Option ReadError) :=
  match t.response with
  | none => some ([], some .request)
  | some resp =>
    if resp.status = 401 ∨ resp.status = 403 then
      match t.refreshed with
      | none => some ([], some .refresh)
      | some false => some ([], some .unauthorized)
      | some true => none
    else
      let validFullResponse : Bool := resp.status = 200 ∧ off = 0 ∧ c.size = n
      if resp.status ≠ 206 ∧ ¬validFullResponse then some ([], some (.status resp.status))
      else if resp.status = 206 ∧ resp.rangeStart.any (· ≠ (off : ℤ)) then some ([], some .rangeStart)
      else some (readFull resp.body n)

/-- What goes into the `n` bytes of `dest`, and the error. -/
def readRangeOnce (c : Config) (off n : ℕ) (tries : Try β × Try β) : List β × Option ReadError :=
  if n = 0 then ([], none)
  else
    ((readRangeTry c off n tries.1).or (readRangeTry c off n tries.2)).getD ([], some .unauthorized)

/-- What a call of `readRangeOnce` meets, and whether `ctx` is done after it. -/
structure Once (β : Type*) where
  tries : Try β × Try β
  ctxDone : Bool := false
  deriving DecidableEq

def readRangeInto (c : Config) (off n : ℕ) (first second : Once β) : List β × Option ReadError :=
  if n = 0 then ([], none)
  else
    let one := readRangeOnce c off n first.tries
    if one.1.length = n then (one.1, none)
    else if first.ctxDone then (one.1, some .context)
    else
      let two := readRangeOnce c (off + one.1.length) (n - one.1.length) second.tries
      let data := one.1 ++ two.1
      if data.length = n then (data, none)
      else if second.ctxDone then (data, some .context)
      else (data, some (two.2.getD .noProgress))

/-- The upstream has the file, at each of the two places that are read from. -/
def Honest (content : List β) (c : Config) (off n : ℕ) (first second : Once β) : Prop :=
  (first.tries.1.Honest content off ∧ first.tries.2.Honest content off) ∧
    let off' := off + (readRangeOnce c off n first.tries).1.length
    second.tries.1.Honest content off' ∧ second.tries.2.Honest content off'

section Ranges

variable {content : List β} {c : Config} {off n : ℕ}

/-- What is read are bytes of the file, all of them where there is no error. -/
structure Reads (content : List β) (off n : ℕ) (r : List β × Option ReadError) : Prop where
  isPrefix : r.1 <+: content.drop off
  length_le : r.1.length ≤ n
  complete : r.2 = none → r.1.length = n

theorem reads_error (err : ReadError) : Reads content off n ([], some err) :=
  ⟨List.nil_prefix, Nat.zero_le _, by simp⟩

theorem readFull_spec {body : Body β} (h : body.bytes <+: content.drop off) :
    Reads content off n (readFull body n) := by
  have hpre : body.bytes.take n <+: content.drop off := (List.take_prefix _ _).trans h
  have hlength : (body.bytes.take n).length ≤ n := by simp
  unfold readFull
  simp only
  split_ifs with hn
  · exact ⟨hpre, hlength, fun _ => hn⟩
  · exact ⟨hpre, hlength, by simp⟩
  · exact ⟨hpre, hlength, by simp⟩
  · exact ⟨hpre, hlength, by simp⟩

theorem readRangeTry_spec {t : Try β} (ht : t.Honest content off) {r : List β × Option ReadError}
    (h : readRangeTry c off n t = some r) : Reads content off n r := by
  unfold readRangeTry at h
  cases hresp : t.response with
  | none =>
    simp only [hresp] at h
    obtain rfl := Option.some.inj h
    exact reads_error _
  | some resp =>
    have hbody := ht resp hresp
    simp only [hresp] at h
    split_ifs at h with hauth hinvalid hstart
    · cases hrefresh : t.refreshed with
      | none =>
        rw [hrefresh] at h
        obtain rfl := Option.some.inj h
        exact reads_error _
      | some refreshed =>
        rw [hrefresh] at h
        cases refreshed with
        | false =>
          obtain rfl := Option.some.inj h
          exact reads_error _
        | true => cases h
    · obtain rfl := Option.some.inj h
      exact reads_error _
    · obtain rfl := Option.some.inj h
      exact reads_error _
    · obtain rfl := Option.some.inj h
      refine readFull_spec (hbody ?_)
      by_cases h206 : resp.status = 206
      · refine .inl ⟨h206, ?_⟩
        cases hr : resp.rangeStart with
        | none => rfl
        | some k => simpa [h206, hr] using hstart
      · have hvalid : resp.status = 200 ∧ off = 0 ∧ c.size = n := by
          by_contra hnot
          exact hinvalid ⟨h206, fun hfull => hnot (of_decide_eq_true hfull)⟩
        exact .inr ⟨hvalid.1, by rw [hvalid.2.1]; rfl⟩

theorem readRangeOnce_spec {tries : Try β × Try β}
    (h : tries.1.Honest content off ∧ tries.2.Honest content off) :
    Reads content off n (readRangeOnce c off n tries) := by
  unfold readRangeOnce
  split_ifs with hn
  · exact ⟨List.nil_prefix, Nat.zero_le _, fun _ => hn.symm⟩
  · cases hone : readRangeTry c off n tries.1 with
    | some r => exact readRangeTry_spec h.1 hone
    | none =>
      cases htwo : readRangeTry c off n tries.2 with
      | some r => exact readRangeTry_spec h.2 htwo
      | none => exact reads_error _

theorem readRangeInto_spec {first second : Once β} (h : Honest content c off n first second) :
    Reads content off n (readRangeInto c off n first second) := by
  have hone := readRangeOnce_spec (c := c) (n := n) h.1
  have htwo := readRangeOnce_spec (c := c)
    (n := n - (readRangeOnce c off n first.tries).1.length) h.2
  unfold readRangeInto
  simp only
  generalize readRangeOnce c off n first.tries = one at hone htwo ⊢
  generalize readRangeOnce c (off + one.1.length) (n - one.1.length) second.tries = two at htwo ⊢
  have hpre : one.1 ++ two.1 <+: content.drop off := by
    rw [← append_drop_of_isPrefix hone.isPrefix]
    exact (List.prefix_append_right_inj _).mpr htwo.isPrefix
  have hlength : (one.1 ++ two.1).length ≤ n := by
    have hle := hone.length_le
    have hle' := htwo.length_le
    rw [List.length_append]
    omega
  split_ifs with hn hall hctx hboth hctx'
  · exact ⟨List.nil_prefix, Nat.zero_le _, fun _ => hn.symm⟩
  · exact ⟨hone.isPrefix, hone.length_le, fun _ => hall⟩
  · exact ⟨hone.isPrefix, hone.length_le, by simp⟩
  · exact ⟨hpre, hlength, fun _ => hboth⟩
  · exact ⟨hpre, hlength, by simp⟩
  · exact ⟨hpre, hlength, by simp⟩

end Ranges

/-! ### `remote_window_reader.go`: windows -/

/-- A worker of `fetchWindow`: at its `select`, in `readRangeInto`, or at its end. -/
inductive Worker
  | selecting
  | reading (index : ℕ)
  | exited
  deriving DecidableEq

/-- Where `fetchWindow` is: at its `select`, in `wg.Wait`, or at its end. -/
inductive Main (β : Type*)
  | sending (index : ℕ)
  | waiting
  | returned (r : Except ReadError (List β))

/-- `running` is the counter of `wg`, `cancelled` that `cancel` has been called, and `ctxDone` that
`ctx` is done. The channel is closed where `fetchWindow` waits. -/
structure Shared (β : Type*) where
  main : Main β := .sending 0
  data : List β
  firstErr : Option ReadError := none
  running : ℕ
  cancelled : Bool := false
  ctxDone : Bool := false

abbrev FetchTurn (β : Type*) := Turn (Shared β) Worker Unit

abbrev FetchEffect (β : Type*) := Effect (Shared β) Worker Unit

abbrev Fetch (β : Type*) := Pool (Shared β) Worker Unit

def partCount (c : Config) (length : ℕ) : ℕ := (length + c.partSize - 1) / c.partSize

def partBegin (c : Config) (i : ℕ) : ℕ := i * c.partSize

def partEnd (c : Config) (length i : ℕ) : ℕ := min (partBegin c i + c.partSize) length

inductive WorkerOutcome (β : Type*)
  | received
  | stopped
  | closed
  | read (first second : Once β)

section Fetch

variable (c : Config) (off length : ℕ)

def exit (sh : Shared β) : FetchTurn β :=
  { shared := { sh with running := sh.running - 1 }, task := .exited }

def readPart (i : ℕ) (first second : Once β) : List β × Option ReadError :=
  readRangeInto c (off + partBegin c i) (partEnd c length i - partBegin c i) first second

def workerTurn (sh : Shared β) : Worker → WorkerOutcome β → Option (FetchTurn β)
  | .selecting, .received =>
    -- The channel has no buffer: the two `select`s meet.
    match sh.main with
    | .sending i =>
      if i < partCount c length then
        some { shared := { sh with main := .sending (i + 1) }, task := .reading i }
      else none
    | _ => none
  | .selecting, .stopped => if sh.cancelled ∨ sh.ctxDone then some (exit sh) else none
  | .selecting, .closed =>
    match sh.main with
    | .waiting => some (exit sh)
    | _ => none
  | .reading i, .read first second =>
    let r := readPart c off length i first second
    let sh := { sh with data := splice sh.data (partBegin c i) r.1 }
    match r.2 with
    | none => some { shared := sh, task := .selecting }
    | some err =>
      if sh.firstErr = none then some (exit { sh with firstErr := some err, cancelled := true })
      else some (exit sh)
  | _, _ => none

/-- A turn of `fetchWindow`, or the end of `ctx`. -/
inductive FetchEvent
  | stop
  | close
  | finish
  | ctxDone

def event (sh : Shared β) : FetchEvent → Option (FetchEffect β)
  | .stop =>
    match sh.main with
    | .sending i =>
      if i < partCount c length ∧ (sh.cancelled ∨ sh.ctxDone) then
        some { shared := { sh with main := .waiting } }
      else none
    | _ => none
  | .close =>
    match sh.main with
    | .sending i =>
      if partCount c length ≤ i then some { shared := { sh with main := .waiting } } else none
    | _ => none
  | .finish =>
    match sh.main with
    | .waiting =>
      if sh.running = 0 then
        match sh.firstErr with
        | some err => some { shared := { sh with main := .returned (.error err) } }
        | none =>
          if sh.ctxDone then some { shared := { sh with main := .returned (.error .context) } }
          else some { shared := { sh with main := .returned (.ok sh.data) } }
      else none
    | _ => none
  | .ctxDone => some { shared := { sh with ctxDone := true } }

def system : System (Shared β) Worker Unit (WorkerOutcome β) FetchEvent :=
  ⟨workerTurn c off length, event c length⟩

/-- The call, up to the first `select`, with `workers` workers. -/
def startFetch [Inhabited β] (workers : ℕ) : Fetch β :=
  { shared := { data := List.replicate length default, running := workers }
    tasks := List.replicate workers .selecting }

/-- What a worker reads is asked of an honest upstream. -/
def HonestStep (content : List β) (p : Fetch β) : Action (WorkerOutcome β) FetchEvent → Prop
  | .resume k (.read first second) => ∀ i, p.tasks[k]? = some (.reading i) →
      Honest content c (off + partBegin c i) (partEnd c length i - partBegin c i) first second
  | _ => True

/-- What `fetchWindow` may return. -/
def Fetches [Inhabited β] (content : List β) (r : Except ReadError (List β)) : Prop :=
  if length = 0 then r = .ok []
  else if min c.concurrency (partCount c length) ≤ 1 then
    ∃ first second, Honest content c off length first second ∧
      r = match readRangeInto c off length first second with
        | (data, none) => .ok data
        | (_, some err) => .error err
  else
    ∃ actions q, (system c off length).run
        (startFetch length (min c.concurrency (partCount c length))) actions = some q ∧
      (system c off length).Along (HonestStep c off length content)
        (startFetch length (min c.concurrency (partCount c length))) actions ∧
      q.shared.main = .returned r

end Fetch

/-! ### Windows of the file -/

section Turns

variable {c : Config} {off length : ℕ} {sh : Shared β}

/-- All that a turn of a worker can be. -/
theorem workerTurn_cases {t : Worker} {o : WorkerOutcome β} {r : FetchTurn β}
    (h : workerTurn c off length sh t o = some r) :
    (∃ i, t = .selecting ∧ sh.main = .sending i ∧ i < partCount c length ∧
      r = { shared := { sh with main := .sending (i + 1) }, task := .reading i }) ∨
    (t = .selecting ∧ r = exit sh) ∨
    (∃ i first second, t = .reading i ∧ o = .read first second ∧
      (readPart c off length i first second).2 = none ∧
      r = { shared := { sh with
              data := splice sh.data (partBegin c i) (readPart c off length i first second).1 }
            task := .selecting }) ∨
    (∃ i first second sh', t = .reading i ∧ o = .read first second ∧ r = exit sh' ∧
      sh'.main = sh.main ∧ sh'.running = sh.running ∧ sh'.firstErr ≠ none ∧
      sh'.data = splice sh.data (partBegin c i) (readPart c off length i first second).1) := by
  unfold workerTurn at h
  split at h
  · split at h
    · split_ifs at h with hi
      exact .inl ⟨_, rfl, by assumption, hi, (Option.some.inj h).symm⟩
    · cases h
  · split_ifs at h
    exact .inr (.inl ⟨rfl, (Option.some.inj h).symm⟩)
  · split at h
    · exact .inr (.inl ⟨rfl, (Option.some.inj h).symm⟩)
    · cases h
  · simp only at h
    split at h
    · exact .inr (.inr (.inl ⟨_, _, _, rfl, rfl, by assumption, (Option.some.inj h).symm⟩))
    · split_ifs at h with hfirst
      · exact .inr (.inr (.inr ⟨_, _, _, _, rfl, rfl, (Option.some.inj h).symm, rfl, rfl, by simp, rfl⟩))
      · exact .inr (.inr (.inr ⟨_, _, _, _, rfl, rfl, (Option.some.inj h).symm, rfl, rfl, hfirst, rfl⟩))
  · cases h

/-- All that a turn of the function, or the end of the context, can be. -/
theorem event_cases {e : FetchEvent} {r : FetchEffect β} (h : event c length sh e = some r) :
    (∃ i, sh.main = .sending i ∧ (partCount c length ≤ i ∨ sh.cancelled ∨ sh.ctxDone) ∧
      r = { shared := { sh with main := .waiting } }) ∨
    (∃ err, sh.main = .waiting ∧ r = { shared := { sh with main := .returned (.error err) } }) ∨
    (sh.main = .waiting ∧ sh.running = 0 ∧ sh.firstErr = none ∧ sh.ctxDone = false ∧
      r = { shared := { sh with main := .returned (.ok sh.data) } }) ∨
    r = { shared := { sh with ctxDone := true } } := by
  unfold event at h
  split at h
  · split at h
    · split_ifs at h with hstop
      exact .inl ⟨_, by assumption, .inr hstop.2, (Option.some.inj h).symm⟩
    · cases h
  · split at h
    · split_ifs at h with hclose
      exact .inl ⟨_, by assumption, .inl hclose, (Option.some.inj h).symm⟩
    · cases h
  · split at h
    · rw [Option.ite_none_right_eq_some] at h
      obtain ⟨hrunning, h⟩ := h
      split at h
      · exact .inr (.inl ⟨_, by assumption, (Option.some.inj h).symm⟩)
      · split_ifs at h with hctx
        · exact .inr (.inl ⟨_, by assumption, (Option.some.inj h).symm⟩)
        · exact .inr (.inr (.inl ⟨by assumption, hrunning, by assumption, by simpa using hctx,
            (Option.some.inj h).symm⟩))
    · cases h
  · exact .inr (.inr (.inr (Option.some.inj h).symm))

end Turns

def Worker.active : Worker → Bool
  | .exited => false
  | _ => true

/-- The byte is still to be sent to a worker, or a worker reads it. -/
def Pending (c : Config) (sh : Shared β) (ts : List Worker) (k : ℕ) : Prop :=
  (∃ i, sh.main = .sending i ∧ partBegin c i ≤ k) ∨
    ∃ i, .reading i ∈ ts ∧ partBegin c i ≤ k ∧ k < partBegin c i + c.partSize

/-- Unless something has failed, a byte that is not pending is the one of the file. -/
structure Inv (content : List β) (c : Config) (off length : ℕ) (sh : Shared β) (ts : List Worker) :
    Prop where
  filled : sh.data.length = length
  running : sh.running = ts.countP Worker.active
  reading : ∀ i, .reading i ∈ ts → partBegin c i < length
  blamed : sh.cancelled → sh.firstErr ≠ none
  right : sh.firstErr = none → sh.ctxDone = false → ∀ k < length,
    Pending c sh ts k ∨ sh.data[k]? = content[off + k]?
  returned : ∀ data, sh.main = .returned (.ok data) → data = slice content off length

section Windows

variable {content : List β} {c : Config} {off length : ℕ} {sh sh' : Shared β}
  {ts ts' others : List Worker}

theorem Inv.perm (h : Inv content c off length sh ts) (hp : ts.Perm ts') :
    Inv content c off length sh ts' := by
  have hmem : ∀ t, t ∈ ts' ↔ t ∈ ts := fun t => hp.mem_iff.symm
  refine ⟨h.filled, by rw [h.running, hp.countP_eq], ?_, h.blamed, ?_, h.returned⟩
  · simpa only [hmem] using h.reading
  · simpa only [Pending, hmem] using h.right

theorem partBegin_lt_iff (i : ℕ) : partBegin c i < length ↔ i < partCount c length := by
  have hpos := c.part_pos
  rw [partBegin, partCount, Nat.lt_iff_add_one_le (m := i), Nat.le_div_iff_mul_le hpos, Nat.add_mul,
    Nat.one_mul]
  omega

/-- A part of the file that is written leaves no byte of it wrong, and none of others. -/
theorem getElem?_readPart {i : ℕ} {first second : Once β} {k : ℕ} {data : List β}
    (hlength : data.length = length) (hi : partBegin c i < length)
    (hreads : Reads content (off + partBegin c i) (partEnd c length i - partBegin c i)
      (readPart c off length i first second)) :
    (splice data (partBegin c i) (readPart c off length i first second).1).length = length ∧
    ((splice data (partBegin c i) (readPart c off length i first second).1)[k]? = data[k]? ∨
      (splice data (partBegin c i) (readPart c off length i first second).1)[k]? =
        content[off + k]?) ∧
    ((readPart c off length i first second).2 = none → partBegin c i ≤ k →
      k < partEnd c length i →
      (splice data (partBegin c i) (readPart c off length i first second).1)[k]? =
        content[off + k]?) := by
  generalize readPart c off length i first second = r at hreads ⊢
  have hle := hreads.length_le
  have hpart : partEnd c length i ≤ length := Nat.min_le_right _ _
  have hfit : partBegin c i + r.1.length ≤ data.length := by omega
  have hbyte : partBegin c i ≤ k → k < partBegin c i + r.1.length →
      r.1[k - partBegin c i]? = content[off + k]? := by
    intro hlow hhigh
    rw [eq_slice_of_isPrefix hreads.isPrefix, getElem?_slice, if_pos (by omega)]
    congr 1
    omega
  refine ⟨(length_splice hfit).trans hlength, ?_, fun hnone hlow hhigh => ?_⟩
  · rw [getElem?_splice hfit]
    split_ifs with hk
    · exact .inr (hbyte hk.1 hk.2)
    · exact .inl rfl
  · have hall := hreads.complete hnone
    rw [getElem?_splice hfit, if_pos (by omega)]
    exact hbyte hlow (by omega)

/-- A worker leaves its `select` for its end. -/
theorem Inv.exit {t : Worker} (h : Inv content c off length sh (t :: others)) (ht : t.active)
    (hpending : ∀ i, t ≠ .reading i) :
    Inv content c off length (WindowReader.exit sh).shared (.exited :: others) := by
  have hrunning := h.running
  rw [List.countP_cons_of_pos ht] at hrunning
  have hexited : (Worker.exited :: others).countP Worker.active = others.countP Worker.active :=
    List.countP_cons_of_neg (by decide)
  refine ⟨h.filled, ?_, fun i hi => ?_, h.blamed, fun hfirst hctx k hk => ?_, h.returned⟩
  · rw [hexited]
    simp only [WindowReader.exit]
    omega
  · rcases List.mem_cons.mp hi with heq | hi
    · cases heq
    · exact h.reading i (List.mem_cons_of_mem _ hi)
  · rcases h.right hfirst hctx k hk with (hmain | ⟨i, hi, hbounds⟩) | hright
    · exact .inl (.inl hmain)
    · rcases List.mem_cons.mp hi with heq | hi
      · exact absurd heq.symm (hpending i)
      · exact .inl (.inr ⟨i, List.mem_cons_of_mem _ hi, hbounds⟩)
    · exact .inr hright

theorem Inv.received {i : ℕ} (h : Inv content c off length sh (.selecting :: others))
    (hmain : sh.main = .sending i) (hi : i < partCount c length) :
    Inv content c off length { sh with main := .sending (i + 1) } (.reading i :: others) := by
  have hcount : ∀ t : Worker, t.active → (t :: others).countP Worker.active =
      others.countP Worker.active + 1 := fun t ht => List.countP_cons_of_pos ht
  refine ⟨h.filled, ?_, fun j hj => ?_, h.blamed, fun hfirst hctx k hk => ?_, by simp⟩
  · rw [h.running, hcount _ rfl, hcount _ rfl]
  · rcases List.mem_cons.mp hj with heq | hj
    · rw [Worker.reading.inj heq, partBegin_lt_iff]
      exact hi
    · exact h.reading j (List.mem_cons_of_mem _ hj)
  · rcases h.right hfirst hctx k hk with (⟨j, hj, hk⟩ | ⟨j, hj, hbounds⟩) | hright
    · rw [hmain] at hj
      obtain rfl := Main.sending.inj hj
      by_cases hnext : partBegin c (i + 1) ≤ k
      · exact .inl (.inl ⟨i + 1, rfl, hnext⟩)
      · refine .inl (.inr ⟨i, List.mem_cons_self, hk, ?_⟩)
        rw [partBegin, Nat.add_mul, Nat.one_mul] at hnext
        rw [partBegin]
        omega
    · rcases List.mem_cons.mp hj with heq | hj
      · cases heq
      · exact .inl (.inr ⟨j, List.mem_cons_of_mem _ hj, hbounds⟩)
    · exact .inr hright

/-- A worker that has read its part goes back to its `select`. -/
theorem Inv.read {i : ℕ} {first second : Once β}
    (h : Inv content c off length sh (.reading i :: others))
    (hreads : Reads content (off + partBegin c i) (partEnd c length i - partBegin c i)
      (readPart c off length i first second))
    (hnone : (readPart c off length i first second).2 = none) :
    Inv content c off length
      { sh with data := splice sh.data (partBegin c i) (readPart c off length i first second).1 }
      (.selecting :: others) := by
  have hcount : ∀ t : Worker, t.active → (t :: others).countP Worker.active =
      others.countP Worker.active + 1 := fun t ht => List.countP_cons_of_pos ht
  have hbytes := fun k => getElem?_readPart (k := k) h.filled
    (h.reading i List.mem_cons_self) hreads
  have hstay : ∀ k, Pending c sh (.reading i :: others) k → ¬(partBegin c i ≤ k ∧
      k < partBegin c i + c.partSize) → Pending c sh (.selecting :: others) k := by
    intro k hpending hout
    rcases hpending with hmain | ⟨j, hj, hbounds⟩
    · exact .inl hmain
    · rcases List.mem_cons.mp hj with heq | hj
      · exact absurd (Worker.reading.inj heq ▸ hbounds) hout
      · exact .inr ⟨j, List.mem_cons_of_mem _ hj, hbounds⟩
  refine ⟨(hbytes 0).1, ?_, fun j hj => ?_, h.blamed, fun hfirst hctx k hk => ?_, h.returned⟩
  · rw [h.running, hcount _ rfl, hcount _ rfl]
  · rcases List.mem_cons.mp hj with heq | hj
    · cases heq
    · exact h.reading j (List.mem_cons_of_mem _ hj)
  · by_cases hin : partBegin c i ≤ k ∧ k < partBegin c i + c.partSize
    · exact .inr ((hbytes k).2.2 hnone hin.1 (lt_min hin.2 hk))
    · rcases h.right hfirst hctx k hk with hpending | hright
      · exact .inl (hstay k hpending hin)
      · rcases (hbytes k).2.1 with hsame | hfile
        · exact .inr (hsame.trans hright)
        · exact .inr hfile

/-- A worker that fails says so. -/
theorem Inv.failed {i : ℕ} {first second : Once β}
    (h : Inv content c off length sh (.reading i :: others))
    (hreads : Reads content (off + partBegin c i) (partEnd c length i - partBegin c i)
      (readPart c off length i first second)) (hmain : sh'.main = sh.main)
    (hrunning : sh'.running = sh.running) (hfirst : sh'.firstErr ≠ none)
    (hdata : sh'.data = splice sh.data (partBegin c i) (readPart c off length i first second).1) :
    Inv content c off length (WindowReader.exit sh').shared (.exited :: others) := by
  have hcount := h.running
  rw [List.countP_cons_of_pos rfl] at hcount
  have hexited : (Worker.exited :: others).countP Worker.active = others.countP Worker.active :=
    List.countP_cons_of_neg (by decide)
  have hbytes := (getElem?_readPart (k := 0) h.filled (h.reading i List.mem_cons_self) hreads).1
  refine ⟨?_, ?_, fun j hj => ?_, fun _ => hfirst, fun hnone => absurd hnone hfirst, ?_⟩
  · simp only [WindowReader.exit]
    rw [hdata]
    exact hbytes
  · rw [hexited]
    simp only [WindowReader.exit]
    omega
  · rcases List.mem_cons.mp hj with heq | hj
    · cases heq
    · exact h.reading j (List.mem_cons_of_mem _ hj)
  · simp only [WindowReader.exit, hmain]
    exact h.returned

/-- Every part has been sent, or something has failed. -/
theorem Inv.waiting {i : ℕ} (h : Inv content c off length sh ts) (hmain : sh.main = .sending i)
    (hend : partCount c length ≤ i ∨ sh.cancelled ∨ sh.ctxDone) :
    Inv content c off length { sh with main := .waiting } ts := by
  refine ⟨h.filled, h.running, h.reading, h.blamed, fun hfirst hctx k hk => ?_, by simp⟩
  rcases h.right hfirst hctx k hk with (⟨j, hj, hjk⟩ | hreading) | hright
  · exfalso
    rw [hmain] at hj
    obtain rfl := Main.sending.inj hj
    rcases hend with hend | hcancelled | hdone
    · have hlt := (partBegin_lt_iff i).mp (show partBegin c i < length by omega)
      omega
    · exact h.blamed hcancelled hfirst
    · simp only at hctx
      rw [hctx] at hdone
      cases hdone
  · exact .inl (.inr hreading)
  · exact .inr hright

/-- The window is complete where nothing has failed and no worker is left. -/
theorem Inv.complete (h : Inv content c off length sh ts) (hmain : sh.main = .waiting)
    (hrunning : sh.running = 0) (hfirst : sh.firstErr = none) (hctx : sh.ctxDone = false) :
    sh.data = slice content off length := by
  have hidle : ∀ t ∈ ts, ¬t.active := by
    have hcount := h.running
    rw [hrunning] at hcount
    exact List.countP_eq_zero.mp hcount.symm
  refine List.ext_getElem? fun k => ?_
  rw [getElem?_slice]
  split_ifs with hk
  · rcases h.right hfirst hctx k hk with (⟨i, hi, -⟩ | ⟨i, hi, -⟩) | hright
    · rw [hmain] at hi
      cases hi
    · exact absurd rfl (hidle _ hi)
    · exact hright
  · exact List.getElem?_eq_none (by rw [h.filled]; omega)

theorem Inv.step {p q : Fetch β} {a : Action (WorkerOutcome β) FetchEvent}
    (h : Inv content c off length p.shared p.tasks) (hok : HonestStep c off length content p a)
    (hs : (system c off length).step p a = some q) :
    Inv content c off length q.shared q.tasks := by
  obtain ⟨k, o, t, r, others, rfl, ht, hr, hshared, -, hp, hq⟩ | ⟨e, r, rfl, hr, hshared, -, hq⟩ :=
    System.step_perm hs
  · have hinv := h.perm hp
    have hreads : ∀ i first second, t = .reading i → o = .read first second →
        Reads content (off + partBegin c i) (partEnd c length i - partBegin c i)
          (readPart c off length i first second) := by
      rintro i first second rfl rfl
      exact readRangeInto_spec (hok i ht)
    rw [hshared]
    refine Inv.perm ?_ hq.symm
    obtain ⟨i, rfl, hmain, hi, rfl⟩ | ⟨rfl, rfl⟩ | ⟨i, first, second, rfl, ho, hnone, rfl⟩ |
      ⟨i, first, second, sh', rfl, ho, rfl, hmain, hrunning, hfirst, hdata⟩ := workerTurn_cases hr
    · exact hinv.received hmain hi
    · exact hinv.exit rfl (by simp)
    · exact hinv.read (hreads i first second rfl ho) hnone
    · exact hinv.failed (hreads i first second rfl ho) hmain hrunning hfirst hdata
  · rw [hshared]
    refine Inv.perm ?_ hq.symm
    obtain ⟨i, hmain, hend, rfl⟩ | ⟨err, hmain, rfl⟩ | ⟨hmain, hrunning, hfirst, hctx, rfl⟩ | rfl :=
      event_cases hr
    · exact h.waiting hmain hend
    · refine ⟨h.filled, h.running, h.reading, h.blamed, fun hfirst hctx k hk => ?_, by simp⟩
      rcases h.right hfirst hctx k hk with (⟨j, hj, -⟩ | hreading) | hright
      · rw [hmain] at hj
        cases hj
      · exact .inl (.inr hreading)
      · exact .inr hright
    · have hcomplete := h.complete hmain hrunning hfirst hctx
      refine ⟨h.filled, h.running, h.reading, h.blamed, fun hfirst hctx k hk => ?_, fun data hdata => ?_⟩
      · rcases h.right hfirst hctx k hk with (⟨j, hj, -⟩ | hreading) | hright
        · rw [hmain] at hj
          cases hj
        · exact .inl (.inr hreading)
        · exact .inr hright
      · simp only [Main.returned.injEq, Except.ok.injEq] at hdata
        rw [← hdata]
        exact hcomplete
    · exact ⟨h.filled, h.running, h.reading, h.blamed, by simp, h.returned⟩

theorem inv_start [Inhabited β] (content : List β) (c : Config) (off length workers : ℕ) :
    Inv content c off length (startFetch (β := β) length workers).shared
      (startFetch (β := β) length workers).tasks := by
  refine ⟨by simp [startFetch], ?_, fun i hi => ?_, by simp [startFetch],
    fun _ _ k _ => .inl (.inl ⟨0, rfl, by simp [partBegin]⟩), by simp [startFetch]⟩
  · have hall : ∀ t ∈ List.replicate workers Worker.selecting, t.active = true := by
      intro t ht
      rw [List.eq_of_mem_replicate ht]
      rfl
    simp only [startFetch]
    rw [List.countP_eq_length.mpr hall, List.length_replicate]
  · cases List.eq_of_mem_replicate hi

/-- A window that is fetched without an error is the one of the file. -/
theorem fetches_ok [Inhabited β] {data : List β} (h : Fetches c off length content (.ok data)) :
    data = slice content off length := by
  unfold Fetches at h
  split_ifs at h with hzero hone
  · rw [Except.ok.inj h, hzero, slice_zero]
  · obtain ⟨first, second, hhonest, hr⟩ := h
    have hreads := readRangeInto_spec hhonest
    generalize readRangeInto c off length first second = r at hreads hr
    obtain ⟨data', _ | err⟩ := r
    · have hlength : data'.length = length := hreads.complete rfl
      have hslice : data' = slice content off data'.length := eq_slice_of_isPrefix hreads.isPrefix
      rw [hlength] at hslice
      exact (Except.ok.inj hr).trans hslice
    · cases hr
  · obtain ⟨actions, q, hrun, halong, hmain⟩ := h
    have hinv := System.throughout_of_along
      (I := fun p => Inv content c off length p.shared p.tasks)
      (fun p a q hp hok hs => Inv.step hp hok hs) (inv_start content c off length _) halong
    exact (hinv.last hrun).returned data hmain

end Windows

end AllInOneBackup.LitePan.Playback.WindowReader
