import AllInOneBackup.Concurrency.Pool
import AllInOneBackup.Data.Dict
import AllInOneBackup.LitePan.Playback.RangePipe
import AllInOneBackup.LitePan.Playback.Transfer

/-! `streamUpstreamSpan` and `streamUpstreamSpanParallel`. Every part that is launched and not yet
written is held by its worker, by the channel or by the map, until the stream is cancelled; so the
part that is next is on its way, and no more parts are held than the window has. -/

namespace AllInOneBackup.LitePan.Playback.RangeProxy

open Concurrency Data RangePipe

variable {β : Type*}

/-! ### `range_proxy.go` -/

/-- `pipeUpstreamRange` of a part. -/
def pipePart (s : Span) (i : ℕ) (tries : Try β × Try β) : List β × Option PipeError :=
  pipeUpstreamRange (s.partStart i) (s.partStart i + s.partLength i - 1) tries

/-- The loop of `streamUpstreamSpan`, from the part `i` on, by what the upstream answers to each. -/
def streamUpstreamSpan (s : Span) (tries : ℕ → Try β × Try β) (i : ℕ) : List β × Option PipeError :=
  if s.partStart i ≤ s.last then
    match pipePart s i (tries i) with
    | (data, some err) => (data, some err)
    | (data, none) =>
      let rest := streamUpstreamSpan s tries (i + 1)
      (data ++ rest.1, rest.2)
  else ([], none)
  termination_by s.last + 1 - s.partStart i
  decreasing_by
    have hchunk := s.chunk_pos
    simp only [Span.partStart, Nat.add_mul, Nat.one_mul] at *
    omega

structure Result (β : Type*) where
  index : ℕ
  data : List β
  err : Option PipeError
  deriving DecidableEq

/-- A goroutine of `launch`: in `pipeUpstreamRange`, at its `select`, or at its end. -/
inductive Worker (β : Type*)
  | piping (index : ℕ)
  | sending (r : Result β)
  | exited
  deriving DecidableEq

inductive StreamError
  | pipe (err : PipeError)
  | write
  | cancelled
  deriving DecidableEq

/-- Where the function itself is: in `pipeUpstreamRange` for the first part, at its `select`, in
`writeAll`, in `wg.Wait`, or at its end. -/
inductive Main (β : Type*)
  | first
  | selecting
  | writing (data : List β)
  | waiting (err : Option StreamError)
  | returned (err : Option StreamError)
  deriving DecidableEq

/-- `output` is what `w` has got, `running` the counter of `wg`, `cancelled` that `cancel` has been
called, and `ctxDone` that the context of the caller is done. -/
structure Shared (β : Type*) where
  main : Main β := .first
  output : List β := []
  results : List (Result β) := []
  pending : List (ℕ × List β) := []
  nextLaunch : ℕ := 1
  nextWrite : ℕ := 1
  running : ℕ := 0
  cancelled : Bool := false
  ctxDone : Bool := false
  deriving DecidableEq

/-- What the log of a run has: a fetch or a write that failed, and the end of the context. -/
inductive Seen
  | failed
  | ctxDone
  deriving DecidableEq

abbrev StreamEffect (β : Type*) := Effect (Shared β) (Worker β) Seen

abbrev WorkerTurn (β : Type*) := Turn (Shared β) (Worker β) Seen

abbrev Stream (β : Type*) := Pool (Shared β) (Worker β) Seen

/-- The loops that launch, as far as the window goes. -/
def launch (s : Span) (sh : Shared β) : StreamEffect β :=
  let limit := max sh.nextLaunch (min s.count (sh.nextWrite + s.workers))
  { shared := { sh with nextLaunch := limit, running := sh.running + (limit - sh.nextLaunch) }
    spawned := (List.range' sh.nextLaunch (limit - sh.nextLaunch)).map .piping }

@[simp] theorem launch_seen (s : Span) (sh : Shared β) : (launch s sh).seen = [] := rfl

/-- The inner loop, and the condition of the outer one. -/
def proceed (s : Span) (sh : Shared β) : Shared β :=
  { sh with main := match Dict.get? sh.nextWrite sh.pending with
      | some data => .writing data
      | none => if sh.nextWrite < s.count then .selecting else .waiting none }

/-- `waitWorkers`, before an error is returned. -/
def fail (sh : Shared β) (err : StreamError) : Shared β :=
  { sh with cancelled := true, main := .waiting (some err) }

inductive MainOutcome (β : Type*)
  | piped (tries : Try β × Try β)
  | received
  | done
  | wrote
  | writeFailed (n : ℕ)
  | exited

/-- A turn of the function; `writeFailed` has the bytes that `w` got before. -/
def mainTurn (s : Span) (sh : Shared β) : Main β → MainOutcome β → Option (StreamEffect β)
  | .first, .piped tries =>
    match pipePart s 0 tries with
    | (data, some err) =>
      some { shared := fail { sh with output := sh.output ++ data } (.pipe err), seen := [.failed] }
    | (data, none) =>
      let e := launch s { sh with output := sh.output ++ data }
      some { e with shared := proceed s e.shared }
  | .selecting, .received =>
    match sh.results with
    | [] => none
    | got :: rest =>
      let sh := { sh with results := rest }
      match got.err with
      | some err => some { shared := fail sh (.pipe err) }
      | none => some
          { shared := proceed s
              { sh with pending := Dict.modify got.index got.data (fun _ => got.data) sh.pending } }
  | .selecting, .done => if sh.ctxDone then some { shared := fail sh .cancelled } else none
  | .writing data, .wrote =>
    let e := launch s
      { sh with
        output := sh.output ++ data
        pending := sh.pending.filter (·.1 ≠ sh.nextWrite)
        nextWrite := sh.nextWrite + 1 }
    some { e with shared := proceed s e.shared }
  | .writing data, .writeFailed n =>
    some
      { shared := fail { sh with output := sh.output ++ data.take n } .write
        seen := [.failed] }
  | .waiting err, .exited =>
    -- The deferred `cancel`.
    if sh.running = 0 then some { shared := { sh with cancelled := true, main := .returned err } }
    else none
  | _, _ => none

inductive WorkerOutcome (β : Type*)
  | piped (tries : Try β × Try β)
  | sent
  | stopped

def workerTurn (s : Span) (sh : Shared β) : Worker β → WorkerOutcome β → Option (WorkerTurn β)
  | .piping i, .piped tries =>
    let (data, err) := pipePart s i tries
    some
      { shared := sh
        task := .sending ⟨i, data, err⟩
        seen := if err.isSome then [.failed] else [] }
  | .sending r, .sent =>
    if sh.results.length < s.workers then some
      { shared := { sh with results := sh.results ++ [r], running := sh.running - 1 }
        task := .exited }
    else none
  | .sending _, .stopped =>
    if sh.cancelled ∨ sh.ctxDone then some
      { shared := { sh with running := sh.running - 1 }, task := .exited }
    else none
  | _, _ => none

/-- A turn of the function, or the end of the caller's context. -/
inductive Event (β : Type*)
  | main (o : MainOutcome β)
  | ctxDone

def event (s : Span) (sh : Shared β) : Event β → Option (StreamEffect β)
  | .main o => mainTurn s sh sh.main o
  | .ctxDone => some { shared := { sh with ctxDone := true }, seen := [.ctxDone] }

def system (s : Span) : System (Shared β) (Worker β) Seen (WorkerOutcome β) (Event β) :=
  ⟨workerTurn s, event s⟩

/-- The call, up to the first part. -/
def streamUpstreamSpanParallel (s : Span) : Stream β :=
  let limit := max 1 (min s.count s.workers)
  { shared := { nextLaunch := limit, running := limit - 1 }
    tasks := (List.range' 1 (limit - 1)).map .piping }

/-- The upstream has the file. -/
def Honest (content : List β) (s : Span) (p : Stream β) : Action (WorkerOutcome β) (Event β) → Prop
  | .resume i (.piped tries) => ∀ index, p.tasks[i]? = some (.piping index) →
      tries.1.Honest content (s.partStart index) ∧ tries.2.Honest content (s.partStart index)
  | .event (.main (.piped tries)) =>
    tries.1.Honest content (s.partStart 0) ∧ tries.2.Honest content (s.partStart 0)
  | _ => True

/-! ### Parts of the file -/

section Parts

variable {s : Span} {content : List β} {i : ℕ}

def part (content : List β) (s : Span) (i : ℕ) : List β :=
  slice content (s.partStart i) (s.partLength i)

/-- The parts before `i`. -/
def parts (content : List β) (s : Span) (i : ℕ) : List β :=
  slice content s.start (min (i * s.chunk) (s.last + 1 - s.start))

/-- The bytes of the range. -/
def whole (content : List β) (s : Span) : List β := slice content s.start (s.last + 1 - s.start)

theorem parts_succ (hi : i < s.count) : parts content s (i + 1) = parts content s i ++ part content s i := by
  have hle := Span.partStart_le_last hi
  have hpos := s.chunk_pos
  have hlength : min ((i + 1) * s.chunk) (s.last + 1 - s.start) =
      min (i * s.chunk) (s.last + 1 - s.start) + s.partLength i := by
    simp only [Span.partLength, Span.partStart, Nat.add_mul, Nat.one_mul] at hle ⊢
    omega
  have hstart : s.start + min (i * s.chunk) (s.last + 1 - s.start) = s.partStart i := by
    simp only [Span.partStart] at hle ⊢
    omega
  rw [parts, hlength, slice_add, hstart, parts, part]

theorem parts_count (content : List β) (s : Span) : parts content s s.count = whole content s := by
  have hlt : s.last - s.start < s.count * s.chunk := by
    have hmod := Nat.lt_div_mul_add s.chunk_pos (a := s.last - s.start)
    rw [Span.count, Nat.add_mul, Nat.one_mul]
    exact hmod
  have hle := s.start_le
  rw [parts, whole, Nat.min_eq_right (by omega)]

theorem parts_isPrefix (content : List β) (s : Span) (i : ℕ) : parts content s i <+: whole content s :=
  slice_prefix_slice _ _ (Nat.min_le_right _ _)

@[simp] theorem parts_zero (content : List β) (s : Span) : parts content s 0 = [] := by simp [parts]

theorem partLength_pos (s : Span) (i : ℕ) : 0 < s.partLength i := by
  have hpos := s.chunk_pos
  rw [Span.partLength]
  omega

/-- What is written of a part, the whole part where there is no error, comes next in the range. -/
theorem pipePart_spec {tries : Try β × Try β} (hfits : (s.last : ℤ) + 1 < 2 ^ 63) (hi : i < s.count)
    (h : tries.1.Honest content (s.partStart i) ∧ tries.2.Honest content (s.partStart i)) :
    (∃ n, (pipePart s i tries).1 = (part content s i).take n) ∧
      ((pipePart s i tries).2 = none → (pipePart s i tries).1 = part content s i) := by
  have hle := Span.partStart_le_last hi
  have hpos := partLength_pos s i
  have hend : s.partStart i + s.partLength i ≤ s.last + 1 := by
    rw [Span.partLength]
    omega
  obtain ⟨hpre, hlength, -⟩ :=
    pipeUpstreamRange_spec (s.partStart i + s.partLength i - 1 : ℤ) h
  rw [wrap64_eq (by omega) (by omega)] at hlength
  constructor
  · refine ⟨(pipePart s i tries).1.length, ?_⟩
    rw [pipePart, part, take_slice, min_eq_left (by omega)]
    exact eq_slice_of_isPrefix hpre
  · intro herr
    rw [pipePart, pipeUpstreamRange_eq _ h (by omega) (by omega) (by omega) herr, part]
    congr 1
    omega

end Parts

/-! ### Turns -/

section Turns

variable {s : Span} {sh : Shared β}

/-- All that a turn of a worker can be. -/
theorem workerTurn_cases {t : Worker β} {o : WorkerOutcome β} {r : WorkerTurn β}
    (h : workerTurn s sh t o = some r) :
    (∃ i tries, t = .piping i ∧ o = .piped tries ∧
      r = { shared := sh, task := .sending ⟨i, (pipePart s i tries).1, (pipePart s i tries).2⟩,
            seen := if (pipePart s i tries).2.isSome then [.failed] else [] }) ∨
    (∃ x, t = .sending x ∧ o = .sent ∧
      r = { shared := { sh with results := sh.results ++ [x], running := sh.running - 1 },
            task := .exited }) ∨
    (∃ x, t = .sending x ∧ o = .stopped ∧ (sh.cancelled ∨ sh.ctxDone) ∧
      r = { shared := { sh with running := sh.running - 1 }, task := .exited }) := by
  unfold workerTurn at h
  split at h
  · exact .inl ⟨_, _, rfl, rfl, (Option.some.inj h).symm⟩
  · split_ifs at h
    exact .inr (.inl ⟨_, rfl, rfl, (Option.some.inj h).symm⟩)
  · split_ifs at h with hstop
    exact .inr (.inr ⟨_, rfl, rfl, hstop, (Option.some.inj h).symm⟩)
  · simp at h

/-- All that a turn of the function can be. -/
theorem mainTurn_cases {m : Main β} {o : MainOutcome β} {r : StreamEffect β}
    (h : mainTurn s sh m o = some r) :
    (∃ tries err, m = .first ∧ o = .piped tries ∧ (pipePart s 0 tries).2 = some err ∧
      r = { shared := fail { sh with output := sh.output ++ (pipePart s 0 tries).1 } (.pipe err),
            seen := [.failed] }) ∨
    (∃ tries e, m = .first ∧ o = .piped tries ∧ (pipePart s 0 tries).2 = none ∧
      e = launch s { sh with output := sh.output ++ (pipePart s 0 tries).1 } ∧
      r = { e with shared := proceed s e.shared }) ∨
    (∃ got rest err, m = .selecting ∧ sh.results = got :: rest ∧ got.err = some err ∧
      r = { shared := fail { sh with results := rest } (.pipe err) }) ∨
    (∃ got rest, m = .selecting ∧ sh.results = got :: rest ∧ got.err = none ∧
      r = { shared := proceed s { sh with
              results := rest
              pending := Dict.modify got.index got.data (fun _ => got.data) sh.pending } }) ∨
    (m = .selecting ∧ sh.ctxDone ∧ r = { shared := fail sh .cancelled }) ∨
    (∃ data e, m = .writing data ∧
      e = launch s { sh with
        output := sh.output ++ data
        pending := sh.pending.filter (·.1 ≠ sh.nextWrite)
        nextWrite := sh.nextWrite + 1 } ∧
      r = { e with shared := proceed s e.shared }) ∨
    (∃ data n, m = .writing data ∧
      r = { shared := fail { sh with output := sh.output ++ data.take n } .write,
            seen := [.failed] }) ∨
    (∃ err, m = .waiting err ∧ sh.running = 0 ∧
      r = { shared := { sh with cancelled := true, main := .returned err } }) := by
  unfold mainTurn at h
  split at h
  · rename_i tries
    rcases hpipe : pipePart s 0 tries with ⟨data, _ | err⟩
    · simp only [hpipe] at h
      exact .inr (.inl ⟨tries, _, rfl, rfl, by rw [hpipe], rfl, by rw [hpipe]; exact (Option.some.inj h).symm⟩)
    · simp only [hpipe] at h
      exact .inl ⟨tries, err, rfl, rfl, by rw [hpipe], by rw [hpipe]; exact (Option.some.inj h).symm⟩
  · right; right
    cases hresults : sh.results with
    | nil => simp [hresults] at h
    | cons got rest =>
      cases herr : got.err with
      | some err =>
        simp only [hresults, herr] at h
        exact .inl ⟨got, rest, err, rfl, rfl, herr, (Option.some.inj h).symm⟩
      | none =>
        simp only [hresults, herr] at h
        exact .inr (.inl ⟨got, rest, rfl, rfl, herr, (Option.some.inj h).symm⟩)
  · split_ifs at h with hdone
    exact .inr (.inr (.inr (.inr (.inl ⟨rfl, hdone, (Option.some.inj h).symm⟩))))
  · exact .inr (.inr (.inr (.inr (.inr (.inl ⟨_, _, rfl, rfl, (Option.some.inj h).symm⟩)))))
  · exact .inr (.inr (.inr (.inr (.inr (.inr (.inl ⟨_, _, rfl, (Option.some.inj h).symm⟩))))))
  · split_ifs at h with hrunning
    exact .inr (.inr (.inr (.inr (.inr (.inr (.inr ⟨_, rfl, hrunning, (Option.some.inj h).symm⟩))))))
  · simp at h

end Turns

/-! ### The parts that are held -/

/-- The part of a worker, and whether it may still be received. -/
def Worker.token : Worker β → Option (ℕ × Bool)
  | .piping i => some (i, true)
  | .sending r => some (r.index, r.err.isNone)
  | .exited => none

/-- The parts that are fetched or buffered: by the workers, in the channel and in the map. -/
def tokens (ts : List (Worker β)) (sh : Shared β) : List (ℕ × Bool) :=
  ts.filterMap Worker.token ++ sh.results.map (fun r => (r.index, r.err.isNone)) ++
    sh.pending.map fun e => (e.1, true)

def held (p : Stream β) : List ℕ := (tokens p.tasks p.shared).map Prod.fst

section Tokens

variable {s : Span} {sh : Shared β} {ts others : List (Worker β)}

theorem tokens_perm {ts' : List (Worker β)} (h : ts.Perm ts') : (tokens ts sh).Perm (tokens ts' sh) :=
  ((h.filterMap _).append_right _).append_right _

theorem tokens_cons (t : Worker β) (ts : List (Worker β)) (sh : Shared β) :
    tokens (t :: ts) sh = t.token.toList ++ tokens ts sh := by
  cases h : t.token <;> simp [tokens, h]

end Tokens

/-! ### What every step keeps -/

def Worker.active : Worker β → Bool
  | .exited => false
  | _ => true

def Result.Ok (content : List β) (s : Span) (r : Result β) : Prop :=
  r.err = none → r.data = part content s r.index

/-- All parts before the next one have been written, and the window is open. -/
structure Ready (content : List β) (s : Span) (sh : Shared β) : Prop where
  output : sh.output = parts content s sh.nextWrite
  launched : sh.nextLaunch = s.count ∨ sh.nextLaunch = sh.nextWrite + s.workers
  cancelled : sh.cancelled = false

/-- What the place of the function says; an error is to be blamed on something. -/
def MainOk (content : List β) (s : Span) (sh : Shared β) (blame : Prop) : Prop :=
  match sh.main with
  | .first => sh.output = [] ∧ sh.nextWrite = 1 ∧ sh.nextLaunch ≤ s.workers ∧ sh.cancelled = false
  | .selecting => Ready content s sh ∧ sh.nextWrite < s.count ∧
      Dict.get? sh.nextWrite sh.pending = none
  | .writing data => Ready content s sh ∧ Dict.get? sh.nextWrite sh.pending = some data
  | .waiting none => Ready content s sh ∧ sh.nextWrite = s.count
  | .waiting (some _) => sh.output <+: whole content s ∧ sh.cancelled = true ∧ blame
  | .returned none => sh.output = whole content s ∧ sh.nextWrite = s.count ∧ sh.running = 0
  | .returned (some _) => sh.output <+: whole content s ∧ sh.running = 0 ∧ blame

/-- The numbers of the parts that are next. -/
structure Window (s : Span) (sh : Shared β) : Prop where
  pos : 1 ≤ sh.nextWrite
  le : sh.nextWrite ≤ sh.nextLaunch
  le_count : sh.nextLaunch ≤ s.count
  le_workers : sh.nextLaunch ≤ sh.nextWrite + s.workers

/-- The parts that are held are parts of the window, once each, and have their bytes. -/
structure Holds (content : List β) (s : Span) (ts : List (Worker β)) (sh : Shared β) : Prop where
  nodup : ((tokens ts sh).map Prod.fst).Nodup
  bounds : ∀ t ∈ tokens ts sh, sh.nextWrite ≤ t.1 ∧ t.1 < sh.nextLaunch
  running : sh.running = ts.countP Worker.active
  workers : ∀ r, .sending r ∈ ts → r.Ok content s
  results : ∀ r ∈ sh.results, r.Ok content s
  pending : ∀ e ∈ sh.pending, e.2 = part content s e.1

def Main.failing : Main β → Bool
  | .waiting (some _) => true
  | .returned (some _) => true
  | _ => false

/-- A part of the window will not be received. -/
def Lost (ts : List (Worker β)) (sh : Shared β) : Prop :=
  ∃ i, sh.nextWrite ≤ i ∧ i < sh.nextLaunch ∧ (i, true) ∉ tokens ts sh

structure Inv (content : List β) (s : Span) (p : Stream β) : Prop where
  window : Window s p.shared
  holds : Holds content s p.tasks p.shared
  kept : p.shared.cancelled = false → p.shared.ctxDone = false → ∀ i, p.shared.nextWrite ≤ i →
    i < p.shared.nextLaunch → i ∈ held p
  main : MainOk content s p.shared (p.trace ≠ [])
  blamed : ∀ i, (i, false) ∈ tokens p.tasks p.shared → p.trace ≠ []
  ctxDone : p.shared.ctxDone = true → p.trace ≠ []
  lost : .failed ∈ p.trace → p.shared.main.failing ∨ Lost p.tasks p.shared

section Steps

variable {content : List β} {s : Span} {p q : Stream β} {sh sh' : Shared β}
  {ts ts' others : List (Worker β)}

/-- A step of a worker leaves the function where it is. -/
theorem MainOk.worker {blame blame' : Prop} (h : MainOk content s sh blame)
    (hblame : blame → blame') (hrunning : sh'.running ≤ sh.running) (hmain : sh'.main = sh.main)
    (houtput : sh'.output = sh.output) (hpending : sh'.pending = sh.pending)
    (hlaunch : sh'.nextLaunch = sh.nextLaunch) (hwrite : sh'.nextWrite = sh.nextWrite)
    (hcancelled : sh'.cancelled = sh.cancelled) : MainOk content s sh' blame' := by
  have hready : Ready content s sh → Ready content s sh' := fun hr =>
    ⟨by rw [houtput, hwrite]; exact hr.output, by rw [hlaunch, hwrite]; exact hr.launched,
      by rw [hcancelled]; exact hr.cancelled⟩
  unfold MainOk at h ⊢
  rw [hmain]
  rcases hm : sh.main with _ | _ | data | (_ | err) | (_ | err) <;> rw [hm] at h <;>
    simp only [houtput, hpending, hlaunch, hwrite, hcancelled] at h ⊢
  · exact h
  · exact ⟨hready h.1, h.2⟩
  · exact ⟨hready h.1, h.2⟩
  · exact ⟨hready h.1, h.2⟩
  · exact ⟨h.1, h.2.1, hblame h.2.2⟩
  · exact ⟨h.1, h.2.1, by omega⟩
  · exact ⟨h.1, by omega, hblame h.2.2⟩

theorem Holds.perm (h : Holds content s ts sh) (hts : ts.Perm ts') : Holds content s ts' sh where
  nodup := ((tokens_perm hts).map _).nodup_iff.mp h.nodup
  bounds := fun t ht => h.bounds t ((tokens_perm hts).mem_iff.mpr ht)
  running := by rw [h.running, hts.countP_eq]
  workers := fun r hr => h.workers r (hts.mem_iff.mpr hr)
  results := h.results
  pending := h.pending

/-- The order of the workers does not matter. -/
theorem Inv.perm {trace : List Seen} (h : Inv content s ⟨sh, ts, trace⟩) (hts : ts.Perm ts') :
    Inv content s ⟨sh, ts', trace⟩ where
  window := h.window
  holds := h.holds.perm hts
  kept := fun hc hd i hi hlt =>
    ((tokens_perm hts).map Prod.fst).mem_iff.mp (h.kept hc hd i hi hlt)
  main := h.main
  blamed := fun i hi => h.blamed i ((tokens_perm hts).mem_iff.mpr hi)
  ctxDone := h.ctxDone
  lost := fun hf => (h.lost hf).imp_right fun ⟨i, hi, hlt, hnot⟩ =>
    ⟨i, hi, hlt, fun hmem => hnot ((tokens_perm hts).mem_iff.mpr hmem)⟩

/-- A worker has fetched its part. -/
theorem Inv.piped {i : ℕ} {tries : Try β × Try β} {trace : List Seen}
    (h : Inv content s ⟨sh, .piping i :: others, trace⟩) (hfits : (s.last : ℤ) + 1 < 2 ^ 63)
    (htries : tries.1.Honest content (s.partStart i) ∧ tries.2.Honest content (s.partStart i)) :
    Inv content s ⟨sh, .sending ⟨i, (pipePart s i tries).1, (pipePart s i tries).2⟩ :: others,
      trace ++ if (pipePart s i tries).2.isSome then [.failed] else []⟩ := by
  have hold : tokens (.piping i :: others) sh = (i, true) :: tokens others sh := tokens_cons _ _ _
  have hnew : tokens (.sending ⟨i, (pipePart s i tries).1, (pipePart s i tries).2⟩ :: others) sh =
      (i, (pipePart s i tries).2.isNone) :: tokens others sh := tokens_cons _ _ _
  obtain ⟨hnodup, hbounds, hrunning, hworkers, hresults, hpending⟩ := h.holds
  rw [hold] at hnodup hbounds
  rw [List.map_cons, List.nodup_cons] at hnodup
  have hi := hbounds _ List.mem_cons_self
  have hcount : i < s.count := hi.2.trans_le h.window.le_count
  have hdata := (pipePart_spec hfits hcount htries).2
  have hgrow : trace ≠ [] → trace ++ (if (pipePart s i tries).2.isSome then [.failed] else []) ≠ [] :=
    fun hne hnil => hne (List.append_eq_nil_iff.mp hnil).1
  refine ⟨h.window, ⟨?_, ?_, hrunning, ?_, hresults, hpending⟩, ?_, ?_, ?_, ?_, ?_⟩
  · rw [hnew, List.map_cons, List.nodup_cons]
    exact hnodup
  · intro t ht
    rw [hnew] at ht
    rcases List.mem_cons.mp ht with rfl | ht
    · exact hi
    · exact hbounds t (List.mem_cons_of_mem _ ht)
  · intro r hr
    rcases List.mem_cons.mp hr with heq | hr
    · obtain rfl := Worker.sending.inj heq
      exact hdata
    · exact hworkers r (List.mem_cons_of_mem _ hr)
  · intro hc hd j hj hlt
    have hmem := h.kept hc hd j hj hlt
    simp only [held, hold, hnew, List.map_cons] at hmem ⊢
    exact hmem
  · exact h.main.worker hgrow le_rfl rfl rfl rfl rfl rfl rfl
  · intro j hj
    simp only [hnew] at hj
    rcases List.mem_cons.mp hj with heq | hj
    · have hfailed : (pipePart s i tries).2.isSome = true := by
        have hfalse := (Prod.mk.inj heq).2
        cases herr : (pipePart s i tries).2 with
        | none => rw [herr] at hfalse; cases hfalse
        | some err => rfl
      rw [if_pos hfailed]
      simp
    · refine hgrow (h.blamed j ?_)
      simp only [hold]
      exact List.mem_cons_of_mem _ hj
  · exact fun hd => hgrow (h.ctxDone hd)
  · intro hf
    by_cases hfailed : .failed ∈ trace
    · refine (h.lost hfailed).imp_right fun ⟨j, hj, hlt, hnot⟩ => ⟨j, hj, hlt, fun hmem => hnot ?_⟩
      simp only [hold, hnew] at hmem ⊢
      rcases List.mem_cons.mp hmem with heq | hmem
      · rw [(Prod.mk.inj heq).1]
        exact List.mem_cons_self
      · exact List.mem_cons_of_mem _ hmem
    · right
      refine ⟨i, hi.1, hi.2, fun hmem => ?_⟩
      simp only [hnew] at hmem
      rcases List.mem_cons.mp hmem with heq | hmem
      · have hnone : (pipePart s i tries).2.isSome = false := by
          have htrue := (Prod.mk.inj heq).2
          cases herr : (pipePart s i tries).2 with
          | none => rfl
          | some err => rw [herr] at htrue; cases htrue
        rw [hnone] at hf
        simp [hfailed] at hf
      · exact hnodup.1 (List.mem_map.mpr ⟨_, hmem, rfl⟩)

/-- A worker has ended, and what it held is in the channel, or is no longer held. -/
theorem Inv.exited {r : Result β} {trace : List Seen}
    (h : Inv content s ⟨sh, .sending r :: others, trace⟩) (hmain : sh'.main = sh.main)
    (houtput : sh'.output = sh.output) (hpending : sh'.pending = sh.pending)
    (hlaunch : sh'.nextLaunch = sh.nextLaunch) (hwrite : sh'.nextWrite = sh.nextWrite)
    (hcancelled : sh'.cancelled = sh.cancelled) (hctx : sh'.ctxDone = sh.ctxDone)
    (hrunning : sh'.running = sh.running - 1)
    (hresults : sh'.results = sh.results ++ [r] ∨
      sh'.results = sh.results ∧ (sh.cancelled = true ∨ sh.ctxDone = true)) :
    Inv content s ⟨sh', .exited :: others, trace⟩ := by
  have hold : tokens (.sending r :: others) sh =
      (r.index, r.err.isNone) :: tokens others sh := tokens_cons _ _ _
  have hnew : tokens (.exited :: others) sh' = tokens others sh' := tokens_cons _ _ _
  have hperm : sh'.results = sh.results ++ [r] →
      (tokens (.exited :: others) sh').Perm (tokens (.sending r :: others) sh) := by
    intro hres
    rw [hold, hnew]
    simp only [tokens, hres, hpending, List.map_append, List.map_cons, List.map_nil]
    grind
  have hsub : (tokens (.exited :: others) sh').Subperm (tokens (.sending r :: others) sh) := by
    rcases hresults with hres | ⟨hres, -⟩
    · exact (hperm hres).subperm
    · have heq : tokens others sh' = tokens others sh := by simp only [tokens, hres, hpending]
      rw [hold, hnew, heq]
      exact (List.sublist_cons_self _ _).subperm
  have hactive := h.holds.running
  rw [List.countP_cons_of_pos (by rfl)] at hactive
  have hsubset := hsub.subset
  obtain ⟨l, hl, hsublist⟩ := hsub
  refine ⟨⟨?_, ?_, ?_, ?_⟩, ⟨?_, ?_, ?_, ?_, ?_, ?_⟩, ?_, ?_, ?_, ?_, ?_⟩
  · rw [hwrite]
    exact h.window.pos
  · rw [hwrite, hlaunch]
    exact h.window.le
  · rw [hlaunch]
    exact h.window.le_count
  · rw [hwrite, hlaunch]
    exact h.window.le_workers
  · exact (hl.map _).nodup_iff.mp ((hsublist.map _).nodup h.holds.nodup)
  · intro t ht
    rw [hwrite, hlaunch]
    exact h.holds.bounds t (hsubset ht)
  · rw [List.countP_cons_of_neg (by simp [Worker.active]), hrunning]
    simp only at hactive
    omega
  · intro x hx
    rcases List.mem_cons.mp hx with heq | hx
    · cases heq
    · exact h.holds.workers x (List.mem_cons_of_mem _ hx)
  · intro x hx
    rcases hresults with hres | ⟨hres, -⟩
    · simp only [hres] at hx
      rcases List.mem_append.mp hx with hx | hx
      · exact h.holds.results x hx
      · rw [List.mem_singleton.mp hx]
        exact h.holds.workers r List.mem_cons_self
    · exact h.holds.results x (hres ▸ hx)
  · intro e he
    exact h.holds.pending e (hpending ▸ he)
  · intro hc hd i hi hlt
    rcases hresults with hres | ⟨-, hstop⟩
    · have hmem := h.kept (hcancelled ▸ hc) (hctx ▸ hd) i (hwrite ▸ hi) (hlaunch ▸ hlt)
      exact ((hperm hres).map Prod.fst).mem_iff.mpr hmem
    · simp only [hcancelled, hctx] at hc hd
      rw [hc, hd] at hstop
      simp at hstop
  · refine h.main.worker id ?_ hmain houtput hpending hlaunch hwrite hcancelled
    simp only [hrunning]
    omega
  · exact fun i hi => h.blamed i (hsubset hi)
  · exact fun hd => h.ctxDone (hctx ▸ hd)
  · intro hf
    simp only [hmain]
    refine (h.lost hf).imp_right fun ⟨i, hi, hlt, hnot⟩ => ⟨i, ?_, ?_, fun hmem => hnot ?_⟩
    · exact hwrite ▸ hi
    · exact hlaunch ▸ hlt
    · exact hsubset hmem

/-- The stream goes on: what there is to keep when it proceeds, or launches before. -/
structure Going (content : List β) (s : Span) (sh : Shared β) (ts : List (Worker β))
    (trace : List Seen) : Prop where
  window : Window s sh
  holds : Holds content s ts sh
  kept : sh.ctxDone = false → ∀ i, sh.nextWrite ≤ i → i < sh.nextLaunch →
    i ∈ (tokens ts sh).map Prod.fst
  output : sh.output = parts content s sh.nextWrite
  cancelled : sh.cancelled = false
  blamed : ∀ i, (i, false) ∈ tokens ts sh → trace ≠ []
  ctxDone : sh.ctxDone = true → trace ≠ []
  lost : .failed ∈ trace → Lost ts sh

theorem Going.proceed {trace : List Seen} (h : Going content s sh ts trace)
    (hlaunched : sh.nextLaunch = s.count ∨ sh.nextLaunch = sh.nextWrite + s.workers) :
    Inv content s ⟨proceed s sh, ts, trace⟩ where
  window := ⟨h.window.pos, h.window.le, h.window.le_count, h.window.le_workers⟩
  holds := ⟨h.holds.nodup, h.holds.bounds, h.holds.running, h.holds.workers, h.holds.results,
    h.holds.pending⟩
  kept := fun _ hd i hi hlt => h.kept hd i hi hlt
  main := by
    have hle := h.window.le
    have hle' := h.window.le_count
    have hready : ∀ m : Main β, Ready content s { sh with main := m } :=
      fun m => ⟨h.output, hlaunched, h.cancelled⟩
    rw [RangeProxy.proceed]
    cases hpending : Dict.get? sh.nextWrite sh.pending with
    | some data => exact ⟨hready _, hpending⟩
    | none =>
      simp only
      split_ifs with hlt
      · exact ⟨hready _, hlt, hpending⟩
      · exact ⟨hready _, by simp only; omega⟩
  blamed := h.blamed
  ctxDone := h.ctxDone
  lost := fun hf => .inr (h.lost hf)

theorem Going.launch {trace : List Seen} (h : Going content s sh ts trace) :
    Going content s (launch s sh).shared (ts ++ (launch s sh).spawned) trace ∧
      ((launch s sh).shared.nextLaunch = s.count ∨
        (launch s sh).shared.nextLaunch = (launch s sh).shared.nextWrite + s.workers) := by
  have hpos := h.window.pos
  have hle := h.window.le
  have hle_count := h.window.le_count
  have hle_workers := h.window.le_workers
  simp only [RangeProxy.launch]
  rw [max_eq_right (le_min hle_count hle_workers)]
  generalize hlimit : min s.count (sh.nextWrite + s.workers) = limit
  generalize hcount : limit - sh.nextLaunch = k
  have hbounded : sh.nextLaunch ≤ limit := by omega
  have hspawned : ((List.range' sh.nextLaunch k).map Worker.piping).filterMap
      (Worker.token (β := β)) = (List.range' sh.nextLaunch k).map fun i => (i, true) := by
    have heq : Worker.token ∘ Worker.piping (β := β) = some ∘ fun i => (i, true) := rfl
    rw [List.filterMap_map, heq, List.filterMap_eq_map]
  have hperm : (tokens (ts ++ (List.range' sh.nextLaunch k).map .piping)
      { sh with nextLaunch := limit, running := sh.running + k }).Perm
      (tokens ts sh ++ (List.range' sh.nextLaunch k).map fun i => (i, true)) := by
    simp only [tokens, List.filterMap_append, hspawned]
    grind
  have hfst : ((List.range' sh.nextLaunch k).map fun i => (i, true)).map Prod.fst =
      List.range' sh.nextLaunch k := by
    rw [List.map_map]
    exact List.map_id _
  have hnew : ∀ t ∈ (List.range' sh.nextLaunch k).map fun i => (i, true),
      sh.nextLaunch ≤ t.1 ∧ t.1 < limit := by
    intro t ht
    obtain ⟨i, hi, rfl⟩ := List.mem_map.mp ht
    rw [List.mem_range'_1] at hi
    simp only
    omega
  refine ⟨⟨⟨hpos, by simp only; omega, by simp only; omega, by simp only; omega⟩,
    ⟨?_, ?_, ?_, ?_, h.holds.results, h.holds.pending⟩, ?_, h.output, h.cancelled, ?_, h.ctxDone, ?_⟩,
    by omega⟩
  · refine (hperm.map Prod.fst).nodup_iff.mpr ?_
    rw [List.map_append, hfst]
    refine List.Nodup.append h.holds.nodup (List.nodup_range') ?_
    intro i hi hi'
    obtain ⟨t, ht, rfl⟩ := List.mem_map.mp hi
    have hold := (h.holds.bounds t ht).2
    rw [List.mem_range'_1] at hi'
    omega
  · intro t ht
    rcases List.mem_append.mp (hperm.mem_iff.mp ht) with ht | ht
    · have hold := h.holds.bounds t ht
      simp only
      omega
    · have hold := hnew t ht
      simp only
      omega
  · rw [List.countP_append, ← h.holds.running, List.countP_map]
    have hall : List.countP (Worker.active ∘ Worker.piping (β := β)) (List.range' sh.nextLaunch k) =
        (List.range' sh.nextLaunch k).length := List.countP_eq_length.mpr fun _ _ => rfl
    rw [hall, List.length_range']
  · intro r hr
    rcases List.mem_append.mp hr with hr | hr
    · exact h.holds.workers r hr
    · obtain ⟨i, -, heq⟩ := List.mem_map.mp hr
      cases heq
  · intro hd i hi hlt
    refine (hperm.map Prod.fst).mem_iff.mpr ?_
    rw [List.map_append, hfst]
    simp only at hlt
    by_cases hold : i < sh.nextLaunch
    · exact List.mem_append_left _ (h.kept hd i hi hold)
    · refine List.mem_append_right _ ?_
      rw [List.mem_range'_1]
      omega
  · intro i hi
    rcases List.mem_append.mp (hperm.mem_iff.mp hi) with hi | hi
    · exact h.blamed i hi
    · obtain ⟨j, -, heq⟩ := List.mem_map.mp hi
      cases (Prod.mk.inj heq).2
  · intro hf
    obtain ⟨i, hi, hlt, hnot⟩ := h.lost hf
    refine ⟨i, hi, by simp only; omega, fun hmem => ?_⟩
    rcases List.mem_append.mp (hperm.mem_iff.mp hmem) with hmem | hmem
    · exact hnot hmem
    · have hge := (hnew _ hmem).1
      simp only at hge
      omega

/-- An error is to be returned. -/
theorem Inv.failed {trace trace' : List Seen} {err : StreamError}
    (h : Inv content s ⟨sh, ts, trace⟩) (houtput : sh'.output <+: whole content s)
    (hresults : sh'.results <:+ sh.results) (hpending : sh'.pending = sh.pending)
    (hlaunch : sh'.nextLaunch = sh.nextLaunch) (hwrite : sh'.nextWrite = sh.nextWrite)
    (hrunning : sh'.running = sh.running) (htrace : trace' ≠ []) :
    Inv content s ⟨fail sh' err, ts, trace'⟩ := by
  have hsublist : (tokens ts (fail sh' err)).Sublist (tokens ts sh) := by
    simp only [tokens, fail, hpending]
    exact ((List.Sublist.refl _).append (hresults.sublist.map _)).append (List.Sublist.refl _)
  refine ⟨⟨?_, ?_, ?_, ?_⟩, ⟨?_, ?_, ?_, h.holds.workers, ?_, ?_⟩, ?_, ?_, ?_, ?_, ?_⟩
  · simp only [fail, hwrite]
    exact h.window.pos
  · simp only [fail, hwrite, hlaunch]
    exact h.window.le
  · simp only [fail, hlaunch]
    exact h.window.le_count
  · simp only [fail, hwrite, hlaunch]
    exact h.window.le_workers
  · exact (hsublist.map _).nodup h.holds.nodup
  · intro t ht
    simp only [fail, hwrite, hlaunch]
    exact h.holds.bounds t (hsublist.subset ht)
  · simp only [fail, hrunning]
    exact h.holds.running
  · exact fun r hr => h.holds.results r (hresults.subset hr)
  · exact fun e he => h.holds.pending e (hpending ▸ he)
  · exact fun hc => absurd hc (by simp [fail])
  · exact ⟨houtput, rfl, htrace⟩
  · exact fun _ _ => htrace
  · exact fun _ => htrace
  · exact fun _ => .inl rfl

/-- A received part is held by the map. -/
theorem Inv.received {trace : List Seen} {got : Result β} {rest : List (Result β)}
    (h : Inv content s ⟨sh, ts, trace⟩) (hmain : sh.main = .selecting)
    (hresults : sh.results = got :: rest) (herr : got.err = none) :
    Inv content s ⟨proceed s { sh with
      results := rest
      pending := Dict.modify got.index got.data (fun _ => got.data) sh.pending }, ts, trace⟩ := by
  have hplace := h.main
  rw [MainOk, hmain] at hplace
  obtain ⟨hready, -, -⟩ := hplace
  have hfresh : got.index ∉ sh.pending.map Prod.fst := by
    intro hmem
    have hnodup := h.holds.nodup
    simp only [tokens, hresults, List.map_append, List.map_cons, List.map_map] at hnodup
    have hdisjoint := (List.nodup_append.mp hnodup).2.2
    refine hdisjoint got.index ?_ got.index ?_ rfl
    · exact List.mem_append_right _ List.mem_cons_self
    · obtain ⟨e, he, heq⟩ := List.mem_map.mp hmem
      exact List.mem_map.mpr ⟨e, he, heq⟩
  rw [Dict.modify_of_not_mem hfresh]
  have hperm : (tokens ts { sh with
      results := rest, pending := sh.pending ++ [(got.index, got.data)] }).Perm (tokens ts sh) := by
    simp only [tokens, hresults, List.map_append, List.map_cons, List.map_nil, herr,
      Option.isNone_none]
    grind
  refine Going.proceed ⟨⟨h.window.pos, h.window.le, h.window.le_count, h.window.le_workers⟩,
    ⟨?_, ?_, h.holds.running, h.holds.workers, ?_, ?_⟩, ?_, hready.output, hready.cancelled, ?_,
    h.ctxDone, ?_⟩ hready.launched
  · exact (hperm.map _).nodup_iff.mpr h.holds.nodup
  · exact fun t ht => h.holds.bounds t (hperm.mem_iff.mp ht)
  · exact fun r hr => h.holds.results r (hresults ▸ List.mem_cons_of_mem _ hr)
  · intro e he
    rcases List.mem_append.mp he with he | he
    · exact h.holds.pending e he
    · rw [List.mem_singleton.mp he]
      exact h.holds.results got (hresults ▸ List.mem_cons_self) herr
  · exact fun hd i hi hlt =>
      (hperm.map Prod.fst).mem_iff.mpr (h.kept hready.cancelled hd i hi hlt)
  · exact fun i hi => h.blamed i (hperm.mem_iff.mp hi)
  · intro hf
    rcases h.lost hf with hfailing | ⟨i, hi, hlt, hnot⟩
    · simp [hmain, Main.failing] at hfailing
    · exact ⟨i, hi, hlt, fun hmem => hnot (hperm.mem_iff.mp hmem)⟩

theorem Inv.keys_nodup (h : Inv content s p) : (p.shared.pending.map Prod.fst).Nodup := by
  have hnodup := h.holds.nodup
  simp only [tokens, List.map_append, List.map_map] at hnodup
  exact (List.nodup_append.mp hnodup).2.1

/-- The next part has been written, and the window moves. -/
theorem Inv.wrote {trace : List Seen} {data : List β} {e : StreamEffect β}
    (h : Inv content s ⟨sh, ts, trace⟩) (hmain : sh.main = .writing data)
    (he : e = launch s { sh with
      output := sh.output ++ data
      pending := sh.pending.filter (·.1 ≠ sh.nextWrite)
      nextWrite := sh.nextWrite + 1 }) :
    Inv content s ⟨proceed s e.shared, ts ++ e.spawned, trace⟩ := by
  have hplace := h.main
  rw [MainOk, hmain] at hplace
  obtain ⟨hready, hget⟩ := hplace
  have hkeys : (sh.pending.map Prod.fst).Nodup := h.keys_nodup
  have hperm : (tokens ts sh).Perm ((sh.nextWrite, true) :: tokens ts { sh with
      output := sh.output ++ data
      pending := sh.pending.filter (·.1 ≠ sh.nextWrite)
      nextWrite := sh.nextWrite + 1 }) := by
    have hpending := (Dict.perm_filter_ne hkeys hget).map fun e => (e.1, true)
    refine (hpending.append_left _).trans ?_
    exact List.perm_middle
  have hnodup := (hperm.map Prod.fst).nodup_iff.mp h.holds.nodup
  rw [List.map_cons, List.nodup_cons] at hnodup
  have hnext := h.holds.bounds _ (hperm.mem_iff.mpr List.mem_cons_self)
  simp only at hnext
  have hpart : data = part content s sh.nextWrite :=
    h.holds.pending _ ((Dict.mem_iff_get? hkeys).mpr hget)
  have hsubset : ∀ t ∈ tokens ts { sh with
      output := sh.output ++ data
      pending := sh.pending.filter (·.1 ≠ sh.nextWrite)
      nextWrite := sh.nextWrite + 1 }, t ∈ tokens ts sh ∧ t.1 ≠ sh.nextWrite := by
    intro t ht
    refine ⟨hperm.mem_iff.mpr (List.mem_cons_of_mem _ ht), fun heq => hnodup.1 ?_⟩
    exact List.mem_map.mpr ⟨t, ht, heq⟩
  have hle_count : sh.nextLaunch ≤ s.count := h.window.le_count
  have hle_workers : sh.nextLaunch ≤ sh.nextWrite + s.workers := h.window.le_workers
  have hgoing : Going content s { sh with
      output := sh.output ++ data
      pending := sh.pending.filter (·.1 ≠ sh.nextWrite)
      nextWrite := sh.nextWrite + 1 } ts trace := by
    refine ⟨⟨by simp only; omega, by simp only; omega, hle_count, by simp only; omega⟩,
      ⟨hnodup.2, ?_, h.holds.running, h.holds.workers, h.holds.results, ?_⟩, ?_, ?_,
      hready.cancelled, ?_, h.ctxDone, ?_⟩
    · intro t ht
      obtain ⟨hmem, hne⟩ := hsubset t ht
      have hbounds := h.holds.bounds t hmem
      simp only at hbounds ⊢
      omega
    · exact fun e he => h.holds.pending e (List.mem_of_mem_filter he)
    · intro hd i hi hlt
      simp only at hi hlt
      have hlow : sh.nextWrite ≤ i := by omega
      have hmem := (hperm.map Prod.fst).mem_iff.mp (h.kept hready.cancelled hd i hlow hlt)
      rw [List.map_cons] at hmem
      rcases List.mem_cons.mp hmem with heq | hmem
      · simp only at heq
        omega
      · exact hmem
    · simp only
      rw [hready.output, hpart, parts_succ (by omega)]
    · exact fun i hi => h.blamed i (hsubset _ hi).1
    · intro hf
      rcases h.lost hf with hfailing | ⟨i, hi, hlt, hnot⟩
      · simp [hmain, Main.failing] at hfailing
      · have hne : i ≠ sh.nextWrite := by
          rintro rfl
          exact hnot (hperm.mem_iff.mpr List.mem_cons_self)
        refine ⟨i, ?_, hlt, fun hmem => hnot (hsubset _ hmem).1⟩
        simp only at hi ⊢
        omega
  rw [he]
  exact hgoing.launch.1.proceed hgoing.launch.2

theorem count_pos (s : Span) : 0 < s.count := Nat.succ_pos _

theorem parts_append_take (content : List β) {i : ℕ} (hi : i < s.count) (n : ℕ) :
    parts content s i ++ (part content s i).take n <+: whole content s := by
  refine List.IsPrefix.trans ?_ (parts_isPrefix content s (i + 1))
  rw [parts_succ hi]
  exact (List.prefix_append_right_inj _).mpr (List.take_prefix _ _)

/-- The first part has been written. -/
theorem Inv.first {trace : List Seen} {data : List β} {e : StreamEffect β}
    (h : Inv content s ⟨sh, ts, trace⟩) (hmain : sh.main = .first)
    (hdata : data = part content s 0)
    (he : e = launch s { sh with output := sh.output ++ data }) :
    Inv content s ⟨proceed s e.shared, ts ++ e.spawned, trace⟩ := by
  have hplace := h.main
  rw [MainOk, hmain] at hplace
  obtain ⟨houtput, hwrite, -, hcancelled⟩ := hplace
  have hgoing : Going content s { sh with output := sh.output ++ data } ts trace := by
    refine ⟨⟨h.window.pos, h.window.le, h.window.le_count, h.window.le_workers⟩,
      ⟨h.holds.nodup, h.holds.bounds, h.holds.running, h.holds.workers, h.holds.results,
        h.holds.pending⟩, fun hd => h.kept hcancelled hd, ?_, hcancelled, h.blamed, h.ctxDone, ?_⟩
    · simp only at houtput hwrite ⊢
      rw [houtput, hwrite, hdata, parts_succ (count_pos s), parts_zero]
    · intro hf
      refine (h.lost hf).resolve_left ?_
      simp [hmain, Main.failing]
  rw [he]
  exact hgoing.launch.1.proceed hgoing.launch.2

theorem Inv.mainStep {r : StreamEffect β} {o : MainOutcome β} (hfits : (s.last : ℤ) + 1 < 2 ^ 63)
    (h : Inv content s p) (hhonest : Honest content s p (.event (.main o)))
    (hr : mainTurn s p.shared p.shared.main o = some r) :
    Inv content s ⟨r.shared, p.tasks ++ r.spawned, p.trace ++ r.seen⟩ := by
  obtain ⟨sh, ts, trace⟩ := p
  have hplace := h.main
  simp only [MainOk] at hplace
  rcases mainTurn_cases hr with ⟨tries, err, hm, rfl, herr, rfl⟩ | ⟨tries, e, hm, rfl, hok, he, rfl⟩ |
    ⟨got, rest, err, hm, hresults, herr, rfl⟩ | ⟨got, rest, hm, hresults, hok, rfl⟩ |
    ⟨hm, hd, rfl⟩ | ⟨data, e, hm, he, rfl⟩ | ⟨data, n, hm, rfl⟩ | ⟨err, hm, hrunning, rfl⟩
  all_goals simp only at hm
  all_goals simp only [hm] at hplace
  · obtain ⟨n, hn⟩ := (pipePart_spec hfits (count_pos s) hhonest).1
    simp only [List.append_nil]
    refine h.failed ?_ List.suffix_rfl rfl rfl rfl rfl (by simp)
    simp only [hplace.1, hn]
    rw [← parts_zero content s]
    exact parts_append_take content (count_pos s) n
  · have hdata := (pipePart_spec hfits (count_pos s) hhonest).2 hok
    simp only [he, launch_seen, List.append_nil]
    exact h.first hm hdata rfl
  · simp only at hresults
    have htrace : trace ≠ [] := by
      refine h.blamed got.index ?_
      simp only [tokens, hresults, List.map_cons, herr]
      simp
    simp only [List.append_nil]
    refine h.failed ?_ ⟨[got], hresults.symm⟩ rfl rfl rfl rfl htrace
    simp only [hplace.1.output]
    exact parts_isPrefix content s _
  · simp only [List.append_nil]
    exact h.received hm hresults hok
  · simp only [List.append_nil]
    refine h.failed ?_ List.suffix_rfl rfl rfl rfl rfl (h.ctxDone hd)
    simp only [hplace.1.output]
    exact parts_isPrefix content s _
  · simp only [he, launch_seen, List.append_nil]
    exact h.wrote hm rfl
  · have hkeys : (sh.pending.map Prod.fst).Nodup := h.keys_nodup
    have hpart : data = part content s sh.nextWrite :=
      h.holds.pending _ ((Dict.mem_iff_get? hkeys).mpr hplace.2)
    have hmem : (sh.nextWrite, true) ∈ tokens ts sh := by
      refine List.mem_append_right _ (List.mem_map.mpr ⟨(sh.nextWrite, data), ?_, rfl⟩)
      exact (Dict.mem_iff_get? hkeys).mpr hplace.2
    have hlt := (h.holds.bounds _ hmem).2.trans_le h.window.le_count
    simp only [List.append_nil]
    refine h.failed ?_ List.suffix_rfl rfl rfl rfl rfl (by simp)
    simp only [hplace.1.output, hpart]
    exact parts_append_take content hlt n
  · simp only [List.append_nil]
    refine ⟨⟨h.window.pos, h.window.le, h.window.le_count, h.window.le_workers⟩,
      ⟨h.holds.nodup, h.holds.bounds, h.holds.running, h.holds.workers, h.holds.results,
        h.holds.pending⟩, fun hc => absurd hc (by simp), ?_, h.blamed, h.ctxDone, fun hf => ?_⟩
    · cases err with
      | none =>
        obtain ⟨hready, hcount⟩ := hplace
        refine ⟨?_, hcount, hrunning⟩
        simp only at hcount ⊢
        rw [hready.output, hcount, parts_count]
      | some err => exact ⟨hplace.1, hrunning, hplace.2.2⟩
    · refine (h.lost hf).imp_left fun hfailing => ?_
      simp only [hm] at hfailing
      cases err with
      | none => cases hfailing
      | some err => rfl

/-- A step keeps it all, where the upstream has the file. -/
theorem Inv.step {a : Action (WorkerOutcome β) (Event β)} (hfits : (s.last : ℤ) + 1 < 2 ^ 63)
    (h : Inv content s p) (hhonest : Honest content s p a) (hs : (system s).step p a = some q) :
    Inv content s q := by
  obtain ⟨sh, ts, trace⟩ := p
  obtain ⟨sh', ts', trace'⟩ := q
  rcases System.step_perm hs with ⟨i, o, t, r, others, rfl, ht, hr, hshared, htrace, hts, hts'⟩ |
    ⟨e, r, rfl, hr, hshared, htrace, -⟩
  · simp only at hshared htrace
    subst hshared htrace
    refine Inv.perm ?_ hts'.symm
    have hbefore := h.perm hts
    rcases workerTurn_cases hr with ⟨index, tries, rfl, rfl, rfl⟩ | ⟨x, rfl, rfl, rfl⟩ |
      ⟨x, rfl, rfl, hstop, rfl⟩
    · exact hbefore.piped hfits (hhonest index ht)
    · simp only [List.append_nil]
      exact hbefore.exited rfl rfl rfl rfl rfl rfl rfl rfl (.inl rfl)
    · simp only [List.append_nil]
      exact hbefore.exited rfl rfl rfl rfl rfl rfl rfl rfl (.inr ⟨rfl, hstop⟩)
  · rcases System.step_cases hs with ⟨i, o, t, r, ha, -⟩ | ⟨e', r', ha, hr', heq⟩
    · cases ha
    · cases ha
      rw [heq]
      cases e with
      | main o => exact h.mainStep hfits hhonest hr'
      | ctxDone =>
        obtain rfl := Option.some.inj hr'
        have hgrow : trace ++ [Seen.ctxDone] ≠ [] := by simp
        simp only [List.append_nil]
        refine ⟨⟨h.window.pos, h.window.le, h.window.le_count, h.window.le_workers⟩,
          ⟨h.holds.nodup, h.holds.bounds, h.holds.running, h.holds.workers, h.holds.results,
            h.holds.pending⟩, fun _ hd => absurd hd (by simp), ?_, fun _ _ => hgrow,
          fun _ => hgrow, fun hf => h.lost (by simpa using hf)⟩
        exact h.main.worker (fun _ => hgrow) le_rfl rfl rfl rfl rfl rfl rfl

theorem inv_start (content : List β) (s : Span) : Inv content s (streamUpstreamSpanParallel s) := by
  have hcount := count_pos s
  have hworkers := s.workers_pos
  simp only [streamUpstreamSpanParallel]
  rw [max_eq_right (le_min hcount hworkers)]
  generalize hlimit : min s.count s.workers = limit
  have htokens : ∀ sh : Shared β, sh.results = [] → sh.pending = [] →
      tokens ((List.range' 1 (limit - 1)).map .piping) sh =
        (List.range' 1 (limit - 1)).map fun i => (i, true) := by
    intro sh hresults hpending
    have heq : Worker.token ∘ Worker.piping (β := β) = some ∘ fun i => (i, true) := rfl
    simp only [tokens, hresults, hpending, List.map_nil, List.append_nil, List.filterMap_map, heq,
      List.filterMap_eq_map]
  have hfst : ((List.range' 1 (limit - 1)).map fun i => (i, true)).map Prod.fst =
      List.range' 1 (limit - 1) := by
    rw [List.map_map]
    exact List.map_id _
  refine ⟨⟨le_rfl, by simp only; omega, by simp only; omega, by simp only; omega⟩,
    ⟨?_, ?_, ?_, ?_, by simp, by simp⟩, ?_, ⟨rfl, rfl, by simp only; omega, rfl⟩, ?_, by simp,
    by simp⟩
  · rw [htokens _ rfl rfl, hfst]
    exact List.nodup_range'
  · intro t ht
    rw [htokens _ rfl rfl] at ht
    obtain ⟨i, hi, rfl⟩ := List.mem_map.mp ht
    rw [List.mem_range'_1] at hi
    simp only
    omega
  · have hall : List.countP (Worker.active ∘ Worker.piping (β := β)) (List.range' 1 (limit - 1)) =
        (List.range' 1 (limit - 1)).length := List.countP_eq_length.mpr fun _ _ => rfl
    rw [List.countP_map, hall, List.length_range']
  · intro r hr
    obtain ⟨i, -, heq⟩ := List.mem_map.mp hr
    cases heq
  · intro _ _ i hi hlt
    simp only [held]
    rw [htokens _ rfl rfl, hfst, List.mem_range'_1]
    simp only at hi hlt
    omega
  · intro i hi
    simp only at hi
    rw [htokens _ rfl rfl] at hi
    obtain ⟨j, -, heq⟩ := List.mem_map.mp hi
    cases (Prod.mk.inj heq).2

end Steps

/-! ### The sequential stream -/

section Sequential

variable {content : List β} {s : Span}

theorem partStart_le_last_iff {i : ℕ} : s.partStart i ≤ s.last ↔ i < s.count := by
  refine ⟨fun hle => ?_, Span.partStart_le_last⟩
  have hmul : i * s.chunk ≤ s.last - s.start := by
    rw [Span.partStart] at hle
    omega
  exact Nat.lt_succ_of_le ((Nat.le_div_iff_mul_le s.chunk_pos).mpr hmul)

/-- From the part `i` on, the loop writes what is left of the range, or a part of it and returns an
error. -/
theorem streamUpstreamSpan_spec {tries : ℕ → Try β × Try β} (hfits : (s.last : ℤ) + 1 < 2 ^ 63)
    (htries : ∀ i, (tries i).1.Honest content (s.partStart i) ∧
      (tries i).2.Honest content (s.partStart i)) {i : ℕ} (hi : i ≤ s.count) :
    parts content s i ++ (streamUpstreamSpan s tries i).1 <+: whole content s ∧
      ((streamUpstreamSpan s tries i).2 = none →
        parts content s i ++ (streamUpstreamSpan s tries i).1 = whole content s) := by
  induction hk : s.count - i generalizing i with
  | zero =>
    obtain rfl : i = s.count := by omega
    rw [streamUpstreamSpan, if_neg (by rw [partStart_le_last_iff]; omega), List.append_nil,
      parts_count]
    exact ⟨List.prefix_rfl, fun _ => rfl⟩
  | succ k ih =>
    have hlt : i < s.count := by omega
    obtain ⟨⟨n, hn⟩, hwhole⟩ := pipePart_spec hfits hlt (htries i)
    rw [streamUpstreamSpan, if_pos (partStart_le_last_iff.mpr hlt)]
    rcases hpipe : pipePart s i (tries i) with ⟨data, _ | err⟩
    · rw [hpipe] at hwhole
      have hdata : data = part content s i := hwhole rfl
      have hrest := ih hlt (by omega)
      rw [parts_succ hlt, ← hdata, List.append_assoc] at hrest
      exact hrest
    · rw [hpipe] at hn
      simp only at hn ⊢
      rw [hn]
      exact ⟨parts_append_take content hlt n, fun herr => by simp at herr⟩

end Sequential

/-! ### Turns left -/

def Worker.rank : Worker β → ℕ
  | .piping _ => 4
  | .sending _ => 3
  | .exited => 0

def Main.rank : Main β → ℕ
  | .first => 3
  | .selecting => 2
  | .writing _ => 2
  | .waiting _ => 1
  | .returned _ => 0

/-- What every turn uses up. -/
def work (s : Span) (p : Stream β) : ℕ :=
  (p.tasks.map Worker.rank).sum + 2 * p.shared.results.length + p.shared.pending.length +
    5 * (s.count - p.shared.nextLaunch) + p.shared.main.rank

/-- A turn of the function or of a worker. -/
def isTurn : Action (WorkerOutcome β) (Event β) → Bool
  | .resume _ _ => true
  | .event (.main _) => true
  | .event .ctxDone => false

section Work

variable {content : List β} {s : Span} {p q : Stream β} {sh : Shared β}
  {as : List (Action (WorkerOutcome β) (Event β))}

@[simp] theorem proceed_results (s : Span) (sh : Shared β) :
    (proceed s sh).results = sh.results := rfl

@[simp] theorem proceed_pending (s : Span) (sh : Shared β) :
    (proceed s sh).pending = sh.pending := rfl

@[simp] theorem proceed_nextLaunch (s : Span) (sh : Shared β) :
    (proceed s sh).nextLaunch = sh.nextLaunch := rfl

theorem proceed_rank (s : Span) (sh : Shared β) : (proceed s sh).main.rank ≤ 2 := by
  simp only [proceed]
  split
  · exact le_rfl
  · split_ifs
    · exact le_rfl
    · exact Nat.le_succ 1

theorem launch_work (sh : Shared β) (hle : sh.nextLaunch ≤ s.count) :
    ((launch s sh).spawned.map Worker.rank).sum + 5 * (s.count - (launch s sh).shared.nextLaunch) ≤
      5 * (s.count - sh.nextLaunch) := by
  simp only [launch]
  generalize hlimit : max sh.nextLaunch (min s.count (sh.nextWrite + s.workers)) = limit
  have hspawned : (((List.range' sh.nextLaunch (limit - sh.nextLaunch)).map
      (Worker.piping (β := β))).map Worker.rank).sum = 4 * (limit - sh.nextLaunch) := by
    have heq : Worker.rank ∘ Worker.piping (β := β) = fun _ => 4 := rfl
    rw [List.map_map, heq]
    simp [mul_comm]
  rw [hspawned]
  omega

theorem length_modify_le {κ γ : Type*} [DecidableEq κ] (k : κ) (new : γ) (f : γ → γ)
    (d : List (κ × γ)) : (Dict.modify k new f d).length ≤ d.length + 1 := by
  induction d with
  | nil => exact le_rfl
  | cons e d ih =>
    obtain ⟨k', v⟩ := e
    rw [Dict.modify]
    split_ifs
    · exact Nat.le_succ _
    · exact Nat.succ_le_succ ih

theorem mainTurn_work {r : StreamEffect β} {o : MainOutcome β} (h : Inv content s p)
    (hr : mainTurn s p.shared p.shared.main o = some r) :
    work s ⟨r.shared, p.tasks ++ r.spawned, p.trace ++ r.seen⟩ < work s p := by
  obtain ⟨sh, ts, trace⟩ := p
  have hplace := h.main
  have hle : sh.nextLaunch ≤ s.count := h.window.le_count
  simp only [MainOk] at hplace
  rcases mainTurn_cases hr with ⟨tries, err, hm, rfl, herr, rfl⟩ | ⟨tries, e, hm, rfl, hok, he, rfl⟩ |
    ⟨got, rest, err, hm, hresults, herr, rfl⟩ | ⟨got, rest, hm, hresults, hok, rfl⟩ |
    ⟨hm, hd, rfl⟩ | ⟨data, e, hm, he, rfl⟩ | ⟨data, n, hm, rfl⟩ | ⟨err, hm, hrunning, rfl⟩
  all_goals simp only at hm
  all_goals simp only [hm] at hplace
  · simp only [work, fail, hm, Main.rank, List.append_nil]
    omega
  · have hlaunch := launch_work (s := s)
      { sh with output := sh.output ++ (pipePart s 0 tries).1 } hle
    have hrank := proceed_rank s e.shared
    have hresults : e.shared.results = sh.results := by rw [he]; rfl
    have hpending : e.shared.pending = sh.pending := by rw [he]; rfl
    rw [← he] at hlaunch
    have hbefore : sh.main.rank = 3 := by rw [hm]; rfl
    simp only [work, List.map_append, List.sum_append, proceed_results, proceed_pending,
      proceed_nextLaunch, hresults, hpending] at hlaunch ⊢
    omega
  · simp only at hresults
    simp only [work, fail, hm, hresults, Main.rank, List.append_nil, List.length_cons]
    omega
  · simp only at hresults
    have hlength := length_modify_le got.index got.data (fun _ => got.data) sh.pending
    have hrank := proceed_rank s { sh with
      results := rest
      pending := Dict.modify got.index got.data (fun _ => got.data) sh.pending }
    have hbefore : sh.main.rank = 2 := by rw [hm]; rfl
    simp only [work, List.append_nil, proceed_results, proceed_pending, proceed_nextLaunch,
      hresults, List.length_cons]
    omega
  · simp only [work, fail, hm, Main.rank, List.append_nil]
    omega
  · have hlength := (Dict.perm_filter_ne h.keys_nodup hplace.2).length_eq
    have hlaunch := launch_work (s := s)
      { sh with
        output := sh.output ++ data
        pending := sh.pending.filter (·.1 ≠ sh.nextWrite)
        nextWrite := sh.nextWrite + 1 } hle
    have hrank := proceed_rank s e.shared
    have hresults : e.shared.results = sh.results := by rw [he]; rfl
    have hpending : e.shared.pending = sh.pending.filter (·.1 ≠ sh.nextWrite) := by rw [he]; rfl
    rw [← he] at hlaunch
    have hbefore : sh.main.rank = 2 := by rw [hm]; rfl
    simp only [work, List.map_append, List.sum_append, proceed_results, proceed_pending,
      proceed_nextLaunch, hresults, hpending, List.length_cons] at hlaunch hlength ⊢
    omega
  · simp only [work, fail, hm, Main.rank, List.append_nil]
    omega
  · simp only [work, hm, Main.rank, List.append_nil]
    omega

theorem step_work {a : Action (WorkerOutcome β) (Event β)} (h : Inv content s p)
    (hs : (system s).step p a = some q) : work s q + (isTurn a).toNat ≤ work s p := by
  rcases System.step_cases hs with ⟨i, o, t, r, rfl, ht, hr, rfl⟩ | ⟨e, r, rfl, hr, rfl⟩
  · have hperm := List.getElem_cons_eraseIdx_perm (List.getElem?_eq_some_iff.mp ht).1
    have hset := List.set_perm_cons_eraseIdx (List.getElem?_eq_some_iff.mp ht).1 r.task
    rw [(List.getElem?_eq_some_iff.mp ht).2] at hperm
    have hbefore := (hperm.map Worker.rank).sum_nat
    have hafter := (hset.map Worker.rank).sum_nat
    simp only [List.map_cons, List.sum_cons] at hbefore hafter
    rcases workerTurn_cases hr with ⟨index, tries, rfl, rfl, rfl⟩ | ⟨x, rfl, rfl, rfl⟩ |
      ⟨x, rfl, rfl, -, rfl⟩
    · simp only [work, isTurn, Bool.toNat_true, List.append_nil, Worker.rank] at hbefore hafter ⊢
      omega
    · simp only [work, isTurn, Bool.toNat_true, List.append_nil, Worker.rank, List.length_append,
        List.length_singleton] at hbefore hafter ⊢
      omega
    · simp only [work, isTurn, Bool.toNat_true, List.append_nil, Worker.rank] at hbefore hafter ⊢
      omega
  · cases e with
    | main o => exact mainTurn_work h hr
    | ctxDone =>
      obtain rfl := Option.some.inj hr
      simp only [work, isTurn, Bool.toNat_false, List.append_nil, Nat.add_zero]
      exact le_rfl

/-- The turns of a run are what it has used up at most. -/
theorem run_spec (hfits : (s.last : ℤ) + 1 < 2 ^ 63) (hp : Inv content s p)
    (hr : (system s).run p as = some q) (hhonest : (system s).Along (Honest content s) p as) :
    Inv content s q ∧ as.countP isTurn + work s q ≤ work s p := by
  induction as generalizing p with
  | nil =>
    obtain rfl := Option.some.inj hr
    exact ⟨hp, by simp⟩
  | cons a as ih =>
    obtain ⟨p', hs, hr⟩ := (System.run_cons _).mp hr
    have hnext := hhonest p' hs
    have hstep := step_work hp hs
    obtain ⟨hq, hwork⟩ := ih (hp.step hfits hnext.1 hs) hr hnext.2
    refine ⟨hq, ?_⟩
    rw [List.countP_cons]
    cases hturn : isTurn a
    · simp only [hturn, Bool.toNat_false, Bool.false_eq_true, if_false] at hstep ⊢
      omega
    · simp only [hturn, Bool.toNat_true, if_true] at hstep ⊢
      omega

theorem work_start (s : Span) : work s (streamUpstreamSpanParallel (β := β) s) ≤ 5 * s.count := by
  have hcount := count_pos s
  have hworkers := s.workers_pos
  simp only [work, streamUpstreamSpanParallel]
  generalize hlimit : max 1 (min s.count s.workers) = limit
  have heq : Worker.rank ∘ Worker.piping (β := β) = fun _ => 4 := rfl
  have hsum : (((List.range' 1 (limit - 1)).map (Worker.piping (β := β))).map Worker.rank).sum =
      4 * (limit - 1) := by
    rw [List.map_map, heq]
    simp [mul_comm]
  rw [hsum]
  simp only [Main.rank, List.length_nil]
  omega

end Work

/-! ### No goroutine is left -/

section Progress

variable {content : List β} {s : Span} {p : Stream β}

/-- A worker that has not ended has a turn, where the channel has room or the stream ends. -/
theorem exists_worker_turn {t : Worker β} (ht : t ∈ p.tasks) (hactive : t.active)
    (hfree : p.shared.results.length < s.workers ∨ p.shared.cancelled ∨ p.shared.ctxDone) :
    ∃ a q, isTurn a ∧ (system s).step p a = some q := by
  obtain ⟨i, hi⟩ := List.mem_iff_getElem?.mp ht
  have hturn : ∀ {o : WorkerOutcome β} {r : WorkerTurn β}, workerTurn s p.shared t o = some r →
      ∃ a q, isTurn a ∧ (system s).step p a = some q := by
    intro o r hr
    refine ⟨.resume i o,
      ⟨r.shared, p.tasks.set i r.task ++ r.spawned, p.trace ++ r.seen⟩, rfl, ?_⟩
    rw [System.step, hi, Option.bind_some]
    exact congrArg (Option.map _) hr
  cases t with
  | piping index => exact hturn (o := .piped (⟨none, false, none⟩, ⟨none, false, none⟩)) rfl
  | sending r =>
    by_cases hroom : p.shared.results.length < s.workers
    · exact hturn (o := .sent) (if_pos hroom)
    · exact hturn (o := .stopped) (if_pos (hfree.resolve_left hroom))
  | exited => cases hactive

theorem exists_main_turn {o : MainOutcome β} {r : StreamEffect β}
    (hr : mainTurn s p.shared p.shared.main o = some r) :
    ∃ a q, isTurn a ∧ (system s).step p a = some q := by
  refine ⟨.event (.main o), ⟨r.shared, p.tasks ++ r.spawned, p.trace ++ r.seen⟩, rfl, ?_⟩
  exact congrArg (Option.map _) hr

/-- Until the function returns, it or one of its workers has a turn. -/
theorem Inv.progress (h : Inv content s p) (hm : ∀ err, p.shared.main ≠ .returned err) :
    ∃ a q, isTurn a ∧ (system s).step p a = some q := by
  have hplace := h.main
  rw [MainOk] at hplace
  have hworkers := s.workers_pos
  rcases hmain : p.shared.main with _ | _ | data | err | err
  · have hr : (mainTurn s p.shared p.shared.main
        (.piped (⟨none, false, none⟩, ⟨none, false, none⟩))).isSome := by
      rw [hmain, mainTurn]
      split <;> rfl
    obtain ⟨r, hr⟩ := Option.isSome_iff_exists.mp hr
    exact exists_main_turn hr
  · rw [hmain] at hplace
    obtain ⟨hready, hlt, hget⟩ := hplace
    by_cases hd : p.shared.ctxDone = true
    · refine exists_main_turn (o := .done) (r := { shared := fail p.shared .cancelled }) ?_
      rw [hmain, mainTurn, if_pos hd]
    · rcases hresults : p.shared.results with _ | ⟨got, rest⟩
      · -- The next part is neither in the channel nor in the map, so a worker has it.
        have hlaunched := hready.launched
        have hheld := h.kept hready.cancelled (by simpa using hd) p.shared.nextWrite le_rfl (by omega)
        obtain ⟨⟨i, ok⟩, ht, hi⟩ := List.mem_map.mp hheld
        simp only at hi
        subst hi
        simp only [tokens, hresults, List.map_nil, List.append_nil] at ht
        rcases List.mem_append.mp ht with ht | ht
        · obtain ⟨t, hmem, htoken⟩ := List.mem_filterMap.mp ht
          refine exists_worker_turn hmem ?_ (.inl ?_)
          · cases t <;> simp_all [Worker.token, Worker.active]
          · rw [hresults]
            exact hworkers
        · obtain ⟨e, he, heq⟩ := List.mem_map.mp ht
          have hkey : p.shared.nextWrite ∈ p.shared.pending.map Prod.fst :=
            List.mem_map.mpr ⟨e, he, (Prod.mk.inj heq).1⟩
          rw [Dict.mem_keys_iff, hget] at hkey
          cases hkey
      · have hr : (mainTurn s p.shared p.shared.main .received).isSome := by
          rw [hmain, mainTurn, hresults]
          simp only
          split <;> rfl
        obtain ⟨r, hr⟩ := Option.isSome_iff_exists.mp hr
        exact exists_main_turn hr
  · exact exists_main_turn (o := .wrote) (by rw [hmain]; rfl)
  · by_cases hrunning : p.shared.running = 0
    · refine exists_main_turn (o := .exited)
        (r := { shared := { p.shared with cancelled := true, main := .returned err } }) ?_
      rw [hmain, mainTurn, if_pos hrunning]
    · have hactive := h.holds.running
      obtain ⟨t, ht, hactive⟩ := List.countP_pos_iff.mp (Nat.pos_of_ne_zero (hactive ▸ hrunning))
      refine exists_worker_turn ht hactive ?_
      rw [hmain] at hplace
      cases err with
      | some err => exact .inr (.inl hplace.2.1)
      | none =>
        -- All parts have been written, so that no worker holds one.
        have hle := h.window.le_count
        have htoken : ∃ x, t.token = some x := by
          cases t with
          | piping index => exact ⟨_, rfl⟩
          | sending r => exact ⟨_, rfl⟩
          | exited => cases hactive
        obtain ⟨x, hx⟩ := htoken
        have hmem : x ∈ tokens p.tasks p.shared :=
          List.mem_append_left _ (List.mem_append_left _ (List.mem_filterMap.mpr ⟨t, ht, hx⟩))
        have hbounds := h.holds.bounds x hmem
        have hcount := hplace.2
        omega
  · exact absurd hmain (hm err)

/-- The part that the function itself fetches. -/
def Main.fetching : Main β → Bool
  | .first => true
  | _ => false

/-- The window bounds what is held, and the part that is written directly. -/
theorem Inv.held_le (h : Inv content s p) :
    (held p).length + p.shared.main.fetching.toNat ≤ s.workers := by
  have hsubset : held p ⊆ List.range' p.shared.nextWrite (p.shared.nextLaunch - p.shared.nextWrite) := by
    intro i hi
    obtain ⟨t, ht, rfl⟩ := List.mem_map.mp hi
    have hbounds := h.holds.bounds t ht
    rw [List.mem_range'_1]
    omega
  have hlength : (held p).length ≤ (List.range' p.shared.nextWrite
      (p.shared.nextLaunch - p.shared.nextWrite)).length :=
    (List.subperm_of_subset h.holds.nodup hsubset).length_le
  rw [List.length_range'] at hlength
  have hle := h.window.le_workers
  have hle' := h.window.le
  have hplace := h.main
  rw [MainOk] at hplace
  cases hmain : p.shared.main with
  | first =>
    rw [hmain] at hplace
    have hworkers := s.workers_pos
    obtain ⟨-, hwrite, hlaunch, -⟩ := hplace
    simp only [Main.fetching, Bool.toNat_true]
    omega
  | _ =>
    simp only [Main.fetching, Bool.toNat_false]
    omega

/-- What is written are bytes of the range, from its start on. -/
theorem Inv.output_prefix (h : Inv content s p) : p.shared.output <+: whole content s := by
  have hplace := h.main
  rw [MainOk] at hplace
  rcases hmain : p.shared.main with _ | _ | data | (_ | err) | (_ | err) <;> rw [hmain] at hplace
  · rw [hplace.1]
    exact List.nil_prefix
  · rw [hplace.1.output]
    exact parts_isPrefix content s _
  · rw [hplace.1.output]
    exact parts_isPrefix content s _
  · rw [hplace.1.output]
    exact parts_isPrefix content s _
  · exact hplace.1
  · rw [hplace.1]
  · exact hplace.1

theorem Inv.returned {err : Option StreamError} (h : Inv content s p)
    (hm : p.shared.main = .returned err) :
    (∀ t ∈ p.tasks, t = .exited) ∧
      (err = none → p.shared.output = whole content s ∧ .failed ∉ p.trace) ∧
      (p.trace = [] → err = none) := by
  have hplace := h.main
  rw [MainOk, hm] at hplace
  have hrunning : p.shared.running = 0 := by
    cases err with
    | none => exact hplace.2.2
    | some err => exact hplace.2.1
  refine ⟨fun t ht => ?_, ?_, fun htrace => ?_⟩
  · have hcount := h.holds.running
    rw [hrunning] at hcount
    have hnot := List.countP_eq_zero.mp hcount.symm t ht
    cases t with
    | exited => rfl
    | _ => exact absurd rfl hnot
  · rintro rfl
    refine ⟨hplace.1, fun hfailed => ?_⟩
    have hle := h.window.le_count
    have hcount := hplace.2.1
    rcases h.lost hfailed with hfailing | ⟨i, hi, hlt, -⟩
    · rw [hm] at hfailing
      cases hfailing
    · omega
  · cases err with
    | none => rfl
    | some err => exact absurd htrace hplace.2.2

end Progress

/-- What is written are always bytes of the range in order, and no more parts than the concurrency
are fetched or buffered. A call that has returned has left no goroutine; it returns no error where
no fetch or write fails and its context goes on, and then it has written the whole range, as the
sequential stream has. Until it returns there is a turn, and there are only so many of them. -/
theorem parallel_spec {content : List β} {s : Span} {p : Stream β}
    {as : List (Action (WorkerOutcome β) (Event β))} (hfits : (s.last : ℤ) + 1 < 2 ^ 63)
    (hrun : (system s).run (streamUpstreamSpanParallel s) as = some p)
    (hhonest : (system s).Along (Honest content s) (streamUpstreamSpanParallel s) as) :
    p.shared.output <+: whole content s ∧
    (held p).length + p.shared.main.fetching.toNat ≤ s.workers ∧
    (∀ err, p.shared.main = .returned err →
      (∀ t ∈ p.tasks, t = .exited) ∧
      (err = none → p.shared.output = whole content s ∧ .failed ∉ p.trace) ∧
      (p.trace = [] → err = none)) ∧
    ((∀ err, p.shared.main ≠ .returned err) → ∃ a q, isTurn a ∧ (system s).step p a = some q) ∧
    as.countP isTurn ≤ 5 * s.count ∧
    ∀ tries : ℕ → Try β × Try β,
      (∀ i, (tries i).1.Honest content (s.partStart i) ∧
        (tries i).2.Honest content (s.partStart i)) →
      (streamUpstreamSpan s tries 0).1 <+: whole content s ∧
        ((streamUpstreamSpan s tries 0).2 = none →
          (streamUpstreamSpan s tries 0).1 = whole content s) := by
  obtain ⟨hinv, hwork⟩ := run_spec hfits (inv_start content s) hrun hhonest
  have hstart := work_start (β := β) s
  refine ⟨hinv.output_prefix, hinv.held_le, fun err => hinv.returned, hinv.progress, by omega, ?_⟩
  intro tries htries
  have hspan := streamUpstreamSpan_spec hfits htries (Nat.zero_le s.count)
  rwa [parts_zero, List.nil_append] at hspan

/-- Three bytes in parts of two, two at once. -/
def twoParts : Span where
  start := 0
  last := 2
  chunk := 2
  workers := 2
  start_le := by decide
  chunk_pos := Nat.two_pos
  workers_pos := Nat.two_pos

def servePart (data : List Char) : Try Char × Try Char :=
  (⟨some { status := 206, body := ⟨data, false⟩ }, false, some false⟩, ⟨none, false, some false⟩)

/-- The second part is fetched before the first one. -/
def secondFirst : List (Action (WorkerOutcome Char) (Event Char)) :=
  [.resume 0 (.piped (servePart ['c'])), .resume 0 .sent, .event (.main (.piped (servePart ['a', 'b']))),
    .event (.main .received), .event (.main .wrote), .event (.main .exited)]

theorem honest_servePart {content data : List Char} {start : ℤ}
    (h : data <+: content.drop start.toNat) :
    (servePart data).1.Honest content start ∧ (servePart data).2.Honest content start := by
  refine ⟨fun resp hresp _ => ?_, fun resp hresp => by cases hresp⟩
  obtain rfl := Option.some.inj hresp
  exact h

theorem parallel_spec_two :
    ∃ p, (system twoParts).run (streamUpstreamSpanParallel twoParts) secondFirst = some p ∧
      p.shared.output = whole ['a', 'b', 'c'] twoParts := by
  obtain ⟨p, hp, hmain⟩ := Option.map_eq_some_iff.mp (show ((system twoParts).run
    (streamUpstreamSpanParallel twoParts) secondFirst).map (fun p => p.shared.main) =
      some (.returned none) by decide)
  have hhonest : (system twoParts).Along (Honest ['a', 'b', 'c'] twoParts)
      (streamUpstreamSpanParallel twoParts) secondFirst := by
    refine fun _ _ => ⟨?_, fun _ _ => ⟨trivial, fun _ _ => ⟨?_, fun _ _ => ⟨trivial, fun _ _ =>
      ⟨trivial, fun _ _ => ⟨trivial, trivial⟩⟩⟩⟩⟩⟩
    · intro index hindex
      obtain rfl : 1 = index := by
        have hone : (streamUpstreamSpanParallel (β := Char) twoParts).tasks[0]? =
            some (.piping 1) := by decide
        exact Worker.piping.inj (Option.some.inj (hone.symm.trans hindex))
      exact honest_servePart ⟨[], rfl⟩
    · exact honest_servePart ⟨['c'], rfl⟩
  have hspec := (parallel_spec (by decide) hp hhonest).2.2.1 none hmain
  exact ⟨p, hp, (hspec.2.1 rfl).1⟩

end AllInOneBackup.LitePan.Playback.RangeProxy
