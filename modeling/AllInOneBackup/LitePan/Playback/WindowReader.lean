import AllInOneBackup.LitePan.Playback.WindowFetch

/-! `readAt`, over one window of the file and one that is fetched ahead. Both start at a multiple of
the window size and go to the next one or to the end of the file, so a window is told by its offset,
and what is copied from it are bytes of the file. -/

namespace AllInOneBackup.LitePan.Playback.WindowReader

open Concurrency Data RangePipe

variable {β : Type*}

/-! ### `remote_window_reader.go`: reads -/

/-- A prefetch, and what its channel brings. -/
structure Prefetch (β : Type*) where
  off : ℕ
  done : Except ReadError (List β)

structure Reader (β : Type*) where
  window : List β := []
  windowOff : ℕ := 0
  prefetch : Option (Prefetch β) := none
  progressEnd : ℤ := -1

/-- What a pass of the loop of `readAt` meets: what `fetchWindow` returns, to the pass or to a prefetch
that it starts, for each offset and length, whether the context ends before the prefetch that is
waited for, and whether it is done after that one has failed. -/
structure Env (β : Type*) where
  fetch : ℕ → ℕ → Except ReadError (List β)
  prefetch : ℕ → ℕ → Except ReadError (List β)
  ctxDone : Bool := false
  ctxErr : Bool := false

def Reader.contains (r : Reader β) (off : ℕ) : Bool :=
  0 < r.window.length && r.windowOff ≤ off && off < r.windowOff + r.window.length

def Reader.accept (r : Reader β) (windowOff : ℕ) (data : List β) : Reader β :=
  { r with window := data, windowOff, progressEnd := windowOff }

/-- `progressEnd` is raised to the end. -/
def Reader.advance (r : Reader β) (readEnd : ℤ) : Reader β :=
  if r.progressEnd < readEnd then { r with progressEnd := readEnd } else r

section Read

variable (c : Config)

def windowStart (off : ℕ) : ℕ := off / c.windowSize * c.windowSize

/-- `length`, the window size or what is left of the file. -/
def windowLength (windowOff : ℕ) : ℕ :=
  if c.size < windowOff + c.windowSize then c.size - windowOff else c.windowSize

/-- The end of `loadWindow`. -/
def fetchInto (r : Reader β) (windowOff : ℕ) (env : Env β) : Reader β × Option ReadError :=
  match env.fetch windowOff (windowLength c windowOff) with
  | .ok data => (r.accept windowOff data, none)
  | .error err => (r, some err)

def loadWindow (r : Reader β) (off : ℕ) (env : Env β) : Reader β × Option ReadError :=
  let windowOff := windowStart c off
  if c.size ≤ windowOff then (r, some .eof)
  else
    let next := { r with prefetch := none }
    match r.prefetch with
    | none => fetchInto c next windowOff env
    | some prefetch =>
      if prefetch.off = windowOff then
        if env.ctxDone then (next, some .context)
        else
          match prefetch.done with
          | .ok data => (next.accept windowOff data, none)
          | .error _ =>
            if env.ctxErr then (next, some .context) else fetchInto c next windowOff env
      else fetchInto c next windowOff env

def startNextPrefetch (r : Reader β) (env : Env β) : Reader β :=
  let nextOff := r.windowOff + r.window.length
  if r.window.length = 0 ∨ c.size ≤ nextOff then r
  else if r.prefetch.any (·.off = nextOff) then r
  else
    let length := windowLength c nextOff
    if length = 0 then { r with prefetch := none }
    else { r with prefetch := some ⟨nextOff, env.prefetch nextOff length⟩ }

def observeRead (r : Reader β) (off length : ℕ) (env : Env β) : Reader β :=
  let windowEnd := r.windowOff + r.window.length
  if length = 0 ∨ off < r.windowOff ∨ windowEnd ≤ off then r
  else
    let r := r.advance r.windowOff
    if off > r.progressEnd + remoteSequentialGap then r
    else
      let r := r.advance (off + length)
      if r.progressEnd - r.windowOff ≥ r.window.length / 2 then startNextPrefetch c r env else r

/-- The loop of `readAt`, from `written` on, with what it copies; the pass at `written` meets
`env written`. -/
def readLoop (env : ℕ → Env β) (off length : ℕ) (r : Reader β) (written : ℕ) :
    Reader β × List β × Option ReadError :=
  if written < length then
    let curOff := off + written
    let loaded := if r.contains curOff then (r, none) else loadWindow c r curOff (env written)
    match loaded with
    | (r, some err) => (r, [], some err)
    | (r, none) =>
      if curOff < r.windowOff ∨ r.windowOff + r.window.length ≤ curOff then
        (r, [], some .unexpectedEOF)
      else
        let data := (r.window.drop (curOff - r.windowOff)).take (length - written)
        if data.length = 0 then (r, [], some .noProgress)
        else
          let rest := readLoop env off length (observeRead c r curOff data.length (env written))
            (written + data.length)
          (rest.1, data ++ rest.2.1, rest.2.2)
  else (r, [], none)
  termination_by length - written
  decreasing_by
    change length - (written + data.length) < length - written
    omega

/-- What is copied into `p` of a length, and the error. -/
def readAt (env : ℕ → Env β) (r : Reader β) (length : ℕ) (off : ℤ) :
    Reader β × List β × Option ReadError :=
  if length = 0 then (r, [], none)
  else if off < 0 then (r, [], some .negativeOffset)
  else if c.size ≤ off then (r, [], some .eof)
  else
    let left := c.size - off.toNat
    let (r, data, err) := readLoop c env off.toNat (min length left) r 0
    (r, data, if err = none ∧ left < length then some .eof else err)

end Read

/-! ### Windows -/

section Windows

variable {content data : List β} {c : Config} {r : Reader β} {off windowOff : ℕ} {env : Env β}

structure IsWindow (content : List β) (c : Config) (windowOff : ℕ) (data : List β) : Prop where
  aligned : c.windowSize ∣ windowOff
  lt : windowOff < c.size
  eq : data = slice content windowOff (windowLength c windowOff)

/-- The window and the prefetch, if it brings one, are windows of the file. -/
structure Cached (content : List β) (c : Config) (r : Reader β) : Prop where
  window : r.window ≠ [] → IsWindow content c r.windowOff r.window
  prefetch : ∀ p ∈ r.prefetch, ∀ data, p.done = .ok data → IsWindow content c p.off data

/-- The windows are fetched from an honest upstream. -/
def Env.Honest [Inhabited β] (content : List β) (c : Config) (env : Env β) : Prop :=
  ∀ off length, off + length ≤ c.size → Fetches c off length content (env.fetch off length) ∧
    Fetches c off length content (env.prefetch off length)

/-- The window of an offset could not be loaded, with the error. -/
def LoadFailed (c : Config) (env : Env β) (off : ℕ) (err : ReadError) : Prop :=
  env.fetch (windowStart c off) (windowLength c (windowStart c off)) = .error err ∨
    err = .context ∧ (env.ctxDone ∨ env.ctxErr)

theorem contains_iff : r.contains off ↔
    0 < r.window.length ∧ r.windowOff ≤ off ∧ off < r.windowOff + r.window.length := by
  simp [Reader.contains, and_assoc]

theorem windowStart_le (c : Config) (off : ℕ) : windowStart c off ≤ off := Nat.div_mul_le_self _ _

theorem lt_windowStart_add (c : Config) (off : ℕ) : off < windowStart c off + c.windowSize :=
  Nat.lt_div_mul_add c.window_pos

theorem windowLength_eq (c : Config) (windowOff : ℕ) :
    windowLength c windowOff = min c.windowSize (c.size - windowOff) := by
  unfold windowLength
  split_ifs <;> omega

theorem IsWindow.length (h : IsWindow content c windowOff data) (hsize : c.size = content.length) :
    data.length = min c.windowSize (c.size - windowOff) := by
  rw [h.eq, length_slice, windowLength_eq, hsize]
  omega

theorem IsWindow.of_fetches [Inhabited β] (haligned : c.windowSize ∣ windowOff)
    (hlt : windowOff < c.size)
    (h : Fetches c windowOff (windowLength c windowOff) content (.ok data)) :
    IsWindow content c windowOff data := ⟨haligned, hlt, fetches_ok h⟩

theorem add_windowLength_le (h : windowOff < c.size) :
    windowOff + windowLength c windowOff ≤ c.size := by
  rw [windowLength_eq]
  omega

theorem Cached.accept (h : Cached content c r) (hdata : IsWindow content c windowOff data) :
    Cached content c (r.accept windowOff data) := ⟨fun _ => hdata, h.prefetch⟩

theorem Cached.dropPrefetch (h : Cached content c r) :
    Cached content c { r with prefetch := none } := ⟨h.window, by simp⟩

theorem cached_empty (content : List β) (c : Config) : Cached content c {} :=
  ⟨fun h => absurd rfl h, by simp⟩

/-- A window is loaded that has the offset, or there is an error of a fetch. -/
structure Loads (content : List β) (c : Config) (off : ℕ) (env : Env β)
    (loaded : Reader β × Option ReadError) : Prop where
  cached : Cached content c loaded.1
  contains : loaded.2 = none → loaded.1.contains off
  failed : ∀ err, loaded.2 = some err → LoadFailed c env off err

theorem contains_accept (hsize : c.size = content.length) (hoff : off < c.size)
    (hdata : IsWindow content c (windowStart c off) data) :
    (r.accept (windowStart c off) data).contains off := by
  have hlength := hdata.length hsize
  have hle := windowStart_le c off
  have hlt := lt_windowStart_add c off
  rw [contains_iff]
  simp only [Reader.accept]
  omega

theorem fetchInto_spec [Inhabited β] (hsize : c.size = content.length) (hoff : off < c.size)
    (h : Cached content c r) (henv : env.Honest content c) :
    Loads content c off env (fetchInto c r (windowStart c off) env) := by
  have hlt : windowStart c off < c.size := (windowStart_le c off).trans_lt hoff
  have hfetches := (henv _ _ (add_windowLength_le hlt)).1
  unfold fetchInto
  cases hfetch : env.fetch (windowStart c off) (windowLength c (windowStart c off)) with
  | ok data =>
    rw [hfetch] at hfetches
    have hdata := IsWindow.of_fetches (Nat.dvd_mul_left _ _) hlt hfetches
    exact ⟨h.accept hdata, fun _ => contains_accept hsize hoff hdata, by simp⟩
  | error err =>
    refine ⟨h, by simp, fun err' herr => .inl ?_⟩
    rw [hfetch, Option.some.inj herr]

theorem loadWindow_spec [Inhabited β] (hsize : c.size = content.length) (hoff : off < c.size)
    (h : Cached content c r) (henv : env.Honest content c) :
    Loads content c off env (loadWindow c r off env) := by
  have hlt : windowStart c off < c.size := (windowStart_le c off).trans_lt hoff
  have hfetch := fetchInto_spec hsize hoff h.dropPrefetch henv
  have hcontext : env.ctxDone ∨ env.ctxErr →
      Loads content c off env ({ r with prefetch := none }, some .context) := by
    intro hctx
    refine ⟨h.dropPrefetch, by simp, fun err herr => .inr ⟨?_, hctx⟩⟩
    exact (Option.some.inj herr).symm
  unfold loadWindow
  simp only
  rw [if_neg (by omega)]
  cases hprefetch : r.prefetch with
  | none => exact hfetch
  | some prefetch =>
    simp only
    by_cases hsame : prefetch.off = windowStart c off
    · rw [if_pos hsame]
      by_cases hdone : env.ctxDone = true
      · rw [if_pos hdone]
        exact hcontext (.inl hdone)
      · rw [if_neg hdone]
        cases hresult : prefetch.done with
        | ok data =>
          have hdata := h.prefetch prefetch hprefetch data hresult
          rw [hsame] at hdata
          exact ⟨h.dropPrefetch.accept hdata, fun _ => contains_accept hsize hoff hdata, by simp⟩
        | error err =>
          simp only
          split_ifs with herr
          · exact hcontext (.inr herr)
          · exact hfetch
    · rw [if_neg hsame]
      exact hfetch

/-- The next window starts where this one ends, at a multiple of the window size. -/
theorem Cached.startNextPrefetch [Inhabited β] (hsize : c.size = content.length)
    (h : Cached content c r) (henv : env.Honest content c) :
    Cached content c (startNextPrefetch c r env) := by
  unfold WindowReader.startNextPrefetch
  simp only
  split_ifs with hend hsame hlength
  · exact h
  · exact h
  · exact h.dropPrefetch
  · rw [not_or] at hend
    have hwindow := h.window (fun hnil => hend.1 (by rw [hnil]; rfl))
    have hlt : r.windowOff + r.window.length < c.size := by omega
    have haligned : c.windowSize ∣ r.windowOff + r.window.length := by
      have hfull : r.window.length = c.windowSize := by
        have hlen := hwindow.length hsize
        omega
      rw [hfull]
      exact (Nat.dvd_add_left (dvd_refl _)).mpr hwindow.aligned
    refine ⟨h.window, fun p hp data hdata => ?_⟩
    obtain rfl := Option.some.inj hp
    refine IsWindow.of_fetches haligned hlt ?_
    rw [← hdata]
    exact (henv _ _ (add_windowLength_le hlt)).2

theorem Cached.observeRead [Inhabited β] (hsize : c.size = content.length)
    (h : Cached content c r) (henv : env.Honest content c) (curOff n : ℕ) :
    Cached content c (observeRead c r curOff n env) := by
  have hadvance : ∀ {r : Reader β}, Cached content c r → ∀ e : ℤ, Cached content c (r.advance e) := by
    intro r h e
    unfold Reader.advance
    split_ifs
    · exact ⟨h.window, h.prefetch⟩
    · exact h
  have hfirst := hadvance h r.windowOff
  have hsecond := hadvance hfirst (curOff + n)
  unfold WindowReader.observeRead
  simp only
  generalize r.advance r.windowOff = first at hfirst hsecond ⊢
  split_ifs
  · exact h
  · exact hfirst
  · exact Cached.startNextPrefetch hsize hsecond henv
  · exact hsecond

end Windows

/-! ### Reads -/

section Reads

variable {content : List β} {c : Config} {r : Reader β} {off length written : ℕ} {env : ℕ → Env β}

/-- What the loop has copied, all of it unless a window could not be loaded. -/
structure Copies (content : List β) (c : Config) (env : ℕ → Env β) (off length written : ℕ)
    (result : Reader β × List β × Option ReadError) : Prop where
  cached : Cached content c result.1
  bytes : result.2.1 = slice content (off + written) result.2.1.length
  le : written + result.2.1.length ≤ length
  complete : result.2.2 = none → written + result.2.1.length = length
  failed : ∀ err, result.2.2 = some err → written + result.2.1.length < length ∧
    LoadFailed c (env (written + result.2.1.length)) (off + (written + result.2.1.length)) err

theorem readLoop_spec [Inhabited β] (hsize : c.size = content.length)
    (henv : ∀ i, (env i).Honest content c) (hlength : off + length ≤ c.size)
    (h : Cached content c r) (hle : written ≤ length) :
    Copies content c env off length written (readLoop c env off length r written) := by
  induction hn : length - written using Nat.strongRecOn generalizing r written with
  | _ n ih =>
    rw [readLoop]
    by_cases hlt : written < length
    · rw [if_pos hlt]
      simp only
      have hloaded : Loads content c (off + written) (env written)
          (if r.contains (off + written) then (r, none)
            else loadWindow c r (off + written) (env written)) := by
        split_ifs with hcontains
        · exact ⟨h, fun _ => hcontains, by simp⟩
        · exact loadWindow_spec hsize (by omega) h (henv written)
      generalize (if r.contains (off + written) then (r, none)
        else loadWindow c r (off + written) (env written)) = loaded at hloaded
      obtain ⟨r', _ | err⟩ := loaded
      · have hcontains := contains_iff.mp (hloaded.contains rfl)
        have hcached := hloaded.cached
        simp only at hcontains hcached ⊢
        have hwindow := hcached.window (List.ne_nil_of_length_pos hcontains.1)
        have hwlength := hwindow.length hsize
        rw [if_neg (by omega)]
        have hdata : (r'.window.drop (off + written - r'.windowOff)).take (length - written) =
            slice content (off + written)
              ((r'.window.drop (off + written - r'.windowOff)).take (length - written)).length := by
          have hdrop : r'.window.drop (off + written - r'.windowOff) <+: content.drop (off + written) := by
            rw [hwindow.eq, drop_slice]
            have hoff : r'.windowOff + (off + written - r'.windowOff) = off + written := by omega
            rw [hoff]
            exact slice_prefix _ _ _
          exact eq_slice_of_isPrefix ((List.take_prefix _ _).trans hdrop)
        have hdlength : ((r'.window.drop (off + written - r'.windowOff)).take
            (length - written)).length =
            min (length - written) (r'.window.length - (off + written - r'.windowOff)) := by
          rw [List.length_take, List.length_drop]
        generalize (r'.window.drop (off + written - r'.windowOff)).take (length - written) = data
          at hdata hdlength ⊢
        rw [if_neg (by omega)]
        have hrest := ih (length - (written + data.length)) (by omega)
          (hcached.observeRead hsize (henv written) (off + written) data.length) (by omega) rfl
        generalize readLoop c env off length (observeRead c r' (off + written) data.length
          (env written)) (written + data.length) = rest at hrest
        have hsum : written + (data ++ rest.2.1).length = written + data.length + rest.2.1.length := by
          rw [List.length_append]
          omega
        refine ⟨hrest.cached, ?_, ?_, ?_, ?_⟩
        · have hbytes := hrest.bytes
          simp only
          rw [List.length_append, slice_add, ← hdata, Nat.add_assoc, ← hbytes]
        · simp only [hsum]
          exact hrest.le
        · simp only [hsum]
          exact hrest.complete
        · simp only [hsum]
          exact hrest.failed
      · refine ⟨hloaded.cached, by simp, by simpa using hle, by simp, fun err' herr => ?_⟩
        simp only at herr ⊢
        exact ⟨by simpa using hlt, by simpa using hloaded.failed err' herr⟩
    · rw [if_neg hlt]
      exact ⟨h, by simp, by simpa using hle, fun _ => by simp; omega, by simp⟩

/-- What a read of a part that starts at `off` gives. The bytes are the file's; behind its end there
are none, and a read that would go beyond it says so; fewer bytes than asked for and there are come
with the error of the window that could not be loaded. -/
structure Served (content : List β) (c : Config) (env : ℕ → Env β) (length off : ℕ) (data : List β)
    (err : Option ReadError) : Prop where
  bytes : data = slice content off data.length
  le : data.length ≤ length
  complete : err = none → data.length = length ∧ off + length ≤ c.size
  atEnd : c.size ≤ off → data = [] ∧ err = some .eof
  outcome : off < c.size →
    data.length = min length (c.size - off) ∧
      err = (if c.size < off + length then some .eof else none) ∨
    data.length < min length (c.size - off) ∧
      ∃ e, err = some e ∧ LoadFailed c (env data.length) (off + data.length) e

theorem readAt_cached [Inhabited β] (hsize : c.size = content.length)
    (henv : ∀ i, (env i).Honest content c) (h : Cached content c r) (length : ℕ) (off : ℤ) :
    Cached content c (readAt c env r length off).1 := by
  unfold readAt
  split_ifs with hempty hnegative hend
  · exact h
  · exact h
  · exact h
  · have hlength : off.toNat + min length (c.size - off.toNat) ≤ c.size := by omega
    exact (readLoop_spec hsize henv hlength h (Nat.zero_le _)).cached

theorem readAt_served [Inhabited β] (hsize : c.size = content.length)
    (henv : ∀ i, (env i).Honest content c) (h : Cached content c r) (hlength : 0 < length) :
    Served content c env length off (readAt c env r length off).2.1
      (readAt c env r length off).2.2 := by
  unfold readAt
  rw [if_neg (by omega), if_neg (by omega)]
  by_cases hend : c.size ≤ off
  · rw [if_pos (by omega)]
    exact ⟨rfl, Nat.zero_le _, by simp, fun _ => ⟨rfl, rfl⟩, fun hoff => by omega⟩
  · rw [if_neg (by omega), Int.toNat_natCast]
    have hfits : off + min length (c.size - off) ≤ c.size := by omega
    have hloop := readLoop_spec hsize henv hfits h (Nat.zero_le _)
    simp only
    generalize readLoop c env off (min length (c.size - off)) r 0 = result at hloop ⊢
    obtain ⟨r', data, err⟩ := result
    have hbytes := hloop.bytes
    have hle := hloop.le
    simp only [Nat.add_zero, Nat.zero_add] at hbytes hle
    cases err with
    | none =>
      have hcomplete := hloop.complete rfl
      simp only [Nat.zero_add] at hcomplete
      have hbeyond : c.size - off < length ↔ c.size < off + length := by omega
      simp only [true_and, hbeyond]
      refine ⟨hbytes, by omega, fun hnone => ?_, fun hoff => absurd hoff hend,
        fun _ => .inl ⟨hcomplete, rfl⟩⟩
      split_ifs at hnone with hlong
      omega
    | some err =>
      have hfailed := hloop.failed err rfl
      simp only [Nat.zero_add] at hfailed
      simp only [reduceCtorEq, false_and, if_false]
      exact ⟨hbytes, by omega, by simp, fun hoff => absurd hoff hend,
        fun _ => .inr ⟨hfailed.1, err, rfl, hfailed.2⟩⟩

end Reads

/-- A call of `readAt`. -/
structure Call (β : Type*) where
  length : ℕ
  off : ℤ
  env : ℕ → Env β

/-- The reader after some calls. -/
def after (c : Config) (calls : List (Call β)) : Reader β :=
  calls.foldl (fun r call => (readAt c call.env r call.length call.off).1) {}

theorem after_cached [Inhabited β] {content : List β} {c : Config} (hsize : c.size = content.length)
    {calls : List (Call β)} (h : ∀ call ∈ calls, ∀ i, (call.env i).Honest content c) :
    Cached content c (after c calls) := by
  induction calls using List.reverseRecOn with
  | nil => exact cached_empty content c
  | append_singleton calls call ih =>
    rw [after, List.foldl_append, List.foldl_cons, List.foldl_nil]
    have hbefore := ih fun call' hcall' => h call' (List.mem_append_left _ hcall')
    exact readAt_cached hsize (h call (by simp)) hbefore call.length call.off

/-- After any calls a read gives what the file has there. -/
theorem reads_served [Inhabited β] (content : List β) (c : Config) (hsize : c.size = content.length)
    (calls : List (Call β)) (h : ∀ call ∈ calls, ∀ i, (call.env i).Honest content c)
    (env : ℕ → Env β) (henv : ∀ i, (env i).Honest content c) (length off : ℕ)
    (hlength : 0 < length) :
    Served content c env length off (readAt c env (after c calls) length off).2.1
      (readAt c env (after c calls) length off).2.2 :=
  readAt_served hsize henv (after_cached hsize h) hlength

/-! ### An upstream that answers, and one that does not -/

section Answers

variable {content : List β} {c : Config} {off length : ℕ}

/-- A try that is not answered. -/
def silent : Try β := { response := none }

theorem silent_honest (start : ℤ) : (silent : Try β).Honest content start := by
  intro resp hresp
  cases hresp

def answered (content : List β) (off : ℕ) : Try β :=
  { response := some { status := 206, body := { bytes := content.drop off } } }

theorem answered_honest : (answered content off).Honest content off := by
  intro resp hresp _
  obtain rfl := Option.some.inj hresp
  exact List.prefix_refl _

theorem fetches_slice [Inhabited β] (hone : min c.concurrency (partCount c length) ≤ 1)
    (h : off + length ≤ content.length) :
    Fetches c off length content (.ok (slice content off length)) := by
  unfold Fetches
  rw [if_pos hone]
  split_ifs with hzero
  · rw [hzero, slice_zero]
  · refine ⟨⟨(answered content off, silent), false⟩, ⟨(silent, silent), false⟩,
      ⟨⟨answered_honest, silent_honest _⟩, silent_honest _, silent_honest _⟩, ?_⟩
    have hread : readRangeOnce c off length (answered content off, silent) =
        (slice content off length, none) := by
      rw [readRangeOnce, if_neg hzero]
      have hfull : ((content.drop off).take length).length = length := length_slice_of_le h
      simp [readRangeTry, answered, readFull, hfull, slice]
    rw [readRangeInto, if_neg hzero]
    simp only [hread, if_pos (length_slice_of_le h)]

theorem fetches_error [Inhabited β] (hone : min c.concurrency (partCount c length) ≤ 1)
    (hlength : length ≠ 0) : Fetches c off length content (.error .request) := by
  unfold Fetches
  rw [if_neg hlength, if_pos hone]
  refine ⟨⟨(silent, silent), false⟩, ⟨(silent, silent), false⟩,
    ⟨⟨silent_honest _, silent_honest _⟩, silent_honest _, silent_honest _⟩, ?_⟩
  have hread : ∀ off, readRangeOnce c off length ((silent : Try β), silent) =
      ([], some .request) := by
    intro off
    rw [readRangeOnce, if_neg hlength]
    rfl
  rw [readRangeInto, if_neg hlength]
  simp only [hread]
  simp [hlength.symm, hread]

end Answers

/-- A file of three bytes, in windows of two parts, for two workers. -/
def digits : List ℕ := [1, 2, 3]

def config : Config where
  size := 3
  partSize := 1
  concurrency := 2
  windowSize := 2
  size_pos := by decide
  part_pos := Nat.one_pos
  window_pos := Nat.two_pos

section Workers

variable (off : ℕ)

/-- A worker reads part `i`. -/
def readPartOf (i : ℕ) : WorkerOutcome ℕ :=
  .read ⟨(answered digits (off + i), silent), false⟩ ⟨(silent, silent), false⟩

/-- The workers read a part each, the second one first, and then it reads the other parts. -/
def inParallel (parts : ℕ) : List (Action (WorkerOutcome ℕ) FetchEvent) :=
  [.resume 0 .received, .resume 1 .received, .resume 1 (readPartOf off 1),
    .resume 0 (readPartOf off 0)] ++
  (List.range' 2 (parts - 2)).flatMap (fun i =>
    [.resume 1 .received, .resume 1 (readPartOf off i)]) ++
  [.event .close, .resume 0 .closed, .resume 1 .closed, .event .finish]

end Workers

/-- The first part is not answered, which stops the other worker. -/
def interrupted : List (Action (WorkerOutcome ℕ) FetchEvent) :=
  [.resume 0 .received, .resume 0 (.read ⟨(silent, silent), false⟩ ⟨(silent, silent), false⟩),
    .event .stop, .resume 1 .stopped, .event .finish]

instance (content : List ℕ) (start : ℤ) (t : Try ℕ) : Decidable (t.Honest content start) :=
  inferInstanceAs (Decidable (∀ resp ∈ t.response, (resp.status = 206 ∧
    resp.rangeStart.all (· = start)) ∨ (resp.status = 200 ∧ start = 0) →
      resp.body.bytes <+: content.drop start.toNat))

instance (content : List ℕ) (c : Config) (off n : ℕ) (first second : Once ℕ) :
    Decidable (Honest content c off n first second) := inferInstanceAs (Decidable (_ ∧ _))

instance (c : Config) (off length : ℕ) (content : List ℕ) (p : Fetch ℕ) :
    ∀ a : Action (WorkerOutcome ℕ) FetchEvent, Decidable (HonestStep c off length content p a)
  | .resume k (.read first second) =>
    match h : p.tasks[k]? with
    | some (.reading i) => decidable_of_iff (Honest content c (off + partBegin c i)
        (partEnd c length i - partBegin c i) first second) (by simp [HonestStep, h])
    | some .selecting | some .exited | none => .isTrue (by simp [HonestStep, h])
  | .resume _ .received | .resume _ .stopped | .resume _ .closed | .event _ => .isTrue trivial

def answering : Env ℕ where
  fetch off length := .ok (slice digits off length)
  prefetch off length := .ok (slice digits off length)

/-- The fetches of an `answering` upstream, but for one. -/
def failing : Env ℕ where
  fetch _ length := if length = 0 then .ok [] else .error .request
  prefetch off length := .ok (slice digits off length)

/-- One part, or one of the ranges with more. -/
theorem ranges_cases {off length : ℕ} (h : off + length ≤ config.size) :
    min config.concurrency (partCount config length) ≤ 1 ∨
      (off = 0 ∧ length = 2) ∨ (off = 1 ∧ length = 2) ∨ (off = 0 ∧ length = 3) := by
  have hsize : off + length ≤ 3 := h
  by_cases hone : length ≤ 1
  · have hcount : partCount config length = length := Nat.div_one _
    exact .inl ((min_le_right _ _).trans (hcount.le.trans hone))
  · omega

theorem fetches_digits {off length : ℕ} (h : off + length ≤ config.size) :
    Fetches config off length digits (.ok (slice digits off length)) := by
  rcases ranges_cases h with hone | ⟨rfl, rfl⟩ | ⟨rfl, rfl⟩ | ⟨rfl, rfl⟩
  · exact fetches_slice hone h
  all_goals rw [Fetches, if_neg (by decide), if_neg (by decide)]
  · exact ⟨inParallel 0 2, _, rfl, by decide, rfl⟩
  · exact ⟨inParallel 1 2, _, rfl, by decide, rfl⟩
  · exact ⟨inParallel 0 3, _, rfl, by decide, rfl⟩

theorem answering_honest : answering.Honest digits config := fun _ _ h =>
  ⟨fetches_digits h, fetches_digits h⟩

theorem failing_honest : failing.Honest digits config := by
  intro off length h
  refine ⟨?_, fetches_digits h⟩
  by_cases hzero : length = 0
  · subst hzero
    exact fetches_digits h
  · have herror : failing.fetch off length = .error .request := if_neg hzero
    rw [herror]
    rcases ranges_cases h with hone | ⟨rfl, rfl⟩ | ⟨rfl, rfl⟩ | ⟨rfl, rfl⟩
    · exact fetches_error hone hzero
    all_goals
      rw [Fetches, if_neg (by decide), if_neg (by decide)]
      exact ⟨interrupted, _, rfl, by decide, rfl⟩

/-- The first read loads a window of two parts and starts a prefetch, from which the second one has
its last byte, though a fetch would fail. -/
theorem reads_served_beyond :
    (∀ call ∈ [(⟨1, 0, fun _ => answering⟩ : Call ℕ)], ∀ i, (call.env i).Honest digits config) ∧
    (readAt config (fun _ => failing) (after config [⟨1, 0, fun _ => answering⟩]) 4 1).2 =
      ([2, 3], some .eof) ∧
    Served digits config (fun _ => failing) 4 1
      (readAt config (fun _ => failing) (after config [⟨1, 0, fun _ => answering⟩]) 4 1).2.1
      (readAt config (fun _ => failing) (after config [⟨1, 0, fun _ => answering⟩]) 4 1).2.2 := by
  have hcalls : ∀ call ∈ [(⟨1, 0, fun _ => answering⟩ : Call ℕ)],
      ∀ i, (call.env i).Honest digits config := by
    intro call hcall i
    rw [List.mem_singleton.mp hcall]
    exact answering_honest
  refine ⟨hcalls, ?_, reads_served digits config rfl _ hcalls _ (fun _ => failing_honest) 4 1
    (by decide)⟩
  have hend : ∀ (env : ℕ → Env ℕ) (off n : ℕ) (r : Reader ℕ),
      readLoop config env off n r n = (r, [], none) := by
    intro env off n r
    rw [readLoop, if_neg (lt_irrefl n)]
  have hfirst : after config [⟨1, 0, fun _ => answering⟩] = ⟨[1, 2], 0, some ⟨2, .ok [3]⟩, 1⟩ := by
    have hloop : readLoop config (fun _ => answering) 0 1 {} 0 =
        (⟨[1, 2], 0, some ⟨2, .ok [3]⟩, 1⟩, [1], none) := by
      rw [readLoop]
      change (let rest := readLoop config (fun _ => answering) 0 1 ⟨[1, 2], 0, some ⟨2, .ok [3]⟩, 1⟩ 1
        (rest.1, [1] ++ rest.2.1, rest.2.2)) = _
      rw [hend]
      rfl
    exact congrArg Prod.fst hloop
  have hlast : readLoop config (fun _ => failing) 1 2 ⟨[1, 2], 0, some ⟨2, .ok [3]⟩, 2⟩ 1 =
      (⟨[3], 2, none, 3⟩, [3], none) := by
    rw [readLoop]
    change (let rest := readLoop config (fun _ => failing) 1 2 ⟨[3], 2, none, 3⟩ 2
      (rest.1, [3] ++ rest.2.1, rest.2.2)) = _
    rw [hend]
    rfl
  have hloop : readLoop config (fun _ => failing) 1 2 ⟨[1, 2], 0, some ⟨2, .ok [3]⟩, 1⟩ 0 =
      (⟨[3], 2, none, 3⟩, [2, 3], none) := by
    rw [readLoop]
    change (let rest := readLoop config (fun _ => failing) 1 2 ⟨[1, 2], 0, some ⟨2, .ok [3]⟩, 2⟩ 1
      (rest.1, [2] ++ rest.2.1, rest.2.2)) = _
    rw [hlast]
    rfl
  rw [hfirst]
  exact congrArg (fun r : Reader ℕ × List ℕ × Option ReadError =>
    (r.2.1, if r.2.2 = none ∧ 2 < 4 then some ReadError.eof else r.2.2)) hloop

/-- A read beyond the end whose window fails is no end of file, and neither is an empty read at the
end. -/
theorem eof_not_exact :
    ¬(∀ env : ℕ → Env ℕ, (∀ i, (env i).Honest digits config) →
      ((readAt config env {} 2 2).2.2 = some .eof ↔ 3 ≤ 2 ∨ 3 < 2 + 2)) ∧
    ¬((readAt config (fun _ => answering) {} 0 3).2.2 = some .eof ↔ 3 ≤ 3 ∨ 3 < 3 + 0) := by
  constructor
  · intro h
    have heof := (h (fun _ => failing) fun _ => failing_honest).mpr (by decide)
    have hloop : readLoop config (fun _ => failing) 2 1 {} 0 = ({}, [], some .request) := by
      rw [readLoop]
      rfl
    have herr : (readAt config (fun _ => failing) {} 2 2).2.2 = some .request := by
      have hread : readAt config (fun _ => failing) {} 2 2 =
          ((readLoop config (fun _ => failing) 2 1 {} 0).1,
            (readLoop config (fun _ => failing) 2 1 {} 0).2.1,
            if (readLoop config (fun _ => failing) 2 1 {} 0).2.2 = none ∧ 1 < 2 then some .eof
            else (readLoop config (fun _ => failing) 2 1 {} 0).2.2) := rfl
      rw [hread, hloop]
      rfl
    rw [herr] at heof
    cases heof
  · intro h
    exact absurd (h.mpr (by decide)) (by decide)

end AllInOneBackup.LitePan.Playback.WindowReader
