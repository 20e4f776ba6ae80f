import AllInOneBackup.Data.Slice
import Mathlib.Algebra.Order.Ring.Int
import Mathlib.Tactic.SplitIfs

/-! `pipeUpstreamRange`: of what the upstream answers to a range, at most the range is copied. Only a
try that has copied nothing is followed by another, so what is copied are bytes of the file, from
the start of the range on. -/

namespace AllInOneBackup.LitePan.Playback.RangePipe

open Data

variable {β : Type*}

/-- An int64. -/
def wrap64 (n : ℤ) : ℤ := n.bmod (2 ^ 64)

/-- What a body gives until it ends or, with `failed`, until its reader or the writer that it is
copied to fails. -/
structure Body (β : Type*) where
  bytes : List β
  failed : Bool := false
  deriving DecidableEq

/-- `rangeStart` is what `contentRangeStart` reads. -/
structure Response (β : Type*) where
  status : ℕ
  contentLength : ℤ := -1
  rangeStart : Option ℤ := none
  body : Body β
  deriving DecidableEq

/-- What a try meets: the answer of `doRangeRequest`, if it is no error, whether `ctx` is done then,
and what `refreshAfterFailure` returns, if it is no error. -/
structure Try (β : Type*) where
  response : Option (Response β)
  cancelled : Bool := false
  refreshed : Option Bool := some false
  deriving DecidableEq

inductive PipeError
  | request
  | refresh
  | unavailable
  | status (status : ℕ)
  | rangeStart
  | body
  | overlong
  | empty
  | incomplete
  deriving DecidableEq

/-- A range is asked for again, or an error or none is returned. -/
inductive Verdict
  | again
  | done (err : Option PipeError)
  deriving DecidableEq

def shouldRefreshUpstreamStatus (status : ℕ) : Bool :=
  status = 401 ∨ status = 403 ∨ status = 404 ∨ status = 408 ∨ status = 429 ∨ status ≥ 500

/-- `refreshAfterFailure`, and `err` where nothing is refreshed. -/
def Try.refresh (t : Try β) (err : PipeError) : Verdict :=
  match t.refreshed with
  | none => .done (some .refresh)
  | some true => .again
  | some false => .done (some err)

/-- The copy of the body, and what is looked at after it. -/
def copyBody (want : ℤ) (first : Bool) (t : Try β) (body : Body β) : List β × Verdict :=
  let data := body.bytes.take want.toNat
  if body.failed ∧ body.bytes.length < want then (data, .done (some .body))
  else if data.length = want then
    if body.bytes.length > want then (data, .done (some .overlong))
    else if body.failed then (data, .done (some .body))
    else (data, .done none)
  else if data.length = 0 ∧ first then (data, t.refresh .empty)
  else (data, .done (some .incomplete))

/-- The body of the loop. -/
def attempt (start last : ℤ) (first : Bool) (t : Try β) : List β × Verdict :=
  match t.response with
  | none => if first ∧ ¬t.cancelled then ([], t.refresh .request) else ([], .done (some .request))
  | some resp =>
    if shouldRefreshUpstreamStatus resp.status then ([], t.refresh .unavailable)
    else
      let want := wrap64 (last - start + 1)
      let validFullResponse : Bool := resp.status = 200 ∧ start = 0 ∧ resp.contentLength = want
      if resp.status ≠ 206 ∧ ¬validFullResponse then ([], .done (some (.status resp.status)))
      else if resp.status = 206 ∧ resp.rangeStart.any (· ≠ start) then
        ([], .done (some .rangeStart))
      else copyBody want first t resp.body

/-- What is written, and the error. -/
def pipeUpstreamRange (start last : ℤ) (tries : Try β × Try β) : List β × Option PipeError :=
  match attempt start last true tries.1 with
  | (data, .done err) => (data, err)
  | (data, .again) => match attempt start last false tries.2 with
    | (data', .done err) => (data ++ data', err)
    | (data', .again) => (data ++ data', some .incomplete)

/-! ### What is written -/

/-- A response with the range, or with the whole file from its start on, has the bytes of the file
there. -/
def Try.Honest (content : List β) (start : ℤ) (t : Try β) : Prop :=
  ∀ resp ∈ t.response, (resp.status = 206 ∧ resp.rangeStart.all (· = start)) ∨
    (resp.status = 200 ∧ start = 0) → resp.body.bytes <+: content.drop start.toNat

section Pipe

variable {content data : List β} {start last : ℤ} {first : Bool} {t : Try β} {v : Verdict}

theorem Try.refresh_ne {err : PipeError} : t.refresh err ≠ .done none := by
  unfold Try.refresh
  split <;> simp

/-- What a try writes of the range, all of it where it returns no error, nothing where another one
follows. -/
structure Wrote (content : List β) (start want : ℤ) (data : List β) (v : Verdict) : Prop where
  isPrefix : data <+: content.drop start.toNat
  length_le : data.length ≤ want.toNat
  complete : v = .done none → (data.length : ℤ) = want
  nothing : v = .again → data = []

theorem wrote_nil (want : ℤ) (hv : v ≠ .done none) : Wrote content start want [] v :=
  ⟨List.nil_prefix, Nat.zero_le _, fun h => absurd h hv, fun _ => rfl⟩

theorem copyBody_spec (want : ℤ) {body : Body β} (hbody : body.bytes <+: content.drop start.toNat) :
    Wrote content start want (copyBody want first t body).1 (copyBody want first t body).2 := by
  have hdata : body.bytes.take want.toNat <+: content.drop start.toNat :=
    (List.take_prefix _ _).trans hbody
  have hlength : (body.bytes.take want.toNat).length ≤ want.toNat := by simp
  have hother : ∀ err, Wrote content start want (body.bytes.take want.toNat) (.done (some err)) :=
    fun err => ⟨hdata, hlength, by simp, by simp⟩
  unfold copyBody
  simp only
  split_ifs with hfailed hwant hlong hextra hempty
  · exact hother _
  · exact hother _
  · exact hother _
  · exact ⟨hdata, hlength, fun _ => hwant, by simp⟩
  · rw [List.length_eq_zero_iff.mp hempty.1]
    exact wrote_nil want Try.refresh_ne
  · exact hother _

theorem attempt_spec (last : ℤ) (first : Bool) (ht : t.Honest content start) :
    Wrote content start (wrap64 (last - start + 1)) (attempt start last first t).1
      (attempt start last first t).2 := by
  unfold attempt
  cases hresp : t.response with
  | none =>
    simp only
    split_ifs
    · exact wrote_nil _ Try.refresh_ne
    · exact wrote_nil _ (by simp)
  | some resp =>
    have hbody := ht resp hresp
    simp only
    split_ifs with hrefresh hinvalid hstart
    · exact wrote_nil _ Try.refresh_ne
    · exact wrote_nil _ (by simp)
    · exact wrote_nil _ (by simp)
    · refine copyBody_spec _ (hbody ?_)
      by_cases h206 : resp.status = 206
      · refine .inl ⟨h206, ?_⟩
        cases hr : resp.rangeStart with
        | none => rfl
        | some n => simpa [h206, hr] using hstart
      · have hvalid : resp.status = 200 ∧ start = 0 := by
          by_contra hnot
          exact hinvalid ⟨h206, fun hfull => hnot ⟨(of_decide_eq_true hfull).1,
            (of_decide_eq_true hfull).2.1⟩⟩
        exact .inr hvalid

/-- What is written are bytes of the file from the start of the range on, no more than the range
has, and all of these where there is no error. -/
theorem pipeUpstreamRange_spec (last : ℤ) {tries : Try β × Try β}
    (h : tries.1.Honest content start ∧ tries.2.Honest content start) :
    (pipeUpstreamRange start last tries).1 <+: content.drop start.toNat ∧
      (pipeUpstreamRange start last tries).1.length ≤ (wrap64 (last - start + 1)).toNat ∧
      ((pipeUpstreamRange start last tries).2 = none →
        ((pipeUpstreamRange start last tries).1.length : ℤ) = wrap64 (last - start + 1)) := by
  have hfirst := attempt_spec last true h.1
  have hsecond := attempt_spec last false h.2
  unfold pipeUpstreamRange
  rcases hone : attempt start last true tries.1 with ⟨data, v⟩
  rw [hone] at hfirst
  cases v with
  | done err =>
    exact ⟨hfirst.isPrefix, hfirst.length_le, fun herr => hfirst.complete (by simpa using herr)⟩
  | again =>
    obtain rfl := hfirst.nothing rfl
    rcases htwo : attempt start last false tries.2 with ⟨data', v'⟩
    rw [htwo] at hsecond
    cases v' with
    | done err =>
      exact ⟨hsecond.isPrefix, hsecond.length_le, fun herr => hsecond.complete (by simpa using herr)⟩
    | again => exact ⟨hsecond.isPrefix, hsecond.length_le, fun herr => absurd herr (by simp)⟩

/-- An int64 that fits. -/
theorem wrap64_eq {n : ℤ} (hlower : -2 ^ 63 ≤ n) (hupper : n < 2 ^ 63) : wrap64 n = n :=
  Int.bmod_eq_of_le_mul_two (by omega) (by omega)

/-- A range of the file that is written without an error is written whole. -/
theorem pipeUpstreamRange_eq (last : ℤ) {tries : Try β × Try β}
    (h : tries.1.Honest content start ∧ tries.2.Honest content start) (hstart : 0 ≤ start)
    (hlast : start ≤ last + 1) (hfits : last + 1 < 2 ^ 63)
    (herr : (pipeUpstreamRange start last tries).2 = none) :
    (pipeUpstreamRange start last tries).1 =
      slice content start.toNat (last + 1 - start).toNat := by
  obtain ⟨hpre, -, hlength⟩ := pipeUpstreamRange_spec last h
  have hlength := hlength herr
  rw [wrap64_eq (by omega) (by omega)] at hlength
  rw [eq_slice_of_isPrefix hpre]
  congr 1
  omega

end Pipe

end AllInOneBackup.LitePan.Playback.RangePipe
