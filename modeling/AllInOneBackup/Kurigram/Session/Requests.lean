import AllInOneBackup.Concurrency.Pool
import Mathlib.Algebra.Order.Ring.Int
import Mathlib.Data.Finset.Insert

/-! The requests of a session and their answers: `Session.send`, the part of `handle_packet` that
hands an answer to the request it names, and the part of `_stop` that fails the requests. A result
is named by the message id that it was made for. Packing, the connection, the clock and the server
are arbitrary. -/

namespace AllInOneBackup.Kurigram.Requests

open Concurrency

variable {τ α ε : Type}

/-! ### Results -/

/-- What `handle_packet` puts into a result: a value, `RpcError` or `BadServerSalt`. -/
inductive Answer (α ε : Type)
  | value (x : α)
  | rpcError (e : ε)
  | badServerSalt

/-- `Result`; the only exception is the one of `_stop`. -/
structure Result (α ε : Type) where
  value : Option (Answer α ε) := none
  event : Bool := false
  exception : Bool := false

/-- How an attempt ends: as `send` ends, with another attempt, or before anything was awaited. -/
inductive Ending (α ε : Type)
  | returned (x : α)
  | rpcError (e : ε)
  | timedOut
  | stopped
  | retried
  | failed

/-- What the result makes of the attempt. -/
def Result.ending (r : Result α ε) : Ending α ε :=
  if r.exception then .stopped
  else match r.value with
    | none => .timedOut
    | some (.value x) => .returned x
    | some (.rpcError e) => .rpcError e
    | some .badServerSalt => .retried

/-! ### Coroutines -/

/-- What a run shows: a message that got its id, an answer that arrived, `_stop`, and the end of an
attempt. -/
inductive Event (τ α ε : Type)
  | sent (msgId : ℤ) (data : τ)
  | answered (msgId : ℤ) (answer : Answer α ε)
  | stopped
  | ended (msgId : ℤ) (data : τ) (ending : Ending α ε)

/-- `_last_msg_id`, the keys of `results`, and the results themselves. -/
structure Session (α ε : Type) where
  lastMsgId : ℤ := 0
  results : List ℤ := []
  objects : ℤ → Result α ε := fun _ => {}

/-- The points of `send`; `wait` is `wait_response`. -/
inductive Send (τ : Type)
  | creating (data : τ) (wait : Bool)
  | packing (data : τ) (wait : Bool) (msgId : ℤ)
  | sending (data : τ) (wait : Bool) (msgId : ℤ)
  | waiting (data : τ) (msgId : ℤ)
  | finished

/-- What an awaited call did. `created` is `MsgFactory.create`, with the clock as a message id and
whether the message was written. -/
inductive Outcome
  | created (now : ℤ) (written : Bool)
  | returned
  | osError
  | raised
  | timeout

/-- `allocate` is an id that `handle_packet` takes, to compare the clocks. -/
inductive External (τ α ε : Type)
  | send (data : τ) (wait : Bool)
  | allocate (now : ℤ)
  | answer (msgId : ℤ) (answer : Answer α ε)
  | stop

abbrev SendTurn (τ α ε : Type) := Turn (Session α ε) (Send τ) (Event τ α ε)

abbrev RequestPool (τ α ε : Type) := Pool (Session α ε) (Send τ) (Event τ α ε)

namespace Session

variable (s : Session α ε)

/-- `allocate_message_identity`. -/
def allocate (now : ℤ) : ℤ :=
  let base := now / 4 * 4
  if base ≤ s.lastMsgId then s.lastMsgId + 4 else base

/-- `self.results.pop(msg_id, None)`. -/
def pop (msgId : ℤ) : Session α ε := { s with results := s.results.filter (· ≠ msgId) }

/-- The end of an attempt, for which a result was made or not. -/
def fail (data : τ) (wait : Bool) (msgId : ℤ) : SendTurn τ α ε :=
  { shared := s, task := .finished, seen := if wait then [.ended msgId data .failed] else [] }

/-- The end of `send`, behind the wait. -/
def finish (data : τ) (msgId : ℤ) : SendTurn τ α ε :=
  { shared := s.pop msgId
    task := match (s.objects msgId).ending with
      | .retried => .creating data true
      | _ => .finished
    seen := [.ended msgId data (s.objects msgId).ending] }

def resume : Send τ → Outcome → Option (SendTurn τ α ε)
  | .creating data wait, .created now written =>
    let msgId := s.allocate now
    let s := { s with lastMsgId := msgId }
    if written then some
      { shared :=
          if wait then
            { s with
              results := msgId :: s.results
              objects := Function.update s.objects msgId {} }
          else s
        task := .packing data wait msgId
        seen := [.sent msgId data] }
    else some { shared := s, task := .finished }
  | .packing data wait msgId, .returned => some { shared := s, task := .sending data wait msgId }
  | .packing data wait msgId, .raised => some (s.fail data wait msgId)
  | .sending data wait msgId, .returned =>
    some { shared := s, task := if wait then .waiting data msgId else .finished }
  | .sending data wait msgId, .osError => some ((s.pop msgId).fail data wait msgId)
  | .sending data wait msgId, .raised => some (s.fail data wait msgId)
  | .waiting data msgId, .returned =>
    if (s.objects msgId).event then some (s.finish data msgId) else none
  | .waiting data msgId, .timeout => some (s.finish data msgId)
  | _, _ => none

/-- An answer to the request with the id, if somebody waits for it. -/
def deliver (msgId : ℤ) (answer : Answer α ε) : Session α ε :=
  if msgId ∈ s.results then
    { s with
      objects := Function.update s.objects msgId
        { s.objects msgId with value := some answer, event := true } }
  else s

/-- `_stop` fails every result in the dictionary, and empties it. -/
def failAll : Session α ε :=
  { s with
    results := []
    objects := fun msgId =>
      if msgId ∈ s.results then { s.objects msgId with exception := true, event := true }
      else s.objects msgId }

def event : External τ α ε → Option (Effect (Session α ε) (Send τ) (Event τ α ε))
  | .send data wait => some { shared := s, spawned := [.creating data wait] }
  | .allocate now => some { shared := { s with lastMsgId := s.allocate now } }
  | .answer msgId answer =>
    some { shared := s.deliver msgId answer, seen := [.answered msgId answer] }
  | .stop => some { shared := s.failAll, seen := [.stopped] }

end Session

def system : System (Session α ε) (Send τ) (Event τ α ε) Outcome (External τ α ε) :=
  ⟨Session.resume, Session.event⟩

def start : RequestPool τ α ε := { shared := {} }

/-! ### A request by itself -/

/-- What has become of a request since it got its id. -/
structure Status (τ α ε : Type) where
  data : τ
  stopped : Bool := false
  answer : Option (Answer α ε) := none

/-- The request with the id sees its own events, and `_stop`; after that, no answer. -/
def Status.step (msgId : ℤ) (st : Option (Status τ α ε)) : Event τ α ε → Option (Status τ α ε)
  | .sent id data => if id = msgId then some { data } else st
  | .answered id answer =>
    if id = msgId then
      st.map fun st => if st.stopped then st else { st with answer := some answer }
    else st
  | .stopped => st.map fun st => { st with stopped := true }
  | .ended _ _ _ => st

def status (msgId : ℤ) (trace : List (Event τ α ε)) : Option (Status τ α ε) :=
  trace.foldl (Status.step msgId) none

/-- A request that was stopped fails; otherwise its last answer decides. -/
def Status.ending (st : Status τ α ε) : Ending α ε :=
  if st.stopped then .stopped
  else match st.answer with
    | none => .timedOut
    | some (.value x) => .returned x
    | some (.rpcError e) => .rpcError e
    | some .badServerSalt => .retried

def sentIds (trace : List (Event τ α ε)) : List ℤ :=
  trace.filterMap fun
    | .sent msgId _ => some msgId
    | _ => none

def endedIds (trace : List (Event τ α ε)) : List ℤ :=
  trace.filterMap fun
    | .ended msgId _ _ => some msgId
    | _ => none

/-- Every end of an attempt is the one that its own history asks for. -/
def EndsRight (trace : List (Event τ α ε)) : Prop :=
  ∀ before msgId data ending after, trace = before ++ .ended msgId data ending :: after →
    ∃ st, status msgId before = some st ∧ st.data = data ∧
      (ending = st.ending ∨ ending = .failed)

/-! ### Turns -/

/-- The id of the message on its way. -/
def Send.carried : Send τ → Option ℤ
  | .packing _ _ msgId | .sending _ _ msgId | .waiting _ msgId => some msgId
  | _ => none

/-- The request whose result the coroutine holds. -/
def Send.awaited : Send τ → Option (ℤ × τ)
  | .packing data true msgId | .sending data true msgId | .waiting data msgId => some (msgId, data)
  | _ => none

theorem Send.carried_of_awaited {t : Send τ} {msgId : ℤ} {data : τ}
    (h : t.awaited = some (msgId, data)) : t.carried = some msgId := by
  cases t with
  | packing d w m => cases w <;> simp_all [Send.awaited, Send.carried]
  | sending d w m => cases w <;> simp_all [Send.awaited, Send.carried]
  | waiting d m => simp_all [Send.awaited, Send.carried]
  | _ => cases h

/-- All a turn can be. -/
inductive Moves (s : Session α ε) (t : Send τ) : SendTurn τ α ε → Prop
  | created {msgId : ℤ} {data : τ} {wait : Bool} (ht : t.carried = none)
      (hid : s.lastMsgId < msgId) : Moves s t
        { shared :=
            if wait then
              { lastMsgId := msgId
                results := msgId :: s.results
                objects := Function.update s.objects msgId {} }
            else { s with lastMsgId := msgId }
          task := .packing data wait msgId
          seen := [.sent msgId data] }
  | unwritten {msgId : ℤ} (ht : t.carried = none) (hid : s.lastMsgId < msgId) :
      Moves s t { shared := { s with lastMsgId := msgId }, task := .finished }
  | moved {t' : Send τ} (hcarried : t'.carried = t.carried) (hawaited : t'.awaited = t.awaited) :
      Moves s t { shared := s, task := t' }
  | ended {msgId : ℤ} {data : τ} {s' : Session α ε} {t' : Send τ} {ending : Ending α ε}
      (ht : t.awaited = some (msgId, data)) (ht' : t'.carried = none)
      (hs : s' = s ∨ s' = s.pop msgId)
      (hending : ending = (s.objects msgId).ending ∨ ending = .failed) :
      Moves s t { shared := s', task := t', seen := [.ended msgId data ending] }
  | dropped {msgId : ℤ} {s' : Session α ε} (hcarried : t.carried = some msgId)
      (ht : t.awaited = none) (hs : s' = s ∨ s' = s.pop msgId) :
      Moves s t { shared := s', task := .finished }

theorem Session.lt_allocate (s : Session α ε) (now : ℤ) : s.lastMsgId < s.allocate now := by
  unfold Session.allocate
  dsimp only
  split_ifs with hle
  · omega
  · omega

theorem Session.moves_fail {s s' : Session α ε} {t : Send τ} {data : τ} {wait : Bool} {msgId : ℤ}
    (ht : t.carried = some msgId) (hawaited : t.awaited = if wait then some (msgId, data) else none)
    (hs : s' = s ∨ s' = s.pop msgId) : Moves s t (s'.fail data wait msgId) := by
  cases wait with
  | true => exact .ended hawaited rfl hs (.inr rfl)
  | false => exact .dropped ht hawaited hs

theorem Session.moves_finish {s : Session α ε} {data : τ} {msgId : ℤ} :
    Moves s (.waiting data msgId) (s.finish data msgId) := by
  refine .ended rfl ?_ (.inr rfl) (.inl rfl)
  cases (s.objects msgId).ending <;> rfl

theorem moves {s : Session α ε} {t : Send τ} {o : Outcome} {r : SendTurn τ α ε}
    (h : s.resume t o = some r) : Moves s t r := by
  have hid := s.lt_allocate
  unfold Session.resume at h
  split at h
  case h_1 data wait now written =>
    cases written with
    | false => cases h; exact .unwritten rfl (hid now)
    | true => cases h; exact .created rfl (hid now)
  case h_2 data wait msgId => cases h; exact .moved rfl (by cases wait <;> rfl)
  case h_3 data wait msgId =>
    cases h
    exact Session.moves_fail rfl (by cases wait <;> rfl) (.inl rfl)
  case h_4 data wait msgId =>
    cases wait with
    | false => cases h; exact .dropped rfl rfl (.inl rfl)
    | true => cases h; exact .moved rfl rfl
  case h_5 data wait msgId =>
    cases h
    exact Session.moves_fail rfl (by cases wait <;> rfl) (.inr rfl)
  case h_6 data wait msgId =>
    cases h
    exact Session.moves_fail rfl (by cases wait <;> rfl) (.inl rfl)
  case h_7 data msgId =>
    split_ifs at h with hevent
    cases h
    exact Session.moves_finish
  case h_8 data msgId => cases h; exact Session.moves_finish
  case h_9 => cases h

/-! ### What holds in every run -/

/-- The result of a request agrees with what has become of it. -/
structure Live (s : Session α ε) (trace : List (Event τ α ε)) (msgId : ℤ) (data : τ) : Prop where
  status : status msgId trace =
    some ⟨data, (s.objects msgId).exception, (s.objects msgId).value⟩
  results : msgId ∈ s.results ↔ (s.objects msgId).exception = false
  event : (s.objects msgId).exception = true ∨ (s.objects msgId).value.isSome →
    (s.objects msgId).event = true

structure Right (p : RequestPool τ α ε) : Prop where
  sent : (sentIds p.trace).Pairwise (· < ·)
  sent_le : ∀ m ∈ sentIds p.trace, m ≤ p.shared.lastMsgId
  carried : ∀ m ∈ p.tasks.filterMap Send.carried, m ∈ sentIds p.trace
  apart : (p.tasks.filterMap Send.carried).Nodup
  ended : (endedIds p.trace).Nodup
  ended_sent : ∀ m ∈ endedIds p.trace, m ∈ sentIds p.trace
  ended_apart : ∀ m ∈ endedIds p.trace, m ∉ p.tasks.filterMap Send.carried
  live : ∀ t ∈ p.tasks, ∀ m data, t.awaited = some (m, data) → Live p.shared p.trace m data
  ends : EndsRight p.trace

theorem Right.perm {s : Session α ε} {ts ts' : List (Send τ)} {trace : List (Event τ α ε)}
    (h : Right ⟨s, ts, trace⟩) (hperm : ts.Perm ts') : Right ⟨s, ts', trace⟩ := by
  have hcarried := hperm.filterMap Send.carried
  exact
    { h with
      carried := fun m hm => h.carried m (hcarried.mem_iff.mpr hm)
      apart := hcarried.nodup_iff.mp h.apart
      ended_apart := fun m hm hin => h.ended_apart m hm (hcarried.mem_iff.mpr hin)
      live := fun t ht => h.live t (hperm.mem_iff.mpr ht) }

theorem status_concat (msgId : ℤ) (trace : List (Event τ α ε)) (e : Event τ α ε) :
    status msgId (trace ++ [e]) = Status.step msgId (status msgId trace) e := by
  rw [status, List.foldl_append]
  rfl

theorem endsRight_concat {trace : List (Event τ α ε)} {e : Event τ α ε} (h : EndsRight trace)
    (he : ∀ m data ending, e = .ended m data ending → ∃ st, status m trace = some st ∧
      st.data = data ∧ (ending = st.ending ∨ ending = .failed)) : EndsRight (trace ++ [e]) := by
  intro before msgId data ending after heq
  rcases List.eq_nil_or_concat after with rfl | ⟨after, x, rfl⟩
  · obtain ⟨rfl, hlast⟩ := List.append_inj' heq rfl
    exact he msgId data ending (List.cons.inj hlast).1
  · rw [List.concat_eq_append, ← List.cons_append, ← List.append_assoc] at heq
    exact h before msgId data ending after (List.append_inj' heq rfl).1

section Step

variable {s : Session α ε} {others : List (Send τ)} {trace : List (Event τ α ε)} {msgId : ℤ}
  {data : τ}

theorem mem_carried {t : Send τ} (ht : t ∈ others) {m : ℤ} (hm : t.awaited = some (m, data)) :
    m ∈ others.filterMap Send.carried :=
  List.mem_filterMap.mpr ⟨t, ht, Send.carried_of_awaited hm⟩

/-- Another request gets its id. -/
theorem Live.created (h : Live s trace msgId data) {id : ℤ} {other : τ} (hne : id ≠ msgId)
    (wait : Bool) :
    Live (if wait then
        { lastMsgId := id, results := id :: s.results, objects := Function.update s.objects id {} }
      else { s with lastMsgId := id }) (trace ++ [.sent id other]) msgId data := by
  have hstatus : Requests.status msgId (trace ++ [.sent id other]) =
      Requests.status msgId trace := by
    rw [status_concat, Status.step, if_neg hne]
  cases wait with
  | false => exact ⟨hstatus.trans h.status, h.results, h.event⟩
  | true =>
    have hobject : Function.update s.objects id {} msgId = s.objects msgId :=
      Function.update_of_ne hne.symm _ _
    refine ⟨?_, ?_, ?_⟩
    · rw [hstatus, h.status]
      simp only [if_true, hobject]
    · simp only [if_true, hobject, List.mem_cons, hne.symm, false_or]
      exact h.results
    · simp only [if_true, hobject]
      exact h.event

/-- Another request ends. -/
theorem Live.popped (h : Live s trace msgId data) {id : ℤ} (hne : id ≠ msgId) {s' : Session α ε}
    (hs : s' = s ∨ s' = s.pop id) : Live s' trace msgId data := by
  rcases hs with rfl | rfl
  · exact h
  · refine ⟨h.status, Iff.trans ?_ h.results, h.event⟩
    simp only [Session.pop, List.mem_filter, decide_eq_true_eq]
    exact and_iff_left hne.symm

theorem Live.ended (h : Live s trace msgId data) (id : ℤ) (other : τ) (ending : Ending α ε) :
    Live s (trace ++ [.ended id other ending]) msgId data :=
  ⟨(status_concat _ _ _).trans h.status, h.results, h.event⟩

/-- The answer reaches the result of its request, unless the request has been stopped. -/
theorem Live.answered (h : Live s trace msgId data) (id : ℤ) (answer : Answer α ε) :
    Live (s.deliver id answer) (trace ++ [.answered id answer]) msgId data := by
  have hstatus := h.status
  unfold Session.deliver
  by_cases heq : id = msgId
  · subst heq
    cases hexception : (s.objects id).exception with
    | false =>
      have hin := h.results.mpr hexception
      rw [if_pos hin]
      refine ⟨?_, ?_, fun _ => ?_⟩
      · rw [status_concat, Status.step, if_pos rfl, hstatus]
        simp only [Function.update_self, Option.map_some, hexception, Bool.false_eq_true,
          if_false]
      · simp only [Function.update_self]
        exact h.results
      · simp only [Function.update_self]
    | true =>
      have hnot : id ∉ s.results := fun hin => by
        rw [h.results.mp hin] at hexception
        cases hexception
      rw [if_neg hnot]
      refine ⟨?_, h.results, h.event⟩
      rw [status_concat, Status.step, if_pos rfl, hstatus]
      simp only [Option.map_some, hexception, if_true]
  · have hsame : Requests.status msgId (trace ++ [.answered id answer]) =
        Requests.status msgId trace := by
      rw [status_concat, Status.step, if_neg heq]
    have hobject : ∀ r : Result α ε, Function.update s.objects id r msgId = s.objects msgId :=
      fun r => Function.update_of_ne (Ne.symm heq) _ _
    split_ifs with hin
    · refine ⟨?_, ?_, ?_⟩
      · rw [hsame, hstatus]
        simp only [hobject]
      · simp only [hobject]
        exact h.results
      · simp only [hobject]
        exact h.event
    · exact ⟨hsame.trans hstatus, h.results, h.event⟩

theorem Live.stopped (h : Live s trace msgId data) :
    Live s.failAll (trace ++ [.stopped]) msgId data := by
  have hstatus := h.status
  have hobject : (s.failAll.objects msgId).exception = true ∧
      (s.failAll.objects msgId).value = (s.objects msgId).value ∧
      (s.failAll.objects msgId).event = true := by
    unfold Session.failAll
    dsimp only
    split_ifs with hin
    · exact ⟨rfl, rfl, rfl⟩
    · have hexception : (s.objects msgId).exception = true := by
        rwa [h.results, Bool.not_eq_false] at hin
      exact ⟨hexception, rfl, h.event (.inl hexception)⟩
  obtain ⟨hexception, hvalue, hevent⟩ := hobject
  refine ⟨?_, ?_, fun _ => hevent⟩
  · rw [status_concat, Status.step, hstatus, hexception, hvalue]
    rfl
  · rw [hexception]
    exact iff_of_false List.not_mem_nil Bool.false_ne_true.symm

theorem sentIds_concat_sent (id : ℤ) (other : τ) :
    sentIds (trace ++ [.sent id other] : List (Event τ α ε)) = sentIds trace ++ [id] := by
  simp [sentIds]

theorem endedIds_concat_ended (id : ℤ) (other : τ) (ending : Ending α ε) :
    endedIds (trace ++ [.ended id other ending]) = endedIds trace ++ [id] := by
  simp [endedIds]

/-- A message gets its id. -/
theorem Right.created {t : Send τ} (h : Right ⟨s, t :: others, trace⟩) (ht : t.carried = none)
    {id : ℤ} (hid : s.lastMsgId < id) (wait : Bool) :
    Right ⟨if wait then
        { lastMsgId := id, results := id :: s.results, objects := Function.update s.objects id {} }
      else { s with lastMsgId := id }, .packing data wait id :: others,
      trace ++ [.sent id data]⟩ := by
  have hcarried : (t :: others).filterMap Send.carried = others.filterMap Send.carried :=
    List.filterMap_cons_none ht
  have hlast : ∀ m ∈ sentIds trace, m < id := fun m hm => (h.sent_le m hm).trans_lt hid
  have hnew : ∀ m ∈ others.filterMap Send.carried, m < id := fun m hm =>
    hlast m (h.carried m (hcarried ▸ hm))
  have hids : (Send.packing data wait id :: others).filterMap Send.carried =
      id :: others.filterMap Send.carried := List.filterMap_cons_some rfl
  have hended : endedIds (trace ++ [.sent id data]) = endedIds trace := by simp [endedIds]
  refine ⟨?_, fun m hm => ?_, fun m hm => ?_, ?_, ?_, fun m hm => ?_, fun m hm => ?_,
    fun t' ht' m d hd => ?_, endsRight_concat h.ends fun _ _ _ he => by cases he⟩
  · rw [sentIds_concat_sent, List.pairwise_append]
    refine ⟨h.sent, List.pairwise_singleton _ _, fun m hm m' hm' => ?_⟩
    rw [List.mem_singleton.mp hm']
    exact hlast m hm
  · rw [sentIds_concat_sent, List.mem_append, List.mem_singleton] at hm
    have hle : m ≤ id := hm.elim (fun hm => (hlast m hm).le) fun hm => hm.le
    cases wait with
    | false => exact hle
    | true => exact hle
  · rw [hids, List.mem_cons] at hm
    rw [sentIds_concat_sent, List.mem_append, List.mem_singleton]
    exact hm.symm.imp_left fun hm => h.carried m (hcarried ▸ hm)
  · rw [hids, List.nodup_cons]
    exact ⟨fun hm => lt_irrefl _ (hnew id hm), hcarried ▸ h.apart⟩
  · rw [hended]
    exact h.ended
  · rw [hended] at hm
    rw [sentIds_concat_sent]
    exact List.mem_append_left _ (h.ended_sent m hm)
  · rw [hended] at hm
    rw [hids, List.mem_cons]
    rintro (rfl | hin)
    · exact lt_irrefl _ (hlast m (h.ended_sent m hm))
    · exact h.ended_apart m hm (hcarried ▸ hin)
  · rcases List.mem_cons.mp ht' with rfl | ht'
    · cases wait with
      | false => cases hd
      | true =>
        cases hd
        refine ⟨?_, ?_, fun hsome => ?_⟩
        · rw [status_concat, Status.step, if_pos rfl]
          simp only [if_true, Function.update_self]
        · simp only [if_true, Function.update_self]
          exact iff_of_true List.mem_cons_self trivial
        · simp only [if_true, Function.update_self] at hsome
          rcases hsome with hsome | hsome <;> cases hsome
    · exact (h.live t' (List.mem_cons_of_mem t ht') m d hd).created
        (hnew m (mem_carried ht' hd)).ne' wait

/-- A message is not written. -/
theorem Right.unwritten {t : Send τ} (h : Right ⟨s, t :: others, trace⟩) (ht : t.carried = none)
    {id : ℤ} (hid : s.lastMsgId < id) :
    Right ⟨{ s with lastMsgId := id }, .finished :: others, trace⟩ := by
  have hcarried : (t :: others).filterMap Send.carried =
      (Send.finished :: others).filterMap Send.carried := by
    rw [List.filterMap_cons_none ht, List.filterMap_cons_none rfl]
  refine
    { h with
      sent_le := fun m hm => (h.sent_le m hm).trans hid.le
      carried := fun m hm => h.carried m (hcarried ▸ hm)
      apart := hcarried ▸ h.apart
      ended_apart := fun m hm hin => h.ended_apart m hm (hcarried ▸ hin)
      live := fun t' ht' m d hd => ?_ }
  rcases List.mem_cons.mp ht' with rfl | ht'
  · cases hd
  · have hlive := h.live t' (List.mem_cons_of_mem t ht') m d hd
    exact ⟨hlive.status, hlive.results, hlive.event⟩

/-- The call goes on. -/
theorem Right.moved {t t' : Send τ} (h : Right ⟨s, t :: others, trace⟩)
    (hcarried : t'.carried = t.carried) (hawaited : t'.awaited = t.awaited) :
    Right ⟨s, t' :: others, trace⟩ := by
  have hids : (t :: others).filterMap Send.carried = (t' :: others).filterMap Send.carried := by
    simp only [List.filterMap_cons, hcarried]
  refine
    { h with
      carried := fun m hm => h.carried m (hids ▸ hm)
      apart := hids ▸ h.apart
      ended_apart := fun m hm hin => h.ended_apart m hm (hids ▸ hin)
      live := fun x hx m d hd => ?_ }
  rcases List.mem_cons.mp hx with rfl | hx
  · exact h.live t List.mem_cons_self m d (hawaited ▸ hd)
  · exact h.live x (List.mem_cons_of_mem t hx) m d hd

/-- The ids of the others, when a message is no longer on its way. -/
theorem Right.rest {t : Send τ} (h : Right ⟨s, t :: others, trace⟩)
    (ht : t.carried = some msgId) : msgId ∉ others.filterMap Send.carried ∧
      (others.filterMap Send.carried).Nodup ∧ msgId ∈ sentIds trace ∧ msgId ∉ endedIds trace := by
  have hcarried : (t :: others).filterMap Send.carried =
      msgId :: others.filterMap Send.carried := List.filterMap_cons_some ht
  have happart := h.apart
  have hmem : msgId ∈ (t :: others).filterMap Send.carried := hcarried ▸ List.mem_cons_self
  dsimp only at happart
  rw [hcarried, List.nodup_cons] at happart
  exact ⟨happart.1, happart.2, h.carried msgId hmem, fun hended =>
    h.ended_apart msgId hended hmem⟩

theorem Right.dropped {t : Send τ} (h : Right ⟨s, t :: others, trace⟩)
    (ht : t.carried = some msgId) {s' : Session α ε} (hs : s' = s ∨ s' = s.pop msgId) :
    Right ⟨s', .finished :: others, trace⟩ := by
  obtain ⟨hnot, hnodup, -, -⟩ := h.rest ht
  have hids : (Send.finished :: others).filterMap Send.carried = others.filterMap Send.carried :=
    List.filterMap_cons_none rfl
  have hsub : ∀ m ∈ others.filterMap Send.carried, m ∈ (t :: others).filterMap Send.carried :=
    fun m hm => by
      rw [List.filterMap_cons_some ht]
      exact List.mem_cons_of_mem _ hm
  have hlast : s'.lastMsgId = s.lastMsgId := by rcases hs with rfl | rfl <;> rfl
  refine
    { h with
      sent_le := fun m hm => hlast ▸ h.sent_le m hm
      carried := fun m hm => h.carried m (hsub m (hids ▸ hm))
      apart := hids ▸ hnodup
      ended_apart := fun m hm hin => h.ended_apart m hm (hsub m (hids ▸ hin))
      live := fun x hx m d hd => ?_ }
  rcases List.mem_cons.mp hx with rfl | hx
  · cases hd
  · refine (h.live x (List.mem_cons_of_mem t hx) m d hd).popped (fun heq => hnot ?_) hs
    rw [heq]
    exact mem_carried hx hd

theorem Right.attemptEnded {t t' : Send τ} (h : Right ⟨s, t :: others, trace⟩)
    (ht : t.awaited = some (msgId, data)) (ht' : t'.carried = none) {s' : Session α ε}
    (hs : s' = s ∨ s' = s.pop msgId) {ending : Ending α ε}
    (hending : ending = (s.objects msgId).ending ∨ ending = .failed) :
    Right ⟨s', t' :: others, trace ++ [.ended msgId data ending]⟩ := by
  have hawaited : t'.awaited = none := by
    cases hd : t'.awaited with
    | none => rfl
    | some x => rw [Send.carried_of_awaited hd] at ht'; cases ht'
  have hcarried := Send.carried_of_awaited ht
  obtain ⟨hnot, -, hsent, hnotEnded⟩ := h.rest hcarried
  have hdropped := h.dropped hcarried hs
  have hids : (t' :: others).filterMap Send.carried =
      (Send.finished :: others).filterMap Send.carried := by
    rw [List.filterMap_cons_none ht', List.filterMap_cons_none rfl]
  have hsame : sentIds (trace ++ [.ended msgId data ending]) = sentIds trace := by simp [sentIds]
  refine ⟨hsame ▸ h.sent, fun m hm => hdropped.sent_le m (hsame ▸ hm), fun m hm => ?_,
    hids ▸ hdropped.apart, ?_, fun m hm => ?_, fun m hm hin => ?_, fun x hx m d hd => ?_, ?_⟩
  · rw [hsame]
    exact hdropped.carried m (hids ▸ hm)
  · rw [endedIds_concat_ended, List.nodup_append]
    refine ⟨h.ended, List.nodup_singleton _, fun m hm m' hm' heq => hnotEnded ?_⟩
    rwa [← List.mem_singleton.mp hm', ← heq]
  · rw [hsame]
    rw [endedIds_concat_ended, List.mem_append, List.mem_singleton] at hm
    rcases hm with hm | rfl
    · exact h.ended_sent m hm
    · exact hsent
  · rw [endedIds_concat_ended, List.mem_append, List.mem_singleton] at hm
    rcases hm with hm | rfl
    · exact hdropped.ended_apart m hm (hids ▸ hin)
    · rw [hids, List.filterMap_cons_none rfl] at hin
      exact hnot hin
  · rcases List.mem_cons.mp hx with rfl | hx
    · rw [hawaited] at hd
      cases hd
    · exact (hdropped.live x (List.mem_cons_of_mem _ hx) m d hd).ended msgId data ending
  · refine endsRight_concat h.ends fun m d e he => ?_
    cases he
    exact ⟨_, (h.live t List.mem_cons_self msgId data ht).status, rfl, hending⟩

/-- Something that only changes the session, or what is seen of it. -/
theorem Right.shared {ts : List (Send τ)} (h : Right ⟨s, ts, trace⟩) {s' : Session α ε}
    {seen : List (Event τ α ε)} (hlast : s.lastMsgId ≤ s'.lastMsgId)
    (hsent : sentIds (trace ++ seen) = sentIds trace)
    (hended : endedIds (trace ++ seen) = endedIds trace) (hends : EndsRight (trace ++ seen))
    (hlive : ∀ m data, Live s trace m data → Live s' (trace ++ seen) m data) :
    Right ⟨s', ts, trace ++ seen⟩ where
  sent := hsent ▸ h.sent
  sent_le m hm := (h.sent_le m (hsent ▸ hm)).trans hlast
  carried m hm := hsent ▸ h.carried m hm
  apart := h.apart
  ended := hended ▸ h.ended
  ended_sent m hm := hsent ▸ h.ended_sent m (hended ▸ hm)
  ended_apart m hm := h.ended_apart m (hended ▸ hm)
  live t ht m d hd := hlive m d (h.live t ht m d hd)
  ends := hends

/-- A call of `send` begins. -/
theorem Right.spawned {ts : List (Send τ)} (h : Right ⟨s, ts, trace⟩) (wait : Bool) :
    Right ⟨s, .creating data wait :: ts, trace⟩ := by
  have hids : (Send.creating data wait :: ts).filterMap Send.carried =
      ts.filterMap Send.carried := List.filterMap_cons_none rfl
  refine
    { h with
      carried := fun m hm => h.carried m (hids ▸ hm)
      apart := hids ▸ h.apart
      ended_apart := fun m hm hin => h.ended_apart m hm (hids ▸ hin)
      live := fun x hx m d hd => ?_ }
  rcases List.mem_cons.mp hx with rfl | hx
  · cases hd
  · exact h.live x hx m d hd

end Step

theorem right_start : Right (start : RequestPool τ α ε) where
  sent := .nil
  sent_le _ hm := by cases hm
  carried _ hm := by cases hm
  apart := .nil
  ended := .nil
  ended_sent _ hm := by cases hm
  ended_apart _ hm := by cases hm
  live _ ht := by cases ht
  ends before _ _ _ after h := by cases before <;> cases h

theorem right_turn {s : Session α ε} {t : Send τ} {others : List (Send τ)}
    {trace : List (Event τ α ε)} {o : Outcome} {r : SendTurn τ α ε}
    (h : Right ⟨s, t :: others, trace⟩) (hr : s.resume t o = some r) :
    r.spawned = [] ∧ Right ⟨r.shared, r.task :: others, trace ++ r.seen⟩ := by
  cases moves hr with
  | created ht hid => exact ⟨rfl, h.created ht hid _⟩
  | unwritten ht hid => exact ⟨rfl, by simpa using h.unwritten ht hid⟩
  | moved hcarried hawaited => exact ⟨rfl, by simpa using h.moved hcarried hawaited⟩
  | ended ht ht' hs hending => exact ⟨rfl, h.attemptEnded ht ht' hs hending⟩
  | dropped hcarried ht hs => exact ⟨rfl, by simpa using h.dropped hcarried hs⟩

theorem right_event {s : Session α ε} {ts : List (Send τ)} {trace : List (Event τ α ε)}
    {e : External τ α ε} {r : Effect (Session α ε) (Send τ) (Event τ α ε)}
    (h : Right ⟨s, ts, trace⟩) (hr : s.event e = some r) :
    Right ⟨r.shared, r.spawned ++ ts, trace ++ r.seen⟩ := by
  cases e with
  | send data wait => cases hr; simpa using h.spawned wait
  | allocate now =>
    cases hr
    refine h.shared (s.lt_allocate now).le ?_ ?_ ?_ fun m d hlive => ?_
    · rw [List.append_nil]
    · rw [List.append_nil]
    · simpa using h.ends
    · rw [List.append_nil]
      exact ⟨hlive.status, hlive.results, hlive.event⟩
  | answer id answer =>
    cases hr
    have hlast : (s.deliver id answer).lastMsgId = s.lastMsgId := by
      unfold Session.deliver
      split_ifs <;> rfl
    refine h.shared hlast.ge ?_ ?_ ?_ fun m d hlive => hlive.answered id answer
    · simp [sentIds]
    · simp [endedIds]
    · exact endsRight_concat h.ends fun _ _ _ he => by cases he
  | stop =>
    cases hr
    refine h.shared le_rfl ?_ ?_ ?_ fun m d hlive => hlive.stopped
    · simp [sentIds]
    · simp [endedIds]
    · exact endsRight_concat h.ends fun _ _ _ he => by cases he

theorem right_step {p q : RequestPool τ α ε} {a : Action Outcome (External τ α ε)}
    (h : Right p) (hs : system.step p a = some q) : Right q := by
  obtain ⟨i, o, t, r, others, -, -, hr, hshared, htrace, hperm, hq⟩ |
    ⟨e, r, -, hr, hshared, htrace, hq⟩ := System.step_perm hs
  · have hturn := right_turn (h.perm hperm) hr
    rw [hturn.1] at hq
    have hright := hturn.2.perm hq.symm
    rwa [← hshared, ← htrace] at hright
  · have hright := (right_event (h : Right ⟨p.shared, p.tasks, p.trace⟩) hr).perm hq.symm
    rwa [← hshared, ← htrace] at hright

theorem right_of_reachable {p : RequestPool τ α ε} (h : system.Reachable start p) : Right p :=
  h.invariant (fun _ _ _ => right_step) right_start

/-- Whether something has come for the request. -/
def Status.settled (st : Status τ α ε) : Bool := st.stopped || st.answer.isSome

theorem Right.resumes {p : RequestPool τ α ε} (h : Right p) {i : ℕ} {msgId : ℤ} {data : τ}
    {st : Status τ α ε} (ht : p.tasks[i]? = some (.waiting data msgId))
    (hst : status msgId p.trace = some st) (hsettled : st.settled) :
    ∃ q, system.step p (.resume i .returned) = some q ∧
      q.trace = p.trace ++ [.ended msgId data st.ending] := by
  have hlive := h.live _ (List.mem_of_getElem? ht) msgId data rfl
  obtain rfl := Option.some.inj (hlive.status.symm.trans hst)
  have hevent : (p.shared.objects msgId).event = true := by
    refine hlive.event ?_
    simpa [Status.settled] using hsettled
  have hresume : p.shared.resume (.waiting data msgId) .returned =
      some (p.shared.finish data msgId) := if_pos hevent
  let r := p.shared.finish data msgId
  refine ⟨⟨r.shared, p.tasks.set i r.task ++ r.spawned, p.trace ++ r.seen⟩, ?_, rfl⟩
  show (p.tasks[i]?.bind fun t => (p.shared.resume t .returned).map _) = _
  rw [ht, Option.bind_some, hresume]
  rfl

/-- In every run the ids of the messages go up; a request ends at most once, with the last answer
to its own id, with the error of `_stop` if it was stopped, or by a timeout if neither came, unless
the call failed before the wait; and once an answer or `_stop` has come, a waiting request can go
on. -/
theorem answers_matched {p : RequestPool τ α ε} (h : system.Reachable start p) :
    (sentIds p.trace).Pairwise (· < ·) ∧ (endedIds p.trace).Nodup ∧ EndsRight p.trace ∧
    ∀ i msgId data st, p.tasks[i]? = some (.waiting data msgId) →
      status msgId p.trace = some st → st.settled →
      ∃ q, system.step p (.resume i .returned) = some q ∧
        q.trace = p.trace ++ [.ended msgId data st.ending] := by
  have hright := right_of_reachable h
  exact ⟨hright.sent, hright.ended, hright.ends, fun i msgId data st =>
    hright.resumes⟩

/-- Two requests; the second is answered, then the session stops. -/
def answeredAndStopped : List (Action Outcome (External ℕ ℕ ℕ)) :=
  [.event (.send 7 true), .event (.send 5 true), .resume 0 (.created 9 true),
    .resume 1 (.created 9 true), .resume 1 .returned, .resume 0 .returned, .resume 0 .returned,
    .resume 1 .returned, .event (.answer 12 (.value 3)), .resume 1 .returned, .event .stop]

theorem answers_matched_answeredAndStopped : ∃ p q : RequestPool ℕ ℕ ℕ,
    system.Reachable start p ∧ sentIds p.trace = [8, 12] ∧ endedIds p.trace = [12] ∧
    EndsRight p.trace ∧ system.step p (.resume 0 .returned) = some q ∧
    q.trace = p.trace ++ [.ended 8 7 .stopped] := by
  obtain ⟨p, hp, hsent, hended, htask, hstatus⟩ : ∃ p,
      system.run start answeredAndStopped = some p ∧
      sentIds p.trace = [8, 12] ∧ endedIds p.trace = [12] ∧
      p.tasks[0]? = some (.waiting 7 8) ∧
      status 8 p.trace = some { data := 7, stopped := true } := ⟨_, rfl, rfl, rfl, rfl, rfl⟩
  obtain ⟨-, -, hends, hresume⟩ := answers_matched ⟨answeredAndStopped, hp⟩
  obtain ⟨q, hq, htrace⟩ := hresume 0 8 7 _ htask hstatus rfl
  exact ⟨p, q, ⟨answeredAndStopped, hp⟩, hsent, hended, hends, hq, htrace⟩

end AllInOneBackup.Kurigram.Requests
