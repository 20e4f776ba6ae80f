import AllInOneBackup.Kurigram.Session.Coroutines

/-! The store of accepted msg_ids. Within one connection it stays in strictly ascending
order and bounded, and no msg_id gets past the checks twice: it is a replay window that is
cut from below. What `restart` carries over to the next connection are the first 30
entries of the store, the lowest ones, and what is left of the old connection is still checked
against them while `_stop` awaits. So replays of the 30 highest are rejected exactly when
the store holds no more than 30 and none of them is checked before the new connection starts. -/

namespace AllInOneBackup.Kurigram.Session

open Concurrency ReplayWindow

/-- The msg_ids dispatched since `stored_msg_ids` was last cleared. -/
def sinceCleared (ids : List ℤ) : Event → List ℤ
  | .cleared => []
  | .dispatched msgId => ids ++ [msgId]
  | _ => ids

def connectionDispatches (trace : List Event) : List ℤ := trace.foldl sinceCleared []

/-- The store `stored` after the msg_ids `ids` were accepted. -/
def StoreOf (stored ids : List ℤ) : Prop :=
  Covers stored ids ∧ stored.length ≤ storedMsgIdsMaxSize + 1

theorem storeOf_nil : StoreOf [] [] := ⟨covers_nil, Nat.zero_le _⟩

/-- The cut makes room for one more entry. -/
theorem StoreOf.prune {s : Session} {ids : List ℤ} (h : StoreOf s.storedMsgIds ids) :
    Covers s.prune.storedMsgIds ids ∧ s.prune.storedMsgIds.length ≤ storedMsgIdsMaxSize := by
  unfold Session.prune
  split_ifs with hlen
  · refine ⟨h.1.drop ?_, ?_⟩ <;> simp only [List.length_drop, storedMsgIdsMaxSize] at *
    · omega
    · have := h.2
      simp only [storedMsgIdsMaxSize] at this
      omega
  · exact ⟨h.1, not_lt.mp hlen⟩

@[simp] theorem foldl_sinceCleared_setServerTime (msg : Message) (ids : List ℤ) :
    (setServerTime msg).foldl sinceCleared ids = ids := by
  unfold setServerTime; split_ifs <;> rfl

theorem foldl_sinceCleared_updates {updates : List Event} {body : Body}
    (h : ∀ e ∈ updates, e = .handleUpdates body) (ids : List ℤ) :
    updates.foldl sinceCleared ids = ids := by
  induction updates with
  | nil => rfl
  | cons e updates ih =>
    rw [List.foldl_cons, h e (by simp)]
    exact ih fun e he => h e (by simp [he])

theorem StoreOf.checkAndDispatch {s : Session} {ids : List ℤ} (h : StoreOf s.storedMsgIds ids)
    (now : ℤ) (msg : Message) :
    StoreOf (s.checkAndDispatch now msg).session.storedMsgIds
      ((s.checkAndDispatch now msg).seen.foldl sinceCleared ids) := by
  obtain ⟨hcov, hlen⟩ := h.prune
  obtain ⟨e, last, ignored, -, hs, hseen⟩ |
    ⟨last, ignored, acks, salt, results, updates, hc, hs, -, hseen, hupd⟩ :=
      s.checkAndDispatch_cases now msg
  · rw [hs, hseen]
    exact ⟨hcov, hlen.trans (Nat.le_succ _)⟩
  · rw [hs, hseen, List.foldl_cons, foldl_sinceCleared_updates hupd]
    exact ⟨hcov.insort (checkMsgId_eq_none hc), by simpa using hlen⟩

theorem StoreOf.handleMessage {s : Session} {ids : List ℤ} (h : StoreOf s.storedMsgIds ids)
    (now : ℤ) (msg : Message) :
    StoreOf (s.handleMessage now msg).session.storedMsgIds
      ((s.handleMessage now msg).seen.foldl sinceCleared ids) := by
  unfold Session.handleMessage
  split_ifs with hodd hmem
  · simpa using h
  · simp only [List.foldl_append, foldl_sinceCleared_setServerTime, List.foldl_cons]
    exact StoreOf.checkAndDispatch (s := { s with pendingAcks := insert msg.msgId s.pendingAcks })
      h now msg
  · simp only [List.foldl_append, foldl_sinceCleared_setServerTime]
    exact h.checkAndDispatch now msg

theorem StoreOf.handleMessages {s : Session} {ids : List ℤ} (h : StoreOf s.storedMsgIds ids)
    (messages : List (ℤ × Message)) :
    StoreOf (s.handleMessages messages).session.storedMsgIds
      ((s.handleMessages messages).seen.foldl sinceCleared ids) := by
  induction messages generalizing s ids with
  | nil => exact h
  | cons m rest ih =>
    simp only [Session.handleMessages, List.foldl_append]
    exact ih (h.handleMessage m.1 m.2)

theorem StoreOf.steers {s : Session} {r : SessionTurn} {ids : List ℤ} (hr : s.Steers r)
    (h : StoreOf s.storedMsgIds ids) :
    StoreOf r.shared.storedMsgIds (r.seen.foldl sinceCleared ids) := by
  obtain ⟨-, -, ⟨hseen, hstored⟩ | ⟨hseen, hstored⟩⟩ := hr
  · simpa [hseen, hstored] using h
  · simpa [hseen, hstored, sinceCleared] using storeOf_nil

/-- A turn keeps the store what it is: the ids accepted since it was last cleared. -/
theorem StoreOf.resume {isCdn : Bool} {s : Session} {t : Task} {o : Outcome} {r : SessionTurn}
    {ids : List ℤ} (hr : resume isCdn s t o = some r) (h : StoreOf s.storedMsgIds ids) :
    StoreOf r.shared.storedMsgIds (r.seen.foldl sinceCleared ids) := by
  obtain ⟨messages, rfl, rfl, rfl⟩ | ⟨msgIds, rfl, rfl, rfl⟩ | ⟨rfl, rfl⟩ | ⟨hs, -⟩ :=
    resume_cases hr
  · exact h.handleMessages messages
  · exact h
  · exact .steers (steers_beginRestart s) (by simpa using h)
  · exact h.steers hs

theorem storeOf_throughout (isCdn : Bool) (actions : List (Action Outcome Call)) :
    (system isCdn).Throughout
      (fun p => StoreOf p.shared.storedMsgIds (connectionDispatches p.trace)) initial actions := by
  refine System.throughout_of_step (fun p a q h hstep => ?_) storeOf_nil actions
  obtain ⟨i, o, t, r, -, -, hr, rfl⟩ | ⟨e, r, -, he, rfl⟩ := System.step_cases hstep
  · simp only [connectionDispatches, List.foldl_append]
    exact h.resume hr
  · cases e <;> cases he <;> simpa [connectionDispatches] using h

/-- In every state of every run `stored_msg_ids` is strictly ascending and holds at most one
entry over its maximal size, and no msg_id was dispatched twice since it was last cleared. -/
theorem stored_msg_ids_throughout (isCdn : Bool) (actions : List (Action Outcome Call)) :
    (system isCdn).Throughout (fun p =>
      p.shared.storedMsgIds.Pairwise (· < ·) ∧
      p.shared.storedMsgIds.length ≤ storedMsgIdsMaxSize + 1 ∧
      (connectionDispatches p.trace).Nodup) initial actions :=
  (storeOf_throughout isCdn actions).mono fun _ h => ⟨h.1.ascending, h.2, h.1.nodup⟩

/-! ### Replays after a restart -/

/-- `x` is one of the `n` largest entries of `l`. -/
def AmongLargest (n : ℕ) (l : List ℤ) (x : ℤ) : Prop :=
  x ∈ l ∧ (l.filter (x < ·)).length < n

instance (n : ℕ) (l : List ℤ) (x : ℤ) : Decidable (AmongLargest n l x) :=
  inferInstanceAs (Decidable (_ ∧ _))

/-- The turn is one of a `restart()` that gets its lock, and takes the snapshot. -/
def RestartBegins (p : SessionPool) : Action Outcome Call → Prop
  | .resume i _ => p.tasks[i]? = some .restart
  | .event _ => False

instance (p : SessionPool) : DecidablePred (RestartBegins p)
  | .resume i _ => inferInstanceAs (Decidable (p.tasks[i]? = some .restart))
  | .event _ => inferInstanceAs (Decidable False)

/-- Of the messages one that carries `x` is checked: it is not skipped as one still to be
acknowledged. -/
def Checked (x : ℤ) : Session → List (ℤ × Message) → Prop
  | _, [] => False
  | s, (now, msg) :: rest =>
    msg.msgId = x ∧ (msg.seqNo % 2 = 0 ∨ x ∉ s.pendingAcks) ∨
      Checked x (s.handleMessage now msg).session rest

instance instDecidableChecked (x : ℤ) : ∀ s messages, Decidable (Checked x s messages)
  | _, [] => inferInstanceAs (Decidable False)
  | s, (now, msg) :: rest =>
    have := instDecidableChecked x (s.handleMessage now msg).session rest
    inferInstanceAs (Decidable (_ ∨ _))

/-- The turn is the message loop of a `handle_packet` that checks a message carrying `x`. -/
def Checks (x : ℤ) (p : SessionPool) : Action Outcome Call → Prop
  | .resume i (.unpacked messages) => p.tasks[i]? = some .handlePacket ∧ Checked x p.shared messages
  | _ => False

instance (x : ℤ) (p : SessionPool) : DecidablePred (Checks x p)
  | .resume _ (.unpacked _) => inferInstanceAs (Decidable (_ ∧ _))
  | .resume _ .returned | .resume _ (.raised _) | .event _ => inferInstanceAs (Decidable False)

/-- What a `restart()` owes in a state `r` behind its snapshot, such as the one in which the new
connection starts, where `stored` was in the store at the snapshot: each of the 30 largest msg_ids
of `stored` is a recent one, and up to the next snapshot the first message that carries it is not
dispatched; unless it is skipped as one still to be acknowledged, `SecurityCheckMismatch` is
raised. -/
def ReplaysRejected (isCdn : Bool) (stored : List ℤ) (r : SessionPool) : Prop :=
  ∀ x, AmongLargest 30 stored x → x ∈ r.shared.recentMsgIds ∧
    ∀ actions r', (system isCdn).run r actions = some r' →
      (system isCdn).Along (fun p a => ¬RestartBegins p a) r actions →
      (system isCdn).Along (fun p a => ¬Checks x p a) r actions →
      ∀ before : List (ℤ × Message), (∀ m ∈ before, m.2.msgId ≠ x) →
        let s := (r'.shared.handleMessages before).session
        ∀ now msg, msg.msgId = x → .dispatched x ∉ (s.handleMessage now msg).seen ∧
          (msg.seqNo % 2 = 0 ∨ x ∉ s.pendingAcks →
            .discarded x .recentConnection ∈ (s.handleMessage now msg).seen)

theorem checkAndDispatch_recentMsgIds (s : Session) (now : ℤ) (msg : Message) :
    (s.checkAndDispatch now msg).session.recentMsgIds = s.recentMsgIds.erase msg.msgId := by
  obtain ⟨_, _, _, -, hs, -⟩ | ⟨_, _, _, _, _, _, -, hs, -⟩ := s.checkAndDispatch_cases now msg
  all_goals rw [hs]

/-- A message that is checked is forgotten as a recent one. -/
theorem handleMessage_recentMsgIds (s : Session) (now : ℤ) (msg : Message) :
    (s.handleMessage now msg).session.recentMsgIds =
      if msg.seqNo % 2 = 0 ∨ msg.msgId ∉ s.pendingAcks then s.recentMsgIds.erase msg.msgId
      else s.recentMsgIds := by
  unfold Session.handleMessage
  by_cases hodd : msg.seqNo % 2 = 0
  · simp [hodd, checkAndDispatch_recentMsgIds]
  · by_cases hmem : msg.msgId ∈ s.pendingAcks
    · simp [hodd, hmem]
    · simp [hodd, hmem, checkAndDispatch_recentMsgIds]

theorem mem_recentMsgIds_handleMessage {s : Session} (hs : s.recentMsgIds.Nodup) (x now : ℤ)
    (msg : Message) : (s.handleMessage now msg).session.recentMsgIds.Nodup ∧
      (x ∈ (s.handleMessage now msg).session.recentMsgIds ↔ x ∈ s.recentMsgIds ∧
        ¬(msg.msgId = x ∧ (msg.seqNo % 2 = 0 ∨ x ∉ s.pendingAcks))) := by
  rw [handleMessage_recentMsgIds]
  split_ifs with h
  · refine ⟨hs.erase _, ?_⟩
    rw [hs.mem_erase_iff]
    constructor
    · exact fun ⟨hne, hx⟩ => ⟨hx, fun ⟨heq, _⟩ => hne heq.symm⟩
    · exact fun ⟨hx, hnot⟩ => ⟨fun heq => hnot ⟨heq.symm, heq ▸ h⟩, hx⟩
  · refine ⟨hs, fun hx => ⟨hx, ?_⟩, And.left⟩
    rintro ⟨rfl, hchecked⟩
    exact h hchecked

/-- The message loop forgets the recent msg_ids that it checks, and no others. -/
theorem mem_recentMsgIds_handleMessages (x : ℤ) (messages : List (ℤ × Message)) {s : Session}
    (hs : s.recentMsgIds.Nodup) : (s.handleMessages messages).session.recentMsgIds.Nodup ∧
      (x ∈ (s.handleMessages messages).session.recentMsgIds ↔
        x ∈ s.recentMsgIds ∧ ¬Checked x s messages) := by
  induction messages generalizing s with
  | nil => simpa [Session.handleMessages, Checked] using hs
  | cons m rest ih =>
    obtain ⟨hnodup, hmem⟩ := mem_recentMsgIds_handleMessage hs x m.1 m.2
    obtain ⟨hnodup', hmem'⟩ := ih hnodup
    refine ⟨hnodup', ?_⟩
    rw [Session.handleMessages, hmem', hmem, Checked]
    tauto

theorem not_checked_of_ne {x : ℤ} {messages : List (ℤ × Message)} (s : Session)
    (h : ∀ m ∈ messages, m.2.msgId ≠ x) : ¬Checked x s messages := by
  induction messages generalizing s with
  | nil => exact id
  | cons m rest ih =>
    rintro (⟨heq, -⟩ | hrest)
    · exact h m (by simp) heq
    · exact ih _ (fun m hm => h m (List.mem_cons_of_mem _ hm)) hrest

/-- A step that takes no snapshot forgets the recent msg_ids that it checks, and no others. -/
theorem mem_recentMsgIds_step {isCdn : Bool} {p q : SessionPool} {a : Action Outcome Call}
    (x : ℤ) (hp : p.shared.recentMsgIds.Nodup) (ha : ¬RestartBegins p a)
    (h : (system isCdn).step p a = some q) : q.shared.recentMsgIds.Nodup ∧
      (x ∈ q.shared.recentMsgIds ↔ x ∈ p.shared.recentMsgIds ∧ ¬Checks x p a) := by
  obtain ⟨i, o, t, r, rfl, ht, hr, rfl⟩ | ⟨e, r, rfl, he, rfl⟩ := System.step_cases h
  · by_cases hpacket : ∃ messages, t = .handlePacket ∧ o = .unpacked messages
    · obtain ⟨messages, rfl, rfl⟩ := hpacket
      cases hr
      obtain ⟨hnodup, hmem⟩ := mem_recentMsgIds_handleMessages x messages hp
      exact ⟨hnodup, hmem.trans (by simp [Checks, ht])⟩
    · have hno : ¬Checks x p (.resume i o) := by
        cases o with
        | unpacked messages =>
          rintro ⟨htask, -⟩
          exact hpacket ⟨messages, Option.some.inj (ht.symm.trans htask), rfl⟩
        | returned => exact id
        | raised _ => exact id
      have hsame : r.shared.recentMsgIds = p.shared.recentMsgIds := by
        obtain ⟨messages, rfl, rfl, -⟩ | ⟨msgIds, -, -, rfl⟩ | ⟨rfl, -⟩ | ⟨hs, -⟩ := resume_cases hr
        · exact absurd ⟨messages, rfl, rfl⟩ hpacket
        · rfl
        · exact absurd ht ha
        · exact hs.2.1
      show r.shared.recentMsgIds.Nodup ∧ (x ∈ r.shared.recentMsgIds ↔ _)
      rw [hsame]
      exact ⟨hp, by simp [hno]⟩
  · cases e <;> cases he <;> exact ⟨hp, by simp [Checks]⟩

/-- Up to the next snapshot a recent msg_id is forgotten exactly when it is checked. -/
theorem mem_recentMsgIds_run {isCdn : Bool} (x : ℤ) {as : List (Action Outcome Call)}
    {q r : SessionPool} (hq : q.shared.recentMsgIds.Nodup)
    (hone : (system isCdn).Along (fun p a => ¬RestartBegins p a) q as)
    (hr : (system isCdn).run q as = some r) : r.shared.recentMsgIds.Nodup ∧
      (x ∈ r.shared.recentMsgIds ↔
        x ∈ q.shared.recentMsgIds ∧ (system isCdn).Along (fun p a => ¬Checks x p a) q as) := by
  induction as generalizing q with
  | nil =>
    cases hr
    exact ⟨hq, by simp [System.Along]⟩
  | cons a as ih =>
    obtain ⟨q', hstep, hrun⟩ := (System.run_cons _).mp hr
    obtain ⟨ha, hrest⟩ := hone q' hstep
    obtain ⟨hnodup, hmem⟩ := mem_recentMsgIds_step x hq ha hstep
    obtain ⟨hnodup', hmem'⟩ := ih hnodup hrest hrun
    refine ⟨hnodup', ?_⟩
    rw [hmem', hmem, and_assoc]
    refine and_congr_right fun _ => ?_
    constructor
    · rintro ⟨hno, halong⟩ q'' hq''
      rw [hstep] at hq''
      cases hq''
      exact ⟨hno, halong⟩
    · exact fun h => h q' hstep

/-- A recent msg_id is not let through. -/
theorem handleMessage_of_recent {s : Session} {msg : Message} (h : msg.msgId ∈ s.recentMsgIds)
    (now : ℤ) :
    .dispatched msg.msgId ∉ (s.handleMessage now msg).seen ∧
    (msg.seqNo % 2 = 0 ∨ msg.msgId ∉ s.pendingAcks →
      .discarded msg.msgId .recentConnection ∈ (s.handleMessage now msg).seen) := by
  have hcheck : ∀ s : Session, msg.msgId ∈ s.recentMsgIds →
      (s.checkAndDispatch now msg).seen = [.discarded msg.msgId .recentConnection] := by
    intro s hr
    have hc := checkMsgId_recent hr now
    obtain ⟨e, _, _, he, -, hseen⟩ | ⟨_, _, _, _, _, _, hnone, -⟩ :=
      s.checkAndDispatch_cases now msg
    · rw [hseen, Option.some.inj (he.symm.trans hc)]
    · rw [hnone] at hc; cases hc
  have htime : ∀ id, .dispatched id ∉ setServerTime msg := by
    intro id; unfold setServerTime; split_ifs <;> simp
  unfold Session.handleMessage
  split_ifs with hodd hmem
  · exact ⟨htime _, fun hor => absurd hmem (hor.resolve_left hodd)⟩
  · simp [hcheck { s with pendingAcks := insert msg.msgId s.pendingAcks } h, htime]
  · simp [hcheck s h, htime]

/-- Replays are rejected as long as the msg_ids they carry are recent ones. -/
theorem replaysRejected_iff_recent {isCdn : Bool} {stored : List ℤ} {r : SessionPool}
    (hr : r.shared.recentMsgIds.Nodup) : ReplaysRejected isCdn stored r ↔
      ∀ x, AmongLargest 30 stored x → x ∈ r.shared.recentMsgIds := by
  refine ⟨fun h x hx => (h x hx).1, fun h x hx => ⟨h x hx, ?_⟩⟩
  intro actions r' hrun hone hnone before hbefore s now msg hmsg
  obtain ⟨hnodup, hmem⟩ := mem_recentMsgIds_run x hr hone hrun
  have hs : x ∈ s.recentMsgIds := (mem_recentMsgIds_handleMessages x before hnodup).2.mpr
    ⟨hmem.mpr ⟨h x hx, hnone⟩, not_checked_of_ne _ hbefore⟩
  exact hmsg ▸ handleMessage_of_recent (hmsg ▸ hs) now

theorem beginRestart_recentMsgIds {s : Session} (h : s.storedMsgIds ≠ []) :
    s.beginRestart.shared.recentMsgIds = s.storedMsgIds.take 30 := by
  rw [(steers_beginRestart s).2.1, snapshotRecent, if_pos h]

/-- The last entry of an ascending store is its largest, and no earlier entry. -/
theorem exists_largest_not_mem_take {l : List ℤ} (hl : l.Pairwise (· < ·)) {m n : ℕ}
    (hm : 0 < m) (hn : n < l.length) : ∃ x, AmongLargest m l x ∧ x ∉ l.take n := by
  have hne : l ≠ [] := List.ne_nil_of_length_pos (by omega)
  have hlast : ∀ y ∈ l.dropLast, y < l.getLast hne := by
    rw [← List.dropLast_append_getLast hne] at hl
    exact fun y hy => (List.pairwise_append.mp hl).2.2 y hy _ (by simp)
  refine ⟨l.getLast hne, ⟨List.getLast_mem hne, ?_⟩, fun hmem => ?_⟩
  · have hnone : l.filter (l.getLast hne < ·) = [] := by
      rw [List.filter_eq_nil_iff]
      intro y hy
      rw [← List.dropLast_append_getLast hne] at hy
      obtain hy | hy := List.mem_append.mp hy
      · simpa using (hlast y hy).le
      · simp [List.mem_singleton.mp hy]
    rwa [hnone]
  · refine lt_irrefl _ (hlast _ ?_)
    rw [List.dropLast_eq_take]
    exact List.take_subset_take_left l (by omega) hmem

/-- What the snapshot holds are the 30 largest entries of the store exactly when there are no
more. -/
theorem largest_mem_take_iff {l : List ℤ} (hl : l.Pairwise (· < ·)) :
    (∀ x, AmongLargest 30 l x → x ∈ l.take 30) ↔ l.length ≤ 30 := by
  constructor
  · intro h
    by_contra hlen
    obtain ⟨x, hx, hnot⟩ := exists_largest_not_mem_take hl (m := 30) (by omega) (not_le.mp hlen)
    exact hnot (h x hx)
  · intro hlen x hx
    rw [List.take_of_length_le hlen]
    exact hx.1

/-- A store of at most `n` entries has no others than its `n` largest. -/
theorem amongLargest_of_mem {n : ℕ} {l : List ℤ} (hlen : l.length ≤ n) {x : ℤ} (hx : x ∈ l) :
    AmongLargest n l x := by
  refine ⟨hx, lt_of_lt_of_le ?_ hlen⟩
  exact List.length_filter_lt_length_iff_exists.mpr ⟨x, hx, by simp⟩

/-- A `restart()` takes its snapshot in a state `p` of any run, and anything but a further snapshot
happens up to a state `r`, be it the one in which the new connection starts. There replays of the
30 largest stored msg_ids are rejected exactly when at most 30 were stored, and none of them was
checked on the way. -/
theorem restart_rejects_replays_iff (isCdn : Bool) {pre as : List (Action Outcome Call)}
    {p q r : SessionPool} {i : ℕ} (hp : (system isCdn).run initial pre = some p)
    (hi : p.tasks[i]? = some .restart)
    (hq : (system isCdn).step p (.resume i .returned) = some q)
    (hone : (system isCdn).Along (fun p a => ¬RestartBegins p a) q as)
    (hr : (system isCdn).run q as = some r) :
    ReplaysRejected isCdn p.shared.storedMsgIds r ↔
      p.shared.storedMsgIds.length ≤ 30 ∧
        ∀ x ∈ p.shared.storedMsgIds, (system isCdn).Along (fun p a => ¬Checks x p a) q as := by
  have hstored : p.shared.storedMsgIds.Pairwise (· < ·) :=
    ((storeOf_throughout isCdn pre).last hp).1.ascending
  obtain hnil | hne := eq_or_ne p.shared.storedMsgIds []
  · simp [hnil, ReplaysRejected, AmongLargest]
  have hbegin : q.shared.recentMsgIds = p.shared.storedMsgIds.take 30 := by
    obtain ⟨i, o, t, r, ha, ht, hturn, rfl⟩ | ⟨e, r, ha, -⟩ := System.step_cases hq
    · cases ha
      cases hi.symm.trans ht
      change (if p.shared.restartLocked then none else some p.shared.beginRestart) = some r at hturn
      split_ifs at hturn
      cases hturn
      exact beginRestart_recentMsgIds hne
    · cases ha
  have hnodup : q.shared.recentMsgIds.Nodup := by
    rw [hbegin]
    exact (hstored.imp ne_of_lt).sublist (List.take_sublist _ _)
  have hmem := fun x => mem_recentMsgIds_run x hnodup hone hr
  rw [replaysRejected_iff_recent (hmem 0).1]
  simp only [fun x => (hmem x).2, hbegin]
  constructor
  · intro h
    have hlen := (largest_mem_take_iff hstored).mp fun x hx => (h x hx).1
    exact ⟨hlen, fun x hx => (h x (amongLargest_of_mem hlen hx)).2⟩
  · rintro ⟨hlen, h⟩ x hx
    exact ⟨(largest_mem_take_iff hstored).mpr hlen x hx, h x hx.1⟩

/-- One packet of `n` messages, two seconds apart. -/
def packetOf (n : ℕ) : List (ℤ × Message) :=
  (List.range n).map fun k =>
    let now : ℤ := (1700000000 + 2 * k) * 2 ^ 32
    (now, ⟨now + 1, 2, .newSessionCreated⟩)

/-- A session is started and reads a packet of `n` messages and one more packet, and `restart()`
is called. -/
def beforeRestart (n : ℕ) : List (Action Outcome Call) :=
  startRun ++ [.event .packet, .resume 1 (.unpacked (packetOf n)), .event .packet, .event .restart]

/-- `_stop()` awaits the ping task while the packet left over is handled, and goes on to its end;
`start()` goes on to the new connection. -/
def toNewConnection (messages : List (ℤ × Message)) : List (Action Outcome Call) :=
  .resume 2 (.unpacked messages) :: .replicate 6 (.resume 3 .returned)

/-- Two msg_ids are stored, and the packet left over carries another one. -/
theorem restart_rejects_replays_two : ∃ p q r,
    (system false).run initial (beforeRestart 2) = some p ∧
    (system false).step p (.resume 3 .returned) = some q ∧
    (system false).run q (toNewConnection [(0, ⟨1, 2, .newSessionCreated⟩)]) = some r ∧
    r.tasks[3]? = some (.starting .restart .ping) ∧
    ReplaysRejected false [1700000000 * 2 ^ 32 + 1, 1700000002 * 2 ^ 32 + 1] r := by
  refine ⟨_, _, _, rfl, rfl, rfl, rfl, ?_⟩
  have hiff := @restart_rejects_replays_iff false (beforeRestart 2)
    (toNewConnection [(0, ⟨1, 2, .newSessionCreated⟩)]) _ _ _ 3 rfl rfl rfl (by decide) rfl
  exact hiff.mpr (by decide)

/-- The store holds the msg_ids of a packet of `n` messages at the snapshot, and the new connection
starts with replays not rejected: one of the last message is dispatched again. -/
def Replayed (n : ℕ) (messages : List (ℤ × Message)) : Prop :=
  let x : ℤ := (1700000000 + 2 * (n - 1)) * 2 ^ 32 + 1
  ∃ p q r, (system false).run initial (beforeRestart n) = some p ∧
    (system false).step p (.resume 3 .returned) = some q ∧
    (system false).run q (toNewConnection messages) = some r ∧
    ¬ReplaysRejected false p.shared.storedMsgIds r ∧
    .dispatched x ∈ (r.shared.handleMessage (1700000070 * 2 ^ 32) ⟨x, 2, .newSessionCreated⟩).seen

/-- Of 31 stored msg_ids the latest is forgotten. A single one is forgotten as well where the packet
left over carries it. -/
theorem restart_forgets_latest : Replayed 31 [(0, ⟨1, 2, .newSessionCreated⟩)] ∧
    Replayed 1 [(0, ⟨1700000000 * 2 ^ 32 + 1, 2, .newSessionCreated⟩)] := by
  constructor
  · refine ⟨_, _, _, rfl, rfl, rfl, fun h => ?_, by decide +kernel⟩
    have hr := (h (1700000060 * 2 ^ 32 + 1) (by decide +kernel)).1
    revert hr
    decide +kernel
  · refine ⟨_, _, _, rfl, rfl, rfl, fun h => ?_, by decide +kernel⟩
    have hr := (h (1700000000 * 2 ^ 32 + 1) (by decide +kernel)).1
    revert hr
    decide +kernel

end AllInOneBackup.Kurigram.Session
