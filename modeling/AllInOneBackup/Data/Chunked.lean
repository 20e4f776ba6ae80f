import Mathlib.Data.List.Basic
import Mathlib.Tactic.Common

/-! Reading a stream that arrives in chunks. A receiver takes what it needs from the
arrivals to come and either returns a value or gives up. It reads an encoding when it
returns the encoded value from every chunking of every stream that begins with the
encoding, and leaves the rest of the stream behind; such receivers compose. -/

namespace AllInOneBackup.Chunked

/-- What one wait for the stream can end with. -/
inductive Arrival (α : Type)
  | chunk (xs : List α)
  | timeout
  | osError
  deriving DecidableEq

variable {α β γ : Type}

/-- The arrivals to come. After the last of them the stream is at its end. -/
abbrev Reader (α : Type) := List (Arrival α)

/-- A receiver; one that gives up returns no value. -/
abbrev Receive (α β : Type) := OptionT (StateM (Reader α)) β

theorem run_bind (m : Receive α β) (f : β → Receive α γ) (r : Reader α) :
    (m >>= f).run r = match m.run r with
      | (some a, r') => (f a).run r'
      | (none, r') => (none, r') := by
  have h : (m >>= f).run r = (match (m.run r).1 with
      | some a => (f a).run
      | none => pure none) (m.run r).2 := rfl
  rw [h]
  rcases m.run r with ⟨_ | a, r'⟩ <;> rfl

/-- The reader hands out the stream `xs` in non-empty chunks. -/
inductive Delivers : Reader α → List α → Prop
  | nil : Delivers [] []
  | chunk {c xs : List α} {r : Reader α} (hc : c ≠ []) (h : Delivers r xs) :
      Delivers (.chunk c :: r) (c ++ xs)

theorem delivers_map_chunk {chunks : List (List α)} (h : ∀ c ∈ chunks, c ≠ []) :
    Delivers (chunks.map .chunk) chunks.flatten := by
  induction chunks with
  | nil => exact .nil
  | cons c chunks ih =>
    exact .chunk (h c (by simp)) (ih fun c hc => h c (List.mem_cons_of_mem _ hc))

theorem Delivers.eq_nil {r : Reader α} (h : Delivers r []) : r = [] := by
  generalize hxs : ([] : List α) = xs at h
  cases h with
  | nil => rfl
  | chunk hc _ => exact absurd (List.append_eq_nil_iff.mp hxs.symm).1 hc

/-- `m` returns `value` after taking exactly `encoded`, whatever follows it and however the
stream is cut into chunks. -/
def Reads (m : Receive α β) (encoded : List α) (value : β) : Prop :=
  ∀ r rest, Delivers r (encoded ++ rest) → ∃ r', m.run r = (some value, r') ∧ Delivers r' rest

theorem Reads.pure (value : β) : Reads (pure value : Receive α β) [] value :=
  fun r _ h => ⟨r, rfl, h⟩

theorem Reads.bind {m : Receive α β} {f : β → Receive α γ} {xs ys : List α} {b : β} {c : γ}
    (hm : Reads m xs b) (hf : Reads (f b) ys c) : Reads (m >>= f) (xs ++ ys) c := by
  intro r rest h
  rw [List.append_assoc] at h
  obtain ⟨r', hr, h'⟩ := hm r _ h
  obtain ⟨r'', hr', h''⟩ := hf r' rest h'
  exact ⟨r'', by rw [run_bind, hr]; exact hr', h''⟩

/-- `n` receives in a row. -/
def many (m : Receive α β) : ℕ → Receive α (List β)
  | 0 => pure []
  | n + 1 => do
    let x ← m
    let xs ← many m n
    pure (x :: xs)

/-- Values encoded one after the other are read one after the other. -/
theorem Reads.many {m : Receive α β} {encs : List (List α)} {values : List β}
    (h : List.Forall₂ (Reads m) encs values) :
    Reads (many m values.length) encs.flatten values := by
  induction h with
  | nil => exact .pure []
  | @cons enc x encs xs hx _ ih =>
    rw [List.flatten_cons, ← List.append_nil encs.flatten]
    exact hx.bind (ih.bind (.pure (x :: xs)))

/-- The values sent come back from every chunking of the stream, and nothing is left over. -/
def Lossless (m : Receive α β) (encs : List (List α)) (values : List β) : Prop :=
  ∀ chunks : List (List α), (∀ c ∈ chunks, c ≠ []) → chunks.flatten = encs.flatten →
    (many m values.length).run (chunks.map .chunk) = (some values, [])

theorem lossless_of_reads {m : Receive α β} {encs : List (List α)} {values : List β}
    (h : List.Forall₂ (Reads m) encs values) : Lossless m encs values := by
  intro chunks hne hflat
  have hd : Delivers (chunks.map .chunk) (encs.flatten ++ []) := by
    rw [List.append_nil, ← hflat]
    exact delivers_map_chunk hne
  obtain ⟨r', hr, hd'⟩ := Reads.many h _ _ hd
  rw [hr, hd'.eq_nil]

/-! ### Senders -/

variable {σ : Type}

/-- What a sender that may keep a state puts out for some values in a row, if it raises for
none of them. -/
def sendMany (send : σ → γ → Option (List α × σ)) (s : σ) : List γ → Option (List (List α))
  | [] => some []
  | x :: xs => (send s x).bind fun (enc, s) => (sendMany send s xs).map (enc :: ·)

theorem sendMany_isSome {send : σ → γ → Option (List α × σ)} {xs : List γ}
    (h : ∀ x ∈ xs, ∀ s, (send s x).isSome) (s : σ) : ∃ encs, sendMany send s xs = some encs := by
  induction xs generalizing s with
  | nil => exact ⟨[], rfl⟩
  | cons x xs ih =>
    obtain ⟨⟨enc, s'⟩, hx⟩ := Option.isSome_iff_exists.mp (h x (by simp) s)
    obtain ⟨encs, hxs⟩ := ih (fun x hx => h x (List.mem_cons_of_mem _ hx)) s'
    exact ⟨enc :: encs, by simp [sendMany, hx, hxs]⟩

/-- A sender and a receiver that agree on every single value agree on every sequence. -/
theorem lossless_of_send {send : σ → γ → Option (List α × σ)} {value : γ → β}
    {m : Receive α β} {xs : List γ}
    (h : ∀ x ∈ xs, ∀ s enc s', send s x = some (enc, s') → Reads m enc (value x)) {s : σ}
    {encs : List (List α)} (hsend : sendMany send s xs = some encs) :
    Lossless m encs (xs.map value) := by
  refine lossless_of_reads ?_
  induction xs generalizing s encs with
  | nil => cases hsend; exact .nil
  | cons x xs ih =>
    obtain ⟨⟨enc, s'⟩, hx, hrest⟩ := Option.bind_eq_some_iff.mp hsend
    obtain ⟨rest, hxs, rfl⟩ := Option.map_eq_some_iff.mp hrest
    exact .cons (h x (by simp) s enc s' hx) (ih (fun x hx => h x (List.mem_cons_of_mem _ hx)) hxs)

/-! ### Cutting a list -/

/-- `xs` cut into pieces of `m`, the last one perhaps shorter. -/
def pieces (m : ℕ) (xs : List α) : List (List α) :=
  (List.range ((xs.length + m - 1) / m)).map fun i => (xs.drop (i * m)).take m

theorem flatten_pieces {m : ℕ} (hm : 0 < m) (xs : List α) : (pieces m xs).flatten = xs := by
  have hpre : ∀ k, ((List.range k).map fun i => (xs.drop (i * m)).take m).flatten =
      xs.take (k * m) := by
    intro k
    induction k with
    | zero => simp
    | succ k ih =>
      rw [List.range_succ, List.map_append, List.flatten_append, ih, Nat.succ_mul, List.take_add]
      simp
  rw [pieces, hpre, List.take_of_length_le]
  have := Nat.lt_div_mul_add (a := xs.length + m - 1) hm
  omega

/-- A list that begins with `m` elements is cut behind them. -/
theorem pieces_append {m : ℕ} (hm : 0 < m) {x : List α} (hx : x.length = m) (ys : List α) :
    pieces m (x ++ ys) = x :: pieces m ys := by
  have hcount : ((x ++ ys).length + m - 1) / m = (ys.length + m - 1) / m + 1 := by
    rw [List.length_append, hx, show m + ys.length + m - 1 = ys.length + m - 1 + m by omega,
      Nat.add_div_right _ hm]
  have hdrop : ∀ i, (x ++ ys).drop ((i + 1) * m) = ys.drop (i * m) := by
    intro i
    rw [Nat.succ_mul, Nat.add_comm, ← List.drop_drop, ← hx, List.drop_left]
  rw [pieces, hcount, List.range_succ_eq_map, List.map_cons, List.map_map, Nat.zero_mul,
    List.drop_zero, ← hx, List.take_left, hx, pieces]
  congr 1
  apply List.map_congr_left
  intro i _
  simp only [Function.comp_apply, hdrop]

/-- Pieces of the same length are cut as they were. -/
theorem pieces_flatten {m : ℕ} (hm : 0 < m) {xs : List (List α)} (h : ∀ x ∈ xs, x.length = m) :
    pieces m xs.flatten = xs := by
  induction xs with
  | nil =>
    rw [List.flatten_nil, pieces, List.length_nil, Nat.div_eq_of_lt (by omega)]
    rfl
  | cons x xs ih =>
    rw [List.flatten_cons, pieces_append hm (h x List.mem_cons_self),
      ih fun y hy => h y (List.mem_cons_of_mem x hy)]

@[simp] theorem pieces_nil (m : ℕ) : pieces m ([] : List α) = [] := by
  have hcount : (([] : List α).length + m - 1) / m = 0 := by
    cases m with
    | zero => exact Nat.div_zero _
    | succ m => exact Nat.div_eq_of_lt (by simp)
  rw [pieces, hcount]
  rfl

theorem pieces_cons {m : ℕ} (hm : 0 < m) {xs : List α} (hne : xs ≠ []) :
    pieces m xs = xs.take m :: pieces m (xs.drop m) := by
  obtain hlt | hle := Nat.lt_or_ge xs.length m
  · have hpos := List.length_pos_iff.mpr hne
    have hcount : (xs.length + m - 1) / m = 1 := by
      rw [show xs.length + m - 1 = xs.length - 1 + m by omega, Nat.add_div_right _ hm,
        Nat.div_eq_of_lt (by omega)]
    rw [List.drop_of_length_le (Nat.le_of_lt hlt), pieces_nil, pieces, hcount]
    simp
  · have happend := pieces_append hm (List.length_take_of_le hle) (xs.drop m)
    rwa [List.take_append_drop] at happend

/-- Induction along the pieces of a list. -/
theorem pieces_induction {m : ℕ} (hm : 0 < m) {P : List α → Prop} (nil : P [])
    (step : ∀ xs, xs ≠ [] → P (xs.drop m) → P xs) (xs : List α) : P xs := by
  induction hn : xs.length using Nat.strongRecOn generalizing xs with
  | _ n ih =>
    by_cases hne : xs = []
    · exact hne ▸ nil
    · have hpos := List.length_pos_iff.mpr hne
      refine step xs hne (ih (xs.drop m).length ?_ _ rfl)
      rw [List.length_drop]
      omega

/-- Pieces replaced by others of the same lengths are cut where they were. -/
theorem pieces_map_flatten {m : ℕ} (hm : 0 < m) {f : List α → List β}
    (hf : ∀ p, p.length ≤ m → (f p).length = p.length) (xs : List α) :
    pieces m ((pieces m xs).map f).flatten = (pieces m xs).map f := by
  induction xs using pieces_induction hm with
  | nil => simp
  | step xs hne ih =>
    have hlen := hf (xs.take m) (List.length_take_le _ _)
    rw [pieces_cons hm hne, List.map_cons, List.flatten_cons]
    obtain hlt | hle := Nat.lt_or_ge xs.length m
    · have hne' : f (xs.take m) ≠ [] := by
        rw [← List.length_pos_iff, hlen, List.take_of_length_le (Nat.le_of_lt hlt)]
        exact List.length_pos_iff.mpr hne
      have hshort : (f (xs.take m)).length ≤ m := hlen ▸ List.length_take_le _ _
      rw [List.drop_of_length_le (Nat.le_of_lt hlt), pieces_nil, List.map_nil, List.flatten_nil, List.append_nil,
        pieces_cons hm hne', List.take_of_length_le hshort, List.drop_of_length_le hshort, pieces_nil]
    · rw [pieces_append hm (by rw [hlen, List.length_take_of_le hle]), ih]

/-- A list that `m` divides is cut into pieces of `m`. -/
theorem length_eq_of_mem_pieces {m : ℕ} (hm : 0 < m) {xs : List α} (h : m ∣ xs.length) :
    ∀ piece ∈ pieces m xs, piece.length = m := by
  induction xs using pieces_induction hm with
  | nil => simp
  | step xs hne ih =>
    have hle : m ≤ xs.length := Nat.le_of_dvd (List.length_pos_iff.mpr hne) h
    rw [pieces_cons hm hne, List.forall_mem_cons]
    refine ⟨List.length_take_of_le hle, ih ?_⟩
    rw [List.length_drop]
    exact Nat.dvd_sub h (Nat.dvd_refl m)

theorem length_of_mem_pieces {m : ℕ} {xs piece : List α} (h : piece ∈ pieces m xs) :
    piece.length ≤ m := by
  obtain ⟨i, -, rfl⟩ := List.mem_map.mp h
  exact List.length_take_le _ _

end AllInOneBackup.Chunked
