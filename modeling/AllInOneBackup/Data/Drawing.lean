import AllInOneBackup.Data.Bytes

/-! Programs that draw random numbers. What they draw is a stream of numbers, cut to the range that
is asked for, so that every outcome of the draws has its streams. A program may raise, and one that
draws until a value is accepted may give up. A rule says of a program that it never raises and what
holds of its result. -/

namespace AllInOneBackup

/-- Why there is no result. -/
inductive Stop (ε : Type)
  | raised (e : ε)
  | gaveUp
  deriving DecidableEq

abbrev Draw (ε α : Type) := StateT (ℕ → ℕ) (Except (Stop ε)) α

namespace Draw

variable {ε α β : Type}

def draw : Draw ε ℕ := fun s => .ok (s 0, fun i => s (i + 1))

def raise (e : ε) : Draw ε α := fun _ => .error (.raised e)

/-- `secrets.randbits`. -/
def randbits (k : ℕ) : Draw ε ℕ := do return (← draw) % 2 ^ k

/-- `secrets.randbelow`. -/
def randbelow (n : ℕ) : Draw ε ℕ := do return (← draw) % n

/-- `secrets.token_bytes`. -/
def tokenBytes : ℕ → Draw ε Bytes
  | 0 => return []
  | n + 1 => do
    let b ← draw
    let bs ← tokenBytes n
    return UInt8.ofNat b :: bs

/-- Draws until a value is accepted, `tries` times at most. -/
def drawUntil (accepts : α → Bool) (m : Draw ε α) : ℕ → Draw ε α
  | 0 => fun _ => .error .gaveUp
  | tries + 1 => do
    let a ← m
    if accepts a then return a else drawUntil accepts m tries

/-! ### What a program returns -/

/-- The program does not raise, and what it returns has the property. -/
def Returns (m : Draw ε α) (P : α → Prop) : Prop :=
  ∀ s, m.run s = .error .gaveUp ∨ ∃ a s', m.run s = .ok (a, s') ∧ P a

variable {m : Draw ε α} {P Q : α → Prop}

theorem Returns.pure {a : α} (h : P a) : Returns (pure a : Draw ε α) P :=
  fun s => .inr ⟨a, s, rfl, h⟩

theorem Returns.bind {f : α → Draw ε β} {R : β → Prop} (h : Returns m P)
    (h' : ∀ a, P a → Returns (f a) R) : Returns (m >>= f) R := by
  intro s
  rw [StateT.run_bind]
  obtain hgave | ⟨a, s', hrun, ha⟩ := h s
  · left
    rw [hgave]
    rfl
  · rw [hrun]
    exact h' a ha s'

theorem Returns.mono (h : Returns m P) (h' : ∀ a, P a → Q a) : Returns m Q := by
  intro s
  obtain hgave | ⟨a, s', hrun, ha⟩ := h s
  · exact .inl hgave
  · exact .inr ⟨a, s', hrun, h' a ha⟩

theorem draw_returns : Returns (draw : Draw ε ℕ) fun _ => True :=
  fun s => .inr ⟨s 0, _, rfl, trivial⟩

theorem tokenBytes_returns (n : ℕ) :
    Returns (tokenBytes n : Draw ε Bytes) fun bs => bs.length = n := by
  induction n with
  | zero => exact .pure rfl
  | succ n ih =>
    exact draw_returns.bind fun b _ => ih.bind fun bs hbs => .pure (by rw [List.length_cons, hbs])

theorem drawUntil_returns {accepts : α → Bool} (h : Returns m P) (tries : ℕ) :
    Returns (drawUntil accepts m tries) fun a => P a ∧ accepts a = true := by
  induction tries with
  | zero => exact fun _ => .inl rfl
  | succ tries ih =>
    refine h.bind fun a ha => ?_
    split_ifs with haccepts
    · exact .pure ⟨ha, haccepts⟩
    · exact ih

/-! ### What a program may raise -/

/-- What the program raises has one property, and what it returns has the other. -/
def Yields (E : ε → Prop) (m : Draw ε α) (P : α → Prop) : Prop :=
  ∀ s, m.run s = .error .gaveUp ∨ (∃ e, m.run s = .error (.raised e) ∧ E e) ∨
    ∃ a s', m.run s = .ok (a, s') ∧ P a

variable {E F : ε → Prop}

theorem Returns.yields (h : Returns m P) : Yields E m P := fun s => (h s).imp_right .inr

theorem Yields.pure {a : α} (h : P a) : Yields E (pure a) P := (Returns.pure h).yields

theorem Yields.raise {e : ε} (h : E e) : Yields E (raise e) P := fun _ => .inr (.inl ⟨e, rfl, h⟩)

theorem Yields.bind {f : α → Draw ε β} {R : β → Prop} (h : Yields E m P)
    (h' : ∀ a, P a → Yields E (f a) R) : Yields E (m >>= f) R := by
  intro s
  rw [StateT.run_bind]
  obtain hgave | ⟨e, hrun, he⟩ | ⟨a, s', hrun, ha⟩ := h s
  · left
    rw [hgave]
    rfl
  · right
    left
    rw [hrun]
    exact ⟨e, rfl, he⟩
  · rw [hrun]
    exact h' a ha s'

theorem Yields.mono (h : Yields E m P) (hE : ∀ e, E e → F e) (hP : ∀ a, P a → Q a) :
    Yields F m Q := by
  intro s
  obtain hgave | ⟨e, hrun, he⟩ | ⟨a, s', hrun, ha⟩ := h s
  · exact .inl hgave
  · exact .inr (.inl ⟨e, hrun, hE e he⟩)
  · exact .inr (.inr ⟨a, s', hrun, hP a ha⟩)

/-! ### Programs that end -/

/-- On streams of a kind the program gives up only for a reason, and otherwise leaves a stream of that
kind. -/
def EndsOn (R : Prop) (S : (ℕ → ℕ) → Prop) (m : Draw ε α) : Prop :=
  ∀ s, S s → (m.run s = .error .gaveUp ∧ R) ∨ (∃ e, m.run s = .error (.raised e)) ∨
    ∃ a s', m.run s = .ok (a, s') ∧ S s'

variable {R : Prop} {S : (ℕ → ℕ) → Prop}

theorem EndsOn.pure (a : α) : EndsOn R S (pure a : Draw ε α) :=
  fun s hs => .inr (.inr ⟨a, s, rfl, hs⟩)

theorem EndsOn.raise (e : ε) : EndsOn R S (raise e : Draw ε α) :=
  fun _ _ => .inr (.inl ⟨e, rfl⟩)

theorem EndsOn.imp {R' : Prop} (h : EndsOn R S m) (h' : R → R') : EndsOn R' S m :=
  fun s hs => (h s hs).imp_left fun hgave => ⟨hgave.1, h' hgave.2⟩

theorem EndsOn.bind {f : α → Draw ε β} (h : EndsOn R S m) (h' : ∀ a, EndsOn R S (f a)) :
    EndsOn R S (m >>= f) := by
  intro s hs
  rw [StateT.run_bind]
  obtain ⟨hgave, hreason⟩ | ⟨e, hrun⟩ | ⟨a, s', hrun, hs'⟩ := h s hs
  · left
    rw [hgave]
    exact ⟨rfl, hreason⟩
  · right
    left
    rw [hrun]
    exact ⟨e, rfl⟩
  · rw [hrun]
    exact h' a s' hs'

section Shift

variable (hshift : ∀ s, S s → S fun i => s (i + 1))

include hshift

theorem draw_endsOn : EndsOn R S (draw : Draw ε ℕ) :=
  fun s hs => .inr (.inr ⟨s 0, _, rfl, hshift s hs⟩)

theorem randbits_endsOn (k : ℕ) : EndsOn R S (randbits k : Draw ε ℕ) :=
  (draw_endsOn hshift).bind fun _ => .pure _

theorem randbelow_endsOn (n : ℕ) : EndsOn R S (randbelow n : Draw ε ℕ) :=
  (draw_endsOn hshift).bind fun _ => .pure _

theorem tokenBytes_endsOn (n : ℕ) : EndsOn R S (tokenBytes n : Draw ε Bytes) := by
  induction n with
  | zero => exact .pure []
  | succ n ih => exact (draw_endsOn hshift).bind fun _ => ih.bind fun _ => .pure _

end Shift

/-! ### Loops that give up -/

/-- The value that is drawn from here is not accepted. -/
def Refused (accepts : α → Bool) (m : Draw ε α) (s : ℕ → ℕ) : Prop :=
  ∃ a s', m.run s = .ok (a, s') ∧ accepts a = false

/-- The program returns a value and has drawn so many numbers. -/
def Takes (n : ℕ) (m : Draw ε α) : Prop := ∀ s, ∃ a, m.run s = .ok (a, fun i => s (i + n))

theorem Takes.map {n : ℕ} (h : Takes n m) (f : α → β) :
    Takes n (do return f (← m) : Draw ε β) := by
  intro s
  obtain ⟨a, hrun⟩ := h s
  refine ⟨f a, ?_⟩
  rw [StateT.run_bind, hrun]
  rfl

theorem tokenBytes_takes (n : ℕ) : Takes n (tokenBytes n : Draw ε Bytes) := by
  induction n with
  | zero => exact fun s => ⟨[], rfl⟩
  | succ n ih =>
    intro s
    obtain ⟨bs, hrun⟩ := ih fun i => s (i + 1)
    refine ⟨UInt8.ofNat (s 0) :: bs, ?_⟩
    change ((tokenBytes n).run (fun i => s (i + 1)) >>= fun r =>
      (Except.ok (UInt8.ofNat (s 0) :: r.1, r.2) : Except (Stop ε) _)) = _
    rw [hrun]
    rfl

/-- A loop gives up only where all values that it may draw are refused. -/
theorem drawUntil_cases {accepts : α → Bool} {n : ℕ} (h : Takes n m) (tries : ℕ) (s : ℕ → ℕ) :
    ((drawUntil accepts m tries).run s = .error .gaveUp ∧
      ∀ j < tries, Refused accepts m fun i => s (i + n * j)) ∨
    ∃ a k, (drawUntil accepts m tries).run s = .ok (a, fun i => s (i + k)) := by
  induction tries generalizing s with
  | zero => exact .inl ⟨rfl, fun j hj => absurd hj (Nat.not_lt_zero j)⟩
  | succ tries ih =>
    obtain ⟨a, hrun⟩ := h s
    have hnext : (drawUntil accepts m (tries + 1)).run s =
        (if accepts a then pure a else drawUntil accepts m tries : Draw ε α).run
          fun i => s (i + n) := by
      rw [drawUntil, StateT.run_bind, hrun]
      rfl
    rw [hnext]
    cases haccepts : accepts a with
    | true => exact .inr ⟨a, n, rfl⟩
    | false =>
      rw [if_neg (by decide)]
      obtain ⟨hgave, hrefused⟩ | ⟨b, k, hok⟩ := ih fun i => s (i + n)
      · refine .inl ⟨hgave, fun j hj => ?_⟩
        cases j with
        | zero => exact ⟨a, _, hrun, haccepts⟩
        | succ j =>
          have hj' := hrefused j (Nat.lt_of_succ_lt_succ hj)
          have hshift : (fun i => s (i + n * (j + 1))) = fun i => s (i + n * j + n) := by
            funext i
            rw [Nat.mul_succ, Nat.add_assoc]
          rwa [hshift]
      · have hshift : (fun i => s (i + (k + n))) = fun i => s (i + k + n) := by
          funext i
          rw [Nat.add_assoc]
        exact .inr ⟨b, k + n, by rw [hok, hshift]⟩

/-- A loop ends at once where the first value is accepted. -/
theorem drawUntil_endsOn {accepts : α → Bool} {tries : ℕ} (htries : 0 < tries)
    (h : ∀ s, S s → ∃ a s', m.run s = .ok (a, s') ∧ accepts a = true ∧ S s') :
    EndsOn R S (drawUntil accepts m tries) := by
  intro s hs
  obtain ⟨a, s', hrun, haccepts, hs'⟩ := h s hs
  obtain ⟨tries, rfl⟩ := Nat.exists_eq_add_of_lt htries
  refine .inr (.inr ⟨a, s', ?_, hs'⟩)
  rw [drawUntil, StateT.run_bind, hrun]
  change (if accepts a = true then _ else _ : Draw ε α).run s' = _
  rw [if_pos haccepts]
  rfl

end Draw

end AllInOneBackup
