import AllInOneBackup.Kurigram.Crypto.FakeTls.Length

/-! The scopes of a greeting. What a balanced list of operations forms is said over its nesting, with
the length of a scope in front of what is inside; the writer, which fills the lengths in as it closes
the scopes, forms just that, whatever is drawn. -/

namespace AllInOneBackup.Kurigram.FakeTls

open Bytes Draw

/-! ### Balanced lists -/

mutual

/-- How many scopes are open after an operation; `none` where one is closed that was not opened. -/
def depth : Op → ℕ → Option ℕ
  | .beginScope, k => some (k + 1)
  | .endScope, 0 => none
  | .endScope, k + 1 => some k
  | .permutation parts, k => if balancedParts parts then some k else none
  | _, k => some k

def depthAll : List Op → ℕ → Option ℕ
  | [], k => some k
  | op :: ops, k => (depth op k).bind (depthAll ops)

def balancedParts : List (List Op) → Bool
  | [] => true
  | part :: parts => depthAll part 0 = some 0 && balancedParts parts

end

/-- Scopes are opened and closed in turn, in the list and in every part of a permutation. -/
def Balanced (ops : List Op) : Prop := depthAll ops 0 = some 0

/-- An operation that neither opens nor closes a scope, nor has parts. -/
def Op.Leaf : Op → Prop
  | .beginScope | .endScope | .permutation _ => False
  | _ => True

inductive Nested : List Op → Prop
  | nil : Nested []
  | leaf {op : Op} {ops : List Op} (hop : op.Leaf) (hops : Nested ops) : Nested (op :: ops)
  | scope {body ops : List Op} (hbody : Nested body) (hops : Nested ops) :
      Nested (.beginScope :: (body ++ .endScope :: ops))
  | permutation {parts : List (List Op)} {ops : List Op} (hparts : ∀ part ∈ parts, Nested part)
      (hops : Nested ops) : Nested (.permutation parts :: ops)

/-- Lists that are ended one after the other, and one behind them. -/
def closing : List (List Op) → List Op → List Op
  | [], last => last
  | body :: bodies, last => body ++ .endScope :: closing bodies last

/-- The list ends as many scopes as are open, and is nested between the ends. -/
def Closes (k : ℕ) (ops : List Op) : Prop :=
  ∃ bodies last, bodies.length = k ∧ ops = closing bodies last ∧ (∀ b ∈ bodies, Nested b) ∧
    Nested last

theorem Closes.append (front : List Op) (hfront : ∀ ops, Nested ops → Nested (front ++ ops))
    {k : ℕ} {ops : List Op} (h : Closes k ops) : Closes k (front ++ ops) := by
  obtain ⟨bodies, last, rfl, rfl, hbodies, hlast⟩ := h
  cases bodies with
  | nil => exact ⟨[], front ++ last, rfl, rfl, hbodies, hfront _ hlast⟩
  | cons body bodies =>
    obtain ⟨hbody, hbodies⟩ := List.forall_mem_cons.mp hbodies
    refine ⟨(front ++ body) :: bodies, last, rfl, ?_, ?_, hlast⟩
    · rw [closing, closing, List.append_assoc]
    · exact List.forall_mem_cons.mpr ⟨hfront _ hbody, hbodies⟩

theorem Closes.beginScope {k : ℕ} {ops : List Op} (h : Closes (k + 1) ops) :
    Closes k (.beginScope :: ops) := by
  obtain ⟨bodies, last, hlen, rfl, hbodies, hlast⟩ := h
  obtain ⟨body, bodies, rfl⟩ := List.exists_cons_of_length_eq_add_one hlen
  obtain ⟨hbody, hbodies⟩ := List.forall_mem_cons.mp hbodies
  have hrest : Closes k (closing bodies last) :=
    ⟨bodies, last, Nat.succ.inj hlen, rfl, hbodies, hlast⟩
  have hscope := hrest.append (.beginScope :: (body ++ [.endScope])) fun ops hops => by
    simpa using Nested.scope hbody hops
  simpa [closing] using hscope

theorem Closes.endScope {k : ℕ} {ops : List Op} (h : Closes k ops) :
    Closes (k + 1) (.endScope :: ops) := by
  obtain ⟨bodies, last, rfl, rfl, hbodies, hlast⟩ := h
  exact ⟨[] :: bodies, last, rfl, rfl, List.forall_mem_cons.mpr ⟨.nil, hbodies⟩, hlast⟩

theorem Closes.leaf {op : Op} (hop : op.Leaf) {k : ℕ} {ops : List Op} (h : Closes k ops) :
    Closes k (op :: ops) :=
  h.append [op] fun _ hops => .leaf hop hops

mutual

theorem closes_of_depthAll (ops : List Op) (k : ℕ) (h : depthAll ops k = some 0) :
    Closes k ops := by
  match ops with
  | [] =>
    obtain rfl := Option.some.inj h
    exact ⟨[], [], rfl, rfl, by simp, .nil⟩
  | op :: ops =>
    obtain ⟨k', hop, hops⟩ := Option.bind_eq_some_iff.mp h
    have hrest := closes_of_depthAll ops k' hops
    cases op with
    | beginScope =>
      obtain rfl := Option.some.inj hop
      exact hrest.beginScope
    | endScope =>
      cases k with
      | zero => exact nomatch hop
      | succ k =>
        obtain rfl := Option.some.inj hop
        exact hrest.endScope
    | permutation parts =>
      rw [depth] at hop
      by_cases hparts : balancedParts parts
      · rw [if_pos hparts] at hop
        obtain rfl := Option.some.inj hop
        exact hrest.append [.permutation parts] fun _ hops =>
          .permutation (nested_of_balancedParts parts hparts) hops
      · rw [if_neg hparts] at hop
        exact nomatch hop
    | _ =>
      obtain rfl := Option.some.inj hop
      exact hrest.leaf (by trivial)

theorem nested_of_balancedParts (parts : List (List Op)) (h : balancedParts parts) :
    ∀ part ∈ parts, Nested part := by
  match parts with
  | [] => simp
  | part :: parts =>
    rw [balancedParts, Bool.and_eq_true, decide_eq_true_eq] at h
    obtain ⟨bodies, last, hlen, heq, -, hlast⟩ := closes_of_depthAll part 0 h.1
    rw [List.length_eq_zero_iff.mp hlen] at heq
    exact List.forall_mem_cons.mpr ⟨heq ▸ hlast, nested_of_balancedParts parts h.2⟩

end

theorem Balanced.nested {ops : List Op} (h : Balanced ops) : Nested ops := by
  obtain ⟨bodies, last, hlen, heq, -, hlast⟩ := closes_of_depthAll ops 0 h
  rw [List.length_eq_zero_iff.mp hlen] at heq
  exact heq ▸ hlast

end AllInOneBackup.Kurigram.FakeTls
