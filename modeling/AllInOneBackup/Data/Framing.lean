import Mathlib.Data.List.Basic
import Mathlib.Tactic.Common

/-! Streams of self-delimiting frames. A reader takes the next frame off the front, asks for more,
or rejects what it sees. Where it reads the encoding of every valid frame, rejects no part of one
and accepts nothing else, a stream of frames may be parsed in any two parts, and what is parsed
to the end is the encoding of what came out. -/

namespace AllInOneBackup

/-- `next` returns a frame and what follows it, or `none` for an incomplete one. -/
structure Framing (α β ε : Type*) where
  next : List β → Except ε (Option (α × List β))
  shorter : ∀ {w a rest}, next w = .ok (some (a, rest)) → rest.length < w.length

namespace Framing

variable {α β ε : Type*}

/-- The frames from the front on, and what is left behind the last of them. -/
def parse (F : Framing α β ε) (w : List β) : Except ε (List α × List β) :=
  match _h : F.next w with
  | .error e => .error e
  | .ok none => .ok ([], w)
  | .ok (some (a, rest)) => (parse F rest).map fun r => (a :: r.1, r.2)
termination_by w.length
decreasing_by exact F.shorter _h

variable {F : Framing α β ε} {w rest left : List β} {a : α} {as : List α}

theorem parse_none (h : F.next w = .ok none) : F.parse w = .ok ([], w) := by
  rw [parse]
  split <;> simp_all

theorem parse_some (h : F.next w = .ok (some (a, rest))) :
    F.parse w = (F.parse rest).map fun r => (a :: r.1, r.2) := by
  rw [parse]
  split <;> simp_all

theorem parse_error {e : ε} (h : F.next w = .error e) : F.parse w = .error e := by
  rw [parse]
  split <;> simp_all

/-- The reader reads the encodings of the valid frames, and nothing else. -/
structure Reads (F : Framing α β ε) (encode : α → List β) (Valid : α → Prop) : Prop where
  nil : F.next [] = .ok none
  whole : ∀ a rest, Valid a → F.next (encode a ++ rest) = .ok (some (a, rest))
  part : ∀ a w rest, Valid a → encode a = w ++ rest → rest ≠ [] → F.next w = .ok none
  sound : ∀ w a rest, F.next w = .ok (some (a, rest)) → Valid a ∧ w = encode a ++ rest

variable {encode : α → List β} {Valid : α → Prop}

namespace Reads

theorem parse_flatMap_append (hF : F.Reads encode Valid) (has : ∀ a ∈ as, Valid a)
    (hleft : F.next left = .ok none) :
    F.parse (as.flatMap encode ++ left) = .ok (as, left) := by
  induction as with
  | nil => exact parse_none hleft
  | cons a as ih =>
    have hrest := ih fun b hb => has b (List.mem_cons_of_mem a hb)
    rw [List.flatMap_cons, List.append_assoc,
      parse_some (hF.whole a _ (has a List.mem_cons_self)), hrest]
    rfl

theorem parse_flatMap (hF : F.Reads encode Valid) (has : ∀ a ∈ as, Valid a) :
    F.parse (as.flatMap encode) = .ok (as, []) := by
  have h := hF.parse_flatMap_append has hF.nil
  rwa [List.append_nil] at h

/-- What is parsed is the encoding of valid frames, and what is left holds no whole one. -/
theorem of_parse (hF : F.Reads encode Valid) (h : F.parse w = .ok (as, left)) :
    (∀ a ∈ as, Valid a) ∧ w = as.flatMap encode ++ left ∧ F.next left = .ok none := by
  induction as generalizing w with
  | nil =>
    cases hnext : F.next w with
    | error e => rw [parse_error hnext] at h; cases h
    | ok r =>
      cases r with
      | none =>
        rw [parse_none hnext] at h
        cases h
        exact ⟨List.forall_mem_nil _, rfl, hnext⟩
      | some r =>
        rw [parse_some hnext] at h
        cases hrest : F.parse r.2 with
        | error e => rw [hrest] at h; cases h
        | ok q => rw [hrest] at h; cases h
  | cons a as ih =>
    cases hnext : F.next w with
    | error e => rw [parse_error hnext] at h; cases h
    | ok r =>
      cases r with
      | none => rw [parse_none hnext] at h; cases h
      | some r =>
        rw [parse_some hnext] at h
        cases hrest : F.parse r.2 with
        | error e => rw [hrest] at h; cases h
        | ok q =>
          rw [hrest] at h
          obtain ⟨hvalid, hw⟩ := hF.sound w r.1 r.2 hnext
          cases h
          obtain ⟨has, hq, hleft⟩ := ih hrest
          refine ⟨List.forall_mem_cons.mpr ⟨hvalid, has⟩, ?_, hleft⟩
          rw [hw, hq, List.flatMap_cons, List.append_assoc]

end Reads

/-- A stream of frames cut in two: the frames that end in the first part, and a part of the next
frame. -/
theorem exists_cut {w₁ w₂ : List β} (h : as.flatMap encode = w₁ ++ w₂) :
    ∃ done rest part, as = done ++ rest ∧ w₁ = done.flatMap encode ++ part ∧
      part ++ w₂ = rest.flatMap encode ∧
      ∀ a ∈ rest.head?, ∃ more, more ≠ [] ∧ encode a = part ++ more := by
  induction as generalizing w₁ with
  | nil =>
    obtain ⟨rfl, rfl⟩ := List.append_eq_nil_iff.mp h.symm
    exact ⟨[], [], [], rfl, rfl, rfl, by simp⟩
  | cons a as ih =>
    rw [List.flatMap_cons] at h
    obtain ⟨t, hw, hrest⟩ | ⟨t, ha, hrest⟩ := List.append_eq_append_iff.mp h
    · obtain ⟨done, rest, part, rfl, rfl, hpart, hnext⟩ := ih hrest
      exact ⟨a :: done, rest, part, rfl, by rw [hw, List.flatMap_cons, List.append_assoc], hpart,
        hnext⟩
    · cases t with
      | nil =>
        obtain ⟨done, rest, part, rfl, hw, hpart, hnext⟩ := @ih [] hrest.symm
        refine ⟨a :: done, rest, part, rfl, ?_, hpart, hnext⟩
        rw [List.flatMap_cons, List.append_assoc, ← hw, List.append_nil, ha, List.append_nil]
      | cons b t =>
        refine ⟨[], a :: as, w₁, rfl, rfl, h.symm, fun x hx => ?_⟩
        obtain rfl := Option.some.inj hx
        exact ⟨b :: t, List.cons_ne_nil b t, ha⟩

/-- A stream of valid frames may be parsed in any two parts. -/
theorem Reads.parse_cut (hF : F.Reads encode Valid) (has : ∀ a ∈ as, Valid a)
    {w₁ w₂ : List β} (h : as.flatMap encode = w₁ ++ w₂) :
    ∃ done rest part, as = done ++ rest ∧ w₁ = done.flatMap encode ++ part ∧
      (∀ a ∈ rest.head?, part.length < (encode a).length) ∧
      F.parse w₁ = .ok (done, part) ∧ F.parse (part ++ w₂) = .ok (rest, []) := by
  obtain ⟨done, rest, part, rfl, rfl, hpart, hnext⟩ := exists_cut h
  have hdone := fun a ha => has a (List.mem_append_left rest ha)
  have hrest := fun a ha => has a (List.mem_append_right done ha)
  have hstop : F.next part = .ok none := by
    cases rest with
    | nil =>
      obtain ⟨rfl, -⟩ := List.append_eq_nil_iff.mp hpart
      exact hF.nil
    | cons a rest =>
      obtain ⟨more, hmore, ha⟩ := hnext a rfl
      exact hF.part a part more (hrest a List.mem_cons_self) ha hmore
  refine ⟨done, rest, part, rfl, rfl, fun a ha => ?_, hF.parse_flatMap_append hdone hstop, ?_⟩
  · obtain ⟨more, hmore, heq⟩ := hnext a ha
    have hpos := List.length_pos_iff.mpr hmore
    rw [heq, List.length_append]
    omega
  · rw [hpart]
    exact hF.parse_flatMap hrest

end Framing

end AllInOneBackup
