import AllInOneBackup.P115.Lz4

/-! Which sources the LZ4 block decompressor ends on. An offset of zero is the one that the overlapping
copy makes no way with: its slices are empty, and twice nothing is nothing. Here a raised
`IndexError` is told apart from a loop that has not ended. -/

namespace AllInOneBackup.P115.Lz4

/-! ### Model -/

inductive Raised
  | indexError
  deriving DecidableEq

/-- The copy of a match, with at most `fuel` rounds of its loop. -/
def runCopy (fuel : ℕ) (dest : Bytes) (offset matchLen : ℕ) : Option (Except Raised Bytes) :=
  let destPtr : ℤ := dest.length
  let matchPos := destPtr - offset
  if offset ≥ matchLen then some (.ok (dest ++ slice dest matchPos (matchPos + matchLen)))
  else if offset = 1 then
    match dest.getLast? with
    | some b => some (.ok (dest ++ List.replicate matchLen b))
    | none => some (.error .indexError)
  else (doublingCopy matchPos (destPtr + matchLen) fuel destPtr offset dest).map .ok

/-- The loop of `lz4_block_decompress` with at most `fuel` rounds, and fewer in every copy. -/
def runLoop : ℕ → Bytes → Bytes → Option (Except Raised Bytes)
  | 0, _, _ => none
  | _ + 1, [], dest => some (.ok dest)
  | fuel + 1, token :: src, dest =>
    let (litLen, src) := extendLength (token.toNat >>> 4) src
    let dest := dest ++ src.take litLen
    match src.drop litLen with
    | [] => some (.ok dest)
    | [_] => some (.error .indexError)
    | lo :: hi :: src =>
      let offset := lo.toNat ||| hi.toNat <<< 8
      let (matchLen, src) := extendLength (token.toNat &&& 0x0F) src
      match runCopy fuel dest offset (matchLen + 4) with
      | none => none
      | some (.error e) => some (.error e)
      | some (.ok dest) => runLoop fuel src dest

/-- The call returns or raises. -/
def Ends (source : Bytes) : Prop := ∃ fuel, (runLoop fuel source []).isSome

/-! ### What is read -/

/-- A sequence as it is read from the source. -/
structure Read where
  literals : Bytes
  offset : ℕ
  matchLen : ℕ
  rest : Bytes

/-- The sequence that is next, if its offset is there. -/
def next : Bytes → Option Read
  | [] => none
  | token :: src =>
    let (litLen, src) := extendLength (token.toNat >>> 4) src
    match src.drop litLen with
    | lo :: hi :: rest =>
      let (matchLen, rest) := extendLength (token.toNat &&& 0x0F) rest
      some ⟨src.take litLen, lo.toNat ||| hi.toNat <<< 8, matchLen + 4, rest⟩
    | _ => none

/-- An offset of zero is read; `empty` says that nothing has been put out. A copy of one byte from
where there is none raises before anything more is read. -/
inductive ReachesZero : Prop → Bytes → Prop
  | zero {empty : Prop} {src : Bytes} {r : Read} (hread : next src = some r) (hzero : r.offset = 0) :
      ReachesZero empty src
  | next {empty : Prop} {src : Bytes} {r : Read} (hread : next src = some r)
      (hgoes : ¬(r.offset = 1 ∧ empty ∧ r.literals = []))
      (h : ReachesZero (empty ∧ r.literals = []) r.rest) : ReachesZero empty src

/-- Without a further sequence the loop ends. -/
theorem runLoop_of_next_eq_none {src : Bytes} (h : next src = none) (dest : Bytes) :
    ∃ result : Except Raised Bytes, ∀ fuel, runLoop (fuel + 1) src dest = some result := by
  cases src with
  | nil => exact ⟨.ok dest, fun _ => rfl⟩
  | cons token src =>
    simp only [next] at h
    simp only [runLoop]
    rcases hdrop : (extendLength (token.toNat >>> 4) src).2.drop
        (extendLength (token.toNat >>> 4) src).1 with _ | ⟨lo, _ | ⟨hi, rest⟩⟩
    · exact ⟨.ok _, fun _ => rfl⟩
    · exact ⟨.error .indexError, fun _ => rfl⟩
    · simp [hdrop] at h

theorem runLoop_of_next {src : Bytes} {r : Read} (h : next src = some r) (fuel : ℕ) (dest : Bytes) :
    runLoop (fuel + 1) src dest =
      match runCopy fuel (dest ++ r.literals) r.offset r.matchLen with
      | none => none
      | some (.error e) => some (.error e)
      | some (.ok dest) => runLoop fuel r.rest dest := by
  cases src with
  | nil => cases h
  | cons token src =>
    simp only [next] at h
    split at h
    · rename_i lo hi rest hdrop
      cases h
      simp only [runLoop, hdrop]
    · cases h

theorem length_extendLength_le (len : ℕ) (src : Bytes) :
    (extendLength len src).2.length ≤ src.length := by
  rw [extendLength]
  split_ifs with hlen
  · have hdrop := (List.dropWhile_suffix (· = 255) (l := src)).length_le
    split
    · exact Nat.zero_le _
    · rename_i b rest hrest
      rw [hrest, List.length_cons] at hdrop
      exact Nat.le_of_succ_le hdrop
  · exact le_rfl

theorem length_rest_lt {src : Bytes} {r : Read} (h : next src = some r) :
    r.rest.length < src.length := by
  cases src with
  | nil => cases h
  | cons token src =>
    simp only [next] at h
    split at h
    · rename_i lo hi rest hdrop
      have hliterals := length_extendLength_le (token.toNat >>> 4) src
      have hmatch := length_extendLength_le (token.toNat &&& 0x0F) rest
      have hlen := congrArg List.length hdrop
      rw [List.length_drop, List.length_cons, List.length_cons] at hlen
      cases h
      change (extendLength (token.toNat &&& 0x0F) rest).2.length < (token :: src).length
      rw [List.length_cons]
      omega
    · cases h

theorem four_le_matchLen {src : Bytes} {r : Read} (h : next src = some r) : 4 ≤ r.matchLen := by
  cases src with
  | nil => cases h
  | cons token src =>
    simp only [next] at h
    split at h
    · cases h
      exact Nat.le_add_left 4 _
    · cases h

/-! ### Copies -/

/-- With an offset of zero every round is like the one before. -/
theorem doublingCopy_zero (matchPos : ℤ) {endPtr destPtr : ℤ} (h : destPtr < endPtr) (fuel : ℕ)
    (dest : Bytes) : doublingCopy matchPos endPtr fuel destPtr 0 dest = none := by
  induction fuel generalizing dest with
  | zero => exact if_pos h
  | succ fuel ih =>
    have hsize : (if ((0 : ℕ) : ℤ) < endPtr - destPtr then ((0 : ℕ) : ℤ) else endPtr - destPtr) = 0 :=
      if_pos (by omega)
    rw [doublingCopy, if_pos h]
    simp only [hsize, Int.add_zero, Nat.add_zero]
    exact ih _

/-- With any other, the rounds are no more than the bytes. -/
theorem doublingCopy_isSome (matchPos : ℤ) {endPtr destPtr : ℤ} {offset : ℕ} (hoffset : 0 < offset)
    {fuel : ℕ} (hfuel : endPtr - destPtr ≤ fuel) (dest : Bytes) :
    (doublingCopy matchPos endPtr fuel destPtr offset dest).isSome := by
  induction fuel generalizing destPtr offset dest with
  | zero =>
    rw [doublingCopy, if_neg (by omega)]
    rfl
  | succ fuel ih =>
    rw [doublingCopy]
    by_cases hlt : destPtr < endPtr
    · rw [if_pos hlt]
      refine ih (by omega) ?_ _
      split_ifs <;> omega
    · rw [if_neg hlt]
      rfl

theorem slice_nil (i j : ℤ) : slice [] i j = [] := by simp [slice]

theorem append_slice_eq_nil_iff (dest : Bytes) (i j : ℤ) : dest ++ slice dest i j = [] ↔ dest = [] := by
  constructor
  · exact fun h => (List.append_eq_nil_iff.mp h).1
  · rintro rfl
    rw [slice_nil]
    rfl

/-- A copy neither begins nor ends an output. -/
theorem doublingCopy_eq_nil_iff {matchPos endPtr destPtr : ℤ} {offset fuel : ℕ} {dest r : Bytes}
    (h : doublingCopy matchPos endPtr fuel destPtr offset dest = some r) : r = [] ↔ dest = [] := by
  induction fuel generalizing destPtr offset dest with
  | zero =>
    rw [doublingCopy] at h
    split_ifs at h
    cases h
    rfl
  | succ fuel ih =>
    rw [doublingCopy] at h
    by_cases hlt : destPtr < endPtr
    · rw [if_pos hlt] at h
      exact (ih h).trans (append_slice_eq_nil_iff dest _ _)
    · rw [if_neg hlt] at h
      cases h
      rfl

theorem runCopy_zero {matchLen : ℕ} (h : 0 < matchLen) (fuel : ℕ) (dest : Bytes) :
    runCopy fuel dest 0 matchLen = none := by
  have hcopy := doublingCopy_zero ((dest.length : ℤ) - (0 : ℕ))
    (by omega : (dest.length : ℤ) < dest.length + matchLen) fuel dest
  rw [runCopy, if_neg (by omega), if_neg (by decide), hcopy]
  rfl

theorem runCopy_isSome {offset matchLen fuel : ℕ} (hoffset : 0 < offset) (hfuel : matchLen ≤ fuel)
    (dest : Bytes) : (runCopy fuel dest offset matchLen).isSome := by
  rw [runCopy]
  split_ifs with hwhole hone
  · rfl
  · split <;> rfl
  · rw [Option.isSome_map]
    exact doublingCopy_isSome _ hoffset (by omega) dest

/-- Only a byte that is not there raises. -/
theorem runCopy_eq_error {offset matchLen fuel : ℕ} {dest : Bytes} {e : Raised}
    (h : runCopy fuel dest offset matchLen = some (.error e)) : offset = 1 ∧ dest = [] := by
  rw [runCopy] at h
  split_ifs at h with hwhole hone
  · cases h
  · split at h
    · cases h
    · rename_i hlast
      exact ⟨hone, List.getLast?_eq_none_iff.mp hlast⟩
  · obtain ⟨out, -, hout⟩ := Option.map_eq_some_iff.mp h
    cases hout

/-- Behind a copy that does not raise, the output is empty exactly if it was. -/
theorem runCopy_eq_ok {offset matchLen fuel : ℕ} {dest out : Bytes}
    (h : runCopy fuel dest offset matchLen = some (.ok out)) : out = [] ↔ dest = [] := by
  rw [runCopy] at h
  split_ifs at h with hwhole hone
  · cases h
    exact append_slice_eq_nil_iff dest _ _
  · split at h
    · rename_i b hlast
      have hne : dest ≠ [] := by
        rintro rfl
        cases hlast
      cases h
      simp [hne]
    · cases h
  · obtain ⟨out', hcopy, hout⟩ := Option.map_eq_some_iff.mp h
    cases hout
    exact doublingCopy_eq_nil_iff hcopy

/-! ### Runs -/

theorem runLoop_eq_none {empty : Prop} {src : Bytes} (h : ReachesZero empty src) (fuel : ℕ)
    {dest : Bytes} (hdest : empty ↔ dest = []) : runLoop fuel src dest = none := by
  induction h generalizing fuel dest with
  | zero hread hzero =>
    cases fuel with
    | zero => rfl
    | succ fuel =>
      have hlong := four_le_matchLen hread
      rw [runLoop_of_next hread, hzero, runCopy_zero (by omega)]
  | @next empty src r hread hgoes h ih =>
    cases fuel with
    | zero => rfl
    | succ fuel =>
      have hnil : empty ∧ r.literals = [] ↔ dest ++ r.literals = [] := by
        rw [hdest, List.append_eq_nil_iff]
      rw [runLoop_of_next hread]
      match hcopy : runCopy fuel (dest ++ r.literals) r.offset r.matchLen with
      | none => rfl
      | some (.error e) =>
        obtain ⟨hone, hempty⟩ := runCopy_eq_error hcopy
        exact absurd ⟨hone, hnil.mpr hempty⟩ hgoes
      | some (.ok out) => exact ih fuel (hnil.trans (runCopy_eq_ok hcopy).symm)

/-- Rounds that are enough, whatever has been put out. -/
theorem exists_fuel {empty : Prop} {src : Bytes} (h : ¬ReachesZero empty src) : ∃ n, ∀ fuel ≥ n,
    ∀ dest : Bytes, (empty ↔ dest = []) → (runLoop fuel src dest).isSome := by
  induction hn : src.length using Nat.strongRecOn generalizing empty src with
  | _ n ih =>
    cases hread : next src with
    | none =>
      refine ⟨1, fun fuel hfuel dest _ => ?_⟩
      obtain ⟨fuel, rfl⟩ := Nat.exists_eq_add_of_le' hfuel
      obtain ⟨result, hrun⟩ := runLoop_of_next_eq_none hread dest
      rw [hrun fuel]
      rfl
    | some r =>
      have hoffset : 0 < r.offset := Nat.pos_of_ne_zero fun hzero => h (.zero hread hzero)
      by_cases hgoes : r.offset = 1 ∧ empty ∧ r.literals = []
      · -- the copy raises
        refine ⟨r.matchLen + 1, fun fuel hfuel dest hdest => ?_⟩
        obtain ⟨fuel, rfl⟩ := Nat.exists_eq_add_of_le' (Nat.le_of_add_left_le hfuel)
        have hnil : dest ++ r.literals = [] := by
          rw [hdest.mp hgoes.2.1, hgoes.2.2]
          rfl
        have hlong := four_le_matchLen hread
        have hcopy : runCopy fuel (dest ++ r.literals) r.offset r.matchLen =
            some (.error .indexError) := by
          rw [runCopy, hgoes.1, hnil, if_neg (by omega), if_pos rfl]
          rfl
        rw [runLoop_of_next hread, hcopy]
        rfl
      · obtain ⟨m, hm⟩ := ih r.rest.length (hn ▸ length_rest_lt hread)
          (fun hrest => h (.next hread hgoes hrest)) rfl
        refine ⟨max m r.matchLen + 1, fun fuel hfuel dest hdest => ?_⟩
        obtain ⟨fuel, rfl⟩ := Nat.exists_eq_add_of_le' (Nat.le_of_add_left_le hfuel)
        have hnil : empty ∧ r.literals = [] ↔ dest ++ r.literals = [] := by
          rw [hdest, List.append_eq_nil_iff]
        have hcopy : (runCopy fuel (dest ++ r.literals) r.offset r.matchLen).isSome :=
          runCopy_isSome hoffset (by omega) _
        rw [runLoop_of_next hread]
        match hresult : runCopy fuel (dest ++ r.literals) r.offset r.matchLen with
        | none => simp [hresult] at hcopy
        | some (.error e) => rfl
        | some (.ok out) => exact hm fuel (by omega) out (hnil.trans (runCopy_eq_ok hresult).symm)

/-- The decompressor returns or raises exactly if it reads no offset of zero. -/
theorem ends_iff (source : Bytes) : Ends source ↔ ¬ReachesZero True source := by
  constructor
  · rintro ⟨fuel, hsome⟩ h
    rw [runLoop_eq_none h fuel (iff_of_true trivial rfl)] at hsome
    cases hsome
  · intro h
    obtain ⟨n, hn⟩ := exists_fuel h
    exact ⟨n, hn n le_rfl [] (iff_of_true trivial rfl)⟩

/-! ### What it returns -/

/-- A match without literals, with an offset of zero. -/
theorem not_ends : ¬∀ source, Ends source := by
  intro h
  obtain ⟨fuel, hsome⟩ := h [0, 0, 0]
  cases fuel with
  | zero => cases hsome
  | succ fuel =>
    have hcopy : runCopy fuel [] 0 4 = none := runCopy_zero (by decide) fuel []
    have hloop : runLoop (fuel + 1) [0, 0, 0] [] = none := by
      change (match runCopy fuel [] 0 4 with
        | none => none
        | some (.error e) => some (.error e)
        | some (.ok dest) => runLoop fuel [] dest) = none
      rw [hcopy]
    rw [hloop] at hsome
    cases hsome

end AllInOneBackup.P115.Lz4
