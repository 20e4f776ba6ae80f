import AllInOneBackup.LitePan.Playback.RangePipe

/-! `httpSeeker`. A chunk that is shorter than what is asked of it is taken for the last one of the
file, also where it is only one of `partSize` bytes in the middle. -/

namespace AllInOneBackup.LitePan.Playback.Seeker

open Data RangePipe

variable {β : Type*}

/-! ### `seeker.go` -/

structure HttpSeeker (β : Type*) where
  partSize : ℤ
  size : ℤ
  offset : ℤ := 0
  chunk : List β := []
  chunkOff : ℤ := 0
  deriving DecidableEq

inductive ReadError
  | eof
  | upstream (err : PipeError)
  deriving DecidableEq

/-- What the upstream answers to each range, while a read goes on. -/
abbrev Upstream (β : Type*) := ℤ → ℤ → Try β × Try β

def defaultPartSize : ℤ := 8 * 2 ^ 20

def newHTTPSeeker (chunkSize size : ℤ) : HttpSeeker β where
  partSize := if chunkSize ≤ 0 then defaultPartSize else chunkSize
  size

namespace HttpSeeker

variable (h : HttpSeeker β) (u : Upstream β)

def fetchChunk (off : ℤ) : HttpSeeker β × Option ReadError :=
  if h.size > 0 ∧ off ≥ h.size then ({ h with chunk := [], chunkOff := off }, some .eof)
  else
    let last := wrap64 (off + h.partSize - 1)
    let last := if h.size > 0 ∧ last ≥ h.size then h.size - 1 else last
    match pipeUpstreamRange off last (u off last) with
    | (_, some err) => (h, some (.upstream err))
    | (data, none) =>
      ({ h with chunk := data, chunkOff := off }, if data = [] then some .eof else none)

/-- `readAt`, of the length of `p`: the seeker, the bytes that are read and the error. -/
def readAt (len : ℕ) (off : ℤ) : HttpSeeker β × List β × Option ReadError :=
  if h.size > 0 ∧ off ≥ h.size then (h, [], some .eof)
  else if _hchunk : off ≥ h.chunkOff ∧ off < h.chunkOff + h.chunk.length then
    let data := (h.chunk.drop (off - h.chunkOff).toNat).take len
    if _hshort : data.length < len then
      let rest := readAt (len - data.length) (off + data.length)
      (rest.1, data ++ rest.2.1, rest.2.2)
    else (h, data, none)
  else match h.fetchChunk u off with
    | (h, some err) => (h, [], some err)
    | (h, none) =>
      let start := off - h.chunkOff
      if start ≥ h.chunk.length then (h, [], some .eof)
      else
        let data := (h.chunk.drop start.toNat).take len
        (h, data, if data.length < len then some .eof else none)
  termination_by len
  decreasing_by
    simp only [List.length_take, List.length_drop] at _hshort ⊢
    omega

def read (len : ℕ) : HttpSeeker β × List β × Option ReadError :=
  if len = 0 then (h, [], none)
  else
    let (h', data, err) := h.readAt u len h.offset
    ({ h' with offset := h'.offset + data.length }, data, err)

/-- `Seek`: `whence` is 0 for `io.SeekStart`, 1 for `io.SeekCurrent` and 2 for `io.SeekEnd`. -/
def seek (offset whence : ℤ) : HttpSeeker β × Except String ℤ :=
  let moved : Except String ℤ :=
    if whence = 0 then .ok offset
    else if whence = 1 then .ok (wrap64 (h.offset + offset))
    else if whence = 2 then .error "seek end not supported"
    else .error "invalid whence"
  match moved with
  | .error msg => (h, .error msg)
  | .ok offset =>
    let offset := if offset < 0 then 0 else offset
    ({ h with offset }, .ok offset)

end HttpSeeker

/-- A call, with what the upstream answers while it goes on. -/
inductive Call (β : Type*)
  | read (len : ℕ) (u : Upstream β)
  | seek (offset whence : ℤ)

def HttpSeeker.after (h : HttpSeeker β) : Call β → HttpSeeker β
  | .read len u => (h.read u len).1
  | .seek offset whence => (h.seek offset whence).1

/-- `P` holds of every read of the calls, in the state before it. -/
def EveryRead (P : HttpSeeker β → Upstream β → ℕ → Prop) (h : HttpSeeker β) : List (Call β) → Prop
  | [] => True
  | .read len u :: calls => P h u len ∧ EveryRead P (h.after (.read len u)) calls
  | .seek offset whence :: calls => EveryRead P (h.after (.seek offset whence)) calls

/-- `io.ReadAll`, by the lengths of its reads; `none` where they do not come to the end. -/
def readAll (h : HttpSeeker β) : List (ℕ × Upstream β) → Option (List β)
  | [] => none
  | (len, u) :: reads => match h.read u len with
    | (_, data, some .eof) => some data
    | (_, _, some (.upstream _)) => none
    | (h, data, none) => (readAll h reads).map (data ++ ·)

/-! ### What a read should do, and when it does -/

/-- The upstream has the file, and no fetch of the read fails. -/
structure Served (content : List β) (h : HttpSeeker β) (u : Upstream β) (len : ℕ) : Prop where
  honest : ∀ start last, (u start last).1.Honest content start ∧ (u start last).2.Honest content start
  fetched : ∀ err, (h.read u len).2.2 ≠ some (.upstream err)

/-- A read of some bytes before the end of the file gives bytes of the file, one at least, and ends
the file only there. -/
def Right (content : List β) (h : HttpSeeker β) (u : Upstream β) (len : ℕ) : Prop :=
  0 < len → h.offset < content.length →
    (h.read u len).2.1 = slice content h.offset.toNat (h.read u len).2.1.length ∧
    1 ≤ (h.read u len).2.1.length ∧
    ((h.read u len).2.2 = some .eof → h.offset + (h.read u len).2.1.length = content.length)

/-- How many bytes from an offset on the chunk holds. -/
def HttpSeeker.cachedAt (h : HttpSeeker β) (off : ℤ) : ℕ :=
  if off ≥ h.chunkOff then (h.chunkOff + h.chunk.length - off).toNat else 0

/-- The read does not ask for more than the chunk holds and another one would, unless the file ends
there. -/
def Fits (content : List β) (h : HttpSeeker β) (_ : Upstream β) (len : ℕ) : Prop :=
  h.offset < content.length → len ≤ h.cachedAt h.offset + h.partSize ∨
    (content.length : ℤ) ≤ h.offset + h.cachedAt h.offset + h.partSize

/-- The state of a seeker of the file. -/
structure Sound (content : List β) (h : HttpSeeker β) : Prop where
  size : h.size = content.length
  fits : (content.length : ℤ) < 2 ^ 63
  pos : 0 < content.length
  part_pos : 0 < h.partSize
  part_lt : h.partSize < 2 ^ 63
  offset_nonneg : 0 ≤ h.offset
  chunkOff_nonneg : 0 ≤ h.chunkOff
  chunk_prefix : h.chunk <+: content.drop h.chunkOff.toNat

section Read

variable {content : List β} {h : HttpSeeker β} {u : Upstream β} {off : ℤ} {len : ℕ}

theorem wrap64_of_le {n : ℤ} (hlower : 2 ^ 63 ≤ n) (hupper : n < 2 ^ 64) :
    wrap64 n = n - 2 ^ 64 := by
  simp only [wrap64, Int.bmod_def]
  omega

/-- How much a fetch gives. -/
def HttpSeeker.fetchedAt (h : HttpSeeker β) (off : ℤ) : ℕ := (min h.partSize (h.size - off)).toNat

/-- The seeker after a fetch. -/
def HttpSeeker.fetched (h : HttpSeeker β) (content : List β) (off : ℤ) : HttpSeeker β :=
  { h with chunk := slice content off.toNat (h.fetchedAt off), chunkOff := off }

/-- A fetch gives a whole chunk, or the rest of the file, or fails upstream. -/
theorem fetchChunk_spec (hh : Sound content h)
    (hu : ∀ start last, (u start last).1.Honest content start ∧ (u start last).2.Honest content start)
    (hoff : 0 ≤ off) (hlt : off < content.length) :
    (∃ err, h.fetchChunk u off = (h, some (.upstream err))) ∨
      h.fetchChunk u off = (h.fetched content off, none) := by
  have hsize := hh.size
  have hfits := hh.fits
  have hpart := hh.part_pos
  have hpart' := hh.part_lt
  rw [HttpSeeker.fetchChunk, if_neg (by omega)]
  simp only
  generalize hlast : (if h.size > 0 ∧ wrap64 (off + h.partSize - 1) ≥ h.size then h.size - 1
    else wrap64 (off + h.partSize - 1)) = last
  rcases hpipe : pipeUpstreamRange off last (u off last) with ⟨data, _ | err⟩
  · right
    have hspec := pipeUpstreamRange_spec last (hu off last)
    have hdata := pipeUpstreamRange_eq last (hu off last) hoff
    rw [hpipe] at hspec hdata
    by_cases hwrap : off + h.partSize - 1 < 2 ^ 63
    · rw [wrap64_eq (by omega) hwrap] at hlast
      have heq := hdata (by split_ifs at hlast <;> omega) (by split_ifs at hlast <;> omega) rfl
      have hcount : (last + 1 - off).toNat = h.fetchedAt off := by
        simp only [HttpSeeker.fetchedAt]
        split_ifs at hlast <;> omega
      have hne : data ≠ [] := by
        intro hnil
        have hlength := congrArg List.length heq
        rw [hnil, length_slice] at hlength
        simp only [List.length_nil] at hlength
        omega
      simp only at heq ⊢
      rw [if_neg hne, heq, hcount, HttpSeeker.fetched]
    · -- The end of the range is negative then, and no chunk of the file is as long as asked for.
      rw [wrap64_of_le (by omega) (by omega), if_neg (by omega)] at hlast
      have hlength := hspec.2.2 rfl
      have hle := hspec.1.length_le
      rw [List.length_drop] at hle
      have hwant : wrap64 (last - off + 1) = h.partSize := by
        simp only [wrap64, Int.bmod_def]
        omega
      rw [hwant] at hlength
      simp only at hlength hle
      omega
  · exact .inl ⟨err, rfl⟩

theorem readAt_fetch (len : ℕ) (hh : Sound content h)
    (hu : ∀ start last, (u start last).1.Honest content start ∧ (u start last).2.Honest content start)
    (hoff : 0 ≤ off) (hlt : off < content.length)
    (hchunk : ¬(off ≥ h.chunkOff ∧ off < h.chunkOff + h.chunk.length)) :
    (∃ err, h.readAt u len off = (h, [], some (.upstream err))) ∨
      h.readAt u len off = (h.fetched content off,
        slice content off.toNat (min len (h.fetchedAt off)),
        if h.fetchedAt off < len then some .eof else none) := by
  have hsize := hh.size
  have hpart := hh.part_pos
  rw [HttpSeeker.readAt, if_neg (by omega), dif_neg hchunk]
  rcases fetchChunk_spec hh hu hoff hlt with ⟨err, hfetch⟩ | hfetch
  · exact .inl ⟨err, by rw [hfetch]⟩
  · right
    rw [hfetch]
    have hcount : h.fetchedAt off ≤ content.length - off.toNat := by
      simp only [HttpSeeker.fetchedAt]
      omega
    have hpos : 0 < h.fetchedAt off := by
      simp only [HttpSeeker.fetchedAt]
      omega
    have hlength : (slice content off.toNat (h.fetchedAt off)).length = h.fetchedAt off := by
      rw [length_slice]
      omega
    have hlength' : (slice content off.toNat (min len (h.fetchedAt off))).length =
        min len (h.fetchedAt off) := by
      rw [length_slice]
      omega
    simp only [HttpSeeker.fetched, sub_self, Int.toNat_zero, List.drop_zero, take_slice,
      hlength, hlength']
    rw [if_neg (by omega)]
    by_cases hshort : h.fetchedAt off < len
    · rw [if_pos hshort, if_pos (by omega)]
    · rw [if_neg hshort, if_neg (by omega)]

/-- All that a read before the end of the file can be. -/
theorem readAt_cases (hh : Sound content h)
    (hu : ∀ start last, (u start last).1.Honest content start ∧ (u start last).2.Honest content start)
    (hoff : 0 ≤ off) (hlt : off < content.length) (hlen : 0 < len) :
    (len ≤ h.cachedAt off ∧ h.readAt u len off = (h, slice content off.toNat len, none)) ∨
    (h.cachedAt off < len ∧ off + h.cachedAt off = content.length ∧
      h.readAt u len off = (h, slice content off.toNat (h.cachedAt off), some .eof)) ∨
    (∃ err, (h.readAt u len off).2.2 = some (.upstream err)) ∨
    (h.cachedAt off < len ∧ off + h.cachedAt off < content.length ∧
      h.readAt u len off = (h.fetched content (off + h.cachedAt off),
        slice content off.toNat
          (h.cachedAt off + min (len - h.cachedAt off) (h.fetchedAt (off + h.cachedAt off))),
        if h.fetchedAt (off + h.cachedAt off) < len - h.cachedAt off then some .eof else none)) := by
  have hsize := hh.size
  by_cases hchunk : off ≥ h.chunkOff ∧ off < h.chunkOff + h.chunk.length
  · generalize hc : h.cachedAt off = c
    rw [HttpSeeker.cachedAt, if_pos hchunk.1] at hc
    have hpre := hh.chunk_prefix
    have hle := hpre.length_le
    rw [List.length_drop] at hle
    have hnonneg := hh.chunkOff_nonneg
    have hdata : (h.chunk.drop (off - h.chunkOff).toNat).take len =
        slice content off.toNat (min len c) := by
      rw [eq_slice_of_isPrefix hpre, drop_slice, take_slice]
      congr 1 <;> omega
    have hlength : (slice content off.toNat (min len c)).length = min len c := by
      rw [length_slice]
      omega
    rw [HttpSeeker.readAt, if_neg (by omega), dif_pos hchunk]
    simp only [hdata, hlength]
    by_cases hshort : len ≤ c
    · left
      rw [dif_neg (by omega), min_eq_left hshort]
      exact ⟨hshort, rfl⟩
    · right
      rw [dif_pos (by omega), min_eq_right (by omega)]
      by_cases hend : off + c = content.length
      · left
        refine ⟨by omega, hend, ?_⟩
        rw [HttpSeeker.readAt, if_pos (by omega), List.append_nil]
      · right
        rcases readAt_fetch (len - c) hh hu (show 0 ≤ off + c by omega) (by omega) (by omega)
          with ⟨err, hread⟩ | hread
        · exact .inl ⟨err, by rw [hread]⟩
        · right
          refine ⟨by omega, by omega, ?_⟩
          have hoffset : (off + c).toNat = off.toNat + c := by omega
          rw [hread, slice_add, ← hoffset]
  · have hc : h.cachedAt off = 0 := by
      rw [HttpSeeker.cachedAt]
      split_ifs <;> omega
    right; right
    rcases readAt_fetch len hh hu hoff hlt hchunk with ⟨err, hread⟩ | hread
    · exact .inl ⟨err, by rw [hread]⟩
    · right
      refine ⟨by omega, by omega, ?_⟩
      rw [hread, hc]
      simp

theorem sound_fetched (hh : Sound content h) (hoff : 0 ≤ off) : Sound content (h.fetched content off) :=
  { hh with
    chunkOff_nonneg := hoff
    chunk_prefix := slice_prefix _ _ _ }

theorem readAt_sound (hh : Sound content h) (hserved : Served content h u len) (hlen : 0 < len) :
    Sound content (h.readAt u len h.offset).1 := by
  by_cases hlt : h.offset < content.length
  · have hoff := hh.offset_nonneg
    rcases readAt_cases hh hserved.honest hoff hlt hlen with
      ⟨-, hread⟩ | ⟨-, -, hread⟩ | ⟨err, hread⟩ | ⟨-, -, hread⟩
    · rw [hread]
      exact hh
    · rw [hread]
      exact hh
    · have hfetched := hserved.fetched err
      rw [HttpSeeker.read, if_neg (by omega)] at hfetched
      exact absurd hread hfetched
    · rw [hread]
      exact sound_fetched hh (by omega)
  · have hsize := hh.size
    have hpos := hh.pos
    rw [HttpSeeker.readAt, if_pos (by omega)]
    exact hh

theorem read_sound (hh : Sound content h) (hserved : Served content h u len) :
    Sound content (h.read u len).1 := by
  rw [HttpSeeker.read]
  split_ifs with hlen
  · exact hh
  · have hsound := readAt_sound hh hserved (Nat.pos_of_ne_zero hlen)
    exact { hsound with offset_nonneg := add_nonneg hsound.offset_nonneg (Int.natCast_nonneg _) }

theorem seek_sound (hh : Sound content h) (offset whence : ℤ) :
    Sound content (h.seek offset whence).1 := by
  unfold HttpSeeker.seek
  simp only
  split
  · exact hh
  · refine { hh with offset_nonneg := ?_ }
    simp only
    split_ifs <;> omega

/-- The chunk ends with the file at the latest. -/
theorem Sound.cachedAt_le (hh : Sound content h) (hlt : off ≤ content.length) :
    off + h.cachedAt off ≤ content.length := by
  have hle := hh.chunk_prefix.length_le
  have hnonneg := hh.chunkOff_nonneg
  rw [List.length_drop] at hle
  rw [HttpSeeker.cachedAt]
  split_ifs <;> omega

/-- A read is right if and only if it fits. -/
theorem right_iff_fits (hh : Sound content h) (hserved : Served content h u len) :
    Right content h u len ↔ Fits content h u len := by
  have hoff := hh.offset_nonneg
  have hpart := hh.part_pos
  have hsize := hh.size
  by_cases hlt : h.offset < content.length
  · by_cases hlen : len = 0
    · constructor
      · intro _ _
        omega
      · intro _ hpos
        omega
    · have hpos : 0 < len := Nat.pos_of_ne_zero hlen
      simp only [Right, Fits, hlt, hpos, forall_const]
      have hread : (h.read u len).2 = (h.readAt u len h.offset).2 := by
        rw [HttpSeeker.read, if_neg hlen]
      have hfetched := hserved.fetched
      rw [hread] at hfetched ⊢
      rcases readAt_cases hh hserved.honest hoff hlt hpos with
        ⟨hle, hat⟩ | ⟨hshort, hend, hat⟩ | ⟨err, hat⟩ | ⟨hshort, hmore, hat⟩
      · have hlength : (slice content h.offset.toNat len).length = len := by
          have hbound := hh.cachedAt_le hlt.le
          rw [length_slice]
          omega
        rw [hat]
        simp only [hlength]
        constructor
        · intro _
          omega
        · intro _
          exact ⟨trivial, hpos, by simp⟩
      · have hlength : (slice content h.offset.toNat (h.cachedAt h.offset)).length =
            h.cachedAt h.offset := by
          rw [length_slice]
          omega
        rw [hat]
        simp only [hlength]
        constructor
        · intro _
          omega
        · intro _
          exact ⟨trivial, by omega, fun _ => hend⟩
      · exact absurd hat (hfetched err)
      · generalize hk : h.fetchedAt (h.offset + h.cachedAt h.offset) = k at hat
        rw [HttpSeeker.fetchedAt] at hk
        have hlength : (slice content h.offset.toNat
            (h.cachedAt h.offset + min (len - h.cachedAt h.offset) k)).length =
            h.cachedAt h.offset + min (len - h.cachedAt h.offset) k := by
          rw [length_slice]
          omega
        rw [hat]
        simp only [hlength]
        by_cases hk' : k < len - h.cachedAt h.offset
        · rw [if_pos hk']
          constructor
          · intro hright
            have hend := hright.2.2 rfl
            omega
          · intro hfits
            exact ⟨trivial, by omega, fun _ => by omega⟩
        · rw [if_neg hk']
          constructor
          · intro _
            omega
          · intro _
            exact ⟨trivial, by omega, by simp⟩
  · simp only [Right, Fits, hlt, false_implies, implies_true]

theorem read_offset (hh : Sound content h) (hserved : Served content h u len) :
    (h.read u len).1.offset = h.offset + (h.read u len).2.1.length := by
  have hfetched := hserved.fetched
  rw [HttpSeeker.read] at hfetched ⊢
  split_ifs at hfetched ⊢ with hlen
  · simp
  · suffices hsame : (h.readAt u len h.offset).1.offset = h.offset by simp only [hsame]
    by_cases hlt : h.offset < content.length
    · rcases readAt_cases hh hserved.honest hh.offset_nonneg hlt (Nat.pos_of_ne_zero hlen) with
        ⟨-, hat⟩ | ⟨-, -, hat⟩ | ⟨err, hat⟩ | ⟨-, -, hat⟩
      · rw [hat]
      · rw [hat]
      · exact absurd hat (hfetched err)
      · rw [hat, HttpSeeker.fetched]
    · have hsize := hh.size
      have hpos := hh.pos
      rw [HttpSeeker.readAt, if_pos (by omega)]

/-- A read at the end of the file says so. -/
theorem read_end (hh : Sound content h) (hlen : 0 < len) (hend : content.length ≤ h.offset) :
    (h.read u len).2 = ([], some .eof) := by
  have hsize := hh.size
  have hpos := hh.pos
  rw [HttpSeeker.read, if_neg (by omega), HttpSeeker.readAt, if_pos (by omega)]

/-- Reads that fit, and of which there are enough, give the rest of the file. -/
theorem readAll_eq {reads : List (ℕ × Upstream β)} (hh : Sound content h)
    (hpos : ∀ r ∈ reads, 0 < r.1)
    (hserved : EveryRead (Served content) h (reads.map fun r => .read r.1 r.2))
    (hfits : EveryRead (Fits content) h (reads.map fun r => .read r.1 r.2))
    (hmany : content.length - h.offset.toNat < reads.length) :
    readAll h reads = some (content.drop h.offset.toNat) := by
  induction reads generalizing h with
  | nil => simp at hmany
  | cons r reads ih =>
    obtain ⟨len, u⟩ := r
    have hlen : 0 < len := hpos _ List.mem_cons_self
    have hserved' := hserved.1
    have hoff := hh.offset_nonneg
    rw [readAll]
    by_cases hlt : h.offset < content.length
    · have hright := (right_iff_fits hh hserved').mpr hfits.1 hlen hlt
      have hnext := read_offset hh hserved'
      have hsound := read_sound hh hserved'
      have hrest := hserved.2
      have hrest' := hfits.2
      simp only [HttpSeeker.after] at hrest hrest'
      have hfetched := hserved'.fetched
      rcases hread : h.read u len with ⟨h', data, err⟩
      rw [hread] at hright hnext hsound hrest hrest' hfetched
      simp only at hright hnext hsound hrest hrest' hfetched
      obtain ⟨hdata, hone, heof⟩ := hright
      cases err with
      | none =>
        have hcount : content.length - h'.offset.toNat < reads.length := by
          rw [List.length_cons] at hmany
          omega
        simp only
        rw [ih hsound (fun r hr => hpos r (List.mem_cons_of_mem _ hr)) hrest hrest' hcount,
          Option.map_some, hnext, Int.toNat_add hoff (Int.natCast_nonneg _), Int.toNat_natCast]
        exact congrArg some (append_drop_of_isPrefix (hdata ▸ slice_prefix _ _ _))
      | some err =>
        cases err with
        | eof =>
          have hend := heof rfl
          simp only
          rw [hdata, slice_eq_drop (by omega)]
        | upstream err => exact absurd rfl (hfetched err)
    · have hend := read_end (u := u) hh hlen (not_lt.mp hlt)
      rcases hread : h.read u len with ⟨h', data, err⟩
      rw [hread] at hend
      obtain ⟨rfl, rfl⟩ := Prod.mk.inj hend
      simp only
      rw [List.drop_eq_nil_of_le (by omega)]

end Read

/-! ### Runs -/

section Runs

variable {content : List β} {h : HttpSeeker β} {calls : List (Call β)}

theorem sound_newHTTPSeeker {chunkSize : ℤ} (hchunk : chunkSize < 2 ^ 63) (hpos : 0 < content.length)
    (hfits : (content.length : ℤ) < 2 ^ 63) :
    Sound content (newHTTPSeeker chunkSize content.length) where
  size := rfl
  fits := hfits
  pos := hpos
  part_pos := by
    simp only [newHTTPSeeker, defaultPartSize]
    split_ifs <;> omega
  part_lt := by
    simp only [newHTTPSeeker, defaultPartSize]
    split_ifs <;> omega
  offset_nonneg := le_rfl
  chunkOff_nonneg := le_rfl
  chunk_prefix := List.nil_prefix

/-- The seeker after the calls. -/
def HttpSeeker.run (h : HttpSeeker β) (calls : List (Call β)) : HttpSeeker β :=
  calls.foldl HttpSeeker.after h

theorem sound_run (hh : Sound content h) (hserved : EveryRead (Served content) h calls) :
    Sound content (h.run calls) := by
  induction calls generalizing h with
  | nil => exact hh
  | cons call calls ih =>
    cases call with
    | read len u => exact ih (read_sound hh hserved.1) hserved.2
    | seek offset whence => exact ih (seek_sound hh offset whence) hserved

theorem everyRead_right_iff (hh : Sound content h) (hserved : EveryRead (Served content) h calls) :
    EveryRead (Right content) h calls ↔ EveryRead (Fits content) h calls := by
  induction calls generalizing h with
  | nil => exact Iff.rfl
  | cons call calls ih =>
    cases call with
    | read len u =>
      exact and_congr (right_iff_fits hh hserved.1) (ih (read_sound hh hserved.1) hserved.2)
    | seek offset whence => exact ih (seek_sound hh offset whence) hserved

/-- Every read of a run is right if and only if every read fits; and where the reads of
`io.ReadAll` fit, it gives the file from the offset on. -/
theorem reads_right_iff {chunkSize : ℤ} (hchunk : chunkSize < 2 ^ 63) (hpos : 0 < content.length)
    (hfits : (content.length : ℤ) < 2 ^ 63)
    (hserved : EveryRead (Served content) (newHTTPSeeker chunkSize content.length) calls) :
    (EveryRead (Right content) (newHTTPSeeker chunkSize content.length) calls ↔
      EveryRead (Fits content) (newHTTPSeeker chunkSize content.length) calls) ∧
    ∀ h, h = (newHTTPSeeker chunkSize content.length).run calls →
      ∀ reads : List (ℕ × Upstream β), (∀ r ∈ reads, 0 < r.1) →
        EveryRead (Served content) h (reads.map fun r => .read r.1 r.2) →
        EveryRead (Fits content) h (reads.map fun r => .read r.1 r.2) →
        content.length - h.offset.toNat < reads.length →
        readAll h reads = some (content.drop h.offset.toNat) := by
  have hnew := sound_newHTTPSeeker hchunk hpos hfits
  refine ⟨everyRead_right_iff hnew hserved, ?_⟩
  rintro h rfl reads hreads hserved' hfits' hmany
  exact readAll_eq (sound_run hnew hserved) hreads hserved' hfits' hmany

end Runs

/-- An upstream that gives what it is asked for. -/
def serve (content : List β) : Upstream β := fun start last =>
  let t : Try β :=
    { response := some
        { status := 206
          body := { bytes := slice content start.toNat (last + 1 - start).toNat } } }
  (t, t)

theorem honest_serve (content : List β) (start last : ℤ) :
    (serve content start last).1.Honest content start ∧
      (serve content start last).2.Honest content start := by
  have hhonest : (serve content start last).1.Honest content start := by
    intro resp hresp _
    obtain rfl := Option.some.inj hresp
    exact slice_prefix _ _ _
  exact ⟨hhonest, hhonest⟩

theorem served_of_read {content : List β} {h h' : HttpSeeker β} {len : ℕ} {data : List β}
    {err : Option ReadError} (hread : h.read (serve content) len = (h', data, err))
    (herr : err = none ∨ err = some .eof) : Served content h (serve content) len := by
  refine ⟨honest_serve content, fun e => ?_⟩
  rw [hread]
  rcases herr with rfl | rfl <;> simp

def letters : List Char := ['a', 'b', 'c', 'd', 'e', 'f', 'g']

/-- The second read takes one byte of the chunk and all of the next one. -/
def lettersCalls : List (Call Char) :=
  [.read 2 (serve letters), .seek 1 0, .read 3 (serve letters)]

def lettersReads : List (ℕ × Upstream Char) := List.replicate 4 (2, serve letters)

theorem reads_right_iff_letters :
    EveryRead (Right letters) (newHTTPSeeker 2 letters.length) lettersCalls ∧
      readAll ((newHTTPSeeker 2 letters.length).run lettersCalls) lettersReads =
        some ['e', 'f', 'g'] := by
  have hfirst : (newHTTPSeeker 2 7).read (serve letters) 2 =
      (⟨2, 7, 2, ['a', 'b'], 0⟩, ['a', 'b'], none) := by
    rw [HttpSeeker.read, HttpSeeker.readAt]
    decide
  have hnext : HttpSeeker.readAt ⟨2, 7, 1, ['a', 'b'], 0⟩ (serve letters) 2 2 =
      (⟨2, 7, 1, ['c', 'd'], 2⟩, ['c', 'd'], none) := by
    rw [HttpSeeker.readAt]
    decide
  have hacross : HttpSeeker.read ⟨2, 7, 1, ['a', 'b'], 0⟩ (serve letters) 3 =
      (⟨2, 7, 4, ['c', 'd'], 2⟩, ['b', 'c', 'd'], none) := by
    rw [HttpSeeker.read, HttpSeeker.readAt]
    simp [hnext]
  have hwhole : HttpSeeker.read ⟨2, 7, 4, ['c', 'd'], 2⟩ (serve letters) 2 =
      (⟨2, 7, 6, ['e', 'f'], 4⟩, ['e', 'f'], none) := by
    rw [HttpSeeker.read, HttpSeeker.readAt]
    decide
  have hlast : HttpSeeker.read ⟨2, 7, 6, ['e', 'f'], 4⟩ (serve letters) 2 =
      (⟨2, 7, 7, ['g'], 6⟩, ['g'], some .eof) := by
    rw [HttpSeeker.read, HttpSeeker.readAt]
    decide
  have hend : HttpSeeker.read ⟨2, 7, 7, ['g'], 6⟩ (serve letters) 2 =
      (⟨2, 7, 7, ['g'], 6⟩, [], some .eof) := by
    rw [HttpSeeker.read, HttpSeeker.readAt]
    decide
  have hlength : (letters.length : ℤ) = 7 := rfl
  have hrun : (newHTTPSeeker 2 letters.length).run lettersCalls = ⟨2, 7, 4, ['c', 'd'], 2⟩ := by
    simp only [lettersCalls, HttpSeeker.run, List.foldl_cons, List.foldl_nil, HttpSeeker.after]
    rw [hlength, hfirst]
    simp only [HttpSeeker.seek, if_true]
    rw [if_neg (by decide), hacross]
  have hserved : EveryRead (Served letters) (newHTTPSeeker 2 letters.length) lettersCalls := by
    simp only [lettersCalls, EveryRead, HttpSeeker.after]
    rw [hlength, hfirst]
    exact ⟨served_of_read hfirst (.inl rfl), served_of_read hacross (.inl rfl), trivial⟩
  have hfits : EveryRead (Fits letters) (newHTTPSeeker 2 letters.length) lettersCalls := by
    simp only [lettersCalls, EveryRead, HttpSeeker.after]
    rw [hlength, hfirst]
    exact ⟨fun _ => .inl (by decide), fun _ => .inl (by decide), trivial⟩
  have hright := reads_right_iff (show (2 : ℤ) < 2 ^ 63 by decide) (by decide) (by decide) hserved
  refine ⟨hright.1.mpr hfits, ?_⟩
  refine (hright.2 _ rfl lettersReads (by simp [lettersReads]) ?_ ?_ ?_).trans ?_
  · rw [hrun]
    simp only [lettersReads, List.replicate, List.map_cons, List.map_nil, EveryRead,
      HttpSeeker.after, hwhole, hlast, hend]
    exact ⟨served_of_read hwhole (.inl rfl), served_of_read hlast (.inr rfl),
      served_of_read hend (.inr rfl), served_of_read hend (.inr rfl), trivial⟩
  · rw [hrun]
    simp only [lettersReads, List.replicate, List.map_cons, List.map_nil, EveryRead,
      HttpSeeker.after, hwhole, hlast, hend]
    exact ⟨fun _ => .inl (by decide), fun _ => .inl (by decide), fun hlt => absurd hlt (by decide),
      fun hlt => absurd hlt (by decide), trivial⟩
  · rw [hrun]
    decide
  · rw [hrun]
    rfl

/-- A read of two bytes with chunks of one byte ends the file after the first one. -/
theorem file_ended_early :
    Served ['a', 'b', 'c'] (newHTTPSeeker 1 3) (serve ['a', 'b', 'c']) 2 ∧
      ¬Right ['a', 'b', 'c'] (newHTTPSeeker 1 3) (serve ['a', 'b', 'c']) 2 := by
  have hread : (newHTTPSeeker 1 3).read (serve ['a', 'b', 'c']) 2 =
      (⟨1, 3, 1, ['a'], 0⟩, ['a'], some .eof) := by
    rw [HttpSeeker.read, HttpSeeker.readAt]
    decide
  refine ⟨served_of_read hread (.inr rfl), fun hright => ?_⟩
  have hend := (hright (by decide) (by decide)).2.2
  rw [hread] at hend
  exact absurd (hend rfl) (by decide)

end AllInOneBackup.LitePan.Playback.Seeker
