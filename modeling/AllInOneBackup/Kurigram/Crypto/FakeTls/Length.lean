import AllInOneBackup.Kurigram.Crypto.FakeTls.Hello

/-! The length of a greeting. An operation adds a number of bytes that neither the draws nor the
bytes of the domain decide; only the padding looks at the bytes before it, and the ML-KEM share
alone puts every greeting past the offset that it pads to. -/

namespace AllInOneBackup.Kurigram.FakeTls

open Bytes Draw

/-! ### Keys and shuffles -/

theorem length_parted (bs : Bytes) : (parted bs).length = bs.length := by
  induction bs using parted.induct with
  | case1 a b rest ih => simp only [parted, List.length_cons, ih]
  | case2 rest h => rw [parted]; exact h

theorem generateGrease_returns : Returns generateGrease fun bs => bs.length = greaseSize :=
  (tokenBytes_returns greaseSize).bind fun bs hbs =>
    .pure (by rw [length_parted, List.length_map, hbs])

theorem curve25519DoubleX_lt (x : ℕ) : curve25519DoubleX x < curve25519Prime :=
  Nat.mod_lt _ (by decide)

theorem curve25519Prime_lt : curve25519Prime < 256 ^ curve25519KeySize := by decide

theorem generateCurve25519Key_returns (tries : ℕ) :
    Returns (generateCurve25519Key tries) fun bs => bs.length = curve25519KeySize := by
  have hcandidate : Returns curve25519Candidate fun _ => True :=
    (tokenBytes_returns curve25519KeySize).bind fun _ _ => .pure trivial
  refine (drawUntil_returns hcandidate tries).bind fun x _ => ?_
  have hfits : curve25519DoubleX^[3] x < 256 ^ curve25519KeySize := by
    rw [Function.iterate_succ_apply']
    exact (curve25519DoubleX_lt _).trans curve25519Prime_lt
  rw [packUnsigned, if_pos hfits]
  exact .pure (length_leBytes _ _)

theorem mlKem768Pairs_returns (n : ℕ) : Returns (mlKem768Pairs n) fun bs => bs.length = 3 * n := by
  induction n with
  | zero => exact .pure rfl
  | succ n ih =>
    have hbits : Returns (randbits 32 : Drawn ℕ) fun _ => True :=
      draw_returns.bind fun _ _ => .pure trivial
    exact hbits.bind fun _ _ => hbits.bind fun _ _ => ih.bind fun bs hbs =>
      .pure (by rw [List.length_append, hbs, List.length_cons, List.length_cons,
        List.length_singleton]; omega)

theorem generateMlKem768Key_returns : Returns generateMlKem768Key fun bs => bs.length = 1184 :=
  (mlKem768Pairs_returns mlKem768CoefficientPairs).bind fun key hkey =>
    (tokenBytes_returns mlKem768SeedSize).bind fun seed hseed =>
      .pure (by rw [List.length_append, hkey, hseed]; rfl)

theorem shuffleLoop_returns (left index : ℕ) (parts : List Bytes) :
    Returns (shuffleLoop left index parts) fun bss => bss.Perm parts := by
  induction left generalizing index parts with
  | zero => exact .pure (.refl parts)
  | succ left ih =>
    have hbelow : Returns (randbelow (parts.length - index) : Drawn ℕ) fun _ => True :=
      draw_returns.bind fun _ _ => .pure trivial
    exact hbelow.bind fun k _ => (ih (index + 1) _).mono fun bss hbss =>
      hbss.trans (List.swap_perm parts index (index + k))

theorem shuffled_returns (parts : List Bytes) :
    Returns (shuffled parts) fun bss => bss.flatten.length = parts.flatten.length :=
  (shuffleLoop_returns _ 0 parts).mono fun _ h => h.flatten.length_eq

/-! ### Measures -/

def measurePadding (n : ℕ) : ℕ :=
  if paddingTargetOffset ≤ n then n else n + 4 + (paddingTargetOffset - n)

mutual

/-- How many scopes are open and how many bytes there are, after an operation; `none` where it
would raise. -/
def measure (domainLength : ℕ) : Op → ℕ × ℕ → Option (ℕ × ℕ)
  | .string data, (k, n) => some (k, n + data.length)
  | .random length, (k, n) => some (k, n + length)
  | .zero length, (k, n) => some (k, n + length)
  | .domain, (k, n) => some (k, n + domainLength)
  | .grease seed, (k, n) => if seed < greaseSize then some (k, n + 2) else none
  | .beginScope, (k, n) => some (k + 1, n + scopeLengthSize)
  | .endScope, (k, n) =>
    if 0 < k ∧ n < 256 ^ scopeLengthSize then some (k - 1, n) else none
  | .key, (k, n) => some (k, n + curve25519KeySize)
  | .mlKem768Key, (k, n) => some (k, n + 1184)
  | .permutation parts, (k, n) => (measureParts domainLength parts).map fun l => (k, n + l)
  | .padding, (k, n) => some (k, measurePadding n)

def measureAll (domainLength : ℕ) : List Op → ℕ × ℕ → Option (ℕ × ℕ)
  | [], kn => some kn
  | op :: ops, kn => (measure domainLength op kn).bind (measureAll domainLength ops)

def measureParts (domainLength : ℕ) : List (List Op) → Option ℕ
  | [] => some 0
  | part :: parts => do
    let (_, l) ← measureAll domainLength part (0, 0)
    let ls ← measureParts domainLength parts
    return l + ls

end

/-- A writer of these measures, whose scopes have room for their lengths. -/
structure Measured (w : HelloWriter) (kn : ℕ × ℕ) : Prop where
  scopes : w.scopes.length = kn.1
  length : w.out.length = kn.2
  room : ∀ start ∈ w.scopes, start + scopeLengthSize ≤ w.out.length

theorem Measured.append {w : HelloWriter} {k n : ℕ} (h : Measured w (k, n)) {data : Bytes}
    {l : ℕ} (hdata : data.length = l) : Measured (w.append data) (k, n + l) where
  scopes := h.scopes
  length := by rw [HelloWriter.append, List.length_append, h.length, hdata]
  room start hstart := (h.room start hstart).trans (by simp [HelloWriter.append])

theorem Measured.beginScope {w : HelloWriter} {k n : ℕ} (h : Measured w (k, n)) :
    Measured w.beginScope (k + 1, n + scopeLengthSize) where
  scopes := congrArg (· + 1) h.scopes
  length := by rw [HelloWriter.beginScope, List.length_append, h.length, List.length_replicate]
  room start hstart := by
    rw [HelloWriter.beginScope, List.length_append, List.length_replicate]
    rcases List.mem_cons.mp hstart with rfl | hstart
    · exact le_rfl
    · exact (h.room start hstart).trans (Nat.le_add_right _ _)

theorem Measured.closeScope {w : HelloWriter} {k n : ℕ} (h : Measured w (k + 1, n))
    (hn : n < 256 ^ scopeLengthSize) : Returns w.closeScope (Measured · (k, n)) := by
  obtain ⟨out, scopes⟩ := w
  obtain ⟨hscopes, hlength, hroom⟩ := h
  cases scopes with
  | nil => exact absurd hscopes (Nat.succ_ne_zero k).symm
  | cons start scopes =>
    have hstart : start + scopeLengthSize ≤ out.length := hroom start List.mem_cons_self
    dsimp only at hlength
    have hsize : 0 ≤ (out.length : ℤ) - start - scopeLengthSize ∧
        (out.length : ℤ) - start - scopeLengthSize < 256 ^ scopeLengthSize := by
      simp only [scopeLengthSize] at *
      omega
    simp only [HelloWriter.closeScope]
    rw [if_pos hsize]
    have hsame : (out.take start ++ beBytes scopeLengthSize
        ((out.length : ℤ) - start - scopeLengthSize).toNat ++
          out.drop (start + scopeLengthSize)).length = out.length := by
      rw [List.length_append, List.length_append, List.length_take, length_beBytes,
        List.length_drop]
      omega
    refine .pure ⟨Nat.succ.inj hscopes, hsame.trans hlength, fun start' hstart' => ?_⟩
    rw [hsame]
    exact hroom start' (List.mem_cons_of_mem _ hstart')

theorem Measured.writePadding {w : HelloWriter} {k n : ℕ} (h : Measured w (k, n)) :
    Returns w.writePadding (Measured · (k, measurePadding n)) := by
  have hlength : w.out.length = n := h.length
  rw [measurePadding, HelloWriter.writePadding]
  by_cases hlong : paddingTargetOffset ≤ n
  · rw [if_pos hlong, if_pos (by omega)]
    exact .pure h
  · rw [if_neg hlong, if_neg (by omega)]
    have hsize : ((paddingTargetOffset : ℤ) - w.out.length).toNat = paddingTargetOffset - n := by
      omega
    rw [hsize]
    have htag : ([0x00, 0x15] : Bytes).length = 2 := rfl
    have hopen := ((h.append htag).beginScope.append
      (List.length_replicate (n := paddingTargetOffset - n) (a := (0 : UInt8))))
    have hsum : n + 2 + scopeLengthSize + (paddingTargetOffset - n) =
        n + 4 + (paddingTargetOffset - n) := rfl
    rw [hsum] at hopen
    refine hopen.closeScope ?_
    simp only [paddingTargetOffset, scopeLengthSize] at *
    omega

variable {grease domain : Bytes} {tries : ℕ}

mutual

theorem write_returns (hgrease : grease.length = greaseSize) (op : Op) {w : HelloWriter}
    {k n : ℕ} {kn' : ℕ × ℕ} (h : Measured w (k, n))
    (hmeasure : measure domain.length op (k, n) = some kn') :
    Returns (w.write grease domain tries op) (Measured · kn') := by
  cases op with
  | string data =>
    obtain rfl := Option.some.inj hmeasure
    exact .pure (h.append rfl)
  | random length =>
    obtain rfl := Option.some.inj hmeasure
    exact (tokenBytes_returns length).bind fun bs hbs => .pure (h.append hbs)
  | zero length =>
    obtain rfl := Option.some.inj hmeasure
    exact .pure (h.append List.length_replicate)
  | domain =>
    obtain rfl := Option.some.inj hmeasure
    exact .pure (h.append rfl)
  | grease seed =>
    rw [measure] at hmeasure
    by_cases hseed : seed < greaseSize
    · rw [if_pos hseed] at hmeasure
      obtain rfl := Option.some.inj hmeasure
      rw [HelloWriter.write, List.getElem?_eq_getElem (hgrease ▸ hseed)]
      exact .pure (h.append rfl)
    · rw [if_neg hseed] at hmeasure
      exact nomatch hmeasure
  | beginScope =>
    obtain rfl := Option.some.inj hmeasure
    exact .pure h.beginScope
  | endScope =>
    rw [measure] at hmeasure
    by_cases hopen : 0 < k ∧ n < 256 ^ scopeLengthSize
    · rw [if_pos hopen] at hmeasure
      obtain rfl := Option.some.inj hmeasure
      obtain ⟨k, rfl⟩ := Nat.exists_eq_add_of_lt hopen.1
      rw [Nat.zero_add] at h ⊢
      exact h.closeScope hopen.2
    · rw [if_neg hopen] at hmeasure
      exact nomatch hmeasure
  | key =>
    obtain rfl := Option.some.inj hmeasure
    exact (generateCurve25519Key_returns tries).bind fun bs hbs => .pure (h.append hbs)
  | mlKem768Key =>
    obtain rfl := Option.some.inj hmeasure
    exact generateMlKem768Key_returns.bind fun bs hbs => .pure (h.append hbs)
  | permutation parts =>
    obtain ⟨l, hl, rfl⟩ := Option.map_eq_some_iff.mp hmeasure
    exact (renderParts_returns hgrease parts hl).bind fun rendered hrendered =>
      (shuffled_returns rendered).bind fun bss hbss => .pure (h.append (hbss.trans hrendered))
  | padding =>
    obtain rfl := Option.some.inj hmeasure
    exact h.writePadding

theorem render_returns (hgrease : grease.length = greaseSize) (ops : List Op) {w : HelloWriter}
    {k n : ℕ} {kn' : ℕ × ℕ} (h : Measured w (k, n))
    (hmeasure : measureAll domain.length ops (k, n) = some kn') :
    Returns (w.render grease domain tries ops) (Measured · kn') := by
  cases ops with
  | nil =>
    obtain rfl := Option.some.inj hmeasure
    exact .pure h
  | cons op ops =>
    obtain ⟨kn₁, hop, hops⟩ := Option.bind_eq_some_iff.mp hmeasure
    exact (write_returns hgrease op h hop).bind fun w' hw' => render_returns hgrease ops hw' hops

theorem renderParts_returns (hgrease : grease.length = greaseSize) (parts : List (List Op)) {l : ℕ}
    (hmeasure : measureParts domain.length parts = some l) :
    Returns (HelloWriter.renderParts grease domain tries parts) fun bss =>
      bss.flatten.length = l := by
  cases parts with
  | nil =>
    obtain rfl := Option.some.inj hmeasure
    exact .pure rfl
  | cons part parts =>
    obtain ⟨⟨k, l₁⟩, hpart, hrest⟩ := Option.bind_eq_some_iff.mp hmeasure
    obtain ⟨l₂, hparts, hsum⟩ := Option.bind_eq_some_iff.mp hrest
    obtain rfl := Option.some.inj hsum
    have hempty : Measured {} (0, 0) := ⟨rfl, rfl, fun _ hmem => nomatch hmem⟩
    exact (render_returns hgrease part hempty hpart).bind fun w hw =>
      (renderParts_returns hgrease parts hparts).bind fun bss hbss =>
        .pure (by rw [List.flatten_cons, List.length_append, hw.length, hbss])

end

/-! ### The greeting -/

theorem measureParts_extensions {domainLength echPayloadSize : ℕ} (hdomain : domainLength ≤ 182)
    (hech : echPayloadSize ≤ 240) : measureParts domainLength (extensions echPayloadSize) =
      some (1449 + domainLength + echPayloadSize) := by
  have hdomain' : 9 + domainLength < 65536 := by omega
  have hech' : 46 + echPayloadSize < 65536 := by omega
  simp only [extensions, measureParts, measureAll, measure, Option.bind_eq_bind, Option.bind_some,
    Option.pure_def, List.length_cons, List.length_nil, scopeLengthSize, greaseSize,
    curve25519KeySize, Nat.reduceAdd, Nat.reduceLT, Nat.reduceSub, if_true, and_self,
    Nat.reducePow, Nat.zero_add, hdomain', hech']
  congr 1
  omega

/-- No padding is written. -/
theorem measureAll_clientHelloOps {domainLength echPayloadSize : ℕ} (hdomain : domainLength ≤ 182)
    (hech : echPayloadSize ≤ 240) :
    measureAll domainLength (clientHelloOps echPayloadSize) (0, 0) =
      some (0, 1572 + domainLength + echPayloadSize) := by
  have hlong : 513 ≤ 118 + (1449 + domainLength + echPayloadSize) + 2 + 3 := by omega
  have hfits : 118 + (1449 + domainLength + echPayloadSize) + 2 + 3 < 65536 := by omega
  simp only [clientHelloOps, measureAll, measure, measureParts_extensions hdomain hech,
    Option.map_some, Option.bind_some, measurePadding, List.length_cons, List.length_nil,
    scopeLengthSize, greaseSize, randomSize, paddingTargetOffset, Nat.reduceAdd, Nat.reduceLT,
    Nat.reduceSub, if_true, and_self, Nat.reducePow, Nat.zero_add, hlong, hfits]
  congr 2
  omega

/-- A domain of 1 to 182 ASCII characters. -/
structure Domain where
  name : Str
  ascii : ∀ c ∈ name, c.val < 128
  length : 1 ≤ name.length ∧ name.length ≤ 182

/-- What varies from one greeting of a process to another. -/
structure Greeting where
  domain : Domain
  secret : Bytes
  unixTime : ℤ
  draws : ℕ → ℕ
  tries : ℕ

section Process

variable (hmacSha256 : Bytes → Bytes → Block 32) (echPayloadSize : ℕ)

def Greeting.build (g : Greeting) : Except (Stop Exc) (FakeTlsHello × (ℕ → ℕ)) :=
  (buildClientHello hmacSha256 echPayloadSize g.tries g.domain.name g.secret g.unixTime).run g.draws

variable {echPayloadSize}

/-- A greeting is built, or a key loop was given up; nothing raises. -/
theorem build_returns (hech : echPayloadSize ∈ echPayloadSizes) (domain : Domain) (secret : Bytes)
    (unixTime : ℤ) (tries : ℕ) :
    Returns (buildClientHello hmacSha256 echPayloadSize tries domain.name secret unixTime)
      fun hello => hello.record.length = 1572 + domain.name.length + echPayloadSize := by
  have hech' : echPayloadSize ≤ 240 := by
    simp only [echPayloadSizes, List.mem_cons, List.not_mem_nil, or_false] at hech
    omega
  have hmeasure := measureAll_clientHelloOps domain.length.2 hech'
  have hname : (domain.name.map fun c : CodePoint => UInt8.ofNat c.val).length =
      domain.name.length := List.length_map _
  rw [← hname] at hmeasure ⊢
  have hempty : Measured {} (0, 0) := ⟨rfl, rfl, fun _ hmem => nomatch hmem⟩
  have hstamp (digest : Block 32) (timestamp : Bytes) (h : timestamp.length = timestampSize) :
      (stamp digest.toList timestamp).length = randomSize := by
    simp [stamp, h, randomSize, timestampSize]
  unfold buildClientHello
  refine generateGrease_returns.bind fun grease hgrease => ?_
  rw [encodeAscii, if_pos (by simpa using domain.ascii)]
  refine (render_returns hgrease _ hempty hmeasure).bind fun w hw => .pure ?_
  simp only [List.length_append, List.length_take, List.length_drop,
    hstamp _ _ (length_leBytes _ _), hw.length, randomOffset, randomSize]
  omega

/-- When the key loops end, a greeting is built, and its domain decides its length. -/
theorem build_length (hech : echPayloadSize ∈ echPayloadSizes) (g : Greeting)
    (hends : g.build hmacSha256 echPayloadSize ≠ .error .gaveUp) :
    ∃ hello draws, g.build hmacSha256 echPayloadSize = .ok (hello, draws) ∧
      hello.record.length = 1572 + g.domain.name.length + echPayloadSize := by
  obtain hgave | h := build_returns hmacSha256 hech g.domain g.secret g.unixTime g.tries g.draws
  · exact absurd hgave hends
  · exact h

/-- Whenever the key loops end, two greetings of a process are built, and they are of one length
exactly where their domains are. -/
theorem length_hidden_iff (hech : echPayloadSize ∈ echPayloadSizes) (g g' : Greeting)
    (hends : g.build hmacSha256 echPayloadSize ≠ .error .gaveUp)
    (hends' : g'.build hmacSha256 echPayloadSize ≠ .error .gaveUp) :
    ∃ hello draws hello' draws', g.build hmacSha256 echPayloadSize = .ok (hello, draws) ∧
      g'.build hmacSha256 echPayloadSize = .ok (hello', draws') ∧
      (hello.record.length = hello'.record.length ↔
        g.domain.name.length = g'.domain.name.length) := by
  obtain ⟨hello, draws, hbuild, hlength⟩ := build_length hmacSha256 hech g hends
  obtain ⟨hello', draws', hbuild', hlength'⟩ := build_length hmacSha256 hech g' hends'
  refine ⟨hello, draws, hello', draws', hbuild, hbuild', ?_⟩
  rw [hlength, hlength']
  omega

end Process

/-! ### Greetings whose key loops end -/

mutual

/-- There is a key among the operations. -/
def Op.hasKey : Op → Bool
  | .key => true
  | .permutation parts => partsHaveKey parts
  | _ => false

def opsHaveKey : List Op → Bool
  | [] => false
  | op :: ops => op.hasKey || opsHaveKey ops

def partsHaveKey : List (List Op) → Bool
  | [] => false
  | part :: parts => opsHaveKey part || partsHaveKey parts

end

/-- The candidates for a key that are drawn from here are all refused. -/
def KeyRefused (tries : ℕ) (draws : ℕ → ℕ) : Prop :=
  ∀ j < tries, Refused onCurve curve25519Candidate fun i => draws (i + curve25519KeySize * j)

section Ends

variable {R : Prop} {S : (ℕ → ℕ) → Prop}

theorem closeScope_endsOn (w : HelloWriter) : EndsOn R S w.closeScope := by
  rw [HelloWriter.closeScope]
  split
  · exact .raise _
  · dsimp only
    split_ifs
    · exact .pure _
    · exact .raise _

theorem writePadding_endsOn (w : HelloWriter) : EndsOn R S w.writePadding := by
  rw [HelloWriter.writePadding]
  split_ifs
  · exact .pure _
  · exact closeScope_endsOn _

theorem mlKem768Pairs_endsOn (hshift : ∀ s, S s → S fun i => s (i + 1)) (n : ℕ) :
    EndsOn R S (mlKem768Pairs n) := by
  induction n with
  | zero => exact .pure []
  | succ n ih =>
    exact (randbits_endsOn hshift 32).bind fun _ => (randbits_endsOn hshift 32).bind fun _ =>
      ih.bind fun _ => .pure _

theorem shuffleLoop_endsOn (hshift : ∀ s, S s → S fun i => s (i + 1)) (left index : ℕ)
    (parts : List Bytes) : EndsOn R S (shuffleLoop left index parts) := by
  induction left generalizing index parts with
  | zero => exact .pure parts
  | succ left ih => exact (randbelow_endsOn hshift _).bind fun _ => ih _ _

mutual

theorem write_endsOn (hshift : ∀ s, S s → S fun i => s (i + 1)) (op : Op)
    (hkey : op.hasKey = true → EndsOn R S (generateCurve25519Key tries)) (w : HelloWriter) :
    EndsOn R S (w.write grease domain tries op) := by
  cases op with
  | string data => exact .pure _
  | random length => exact (tokenBytes_endsOn hshift length).bind fun _ => .pure _
  | zero length => exact .pure _
  | domain => exact .pure _
  | grease seed =>
    rw [HelloWriter.write]
    split
    · exact .pure _
    · exact .raise _
  | beginScope => exact .pure _
  | endScope => exact closeScope_endsOn w
  | key => exact (hkey rfl).bind fun _ => .pure _
  | mlKem768Key =>
    exact ((mlKem768Pairs_endsOn hshift _).bind fun _ =>
      (tokenBytes_endsOn hshift _).bind fun _ => .pure _).bind fun _ => .pure _
  | permutation parts =>
    exact (renderParts_endsOn hshift parts hkey).bind fun _ =>
      (shuffleLoop_endsOn hshift _ _ _).bind fun _ => .pure _
  | padding => exact writePadding_endsOn w

/-- Only the keys give up. -/
theorem render_endsOn (hshift : ∀ s, S s → S fun i => s (i + 1)) (ops : List Op)
    (hkey : opsHaveKey ops = true → EndsOn R S (generateCurve25519Key tries)) (w : HelloWriter) :
    EndsOn R S (w.render grease domain tries ops) := by
  cases ops with
  | nil => exact .pure w
  | cons op ops =>
    rw [opsHaveKey, Bool.or_eq_true] at hkey
    exact (write_endsOn hshift op (fun h => hkey (.inl h)) w).bind fun w' =>
      render_endsOn hshift ops (fun h => hkey (.inr h)) w'

theorem renderParts_endsOn (hshift : ∀ s, S s → S fun i => s (i + 1)) (parts : List (List Op))
    (hkey : partsHaveKey parts = true → EndsOn R S (generateCurve25519Key tries)) :
    EndsOn R S (HelloWriter.renderParts grease domain tries parts) := by
  cases parts with
  | nil => exact .pure []
  | cons part parts =>
    rw [partsHaveKey, Bool.or_eq_true] at hkey
    exact (render_endsOn hshift part (fun h => hkey (.inl h)) {}).bind fun _ =>
      (renderParts_endsOn hshift parts fun h => hkey (.inr h)).bind fun _ => .pure _

end

theorem buildClientHello_endsOn (hshift : ∀ s, S s → S fun i => s (i + 1))
    (hkey : EndsOn R S (generateCurve25519Key tries)) (hmacSha256 : Bytes → Bytes → Block 32)
    (echPayloadSize : ℕ) (domain : Str) (secret : Bytes) (unixTime : ℤ) :
    EndsOn R S (buildClientHello hmacSha256 echPayloadSize tries domain secret unixTime) := by
  unfold buildClientHello
  refine ((tokenBytes_endsOn hshift _).bind fun _ => .pure _).bind fun grease => ?_
  cases encodeAscii domain with
  | error e => exact .raise e
  | ok domain => exact (render_endsOn hshift _ (fun _ => hkey) {}).bind fun _ => .pure _

end Ends

theorem curve25519Candidate_takes : Takes curve25519KeySize curve25519Candidate :=
  (tokenBytes_takes curve25519KeySize).map _

/-- A key gives up where all its candidates are refused, and otherwise goes on in the draws. -/
theorem generateCurve25519Key_endsOn (draws : ℕ → ℕ) :
    EndsOn (∃ k, KeyRefused tries fun i => draws (i + k)) (fun s => ∃ k, s = fun i => draws (i + k))
      (generateCurve25519Key tries) := by
  refine EndsOn.bind ?_ fun x => ?_
  · rintro _ ⟨k, rfl⟩
    obtain ⟨hgave, hrefused⟩ | ⟨x, n, hok⟩ :=
      @drawUntil_cases _ _ _ onCurve _ curve25519Candidate_takes tries fun i => draws (i + k)
    · exact .inl ⟨hgave, k, hrefused⟩
    · refine .inr (.inr ⟨x, _, hok, n + k, ?_⟩)
      funext i
      rw [Nat.add_assoc]
  · split
    · exact .pure _
    · exact .raise _

/-- A writer that gives up has come to a key whose candidates are all refused. -/
theorem key_of_gaveUp {ops : List Op} {draws : ℕ → ℕ}
    (hgave : (HelloWriter.render grease domain tries ops {}).run draws = .error .gaveUp) :
    opsHaveKey ops = true ∧ ∃ k, KeyRefused tries fun i => draws (i + k) := by
  have hends : EndsOn (opsHaveKey ops = true ∧ ∃ k, KeyRefused tries fun i => draws (i + k))
      (fun s => ∃ k, s = fun i => draws (i + k)) (HelloWriter.render grease domain tries ops {}) := by
    refine render_endsOn ?_ ops (fun hkey => ?_) {}
    · rintro _ ⟨k, rfl⟩
      refine ⟨1 + k, ?_⟩
      funext i
      exact congrArg draws (Nat.add_assoc i 1 k)
    · exact (generateCurve25519Key_endsOn draws).imp fun hrefused => ⟨hkey, hrefused⟩
  obtain ⟨-, hreason⟩ | ⟨e, hrun⟩ | ⟨w, draws', hrun, -⟩ := hends draws ⟨0, rfl⟩
  · exact hreason
  · exact nomatch hrun.symm.trans hgave
  · exact nomatch hrun.symm.trans hgave

/-- Where all numbers that are drawn are 1, the first candidate for a key is on the curve. -/
theorem candidate_ones : ∃ x, curve25519Candidate.run (fun _ => 1) = .ok (x, fun _ => 1) ∧
    onCurve x = true :=
  ⟨_, rfl, by decide +kernel⟩

theorem not_keyRefused_ones (k : ℕ) : ¬KeyRefused 1 fun i => (fun _ : ℕ => 1) (i + k) := by
  intro hrefused
  obtain ⟨x, hrun, haccepts⟩ := candidate_ones
  obtain ⟨y, s', hrun', hnot⟩ := hrefused 0 Nat.one_pos
  obtain ⟨rfl, -⟩ := Prod.mk.inj (Except.ok.inj (hrun.symm.trans hrun'))
  rw [haccepts] at hnot
  cases hnot

theorem ones_endsOn : EndsOn False (fun s => s = fun _ => 1) (generateCurve25519Key 1) := by
  refine (drawUntil_endsOn (by decide) fun s hs => ?_).bind fun x => ?_
  · subst hs
    obtain ⟨x, hrun, haccepts⟩ := candidate_ones
    exact ⟨x, _, hrun, haccepts, rfl⟩
  · split
    · exact .pure _
    · exact .raise _

/-- A greeting for a domain of so many letters, where 1 is drawn all the time. -/
def onesGreeting (n : ℕ) (h : 1 ≤ n ∧ n ≤ 182) : Greeting where
  domain :=
    { name := List.replicate n 97
      ascii := fun c hc => by
        rw [List.eq_of_mem_replicate hc]
        decide
      length := by rwa [List.length_replicate] }
  secret := []
  unixTime := 0
  draws _ := 1
  tries := 1

theorem onesGreeting_ends (hmacSha256 : Bytes → Bytes → Block 32) (echPayloadSize n : ℕ)
    (h : 1 ≤ n ∧ n ≤ 182) :
    (onesGreeting n h).build hmacSha256 echPayloadSize ≠ .error .gaveUp := by
  have hends := buildClientHello_endsOn (S := fun s => s = fun _ => 1)
    (fun s hs => by rw [hs]) ones_endsOn hmacSha256 echPayloadSize
    (onesGreeting n h).domain.name [] 0
  obtain ⟨-, hreason⟩ | ⟨e, hrun⟩ | ⟨hello, draws, hrun, -⟩ := hends _ rfl
  · exact hreason.elim
  · exact fun hgave => nomatch hrun.symm.trans hgave
  · exact fun hgave => nomatch hrun.symm.trans hgave

theorem length_hidden_ones : ∃ hello draws hello' draws',
    (onesGreeting 1 (by decide)).build (fun _ _ => Block.ofNat 0) 144 = .ok (hello, draws) ∧
      (onesGreeting 3 (by decide)).build (fun _ _ => Block.ofNat 0) 144 = .ok (hello', draws') ∧
      (hello.record.length = hello'.record.length ↔
        (onesGreeting 1 (by decide)).domain.name.length =
          (onesGreeting 3 (by decide)).domain.name.length) :=
  length_hidden_iff _ (by decide) _ _ (onesGreeting_ends _ _ 1 (by decide))
    (onesGreeting_ends _ _ 3 (by decide))

/-- The domains `a` and `aa`. -/
theorem length_differs : ¬∀ (hmacSha256 : Bytes → Bytes → Block 32) (echPayloadSize : ℕ)
    (g g' : Greeting) hello draws hello' draws', echPayloadSize ∈ echPayloadSizes →
      g.build hmacSha256 echPayloadSize = .ok (hello, draws) →
      g'.build hmacSha256 echPayloadSize = .ok (hello', draws') →
        hello.record.length = hello'.record.length := by
  intro h
  have hech : 144 ∈ echPayloadSizes := by decide
  obtain ⟨hello, draws, hbuild, hlength⟩ := build_length (fun _ _ => Block.ofNat 0) hech
    (onesGreeting 1 (by decide)) (onesGreeting_ends _ _ 1 (by decide))
  obtain ⟨hello', draws', hbuild', hlength'⟩ := build_length (fun _ _ => Block.ofNat 0) hech
    (onesGreeting 2 (by decide)) (onesGreeting_ends _ _ 2 (by decide))
  have hsame := h _ 144 _ _ hello draws hello' draws' hech hbuild hbuild'
  rw [hlength, hlength'] at hsame
  exact absurd hsame (by decide)

end AllInOneBackup.Kurigram.FakeTls
