import AllInOneBackup.Kurigram.Crypto.FakeTls.Forms

/-! Where the digest of a greeting goes. The first operations write bytes of fixed numbers, whatever the
scopes around them are closed with, so the random field is found by its offset. -/

namespace AllInOneBackup.Kurigram.FakeTls

open Bytes Draw

/-! ### The first operations -/

/-- What the first operations write; the lengths of their scopes are not known yet. -/
inductive Begins : List Op → Bytes → Prop
  | nil : Begins [] []
  | string (data : Bytes) {ops : List Op} {bs : Bytes} (h : Begins ops bs) :
      Begins (.string data :: ops) (data ++ bs)
  | zero (length : ℕ) {ops : List Op} {bs : Bytes} (h : Begins ops bs) :
      Begins (.zero length :: ops) (List.replicate length 0 ++ bs)
  | beginScope (a b : UInt8) {ops : List Op} {bs : Bytes} (h : Begins ops bs) :
      Begins (.beginScope :: ops) (a :: b :: bs)

/-- An operation that writes the same bytes always, or opens a scope. -/
def Op.Fixed : Op → Prop
  | .string _ | .zero _ | .beginScope => True
  | _ => False

/-- Where the first operations do not end a scope, the body of one that they open begins with the
operations behind it. -/
theorem exists_body {front tail body ops : List Op} (hfront : ∀ op ∈ front, op.Fixed)
    (h : body ++ .endScope :: ops = front ++ tail) : ∃ tail', body = front ++ tail' := by
  obtain ⟨rest, hbody, hrest⟩ | ⟨tail', hbody, -⟩ := List.append_eq_append_iff.mp h
  · cases rest with
    | nil => exact ⟨[], by rw [hbody, List.append_nil, List.append_nil]⟩
    | cons op rest =>
      obtain rfl := (List.cons.inj hrest).1
      refine (hfront .endScope ?_).elim
      rw [hbody]
      exact List.mem_append_right _ List.mem_cons_self
  · exact ⟨tail', hbody⟩

theorem Forms.begins {grease domain : Bytes} {front tail : List Op}
    (hfront : ∀ op ∈ front, op.Fixed) {pos : ℕ} {bs : Bytes}
    (h : Forms grease domain pos (front ++ tail) bs) :
    ∃ start rest, bs = start ++ rest ∧ Begins front start := by
  induction front generalizing pos tail bs with
  | nil => exact ⟨[], bs, rfl, .nil⟩
  | cons op front ih =>
    obtain ⟨hop, hfixed⟩ := List.forall_mem_cons.mp hfront
    rw [List.cons_append] at h
    generalize hops : front ++ tail = ops at h
    cases h with
    | leaf hleaf hdata hrest =>
      obtain ⟨start, rest, rfl, hbegins⟩ := ih hfixed (hops ▸ hrest)
      cases hdata with
      | string => exact ⟨_, rest, (List.append_assoc _ _ _).symm, .string _ hbegins⟩
      | zero => exact ⟨_, rest, (List.append_assoc _ _ _).symm, .zero _ hbegins⟩
      | _ => exact hop.elim
    | @scope _ body ops inner bs hsize hbody hrest =>
      obtain ⟨tail', rfl⟩ := @exists_body front tail body ops hfixed hops.symm
      obtain ⟨start, rest, rfl, hbegins⟩ := ih hfixed hbody
      obtain ⟨a, b, hab⟩ := List.length_eq_two.mp
        (length_beBytes scopeLengthSize (start ++ rest).length)
      exact ⟨a :: b :: start, rest ++ bs, by rw [hab]; simp, .beginScope a b hbegins⟩
    | permutation => exact hop.elim

/-! ### The greeting -/

/-- The digest of a greeting stands in its random field, behind the headers of the record and of the
handshake and the version, and it was computed with zeros there. -/
def Stamped (hmacSha256 : Bytes → Bytes → Block 32) (echPayloadSize : ℕ) (secret : Bytes)
    (unixTime : ℤ) (hello : FakeTlsHello) : Prop :=
  ∃ front rest a b c d grease domain,
    front = [0x16, 0x03, 0x01, a, b, 0x01, 0x00, c, d, 0x03, 0x03] ∧
    hello.record = front ++ hello.random ++ rest ∧ hello.random.length = randomSize ∧
    hello.random = stamp (hmacSha256 secret (front ++ List.replicate randomSize 0 ++ rest)).toList
      (leBytes timestampSize (unixTime % 2 ^ 32).toNat) ∧
    Forms grease domain 0 (clientHelloOps echPayloadSize)
      (front ++ List.replicate randomSize 0 ++ rest)

theorem forms_clientHelloOps {grease domain bs : Bytes} {echPayloadSize : ℕ}
    (h : Forms grease domain 0 (clientHelloOps echPayloadSize) bs) :
    ∃ a b c d rest, bs = [0x16, 0x03, 0x01, a, b, 0x01, 0x00, c, d, 0x03, 0x03] ++
      List.replicate randomSize 0 ++ rest := by
  have hsplit : clientHelloOps echPayloadSize =
      [.string [0x16, 0x03, 0x01], .beginScope, .string [0x01, 0x00], .beginScope,
        .string [0x03, 0x03], .zero randomSize] ++ (clientHelloOps echPayloadSize).drop 6 := rfl
  rw [hsplit] at h
  obtain ⟨start, rest, rfl, hbegins⟩ := h.begins (by simp [Op.Fixed])
  cases hbegins with
  | string _ hbegins => cases hbegins with
    | beginScope a b hbegins => cases hbegins with
      | string _ hbegins => cases hbegins with
        | beginScope c d hbegins => cases hbegins with
          | string _ hbegins => cases hbegins with
            | zero _ hbegins =>
              cases hbegins
              exact ⟨a, b, c, d, rest, by simp⟩

theorem balanced_clientHelloOps (echPayloadSize : ℕ) : Balanced (clientHelloOps echPayloadSize) :=
  rfl

/-- A greeting that is returned is stamped. -/
theorem buildClientHello_yields (hmacSha256 : Bytes → Bytes → Block 32) (echPayloadSize tries : ℕ)
    (domain : Str) (secret : Bytes) (unixTime : ℤ) :
    Yields (fun _ => True)
      (buildClientHello hmacSha256 echPayloadSize tries domain secret unixTime)
      (Stamped hmacSha256 echPayloadSize secret unixTime) := by
  unfold buildClientHello
  refine generateGrease_returns.yields.bind fun grease _ => ?_
  cases encodeAscii domain with
  | error e => exact .raise trivial
  | ok name =>
    have hrender := render_yields grease name tries
      (balanced_clientHelloOps echPayloadSize).nested (w := {}) (l := {}) rfl
    refine (hrender.mono (fun _ _ => trivial) fun _ h => h).bind fun w hw => .pure ?_
    obtain ⟨bs, hout, hforms⟩ := hw.forms
    rw [List.nil_append] at hout
    obtain ⟨a, b, c, d, rest, hbs⟩ := forms_clientHelloOps hforms
    refine ⟨_, rest, a, b, c, d, grease, name, rfl, ?_, ?_, ?_, ?_⟩
    · rw [hout, hbs]
      rfl
    · simp [stamp, randomSize, timestampSize]
    · rw [← hbs, ← hout]
    · rw [← hbs]
      exact hforms

/-- For all operations, domains and draws: what a writer forms has its lengths in front of its scopes,
and nothing but a scope that is too long or a byte that the grease does not have makes it raise, and
only a key whose candidates are all refused makes it give up; and a greeting carries its digest in the
random field, computed with zeros there. -/
theorem hello_wellFormed (hmacSha256 : Bytes → Bytes → Block 32) (echPayloadSize : ℕ) :
    (∀ (grease domain : Bytes) (tries : ℕ) (ops : List Op) (draws : ℕ → ℕ), Balanced ops →
      (∀ size ∈ scopeSizes domain.length ops, size ≤ 65535) →
        (HelloWriter.render grease domain tries ops {}).run draws = .error .gaveUp ∧
          opsHaveKey ops = true ∧ (∃ k, KeyRefused tries fun i => draws (i + k)) ∨
        (HelloWriter.render grease domain tries ops {}).run draws =
            .error (.raised (.other "IndexError: index out of range")) ∧
          (∃ seed ∈ greaseSeeds domain.length ops, grease.length ≤ seed) ∨
        ∃ w draws', (HelloWriter.render grease domain tries ops {}).run draws = .ok (w, draws') ∧
          Forms grease domain 0 ops w.out) ∧
    ∀ (tries : ℕ) (domain : Str) (secret : Bytes) (unixTime : ℤ) draws hello draws',
      (buildClientHello hmacSha256 echPayloadSize tries domain secret unixTime).run draws =
          .ok (hello, draws') →
        Stamped hmacSha256 echPayloadSize secret unixTime hello := by
  constructor
  · intro grease domain tries ops draws hbalanced hsizes
    have hrender := render_yields grease domain tries
      hbalanced.nested (w := {}) (l := {}) rfl
    obtain hgave | ⟨e, hrun, hfault⟩ | ⟨w, draws', hrun, hw⟩ := hrender draws
    · exact .inl ⟨hgave, key_of_gaveUp hgave⟩
    · obtain ⟨rfl, hseed⟩ | ⟨-, size, hsize, hlong⟩ := hfault
      · exact .inr (.inl ⟨hrun, hseed⟩)
      · have hshort := hsizes size hsize
        exact absurd hlong (by simp only [scopeLengthSize]; omega)
    · obtain ⟨bs, hout, hforms⟩ := hw.forms
      rw [List.nil_append] at hout
      exact .inr (.inr ⟨w, draws', hrun, hout ▸ hforms⟩)
  · intro tries domain secret unixTime draws hello draws' hrun
    obtain hgave | ⟨e, hraised, -⟩ | ⟨hello', draws'', hok, hstamped⟩ := buildClientHello_yields
      hmacSha256 echPayloadSize tries domain secret unixTime draws
    · rw [hgave] at hrun
      cases hrun
    · rw [hraised] at hrun
      cases hrun
    · rw [hok] at hrun
      cases hrun
      exact hstamped

/-- Scopes in a scope, with a byte of the grease and a key in a part of their own. -/
def nestedOps : List Op :=
  [.beginScope, .permutation [[.beginScope, .domain, .endScope], [.grease 0, .key]], .endScope]

/-- The nested scopes are formed, and so is the greeting for `a`. -/
theorem hello_wellFormed_a :
    (∃ w draws', (HelloWriter.render [0x0A] [97] 1 nestedOps {}).run (fun _ => 1) =
        .ok (w, draws') ∧ Forms [0x0A] [97] 0 nestedOps w.out) ∧
    ∃ hello draws', (onesGreeting 1 (by decide)).build (fun _ _ => Block.ofNat 0) 144 =
        .ok (hello, draws') ∧ Stamped (fun _ _ => Block.ofNat 0) 144 [] 0 hello := by
  obtain ⟨hrender, hbuild⟩ := hello_wellFormed (fun _ _ => Block.ofNat 0) 144
  constructor
  · obtain ⟨-, -, k, hrefused⟩ | ⟨-, seed, hseed, hle⟩ | hok :=
      hrender [0x0A] [97] 1 nestedOps (fun _ => 1) rfl (by decide)
    · exact absurd hrefused (not_keyRefused_ones k)
    · obtain rfl : seed = 0 := List.mem_singleton.mp hseed
      exact absurd hle (by decide)
    · exact hok
  · obtain ⟨hello, draws', hrun, -⟩ := build_length (fun _ _ => Block.ofNat 0)
      (by decide : 144 ∈ echPayloadSizes) (onesGreeting 1 (by decide))
      (onesGreeting_ends _ _ 1 (by decide))
    exact ⟨hello, draws', hrun, hbuild _ _ _ _ _ _ _ hrun⟩

end AllInOneBackup.Kurigram.FakeTls
