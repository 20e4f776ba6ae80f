import AllInOneBackup.Kurigram.Crypto.FakeTls.Scopes

/-! What a list of operations forms, and that the writer forms it. The numbers of bytes are the same
for all draws; by them one tells which scopes are too long for their two bytes. -/

namespace AllInOneBackup.Kurigram.FakeTls

open Bytes Draw

/-! ### Sizes -/

/-- What is known of a writer without its bytes: how many there are, where the open scopes begin, the
sizes of those that were closed, and which bytes of the grease were used. -/
structure Layout where
  length : ℕ := 0
  starts : List ℕ := []
  sizes : List ℕ := []
  seeds : List ℕ := []

def Layout.add (l : Layout) (n : ℕ) : Layout := { l with length := l.length + n }

mutual

def layout (domainLength : ℕ) : Op → Layout → Layout
  | .string data, l => l.add data.length
  | .random length, l => l.add length
  | .zero length, l => l.add length
  | .domain, l => l.add domainLength
  | .grease seed, l => { l.add 2 with seeds := seed :: l.seeds }
  | .beginScope, l => { l.add scopeLengthSize with starts := l.length :: l.starts }
  | .endScope, l =>
    match l.starts with
    | [] => l
    | start :: starts =>
      { l with starts, sizes := (l.length - start - scopeLengthSize) :: l.sizes }
  | .key, l => l.add curve25519KeySize
  | .mlKem768Key, l => l.add 1184
  | .permutation parts, l => layoutParts domainLength parts l
  | .padding, l => { l with length := measurePadding l.length }

def layoutAll (domainLength : ℕ) : List Op → Layout → Layout
  | [], l => l
  | op :: ops, l => layoutAll domainLength ops (layout domainLength op l)

/-- Every part is laid out on its own. -/
def layoutParts (domainLength : ℕ) : List (List Op) → Layout → Layout
  | [], l => l
  | part :: parts, l =>
    let p := layoutAll domainLength part {}
    layoutParts domainLength parts
      { l.add p.length with sizes := p.sizes ++ l.sizes, seeds := p.seeds ++ l.seeds }

end

/-- The sizes of all scopes of a list, those in the parts of its permutations with them. -/
def scopeSizes (domainLength : ℕ) (ops : List Op) : List ℕ := (layoutAll domainLength ops {}).sizes

def greaseSeeds (domainLength : ℕ) (ops : List Op) : List ℕ := (layoutAll domainLength ops {}).seeds

/-! ### Bytes -/

section Forms

variable (grease domain : Bytes)

/-- What an operation without parts puts behind so many bytes. -/
inductive Writes (pos : ℕ) : Op → Bytes → Prop
  | string (data : Bytes) : Writes pos (.string data) data
  | random {length : ℕ} {data : Bytes} (h : data.length = length) :
      Writes pos (.random length) data
  | zero (length : ℕ) : Writes pos (.zero length) (List.replicate length 0)
  | domain : Writes pos .domain domain
  | grease {seed : ℕ} {b : UInt8} (h : grease[seed]? = some b) : Writes pos (.grease seed) [b, b]
  | key {data : Bytes} (h : data.length = curve25519KeySize) : Writes pos .key data
  | mlKem768Key {data : Bytes} (h : data.length = 1184) : Writes pos .mlKem768Key data
  | noPadding (h : paddingTargetOffset ≤ pos) : Writes pos .padding []
  | padding (h : pos < paddingTargetOffset) : Writes pos .padding
      ([0x00, 0x15] ++ (beBytes scopeLengthSize (paddingTargetOffset - pos) ++
        List.replicate (paddingTargetOffset - pos) 0))

/-- The bytes that a list of operations forms behind so many. In front of what is inside a scope stands
its length; the parts of a permutation begin anew, and stand in any order. -/
inductive Forms : ℕ → List Op → Bytes → Prop
  | nil {pos : ℕ} : Forms pos [] []
  | leaf {pos : ℕ} {op : Op} {ops : List Op} {data bs : Bytes} (hop : op.Leaf)
      (hdata : Writes grease domain pos op data) (hops : Forms (pos + data.length) ops bs) :
      Forms pos (op :: ops) (data ++ bs)
  | scope {pos : ℕ} {body ops : List Op} {inner bs : Bytes}
      (hsize : inner.length < 256 ^ scopeLengthSize)
      (hbody : Forms (pos + scopeLengthSize) body inner)
      (hops : Forms (pos + scopeLengthSize + inner.length) ops bs) :
      Forms pos (.beginScope :: (body ++ .endScope :: ops))
        (beBytes scopeLengthSize inner.length ++ (inner ++ bs))
  | permutation {pos : ℕ} {parts : List (List Op)} {ops : List Op} {rendered order : List Bytes}
      {bs : Bytes} (hlen : parts.length = rendered.length)
      (hparts : ∀ p ∈ parts.zip rendered, Forms 0 p.1 p.2) (horder : order.Perm rendered)
      (hops : Forms (pos + order.flatten.length) ops bs) :
      Forms pos (.permutation parts :: ops) (order.flatten ++ bs)

end Forms

/-! ### Nothing is forgotten -/

/-- The sizes and the seeds are kept. -/
structure Layout.Below (l l' : Layout) : Prop where
  sizes : ∀ size ∈ l.sizes, size ∈ l'.sizes
  seeds : ∀ seed ∈ l.seeds, seed ∈ l'.seeds

theorem Layout.Below.refl (l : Layout) : l.Below l := ⟨fun _ h => h, fun _ h => h⟩

theorem Layout.Below.trans {l l' l'' : Layout} (h : l.Below l') (h' : l'.Below l'') : l.Below l'' :=
  ⟨fun _ hsize => h'.sizes _ (h.sizes _ hsize), fun _ hseed => h'.seeds _ (h.seeds _ hseed)⟩

mutual

theorem below_layout (domainLength : ℕ) (op : Op) (l : Layout) :
    l.Below (layout domainLength op l) := by
  cases op with
  | grease seed => exact ⟨fun _ h => h, fun _ h => List.mem_cons_of_mem _ h⟩
  | endScope =>
    rw [layout]
    split
    · exact .refl l
    · exact ⟨fun _ h => List.mem_cons_of_mem _ h, fun _ h => h⟩
  | permutation parts => exact below_layoutParts domainLength parts l
  | _ => exact ⟨fun _ h => h, fun _ h => h⟩

theorem below_layoutAll (domainLength : ℕ) (ops : List Op) (l : Layout) :
    l.Below (layoutAll domainLength ops l) := by
  match ops with
  | [] => exact .refl l
  | op :: ops =>
    exact (below_layout domainLength op l).trans (below_layoutAll domainLength ops _)

theorem below_layoutParts (domainLength : ℕ) (parts : List (List Op)) (l : Layout) :
    l.Below (layoutParts domainLength parts l) := by
  match parts with
  | [] => exact .refl l
  | part :: parts =>
    refine Layout.Below.trans ?_ (below_layoutParts domainLength parts _)
    exact ⟨fun _ h => List.mem_append_right _ h, fun _ h => List.mem_append_right _ h⟩

end

theorem layoutAll_append (domainLength : ℕ) (xs ys : List Op) (l : Layout) :
    layoutAll domainLength (xs ++ ys) l =
      layoutAll domainLength ys (layoutAll domainLength xs l) := by
  induction xs generalizing l with
  | nil => rfl
  | cons op ops ih => exact ih _

/-! ### The writer -/

/-- Why a writer raises: a byte that the grease does not have, or a scope that is too long. -/
def Fault (grease : Bytes) (l : Layout) (e : Exc) : Prop :=
  e = .other "IndexError: index out of range" ∧ (∃ seed ∈ l.seeds, grease.length ≤ seed) ∨
    e = .overflowError "int too big to convert" ∧ ∃ size ∈ l.sizes, 256 ^ scopeLengthSize ≤ size

theorem Fault.mono {grease : Bytes} {l l' : Layout} {e : Exc} (h : Fault grease l e)
    (hbelow : l.Below l') : Fault grease l' e := by
  obtain ⟨he, seed, hseed, hout⟩ | ⟨he, size, hsize, hlong⟩ := h
  · exact .inl ⟨he, seed, hbelow.seeds _ hseed, hout⟩
  · exact .inr ⟨he, size, hbelow.sizes _ hsize, hlong⟩

/-- The writer has grown by what the operations form, and by as many bytes as they are laid out for. -/
structure Grown (grease domain : Bytes) (ops : List Op) (w : HelloWriter) (l : Layout)
    (w' : HelloWriter) : Prop where
  scopes : w'.scopes = w.scopes
  forms : ∃ bs, w'.out = w.out ++ bs ∧ Forms grease domain w.out.length ops bs
  length : w'.out.length = (layoutAll domain.length ops l).length

/-- The writer at the end of its last scope. -/
theorem closeScope_eq (out inner : Bytes) (a b : UInt8) (scopes : List ℕ) :
    HelloWriter.closeScope ⟨out ++ (a :: b :: inner), out.length :: scopes⟩ =
      if inner.length < 256 ^ scopeLengthSize then
        pure ⟨out ++ (beBytes scopeLengthSize inner.length ++ inner), scopes⟩
      else Draw.raise (.overflowError "int too big to convert") := by
  have hsize : ((out ++ (a :: b :: inner)).length : ℤ) - out.length - scopeLengthSize =
      inner.length := by
    simp only [List.length_append, List.length_cons, scopeLengthSize]
    omega
  have hdrop : (out ++ (a :: b :: inner)).drop (out.length + scopeLengthSize) = inner := by
    rw [← List.drop_drop, List.drop_left]
    rfl
  simp only [HelloWriter.closeScope, hsize, hdrop, List.take_left, Int.toNat_natCast,
    List.append_assoc]
  by_cases hfits : inner.length < 256 ^ scopeLengthSize
  · rw [if_pos hfits, if_pos ⟨Int.natCast_nonneg _, by exact_mod_cast hfits⟩]
  · rw [if_neg hfits, if_neg fun h => hfits (by exact_mod_cast h.2)]

theorem render_append (grease domain : Bytes) (tries : ℕ) (xs ys : List Op) (w : HelloWriter) :
    w.render grease domain tries (xs ++ ys) =
      w.render grease domain tries xs >>= fun w' => w'.render grease domain tries ys := by
  induction xs generalizing w with
  | nil => simp [HelloWriter.render]
  | cons op xs ih => simp only [List.cons_append, HelloWriter.render, ih, bind_assoc]

theorem layoutParts_starts (domainLength : ℕ) (parts : List (List Op)) (l : Layout) :
    (layoutParts domainLength parts l).starts = l.starts := by
  induction parts generalizing l with
  | nil => rfl
  | cons part parts ih => exact ih _

theorem layout_endScope {domainLength : ℕ} {l : Layout} {start : ℕ} {starts : List ℕ}
    (h : l.starts = start :: starts) : layout domainLength .endScope l =
      { l with starts, sizes := (l.length - start - scopeLengthSize) :: l.sizes } := by
  rw [layout, h]

/-- The scopes that a nested list opens are closed again. -/
theorem nested_starts {ops : List Op} (h : Nested ops) (domainLength : ℕ) (l : Layout) :
    (layoutAll domainLength ops l).starts = l.starts := by
  induction h generalizing l with
  | nil => rfl
  | @leaf op ops hop _ ih =>
    rw [layoutAll, ih]
    cases op <;> first | rfl | exact hop.elim
  | scope _ _ ihbody ihops =>
    rw [layoutAll, layoutAll_append, layoutAll, ihops, layout_endScope (ihbody _)]
  | @permutation parts ops _ _ _ ih =>
    rw [layoutAll, ih]
    exact layoutParts_starts domainLength parts l

variable {grease domain : Bytes} {tries : ℕ}

/-- A writer that has grown by some bytes. -/
theorem append_grown {op : Op} {w : HelloWriter} {l : Layout} {data : Bytes}
    (hlen : w.out.length + data.length = (layout domain.length op l).length)
    (hdata : Writes grease domain w.out.length op data) :
    (w.append data).scopes = w.scopes ∧
      (w.append data).out.length = (layout domain.length op l).length ∧
        ∃ data', (w.append data).out = w.out ++ data' ∧
          Writes grease domain w.out.length op data' :=
  ⟨rfl, by rw [HelloWriter.append, List.length_append, hlen], data, rfl, hdata⟩

theorem write_leaf_yields {op : Op} (hop : op.Leaf) {w : HelloWriter} {l : Layout}
    (hl : l.length = w.out.length) :
    Yields (Fault grease (layout domain.length op l)) (w.write grease domain tries op) fun w' =>
      w'.scopes = w.scopes ∧ w'.out.length = (layout domain.length op l).length ∧
        ∃ data, w'.out = w.out ++ data ∧ Writes grease domain w.out.length op data := by
  cases op with
  | beginScope => exact hop.elim
  | endScope => exact hop.elim
  | permutation parts => exact hop.elim
  | string data => exact .pure (append_grown (by rw [← hl]; rfl) (.string data))
  | random length =>
    refine (tokenBytes_returns length).yields.bind fun data hdata => ?_
    exact .pure (append_grown (by rw [← hl, hdata]; rfl) (.random hdata))
  | zero length =>
    exact .pure (append_grown (by rw [← hl, List.length_replicate]; rfl) (.zero length))
  | domain => exact .pure (append_grown (by rw [← hl]; rfl) .domain)
  | grease seed =>
    rw [HelloWriter.write]
    split
    · rename_i b hb
      exact .pure (append_grown (by rw [← hl]; rfl) (.grease hb))
    · rename_i hnone
      refine .raise (.inl ⟨rfl, seed, List.mem_cons_self, ?_⟩)
      exact List.getElem?_eq_none_iff.mp hnone
  | key =>
    refine (generateCurve25519Key_returns tries).yields.bind fun data hdata => ?_
    exact .pure (append_grown (by rw [← hl, hdata]; rfl) (.key hdata))
  | mlKem768Key =>
    refine generateMlKem768Key_returns.yields.bind fun data hdata => ?_
    exact .pure (append_grown (by rw [← hl, hdata]; rfl) (.mlKem768Key hdata))
  | padding =>
    have hlayout : (layout domain.length .padding l).length = measurePadding w.out.length := by
      rw [← hl]
      rfl
    rw [hlayout, HelloWriter.write, HelloWriter.writePadding, measurePadding]
    by_cases hlong : paddingTargetOffset ≤ w.out.length
    · rw [if_pos (by omega), if_pos hlong]
      exact .pure ⟨rfl, rfl, [], by simp, .noPadding hlong⟩
    · have hsize : ((paddingTargetOffset : ℤ) - w.out.length).toNat =
          paddingTargetOffset - w.out.length := by omega
      have hclose := closeScope_eq (w.out ++ [0x00, 0x15])
        (List.replicate (paddingTargetOffset - w.out.length) 0) 0 0 w.scopes
      have hfits : (List.replicate (paddingTargetOffset - w.out.length) (0 : UInt8)).length <
          256 ^ scopeLengthSize := by
        rw [List.length_replicate]
        simp only [paddingTargetOffset, scopeLengthSize]
        omega
      rw [if_pos hfits, List.length_replicate] at hclose
      have hwriter : ((w.append [0x00, 0x15]).beginScope.append
          (List.replicate (paddingTargetOffset - w.out.length) 0)) =
            ⟨(w.out ++ [0x00, 0x15]) ++
              (0 :: 0 :: List.replicate (paddingTargetOffset - w.out.length) 0),
              (w.out ++ [0x00, 0x15]).length :: w.scopes⟩ := by
        simp [HelloWriter.append, HelloWriter.beginScope, scopeLengthSize]
      rw [if_neg (by omega), if_neg hlong, hsize, hwriter, hclose]
      refine .pure ⟨rfl, ?_, _, List.append_assoc _ _ _, .padding (by omega)⟩
      simp only [List.length_append, List.length_replicate, length_beBytes, scopeLengthSize,
        List.length_cons, List.length_nil]
      omega

theorem Grown.leaf {op : Op} {ops : List Op} (hop : op.Leaf) {w w₁ w' : HelloWriter} {l : Layout}
    (hscopes : w₁.scopes = w.scopes) {data : Bytes} (hout : w₁.out = w.out ++ data)
    (hdata : Writes grease domain w.out.length op data)
    (h : Grown grease domain ops w₁ (layout domain.length op l) w') :
    Grown grease domain (op :: ops) w l w' := by
  obtain ⟨bs, hbs, hforms⟩ := h.forms
  refine ⟨h.scopes.trans hscopes, ⟨data ++ bs, ?_, .leaf hop hdata ?_⟩, h.length⟩
  · rw [hbs, hout, List.append_assoc]
  · rwa [hout, List.length_append] at hforms

/-- A scope is closed behind what is inside, or it is too long. -/
theorem closeScope_yields (grease domain : Bytes) {w w₁ : HelloWriter} {l l₁ : Layout}
    (hl : l.length = w.out.length) (hstarts : l₁.starts = l.length :: l.starts)
    (hlength : w₁.out.length = l₁.length) (hscopes : w₁.scopes = w.out.length :: w.scopes)
    {inner : Bytes} (hout : w₁.out = w.beginScope.out ++ inner) :
    Yields (Fault grease (layout domain.length .endScope l₁)) w₁.closeScope fun w₂ =>
      w₂ = ⟨w.out ++ (beBytes scopeLengthSize inner.length ++ inner), w.scopes⟩ ∧
        inner.length < 256 ^ scopeLengthSize := by
  have hwriter : w₁ = ⟨w.out ++ (0 :: 0 :: inner), w.out.length :: w.scopes⟩ := by
    obtain ⟨out, scopes⟩ := w₁
    dsimp only at hscopes hout
    rw [hscopes, hout, HelloWriter.beginScope, List.append_assoc]
    rfl
  have hsize : l₁.length - l.length - scopeLengthSize = inner.length := by
    rw [← hlength, hwriter, hl]
    simp only [List.length_append, List.length_cons, scopeLengthSize]
    omega
  rw [hwriter, closeScope_eq]
  split_ifs with hfits
  · exact .pure ⟨rfl, hfits⟩
  · refine .raise (.inr ⟨rfl, inner.length, ?_, not_lt.mp hfits⟩)
    rw [layout_endScope hstarts, hsize]
    exact List.mem_cons_self

theorem Grown.scope {body ops : List Op} {w w' : HelloWriter} {l l₂ : Layout} {inner : Bytes}
    (hsize : inner.length < 256 ^ scopeLengthSize)
    (hinner : Forms grease domain w.beginScope.out.length body inner)
    (hlayout : layoutAll domain.length (.beginScope :: (body ++ .endScope :: ops)) l =
      layoutAll domain.length ops l₂)
    (h : Grown grease domain ops
      ⟨w.out ++ (beBytes scopeLengthSize inner.length ++ inner), w.scopes⟩ l₂ w') :
    Grown grease domain (.beginScope :: (body ++ .endScope :: ops)) w l w' := by
  obtain ⟨bs, hbs, hforms⟩ := h.forms
  have hbegin : w.beginScope.out.length = w.out.length + scopeLengthSize := by
    simp [HelloWriter.beginScope]
  refine ⟨h.scopes, ⟨_, ?_, @Forms.scope grease domain _ _ _ _ bs hsize (hbegin ▸ hinner) ?_⟩, hlayout ▸ h.length⟩
  · rw [hbs, List.append_assoc, List.append_assoc]
  · have hpos : (w.out ++ (beBytes scopeLengthSize inner.length ++ inner)).length =
        w.out.length + scopeLengthSize + inner.length := by
      simp only [List.length_append, length_beBytes]
      omega
    rwa [hpos] at hforms

/-- The parts of a permutation, each with a writer that forms it. -/
theorem renderParts_yields (tries : ℕ) {parts : List (List Op)}
    (h : ∀ part ∈ parts, Yields (Fault grease (layoutAll domain.length part {}))
      (HelloWriter.render grease domain tries part {}) (Grown grease domain part {} {}))
    (l : Layout) :
    Yields (Fault grease (layoutParts domain.length parts l))
      (HelloWriter.renderParts grease domain tries parts) fun rendered =>
        parts.length = rendered.length ∧
          (∀ p ∈ parts.zip rendered, Forms grease domain 0 p.1 p.2) ∧
            (layoutParts domain.length parts l).length = l.length + rendered.flatten.length := by
  induction parts generalizing l with
  | nil => exact .pure ⟨rfl, by simp, rfl⟩
  | cons part parts ih =>
    obtain ⟨hpart, hparts⟩ := List.forall_mem_cons.mp h
    have hbelow := below_layoutParts domain.length parts
      { l.add (layoutAll domain.length part {}).length with
        sizes := (layoutAll domain.length part {}).sizes ++ l.sizes
        seeds := (layoutAll domain.length part {}).seeds ++ l.seeds }
    have hfault (e : Exc) (he : Fault grease (layoutAll domain.length part {}) e) :
        Fault grease (layoutParts domain.length (part :: parts) l) e :=
      (he.mono ⟨fun _ => List.mem_append_left _, fun _ => List.mem_append_left _⟩).mono hbelow
    refine (hpart.mono hfault fun _ hw => hw).bind fun w hw => ?_
    refine (ih hparts _).bind fun rendered hrendered => .pure ?_
    obtain ⟨hlen, hforms, hlength⟩ := hrendered
    obtain ⟨bs, hbs, hbsForms⟩ := hw.forms
    have hout : w.out = bs := hbs
    refine ⟨by simp [hlen], ?_, ?_⟩
    · rw [List.zip_cons_cons, List.forall_mem_cons, hout]
      exact ⟨hbsForms, hforms⟩
    · rw [layoutParts, hlength, List.flatten_cons, List.length_append, hw.length, Layout.add]
      dsimp only
      omega

theorem render_yields (grease domain : Bytes) (tries : ℕ) {ops : List Op} (h : Nested ops)
    {w : HelloWriter} {l : Layout} (hl : l.length = w.out.length) :
    Yields (Fault grease (layoutAll domain.length ops l)) (w.render grease domain tries ops)
      (Grown grease domain ops w l) := by
  induction h generalizing w l with
  | nil => exact .pure ⟨rfl, ⟨[], by simp, .nil⟩, hl.symm⟩
  | @leaf op ops hop hops ih =>
    have hbelow := below_layoutAll domain.length ops (layout domain.length op l)
    refine ((write_leaf_yields hop hl).mono (fun e he => he.mono hbelow) fun _ h => h).bind
      fun w₁ hw₁ => ?_
    obtain ⟨hscopes, hlength, data, hout, hdata⟩ := hw₁
    exact (ih hlength.symm).mono (fun _ he => he) fun w' hw' => hw'.leaf hop hscopes hout hdata
  | @scope body ops hbody hops ihbody ihops =>
    have hbegin : (layout domain.length .beginScope l).length = w.beginScope.out.length := by
      simp [layout, Layout.add, HelloWriter.beginScope, hl]
    have hlayout : layoutAll domain.length (.beginScope :: (body ++ .endScope :: ops)) l =
        layoutAll domain.length ops (layout domain.length .endScope
          (layoutAll domain.length body (layout domain.length .beginScope l))) := by
      rw [layoutAll, layoutAll_append]
      rfl
    have hstarts := nested_starts hbody domain.length (layout domain.length .beginScope l)
    have hbelowOps := below_layoutAll domain.length ops (layout domain.length .endScope
      (layoutAll domain.length body (layout domain.length .beginScope l)))
    have hbelowEnd := below_layout domain.length .endScope
      (layoutAll domain.length body (layout domain.length .beginScope l))
    rw [hlayout]
    have hrender : w.render grease domain tries (.beginScope :: (body ++ .endScope :: ops)) =
        w.beginScope.render grease domain tries body >>= fun w₁ =>
          w₁.closeScope >>= fun w₂ => w₂.render grease domain tries ops :=
      render_append grease domain tries body (.endScope :: ops) w.beginScope
    rw [hrender]
    refine ((ihbody hbegin).mono (fun e he => (he.mono hbelowEnd).mono hbelowOps)
      fun _ h => h).bind fun w₁ hw₁ => ?_
    obtain ⟨inner, hout, hinner⟩ := hw₁.forms
    have hclose := closeScope_yields grease domain hl hstarts hw₁.length
      hw₁.scopes hout
    refine (hclose.mono (fun e he => he.mono hbelowOps) fun _ h => h).bind fun w₂ hw₂ => ?_
    obtain ⟨rfl, hsize⟩ := hw₂
    have hnext : (layout domain.length .endScope (layoutAll domain.length body
        (layout domain.length .beginScope l))).length =
          (w.out ++ (beBytes scopeLengthSize inner.length ++ inner)).length := by
      rw [layout_endScope hstarts, ← hw₁.length, hout]
      simp [HelloWriter.beginScope]
    exact (ihops hnext).mono (fun _ he => he) fun w' hw' => .scope hsize hinner hlayout hw'
  | @permutation parts ops hparts hops ihparts ih =>
    have hrender := renderParts_yields tries
      (fun part hpart => ihparts part hpart (w := {}) (l := {}) rfl) l
    have hbelow := below_layoutAll domain.length ops (layoutParts domain.length parts l)
    have hrender' : w.render grease domain tries (.permutation parts :: ops) =
        HelloWriter.renderParts grease domain tries parts >>= fun rendered =>
          shuffled rendered >>= fun order =>
            (w.append order.flatten).render grease domain tries ops := by
      simp only [HelloWriter.render, HelloWriter.write, bind_assoc, pure_bind]
    rw [hrender']
    refine (hrender.mono (fun e he => he.mono hbelow) fun _ h => h).bind fun rendered hrendered =>
      (shuffleLoop_returns _ 0 rendered).yields.bind fun order horder => ?_
    obtain ⟨hlen, hforms, hlength⟩ := hrendered
    have hsame := horder.flatten.length_eq
    have hnext : (layoutParts domain.length parts l).length = (w.append order.flatten).out.length := by
      rw [hlength, hl, HelloWriter.append, List.length_append, hsame]
    refine (ih hnext).mono (fun _ he => he) fun w' hw' => ?_
    obtain ⟨bs, hbs, hrest⟩ := hw'.forms
    refine ⟨hw'.scopes, ⟨order.flatten ++ bs, ?_, .permutation hlen hforms horder ?_⟩, hw'.length⟩
    · rw [hbs, HelloWriter.append, List.append_assoc]
    · rwa [HelloWriter.append, List.length_append] at hrest

end AllInOneBackup.Kurigram.FakeTls
