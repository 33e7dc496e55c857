import FlatC.Proofs.Layout.Flattening

/-!
# Frames are full

Layout goes through the blocks of a function with one counter, which it hands from block to block
and starts anew for every function; the bytes of the local variables are what the counter has moved
in the end. `placeSymbols_tiled` says what comes out: from the frame pointer downwards there are the
parameters, the two saved registers and the local variables in the order of the text, and they fill
the frame word by word. The numbers that the notes held before do not matter, so layout that is run
again finds everything at its place (`Ready.placeSymbols_eq`).
-/

namespace FlatC

open Binding Annotations Layout

/-! ## Words of a frame -/

/-- The words in the `bytes` bytes from `top` downwards. -/
def wordsBelow (top : Int) (bytes : Nat) : List Int :=
  (List.range (bytes / wordSize)).map fun i => top - (wordSize * i : Nat)

@[simp] theorem wordsBelow_zero (top : Int) : wordsBelow top 0 = [] := rfl

theorem wordsBelow_add {m n : Nat} (hm : wordSize ∣ m) (top : Int) :
    wordsBelow top (m + n) = wordsBelow top m ++ wordsBelow (top - m) n := by
  obtain ⟨c, rfl⟩ := hm
  have hpos : 0 < wordSize := by decide
  unfold wordsBelow
  rw [Nat.mul_add_div hpos, Nat.mul_div_cancel_left c hpos, List.range_add, List.map_append,
    List.map_map]
  refine congrArg _ (List.map_congr_left fun i _ => ?_)
  simp only [Function.comp, Nat.mul_add]
  omega

/-- No word is there twice. -/
theorem nodup_wordsBelow (top : Int) (bytes : Nat) : (wordsBelow top bytes).Nodup := by
  refine List.Nodup.map (fun i j hij => ?_) List.nodup_range
  simp only [wordSize] at hij
  omega

theorem getLast?_wordsBelow {n : Nat} (hn : wordSize ∣ n) (top : Int) :
    (wordsBelow top (n + wordSize)).getLast? = some (top - n) := by
  rw [wordsBelow_add hn]
  simp [wordsBelow, wordSize]

/-- The words of a variable, if it lies in a frame. -/
def Annotations.wordsOf (b : Annotations) (d : VarDecl) : List Int :=
  match b.symbolOf? d.name.id with
  | some s => wordsBelow s.offset s.size
  | none => []

/-- The words of a frame: those of the parameters, of the saved registers and of the local
variables. -/
def Annotations.frameWords (b : Annotations) (f : FnDecl) : List Int :=
  f.params.flatMap (b.wordsOf ·.decl) ++
    [-((wordSize * f.params.length : Nat) : Int),
      -((wordSize * f.params.length : Nat) : Int) - wordSize] ++
    f.body.allDecls.flatMap b.wordsOf

/-- Variables that lie side by side. -/
theorem flatMap_wordsOf {b : Annotations} {ds : List VarDecl} {n : Nat} {top : Int}
    (h : ∀ i d, ds[i]? = some d → wordSize ∣ b.sizeAt (n + i) ∧
      b.wordsOf d = wordsBelow (top - b.total n i) (b.sizeAt (n + i))) :
    ds.flatMap b.wordsOf = wordsBelow top (b.total n ds.length) := by
  induction ds generalizing n top with
  | nil => simp [Annotations.total]
  | cons d ds ih =>
    obtain ⟨hdvd, hd⟩ := h 0 d rfl
    simp only [Annotations.total, Nat.add_zero, Nat.cast_zero, Int.sub_zero] at hdvd hd
    rw [List.flatMap_cons, List.length_cons, total_succ, wordsBelow_add hdvd, hd]
    refine congrArg _ (ih fun i x hx => ?_)
    have hi := h (i + 1) x (by simpa using hx)
    rw [total_succ, ← Nat.add_assoc, Nat.add_right_comm] at hi
    refine ⟨hi.1, hi.2.trans ?_⟩
    congr 1
    push_cast
    omega

/-! ## The frame of a function -/

/-- The bytes of a variable of a program. -/
def Program.bytes (p : Program) (d : VarDecl) : Nat := wordSize * (p.leaves d.type).length

/-- The numbers in the notes put the variables of `f` side by side. -/
structure Annotations.Tiles (b : Annotations) (p : Program) (f : FnDecl) : Prop where
  spaces : ∃ s info, b.symbolOf? f.name.id = some s ∧ s.fnInfo? = some info ∧
    info.formalSpace = wordSize * f.params.length ∧
    info.localSpace = (f.body.allDecls.map p.bytes).sum
  param : ∀ i q, f.params[i]? = some q → ∃ s, b.symbolOf? q.name.id = some s ∧
    s.size = wordSize ∧ s.offset = -((wordSize * i : Nat) : Int)
  inner : ∀ j d, f.body.allDecls[j]? = some d → ∃ s, b.symbolOf? d.name.id = some s ∧
    s.size = p.bytes d ∧ s.offset = -((wordSize * f.params.length + savedSpace : Nat) : Int) -
      (((f.body.allDecls.take j).map p.bytes).sum : Nat)
  words : b.frameWords f =
    wordsBelow 0 (wordSize * f.params.length + savedSpace + (f.body.allDecls.map p.bytes).sum)
  once : (b.frameWords f).Nodup

section

variable {p : Program} {b : Annotations} {f : FnDecl} {n : Nat} (hr : Ready p b)

include hr

/-- The variable with the symbol `k` takes the words from its offset on. -/
theorem Housed.wordsOf_eq {g : Bool} {d : VarDecl} {k : Nat} (h : Housed p b g d k) :
    b.wordsOf d = wordsBelow (b.offsetAt k) (b.sizeAt k) := by
  obtain ⟨s, hs, hs', -⟩ := h.symbolOf? hr.resolved
  simp [Annotations.wordsOf, hs, offsetAt, sizeAt, hs']

theorem FnAt.total_locals (h : FnAt p b f n) {j : Nat} (hj : j ≤ f.body.allDecls.length) :
    b.total (n + 1 + f.params.length) j = ((f.body.allDecls.take j).map p.bytes).sum :=
  total_eq_sum (fun _ _ hd => (h.inner hd).sizeAt_eq hr) hj

omit hr in
theorem FnAt.total_params (h : FnAt p b f n) {i : Nat} (hi : i ≤ f.params.length) :
    b.total (n + 1) i = wordSize * i := by
  induction i with
  | zero => rfl
  | succ i ih =>
    have hq : f.params[i]? = some f.params[i] := List.getElem?_eq_getElem hi
    rw [Annotations.total, ih (Nat.le_of_lt hi), h.sizeAt_param hq, Nat.mul_succ]

/-- The words of a frame, in their order. -/
theorem FnAt.words (h : FnAt p b f n) : b.frameWords f =
    wordsBelow 0 (wordSize * f.params.length + savedSpace +
      b.total (n + 1 + f.params.length) f.body.allDecls.length) := by
  have hformal : wordSize ∣ wordSize * f.params.length := Nat.dvd_mul_right _ _
  have htop : wordSize ∣ wordSize * f.params.length + savedSpace := Nat.dvd_add hformal ⟨2, rfl⟩
  have hparams : f.params.flatMap (b.wordsOf ·.decl) =
      wordsBelow 0 (wordSize * f.params.length) := by
    have hflat : (f.params.map Param.decl).flatMap b.wordsOf =
        wordsBelow 0 (b.total (n + 1) (f.params.map Param.decl).length) := by
      refine flatMap_wordsOf fun i x hx => ?_
      rw [List.getElem?_map] at hx
      obtain ⟨q, hq, rfl⟩ := Option.map_eq_some_iff.1 hx
      have hi := (List.getElem?_eq_some_iff.1 hq).1
      rw [(h.params hq).wordsOf_eq hr, h.placed.paramOffset i hi, h.total_params (Nat.le_of_lt hi),
        h.sizeAt_param hq, Int.zero_sub]
      exact ⟨Nat.dvd_refl _, rfl⟩
    rwa [List.flatMap_map, List.length_map, h.total_params (Nat.le_refl _)] at hflat
  have hlocals : f.body.allDecls.flatMap b.wordsOf =
      wordsBelow (-((wordSize * f.params.length + savedSpace : Nat) : Int))
        (b.total (n + 1 + f.params.length) f.body.allDecls.length) := by
    refine flatMap_wordsOf fun i d hd => ⟨(h.inner hd).wordSize_dvd hr, ?_⟩
    rw [(h.inner hd).wordsOf_eq hr, h.placed.localOffset i (List.getElem?_eq_some_iff.1 hd).1]
    congr 1
    push_cast
    omega
  have hsaved : ∀ top : Int, wordsBelow top savedSpace = [top, top - wordSize] := by
    intro top
    have htwo : savedSpace / wordSize = 2 := rfl
    simp [wordsBelow, htwo, List.range_succ]
  rw [frameWords, wordsBelow_add htop, wordsBelow_add hformal, hparams, hlocals,
    hsaved, Int.zero_sub, Int.zero_sub]

theorem Ready.tiles (hf : Decl.fn f ∈ p.decls) : b.Tiles p f := by
  obtain ⟨n, h⟩ := hr.fnAt hf
  have htotal := h.total_locals hr (Nat.le_refl _)
  rw [List.take_length] at htotal
  refine ⟨?_, fun i q hq => ?_, fun j d hd => ?_, ?_, ?_⟩
  · obtain ⟨s, info, hs, hinfo, hformal, hlocal⟩ := h.placed.info
    exact ⟨s, info, (hr.resolved.symbolOf? h.link).trans hs, hinfo, hformal, hlocal.trans htotal⟩
  · obtain ⟨s, hs, hs', -⟩ := (h.params hq).symbolOf? hr.resolved
    have hsize := h.sizeAt_param hq
    have hoffset := h.placed.paramOffset i (List.getElem?_eq_some_iff.1 hq).1
    simp only [sizeAt, offsetAt, hs', Option.map_some, Option.getD_some] at hsize hoffset
    exact ⟨s, hs, hsize, hoffset⟩
  · obtain ⟨s, hs, hs', -⟩ := (h.inner hd).symbolOf? hr.resolved
    have hj := (List.getElem?_eq_some_iff.1 hd).1
    have hsize := (h.inner hd).sizeAt_eq hr
    have hoffset := h.placed.localOffset j hj
    rw [h.total_locals hr (Nat.le_of_lt hj)] at hoffset
    simp only [sizeAt, offsetAt, hs', Option.map_some, Option.getD_some] at hsize hoffset
    refine ⟨s, hs, hsize, hoffset.trans ?_⟩
    push_cast
    omega
  · rw [← htotal]
    exact h.words hr
  · rw [h.words hr]
    exact nodup_wordsBelow _ _

end

/-! ## Layout that is run again -/

/-- A change that changes nothing. -/
theorem Annotations.update_eq_self {a : Annotations} {k : Nat} {s : Symbol} {f : Symbol → Symbol}
    (hs : a.symbol? k = some s) (hf : f s = s) : a.update k f = a := by
  have hsymbols : (a.update k f).symbols = a.symbols := by
    refine Array.ext_getElem? fun i => ?_
    show (a.update k f).symbol? i = a.symbol? i
    rw [symbol?_update]
    split
    next hi => rw [hi, hs, Option.map_some, hf]
    next => rfl
  show { a with symbols := (a.update k f).symbols } = a
  rw [hsymbols]

namespace Layout

variable {a : Annotations} {n k base : Nat} {d : VarDecl} {ds : List VarDecl} {β : Type}

theorem update_kept {f : Symbol → Symbol} {s : Symbol} (h : a.symbol? k = some s) (hf : f s = s) :
    Yields (update k f) a fun _ b => b = a :=
  (update_yields h).mono fun _ _ hb => hb.trans (update_eq_self h hf)

/-- A variable that has its size keeps it. -/
theorem sized_kept (hl : a.linked? d.name.id = some n) (h : a.Fitted base n) (hbase : base ≤ n) :
    Yields (sized d) a fun r b => r = (n, a.sizeAt n) ∧ b = a := by
  obtain ⟨s, hs, hsize⟩ := h
  have hsizeOf : Yields (sizeOf n) a fun size b => size = s.size ∧ b = a := by
    refine .bind (symbol_yields hs) ?_
    rintro _ _ ⟨rfl, rfl⟩
    cases hd : s.definition? with
    | none => simp only [hd] at hsize; exact .pure ⟨hsize.symm, rfl⟩
    | some d =>
      simp only [hd] at hsize
      obtain ⟨sd, hsd⟩ := exists_symbol?
        (Nat.lt_trans (Nat.lt_of_lt_of_le hsize.1 hbase) (symbol?_lt hs))
      refine .bind (symbol_yields hsd) ?_
      rintro _ _ ⟨rfl, rfl⟩
      exact .pure ⟨by rw [hsize.2, sizeAt, hsd]; rfl, rfl⟩
  refine .bind (resolved_yields hl) ?_
  rintro _ _ ⟨rfl, rfl⟩
  refine .bind hsizeOf ?_
  rintro _ _ ⟨rfl, rfl⟩
  refine .bind (update_kept hs rfl) ?_
  rintro _ _ rfl
  exact .pure ⟨by simp [sizeAt, hs], rfl⟩

/-- A variable that has its place keeps it, and then the others theirs. -/
theorem placed_kept {f : Symbol → Symbol} {g : Nat → Layout β} {Q : β → Annotations → Prop}
    (hl : a.linked? d.name.id = some n) (h : a.Fitted base n) (hbase : base ≤ n)
    (hf : ∀ s, a.symbol? n = some s → f s = s) (hg : Yields (g (a.sizeAt n)) a Q) :
    Yields (do let (id, size) ← sized d; update id f; g size) a Q := by
  refine .bind (sized_kept hl h hbase) ?_
  rintro _ _ ⟨rfl, rfl⟩
  obtain ⟨s, hs, -⟩ := h
  refine .bind (update_kept hs (hf s hs)) ?_
  rintro _ _ rfl
  exact hg

/-- The variables have the symbols from `n` on. -/
def Numbered (a : Annotations) (n : Nat) (ds : List VarDecl) : Prop :=
  ∀ i d, ds[i]? = some d → a.linked? d.name.id = some (n + i)

theorem Numbered.tail (h : Numbered a n (d :: ds)) : Numbered a (n + 1) ds := fun i x hx => by
  rw [Nat.add_assoc, Nat.add_comm 1]
  exact h (i + 1) x (by simpa using hx)

theorem AllFitted.tail {c : Nat} (h : AllFitted a base n (c + 1)) :
    AllFitted a base (n + 1) c := fun i hi => by
  rw [Nat.add_assoc, Nat.add_comm 1]
  exact h (i + 1) (by omega)

theorem locals_kept {offset : Int} (hl : Numbered a n ds) (h : AllFitted a base n ds.length)
    (hbase : base ≤ n) (ho : ∀ i, i < ds.length → a.offsetAt (n + i) = offset - a.total n i) :
    Yields (locals offset ds) a fun stop b =>
      stop = offset - a.total n ds.length ∧ b = a := by
  induction ds generalizing n offset with
  | nil => exact .pure ⟨by simp [total], rfl⟩
  | cons d ds ih =>
    refine placed_kept (n := n) (g := fun size => locals (offset - size) ds) (hl 0 d rfl)
      (h 0 (Nat.succ_pos _)) hbase (fun s hs => ?_) ?_
    · have hoffset : s.offset = offset := by
        simpa [offsetAt, hs, total] using ho 0 (Nat.succ_pos _)
      rw [← hoffset]
    · refine (ih hl.tail h.tail (Nat.le_succ_of_le hbase) fun i hi => ?_).mono ?_
      · have := ho (i + 1) (by simpa using hi)
        rw [total_succ, ← Nat.add_assoc, Nat.add_right_comm] at this
        rw [this]
        push_cast
        omega
      · rintro _ _ ⟨rfl, rfl⟩
        refine ⟨?_, rfl⟩
        rw [List.length_cons, total_succ]
        push_cast
        omega

theorem fields_kept {used : Nat} (hl : Numbered a n ds) (h : AllFitted a base n ds.length)
    (hbase : base ≤ n)
    (ho : ∀ i, i < ds.length → a.fieldOffsetAt (n + i) = -((used + a.total n i : Nat) : Int)) :
    Yields (fields used ds) a fun size b => size = used + a.total n ds.length ∧ b = a := by
  induction ds generalizing n used with
  | nil => exact .pure ⟨by simp [total], rfl⟩
  | cons d ds ih =>
    refine placed_kept (n := n) (g := fun size => fields (used + size) ds) (hl 0 d rfl)
      (h 0 (Nat.succ_pos _)) hbase (fun s hs => ?_) ?_
    · have hoffset : s.fieldOffset = -(used : Int) := by
        simpa [fieldOffsetAt, hs, total] using ho 0 (Nat.succ_pos _)
      rw [← hoffset]
    · refine (ih hl.tail h.tail (Nat.le_succ_of_le hbase) fun i hi => ?_).mono ?_
      · have := ho (i + 1) (by simpa using hi)
        rw [total_succ, ← Nat.add_assoc, Nat.add_right_comm] at this
        rw [this, Nat.add_assoc]
      · rintro _ _ ⟨rfl, rfl⟩
        exact ⟨by rw [List.length_cons, total_succ, Nat.add_assoc], rfl⟩

theorem params_kept {ps : List Param} {offset : Int} (hl : Numbered a n (ps.map Param.decl))
    (h : AllFitted a 0 n ps.length)
    (ho : ∀ i, i < ps.length → a.offsetAt (n + i) = offset - (wordSize * i : Nat)) :
    Yields (params offset ps) a fun _ b => b = a := by
  induction ps generalizing n offset with
  | nil => exact .pure rfl
  | cons q ps ih =>
    refine placed_kept (n := n) (g := fun _ => params (offset - wordSize) ps) (hl 0 q.decl rfl)
      (h 0 (Nat.succ_pos _)) (Nat.zero_le n) (fun s hs => ?_) ?_
    · have hoffset : s.offset = offset := by
        simpa [offsetAt, hs] using ho 0 (Nat.succ_pos _)
      rw [← hoffset]
    · refine ih hl.tail h.tail fun i hi => ?_
      have := ho (i + 1) (by simpa using hi)
      rw [← Nat.add_assoc, Nat.add_right_comm] at this
      rw [this, Nat.mul_succ]
      push_cast
      omega

end Layout

section

variable {p : Program} {b : Annotations} {env : List Decl} {n : Nat} (hr : Resolved p b)

include hr

theorem Resolved.numbered {g : Bool} {ds : List VarDecl} (h : VarsBound env b g n ds) :
    Layout.Numbered b n ds := fun _ _ hi => hr.linked? (h.get hi).1

namespace Layout

theorem structDecl_kept {d : StructDecl} (hb : DeclBound b env n (.struct d))
    (hp : b.Placed n (.struct d)) : Yields (structDecl d) b fun _ c => c = b := by
  obtain ⟨hfields, hlink, s, -, hs, -⟩ := hb
  have ho : ∀ i, i < d.fields.length →
      b.fieldOffsetAt (n + i) = -((0 + b.total n i : Nat) : Int) := fun i hi => by
    rw [Nat.zero_add]
    exact hp.offset i hi
  refine .bind (fields_kept (hr.numbered hfields) hp.fitted (Nat.le_refl n) ho) ?_
  rintro _ c ⟨rfl, rfl⟩
  refine .bind (resolved_yields (hr.linked? hlink)) ?_
  rintro _ _ ⟨rfl, rfl⟩
  refine update_kept hs ?_
  have hsize : s.size = 0 + c.total n d.fields.length := by simpa [sizeAt, hs] using hp.size
  rw [← hsize]

omit hr in
theorem setSpaces_eq_self {s : Symbol} {info : FnInfo} (h : s.fnInfo? = some info) :
    setSpaces info.formalSpace info.localSpace s = s := by
  unfold Symbol.fnInfo? at h
  split at h
  next i hk =>
    cases h
    rw [setSpaces, hk]
    simp [← hk]
  next => cases h

theorem fnDecl_kept {f : FnDecl} (hb : DeclBound b env n (.fn f)) (hp : b.Placed n (.fn f)) :
    Yields (fnDecl f) b fun _ c => c = b := by
  obtain ⟨hlink, hparams, hbody⟩ := hb
  refine .bind (params_kept (n := n + 1) (hr.numbered hparams) hp.params fun i hi => ?_) ?_
  · rw [Int.zero_sub]
    exact hp.paramOffset i hi
  rintro _ b' hb'
  subst b'
  have hinner : ∀ start : Int, start = -((wordSize * f.params.length + savedSpace : Nat) : Int) →
      Yields (body start f.body) b fun stop c =>
        stop = start - b.total (n + 1 + f.params.length) f.body.allDecls.length ∧ c = b := by
    rintro _ rfl
    rw [body_eq_locals]
    refine locals_kept (hr.numbered hbody.vars) hp.locals (by omega) fun i hi => ?_
    rw [hp.localOffset i hi]
    push_cast
    omega
  refine .bind (hinner _ rfl) ?_
  rintro _ c ⟨rfl, rfl⟩
  refine .bind (resolved_yields (hr.linked? hlink)) ?_
  rintro _ _ ⟨rfl, rfl⟩
  obtain ⟨s, info, hs, hinfo, hformal, hlocal⟩ := hp.info
  refine update_kept hs ?_
  have hspace : ∀ start : Int, (start - (start - c.total (n + 1 + f.params.length)
      f.body.allDecls.length)).toNat = info.localSpace := fun start => by omega
  rw [hspace, ← hformal]
  exact setSpaces_eq_self hinfo

theorem decl_kept {d : Decl} (hb : DeclBound b env n d) (hp : b.Placed n d) :
    Yields (decl d) b fun _ c => c = b := by
  cases d with
  | var d =>
    refine .bind (sized_kept (hr.linked? hb.1) hp (Nat.le_refl n)) ?_
    rintro _ _ ⟨-, rfl⟩
    exact .pure rfl
  | struct d => exact structDecl_kept hr hb hp
  | fn f => exact fnDecl_kept hr hb hp

theorem decls_kept {ds : List Decl} (hb : DeclsBound b env n ds) (hp : b.AllPlaced n ds) :
    Yields (decls ds) b fun _ c => c = b := by
  induction ds generalizing env n with
  | nil => exact .pure rfl
  | cons d ds ih =>
    refine .bind (decl_kept hr hb.1 hp.1) ?_
    rintro _ _ rfl
    exact ih hb.2 hp.2

end Layout

end

/-- **Layout that is run again changes nothing.** -/
theorem Ready.placeSymbols_eq {p : Program} {b : Annotations} (hr : Ready p b) :
    placeSymbols p b = .ok b := by
  obtain ⟨_, c, hrun, rfl⟩ := Layout.decls_kept hr.resolved hr.resolved.bound hr.placed
  rw [placeSymbols, hrun]

/-! ## What the notes held before -/

/-- Layout has written the same numbers into both. -/
structure Annotations.SamePlaces (p : Program) (b c : Annotations) : Prop where
  structs : ∀ sd, Decl.struct sd ∈ p.decls →
    (c.symbolOf? sd.name.id).map Symbol.size = (b.symbolOf? sd.name.id).map Symbol.size
  sizes : ∀ d ∈ p.variables,
    (c.symbolOf? d.name.id).map Symbol.size = (b.symbolOf? d.name.id).map Symbol.size
  fields : ∀ sd, Decl.struct sd ∈ p.decls → ∀ x ∈ sd.fields,
    (c.symbolOf? x.name.id).map Symbol.fieldOffset = (b.symbolOf? x.name.id).map Symbol.fieldOffset
  offsets : ∀ f, Decl.fn f ∈ p.decls → ∀ d ∈ f.variables,
    (c.symbolOf? d.name.id).map Symbol.offset = (b.symbolOf? d.name.id).map Symbol.offset
  spaces : ∀ f, Decl.fn f ∈ p.decls →
    ((c.symbolOf? f.name.id).bind Symbol.fnInfo?).map (fun i => (i.formalSpace, i.localSpace)) =
      ((b.symbolOf? f.name.id).bind Symbol.fnInfo?).map fun i => (i.formalSpace, i.localSpace)

section

variable {p : Program} {b c : Annotations}

/-- A field lies behind the bytes of those before it. -/
theorem Ready.fieldOffset (hr : Ready p b) {sd : StructDecl} (hsd : Decl.struct sd ∈ p.decls)
    {i : Nat} {x : VarDecl} (hi : sd.fields[i]? = some x) :
    (b.symbolOf? x.name.id).map Symbol.fieldOffset =
      some (-((((sd.fields.take i).map p.bytes).sum : Nat) : Int)) := by
  obtain ⟨env, n, ⟨-, hl, -⟩, -⟩ := hr.decl hsd
  obtain ⟨m, -, hat⟩ := Housed.of_struct hr hsd hl
  obtain ⟨s, hs, hs', -⟩ := (hat.fields hi).symbolOf? hr.resolved
  have hlt := (List.getElem?_eq_some_iff.1 hi).1
  have hoffset := hat.placed.offset i hlt
  rw [total_eq_sum (g := p.bytes) (fun i x hi => (hat.fields hi).sizeAt_eq hr) (Nat.le_of_lt hlt),
    fieldOffsetAt, hs', Option.map_some, Option.getD_some] at hoffset
  rw [hs, Option.map_some, hoffset]

theorem Ready.samePlaces (hb : Ready p b) (hc : Ready p c) : b.SamePlaces p c where
  structs sd hsd := by
    obtain ⟨s, hs, hsize⟩ := hb.flat.definition sd hsd
    obtain ⟨t, ht, hsize'⟩ := hc.flat.definition sd hsd
    rw [hs, ht, Option.map_some, Option.map_some, hsize, hsize']
  sizes d hd := by
    obtain ⟨s, hs, hsize⟩ := hb.flat.bytes d hd
    obtain ⟨t, ht, hsize'⟩ := hc.flat.bytes d hd
    rw [hs, ht, Option.map_some, Option.map_some, hsize, hsize']
  fields sd hsd x hx := by
    obtain ⟨i, hi⟩ := List.getElem?_of_mem hx
    rw [hb.fieldOffset hsd hi, hc.fieldOffset hsd hi]
  offsets f hf d hd := by
    obtain hd | hd := List.mem_append.1 hd
    · obtain ⟨q, hq, rfl⟩ := List.mem_map.1 hd
      obtain ⟨i, hi⟩ := List.getElem?_of_mem hq
      obtain ⟨s, hs, -, ho⟩ := (hb.tiles hf).param i q hi
      obtain ⟨t, ht, -, ho'⟩ := (hc.tiles hf).param i q hi
      rw [Param.decl, hs, ht, Option.map_some, Option.map_some, ho, ho']
    · obtain ⟨j, hj⟩ := List.getElem?_of_mem hd
      obtain ⟨s, hs, -, ho⟩ := (hb.tiles hf).inner j d hj
      obtain ⟨t, ht, -, ho'⟩ := (hc.tiles hf).inner j d hj
      rw [hs, ht, Option.map_some, Option.map_some, ho, ho']
  spaces f hf := by
    obtain ⟨s, info, hs, hinfo, hformal, hlocal⟩ := (hb.tiles hf).spaces
    obtain ⟨t, info', ht, hinfo', hformal', hlocal'⟩ := (hc.tiles hf).spaces
    simp only [hs, ht, Option.bind_some, hinfo, hinfo', Option.map_some, hformal, hformal',
      hlocal, hlocal']

end

/-- **Frames are full**: the parameters, the saved registers and the local variables of a function
tile its frame. Layout that is run again changes nothing, and it writes the same numbers whatever
numbers the notes held before. -/
theorem placeSymbols_tiles {p : Program} {a : Annotations} (h : Faultless p a) :
    ∃ b, placeSymbols p a = .ok b ∧ (∀ f, Decl.fn f ∈ p.decls → b.Tiles p f) ∧
      placeSymbols p b = .ok b ∧
      ∀ a', a.Shifts a' 0 a.symbols.size →
        ∃ b', placeSymbols p a' = .ok b' ∧ b.SamePlaces p b' := by
  obtain ⟨b, hplace, hb⟩ := h.place (.refl a _ _)
  refine ⟨b, hplace, fun f hf => hb.tiles hf, hb.placeSymbols_eq, fun a' hs => ?_⟩
  obtain ⟨b', hplace', hb'⟩ := h.place hs
  exact ⟨b', hplace', hb.samePlaces hb'⟩

/-- A function with one parameter, and with a struct of two words among four variables in its
blocks. -/
def blocksInFunction (p : Program) : Bool :=
  match p.decls with
  | [.struct ⟨name, [⟨.scalar _, _, _⟩, ⟨.scalar _, _, _⟩], _⟩, .fn f, .fn _] =>
    match f.params, f.body.allDecls with
    | [_], [⟨.scalar _, _, _⟩, ⟨.struct i, _, _⟩, ⟨.scalar _, _, _⟩, ⟨.scalar _, _, _⟩] =>
      i.name == name.name
    | _, _ => false
  | _ => false

/-- A frame of eight words, five of them for the variables of four blocks. -/
theorem placeSymbols_tiles_blocks :
    ∃ p a b f z s, Faultless p a ∧ placeSymbols p a = .ok b ∧ Decl.fn f ∈ p.decls ∧
      placeSymbols p b = .ok b ∧ f.body.allDecls[2]? = some z ∧
      b.symbolOf? z.name.id = some s ∧ s.offset = -24 ∧
      b.frameWords f = [0, -4, -8, -12, -16, -20, -24, -28] := by
  obtain ⟨p, b, _, _, han, -, -, htest, -⟩ := exists_of_compiled
    "struct S { int x; bool y; }; void f(int a) { int i; while (a < 3) { struct S s; if (true) { bool z; } else { int w; } } } void main() { }"
    blocksInFunction (fun _ => true) (by decide +kernel) (by decide +kernel)
  obtain ⟨a, hfaultless, hplace⟩ := han.faultless
  obtain ⟨b', hplace', htiles, hagain, -⟩ := placeSymbols_tiles hfaultless
  obtain rfl := Except.ok.inj (hplace'.symm.trans hplace)
  unfold blocksInFunction at htest
  split at htest
  next name _ _ _ _ _ _ _ f _ hdecls =>
    split at htest
    next i _ _ _ _ _ _ _ _ hparams hlocals =>
      have hf : Decl.fn f ∈ p.decls := by simp [hdecls]
      have hname := beq_iff_eq.1 htest
      have hwords := (htiles f hf).words
      obtain ⟨s, hs, -, ho⟩ := (htiles f hf).inner 2 _ (by rw [hlocals]; rfl)
      have hbytes : (p.leaves (.struct i)).length = 2 := by
        simp [Program.leaves, hdecls, TypeSpec.leaves, hname]
      refine ⟨p, a, b', f, _, s, hfaultless, hplace', hf, hagain, by rw [hlocals]; rfl, hs, ?_, ?_⟩
      · simpa [hparams, hlocals, Program.bytes, hbytes, wordSize, savedSpace] using ho
      · rw [hwords]
        simp [hparams, hlocals, Program.bytes, hbytes, wordSize, savedSpace, wordsBelow,
          List.range_succ]
    next => cases htest
  next => cases htest

end FlatC
