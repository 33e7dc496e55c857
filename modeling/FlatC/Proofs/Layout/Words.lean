import FlatC.Layout.Words
import FlatC.Proofs.Binding.Steps
import FlatC.Proofs.Layout.Tiling
import FlatC.Proofs.Scoping.Links
import FlatC.Proofs.Session.Reprinted
import FlatC.Proofs.Typing.Movement

/-!
# Layout in machine words, and what it should compute

What `placeWords` writes down are words (`placeWords_inWords`). They are the numbers that are meant
as long as no struct and no frame takes 2 GiB (`placeWords_exact`). Nothing else keeps a program
below that bound: a struct can hold another one several times, so the size of a struct can be
exponential in the length of the text, and layout then stops or writes down other numbers.
-/

namespace FlatC

/-- The numbers of a symbol are words. -/
structure Symbol.InWords (s : Symbol) : Prop where
  size : UnsignedWord s.size
  offset : SignedWord s.offset
  fieldOffset : SignedWord s.fieldOffset
  spaces : ∀ info, s.fnInfo? = some info →
    UnsignedWord info.formalSpace ∧ UnsignedWord info.localSpace

theorem Symbol.Fresh.inWords {s : Symbol} (h : s.Fresh) : s.InWords where
  size := Nat.lt_of_le_of_lt h.size (by decide)
  offset := h.offset ▸ by decide
  fieldOffset := h.fieldOffset ▸ by decide
  spaces info hinfo := by
    rw [(h.spaces info hinfo).1, (h.spaces info hinfo).2]
    decide

/-- The numbers of all symbols are words. -/
def Annotations.InWords (a : Annotations) : Prop :=
  ∀ (k : SymbolId) (s : Symbol), a.symbol? k = some s → s.InWords

theorem Annotations.InWords.update {a : Annotations} {id : SymbolId} {f : Symbol → Symbol}
    (h : a.InWords) (hf : ∀ s : Symbol, s.InWords → (f s).InWords) : (a.update id f).InWords := by
  intro k s hs
  rw [symbol?_update] at hs
  split at hs
  · obtain ⟨s', hs', rfl⟩ := Option.map_eq_some_iff.1 hs
    exact hf s' (h k s' hs')
  · exact h k s hs

namespace Layout.Words

open Annotations

/-! ## What is written down are words -/

theorem unsigned_word (i : Int) : UnsignedWord (unsigned i) := by
  unfold unsigned UnsignedWord
  omega

theorem symbol_preserves (id : SymbolId) : Preserves InWords (symbol id) Symbol.InWords := by
  refine .bind .get fun a ha => ?_
  split
  next s hs => exact .pure (ha id s hs)
  next => exact .throw

theorem update_preserves {id : SymbolId} {f : Symbol → Symbol}
    (hf : ∀ s : Symbol, s.InWords → (f s).InWords) :
    Preserves InWords (update id f) fun _ => True :=
  .bind (symbol_preserves id) fun _ _ => .modify fun _ ha => ha.update hf

theorem resolved_preserves (i : Ident) : Preserves InWords (resolved i) fun _ => True := by
  refine .bind .get fun a _ => ?_
  split
  · exact .pure trivial
  · exact .throw

theorem sized_preserves (d : VarDecl) : Preserves InWords (sized d) fun r => UnsignedWord r.2 := by
  have hsize : ∀ id, Preserves InWords (sizeOf id) UnsignedWord := by
    intro id
    refine .bind (symbol_preserves id) fun s _ => ?_
    split
    · exact .bind (symbol_preserves _) fun s hs => .pure hs.size
    · exact .pure (by decide)
  refine .bind (resolved_preserves d.name) fun id _ => .bind (hsize id) fun size hs => ?_
  refine .bind (update_preserves fun s h => ?_) fun _ _ => .pure hs
  exact ⟨hs, h.offset, h.fieldOffset, h.spaces⟩

theorem unsignedResult_preserves {op : WordOp} {n : Nat} :
    Preserves InWords (unsignedResult op n) UnsignedWord := by
  unfold unsignedResult
  split
  next h => exact .pure h
  next => exact .throw

theorem signedResult_preserves {op : WordOp} {i : Int} :
    Preserves InWords (signedResult op i) SignedWord := by
  unfold signedResult
  split
  next h => exact .pure h
  next => exact .throw

theorem fields_preserves (ds : List VarDecl) {used : Nat} (hused : UnsignedWord used) :
    Preserves InWords (fields used ds) UnsignedWord := by
  induction ds generalizing used with
  | nil => exact .pure hused
  | cons d ds ih =>
    refine .bind (sized_preserves d) fun r _ => ?_
    refine .bind signedResult_preserves fun offset hoffset => ?_
    refine .bind (update_preserves fun s h => ⟨h.size, h.offset, hoffset, h.spaces⟩) fun _ _ => ?_
    exact .bind unsignedResult_preserves fun _ hn => ih hn

theorem params_preserves (ps : List Param) {offset : Int} (hoffset : SignedWord offset) :
    Preserves InWords (params offset ps) fun _ => True := by
  induction ps generalizing offset with
  | nil => exact .pure trivial
  | cons p ps ih =>
    refine .bind (sized_preserves p.decl) fun r _ => ?_
    refine .bind (update_preserves fun s h => ⟨h.size, hoffset, h.fieldOffset, h.spaces⟩)
      fun _ _ => ?_
    exact .bind signedResult_preserves fun _ hn => ih hn

theorem locals_preserves (ds : List VarDecl) {offset : Int} (hoffset : SignedWord offset) :
    Preserves InWords (locals offset ds) SignedWord := by
  induction ds generalizing offset with
  | nil => exact .pure hoffset
  | cons d ds ih =>
    refine .bind (sized_preserves d) fun r _ => ?_
    refine .bind (update_preserves fun s h => ⟨h.size, hoffset, h.fieldOffset, h.spaces⟩)
      fun _ _ => ?_
    exact .bind signedResult_preserves fun _ hn => ih hn

/-! The blocks of a function are placed as if all were one. -/

theorem locals_append (ds es : List VarDecl) (offset : Int) :
    locals offset (ds ++ es) = locals offset ds >>= fun offset => locals offset es := by
  induction ds generalizing offset with
  | nil => simp [locals]
  | cons d ds ih => simp [locals, ih]

mutual

theorem body_eq_locals : ∀ (b : Body) (offset : Int), body offset b = locals offset b.allDecls
  | .block decls ss, offset => by
    simp only [body, Body.allDecls, locals_append, stmts_eq_locals ss]

theorem stmt_eq_locals : ∀ (s : Stmt) (offset : Int), stmt offset s = locals offset s.allDecls
  | .ifThen _ _ b, offset | .whileLoop _ _ b, offset => by
    simp only [stmt, Stmt.allDecls, body_eq_locals b]
  | .ifElse _ _ b b', offset => by
    simp only [stmt, Stmt.allDecls, locals_append, body_eq_locals b, body_eq_locals b']
  | .assign .., _ | .increment .., _ | .decrement .., _ | .read .., _ | .write .., _
  | .call .., _ | .ret .., _ => by simp only [stmt, Stmt.allDecls, locals]

theorem stmts_eq_locals : ∀ (ss : List Stmt) (offset : Int),
    stmts offset ss = locals offset (Stmt.manyDecls ss)
  | [], offset => by simp only [stmts, Stmt.manyDecls, locals]
  | s :: ss, offset => by
    simp only [stmts, Stmt.manyDecls, locals_append, stmt_eq_locals s, stmts_eq_locals ss]

end

theorem setSpaces_inWords {s : Symbol} {formalSpace localSpace : Nat} (h : s.InWords)
    (hf : UnsignedWord formalSpace) (hl : UnsignedWord localSpace) :
    (setSpaces formalSpace localSpace s).InWords := by
  unfold setSpaces
  split
  · refine ⟨h.size, h.offset, h.fieldOffset, ?_⟩
    rintro _ ⟨⟩
    exact ⟨hf, hl⟩
  · exact h

theorem decl_preserves (d : Decl) : Preserves InWords (decl d) fun _ => True := by
  cases d with
  | var d => exact .bind (sized_preserves d) fun _ _ => .pure trivial
  | struct d =>
    refine .bind (fields_preserves d.fields (by decide)) fun size hsize => ?_
    refine .bind (resolved_preserves d.name) fun id _ => ?_
    exact update_preserves fun s h => ⟨hsize, h.offset, h.fieldOffset, h.spaces⟩
  | fn d =>
    refine .bind (params_preserves d.params (by decide)) fun _ _ => ?_
    refine .bind unsignedResult_preserves fun formalSpace hformal => ?_
    refine .bind signedResult_preserves fun _ _ => ?_
    refine .bind signedResult_preserves fun start hstart => ?_
    rw [body_eq_locals]
    refine .bind (locals_preserves _ hstart) fun _ _ => .bind signedResult_preserves fun _ _ => ?_
    refine .bind (resolved_preserves d.name) fun id _ => update_preserves fun s h => ?_
    exact setSpaces_inWords h hformal (unsigned_word _)

theorem decls_preserves (ds : List Decl) : Preserves InWords (decls ds) fun _ => True := by
  induction ds with
  | nil => exact .pure trivial
  | cons d ds ih => exact .bind (decl_preserves d) fun _ _ => ih

end Layout.Words

/-- Layout in words leaves words behind. -/
theorem placeWords_inWords {p : Program} {a b : Annotations} (ha : a.InWords)
    (h : placeWords p a = .ok b) : b.InWords := by
  unfold placeWords at h
  split at h
  next u b' hrun =>
    obtain rfl := Except.ok.inj h
    exact (Layout.Words.decls_preserves p.decls a u b' ha hrun).1
  next => cases h

/-! ## Small programs -/

namespace Layout

open Annotations

variable {a b : Annotations}

/-- The bound below which a number is the same with a sign and without one. -/
def bound : Nat := 2 ^ 31

namespace Words

theorem signed_of_lt {n : Nat} (h : n < bound) : signed n = n := by
  unfold signed bound at *
  rw [Int.bmod_eq_of_le] <;> omega

theorem unsigned_natCast {n : Nat} (h : n < bound) : unsigned n = n := by
  unfold unsigned bound at *
  omega

theorem unsignedResult_run {op : WordOp} {n : Nat} (h : UnsignedWord n) :
    (unsignedResult op n).run a = .ok (n, a) := by
  rw [unsignedResult, if_pos h]
  rfl

theorem signedResult_run {op : WordOp} {i : Int} (h : SignedWord i) :
    (signedResult op i).run a = .ok (i, a) := by
  rw [signedResult, if_pos h]
  rfl

end Words

/-- Fields take no bytes away. -/
theorem fields_le (ds : List VarDecl) {used total : Nat} {a : Annotations}
    (h : (fields used ds).run a = .ok (total, b)) : used ≤ total := by
  induction ds generalizing used a with
  | nil => exact Nat.le_of_eq (run_pure_ok.1 h).1
  | cons d ds ih =>
    obtain ⟨r, a1, -, h⟩ := run_bind_ok.1 h
    obtain ⟨u, a2, -, h⟩ := run_bind_ok.1 h
    exact Nat.le_trans (Nat.le_add_right used r.2) (ih h)

theorem locals_le (ds : List VarDecl) {offset stop : Int} {a : Annotations}
    (h : (locals offset ds).run a = .ok (stop, b)) : stop ≤ offset := by
  induction ds generalizing offset a with
  | nil => exact Int.le_of_eq (run_pure_ok.1 h).1.symm
  | cons d ds ih =>
    obtain ⟨r, a1, -, h⟩ := run_bind_ok.1 h
    obtain ⟨u, a2, -, h⟩ := run_bind_ok.1 h
    have := ih h
    omega

theorem fields_words (ds : List VarDecl) {used total : Nat} {a : Annotations}
    (h : (fields used ds).run a = .ok (total, b)) (htotal : total < bound) :
    (Words.fields used ds).run a = .ok (total, b) := by
  induction ds generalizing used a with
  | nil => exact h
  | cons d ds ih =>
    obtain ⟨r, a1, hsized, h⟩ := run_bind_ok.1 h
    obtain ⟨u, a2, hupdate, h⟩ := run_bind_ok.1 h
    have hle := fields_le ds h
    have hused : Words.signed used = used := Words.signed_of_lt (by omega)
    have hneg : SignedWord (-(used : Int)) := by
      unfold SignedWord bound at *
      omega
    have hadd : UnsignedWord (used + r.2) := by
      unfold UnsignedWord bound at *
      omega
    refine run_bind_ok.2 ⟨r, a1, hsized, ?_⟩
    simp only [hused]
    refine run_bind_ok.2 ⟨_, a1, Words.signedResult_run hneg, ?_⟩
    refine run_bind_ok.2 ⟨u, a2, hupdate, ?_⟩
    exact run_bind_ok.2 ⟨_, a2, Words.unsignedResult_run hadd, ih h⟩

theorem params_words (ps : List Param) {offset : Int} {a : Annotations}
    (h : (params offset ps).run a = .ok ((), b)) (hoffset : offset ≤ 0)
    (hend : -2 ^ 31 ≤ offset - (wordSize * ps.length : Nat)) :
    (Words.params offset ps).run a = .ok ((), b) := by
  induction ps generalizing offset a with
  | nil => exact h
  | cons p ps ih =>
    obtain ⟨r, a1, hsized, h⟩ := run_bind_ok.1 h
    obtain ⟨u, a2, hupdate, h⟩ := run_bind_ok.1 h
    simp only [List.length_cons, wordSize] at hend
    have hsub : SignedWord (offset - wordSize) := by
      unfold SignedWord
      simp only [wordSize]
      omega
    refine run_bind_ok.2 ⟨r, a1, hsized, run_bind_ok.2 ⟨u, a2, hupdate, ?_⟩⟩
    refine run_bind_ok.2 ⟨_, a2, Words.signedResult_run hsub, ih h ?_ ?_⟩
    · simp only [wordSize]
      omega
    · simp only [wordSize]
      omega

theorem locals_words (ds : List VarDecl) {offset stop : Int} {a : Annotations}
    (h : (locals offset ds).run a = .ok (stop, b)) (hoffset : offset < 0) (hstop : -2 ^ 31 ≤ stop) :
    (Words.locals offset ds).run a = .ok (stop, b) := by
  induction ds generalizing offset a with
  | nil => exact h
  | cons d ds ih =>
    obtain ⟨r, a1, hsized, h⟩ := run_bind_ok.1 h
    obtain ⟨u, a2, hupdate, h⟩ := run_bind_ok.1 h
    have hle := locals_le ds h
    have hsize : Words.signed r.2 = r.2 := Words.signed_of_lt (by unfold bound; omega)
    have hsub : SignedWord (offset - r.2) := by
      unfold SignedWord
      omega
    refine run_bind_ok.2 ⟨r, a1, hsized, run_bind_ok.2 ⟨u, a2, hupdate, ?_⟩⟩
    rw [hsize]
    exact run_bind_ok.2 ⟨_, a2, Words.signedResult_run hsub, ih h (by omega)⟩

theorem update_run {id : SymbolId} {f : Symbol → Symbol} {u : Unit}
    (h : (update id f).run a = .ok (u, b)) : ∃ s, a.symbol? id = some s ∧ b = a.update id f := by
  obtain ⟨s, a1, hsymbol, h⟩ := run_bind_ok.1 h
  obtain ⟨-, rfl⟩ := Prod.mk.inj (Except.ok.inj h)
  obtain ⟨_, _, hget, hs⟩ := run_bind_ok.1 hsymbol
  obtain ⟨rfl, rfl⟩ := Prod.mk.inj (Except.ok.inj hget)
  cases hk : a.symbol? id with
  | none =>
    simp only [hk] at hs
    cases hs
  | some s' =>
    simp only [hk] at hs
    obtain ⟨-, rfl⟩ := run_pure_ok.1 hs
    exact ⟨s', rfl, rfl⟩

theorem resolved_run {i : Ident} {k : SymbolId} (h : (resolved i).run a = .ok (k, b)) :
    a.linked? i.id = some k ∧ a = b := by
  obtain ⟨_, _, hget, hl⟩ := run_bind_ok.1 h
  obtain ⟨rfl, rfl⟩ := Prod.mk.inj (Except.ok.inj hget)
  cases hk : a.linked? i.id with
  | none =>
    simp only [hk] at hl
    cases hl
  | some k' =>
    simp only [hk] at hl
    obtain ⟨rfl, rfl⟩ := run_pure_ok.1 hl
    exact ⟨rfl, rfl⟩

/-- The last thing a declaration does is to tell its own symbol something. -/
theorem symbolOf?_told {i : Ident} {f : Symbol → Symbol} {u : Unit}
    (h : (resolved i >>= fun id => update id f).run a = .ok (u, b)) :
    ∃ s, b.symbolOf? i.id = some (f s) := by
  obtain ⟨k, a1, hresolved, h⟩ := run_bind_ok.1 h
  obtain ⟨hk, rfl⟩ := resolved_run hresolved
  obtain ⟨s, hs, rfl⟩ := update_run h
  have hlinked : (a.update k f).linked? i.id = some k := hk
  refine ⟨s, ?_⟩
  rw [symbolOf?, hlinked, Option.bind_some, symbol?_update, if_pos rfl, hs, Option.map_some]

theorem spaces_of_told {formalSpace localSpace : Nat} {s : Symbol} {info : FnInfo}
    (h : (setSpaces formalSpace localSpace s).fnInfo? = some info) :
    info.formalSpace = formalSpace ∧ info.localSpace = localSpace := by
  cases hk : s.fnInfo? with
  | some i =>
    rw [fnInfo?_setSpaces hk] at h
    obtain rfl := Option.some.inj h
    exact ⟨rfl, rfl⟩
  | none =>
    have hmoved := (moved_setSpaces formalSpace localSpace s).isFunction
    simp [Symbol.isFunction, h, hk] at hmoved

end Layout

open Layout Annotations Binding

/-- No struct and no frame that a declaration declares takes `Layout.bound` bytes. -/
def Decl.Compact (b : Annotations) : Decl → Prop
  | .var _ => True
  | .struct d => ∀ s ∈ b.symbolOf? d.name.id, s.size < bound
  | .fn d => ∀ s ∈ b.symbolOf? d.name.id, ∀ info ∈ s.fnInfo?,
      info.formalSpace + savedSpace + info.localSpace < bound

instance (b : Annotations) : (d : Decl) → Decidable (d.Compact b)
  | .var _ => .isTrue trivial
  | .struct d => inferInstanceAs (Decidable (∀ s ∈ b.symbolOf? d.name.id, s.size < bound))
  | .fn d => inferInstanceAs (Decidable (∀ s ∈ b.symbolOf? d.name.id, ∀ info ∈ s.fnInfo?,
      info.formalSpace + savedSpace + info.localSpace < bound))

namespace Layout

variable {p : Program} {a b c : Annotations} {env : List Decl} {n : Nat}

theorem structDecl_words {d : StructDecl} (h : (structDecl d).run a = .ok ((), b))
    (hc : (Decl.struct d).Compact b) : (Words.structDecl d).run a = .ok ((), b) := by
  obtain ⟨total, a1, hfields, h⟩ := run_bind_ok.1 h
  obtain ⟨s, hs⟩ := symbolOf?_told h
  exact run_bind_ok.2 ⟨total, a1, fields_words d.fields hfields (hc _ hs), h⟩

theorem fnDecl_words {d : FnDecl} (h : (fnDecl d).run a = .ok ((), b))
    (hc : (Decl.fn d).Compact b)
    (hfn : ∃ s info, b.symbolOf? d.name.id = some s ∧ s.fnInfo? = some info) :
    (Words.fnDecl d).run a = .ok ((), b) := by
  obtain ⟨_, a1, hparams, h⟩ := run_bind_ok.1 h
  obtain ⟨stop, a2, hbody, h⟩ := run_bind_ok.1 h
  rw [body_eq_locals] at hbody
  have hle := locals_le _ hbody
  obtain ⟨s, hs⟩ := symbolOf?_told h
  obtain ⟨_, info, hs', hinfo⟩ := hfn
  obtain rfl := Option.some.inj (hs.symm.trans hs')
  obtain ⟨hformal, hlocal⟩ := spaces_of_told hinfo
  have hspace := hc _ hs info hinfo
  rw [hformal, hlocal] at hspace
  generalize hF : wordSize * d.params.length = formalSpace at *
  have hcount : wordSize * (d.params.length % 0x100000000) = formalSpace := by
    simp only [bound, wordSize] at hspace hF ⊢
    omega
  have hsum : Words.signed formalSpace + savedSpace = (formalSpace + savedSpace : Nat) := by
    rw [Words.signed_of_lt (by omega)]
    omega
  have hlocal : Words.unsigned (-(formalSpace + savedSpace : Nat) - stop) =
      (-((formalSpace + savedSpace : Nat) : Int) - stop).toNat := by
    rw [← Words.unsigned_natCast (show (-((formalSpace + savedSpace : Nat) : Int) - stop).toNat <
      bound by omega), Int.toNat_of_nonneg (by omega)]
  simp only [bound] at hspace
  have hsaved : 0 < savedSpace := by decide
  refine run_bind_ok.2 ⟨(), a1, params_words d.params hparams (Int.le_refl 0) (by omega), ?_⟩
  rw [hcount]
  refine run_bind_ok.2 ⟨_, a1, Words.unsignedResult_run ?_, ?_⟩
  · unfold UnsignedWord
    omega
  rw [hsum]
  refine run_bind_ok.2 ⟨_, a1, Words.signedResult_run ?_, ?_⟩
  · unfold SignedWord
    omega
  refine run_bind_ok.2 ⟨_, a1, Words.signedResult_run ?_, ?_⟩
  · unfold SignedWord
    omega
  rw [Words.body_eq_locals]
  refine run_bind_ok.2 ⟨stop, a2, locals_words _ hbody (by omega) (by omega), ?_⟩
  refine run_bind_ok.2 ⟨_, a2, Words.signedResult_run ?_, ?_⟩
  · unfold SignedWord
    omega
  rw [hlocal]
  exact h

/-- Later declarations leave the symbol of a name alone. -/
theorem symbolOf?_kept {i : NodeId} {k l m : Nat} (hs : a.Shifts b l m) (hk : a.linked? i = some k)
    (hlt : k < l) : b.symbolOf? i = a.symbolOf? i := by
  rw [symbolOf?, symbolOf?, hs.linked?, hk, Option.bind_some, Option.bind_some]
  exact hs.kept (.inl hlt)

theorem decl_words {d : Decl} {l : Nat} (h : Resolved p a) (hb : DeclBound a env n d)
    (hbelow : StructsBelow a env n)
    (hfn : ∀ f, d = .fn f → ∃ s, a.symbol? n = some s ∧ f.Described s)
    (hrun : (decl d).run a = .ok ((), b)) (hs : b.Shifts c (n + d.symbolCount) l)
    (hc : d.Compact c) : (Words.decl d).run a = .ok ((), b) := by
  obtain ⟨hsh, hplaced⟩ := (decl_yields h hb hbelow hfn).of_run hrun
  have hlinked : ∀ {i k}, a.Links i k → b.linked? i = some k := fun hl =>
    (hsh.linked? _).trans (h.linked? hl)
  cases d with
  | var d => exact hrun
  | struct d =>
    obtain ⟨-, hl, -⟩ := hb
    refine structDecl_words hrun fun s hsym => hc s ?_
    exact (symbolOf?_kept hs (hlinked hl) (Nat.lt_succ_self _)).trans hsym
  | fn d =>
    obtain ⟨hl, -⟩ := hb
    obtain ⟨s, info, hsym, hinfo, -⟩ := hplaced.info
    have hlt : n < n + (Decl.fn d).symbolCount := by
      simp only [Decl.symbolCount]
      omega
    have hsymbol : b.symbolOf? d.name.id = some s := by
      rw [symbolOf?, hlinked hl, Option.bind_some, hsym]
    refine fnDecl_words hrun (fun s hsym => hc s ?_) ⟨s, info, hsymbol, hinfo⟩
    exact (symbolOf?_kept hs (hlinked hl) hlt).trans hsym

theorem decls_words (ds : List Decl) {a : Annotations} {env : List Decl} {n : Nat}
    (h : Resolved p a) (hb : Lasting (DeclsBound · env n ds) a) (hfns : FnsDescribed a n ds)
    (hbelow : StructsBelow a env n) (hrun : (decls ds).run a = .ok ((), c))
    (hc : ∀ d ∈ ds, d.Compact c) : (Words.decls ds).run a = .ok ((), c) := by
  induction ds generalizing a env n with
  | nil => exact hrun
  | cons d ds ih =>
    obtain ⟨_, b, hd, hds⟩ := run_bind_ok.1 hrun
    obtain ⟨hsh, -⟩ := (decl_yields h hb.here.1 hbelow hfns.1).of_run hd
    have hb' : Lasting (DeclsBound · (d :: env) (n + d.symbolCount) ds) b := fun c hc =>
      (hb c (hsh.keeps.trans hc)).2
    have hbelow' : StructsBelow b (d :: env) (n + d.symbolCount) :=
      (StructsBelow.cons h hb.here.1 hbelow).shift hsh
    obtain ⟨hsh', -⟩ :=
      (decls_yields ds (h.shift hsh) hb' (hfns.2.shift hsh) hbelow').of_run hds
    rw [List.forall_mem_cons] at hc
    refine run_bind_ok.2 ⟨(), b, ?_, ih (h.shift hsh) hb' (hfns.2.shift hsh) hbelow' hds hc.2⟩
    exact decl_words h hb.here.1 hbelow hfns.1 hd hsh' hc.1

end Layout

/-- Layout in words agrees with exact layout where no struct and no frame is large. -/
theorem placeWords_of_compact {p : Program} {a b : Annotations} (h : Resolved p a)
    (hplace : placeSymbols p a = .ok b) (hc : ∀ d ∈ p.decls, d.Compact b) :
    placeWords p a = .ok b := by
  unfold placeSymbols at hplace
  split at hplace
  next u b' hrun =>
    obtain rfl := Except.ok.inj hplace
    have hbelow : StructsBelow a [] 0 := fun _ _ hmem => by cases hmem
    have hwords := decls_words p.decls h h.lasting h.described hbelow hrun hc
    rw [placeWords, hwords]
  next => cases hplace

theorem inWords_of_check {p : Program} {a b : Annotations} {s s' : Session} {ok : Bool}
    (hbind : (s.bind p .empty).1 = .ok (ok, a)) (hcheck : (s'.check p a).1 = .ok (true, b)) :
    b.InWords := by
  obtain ⟨rs, hrun, -⟩ := Session.bindNames_of_bind hbind
  obtain ⟨-, rfl⟩ := Session.clean_of_check hcheck
  rw [Annotations.withTypes_eq]
  exact fun k sy hk => (bindNames_fresh hrun k sy hk).inWords

/-- **Layout in words is exact where no struct and no frame takes 2 GiB.** The program of a text
with which nothing is wrong has an exact layout; with that bound, layout in words stops nowhere and
gives just these numbers, which are words. -/
theorem placeWords_exact {source : String} {ts : Lexer.Tokens} {p : Program} {s s' : Session}
    {a b : Annotations} (hlex : tokenize source = .ok ts) (hparse : parse ts.lexemes = .ok p)
    (hbind : (s.bind p .empty).1 = .ok (true, a)) (hcheck : (s'.check p a).1 = .ok (true, b)) :
    ∃ c, placeSymbols p b = .ok c ∧
      ((∀ d ∈ p.decls, d.Compact c) → placeWords p b = .ok c ∧ c.InWords) := by
  obtain ⟨hr, -⟩ := resolved_of_bind hlex hparse hbind
  have hwords := inWords_of_check hbind hcheck
  obtain ⟨-, rfl⟩ := Session.clean_of_check hcheck
  have hr' : Resolved p (a.withTypes (Typing.program a p).types) := by
    rw [Annotations.withTypes_eq]
    exact hr.retype rfl rfl
  obtain ⟨c, hplace, -⟩ := placeSymbols_placed hr'
  refine ⟨c, hplace, fun hc => ?_⟩
  have hexact := placeWords_of_compact hr' hplace hc
  exact ⟨hexact, placeWords_inWords hwords hexact⟩

/-- A text that was seen to be checked and to be compact. -/
theorem exists_of_compact (source : String)
    (h : ((tokenize source).toOption.any fun ts => (parse ts.lexemes).toOption.any fun p =>
      ((Session.new "").bind p .empty).1.toOption.any fun r => r.1 &&
        ((Session.new "").check p r.2).1.toOption.any fun c => c.1 &&
          (placeSymbols p c.2).toOption.any fun e =>
            p.decls.all fun d => decide (d.Compact e)) = true) :
    ∃ ts p a b c, tokenize source = .ok ts ∧ parse ts.lexemes = .ok p ∧
      ((Session.new "").bind p .empty).1 = .ok (true, a) ∧
      ((Session.new "").check p a).1 = .ok (true, b) ∧ placeSymbols p b = .ok c ∧
      ∀ d ∈ p.decls, d.Compact c := by
  simp only [Option.any_eq_true, List.all_eq_true, Bool.and_eq_true, decide_eq_true_eq] at h
  obtain ⟨ts, hts, p, hp, ⟨ra, a⟩, ha, rfl, ⟨rb, b⟩, hb, rfl, c, hplace, hc⟩ := h
  exact ⟨ts, p, a, b, c, eq_ok_of_toOption hts, eq_ok_of_toOption hp, eq_ok_of_toOption ha,
    eq_ok_of_toOption hb, eq_ok_of_toOption hplace, hc⟩

/-- A struct inside a struct, as a local variable beside a parameter. -/
theorem placeWords_exact_nested :
    ∃ ts p a b c, tokenize "struct P \x7b int x; int y; \x7d; struct Q \x7b struct P a; int b; \x7d;
        void f(int n) \x7b struct Q q; q.a.y = n; \x7d void main() \x7b f(1); \x7d" = .ok ts ∧
      parse ts.lexemes = .ok p ∧ ((Session.new "").bind p .empty).1 = .ok (true, a) ∧
      ((Session.new "").check p a).1 = .ok (true, b) ∧ (∀ d ∈ p.decls, d.Compact c) ∧
      placeSymbols p b = .ok c ∧ placeWords p b = .ok c ∧ c.InWords := by
  obtain ⟨ts, p, a, b, c, hlex, hparse, hbind, hcheck, hplace, hc⟩ := exists_of_compact
    "struct P \x7b int x; int y; \x7d; struct Q \x7b struct P a; int b; \x7d;
        void f(int n) \x7b struct Q q; q.a.y = n; \x7d void main() \x7b f(1); \x7d"
    (by decide +kernel)
  obtain ⟨c', hplace', hexact⟩ := placeWords_exact hlex hparse hbind hcheck
  obtain rfl := Except.ok.inj (hplace.symm.trans hplace')
  exact ⟨ts, p, a, b, c, hlex, hparse, hbind, hcheck, hc, hplace, hexact hc⟩

/-- No stage finds an error in the program, and the symbol `k` has the offset `i` as a field. -/
def Program.hasOffset (p : Program) (k : SymbolId) (i : Int) : Bool :=
  (bindNames p .empty).toOption.any fun r => r.2.isEmpty &&
    decide ((checkTypes p r.1).1.toOption = some ()) && (checkTypes p r.1).2.2.isEmpty &&
      (placeSymbols p (checkTypes p r.1).2.1).toOption.any fun c =>
        (c.symbol? k).any fun s => decide (s.fieldOffset = i)

/-- The text of such a program is analyzed, with the same offset. -/
theorem exists_of_hasOffset {ts : List Token} {p : Program} {k : SymbolId} {i : Int}
    (hread : Grammar.ReadsProgram ts p) (hwf : Grammar.Every Token.Wf p.tokens)
    (h : p.hasOffset k i = true) :
    ∃ q c s, Analyzed (p.print Ident.name) q c ∧ c.symbol? k = some s ∧ s.fieldOffset = i := by
  simp only [Program.hasOffset, Option.any_eq_true, Bool.and_eq_true, decide_eq_true_eq] at h
  obtain ⟨⟨a, rs⟩, ha, ⟨⟨hrs, hok⟩, hclean⟩, c, hc, s, hs, hi⟩ := h
  obtain rfl := List.isEmpty_iff.1 hrs
  have hcheck : checkTypes p a = (.ok (), (checkTypes p a).2.1, []) :=
    Prod.ext (eq_ok_of_toOption hok) (Prod.ext rfl (List.isEmpty_iff.1 hclean))
  obtain ⟨q, d, hanalyzed, hshape⟩ :=
    analyzed_print hread hwf (eq_ok_of_toOption ha) hcheck (eq_ok_of_toOption hc)
  have hsymbol := congrArg (fun e => e.symbol? k) hshape
  simp only [symbol?_shape, hs, Option.map_some] at hsymbol
  obtain ⟨s', hs', hshape'⟩ := Option.map_eq_some_iff.1 hsymbol
  have hfield : s'.fieldOffset = s.fieldOffset := by
    show s'.shape.fieldOffset = s.shape.fieldOffset
    rw [hshape']
  exact ⟨q, d, s', hanalyzed, hs', hfield.trans hi⟩

/-! ## A program that is too large

The text of these tokens is short, but each of the structs `B` to `N` holds the one before it four
times, so `N` takes 2^30 bytes.
-/

namespace Tower

def structTokens (name : String) (fields : List (List Token × String)) : List Token :=
  .word .struct :: .ident name :: .mark .leftBrace ::
    fields.flatMap (fun f => f.1 ++ [Token.ident f.2, Token.mark .semicolon]) ++
    [Token.mark .rightBrace, Token.mark .semicolon]

/-- The type of the instances of a struct. -/
def typeTokens (name : String) : List Token := [.word .struct, .ident name]

def fourfold (name : String) (type : List Token) : List Token :=
  structTokens name [(type, "a"), (type, "b"), (type, "c"), (type, "d")]

def tokens : List Token :=
  List.flatten
    [fourfold "A" [.word .int], fourfold "B" (typeTokens "A"), fourfold "C" (typeTokens "B"),
      fourfold "D" (typeTokens "C"), fourfold "E" (typeTokens "D"), fourfold "F" (typeTokens "E"),
      fourfold "G" (typeTokens "F"), fourfold "H" (typeTokens "G"), fourfold "I" (typeTokens "H"),
      fourfold "J" (typeTokens "I"), fourfold "K" (typeTokens "J"), fourfold "L" (typeTokens "K"),
      fourfold "M" (typeTokens "L"), fourfold "N" (typeTokens "M"),
      structTokens "Half" [(typeTokens "N", "a"), ([.word .int], "b")],
      structTokens "Whole"
        [(typeTokens "Half", "a"), (typeTokens "Half", "b"), ([.word .int], "c")],
      [.word .void, .ident "main", .mark .leftParen, .mark .rightParen, .mark .leftBrace,
        .mark .rightBrace]]

/-- The token is a word or a mark, and the lexer can make it. -/
def isPlain : Token → Bool
  | .ident x => x.toList.head?.any Lexer.isLetter && x.toList.tail.all Lexer.isWordChar &&
      (Keyword.ofSpelling? x).isNone
  | .word _ | .mark _ => true
  | _ => false

theorem wf_of_isPlain {t : Token} (h : isPlain t = true) : t.Wf := by
  cases t with
  | int | str | unterminated => cases h
  | word | mark => trivial
  | ident x =>
    simp only [isPlain, Bool.and_eq_true, Option.any_eq_true, List.all_eq_true] at h
    obtain ⟨⟨⟨c, hc, hletter⟩, hrest⟩, hkeyword⟩ := h
    obtain ⟨w, hw⟩ := List.head?_eq_some_iff.1 hc
    rw [hw] at hrest
    exact ⟨⟨c, w, hw, hletter, hrest⟩, Option.isNone_iff_eq_none.1 hkeyword⟩

/-- The program of the tokens, and nothing if there is none. -/
def program : Program := ((parse (tokens.map (⟨·, .zero⟩))).toOption).getD ⟨[], 0⟩

def text : String := program.print Ident.name

/-- The last field of `Whole` stands behind two halves. -/
theorem analyzed : ∃ p c s, Analyzed text p c ∧ c.symbol? 75 = some s ∧
    s.fieldOffset = -(2 ^ 31 + 8) := by
  have hseen : (tokens.all isPlain && (parse (tokens.map (⟨·, .zero⟩))).toOption.any
      (·.hasOffset 75 (-(2 ^ 31 + 8)))) = true := by decide +kernel
  obtain ⟨hplain, hseen⟩ := Bool.and_eq_true_iff.1 hseen
  obtain ⟨p, hp, hoffset⟩ := (Option.any_eq_true ..).1 hseen
  have hread := parse_sound (eq_ok_of_toOption hp)
  have htokens : (tokens.map (fun t => Lexeme.mk t .zero)).map Lexeme.token = tokens := by
    simp [Function.comp_def]
  rw [htokens] at hread
  have hwf : Grammar.Every Token.Wf p.tokens :=
    hread.spelled (fun _ => trivial) (fun _ => trivial) fun t ht =>
      wf_of_isPlain (List.all_eq_true.1 hplain t ht)
  rw [text, program, hp, Option.getD_some]
  exact exists_of_hasOffset hread hwf hoffset

end Tower

/-- Nothing is wrong with the text of `Tower.tokens`, but a field has an offset that is no word. So
layout in words does not give the numbers that are meant. -/
theorem placeWords_inexact :
    ∃ ts p a b c k s, tokenize Tower.text = .ok ts ∧ parse ts.lexemes = .ok p ∧
      ((Session.new "").bind p .empty).1 = .ok (true, a) ∧
      ((Session.new "").check p a).1 = .ok (true, b) ∧ placeSymbols p b = .ok c ∧
      c.symbol? k = some s ∧ ¬ SignedWord s.fieldOffset ∧ placeWords p b ≠ .ok c := by
  obtain ⟨p, c, s, hanalyzed, hs, hoffset⟩ := Tower.analyzed
  obtain @⟨ts, a, b, hlex, hparse, hbind, hcheck, hplace⟩ := hanalyzed
  have hout : ¬ SignedWord s.fieldOffset := by
    rw [hoffset]
    decide
  have hbind' : ((Session.new "").bind p .empty).1 = .ok (true, a) := by
    simp [Session.bind, hbind]
  have hcheck' : ((Session.new "").check p a).1 = .ok (true, b) := by
    simp [Session.check, hcheck, Except.map]
  refine ⟨ts, p, a, b, c, 75, s, hlex, hparse, hbind', hcheck', hplace, hs, hout, ?_⟩
  intro hwords
  exact hout (placeWords_inWords (inWords_of_check hbind' hcheck') hwords 75 s hs).fieldOffset

end FlatC
