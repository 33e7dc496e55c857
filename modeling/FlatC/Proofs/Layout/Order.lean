import FlatC.Proofs.Binding.Arena
import FlatC.Proofs.Compile
import FlatC.Proofs.Follows
import FlatC.Proofs.Layout.Words
import FlatC.Proofs.Scoping.Links

/-!
# The order of layout

Layout goes through the declarations in their order, and a struct is declared before its values are.
So the size of a struct is written before it is read, and whatever sizes the structs have at first is
of no account (`Program.SizedInOrder`). Two runs are compared for it, from notes that differ in the
sizes of the structs whose declarations are still ahead (`Layout.Apart`).
-/

namespace FlatC

open Annotations Binding

namespace Annotations

/-- Gives the structs other sizes. -/
def resize (a : Annotations) (size : SymbolId → Nat) : Annotations :=
  { a with symbols := a.symbols.mapIdx fun k s =>
      if s.isStructDef then { s with size := size k } else s }

theorem symbol?_resize (a : Annotations) (size : SymbolId → Nat) (k : SymbolId) :
    (a.resize size).symbol? k =
      (a.symbol? k).map fun s => if s.isStructDef then { s with size := size k } else s := by
  simp [symbol?, resize, Array.getElem?_mapIdx]

end Annotations

/-- The size of a struct is written before it is read. -/
structure Program.SizedInOrder (p : Program) (a : Annotations) : Prop where
  /-- What is declared has the structs that were declared before it. -/
  earlier : ∀ before d after, p.decls = before ++ d :: after → ∀ x ∈ d.variables, ∀ s j,
    a.symbolOf? x.name.id = some s → s.definition? = some j →
      ∃ sd, Decl.struct sd ∈ before ∧ a.linked? sd.name.id = some j
  /-- Whatever sizes the structs have at first, layout ends in the same way. -/
  written : ∃ b, placeSymbols p a = .ok b ∧ ∀ size, placeSymbols p (a.resize size) = .ok b

namespace Layout

/-- Two notes that differ in the sizes of the symbols in `J`, linked as `c` is and with its
structs. -/
structure Apart (c : Annotations) (J : SymbolId → Prop) (a b : Annotations) : Prop where
  links : a.links = c.links
  links' : b.links = c.links
  types : b.types = a.types
  definition : ∀ k, (a.symbol? k).bind Symbol.definition? = (c.symbol? k).bind Symbol.definition?
  resized : ∀ k, ∃ size, b.symbol? k = (a.symbol? k).map ({ · with size })
  same : ∀ k, ¬ J k → b.symbol? k = a.symbol? k

/-- The symbol of a variable is no value of a struct in `J`. -/
def Reads (c : Annotations) (J : SymbolId → Prop) (d : VarDecl) : Prop :=
  ∀ k, c.linked? d.name.id = some k → ∀ j, (c.symbol? k).bind Symbol.definition? = some j → ¬ J j

/-- A change of a symbol that does not depend on its size and leaves its struct alone. -/
structure Blind (f : Symbol → Symbol) : Prop where
  definition : ∀ s, (f s).definition? = s.definition?
  size : ∀ s size, ∃ size', f { s with size } = { f s with size := size' }

section

variable {c a b : Annotations} {J : SymbolId → Prop} {k : SymbolId}

theorem blind_size (size : Nat) : Blind ({ · with size }) :=
  ⟨fun _ => rfl, fun _ _ => ⟨size, rfl⟩⟩

theorem blind_offset (offset : Int) : Blind ({ · with offset }) :=
  ⟨fun _ => rfl, fun _ size => ⟨size, rfl⟩⟩

theorem blind_fieldOffset (fieldOffset : Int) : Blind ({ · with fieldOffset }) :=
  ⟨fun _ => rfl, fun _ size => ⟨size, rfl⟩⟩

theorem blind_setSpaces (formalSpace localSpace : Nat) : Blind (setSpaces formalSpace localSpace) where
  definition s := (moved_setSpaces formalSpace localSpace s).definition?
  size s size := by
    refine ⟨size, ?_⟩
    unfold setSpaces
    cases hk : s.kind <;> simp [hk]

theorem Apart.update (h : Apart c J a b) {f : Symbol → Symbol} (hf : Blind f) (k : SymbolId) :
    Apart c J (a.update k f) (b.update k f) where
  links := h.links
  links' := h.links'
  types := h.types
  definition i := by
    rw [← h.definition, symbol?_update]
    split
    · cases a.symbol? i <;> simp [hf.definition]
    · rfl
  resized i := by
    obtain ⟨size, hb⟩ := h.resized i
    rw [symbol?_update, symbol?_update, hb]
    split
    · cases a.symbol? i with
      | none => exact ⟨0, rfl⟩
      | some s =>
        obtain ⟨size', hsize⟩ := hf.size s size
        exact ⟨size', congrArg some hsize⟩
    · exact ⟨size, rfl⟩
  same i hi := by rw [symbol?_update, symbol?_update, h.same i hi]

/-- A struct whose size is written has the same one in both. -/
theorem Apart.settle (h : Apart c J a b) (size : Nat) :
    Apart c (fun i => J i ∧ i ≠ k) (a.update k ({ · with size })) (b.update k ({ · with size })) where
  __ := h.update (blind_size size) k
  same i hi := by
    by_cases hik : i = k
    · subst hik
      obtain ⟨size', hb⟩ := h.resized i
      rw [symbol?_update, symbol?_update, if_pos rfl, if_pos rfl, hb, Option.map_map]
      rfl
    · exact (h.update (blind_size size) k).same i fun hJ => hi ⟨hJ, hik⟩

theorem Apart.mono {J' : SymbolId → Prop} (h : Apart c J a b) (hJ : ∀ i, J i → J' i) :
    Apart c J' a b :=
  { h with same := fun i hi => h.same i fun hJi => hi (hJ i hJi) }

/-- Notes that differ in no size are the same. -/
theorem Apart.eq (h : Apart c J a b) (hJ : ∀ i, ¬ J i) : a = b := by
  have hsymbols : a.symbols = b.symbols := by
    refine Array.ext_getElem? fun i => ?_
    exact (h.same i (hJ i)).symm
  have hlinks := h.links.trans h.links'.symm
  have htypes := h.types
  cases a
  cases b
  cases hsymbols
  cases hlinks
  cases htypes
  rfl

/-! ## Steps side by side -/

theorem symbol_apart (k : SymbolId) :
    Follows (Apart c J) (fun s s' => s'.definition? = s.definition? ∧
      (c.symbol? k).bind Symbol.definition? = s.definition? ∧ (¬ J k → s' = s))
      (symbol k) (symbol k) := by
  refine .getBind fun a b h => ?_
  obtain ⟨size, hb⟩ := h.resized k
  rw [hb]
  cases hs : a.symbol? k with
  | none => exact .throw
  | some s =>
    have hdef := h.definition k
    rw [hs] at hdef
    refine .pure ⟨rfl, hdef.symm, fun hk => ?_⟩
    have hsame := h.same k hk
    rw [hb, hs] at hsame
    exact Option.some.inj hsame

theorem update_apart {f : Symbol → Symbol} (hf : Blind f) (k : SymbolId) :
    Follows (Apart c J) Eq (update k f) (update k f) :=
  .bind (symbol_apart k) fun _ _ _ => .modify fun _ _ h => h.update hf k

theorem resolved_apart (name : Ident) :
    Follows (Apart c J) (fun k k' => k = k' ∧ c.linked? name.id = some k) (resolved name)
      (resolved name) := by
  refine .getBind fun a b h => ?_
  have hl : a.linked? name.id = c.linked? name.id := by rw [linked?, h.links, linked?]
  have hl' : b.linked? name.id = c.linked? name.id := by rw [linked?, h.links', linked?]
  rw [hl, hl']
  split
  next k hk => exact .pure ⟨rfl, hk⟩
  next => exact .throw

theorem sizeOf_apart (hk : ∀ j, (c.symbol? k).bind Symbol.definition? = some j → ¬ J j) :
    Follows (Apart c J) Eq (sizeOf k) (sizeOf k) := by
  refine .bind (symbol_apart k) ?_
  rintro s s' ⟨hdef, hc, -⟩
  rw [hdef]
  cases hj : s.definition? with
  | none => exact .pure rfl
  | some j =>
    refine .bind (symbol_apart j) ?_
    rintro sd sd' ⟨-, -, hsame⟩
    obtain rfl := hsame (hk j (hc.trans hj))
    exact .pure rfl

theorem sized_apart {d : VarDecl} (hd : Reads c J d) :
    Follows (Apart c J) Eq (sized d) (sized d) := by
  refine .bind (resolved_apart d.name) ?_
  rintro k _ ⟨rfl, hk⟩
  refine .bind (sizeOf_apart (hd k hk)) ?_
  rintro size _ rfl
  exact .bind (update_apart (blind_size size) k) fun _ _ _ => .pure rfl

theorem fields_apart (ds : List VarDecl) (hds : ∀ d ∈ ds, Reads c J d) {used : Nat} :
    Follows (Apart c J) Eq (fields used ds) (fields used ds) := by
  induction ds generalizing used with
  | nil => exact .pure rfl
  | cons d ds ih =>
    refine .bind (sized_apart (hds d (.head ds))) ?_
    rintro ⟨k, size⟩ _ rfl
    refine .bind (update_apart (blind_fieldOffset _) k) fun _ _ _ => ?_
    exact ih fun d hd => hds d (.tail _ hd)

theorem params_apart (ps : List Param) (hps : ∀ d ∈ ps.map Param.decl, Reads c J d)
    {offset : Int} : Follows (Apart c J) Eq (params offset ps) (params offset ps) := by
  induction ps generalizing offset with
  | nil => exact .pure rfl
  | cons q ps ih =>
    refine .bind (sized_apart (hps _ (.head _))) ?_
    rintro ⟨k, size⟩ _ rfl
    refine .bind (update_apart (blind_offset _) k) fun _ _ _ => ?_
    exact ih fun d hd => hps d (.tail _ hd)

theorem locals_apart (ds : List VarDecl) (hds : ∀ d ∈ ds, Reads c J d) {offset : Int} :
    Follows (Apart c J) Eq (locals offset ds) (locals offset ds) := by
  induction ds generalizing offset with
  | nil => exact .pure rfl
  | cons d ds ih =>
    refine .bind (sized_apart (hds d (.head ds))) ?_
    rintro ⟨k, size⟩ _ rfl
    refine .bind (update_apart (blind_offset _) k) fun _ _ _ => ?_
    exact ih fun d hd => hds d (.tail _ hd)

theorem fnDecl_apart {d : FnDecl} (hd : ∀ x ∈ d.variables, Reads c J x) :
    Follows (Apart c J) Eq (fnDecl d) (fnDecl d) := by
  refine .bind (params_apart d.params fun x hx => hd x (List.mem_append_left _ hx)) fun _ _ _ => ?_
  have hbody : ∀ offset, Follows (Apart c J) Eq (body offset d.body) (body offset d.body) := by
    intro offset
    rw [body_eq_locals]
    exact locals_apart d.body.allDecls fun x hx => hd x (List.mem_append_right _ hx)
  refine .bind (hbody _) ?_
  rintro stop _ rfl
  refine .bind (resolved_apart d.name) ?_
  rintro k _ ⟨rfl, -⟩
  exact update_apart (blind_setSpaces _ _) k

/-! ## Declarations side by side -/

/-- The structs whose declarations are ahead. -/
def Ahead (c : Annotations) (ds : List Decl) (k : SymbolId) : Prop :=
  ∃ sd, Decl.struct sd ∈ ds ∧ c.linked? sd.name.id = some k

/-- A declaration writes the size of its own struct, after it has read others. -/
theorem decl_settles {d : Decl} {ds : List Decl} {a' : Annotations}
    (hreads : ∀ x ∈ d.variables, Reads c (Ahead c (d :: ds)) x)
    (h : Apart c (Ahead c (d :: ds)) a b) (hrun : (decl d).run a = .ok ((), a')) :
    ∃ b', (decl d).run b = .ok ((), b') ∧ Apart c (Ahead c ds) a' b' := by
  have htail : ∀ {i}, (∀ sd, d ≠ .struct sd) → Ahead c (d :: ds) i → Ahead c ds i := by
    rintro i hne ⟨sd, hmem, hl⟩
    rcases List.mem_cons.1 hmem with rfl | hmem
    · exact absurd rfl (hne sd)
    · exact ⟨sd, hmem, hl⟩
  cases d with
  | var d =>
    have hsized : Follows (Apart c (Ahead c (.var d :: ds))) Eq (decl (.var d)) (decl (.var d)) :=
      .bind (sized_apart (hreads d (.head _))) fun _ _ _ => .pure rfl
    obtain ⟨_, b', hrun', rfl, h'⟩ := hsized a b _ a' h hrun
    exact ⟨b', hrun', h'.mono fun i => htail fun sd heq => by cases heq⟩
  | fn d =>
    obtain ⟨_, b', hrun', rfl, h'⟩ := fnDecl_apart hreads a b _ a' h hrun
    exact ⟨b', hrun', h'.mono fun i => htail fun sd heq => by cases heq⟩
  | struct d =>
    obtain ⟨size, a1, hfields, hrun⟩ := run_bind_ok.1 hrun
    obtain ⟨k, a2, hname, hupdate⟩ := run_bind_ok.1 hrun
    obtain ⟨_, b1, hfields', rfl, h1⟩ := fields_apart d.fields hreads a b size a1 h hfields
    obtain ⟨_, b2, hname', ⟨rfl, hk⟩, h2⟩ := resolved_apart d.name a1 b1 k a2 h1 hname
    obtain ⟨_, b3, hupdate', -, -⟩ := update_apart (blind_size size) k a2 b2 _ a' h2 hupdate
    obtain ⟨-, -, rfl⟩ := update_run hupdate
    obtain ⟨-, -, rfl⟩ := update_run hupdate'
    refine ⟨_, run_bind_ok.2 ⟨size, b1, hfields', run_bind_ok.2 ⟨k, b2, hname', hupdate'⟩⟩,
      (h2.settle size).mono ?_⟩
    rintro i ⟨⟨sd, hmem, hl⟩, hne⟩
    rcases List.mem_cons.1 hmem with heq | hmem
    · obtain rfl := Decl.struct.inj heq
      exact absurd (Option.some.inj (hl.symm.trans hk)) hne
    · exact ⟨sd, hmem, hl⟩

/-- Variables of structs below `n` read no struct from `n` on. -/
theorem reads_of_holds {ds : List VarDecl} {n m : Nat} (h : c.Holds n m ds)
    (hJ : ∀ i, J i → n ≤ i) : ∀ d ∈ ds, Reads c J d := by
  induction ds generalizing m with
  | nil => simp
  | cons d ds ih =>
    obtain ⟨⟨hl, s, hs, hdef⟩, hrest⟩ := h
    refine List.forall_mem_cons.2 ⟨fun k hk j hj hJj => ?_, ih hrest⟩
    obtain rfl := Option.some.inj (hk.symm.trans hl)
    rw [hs, Option.bind_some] at hj
    exact absurd (hdef j hj) (Nat.not_lt.2 (hJ j hJj))

end

section

variable {p : Program} {c : Annotations} {env : List Decl} {n : Nat}

/-- The structs that are declared from here on have symbols from here on. -/
theorem le_of_ahead (hr : Resolved p c) {ds : List Decl} (h : DeclsBound c env n ds)
    {k : SymbolId} (hk : Ahead c ds k) : n ≤ k := by
  obtain ⟨sd, hmem, hl⟩ := hk
  induction ds generalizing env n with
  | nil => cases hmem
  | cons d ds ih =>
    rcases List.mem_cons.1 hmem with rfl | hmem
    · obtain ⟨-, hlink, -⟩ := h.1
      obtain rfl := Option.some.inj (hl.symm.trans (hr.linked? hlink))
      exact Nat.le_add_right n _
    · exact Nat.le_trans (Nat.le_add_right n _) (ih h.2 hmem)

theorem decl_reads (hr : Resolved p c) {d : Decl} {ds : List Decl}
    (hb : DeclsBound c env n (d :: ds)) (hbelow : StructsBelow c env n) :
    ∀ x ∈ d.variables, Reads c (Ahead c (d :: ds)) x := by
  have hJ : ∀ i, Ahead c (d :: ds) i → n ≤ i := fun i => le_of_ahead hr hb
  cases d with
  | var d =>
    have hvars : VarsBound env c true n [d] := ⟨hb.1, trivial⟩
    exact reads_of_holds (hr.holds hvars hbelow) hJ
  | struct d => exact reads_of_holds (hr.holds hb.1.1 hbelow) hJ
  | fn d =>
    have hbelow' : StructsBelow c (.fn d :: env) n := by
      intro sd k hmem
      rcases List.mem_cons.1 hmem with heq | hmem
      · cases heq
      · exact hbelow sd k hmem
    exact reads_of_holds (hr.holds hb.1.variables hbelow') hJ

/-- In the end every struct has its size. -/
theorem decls_settle (hr : Resolved p c) {ds : List Decl} (hb : DeclsBound c env n ds)
    (hbelow : StructsBelow c env n) {a b a' : Annotations} (h : Apart c (Ahead c ds) a b)
    (hrun : (decls ds).run a = .ok ((), a')) : (decls ds).run b = .ok ((), a') := by
  induction ds generalizing env n a b with
  | nil =>
    obtain ⟨-, rfl⟩ := run_pure_ok.1 hrun
    have hnone : ∀ i, ¬ Ahead c [] i := fun i ⟨sd, hmem, _⟩ => nomatch hmem
    rw [← h.eq hnone]
    exact hrun
  | cons d ds ih =>
    obtain ⟨_, a1, hrun1, hrun2⟩ := run_bind_ok.1 hrun
    obtain ⟨b1, hrun1', h1⟩ := decl_settles (decl_reads hr hb hbelow) h hrun1
    exact run_bind_ok.2 ⟨_, b1, hrun1', ih hb.2 (hbelow.cons hr hb.1) h1 hrun2⟩

end

end Layout

open Layout

section

variable {p : Program} {a : Annotations}

/-- A variable of a struct has one that is in scope. -/
theorem Binding.VarsBound.earlier (hr : Resolved p a) {env : List Decl} {g : Bool} {n : Nat}
    {ds : List VarDecl} (h : VarsBound env a g n ds) {x : VarDecl} (hx : x ∈ ds) {s : Symbol}
    {j : SymbolId} (hs : a.symbolOf? x.name.id = some s) (hj : s.definition? = some j) :
    ∃ sd, Decl.struct sd ∈ env ∧ a.linked? sd.name.id = some j := by
  obtain ⟨i, hi⟩ := List.getElem?_of_mem hx
  obtain ⟨hl, s', hs', -, -, htype⟩ := h.get hi
  rw [hr.symbolOf? hl] at hs
  obtain rfl := Option.some.inj (hs.symm.trans hs')
  cases ht : x.type with
  | scalar sc =>
    rw [ht] at htype
    simp [Symbol.definition?, htype.2.1] at hj
  | struct name =>
    rw [ht] at htype
    obtain ⟨sd, j', hmem, -, hsd, -, hkind, -⟩ := htype
    obtain rfl : j' = j := by simpa [Symbol.definition?, hkind] using hj
    exact ⟨sd, hmem, hr.linked? hsd⟩

/-- Notes whose structs all have declarations differ from others with the same names by sizes
that are written. -/
theorem apart_resize (hr : Resolved p a) (hrec : Recorded p.decls a) (size : SymbolId → Nat) :
    Apart a (Ahead a p.decls) a (a.resize size) where
  links := rfl
  links' := rfl
  types := rfl
  definition _ := rfl
  resized k := by
    rw [symbol?_resize]
    cases a.symbol? k with
    | none => exact ⟨0, rfl⟩
    | some s =>
      by_cases hd : s.isStructDef = true
      · exact ⟨size k, by simp [hd]⟩
      · exact ⟨s.size, by simp [hd]⟩
  same k hk := by
    rw [symbol?_resize]
    cases hs : a.symbol? k with
    | none => rfl
    | some s =>
      have hd : ¬ s.isStructDef = true := fun hd => by
        obtain ⟨sd, hmem, hl, -⟩ := (hrec k s hs).struct hd
        exact hk ⟨sd, hmem, hr.linked? hl⟩
      simp [hd]

/-- **The size of a struct is written before it is read**, where every name is bound. -/
theorem Resolved.sizedInOrder (hr : Resolved p a) (hrec : Recorded p.decls a) :
    p.SizedInOrder a where
  earlier before d after hsplit x hx s j hs hj := by
    have hb := hr.bound
    rw [hsplit] at hb
    have hd := hb.split
    have hmem : ∀ {sd}, Decl.struct sd ∈ before.reverse ++ [] → Decl.struct sd ∈ before := by simp
    cases d with
    | var d =>
      have hvars : VarsBound (before.reverse ++ []) a true _ [d] := ⟨hd, trivial⟩
      obtain ⟨sd, hsd, hl⟩ := hvars.earlier hr hx hs hj
      exact ⟨sd, hmem hsd, hl⟩
    | struct d =>
      obtain ⟨sd, hsd, hl⟩ := hd.1.earlier hr hx hs hj
      exact ⟨sd, hmem hsd, hl⟩
    | fn d =>
      obtain ⟨sd, hsd, hl⟩ := hd.variables.earlier hr hx hs hj
      exact ⟨sd, hmem ((List.mem_cons.1 hsd).resolve_left fun heq => (by cases heq)), hl⟩
  written := by
    obtain ⟨b, hplace, -⟩ := placeSymbols_placed hr
    refine ⟨b, hplace, fun size => ?_⟩
    have hrun : (decls p.decls).run a = .ok ((), b) := by
      unfold placeSymbols at hplace
      split at hplace
      next b' hrun => rw [hrun, Except.ok.inj hplace]
      next => cases hplace
    rw [placeSymbols, decls_settle hr hr.bound (fun _ _ hmem => (by cases hmem))
      (apart_resize hr hrec size) hrun]

end

/-! ## Programs -/

/-- A function has the type of its parameters and what it returns, those of its declaration. -/
def Program.HasFunctions (p : Program) (a : Annotations) : Prop :=
  ∀ k s info, a.symbol? k = some s → s.fnInfo? = some info →
    s.ty = .fn info.params info.ret ∧
    ∃ f, Decl.fn f ∈ p.decls ∧ a.linked? f.name.id = some k ∧ s.name = f.name.name ∧
      info.params = f.params.map (.ofScalar ·.type) ∧ info.ret = .ofScalar f.returns

theorem Binding.Recorded.hasFunctions {p : Program} {a : Annotations} (h : Recorded p.decls a)
    (hsingle : ∀ i, a.linkCount i ≤ 1) : p.HasFunctions a := by
  intro k s info hs hinfo
  obtain ⟨f, hf, hl, hname, hty, info', hinfo', hparams, hret⟩ :=
    (h k s hs).function (Symbol.isFunction_iff.2 ⟨info, hinfo⟩)
  obtain rfl := Option.some.inj (hinfo'.symm.trans hinfo)
  exact ⟨by rw [hty, hparams, hret], f, hf, NodeMap.get?_of_mem (hsingle _) hl, hname, hparams, hret⟩

/-- **The symbols of a program are in order, whatever is wrong with its names.** What a symbol refers
to comes before it, so no struct contains itself; and where every name is bound, layout writes the
size of a struct before it reads it. -/
theorem bindNames_ordered {source : String} {ts : Lexer.Tokens} {p : Program}
    (hlex : tokenize source = .ok ts) (hparse : parse ts.lexemes = .ok p) :
    ∃ a rs, bindNames p .empty = .ok (a, rs) ∧ a.Arena ∧ p.HasFunctions a ∧
      (∀ j, ¬ Relation.TransGen a.Contains j j) ∧
      (rs = [] → ∀ types, p.SizedInOrder { a with types }) := by
  obtain ⟨hw, hnodup⟩ := wf_of_parse hlex hparse
  obtain ⟨t, s, hrun, -, -, hcount, -, -⟩ := program_yields p hw
  obtain ⟨t', s', hrun', -, -, hgood⟩ := bind_of_wf hw hnodup
  obtain ⟨-, rfl⟩ := Prod.mk.inj (Except.ok.inj (hrun'.symm.trans hrun))
  have hreached := program_reached p t s' hrun
  have hsingle : ∀ i, s'.notes.linkCount i ≤ 1 := fun i => by
    have := List.nodup_iff_count.1 hnodup i
    have := hcount i
    have := p.count_ids i
    omega
  refine ⟨s'.notes, s'.reports, by rw [bindNames, hrun], hreached.ordered.arena,
    hreached.recorded.hasFunctions hsingle, hreached.ordered.arena.acyclic, fun hr types => ?_⟩
  have hresolved : Resolved p { s'.notes with types } := (hgood hr).retype rfl rfl
  exact hresolved.sizedInOrder fun k sy hsy => (hreached.recorded k sy hsy).links id

/-- A text that was seen to be bound, with a test that its notes and reports were seen to pass. -/
theorem exists_of_reported (source : String) (test : Annotations → List Report → Bool)
    (h : ((tokenize source).toOption.any fun ts => (parse ts.lexemes).toOption.any fun p =>
      (bindNames p .empty).toOption.any fun r => test r.1 r.2) = true) :
    ∃ ts p a rs, tokenize source = .ok ts ∧ parse ts.lexemes = .ok p ∧
      bindNames p .empty = .ok (a, rs) ∧ test a rs = true := by
  simp only [Option.any_eq_true] at h
  obtain ⟨ts, hts, p, hp, ⟨a, rs⟩, ha, ht⟩ := h
  exact ⟨ts, p, a, rs, eq_ok_of_toOption hts, eq_ok_of_toOption hp, eq_ok_of_toOption ha, ht⟩

/-- A struct that is declared twice, one of a struct that there is not, a parameter that comes twice
and a function that is declared again leave seven symbols; and two structs, one in the other, with
nothing wrong. -/
theorem bindNames_ordered_errors :
    (∃ ts p a rs,
      tokenize "struct A { int x; void y; }; struct A { int z; struct C c; }; int f(int n, bool n) { struct A a; a.z = n; } int f; void main() { }" =
        .ok ts ∧
      parse ts.lexemes = .ok p ∧ bindNames p .empty = .ok (a, rs) ∧ rs.length = 6 ∧
      a.symbols.size = 7 ∧ a.Arena ∧ p.HasFunctions a ∧
      ∀ j, ¬ Relation.TransGen a.Contains j j) ∧
    ∃ ts p a,
      tokenize "struct A { int x; bool y; }; struct B { struct A a; int z; }; void main() { struct B b; b.a.x = b.z; }" =
        .ok ts ∧
      parse ts.lexemes = .ok p ∧ bindNames p .empty = .ok (a, []) ∧ p.SizedInOrder a := by
  constructor
  · obtain ⟨ts, p, a, rs, hlex, hparse, hbind, htest⟩ := exists_of_reported
      "struct A { int x; void y; }; struct A { int z; struct C c; }; int f(int n, bool n) { struct A a; a.z = n; } int f; void main() { }"
      (fun a rs => rs.length == 6 && a.symbols.size == 7) (by decide +kernel)
    simp only [Bool.and_eq_true, beq_iff_eq] at htest
    obtain ⟨a', rs', hbind', harena, hfns, hacyclic, -⟩ := bindNames_ordered hlex hparse
    obtain ⟨rfl, rfl⟩ := Prod.mk.inj (Except.ok.inj (hbind'.symm.trans hbind))
    exact ⟨ts, p, a', rs', hlex, hparse, hbind, htest.1, htest.2, harena, hfns, hacyclic⟩
  · obtain ⟨ts, p, a, rs, hlex, hparse, hbind, htest⟩ := exists_of_reported
      "struct A { int x; bool y; }; struct B { struct A a; int z; }; void main() { struct B b; b.a.x = b.z; }"
      (fun _ rs => rs.isEmpty) (by decide +kernel)
    obtain rfl := List.isEmpty_iff.1 htest
    obtain ⟨a', rs', hbind', -, -, -, hsized⟩ := bindNames_ordered hlex hparse
    obtain ⟨rfl, rfl⟩ := Prod.mk.inj (Except.ok.inj (hbind'.symm.trans hbind))
    exact ⟨ts, p, a', hlex, hparse, hbind, hsized rfl a'.types⟩

end FlatC
