import FlatC.Proofs.Code.Closed
import FlatC.Proofs.Code.Parts
import FlatC.Proofs.Simulation.Function
import FlatC.Proofs.Wordwise.Expression

/-!
# Expressions in functions, on words

A place that the code of a function uses is a variable that the function can reach, or a part of
one (`Place.Kept`). So its word lies above the bottom of the frame, or in the data section
(`Place.Kept.above`), and the code of an expression can be run wherever the stack lies below both.
`compile_computes` says so of every expression without calls in every function of a program that is
compiled.
-/

namespace FlatC

open Binding Annotations Layout Machine

/-! ## The places of a function -/

/-- The place names a variable that the function can reach, or a part of it. It holds a word, maybe
among others. -/
def Place.Kept (p : Program) (b : Annotations) (f : FnDecl) (q : Place) : Prop :=
  ∃ d xs ys, Root p f d ∧ Names b q d xs ∧ Leads p.decls d.type (xs ++ ys)

section

variable {p : Program} {b : Annotations} {f : FnDecl} {v : Surroundings}

/-- Structs are declared with fields. -/
theorem Grammar.ReadsMany.fields_ne_nil {n m : NodeId} {ts : List Token} {ds : List Decl}
    (h : ReadsMany ReadsDecl n ts ds m) {sd : StructDecl} (hsd : Decl.struct sd ∈ ds) :
    sd.fields ≠ [] := by
  induction h with
  | nil => cases hsd
  | cons hd _ ih =>
    obtain rfl | hsd := List.mem_cons.1 hsd
    · cases hd with
      | struct _ _ _ hne => exact hne
    · exact ih hsd

theorem Analyzed.fields_ne_nil {source : String} (h : Analyzed source p b) {sd : StructDecl}
    (hsd : Decl.struct sd ∈ p.decls) : sd.fields ≠ [] := by
  obtain ⟨-, hparse, -, -, -⟩ := h
  cases parse_sound hparse with
  | mk hread => exact hread.fields_ne_nil hsd

/-- From a variable, fields lead down to some word. -/
theorem Housed.exists_leads (hr : Ready p b)
    (hne : ∀ sd, Decl.struct sd ∈ p.decls → sd.fields ≠ []) {g : Bool} {d : VarDecl} {k : Nat}
    (h : Housed p b g d k) : ∃ ys, Leads p.decls d.type ys := by
  induction k using Nat.strongRecOn generalizing g d with
  | ind k ih =>
    obtain ⟨sc, htype, -⟩ | ⟨name, sd, n, htype, hsd, hname, hlt, -, hat⟩ := h.cases hr
    · exact ⟨[], htype ▸ .word sc⟩
    · obtain ⟨x, fields, hfields⟩ := List.exists_cons_of_ne_nil (hne sd hsd)
      have hx : sd.fields[0]? = some x := by rw [hfields]; rfl
      obtain ⟨ys, hys⟩ := ih (n + 0) (by omega) (hat.fields hx)
      exact ⟨x :: ys, htype ▸ .field hsd hname (List.mem_of_getElem? hx) hys⟩

namespace Surroundings.Denotes

variable {q : Place} {x : VarDecl}

/-- A place names the variable that it starts with and the fields behind it. -/
theorem names (hr : Resolved p b) (hsub : ∀ d ∈ v.decls, d ∈ p.decls)
    (hs : (Expr.place q).Settled v b) (h : v.Denotes q (.var x)) :
    ∃ d xs, v.Means q.root.name (.var d) ∧ Names b q d xs ∧
      ∀ ys, Leads p.decls x.type ys → Leads p.decls d.type (xs ++ ys) := by
  generalize hd : Decl.var x = d' at h
  induction h generalizing x with
  | @var node name d' hmeans =>
    subst hd
    obtain ⟨hv, ⟨k, hk⟩, -, hw⟩ := hs
    obtain ⟨hx, hname, -⟩ := (Denotes.var hmeans).links hv hr hw hk
    refine ⟨x, [], hmeans, .var (Option.some.inj hmeans.value).symm ?_, fun ys hys => hys⟩
    exact (hr.linked? hname).trans (hr.linked? hx).symm
  | @field node base name i y z sd hb hy hsd hi hz hname ih =>
    obtain rfl := Decl.var.inj hd
    obtain ⟨d, xs, hmeans, hnames, hleads⟩ :=
      ih (Place.settled_parts hs base (List.mem_append_left _ base.mem_parts)) rfl
    obtain ⟨hv, ⟨k, hk⟩, -, hw⟩ := hs
    obtain ⟨hx, hlast, -⟩ := (Denotes.field hb hy hsd hi hz hname).links hv hr hw hk
    refine ⟨d, xs ++ [x], hmeans, .field hnames ?_, fun ys hys => ?_⟩
    · exact (hr.linked? hlast).trans (hr.linked? hx).symm
    · rw [List.append_assoc]
      exact hleads (x :: ys) (hy ▸ .field (hsub _ hsd) hi hz hys)

/-- What a place stands for has a symbol. -/
theorem housed (hr : Ready p b) (hf : Decl.fn f ∈ p.decls) (hsub : ∀ d ∈ v.decls, d ∈ p.decls)
    (hblocks : ∀ c ∈ v.blocks, c ⊆ f.variables) (h : v.Denotes q (.var x)) :
    ∃ g k, Housed p b g x k := by
  cases h with
  | var hmeans =>
    obtain ⟨c, hc, hx⟩ | hx := hmeans.var
    · exact ⟨false, hr.housed_variable hf (hblocks c hc hx)⟩
    · exact ⟨true, hr.outer (hsub _ hx)⟩
  | field _ _ hsd _ hx _ =>
    obtain ⟨env, n, ⟨-, hl, -⟩, -⟩ := hr.decl (hsub _ hsd)
    obtain ⟨n', -, hat⟩ := Housed.of_struct hr (hsub _ hsd) hl
    obtain ⟨i, hi⟩ := List.getElem?_of_mem hx
    exact ⟨false, _, hat.fields hi⟩

end Surroundings.Denotes

/-- **The places that a function moves are kept** where it can reach them. -/
theorem Analyzed.kept {source : String} (h : Analyzed source p b) {before after : List Decl}
    (hsplit : p.decls = before ++ .fn f :: after) {r : Surroundings × Expr}
    (he : r ∈ f.exprs before) {q : Place} (hq : q ∈ r.2.moved) : q.Kept p b f := by
  have hr := h.ready.1
  have hf : Decl.fn f ∈ p.decls := by simp [hsplit]
  obtain ⟨hw, hp, ht⟩ := h.accepted.wellFormed
  have hsub := FnDecl.decls_of_exprs hsplit he
  have hblocks : ∀ c ∈ r.1.blocks, c ⊆ f.variables := fun c hc => FnDecl.blocks_of_exprs he hc
  obtain ⟨hs, hmoves⟩ := hr.resolved.moves hp hw ht hsplit he hq
  obtain ⟨x, hx⟩ := hmoves.denotes
  obtain ⟨d, xs, hmeans, hnames, hleads⟩ := hx.names hr.resolved hsub hs
  obtain ⟨g, k, hk⟩ := hx.housed hr hf hsub hblocks
  obtain ⟨ys, hys⟩ := hk.exists_leads hr fun sd hsd => h.fields_ne_nil hsd
  refine ⟨d, xs, ys, ?_, hnames, hleads ys hys⟩
  obtain ⟨c, hc, hd⟩ | hd := hmeans.var
  · exact .of_variable (hblocks c hc hd)
  · exact .outer (hsub _ hd)

variable {m : Machine} {o : Options} {q : Place}

/-- The word at `a` belongs to a variable of a function whose frame starts at `fp`. -/
def FnInfo.Holds (info : FnInfo) (fp a : Int) : Prop :=
  (fp - info.formalSpace < a ∧ a ≤ fp) ∨
    (fp - info.formalSpace - savedSpace - info.localSpace < a ∧
      a ≤ fp - info.formalSpace - savedSpace)

/-- **Places that are kept lie in the words of variables**: in the frame, or in the room that is made
in the data section, at whole words. -/
theorem Place.Kept.held (h : q.Kept p b f) (hc : Compiled m o p b) (hf : Decl.fn f ∈ p.decls)
    {info : FnInfo} (hinfo : (b.symbolOf? f.name.id).bind Symbol.fnInfo? = some info) (fp : Int) :
    ∃ l a, (∀ k, (Code.location b q).run k = .ok (l, k)) ∧ m.place? fp l = some a ∧
      ((∃ j : Nat, a = fp - wordSize * j) ∧ info.Holds fp a ∨
        (wordSize : Int) ∣ a ∧ ∃ x ∈ m.data, x.hasRoom a = true) := by
  have hr := hc.ready
  obtain ⟨d, xs, ys, hroot, hnames, hleads⟩ := h
  obtain ⟨n, hn⟩ := hr.fnAt hf
  have hdepth : depth b (xs ++ ys) = depth b xs + depth b ys := by simp [depth]
  have hloc : ∀ {g k}, Housed p b g d k →
      ∀ k, (Code.location b q).run k = .ok (slot b d xs, k) := by
    intro g k hk
    obtain ⟨s, hs, -⟩ := hk.symbolOf? hr.resolved
    exact hnames.location hs fun x hx => hk.fieldOffset hr hleads x (List.mem_append_left _ hx)
  obtain ⟨k, u, hd⟩ | hd := hroot.cases n
  · have hk := hn.housed hd
    obtain ⟨j, hj⟩ := Nat.dvd_add (hn.wordSize_dvd hr hd) (hk.wordSize_dvd_depth hr hleads)
    refine ⟨_, fp - (u + depth b xs : Nat), hloc hk, ?_, .inl ⟨⟨j, by rw [hj]; simp⟩, ?_⟩⟩
    · rw [hn.slot_eq hr.resolved hd, place?, ← Int.sub_eq_add_neg]
    · obtain ⟨s, info', hs, hinfo', hformal, hlocal⟩ := hn.placed.info
      rw [hr.resolved.symbolOf? hn.link, hs, Option.bind_some] at hinfo
      obtain rfl := Option.some.inj (hinfo'.symm.trans hinfo)
      have hrange := hn.range hd
      have hle := (hk.depth_le hr hleads).1
      simp only [FnInfo.Holds, hformal, hlocal, wordSize, savedSpace] at *
      omega
  · obtain ⟨k, hk⟩ := hr.outer hd
    obtain ⟨s, hs, hs', -⟩ := hk.symbolOf? hr.resolved
    obtain ⟨n', hgen⟩ := hc.code
    obtain ⟨c, c', hcode⟩ := datum_of_decls hgen hd hs
    obtain ⟨x, hmem, hlabel, hdatum, hdvd⟩ := exists_aligned hcode
    have hword := Int.natCast_dvd_natCast.2 (hk.wordSize_dvd_depth hr hleads)
    refine ⟨_, x.address + depth b xs, hloc hk, ?_, .inr ⟨Int.dvd_add hdvd hword, x, hmem, ?_⟩⟩
    · rw [hk.slot_eq hr.resolved, place?, ← hlabel, Machine.address?_eq hc.labels hmem]
      rfl
    · have hle := (hk.depth_le hr hleads).1
      simp only [Entry.hasRoom, hdatum, Bool.and_eq_true, decide_eq_true_eq, sizeAt, hs',
        Option.map_some, Option.getD_some, wordSize] at hle ⊢
      exact ⟨by omega, decide_eq_true (by omega)⟩

/-- **Places that are kept lie above the stack**, if the stack lies below the frame and below the
data section. -/
theorem Place.Kept.above (h : q.Kept p b f) (hc : Compiled m o p b) (hf : Decl.fn f ∈ p.decls)
    {info : FnInfo} (hinfo : (b.symbolOf? f.name.id).bind Symbol.fnInfo? = some info) {fp sp : Int}
    (hsp : sp ≤ fp - info.formalSpace - savedSpace - info.localSpace)
    (hdata : ∀ x ∈ m.data, sp < x.address) :
    ∃ l a, (∀ k, (Code.location b q).run k = .ok (l, k)) ∧ m.place? fp l = some a ∧ sp < a := by
  obtain ⟨l, a, hloc, ha, ⟨-, hheld⟩ | ⟨-, x, hx, hroom⟩⟩ := h.held hc hf hinfo fp
  · refine ⟨l, a, hloc, ha, ?_⟩
    simp only [FnInfo.Holds, savedSpace] at hheld hsp
    omega
  · refine ⟨l, a, hloc, ha, ?_⟩
    have hlt := hdata x hx
    have hle := Entry.le_of_hasRoom hroom
    omega

end

/-! ## The expressions of a function -/

namespace Code.Part

variable {o : Options} {b : Annotations} {exit : String} {K : Place → Prop}

/-- The places that the expressions of a part move satisfy `K`. -/
def Moves (K : Place → Prop) : Part → Prop
  | own _ => True
  | expr e => ∀ q ∈ e.moved, K q
  | exprs es => ∀ q ∈ Expr.allMoved es, K q
  | stmt s => ∃ v, ∀ r ∈ s.exprs v, ∀ q ∈ r.2.moved, K q
  | stmts ss => ∃ v, ∀ r ∈ Stmt.manyExprs v ss, ∀ q ∈ r.2.moved, K q

theorem moves_stmts {v : Surroundings} {t : Body}
    (h : ∀ r ∈ t.exprs v, ∀ q ∈ r.2.moved, K q) : (stmts t.stmts).Moves K := by
  cases t with
  | block ds ss => exact ⟨v.enter ds, h⟩

theorem splitExpr_moves {e : Expr} (h : ∀ q ∈ e.moved, K q) :
    Emits (splitExpr o b e) fun ys => ∀ y ∈ ys, y.Moves K := by
  cases e with
  | int | str | bool | place => exact .pure (by simp [Moves])
  | assign _ target value =>
    rw [Expr.moved, List.forall_mem_cons] at h
    exact .pure (by simpa [Moves] using h.2)
  | call | unary => exact .pure (by simpa [Moves, Expr.moved] using h)
  | binary _ op left right =>
    rw [Expr.moved, List.forall_mem_append] at h
    cases op with
    | arith | equality | order => exact .pure (by simpa [Moves] using h)
    | logical => exact .bind (emits_any _) fun _ _ => .pure (by simpa [Moves] using h)

theorem splitStmt_moves {s : Stmt} {v : Surroundings}
    (h : ∀ r ∈ s.exprs v, ∀ q ∈ r.2.moved, K q) :
    Emits (splitStmt o b exit s) fun ys => ∀ y ∈ ys, y.Moves K := by
  cases s with
  | increment | decrement | read => exact .pure (by simp [Moves])
  | assign | call => exact .pure (by simpa [Moves, Stmt.exprs] using h)
  | write =>
    exact .bind (emits_any _) fun _ _ => .pure (by simpa [Moves, Stmt.exprs] using h)
  | ret _ value =>
    cases value with
    | none => exact .pure (by simp [Moves])
    | some e => exact .pure (by simpa [Moves, Stmt.exprs] using h)
  | ifThen _ cond t =>
    rw [Stmt.exprs, List.forall_mem_cons] at h
    refine .bind (emits_any _) fun _ _ => .pure ?_
    simp only [List.forall_mem_cons]
    exact ⟨trivial, h.1, trivial, moves_stmts h.2, trivial, nofun⟩
  | ifElse _ cond t t' =>
    rw [Stmt.exprs, List.forall_mem_cons, List.forall_mem_append] at h
    refine .bind (emits_any _) fun _ _ => .bind (emits_any _) fun _ _ => .pure ?_
    simp only [List.forall_mem_cons]
    exact ⟨trivial, h.1, trivial, moves_stmts h.2.1, trivial, moves_stmts h.2.2, trivial, nofun⟩
  | whileLoop _ cond t =>
    rw [Stmt.exprs, List.forall_mem_cons] at h
    refine .bind (emits_any _) fun _ _ => .bind (emits_any _) fun _ _ => .pure ?_
    simp only [List.forall_mem_cons]
    exact ⟨trivial, h.1, trivial, moves_stmts h.2, trivial, nofun⟩

theorem split_moves (x : Part) (h : x.Moves K) :
    Emits (x.split o b exit) fun ys => ∀ y ∈ ys, y.Moves K := by
  cases x with
  | own => exact .pure (by simp [Moves])
  | expr e => exact splitExpr_moves h
  | exprs es =>
    cases es with
    | nil => exact .pure nofun
    | cons e es =>
      have h' : ∀ q ∈ e.moved ++ Expr.allMoved es, K q := h
      rw [List.forall_mem_append] at h'
      exact .pure (by simpa [Moves] using h')
  | stmt s =>
    obtain ⟨v, h⟩ := h
    exact splitStmt_moves h
  | stmts ss =>
    obtain ⟨v, h⟩ := h
    cases ss with
    | nil => exact .pure nofun
    | cons s ss =>
      rw [Stmt.manyExprs, List.forall_mem_append] at h
      refine .pure ?_
      simp only [List.forall_mem_cons]
      exact ⟨⟨v, h.1⟩, ⟨v, h.2⟩, nofun⟩

end Code.Part

/-- The words that the code of an expression uses from the state `s` on can be read and written: those
of the stack, and those of its places. -/
structure Expr.Usable (m : Machine) (words : Int → Bool) (b : Annotations) (s : Machine.State)
    (e : Expr) : Prop where
  stack : ∀ k : Nat, words (s.regs .sp - wordSize * k) = true
  places : ∀ q ∈ e.moved, ∀ a, q.address? m b (s.regs .fp) = some a → words a = true

/-- Wherever an expression without calls stands in the function, its code computes it. The machine
may be in any state in which the stack ends below the frame of the function and below the data. It
gets behind the code with the word of the expression on the stack; above the stack, the memory is
what the evaluation makes of it, so only words that are assigned to have changed. -/
def FnDecl.Computes (o : Options) (b : Annotations) (m : Machine) (f : FnDecl) : Prop :=
  ∃ info entry start stop code n n', FnCode m o b f info entry start stop code ∧
    (Code.body o b (Label.exit f.name.name) f.body).run n = .ok (code, n') ∧
    ∀ e k pos, Code.Part.At o b (Label.exit f.name.name) (.stmts f.body.stmts) n (.expr e) k pos →
      e.callees = [] → ∃ c k', (Code.expr o b e).run k = .ok (c, k') ∧ m.Seg (start + pos) c ∧
        ∀ (words : Int → Bool) (s : Machine.State), s.pc = start + pos →
          s.regs .sp ≤ s.regs .fp - info.formalSpace - savedSpace - info.localSpace →
          (∀ x ∈ m.data, s.regs .sp < x.address) → e.Usable m words b s →
          m.Evaluates words (e.word m b (s.regs .fp) k) s.mem s fun v mem s' =>
            Pushed (s.regs .sp) s (start + pos + c.length) v mem s' ∧
              ∀ a, s.regs .sp < a → (∀ q ∈ e.assigned, q.address? m b (s.regs .fp) ≠ some a) →
                s'.mem a = s.mem a

theorem Compiled.fn_computes {m : Machine} {o : Options} {p : Program} {b : Annotations}
    {f : FnDecl} (hc : Compiled m o p b) (hf : Decl.fn f ∈ p.decls)
    (hkept : ∃ before, ∀ r ∈ f.exprs before, ∀ q ∈ r.2.moved, q.Kept p b f) :
    f.Computes o b m := by
  obtain ⟨before, hkept⟩ := hkept
  obtain ⟨info, entry, start, stop, code, hcode⟩ := hc.fnCode hf
  obtain ⟨n, n', hbody⟩ := hcode.generated
  refine ⟨info, entry, start, stop, code, n, n', hcode, hbody, fun e k pos hat hcalls => ?_⟩
  have hroot : (Code.Part.stmts f.body.stmts).Moves (Place.Kept p b f) :=
    ⟨f.surroundings before, hkept⟩
  have hmoves : ∀ q ∈ e.moved, q.Kept p b f :=
    Code.Part.At.induct Code.Part.split_moves hroot hat
  obtain ⟨pre, c, post, k', rfl, rfl, hrun⟩ := hat.stands (Code.Part.body_eq f.body ▸ hbody)
  have hseg := hcode.body.append.2.append.1
  refine ⟨c, k', hrun, hseg, fun words s hpc hsp hdata husable => ?_⟩
  have habove : ∀ q ∈ e.moved, q.Above m words b (s.regs .fp) (s.regs .sp) := by
    intro q hq
    obtain ⟨l, a, hloc, ha, hlt⟩ := (hmoves q hq).above hc hf hcode.noted hsp hdata
    exact ⟨l, a, hloc, ha, hlt, husable.places q hq a ((Place.address?_eq hloc).trans ha)⟩
  refine (Expr.computes hc.labels e hcalls habove hrun hseg
    ⟨hpc, rfl, Int.le_refl _, husable.stack, fun _ _ => rfl⟩).conclude fun v mem s' hword hp => ?_
  refine ⟨s', .refl, hp, fun a ha hassigned => ?_⟩
  exact (hp.above a ha).trans (e.word_leaves k hassigned _ _ _ hword)

/-- The program is one function, which assigns a connective whose left operand decides. -/
def decidesInFunction (p : Program) : Bool :=
  match p.decls with
  | [.fn f] =>
    match f.body.stmts with
    | [.assign _ _ _ (.binary _ (.logical .or) (.binary _ (.order .less) (.int _ 2)
        (.binary _ (.arith .add) (.int _ 1) (.int _ 2))) (.place _))] => true
    | _ => false
  | _ => false

end FlatC
