import FlatC.Proofs.Simulation.Operations

/-!
# Code for expressions

The code of an expression leaves its value on top of the stack (`expr_simulates`). Calls are taken
care of by a handler that is served by the machine (`Serves`): from the start of the function, with
the arguments on the stack, it gets back behind the call, with the arguments gone.
-/

namespace FlatC

open Machine
open Binding (DeclBound ExprBound ExprsBound PlaceBound Uses)

variable {m : Machine} {o : Options} {p : Program} {b : Annotations}

/-! ## Calls -/

/-- The machine stands at the start of a function, and the arguments lie on the stack from `top`
downwards. -/
structure Entered (m : Machine) (p : Program) (b : Annotations) (f : FnDecl) (args : List Atom)
    (w : World) (top : Int) (s : State) : Prop where
  pc : m.position? (Label.function f.name.name) = some s.pc
  sp : s.regs .sp = top - wordSize * args.length
  args : ∀ {i : Nat} {v : Atom}, args[i]? = some v → s.mem (top - wordSize * i) = v.word
  top_le : top ≤ m.stackStart
  dvd : (wordSize : Int) ∣ top
  ra : f.isMain = false → 0 ≤ s.regs .ra
  outer : OuterAgrees m p b w.outer s.mem
  input : s.input = w.input
  output : s.output = w.output

/-- The machine has come back from a call that was made in the state `s` of the world `w`. -/
structure Returned (m : Machine) (p : Program) (b : Annotations) (w : World) (top : Int) (s : State)
    (r : Option Atom) (w' : World) (s' : State) : Prop where
  pc : s'.pc = s.regs .ra
  fp : s'.regs .fp = s.regs .fp
  sp : s'.regs .sp = top
  kept : ∀ a, top < a → a ≤ m.stackStart → s'.mem a = s.mem a
  outer : OuterAgrees m p b w'.outer s'.mem
  inner : w'.inner = w.inner
  input : s'.input = w'.input
  output : s'.output = w'.output
  value : ∀ v, r = some v → s'.regs .v0 = v.word

/-- The machine runs calls as the handler does. -/
def Serves (m : Machine) (p : Program) (b : Annotations) (call : Handler) : Prop :=
  ∀ ⦃f : FnDecl⦄ ⦃rest : List Decl⦄ ⦃n : Nat⦄ ⦃args : List Atom⦄ ⦃w : World⦄ ⦃top : Int⦄ ⦃s : State⦄,
    Decl.fn f :: rest <:+ p.decls.reverse → DeclBound b rest n (.fn f) →
    args.length = f.params.length → Entered m p b f args w top s →
    m.Simulates (call f (.fn f :: rest) args) w s (Returned m p b w top s)

/-- The code of a function of the program. -/
theorem Compiled.fn_code (hc : Compiled m o p b) {f : FnDecl} (hf : Decl.fn f ∈ p.decls) :
    ∃ pos c n n', m.Seg pos c ∧ (Code.fnDecl o b f).run n = .ok (c, n') := by
  obtain ⟨n, hgen⟩ := hc.code
  obtain ⟨c, x, c', k, l, hcode, hx⟩ := decl_of_decls hgen hf
  refine ⟨c.length, x, k, l, ?_, hx⟩
  have hwhole := Seg.whole m
  rw [hcode] at hwhole
  simpa using hwhole.append.1.append.2

/-- A function has a label. -/
theorem Compiled.fn_position (hc : Compiled m o p b) {f : FnDecl} (hf : Decl.fn f ∈ p.decls) :
    ∃ k, m.position? (Label.function f.name.name) = some k := by
  obtain ⟨pos, c, n, n', hseg, hrun⟩ := hc.fn_code hf
  simp only [Code.fnDecl, run_bind_ok, run_pure_ok] at hrun
  obtain ⟨info, _, _, code, _, _, rfl, _⟩ := hrun
  simp only [List.append_assoc] at hseg
  exact ⟨_, position?_eq hc.labels hseg.append.2.append.2.append.1.head⟩

namespace Frame

variable {fr : Frame m p b} {call : Handler} {e : Env}

/-- The machine has put a value on the stack, which stood at `top` in the state `s`. -/
structure Pushed (fr : Frame m p b) (ids : List NodeId) (start stop : Nat) (top : Int)
    (mem : Int → Int) (v : Value) (w : World) (s : State) : Prop where
  stands : fr.At w (top - wordSize) stop s
  shows : Shows m ids start stop v (s.mem top)
  keeps : fr.Keeps top mem s.mem

theorem Pushed.cast {fr : Frame m p b} {ids : List NodeId} {start stop stop' : Nat} {top : Int}
    {mem : Int → Int} {v : Value} {w : World} {s : State}
    (h : fr.Pushed ids start stop top mem v w s) (heq : stop = stop') :
    fr.Pushed ids start stop' top mem v w s :=
  heq ▸ h

/-- The machine has put the values of several expressions on the stack. -/
structure PushedAll (fr : Frame m p b) (stop : Nat) (top : Int) (mem : Int → Int)
    (vs : List Value) (w : World) (s : State) : Prop where
  stands : fr.At w (top - wordSize * vs.length) stop s
  atoms : ∀ {i : Nat} {a : Atom}, vs[i]? = some (.atom a) → s.mem (top - wordSize * i) = a.word
  keeps : fr.Keeps top mem s.mem

variable {w : World} {top : Int} {pos start : Nat} {s : State} {mem : Int → Int}

/-- Putting a register on the stack that holds the word of a value. -/
theorem At.pushAtom (hc : Compiled m o p b) {r : Reg} {a : Atom} (h : fr.At w top pos s)
    (hseg : m.Seg pos (Code.push o r)) (hr : s.regs r = a.word) (hk : fr.Keeps top mem s.mem)
    (ids : List NodeId) (start : Nat) :
    ∃ s', m.Steps s s' ∧ fr.Pushed ids start (pos + 2) top mem (.atom a) w s' := by
  obtain ⟨s', hs, hat, hmem, hkeeps⟩ := h.push hc hseg
  exact ⟨s', hs, hat, hmem.trans hr ▸ .atom a, hk.trans hkeeps⟩

theorem conform_atoms {params : List Param} {vs : List Value} {args : List Atom}
    (h : Eval.conform params vs = some args) :
    args.length = params.length ∧ vs = args.map Value.atom := by
  induction params generalizing vs args with
  | nil =>
    cases vs with
    | nil =>
      cases h
      exact ⟨rfl, rfl⟩
    | cons => cases h
  | cons q params ih =>
    cases vs with
    | nil => cases h
    | cons v vs =>
      simp only [Eval.conform, Option.bind_eq_bind, Option.bind_eq_some_iff] at h
      obtain ⟨a, ha, as, has, heq⟩ := h
      obtain rfl := Option.some.inj heq
      obtain ⟨hlen, rfl⟩ := ih has
      exact ⟨by simp [hlen], by simp [Value.atom_of_as? ha]⟩

/-- A call with the arguments on the stack. -/
theorem invoke_simulates (hc : Compiled m o p b) (hcall : Serves m p b call)
    (he : e.Fits p fr.fn) {callee : String} {vs : List Value} (htop : top ≤ fr.low)
    (hdvd : (wordSize : Int) ∣ top)
    (hseg : m.Seg pos [Code.bare (.jal (Label.function callee))])
    (h : fr.PushedAll pos top mem vs w s) :
    m.Simulates (Eval.invoke call e callee vs) w s fun r w' s' =>
      fr.At w' top (pos + 1) s' ∧ fr.Keeps top mem s'.mem ∧
        ∀ v, r = some v → s'.regs .v0 = v.word := by
  refine .from?_bind fun ⟨f, outer⟩ hf => .from?_bind fun args hargs => ?_
  obtain ⟨hname, hsuffix, rest, n, rfl, hbound⟩ := fn_of_function? hc.ready he.outer hf
  obtain ⟨hlen, rfl⟩ := conform_atoms hargs
  obtain ⟨k, hk⟩ := hc.fn_position (List.mem_reverse.1 (hsuffix.subset (.head _)))
  have hjal : m.item s (Code.bare (.jal (Label.function callee))) =
      some ((s.setReg .ra (pos + 1)).jump k) := by
    simp [Code.bare, item, exec, ← hname, hk, h.stands.pc]
  have hbase := fr.base_le
  have hlow := fr.low_le_base
  have hentered : Entered m p b f args w top ((s.setReg .ra (pos + 1)).jump k) := by
    refine ⟨by simpa using hk, ?_, fun {i v} hv => ?_, by omega, hdvd, ?_, h.stands.agrees.outer,
      h.stands.input, h.stands.output⟩
    · simpa using h.stands.sp
    · exact h.atoms (by simp [hv])
    · intro _
      simp only [State.regs_jump, State.regs_setReg, if_true]
      omega
  refine .steps (.single (hseg.step h.stands.pc hjal)) ?_
  refine (hcall hsuffix hbound hlen hentered).mono fun r w' s' hr => ?_
  have hkept : ∀ a, top < a → a ≤ m.stackStart → s'.mem a = s.mem a := hr.kept
  refine ⟨⟨?_, ?_, hr.sp, htop, hdvd, ⟨hr.outer, ?_⟩, hr.input, hr.output⟩, ?_, hr.value⟩
  · have := hr.pc
    simp only [State.regs_jump, State.regs_setReg, if_true] at this
    omega
  · simpa [h.stands.fp] using hr.fp
  · rw [hr.inner]
    refine h.stands.agrees.inner.congr hc fun a ha => ?_
    have := fr.le_of_hasVariable ha
    exact hkept a (by omega) this.2
  · exact h.keeps.trans fun a hlt hle _ => hkept a hlt hle

/-! ## Expressions -/

/-- The code of the expression puts its value on the stack. -/
def Computes (fr : Frame m p b) (o : Options) (call : Handler) (e : Env) (x : Expr) : Prop :=
  ∀ ⦃n n' : Nat⦄ ⦃c : Code⦄ ⦃pos : Nat⦄ ⦃w : World⦄ ⦃top : Int⦄ ⦃s : State⦄,
    (Code.expr o b x).run n = .ok (c, n') → m.Seg pos c → fr.At w top pos s →
    m.Simulates (Eval.expr call e x) w s (fr.Pushed x.ids pos (pos + c.length) top s.mem)

def ComputesAll (fr : Frame m p b) (o : Options) (call : Handler) (e : Env) (xs : List Expr) :
    Prop :=
  ∀ ⦃n n' : Nat⦄ ⦃c : Code⦄ ⦃pos : Nat⦄ ⦃w : World⦄ ⦃top : Int⦄ ⦃s : State⦄,
    (Code.exprs o b xs).run n = .ok (c, n') → m.Seg pos c → fr.At w top pos s →
    m.Simulates (Eval.exprs call e xs) w s (fr.PushedAll (pos + c.length) top s.mem)

theorem immediate_steps (hc : Compiled m o p b) {a : Atom}
    (hseg : m.Seg pos (Code.immediate o a.word)) (h : fr.At w top pos s) (ids : List NodeId) :
    ∃ s', m.Steps s s' ∧ fr.Pushed ids pos (pos + 3) top s.mem (.atom a) w s' := by
  obtain ⟨hs, hat⟩ := h.set hseg rfl (by decide) (by decide)
  obtain ⟨s', hs', hp⟩ := hat.pushAtom hc hseg.tail (a := a) (by simp) (Keeps.of_eq rfl) ids pos
  exact ⟨s', hs.trans hs', hp⟩

theorem computes_int (hc : Compiled m o p b) (node : Node) (value : Int) :
    fr.Computes o call e (.int node value) := by
  intro n n' c pos w top s hrun hseg h
  obtain ⟨rfl, -⟩ := run_pure_ok.1 hrun
  exact immediate_steps hc (a := .int value) hseg h _

theorem computes_bool (hc : Compiled m o p b) (node : Node) (value : Bool) :
    fr.Computes o call e (.bool node value) := by
  intro n n' c pos w top s hrun hseg h
  obtain ⟨rfl, -⟩ := run_pure_ok.1 hrun
  have hword : (if value then 1 else 0 : Int) = (Atom.bool value).word := by cases value <;> rfl
  rw [hword] at hseg
  exact immediate_steps hc hseg h _

theorem computes_str (hc : Compiled m o p b) (node : Node) (text : String) :
    fr.Computes o call e (.str node text) := by
  intro n n' c pos w top s hrun hseg h
  simp only [Code.expr, Code.stringLiteral, run_bind_ok, run_pure_ok] at hrun
  obtain ⟨label, _, -, rfl, -⟩ := hrun
  obtain ⟨hs1, hat1⟩ := h.skip hseg rfl
  obtain ⟨hs2, hat2⟩ := hat1.skip hseg.tail rfl
  obtain ⟨hs3, hat3⟩ := hat2.skip hseg.tail.tail rfl
  -- the label stands for the address of the literal
  have hdatum := hseg.tail.head
  obtain ⟨x, hx, rfl, -⟩ := Code.exists_entry (a := m.dataStart) (List.mem_of_getElem? hdatum)
  have haddr := address?_eq hc.labels hx
  obtain ⟨hs4, hat4⟩ := hat3.set (r := .t0) (x := x.address) hseg.tail.tail.tail
    (by simp [Code.bare, item, exec, haddr]) (by decide) (by decide)
  obtain ⟨s5, hs5, hat5, hmem, hkeeps⟩ := hat4.push hc hseg.tail.tail.tail.tail
  refine ⟨s5, (((hs1.trans hs2).trans hs3).trans hs4).trans hs5, hat5, ?_, hkeeps⟩
  rw [hmem]
  simp only [State.regs_next, State.regs_setReg, if_true]
  exact .str (by simp [Expr.ids]) (by omega) (by simp) hdatum haddr

theorem computes_place (hc : Compiled m o p b) (he : e.Fits p fr.fn) {q : Place} {k : SymbolId}
    (hq : PlaceBound e.decls b q k) : fr.Computes o call e (.place q) := by
  intro n n' c pos w top s hrun hseg h
  simp only [Code.expr, run_bind_ok, run_pure_ok] at hrun
  obtain ⟨l, _, hl, rfl, -⟩ := hrun
  obtain ⟨hload, hpush⟩ := hseg.append
  refine load_bind fun t sc v ht htype hv => ?_
  obtain ⟨hden, hloc⟩ := location_of_place? hc.ready fr.mem he hq ht htype
  obtain ⟨rfl, -⟩ := Prod.mk.inj (Except.ok.inj ((hloc n).symm.trans hl))
  obtain ⟨s1, hs1, hat1, hr1, hmem1⟩ := h.load hc hden hload (by decide) (by decide) hv
  obtain ⟨s2, hs2, hp⟩ := hat1.pushAtom hc hpush hr1 (Keeps.of_eq hmem1) q.ids pos
  exact ⟨s2, hs1.trans hs2, hp⟩

theorem computes_assign (hc : Compiled m o p b) (he : e.Fits p fr.fn) {node : Node} {q : Place}
    {k : SymbolId} {x : Expr} (hq : PlaceBound e.decls b q k) (hx : fr.Computes o call e x) :
    fr.Computes o call e (.assign node q x) := by
  intro n n' c pos w top s hrun hseg h
  simp only [Code.expr, run_bind_ok, run_pure_ok] at hrun
  obtain ⟨v, _, hv, l, _, hl, rfl, -⟩ := hrun
  simp only [List.append_assoc] at hseg
  obtain ⟨hvalue, hseg⟩ := hseg.append
  obtain ⟨hpeek, hstore⟩ := hseg.append
  refine (hx hv hvalue h).bind fun u w1 s1 hp => store_bind fun t sc a ht htype ha => ?_
  obtain ⟨hden, hloc⟩ := location_of_place? hc.ready fr.mem he hq ht htype
  obtain ⟨rfl, -⟩ := Prod.mk.inj (Except.ok.inj ((hloc _).symm.trans hl))
  obtain rfl := Value.atom_of_as? ha
  obtain ⟨s2, hs2, hat2, hr2, hmem2⟩ := hp.stands.peek h.room hpeek (by decide) (by decide)
  obtain ⟨s3, hs3, hat3, -, hkeeps⟩ := hat2.store hc hden hstore
    (v := a) (hr2.trans hp.shows.atom_eq)
  have hword : s3.mem top = a.word := by
    have hlt : top - wordSize < top := by
      simp only [wordSize]
      omega
    rw [(hkeeps (top - wordSize)).word hlt h.room, hmem2, hp.shows.atom_eq]
  refine ⟨s3, hs2.trans hs3, ?_, hword ▸ .atom a, (hmem2 ▸ hp.keeps).trans (hkeeps top)⟩
  exact hat3.cast (by simp; omega)

theorem computes_unary (hc : Compiled m o p b) {node : Node} {op : UnaryOp} {x : Expr}
    (hx : fr.Computes o call e x) : fr.Computes o call e (.unary node op x) := by
  intro n n' c pos w top s hrun hseg h
  simp only [Code.expr, run_bind_ok, run_pure_ok] at hrun
  obtain ⟨cx, _, hcx, rfl, -⟩ := hrun
  simp only [List.append_assoc] at hseg
  obtain ⟨hoperand, hseg⟩ := hseg.append
  obtain ⟨hpop, hseg⟩ := hseg.append
  obtain ⟨hsign, hpush⟩ := hseg.append
  refine (hx hcx hoperand h).bind fun v w1 s1 hp => ?_
  refine .bind (P := fun a w' s' => w' = w1 ∧ s' = s1 ∧ ∃ u, v = .atom u ∧ ∀ s : State,
    s.regs .t0 = u.word → m.item s (Code.bare (Code.sign op)) = some (s.setReg .t0 a.word).next)
    (unary_simulates fun u a hu hi => ⟨rfl, rfl, u, hu, hi⟩) ?_
  rintro a _ _ ⟨rfl, rfl, u, rfl, hitem⟩
  obtain ⟨s2, hs2, hat2, hr2, hmem2, -⟩ := hp.stands.pop h.room hpop (by decide) (by decide)
  obtain ⟨hs3, hat3⟩ := hat2.set hsign (hitem s2 (hr2.trans hp.shows.atom_eq))
    (by decide) (by decide)
  obtain ⟨s4, hs4, hp4⟩ := hat3.pushAtom hc hpush (a := a) (by simp)
    (by simpa [hmem2] using hp.keeps) (Expr.unary node op x).ids pos
  exact ⟨s4, (hs2.trans hs3).trans hs4, hp4.cast (by simp; omega)⟩

/-- Two operands and an operation on them. -/
theorem operate_simulates (hc : Compiled m o p b) {left right : Expr}
    (hl : fr.Computes o call e left) (hr : fr.Computes o call e right)
    {f : Value → Value → Exec Atom} {op : AluOp}
    (hf : ∀ {v u x y i j k w s}, Shows m left.ids i j v x → Shows m right.ids j k u y →
      m.Simulates (f v u) w s fun a w' s' => w' = w ∧ s' = s ∧ op.eval x y = some a.word)
    {n n' n'' : Nat} {cl cr : Code} (hcl : (Code.expr o b left).run n = .ok (cl, n'))
    (hcr : (Code.expr o b right).run n' = .ok (cr, n''))
    (hseg : m.Seg pos (cl ++ cr ++ Code.operate o op)) (h : fr.At w top pos s) (ids : List NodeId) :
    m.Simulates (do
      let v ← Eval.expr call e left
      let u ← Eval.expr call e right
      return .atom (← f v u)) w s
      (fr.Pushed ids pos (pos + (cl ++ cr ++ Code.operate o op).length) top s.mem) := by
  simp only [List.append_assoc] at hseg
  obtain ⟨hleft, hseg⟩ := hseg.append
  obtain ⟨hright, hop⟩ := hseg.append
  refine (hl hcl hleft h).bind fun v w1 s1 hp1 => (hr hcr hright hp1.stands).bind
    fun u w2 s2 hp2 => ?_
  have hlt : top - wordSize < top := by
    simp only [wordSize]
    omega
  have hword := hp2.keeps.word hlt h.room
  refine (hf hp1.shows hp2.shows).bind ?_
  rintro a _ _ ⟨rfl, rfl, hz⟩
  rw [← hword] at hz
  obtain ⟨s3, hs3, hat3, hz3, hkeeps⟩ := hp2.stands.operate hc h.room hop hz
  refine ⟨s3, hs3, hat3.cast (by simp; omega), hz3 ▸ .atom a, ?_⟩
  exact (hp1.keeps.trans (hp2.keeps.mono (Int.le_of_lt hlt))).trans hkeeps

theorem computes_arith (hc : Compiled m o p b) {node : Node} {op : ArithOp} {left right : Expr}
    (hl : fr.Computes o call e left) (hr : fr.Computes o call e right) :
    fr.Computes o call e (.binary node (.arith op) left right) := by
  intro n n' c pos w top s hrun hseg h
  simp only [Code.expr, run_bind_ok, run_pure_ok] at hrun
  obtain ⟨cl, _, hcl, cr, _, hcr, rfl, -⟩ := hrun
  refine operate_simulates hc hl hr (fun hv hu => ?_) hcl hcr hseg h _
  refine arith_simulates fun n k a hn hk ha => ⟨rfl, rfl, ?_⟩
  subst hn hk
  rwa [hv.atom_eq, hu.atom_eq]

theorem computes_order (hc : Compiled m o p b) {node : Node} {op : OrderOp} {left right : Expr}
    (hl : fr.Computes o call e left) (hr : fr.Computes o call e right) :
    fr.Computes o call e (.binary node (.order op) left right) := by
  intro n n' c pos w top s hrun hseg h
  simp only [Code.expr, run_bind_ok, run_pure_ok] at hrun
  obtain ⟨cl, _, hcl, cr, _, hcr, rfl, -⟩ := hrun
  refine operate_simulates hc hl hr (fun hv hu => ?_) hcl hcr hseg h _
  refine order_simulates fun n k a hn hk ha => ⟨rfl, rfl, ?_⟩
  subst hn hk
  rwa [hv.atom_eq, hu.atom_eq]

theorem computes_equality (hc : Compiled m o p b) {node : Node} {op : EqOp} {left right : Expr}
    (hdisj : ∀ i ∈ left.ids, i ∉ right.ids) (hl : fr.Computes o call e left)
    (hr : fr.Computes o call e right) :
    fr.Computes o call e (.binary node (.equality op) left right) := by
  intro n n' c pos w top s hrun hseg h
  simp only [Code.expr, run_bind_ok, run_pure_ok] at hrun
  obtain ⟨cl, _, hcl, cr, _, hcr, rfl, -⟩ := hrun
  refine operate_simulates hc hl hr (fun hv hu => ?_) hcl hcr hseg h _
  refine equality_simulates fun a ha => ⟨rfl, rfl, ha _ _ fun r hsame => ?_⟩
  exact hv.same hc hu hdisj (Nat.le_refl _) hsame

/-- The left operand stays on the stack if it decides. -/
theorem computes_logical (hc : Compiled m o p b) {node : Node} {op : Connective}
    {left right : Expr} (hl : fr.Computes o call e left) (hr : fr.Computes o call e right) :
    fr.Computes o call e (.binary node (.logical op) left right) := by
  intro n n' c pos w top s hrun hseg h
  simp only [Code.expr, run_bind_ok, run_pure_ok] at hrun
  obtain ⟨stop, _, -, cl, _, hcl, cr, _, hcr, rfl, -⟩ := hrun
  simp only [List.append_assoc] at hseg
  obtain ⟨hleft, hseg⟩ := hseg.append
  obtain ⟨hpeek, hseg⟩ := hseg.append
  obtain ⟨hbranch, hseg⟩ := hseg.append
  obtain ⟨hdiscard, hseg⟩ := hseg.append
  obtain ⟨hright, hstop⟩ := hseg.append
  refine (hl hcl hleft h).bind fun v w1 s1 hp1 => .from?_bind fun x hx => ?_
  obtain rfl := Value.atom_of_bool? hx
  obtain ⟨s2, hs2, hat2, hr2, hmem2⟩ := hp1.stands.peek h.room hpeek (by decide) (by decide)
  rw [hp1.shows.atom_eq] at hr2
  refine .steps hs2 ?_
  have hdecides : (Atom.bool x).word = Code.decisive op ↔ x = Eval.decisive op := by
    cases x <;> cases op <;> decide
  by_cases hdec : x = Eval.decisive op
  · rw [if_pos hdec]
    obtain ⟨s3, hs3, hat3, hmem3, -⟩ := hat2.branch hc hbranch hstop (hr2.trans (hdecides.2 hdec))
    refine ⟨s3, hs3, hat3.cast (by simp; omega), ?_, ?_⟩
    · rw [hmem3, hmem2, hp1.shows.atom_eq]
      exact .atom _
    · exact hp1.keeps.trans (.of_eq (hmem3.trans hmem2))
  · rw [if_neg hdec]
    obtain ⟨hnext, hat⟩ := hat2.pass hbranch fun h => hdec (hdecides.1 (hr2.symm.trans h))
    obtain ⟨s3, hs3, hat3, hmem3⟩ := hat.discard h.room hdiscard
    refine .steps (hnext.trans hs3) ?_
    refine (hr hcr hright hat3).bind fun u w2 s4 hp4 => .from?_bind fun y hy => ?_
    obtain rfl := Value.atom_of_bool? hy
    obtain ⟨hs5, hat5⟩ := hp4.stands.skip hstop rfl
    refine ⟨_, hs5, hat5.cast (by simp; omega), ?_, ?_⟩
    · rw [State.mem_next, hp4.shows.atom_eq]
      exact .atom _
    · exact (hp1.keeps.trans (.of_eq (hmem3.trans hmem2))).trans hp4.keeps

/-- Arguments, and the call behind them. -/
theorem computes_call (hc : Compiled m o p b) (hcall : Serves m p b call) (he : e.Fits p fr.fn)
    {node : Node} {callee : Ident} {args : List Expr} (hargs : fr.ComputesAll o call e args) :
    fr.Computes o call e (.call node callee args) := by
  intro n n' c pos w top s hrun hseg h
  simp only [Code.expr, run_bind_ok, run_pure_ok] at hrun
  obtain ⟨cx, _, hcx, rfl, -⟩ := hrun
  simp only [List.append_assoc] at hseg
  obtain ⟨hxs, hseg⟩ := hseg.append
  obtain ⟨hjal, hpush⟩ := hseg.append
  refine (hargs hcx hxs h).bind fun vs w1 s1 hp1 =>
    (invoke_simulates hc hcall he h.room h.dvd hjal hp1).bind fun r w2 s2 h2 =>
      .from?_bind fun v hv => ?_
  obtain ⟨hat2, hkeeps, hr⟩ := h2
  obtain ⟨s3, hs3, hp3⟩ := hat2.pushAtom hc hpush (hr v hv) hkeeps
    (Expr.call node callee args).ids pos
  exact ⟨s3, hs3, hp3.cast (by simp; omega)⟩

theorem computesAll_nil : fr.ComputesAll o call e [] := by
  intro n n' c pos w top s hrun _ h
  obtain ⟨rfl, -⟩ := run_pure_ok.1 hrun
  exact ⟨s, .refl, by simpa using h, by simp, .of_eq rfl⟩

theorem computesAll_cons {x : Expr} {xs : List Expr} (hx : fr.Computes o call e x)
    (hxs : fr.ComputesAll o call e xs) : fr.ComputesAll o call e (x :: xs) := by
  intro n n' c pos w top s hrun hseg h
  simp only [Code.exprs, run_bind_ok, run_pure_ok] at hrun
  obtain ⟨cx, _, hcx, cxs, _, hcxs, rfl, -⟩ := hrun
  obtain ⟨hseg1, hseg2⟩ := hseg.append
  refine (hx hcx hseg1 h).bind fun v w1 s1 hp1 =>
    (hxs hcxs hseg2 hp1.stands).bind fun vs w2 s2 hp2 => ⟨s2, .refl, ?_, ?_, ?_⟩
  · have htop : top - wordSize - wordSize * vs.length = top - wordSize * (v :: vs).length := by
      simp only [wordSize, List.length_cons]
      omega
    exact htop ▸ hp2.stands.cast (by simp; omega)
  · intro i a hi
    cases i with
    | zero =>
      obtain rfl : v = .atom a := by simpa using hi
      have hlt : top - wordSize < top := by
        simp only [wordSize]
        omega
      simpa [hp2.keeps.word hlt h.room] using hp1.shows.atom_eq
    | succ i =>
      have haddr : top - wordSize * (i + 1 : Nat) = top - wordSize - wordSize * i := by
        simp only [wordSize]
        omega
      rw [haddr]
      exact hp2.atoms (by simpa using hi)
  · refine hp1.keeps.trans (hp2.keeps.mono ?_)
    simp only [wordSize]
    omega

mutual

/-- **The code of an expression puts its value on the stack** and leaves the rest of it alone. -/
theorem expr_computes (hc : Compiled m o p b) (hcall : Serves m p b call) (he : e.Fits p fr.fn) :
    ∀ (x : Expr), ExprBound e.decls b x → x.ids.Nodup → fr.Computes o call e x
  | .int node value, _, _ => computes_int hc node value
  | .str node text, _, _ => computes_str hc node text
  | .bool node value, _, _ => computes_bool hc node value
  | .place _, ⟨_, hq⟩, _ => computes_place hc he hq
  | .assign _ _ value, ⟨⟨_, hq⟩, hb⟩, hn => by
    simp only [Expr.ids, List.nodup_append] at hn
    exact computes_assign hc he hq (expr_computes hc hcall he value hb hn.1.2.1)
  | .call _ _ args, ⟨_, hb⟩, hn => by
    simp only [Expr.ids, List.nodup_cons, List.nodup_append] at hn
    exact computes_call hc hcall he (exprs_compute hc hcall he args hb hn.2.1)
  | .unary _ _ operand, hb, hn => by
    simp only [Expr.ids, List.nodup_append] at hn
    exact computes_unary hc (expr_computes hc hcall he operand hb hn.1)
  | .binary _ op left right, ⟨hl, hr⟩, hn => by
    simp only [Expr.ids, List.nodup_append] at hn
    have hleft := expr_computes hc hcall he left hl hn.1.1
    have hright := expr_computes hc hcall he right hr hn.1.2.1
    cases op with
    | arith op => exact computes_arith hc hleft hright
    | order op => exact computes_order hc hleft hright
    | logical op => exact computes_logical hc hleft hright
    | equality op =>
      exact computes_equality hc (fun i hi hi' => hn.1.2.2 i hi i hi' rfl) hleft hright

theorem exprs_compute (hc : Compiled m o p b) (hcall : Serves m p b call) (he : e.Fits p fr.fn) :
    ∀ (xs : List Expr), ExprsBound e.decls b xs → (Expr.allIds xs).Nodup →
      fr.ComputesAll o call e xs
  | [], _, _ => computesAll_nil
  | x :: xs, ⟨hb, hbs⟩, hn => by
    simp only [Expr.allIds, List.nodup_append] at hn
    exact computesAll_cons (expr_computes hc hcall he x hb hn.1)
      (exprs_compute hc hcall he xs hbs hn.2.1)

end

end Frame

end FlatC
