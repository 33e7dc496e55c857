import FlatC.Proofs.Simulation.Expression

/-!
# Code for statements

The code of a statement leaves the stack as it was (`stmt_executes`). Behind it, the machine stands
at its end, or behind the label at the end of the function, with the value that is returned in
`$v0` (`LeftOff`).
-/

namespace FlatC

open Machine
open Binding (DeclBound ExprBound ExprsBound PlaceBound StmtBound BodyBound StmtsBound)

variable {m : Machine} {o : Options} {p : Program} {b : Annotations}

/-- What an expression can give: its occurrence, if it is a literal, and else a word. -/
theorem gives_of_expr {call : Handler} {e : Env} {x : Expr} {w w' : World} {v : Value}
    (h : (Eval.expr call e x).run w = .ok (v, w')) :
    (∃ node text, x = .str node text ∧ v = .str node.id text) ∨
      (∀ node text, x ≠ .str node text) ∧ ∃ a, v = .atom a := by
  cases x with
  | str node text =>
    obtain ⟨rfl, -⟩ := run_pure_ok.1 h
    exact .inl ⟨node, text, rfl, rfl⟩
  | int node n =>
    obtain ⟨rfl, -⟩ := run_pure_ok.1 h
    exact .inr ⟨by simp, _, rfl⟩
  | bool node n =>
    obtain ⟨rfl, -⟩ := run_pure_ok.1 h
    exact .inr ⟨by simp, _, rfl⟩
  | place q =>
    simp only [Eval.expr, run_bind_ok, run_pure_ok] at h
    obtain ⟨a, _, _, rfl, _⟩ := h
    exact .inr ⟨by simp, a, rfl⟩
  | assign node q value =>
    simp only [Eval.expr, run_bind_ok, run_pure_ok] at h
    obtain ⟨_, _, _, a, _, _, rfl, _⟩ := h
    exact .inr ⟨by simp, a, rfl⟩
  | call node callee args =>
    simp only [Eval.expr, run_bind_ok, run_pure_ok] at h
    obtain ⟨_, _, _, _, _, _, a, _, _, rfl, _⟩ := h
    exact .inr ⟨by simp, a, rfl⟩
  | unary node op operand =>
    simp only [Eval.expr, run_bind_ok, run_pure_ok] at h
    obtain ⟨_, _, _, a, _, _, rfl, _⟩ := h
    exact .inr ⟨by simp, a, rfl⟩
  | binary node op left right =>
    refine .inr ⟨by simp, ?_⟩
    cases op with
    | logical op =>
      simp only [Eval.expr, run_bind_ok] at h
      obtain ⟨_, _, _, _, _, _, h⟩ := h
      split at h
      · obtain ⟨rfl, -⟩ := run_pure_ok.1 h
        exact ⟨_, rfl⟩
      · simp only [run_bind_ok, run_pure_ok] at h
        obtain ⟨_, _, _, a, _, _, rfl, _⟩ := h
        exact ⟨_, rfl⟩
    | arith op | equality op | order op =>
      simp only [Eval.expr, run_bind_ok, run_pure_ok] at h
      obtain ⟨_, _, _, _, _, _, a, _, _, rfl, _⟩ := h
      exact ⟨a, rfl⟩

namespace Frame

variable {fr : Frame m p b} {call : Handler} {fuel : Nat} {e : Env} {exit : Nat} {top : Int}

/-- The machine stands where a statement leaves off, `exit` being the end of the function. -/
structure LeftOff (fr : Frame m p b) (exit stop : Nat) (top : Int) (mem : Int → Int) (flow : Flow)
    (w : World) (s : State) : Prop where
  stands : fr.At w top (match flow with | .next => stop | .returned _ => exit) s
  value : ∀ v, flow = .returned (some v) → s.regs .v0 = v.word
  keeps : fr.Keeps top mem s.mem

/-- A statement that goes on with the next one. -/
theorem LeftOff.ofNext {stop : Nat} {mem : Int → Int} {w : World} {s : State}
    (h : fr.At w top stop s) (hk : fr.Keeps top mem s.mem) :
    fr.LeftOff exit stop top mem .next w s :=
  ⟨h, nofun, hk⟩

/-- The code of the statement does what the statement does. -/
def Executes (fr : Frame m p b) (o : Options) (call : Handler) (fuel exit : Nat) (e : Env)
    (st : Stmt) : Prop :=
  ∀ ⦃n n' : Nat⦄ ⦃c : Code⦄ ⦃pos : Nat⦄ ⦃w : World⦄ ⦃top : Int⦄ ⦃s : State⦄,
    (Code.stmt o b (Label.exit fr.fn.name.name) st).run n = .ok (c, n') → m.Seg pos c →
    fr.At w top pos s →
    m.Simulates (Eval.stmt call fuel fr.fn.returns e st) w s
      (fr.LeftOff exit (pos + c.length) top s.mem)

def ExecutesBody (fr : Frame m p b) (o : Options) (call : Handler) (fuel exit : Nat) (e : Env)
    (body : Body) : Prop :=
  ∀ ⦃n n' : Nat⦄ ⦃c : Code⦄ ⦃pos : Nat⦄ ⦃w : World⦄ ⦃top : Int⦄ ⦃s : State⦄,
    (Code.body o b (Label.exit fr.fn.name.name) body).run n = .ok (c, n') → m.Seg pos c →
    fr.At w top pos s →
    m.Simulates (Eval.body call fuel fr.fn.returns e body) w s
      (fr.LeftOff exit (pos + c.length) top s.mem)

def ExecutesAll (fr : Frame m p b) (o : Options) (call : Handler) (fuel exit : Nat) (e : Env)
    (ss : List Stmt) : Prop :=
  ∀ ⦃n n' : Nat⦄ ⦃c : Code⦄ ⦃pos : Nat⦄ ⦃w : World⦄ ⦃top : Int⦄ ⦃s : State⦄,
    (Code.stmts o b (Label.exit fr.fn.name.name) ss).run n = .ok (c, n') → m.Seg pos c →
    fr.At w top pos s →
    m.Simulates (Eval.stmts call fuel fr.fn.returns e ss) w s
      (fr.LeftOff exit (pos + c.length) top s.mem)

/-- A remark in front of code changes nothing. -/
theorem simulates_remark {x : Exec Flow} {text : String} {c : Code} {pos : Nat} {w : World}
    {s : State} (hseg : m.Seg pos (Code.remark o text ++ c)) (h : fr.At w top pos s)
    (hx : ∀ {pos s}, m.Seg pos c → fr.At w top pos s →
      m.Simulates x w s (fr.LeftOff exit (pos + c.length) top s.mem)) :
    m.Simulates x w s (fr.LeftOff exit (pos + (Code.remark o text ++ c).length) top s.mem) := by
  obtain ⟨hremark, hcode⟩ := hseg.append
  obtain ⟨s1, hs1, hat1, hmem1⟩ := h.remark hremark
  rw [← hmem1, List.length_append, ← Nat.add_assoc]
  exact .steps hs1 (hx hcode hat1)

/-! ## Assignments -/

theorem executes_assign {span : Span} {node : Node} {q : Place} {x : Expr}
    (hx : fr.Computes o call e (.assign node q x)) :
    fr.Executes o call fuel exit e (.assign span node q x) := by
  intro n n' c pos w top s hrun hseg h
  simp only [Code.stmt, run_bind_ok, run_pure_ok] at hrun
  obtain ⟨cx, _, hcx, rfl, -⟩ := hrun
  simp only [List.append_assoc] at hseg ⊢
  refine simulates_remark hseg h fun hseg hat => ?_
  obtain ⟨hcode, hdiscard⟩ := hseg.append
  refine (hx hcx hcode hat).bind fun v w1 s1 hp => ?_
  obtain ⟨s2, hs2, hat2, hmem2⟩ := hp.stands.discard h.room hdiscard
  exact ⟨s2, hs2, .ofNext (hat2.cast (by simp; omega)) (hmem2 ▸ hp.keeps)⟩

theorem step_simulates (hc : Compiled m o p b) (he : e.Fits p fr.fn) {delta : Int} {q : Place}
    {k : SymbolId} (hq : PlaceBound e.decls b q k) {n n' : Nat} {c : Code}
    (hrun : (Code.step b delta q).run n = .ok (c, n')) {pos : Nat} {w : World} {s : State}
    (hseg : m.Seg pos c) (h : fr.At w top pos s) :
    m.Simulates (Eval.step e delta q) w s (fr.LeftOff exit (pos + c.length) top s.mem) := by
  simp only [Code.step, run_bind_ok, run_pure_ok] at hrun
  obtain ⟨l, _, hl, rfl, -⟩ := hrun
  simp only [List.append_assoc] at hseg
  obtain ⟨hload, hseg⟩ := hseg.append
  obtain ⟨hadd, hstore⟩ := hseg.append
  refine load_bind fun t sc v ht htype hv => .from?_bind fun x hx => .from?_bind fun y hy =>
    store_bind fun t' sc' a ht' htype' ha => ?_
  obtain rfl := Option.some.inj (ht.symm.trans ht')
  obtain ⟨hden, hloc⟩ := location_of_place? hc.ready fr.mem he hq ht htype
  obtain ⟨rfl, -⟩ := Prod.mk.inj (Except.ok.inj ((hloc n).symm.trans hl))
  obtain rfl : v = .int x := Value.atom.inj (Value.atom_of_int? hx)
  obtain rfl : .int y = a := Value.atom.inj (Value.atom_of_as? ha)
  obtain ⟨s1, hs1, hat1, hr1, hmem1⟩ := h.load hc hden hload (by decide) (by decide) hv
  obtain ⟨hs2, hat2⟩ := hat1.set (r := .t0) (x := y) hadd
    (by simp [Code.bare, item, exec, hr1, Atom.word, hy]) (by decide) (by decide)
  obtain ⟨s3, hs3, hat3, -, hkeeps⟩ := hat2.store hc hden hstore (v := .int y) (by simp [Atom.word])
  refine ⟨s3, (hs1.trans hs2).trans hs3, .ofNext (hat3.cast (by simp)) ?_⟩
  exact (Keeps.of_eq hmem1).trans (hkeeps top)

theorem executes_increment (hc : Compiled m o p b) (he : e.Fits p fr.fn) {span : Span} {q : Place}
    {k : SymbolId} (hq : PlaceBound e.decls b q k) :
    fr.Executes o call fuel exit e (.increment span q) := by
  intro n n' c pos w top s hrun hseg h
  simp only [Code.stmt, run_bind_ok, run_pure_ok] at hrun
  obtain ⟨cx, _, hcx, rfl, -⟩ := hrun
  exact simulates_remark hseg h fun hseg hat => step_simulates hc he hq hcx hseg hat

theorem executes_decrement (hc : Compiled m o p b) (he : e.Fits p fr.fn) {span : Span} {q : Place}
    {k : SymbolId} (hq : PlaceBound e.decls b q k) :
    fr.Executes o call fuel exit e (.decrement span q) := by
  intro n n' c pos w top s hrun hseg h
  simp only [Code.stmt, run_bind_ok, run_pure_ok] at hrun
  obtain ⟨cx, _, hcx, rfl, -⟩ := hrun
  exact simulates_remark hseg h fun hseg hat => step_simulates hc he hq hcx hseg hat

/-! ## Input and output -/

theorem executes_read (hc : Compiled m o p b) (he : e.Fits p fr.fn) {span : Span} {q : Place}
    {k : SymbolId} (hq : PlaceBound e.decls b q k) :
    fr.Executes o call fuel exit e (.read span q) := by
  intro n n' c pos w top s hrun hseg h
  simp only [Code.stmt, Code.read, run_bind_ok, run_pure_ok] at hrun
  obtain ⟨l, _, hl, rfl, -⟩ := hrun
  simp only [List.append_assoc] at hseg ⊢
  refine simulates_remark hseg h fun {pos s} hseg hat => ?_
  obtain ⟨hcall, hstore⟩ := hseg.append
  refine target_bind fun t sc ht htype => ?_
  obtain ⟨hden, hloc⟩ := location_of_place? hc.ready fr.mem he hq ht htype
  obtain ⟨rfl, -⟩ := Prod.mk.inj (Except.ok.inj ((hloc n).symm.trans hl))
  refine next_bind fun x input hin => .from?_bind fun a ha => .modify_bind ?_
  obtain ⟨hs1, hat1⟩ := hat.set hcall rfl (by decide) (by decide)
  -- the number that is read is in `$v0`
  let s2 : State := (State.setReg { (s.setReg .v0 Code.readInt).next with input } .v0 x).next
  have hs2 : m.step (s.setReg .v0 Code.readInt).next = some s2 := by
    refine hcall.tail.step hat1.pc ?_
    simp [Code.bare, item, exec, syscall, Code.readInt, hat.input, hin, s2]
  have hat2 : fr.At { w with input } top (pos + 1 + 1) s2 :=
    ⟨by simp [s2, hat.pc], by simp [s2, hat.fp], by simp [s2, hat.sp], hat.room, hat.dvd,
      ⟨hat.agrees.outer, hat.agrees.inner⟩, rfl, hat.output⟩
  obtain ⟨s3, hs3, hat3, -, hkeeps⟩ := hat2.store hc hden hstore (v := a)
    (by simp [s2, Atom.word_of_ofWord ha])
  exact ⟨s3, (hs1.trans (.single hs2)).trans hs3, .ofNext (hat3.cast (by simp)) (hkeeps top)⟩

/-- The characters at the address of a literal are those that it stands for. -/
theorem syscall_text (hc : Compiled m o p b) {s : State} {k : Nat} {label text : String}
    (hk : m.code[k]? = some (.datum label (.asciiz (Code.quoted text))))
    (ha : m.address? label = some (s.regs .a0)) (hv : s.regs .v0 = Code.printString) :
    m.syscall s = some (s.write (.text (literalText text))).next := by
  obtain ⟨x, hx, rfl, hd⟩ := Code.exists_entry (a := m.dataStart) (List.mem_of_getElem? hk)
  have haddr := Option.some.inj ((address?_eq hc.labels hx).symm.trans ha)
  have htext := text_at hx hd
  rw [haddr, quotedText_quoted] at htext
  simp [syscall, hv, Code.printString, htext]

/-- The system call that prints what `$a0` stands for. -/
theorem print_steps {number : Int} {y : Output} {pos : Nat} {w : World} {s : State}
    (hseg : m.Seg pos [Code.bare (.li .v0 number), Code.bare .syscall]) (h : fr.At w top pos s)
    (hy : m.syscall (s.setReg .v0 number).next = some ((s.setReg .v0 number).next.write y).next) :
    ∃ s', m.Steps s s' ∧ fr.At (w.write y) top (pos + 2) s' ∧ s'.mem = s.mem := by
  obtain ⟨hs1, hat1⟩ := h.set hseg rfl (by decide) (by decide)
  refine ⟨_, hs1.trans (.single (hseg.tail.step hat1.pc hy)), ?_, rfl⟩
  exact ⟨by simp [h.pc], hat1.fp, hat1.sp, h.room, h.dvd, ⟨h.agrees.outer, h.agrees.inner⟩,
    h.input, by simp [World.write, h.output]⟩

theorem executes_write (hc : Compiled m o p b) {span : Span} {x : Expr}
    (hw : (Stmt.write span x).Written b) (hx : fr.Computes o call e x) :
    fr.Executes o call fuel exit e (.write span x) := by
  intro n n' c pos w top s hrun hseg h
  simp only [Code.stmt, Code.write, run_bind_ok, run_pure_ok] at hrun
  obtain ⟨number, _, hnumber, cx, _, hcx, rfl, -⟩ := hrun
  simp only [List.append_assoc] at hseg ⊢
  refine simulates_remark hseg h fun {pos s} hseg hat => ?_
  obtain ⟨hcode, hseg⟩ := hseg.append
  obtain ⟨hpop, hprint⟩ := hseg.append
  refine ((hx hcx hcode hat).with_result fun v w' => gives_of_expr).bind
    fun v w1 s1 h1 => ?_
  obtain ⟨hp, hgives⟩ := h1
  obtain ⟨s2, hs2, hat2, hr2, hmem2, -⟩ := hp.stands.pop hat.room hpop (by decide) (by decide)
  obtain ⟨ty, hty, hstr⟩ := hw
  -- a literal is printed as a text, and only a literal is
  have hy : m.syscall (s2.setReg .v0 number).next =
      some ((s2.setReg .v0 number).next.write v.output).next := by
    obtain ⟨node, text, rfl, rfl⟩ | ⟨hno, a, rfl⟩ := hgives
    · obtain rfl := hstr.2 ⟨node, text, rfl⟩
      simp only [Code.printCall, hty, run_pure_ok] at hnumber
      obtain ⟨rfl, -⟩ := hnumber
      cases hp.shows with
      | str _ _ _ hk ha => exact syscall_text hc hk (by simpa [hr2] using ha) (by simp)
    · have hne : ty ≠ .string := fun h => by
        obtain ⟨node, text, rfl⟩ := hstr.1 h
        exact hno node text rfl
      have hnum : number = Code.printInt := by
        simp only [Code.printCall, hty] at hnumber
        exact (run_pure_ok.1 hnumber).1.symm
      simp [syscall, hnum, Code.printInt, hr2, hp.shows.atom_eq, Value.output]
  obtain ⟨s3, hs3, hat3, hmem3⟩ := print_steps hprint hat2 hy
  refine .modify_bind ⟨s3, hs2.trans hs3, .ofNext (hat3.cast (by simp; omega)) ?_⟩
  exact hp.keeps.trans (.of_eq (hmem3.trans hmem2))

/-! ## Conditions and loops -/

/-- A condition is tested; where it does not hold, the machine gets behind the label. -/
theorem condition_simulates (hc : Compiled m o p b) {x : Expr} (hx : fr.Computes o call e x)
    {target : String} {n n' : Nat} {c : Code}
    (hrun : (Code.branchUnless o b x target).run n = .ok (c, n')) {pos k : Nat} {c' : Code}
    (hseg : m.Seg pos c) (htarget : m.Seg k (.label target :: c')) {w : World} {s : State}
    (h : fr.At w top pos s) :
    m.Simulates (Eval.condition call e x) w s fun v w' s' =>
      fr.At w' top (if v then pos + c.length else k + 1) s' ∧ fr.Keeps top s.mem s'.mem := by
  simp only [Code.branchUnless, run_bind_ok, run_pure_ok] at hrun
  obtain ⟨cx, _, hcx, rfl, -⟩ := hrun
  simp only [List.append_assoc] at hseg ⊢
  obtain ⟨hcode, hseg⟩ := hseg.append
  obtain ⟨hpop, hbranch⟩ := hseg.append
  unfold Eval.condition
  refine (hx hcx hcode h).bind fun v w1 s1 hp => ?_
  obtain ⟨s2, hs2, hat2, hr2, hmem2, -⟩ := hp.stands.pop h.room hpop (by decide) (by decide)
  have hkeeps := hp.keeps.trans (.of_eq hmem2)
  refine .steps hs2 ?_
  cases v with
  | str id text => exact .stuck
  | atom a =>
    cases a with
    | int x => exact .stuck
    | bool v =>
      rw [hp.shows.atom_eq] at hr2
      cases v with
      | true =>
        obtain ⟨hs3, hat3⟩ := hat2.pass hbranch (by simp [hr2, Atom.word])
        exact ⟨_, hs3, hat3.cast (by simp; omega), hkeeps⟩
      | false =>
        obtain ⟨s3, hs3, hat3, hmem3, -⟩ := hat2.branch hc hbranch htarget hr2
        exact ⟨s3, hs3, hat3, hkeeps.trans (.of_eq hmem3)⟩

/-- The code of a body, with more code behind it for when it goes on with the next statement. -/
theorem LeftOff.then {exit stop stop' : Nat} {mem mem' : Int → Int} {flow : Flow} {w : World}
    {s : State} (h : fr.LeftOff exit stop top mem' flow w s) (hk : fr.Keeps top mem mem')
    (hnext : fr.At w top stop s →
      ∃ s', m.Steps s s' ∧ fr.At w top stop' s' ∧ s'.mem = s.mem) :
    ∃ s', m.Steps s s' ∧ fr.LeftOff exit stop' top mem flow w s' := by
  cases flow with
  | next =>
    obtain ⟨s', hs, hat, hmem⟩ := hnext h.stands
    exact ⟨s', hs, .ofNext hat ((hk.trans h.keeps).trans (.of_eq hmem))⟩
  | returned value => exact ⟨s, .refl, h.stands, h.value, hk.trans h.keeps⟩

theorem executes_ifThen (hc : Compiled m o p b) {span : Span} {x : Expr} {body : Body}
    (hx : fr.Computes o call e x) (hbody : fr.ExecutesBody o call fuel exit e body) :
    fr.Executes o call fuel exit e (.ifThen span x body) := by
  intro n n' c pos w top s hrun hseg h
  simp only [Code.stmt, run_bind_ok, run_pure_ok] at hrun
  obtain ⟨stop, _, -, ct, _, hct, cb, _, hcb, rfl, -⟩ := hrun
  simp only [List.append_assoc] at hseg ⊢
  refine simulates_remark hseg h fun {pos s} hseg hat => ?_
  obtain ⟨htest, hseg⟩ := hseg.append
  obtain ⟨hcode, hstop⟩ := hseg.append
  refine (condition_simulates hc hx hct htest hstop hat).bind fun v w1 s1 h1 => ?_
  obtain ⟨hat1, hkeeps⟩ := h1
  cases v with
  | true =>
    refine (hbody hcb hcode hat1).conclude fun flow w2 s2 hleft => hleft.then hkeeps fun hat2 => ?_
    obtain ⟨hs, hat3⟩ := hat2.skip hstop rfl
    exact ⟨_, hs, hat3.cast (by simp; omega), rfl⟩
  | false => exact ⟨s1, .refl, .ofNext (hat1.cast (by simp; omega)) hkeeps⟩

theorem executes_ifElse (hc : Compiled m o p b) {span : Span} {x : Expr} {body body' : Body}
    (hx : fr.Computes o call e x) (hbody : fr.ExecutesBody o call fuel exit e body)
    (hbody' : fr.ExecutesBody o call fuel exit e body') :
    fr.Executes o call fuel exit e (.ifElse span x body body') := by
  intro n n' c pos w top s hrun hseg h
  simp only [Code.stmt, run_bind_ok, run_pure_ok] at hrun
  obtain ⟨other, _, -, stop, _, -, ct, _, hct, cb, _, hcb, cb', _, hcb', rfl, -⟩ := hrun
  simp only [List.append_assoc] at hseg ⊢
  refine simulates_remark hseg h fun {pos s} hseg hat => ?_
  obtain ⟨htest, hseg⟩ := hseg.append
  obtain ⟨hthen, hseg⟩ := hseg.append
  obtain ⟨hjump, hseg⟩ := hseg.append
  obtain ⟨helse, hstop⟩ := hseg.append
  refine (condition_simulates hc hx hct htest hjump.tail hat).bind fun v w1 s1 h1 => ?_
  obtain ⟨hat1, hkeeps⟩ := h1
  cases v with
  | true =>
    refine (hbody hcb hthen hat1).conclude fun flow w2 s2 hleft => hleft.then hkeeps fun hat2 => ?_
    obtain ⟨s3, hs3, hat3, hmem3, -⟩ := hat2.goto hc hjump hstop rfl
    exact ⟨s3, hs3, hat3.cast (by simp; omega), hmem3⟩
  | false =>
    refine (hbody' hcb' helse hat1).conclude fun flow w2 s2 hleft => hleft.then hkeeps fun hat2 => ?_
    obtain ⟨hs3, hat3⟩ := hat2.skip hstop rfl
    exact ⟨_, hs3, hat3.cast (by simp; omega), rfl⟩

theorem LeftOff.keep {stop : Nat} {mem mem' : Int → Int} {flow : Flow} {w : World} {s : State}
    (h : fr.LeftOff exit stop top mem' flow w s) (hk : fr.Keeps top mem mem') :
    fr.LeftOff exit stop top mem flow w s :=
  ⟨h.stands, h.value, hk.trans h.keeps⟩

/-- A loop, whose test starts at `start`; its body starts at `inside`, and gets back to `start`. -/
theorem repeatWhile_simulates {test : Exec Bool} {body : Exec Flow} {start inside stop : Nat}
    (htest : ∀ {w s}, fr.At w top start s → m.Simulates test w s fun v w' s' =>
      fr.At w' top (if v then inside else stop) s' ∧ fr.Keeps top s.mem s'.mem)
    (hbody : ∀ {w s}, fr.At w top inside s →
      m.Simulates body w s (fr.LeftOff exit start top s.mem))
    (fuel : Nat) {w : World} {s : State} (h : fr.At w top start s) :
    m.Simulates (Eval.repeatWhile test body fuel) w s (fr.LeftOff exit stop top s.mem) := by
  induction fuel generalizing w s with
  | zero => exact .stuck
  | succ fuel ih =>
    unfold Eval.repeatWhile
    refine (htest h).bind fun v w1 s1 h1 => ?_
    obtain ⟨hat1, hkeeps1⟩ := h1
    cases v with
    | false => exact ⟨s1, .refl, .ofNext hat1 hkeeps1⟩
    | true =>
      refine (hbody hat1).bind fun flow w2 s2 hleft => ?_
      cases flow with
      | next =>
        refine (ih hleft.stands).mono fun flow w3 s3 hleft' => ?_
        exact hleft'.keep (hkeeps1.trans hleft.keeps)
      | returned value => exact ⟨s2, .refl, hleft.stands, hleft.value, hkeeps1.trans hleft.keeps⟩

theorem executes_whileLoop (hc : Compiled m o p b) {span : Span} {x : Expr} {body : Body}
    (hx : fr.Computes o call e x) (hbody : fr.ExecutesBody o call fuel exit e body) :
    fr.Executes o call fuel exit e (.whileLoop span x body) := by
  intro n n' c pos w top s hrun hseg h
  simp only [Code.stmt, run_bind_ok, run_pure_ok] at hrun
  obtain ⟨start, _, -, stop, _, -, ct, _, hct, cb, _, hcb, rfl, -⟩ := hrun
  simp only [List.append_assoc] at hseg ⊢
  refine simulates_remark hseg h fun {pos s} hseg hat => ?_
  obtain ⟨hstart, hseg⟩ := hseg.append
  obtain ⟨htest, hseg⟩ := hseg.append
  obtain ⟨hcode, hback⟩ := hseg.append
  obtain ⟨hs1, hat1⟩ := hat.skip hstart rfl
  have hback' : ∀ {w s}, fr.At w top (pos + 1 + ct.length) s →
      m.Simulates (Eval.body call fuel fr.fn.returns e body) w s
        (fr.LeftOff exit (pos + 1) top s.mem) := by
    intro w s hat2
    refine (hbody hcb hcode hat2).conclude fun flow w3 s3 hleft => hleft.then (.of_eq rfl)
      fun hat3 => ?_
    obtain ⟨s4, hs4, hat4, hmem4, -⟩ := hat3.goto hc hback hstart rfl
    exact ⟨s4, hs4, hat4, hmem4⟩
  have hloop := repeatWhile_simulates (condition_simulates hc hx hct htest hback.tail) hback' fuel
    hat1
  have hstop : pos + ([Item.label start] ++ (ct ++ (cb ++ [Code.bare (.b start), .label stop]))).length
      = pos + 1 + ct.length + cb.length + 1 + 1 := by
    simp
    omega
  rw [hstop]
  exact .steps hs1 hloop

/-! ## Calls, returns and sequences -/

theorem executes_call (hc : Compiled m o p b) (hcall : Serves m p b call) (he : e.Fits p fr.fn)
    {span : Span} {node : Node} {callee : Ident} {args : List Expr}
    (hargs : fr.ComputesAll o call e args) :
    fr.Executes o call fuel exit e (.call span node callee args) := by
  intro n n' c pos w top s hrun hseg h
  simp only [Code.stmt, Code.expr, run_bind_ok, run_pure_ok] at hrun
  obtain ⟨_, _, ⟨cx, _, hcx, rfl, rfl⟩, rfl, -⟩ := hrun
  simp only [List.append_assoc] at hseg ⊢
  refine simulates_remark hseg h fun {pos s} hseg hat => ?_
  obtain ⟨hxs, hseg⟩ := hseg.append
  obtain ⟨hjal, hseg⟩ := hseg.append
  obtain ⟨hpush, hdiscard⟩ := hseg.append
  refine (hargs hcx hxs hat).bind fun vs w1 s1 hp1 =>
    (invoke_simulates hc hcall he h.room h.dvd hjal hp1).bind fun r w2 s2 h2 => ?_
  obtain ⟨hat2, hkeeps2, -⟩ := h2
  -- whatever `$v0` holds goes to the stack and is dropped
  obtain ⟨s3, hs3, hat3, -, hkeeps3⟩ := hat2.push hc hpush
  obtain ⟨s4, hs4, hat4, hmem4⟩ := hat3.discard h.room hdiscard
  refine ⟨s4, hs3.trans hs4, .ofNext (hat4.cast (by simp; omega)) ?_⟩
  exact (hkeeps2.trans hkeeps3).trans (.of_eq hmem4)

section

variable {k : Nat} {c' : Code}

theorem executes_ret (hc : Compiled m o p b)
    (hexit : m.Seg k (.label (Label.exit fr.fn.name.name) :: c')) (span : Span) :
    fr.Executes o call fuel (k + 1) e (.ret span none) := by
  intro n n' c pos w top s hrun hseg h
  simp only [Code.stmt, Code.returnValue, run_bind_ok, run_pure_ok] at hrun
  obtain ⟨_, _, ⟨rfl, rfl⟩, rfl, -⟩ := hrun
  simp only [List.append_assoc] at hseg ⊢
  refine simulates_remark hseg h fun {pos s} hseg hat => ?_
  obtain ⟨s1, hs1, hat1, hmem1, -⟩ := hat.goto hc hseg hexit rfl
  exact ⟨s1, hs1, hat1, by simp, .of_eq hmem1⟩

theorem executes_retValue (hc : Compiled m o p b)
    (hexit : m.Seg k (.label (Label.exit fr.fn.name.name) :: c')) {span : Span} {x : Expr}
    (hx : fr.Computes o call e x) :
    fr.Executes o call fuel (k + 1) e (.ret span (some x)) := by
  intro n n' c pos w top s hrun hseg h
  simp only [Code.stmt, Code.returnValue, run_bind_ok, run_pure_ok] at hrun
  obtain ⟨_, _, ⟨cx, _, hcx, rfl, rfl⟩, rfl, -⟩ := hrun
  simp only [List.append_assoc] at hseg ⊢
  refine simulates_remark hseg h fun {pos s} hseg hat => ?_
  obtain ⟨hcode, hseg⟩ := hseg.append
  obtain ⟨hpop, hjump⟩ := hseg.append
  refine (hx hcx hcode hat).bind fun v w1 s1 hp => .from?_bind fun a ha => ?_
  obtain rfl := Value.atom_of_as? ha
  obtain ⟨s2, hs2, hat2, hr2, hmem2, -⟩ := hp.stands.pop h.room hpop (by decide) (by decide)
  obtain ⟨s3, hs3, hat3, hmem3, hregs3⟩ := hat2.goto hc hjump hexit rfl
  refine ⟨s3, hs2.trans hs3, hat3, ?_, hp.keeps.trans (.of_eq (hmem3.trans hmem2))⟩
  rintro _ ⟨⟩
  rw [hregs3, hr2, hp.shows.atom_eq]

end

theorem executesAll_nil : fr.ExecutesAll o call fuel exit e [] := by
  intro n n' c pos w top s hrun _ h
  obtain ⟨rfl, -⟩ := run_pure_ok.1 hrun
  exact ⟨s, .refl, .ofNext h (.of_eq rfl)⟩

theorem executesAll_cons {st : Stmt} {ss : List Stmt} (h1 : fr.Executes o call fuel exit e st)
    (h2 : fr.ExecutesAll o call fuel exit e ss) : fr.ExecutesAll o call fuel exit e (st :: ss) := by
  intro n n' c pos w top s hrun hseg h
  simp only [Code.stmts, run_bind_ok, run_pure_ok] at hrun
  obtain ⟨cs, _, hcs, css, _, hcss, rfl, -⟩ := hrun
  obtain ⟨hseg1, hseg2⟩ := hseg.append
  refine (h1 hcs hseg1 h).bind fun flow w1 s1 hleft => ?_
  cases flow with
  | next =>
    refine (h2 hcss hseg2 hleft.stands).mono fun flow w2 s2 hleft' => ?_
    rw [List.length_append, ← Nat.add_assoc]
    exact hleft'.keep hleft.keeps
  | returned value => exact ⟨s1, .refl, hleft.stands, hleft.value, hleft.keeps⟩

mutual

/-- **The code of a statement does what the statement does.** The label at the end of the function
stands at `k`. -/
theorem stmt_executes (hc : Compiled m o p b) (hcall : Serves m p b call) {k : Nat} {c' : Code}
    (hexit : m.Seg k (.label (Label.exit fr.fn.name.name) :: c')) :
    ∀ (st : Stmt) {e : Env} {n : Nat}, e.Fits p fr.fn → StmtBound b e.decls n st →
      st.Written b → st.ids.Nodup → (∀ d ∈ st.allDecls, d ∈ fr.fn.variables) →
      fr.Executes o call fuel (k + 1) e st
  | .assign _ node q x, _, _, he, hb, _, hn, _ =>
    executes_assign (expr_computes hc hcall he (.assign node q x) hb hn)
  | .increment _ _, _, _, he, ⟨_, hq⟩, _, _, _ => executes_increment hc he hq
  | .decrement _ _, _, _, he, ⟨_, hq⟩, _, _, _ => executes_decrement hc he hq
  | .read _ _, _, _, he, ⟨_, hq⟩, _, _, _ => executes_read hc he hq
  | .write _ x, _, _, he, hb, hw, hn, _ =>
    executes_write hc hw (expr_computes hc hcall he x hb hn)
  | .ifThen _ x body, _, _, he, ⟨hx, hb⟩, hw, hn, hd => by
    simp only [Stmt.ids, List.nodup_append] at hn
    exact executes_ifThen hc (expr_computes hc hcall he x hx hn.1)
      (body_executes hc hcall hexit body he hb hw hn.2.1 hd)
  | .ifElse _ x body body', _, _, he, ⟨hx, hb, hb'⟩, ⟨hw, hw'⟩, hn, hd => by
    simp only [Stmt.ids, List.nodup_append] at hn
    exact executes_ifElse hc (expr_computes hc hcall he x hx hn.1.1)
      (body_executes hc hcall hexit body he hb hw hn.1.2.1
        fun d h => hd d (List.mem_append_left _ h))
      (body_executes hc hcall hexit body' he hb' hw' hn.2.1
        fun d h => hd d (List.mem_append_right _ h))
  | .whileLoop _ x body, _, _, he, ⟨hx, hb⟩, hw, hn, hd => by
    simp only [Stmt.ids, List.nodup_append] at hn
    exact executes_whileLoop hc (expr_computes hc hcall he x hx hn.1)
      (body_executes hc hcall hexit body he hb hw hn.2.1 hd)
  | .call _ _ _ args, _, _, he, ⟨_, hb⟩, _, hn, _ => by
    simp only [Stmt.ids, List.nodup_cons, List.nodup_append] at hn
    exact executes_call hc hcall he (exprs_compute hc hcall he args hb hn.2.1)
  | .ret span none, _, _, _, _, _, _, _ => executes_ret hc hexit span
  | .ret _ (some x), _, _, he, hb, _, hn, _ =>
    executes_retValue hc hexit (expr_computes hc hcall he x hb hn)

theorem body_executes (hc : Compiled m o p b) (hcall : Serves m p b call) {k : Nat} {c' : Code}
    (hexit : m.Seg k (.label (Label.exit fr.fn.name.name) :: c')) :
    ∀ (body : Body) {e : Env} {n : Nat}, e.Fits p fr.fn → BodyBound b e.decls n body →
      body.Written b → body.ids.Nodup → (∀ d ∈ body.allDecls, d ∈ fr.fn.variables) →
      fr.ExecutesBody o call fuel (k + 1) e body
  | .block ds ss, e, _, he, ⟨_, hb⟩, hw, hn, hd => by
    simp only [Body.ids, List.nodup_append] at hn
    rw [← Env.decls_extend] at hb
    intro n n' c pos w top s hrun hseg h
    unfold Code.body at hrun
    exact stmts_execute hc hcall hexit ss
      (he.extend fun d h => hd d (List.mem_append_left _ h)) hb hw hn.2.1
      (fun d h => hd d (List.mem_append_right _ h)) hrun hseg h

theorem stmts_execute (hc : Compiled m o p b) (hcall : Serves m p b call) {k : Nat} {c' : Code}
    (hexit : m.Seg k (.label (Label.exit fr.fn.name.name) :: c')) :
    ∀ (ss : List Stmt) {e : Env} {n : Nat}, e.Fits p fr.fn → StmtsBound b e.decls n ss →
      Stmt.AllWritten b ss → (Stmt.allIds ss).Nodup →
      (∀ d ∈ Stmt.manyDecls ss, d ∈ fr.fn.variables) →
      fr.ExecutesAll o call fuel (k + 1) e ss
  | [], _, _, _, _, _, _, _ => executesAll_nil
  | st :: ss, _, _, he, ⟨hb, hbs⟩, ⟨hw, hws⟩, hn, hd => by
    simp only [Stmt.allIds, List.nodup_append] at hn
    exact executesAll_cons
      (stmt_executes hc hcall hexit st he hb hw hn.1 fun d h => hd d (List.mem_append_left _ h))
      (stmts_execute hc hcall hexit ss he hbs hws hn.2.1
        fun d h => hd d (List.mem_append_right _ h))

end

end Frame

end FlatC
