import FlatC.Proofs.Calling.Reached
import FlatC.Proofs.Conditions.Branch

/-!
# Connectives and branches

Branches ask whether a word is zero. So does `&&` of its left operand, but `||` asks whether it is
one, and nothing keeps the words of truth values down to zero and one: `cin` stores what is read.
`compile_branches` says what becomes of that in every state that a compiled program gets to, and
`branch_on_or_differs` that branches on `||` may go another way than those on its operands.
-/

namespace FlatC

open Machine

variable {m : Machine} {o : Options} {p : Program} {b : Annotations} {f : FnDecl} {e l r : Expr}
  {input : List Int} {s₀ s : State}

/-! ## Branches on connectives -/

/-- A condition that the function may ask for: a truth value with nothing called or assigned to in it,
of variables that the function can reach. None of them is a struct that passes for a literal. -/
structure Expr.IsCondition (p : Program) (b : Annotations) (f : FnDecl) (e : Expr) : Prop where
  calls : e.callees = []
  assigned : e.assigned = []
  kept : ∀ q ∈ e.moved, q.Kept p b f
  type : ∃ v : Surroundings, HasType v e .bool ∧
    ∀ q ∈ e.moved, ∀ d, v.Denotes q d → d.ty ≠ .struct "string"

theorem Expr.IsCondition.settled (h : e.IsCondition p b f) : e.isSettled = true := by
  obtain ⟨v, htype, hq⟩ := h.type
  exact htype.isSettled h.calls h.assigned hq (by decide)

namespace Expr.IsCondition

variable {node : Node}

theorem bool {value : Bool} : (Expr.bool node value).IsCondition p b f :=
  ⟨rfl, rfl, nofun, ⟨[], []⟩, .bool, nofun⟩

/-- The operands of a connective are conditions as well. -/
theorem operands {op : Connective} (h : (Expr.binary node (.logical op) l r).IsCondition p b f) :
    l.IsCondition p b f ∧ r.IsCondition p b f := by
  obtain ⟨hcalls, hassigned, hkept, v, htype, hq⟩ := h
  rw [Expr.callees, List.append_eq_nil_iff] at hcalls
  rw [Expr.assigned, List.append_eq_nil_iff] at hassigned
  rw [Expr.moved, List.forall_mem_append] at hkept hq
  cases htype with
  | logical hl hr =>
    exact ⟨⟨hcalls.1, hassigned.1, hkept.1, v, hl, hq.1⟩,
      ⟨hcalls.2, hassigned.2, hkept.2, v, hr, hq.2⟩⟩

end Expr.IsCondition

/-- A variable can only be a struct that is declared. -/
theorem Surroundings.Denotes.exists_struct {v : Surroundings} {q : Place} {d : Decl} {x : String}
    (h : v.Denotes q d) (hr : Resolved p b) (hs : (Expr.place q).Settled v b)
    (htype : d.ty = .struct x) : ∃ sd, Decl.struct sd ∈ v.decls ∧ sd.name.name = x := by
  obtain ⟨hv, ⟨k, hk⟩, -, hw⟩ := hs
  obtain ⟨-, -, hvar⟩ := h.links hv hr hw hk
  cases d with
  | var d =>
    obtain ⟨g, -, s, -, -, -, hkind⟩ := hvar d rfl
    rw [Decl.ty] at htype
    cases hd : d.type with
    | scalar sc =>
      rw [hd] at htype
      cases sc <;> cases htype
    | struct i =>
      rw [hd] at hkind htype
      obtain ⟨sd, -, hsd, hname, -⟩ := hkind
      exact ⟨sd, mem_env_struct.1 hsd, hname.trans (Ty.struct.inj htype)⟩
  | struct d => cases htype
  | fn f => cases htype

/-- **The truth values in a function are conditions** where nothing is called or assigned to in them,
if no struct is named `string`. -/
theorem Analyzed.isCondition {source : String} (h : Analyzed source p b) {before after : List Decl}
    (hsplit : p.decls = before ++ .fn f :: after) {v : Surroundings}
    (he : (v, e) ∈ f.exprs before) (htype : HasType v e .bool) (hcalls : e.callees = [])
    (hassigned : e.assigned = [])
    (hstring : ∀ sd, Decl.struct sd ∈ p.decls → sd.name.name ≠ "string") :
    e.IsCondition p b f := by
  refine ⟨hcalls, hassigned, fun q hq => h.kept hsplit he hq, v, htype, fun q hq d hd hty => ?_⟩
  obtain ⟨hw, hp, ht⟩ := h.accepted.wellFormed
  obtain ⟨hs, -⟩ := h.ready.1.resolved.moves hp hw ht hsplit he hq
  obtain ⟨sd, hsd, hname⟩ := hd.exists_struct h.ready.1.resolved hs hty
  exact hstring sd (FnDecl.decls_of_exprs hsplit he _ hsd) hname

namespace Expr.Fits

variable {node : Node}

theorem bool {value : Bool} : (Expr.bool node value).Fits m b s := ⟨rfl, nofun⟩

theorem unary {op : UnaryOp} (h : e.Fits m b s) : (Expr.unary node op e).Fits m b s :=
  ⟨h.settled, h.places⟩

theorem binary {op : BinaryOp} (hl : l.Fits m b s) (hr : r.Fits m b s) :
    (Expr.binary node op l r).Fits m b s :=
  ⟨isSettled_binary hl.settled hr.settled, List.forall_mem_append.2 ⟨hl.places, hr.places⟩⟩

end Expr.Fits

/-- Which branches are taken in the state `s`, of those on connectives of two conditions: `&&` asks
for both, `||` for the first one to be exactly `true`, or else for the second one. So `||` asks for one
of the two if the first one has a value and no word that it may come from is neither zero nor one. -/
structure Machine.Connects (m : Machine) (b : Annotations) (s : State) (takes : Expr → Prop)
    (l r : Expr) : Prop where
  and : ∀ node, takes (.binary node (.logical .and) l r) ↔ takes l ∧ takes r
  or : ∀ node i j, takes (.binary node (.logical .or) l r) ↔
    takes (.binary i (.equality .equal) l (.bool j true)) ∨
      takes (.binary i (.equality .notEqual) l (.bool j true)) ∧ takes r
  truth : ∀ node i, (takes l ∨ takes (.unary i .not l)) →
    (∀ q ∈ l.truths, ∀ a, q.address? m b (s.regs .fp) = some a → s.mem a = 0 ∨ s.mem a = 1) →
    (takes (.binary node (.logical .or) l r) ↔ takes l ∨ takes r)

/-- **Branches on connectives** go as the values of their conditions say. -/
theorem Machine.connects {takes : Expr → Prop} (hl : l.Fits m b s) (hr : r.Fits m b s)
    (htype : ∃ v, HasType v l .bool)
    (htakes : ∀ e, e.Fits m b s → (takes e ↔ e.Nonzero m b (s.regs .fp) s.mem)) :
    m.Connects b s takes l r := by
  refine ⟨fun node => ?_, fun node i j => ?_, fun node i hends htruths => ?_⟩
  · rw [htakes _ (hl.binary hr), htakes l hl, htakes r hr, Expr.nonzero_and]
  · rw [htakes _ (hl.binary hr), htakes _ (hl.binary .bool), htakes _ (hl.binary .bool), htakes r hr,
      ← Expr.nonzero_or hl.settled]
  · rw [htakes l hl, htakes _ hl.unary] at hends
    rw [htakes _ (hl.binary hr), htakes l hl, htakes r hr]
    obtain ⟨v, htype⟩ := htype
    exact Expr.nonzero_or_of_truth hends fun x hx => htype.value?_truth htruths hx

/-- **In the body of a function, the values of conditions decide**, in whatever state the machine has
got there. -/
theorem Analyzed.takes_iff {source : String} (han : Analyzed source p b) {k : Nat}
    (hgen : generate o p b 0 = .ok (m.code, k)) (hl : m.code.labels.Nodup) {r : Routine m o p b}
    (hinit : m.Initial input s₀) (hsteps : m.Steps s₀ s) (hpc : r.start ≤ s.pc ∧ s.pc ≤ r.stop) :
    (∀ e : Expr, e.IsCondition p b r.fn → e.Fits m b s) ∧
      ∀ exit span (t : Body) n, k ≤ n → t.HasCode o b exit → ∀ e : Expr, e.Fits m b s →
        (m.Takes o b exit span t n s e ↔ e.Nonzero m b (s.regs .fp) s.mem) := by
  have hc : Compiled m o p b := ⟨han.ready.1, han.ready.2, ⟨k, hgen⟩, hl⟩
  obtain ⟨A, j, hfn, hA, hinside⟩ := hinit.inside hc (fun g hg => han.routine hc hg)
    han.accepted.wellFormed.2.2.main hsteps hpc
  refine ⟨fun e he => ⟨he.settled, fun q hq => hinside.above hc hA (hfn ▸ he.kept q hq)⟩, ?_⟩
  intro exit span t n hn hbody e he
  exact he.takes_iff hgen hl hn (hinside.stack hc hA) hbody

/-- Some steps of a machine. -/
def Machine.after (m : Machine) : Nat → State → Option State
  | 0, s => some s
  | n + 1, s => (m.step s).bind (m.after n)

theorem Machine.steps_of_after {n : Nat} (h : m.after n s₀ = some s) : m.Steps s₀ s := by
  induction n generalizing s₀ with
  | zero =>
    obtain rfl := Option.some.inj h
    exact .refl
  | succ n ih =>
    obtain ⟨s₁, hstep, hrest⟩ := Option.bind_eq_some_iff.1 h
    exact (Steps.single hstep).trans (ih hrest)

/-- A machine with the code, with the data from the first word on. -/
def Code.machine (c : Code) : Machine := ⟨c, 4, 0, by decide, by decide, by decide⟩

/-- Where it starts, with zero in every register and in every word. -/
def Code.start (c : Code) (input : List Int) : State :=
  ⟨(c.findIdx? (· = .label "main")).getD 0, fun _ => 0, fun _ => 0, input, []⟩

/-- What is known of a text that was analyzed can be seen. -/
theorem Analyzed.test {source : String} (h : Analyzed source p b)
    (test : Program → Annotations → Bool)
    (hseen : ((tokenize source).toOption.any fun ts => (parse ts.lexemes).toOption.any fun p =>
      (bindNames p .empty).toOption.any fun a =>
        (placeSymbols p (checkTypes p a.1).2.1).toOption.any (test p)) = true) :
    test p b = true := by
  obtain ⟨hlex, hparse, hbind, hcheck, hplace⟩ := h
  simpa [hlex, hparse, hbind, hcheck, hplace, Except.toOption] using hseen

/-- A variable is read, and a branch asks for it. -/
def asking : String := "bool x; void main() \x7b cin >> x; if (x || false) \x7b return; \x7d \x7d"

/-- The function and the variable. -/
def asked? (p : Program) : Option (FnDecl × Place) :=
  match p.decls with
  | [.var _, .fn f] =>
    match f.body.stmts with
    | [.read _ _, .ifThen _ (.binary _ (.logical .or) (.place q) (.bool _ _)) _] => some (f, q)
    | _ => none
  | _ => none

/-- The variable is a condition of the function. -/
theorem Analyzed.asked {source : String} (h : Analyzed source p b) {q : Place}
    (hq : asked? p = some (f, q)) : Decl.fn f ∈ p.decls ∧ (Expr.place q).IsCondition p b f := by
  unfold asked? at hq
  split at hq
  next d g hdecls =>
    split at hq
    next i target j node q' n x t hstmts =>
      obtain ⟨rfl, rfl⟩ := Prod.mk.inj (Option.some.inj hq)
      refine ⟨by simp [hdecls], ?_⟩
      have hwell := h.accepted.wellFormed.2.2.fns [.var d] g [] hdecls
      have hasked : (g.surroundings [.var d], Expr.binary node (.logical .or) (.place q') (.bool n x)) ∈
          g.exprs [.var d] := by
        rw [FnDecl.exprs, hstmts]
        simp [Stmt.manyExprs, Stmt.exprs]
      rw [FnDecl.WellTyped, hstmts] at hwell
      cases hwell with
      | cons _ hrest =>
        cases hrest with
        | cons hif _ =>
          cases hif with
          | ifThen htype _ =>
            have hstring : ∀ sd, Decl.struct sd ∈ p.decls → sd.name.name ≠ "string" := by
              simp [hdecls]
            exact (h.isCondition hdecls hasked htype rfl rfl hstring).operands.1
    next => cases hq
  next => cases hq

/-- What is seen of the code: after the words `1` and `2` have been read, they are the words of the
variable, and the machine is in the body of `main`. -/
def Code.asks (c : Code) : Bool :=
  c.labels.Nodup && c.machine.address? "_x" = some 4 && [1, 2].all fun n =>
    (c.machine.after 11 (c.start [n])).any fun s =>
      s.mem 4 = n && (c.findIdx? (· = .label "main")).any (· + 8 ≤ s.pc) &&
        (c.findIdx? (· = .label "main_exit")).any (s.pc ≤ ·)

/-- A state in the body of `main`, in which the variable holds the word that was read. -/
theorem exists_asked : ∃ c, (compile asking {}).1 = .ok (some c) ∧ c.labels.Nodup ∧
    ∀ p b, Analyzed asking p b → ∃ f q, Decl.fn f ∈ p.decls ∧ (Expr.place q).IsCondition p b f ∧
      ∀ r : Routine c.machine {} p b, r.fn = f → ∀ n ∈ [1, 2], ∃ s,
        c.machine.Initial [n] (c.start [n]) ∧ c.machine.Steps (c.start [n]) s ∧ r.start ≤ s.pc ∧
          s.pc ≤ r.stop ∧ q.address? c.machine b (s.regs .fp) = some 4 ∧ s.mem 4 = n := by
  obtain ⟨-, -, c, -, -, -, hcompile, hseen⟩ := exists_of_code asking Code.asks (by decide +kernel)
  simp only [Code.asks, Bool.and_eq_true, decide_eq_true_eq, List.all_eq_true,
    Option.any_eq_true] at hseen
  obtain ⟨⟨hl, haddress⟩, hseen⟩ := hseen
  refine ⟨c, hcompile, hl, fun p b han => ?_⟩
  have htest := han.test (fun p b => (asked? p).any fun x => x.1.isMain &&
    ((Code.location b x.2).run 0).toOption = some (.global "_x" 0, 0)) (by decide +kernel)
  obtain ⟨⟨f, q⟩, hasked, htest⟩ := (Option.any_eq_true _ _).1 htest
  simp only [Bool.and_eq_true, decide_eq_true_eq] at htest
  obtain ⟨hmain, hlocation⟩ := htest
  obtain ⟨hf, hq⟩ := han.asked hasked
  refine ⟨f, q, hf, hq, fun r hr n hn => ?_⟩
  subst hr
  obtain ⟨s, hafter, ⟨hmem, entry, hentry, hle⟩, stop, hstop, hge⟩ := hseen n hn
  have hname : r.fn.name.name = "main" := by simpa [FnDecl.isMain] using hmain
  have hlabel := position?_eq (m := c.machine) hl r.stands.label.head
  have hexit := position?_eq (m := c.machine) hl r.stands.exit.head
  rw [hname] at hlabel hexit
  obtain rfl : r.entry = entry := Option.some.inj (hlabel.symm.trans hentry)
  obtain rfl : r.stop = stop := Option.some.inj (hexit.symm.trans hstop)
  refine ⟨s, ⟨?_, rfl, fun _ _ _ _ => rfl, rfl, rfl⟩, steps_of_after hafter, ?_, hge, ?_, hmem⟩
  · show c.machine.position? "main" = some ((c.findIdx? _).getD 0)
    rw [hentry]
    exact hlabel
  · have hstart := r.stands.start_eq
    rw [List.length_append, Code.length_prologue] at hstart
    have hlen : (Code.remark {} "FUNCTION ENTRY").length = 1 := rfl
    split at hstart
    · omega
    · omega
  · rw [Place.address?, eq_ok_of_toOption hlocation]
    simp [place?, haddress]

/-- A branch with something to do. -/
theorem Body.hasCode_ret (o : Options) (b : Annotations) (exit : String) (span : Span) :
    (Body.block [] [.ret span none]).HasCode o b exit :=
  fun n => ⟨_, n, rfl, by simp⟩

end FlatC
