import FlatC.Proofs.Code.Closed
import FlatC.Proofs.Code.Labels
import FlatC.Proofs.Code.Parts
import FlatC.Proofs.Layout.Slots
import FlatC.Proofs.Machine.Data
import FlatC.Proofs.Spans.Outline

/-!
# How many operands are on the stack

Inside the body of a function, the **depth** is the number of words on the stack above the frame.
`Instr.rise?` gives the depth behind an instruction, and nothing where the instruction asks for
operands that are not there or uses the stack in a way of its own; `Code.rise?` goes along code line
by line.

Code is **steady** (`Steady`) if it goes from one depth to another and every jump goes to a label of
the same depth. As with `Block`, steady code is put together, and a label that is set is no longer
open. The code of an expression raises the depth by one, wherever it starts, and that of a statement
leaves it at zero.

`compile_balanced` says that the lines of every function have their depths: every statement starts
and ends at zero, and every expression ends one above where it starts.
-/

namespace FlatC

open Code (Part)

/-- The number of parameters of the function that starts at a label. -/
def Program.formals? (p : Program) (l : String) : Option Nat :=
  (p.functions.find? fun g => Label.function g.name.name = l).map (·.params.length)

/-- Functions with different names start at different labels. -/
theorem Program.formals?_eq {p : Program} (hn : (p.decls.map Decl.key).Nodup) {g : FnDecl}
    (hg : Decl.fn g ∈ p.decls) :
    p.formals? (Label.function g.name.name) = some g.params.length := by
  have hsome : (p.functions.find? fun f =>
      Label.function f.name.name = Label.function g.name.name).isSome := by
    rw [List.find?_isSome]
    exact ⟨g, mem_functions.2 hg, by simp⟩
  obtain ⟨f, hf⟩ := Option.isSome_iff_exists.1 hsome
  have hlabel : Label.function f.name.name = Label.function g.name.name := by
    simpa using List.find?_some hf
  have hmem := mem_functions.1 (List.mem_of_find?_eq_some hf)
  have hkey : (Decl.fn f).key = (Decl.fn g).key :=
    Decl.start?_inj rfl (congrArg some hlabel.symm)
  obtain rfl := Decl.fn.inj (List.inj_on_of_nodup_map hn hmem hg hkey)
  rw [formals?, hf]
  rfl

/-! ## Depths -/

def Address.base? : Address → Option Reg
  | indexed _ base => some base
  | label .. => none

namespace Instr

/-- The instruction names the stack pointer, or leaves the function. -/
def usesStack : Instr → Bool
  | .lw r a | .sw r a => r = .sp || a.base? = some .sp
  | .li r _ | .la r _ | .beq r _ _ => r = .sp
  | .move r q | .addi r q _ | .addu r q _ | .subu r q _ | .neg r q => r = .sp || q = .sp
  | .alu _ r q x => r = .sp || q = .sp || x = .reg .sp
  | .b _ | .syscall => false
  | .jal _ | .jr _ => true

/-- The depth behind an instruction, where `d` is the one in front of it. A push ends with the
first of these, a pop starts with the third and ends with the second. A call takes the arguments from
the stack. -/
def rise? (p : Program) (d : Nat) : Instr → Option Nat
  | .subu .sp .sp n => if n = wordSize then some (d + 1) else none
  | .addu .sp .sp n => if n = wordSize ∧ 0 < d then some (d - 1) else none
  | .lw r (.indexed n .sp) => if r ≠ .sp ∧ n = wordSize ∧ 0 < d then some d else none
  | .sw r (.indexed n .sp) => if r ≠ .sp ∧ n = 0 then some d else none
  | .jal l => (p.formals? l).bind fun n => if n ≤ d then some (d - n) else none
  | i => if i.usesStack then none else some d

variable {p : Program} {d n : Nat} {r : Reg}

theorem rise?_eq {i : Instr} (h : i.usesStack = false) : i.rise? p d = some d := by
  unfold rise?
  split <;> simp_all [usesStack, Address.base?]

-- the two instructions of a push, the two of a pop, and a call
theorem rise?_put (hr : r ≠ .sp) : (sw r (.indexed 0 .sp)).rise? p d = some d := if_pos ⟨hr, rfl⟩

theorem rise?_grow : (subu .sp .sp wordSize).rise? p d = some (d + 1) := rfl

theorem rise?_top (hr : r ≠ .sp) :
    (lw r (.indexed wordSize .sp)).rise? p (d + 1) = some (d + 1) :=
  if_pos ⟨hr, rfl, d.succ_pos⟩

theorem rise?_shrink : (addu .sp .sp wordSize).rise? p (d + 1) = some d := rfl

theorem rise?_call {l : String} (h : p.formals? l = some n) :
    (jal l).rise? p (d + n) = some d := by
  show (p.formals? l).bind _ = _
  rw [h, Option.bind_some, if_pos (Nat.le_add_left n d), Nat.add_sub_cancel]

/-- The instruction jumps to a label inside the function. -/
def jumps : Instr → Bool
  | .b _ | .beq .. => true
  | _ => false

theorem ref?_ne_jump {i : Instr} (h : i.jumps = false) (l : String) : i.ref? ≠ some (.jump l) := by
  intro hl
  cases i with
  | b | beq => cases h
  | lw _ a | sw _ a => cases a <;> cases hl
  | _ => cases hl

end Instr

/-- The depth behind a line. What is not an instruction does not change it. -/
def Item.rise? (p : Program) (d : Nat) : Item → Option Nat
  | .instr i _ => i.rise? p d
  | _ => some d

namespace Code

variable {p : Program} {d d' k : Nat} {c c' : Code} {x : Item}

/-- The depth behind code. -/
def rise? (p : Program) (d : Nat) (c : Code) : Option Nat := c.foldlM (fun d x => x.rise? p d) d

/-- The lines of code, each with the depth in front of it. -/
def graded (p : Program) (d : Nat) : Code → List (Nat × Item)
  | [] => []
  | x :: c =>
    (d, x) :: match x.rise? p d with
      | some d' => graded p d' c
      | none => []

@[simp] theorem rise?_nil : rise? p d [] = some d := rfl

theorem rise?_cons : rise? p d (x :: c) = (x.rise? p d).bind (rise? p · c) := List.foldlM_cons

theorem rise?_append : rise? p d (c ++ c') = (rise? p d c).bind (rise? p · c') :=
  List.foldlM_append

theorem exists_rise?_of_append (h : rise? p d (c ++ c') = some k) :
    ∃ d', rise? p d c = some d' ∧ rise? p d' c' = some k := by
  rw [rise?_append] at h
  exact Option.bind_eq_some_iff.1 h

theorem graded_append (h : rise? p d c = some d') :
    graded p d (c ++ c') = graded p d c ++ graded p d' c' := by
  induction c generalizing d with
  | nil => rw [Option.some.inj h]; rfl
  | cons x c ih =>
    rw [rise?_cons, Option.bind_eq_some_iff] at h
    obtain ⟨d₁, hx, hc⟩ := h
    simp only [List.cons_append, graded, hx, ih hc]

/-- A line is graded with the depth behind the lines in front of it. -/
theorem mem_graded : (k, x) ∈ graded p d c ↔
    ∃ pre post, c = pre ++ x :: post ∧ rise? p d pre = some k := by
  constructor
  · intro h
    induction c generalizing d with
    | nil => cases h
    | cons y c ih =>
      rcases List.mem_cons.1 h with h | h
      · obtain ⟨rfl, rfl⟩ := Prod.mk.inj h
        exact ⟨[], c, rfl, rfl⟩
      · split at h
        next d' hy =>
          obtain ⟨pre, post, rfl, hpre⟩ := ih h
          refine ⟨y :: pre, post, rfl, ?_⟩
          rw [rise?_cons, hy]
          exact hpre
        next => cases h
  · rintro ⟨pre, post, rfl, hpre⟩
    rw [graded_append hpre]
    exact List.mem_append_right _ (.head _)

end Code

/-! ## Steady code -/

section

variable (p : Program)

/-- The code goes from the depth `d` to the depth `d'`, and jumps only to labels of the same depth:
its own, or those of `ls`. -/
structure Steady (ls : List (String × Nat)) (d : Nat) (c : Code) (d' : Nat) : Prop where
  rise : c.rise? p d = some d'
  jumps : ∀ k i note l, (k, Item.instr i note) ∈ c.graded p d → i.ref? = some (.jump l) →
    (l, k) ∈ ls ∨ (k, Item.label l) ∈ c.graded p d

/-- The code puts `n` operands on the stack, at any depth. -/
abbrev Pushes (n : Nat) (c : Code) : Prop := ∀ d, Steady p [] d c (d + n)

end

namespace Steady

variable {p : Program} {ls : List (String × Nat)} {d d₁ d₂ : Nat} {c c' : Code}

theorem nil : Steady p ls d [] d := by
  refine ⟨rfl, fun k i note l hi => ?_⟩
  cases hi

theorem append (h : Steady p ls d c d₁) (h' : Steady p ls d₁ c' d₂) :
    Steady p ls d (c ++ c') d₂ := by
  refine ⟨by rw [Code.rise?_append, h.rise]; exact h'.rise, ?_⟩
  rw [Code.graded_append h.rise]
  intro k i note l hi hl
  rcases List.mem_append.1 hi with hi | hi
  · exact (h.jumps k i note l hi hl).imp_right (List.mem_append_left _)
  · exact (h'.jumps k i note l hi hl).imp_right (List.mem_append_right _)

/-- A label that the code sets at its depth is not open. -/
theorem close {l : String} {k : Nat} (h : Steady p ((l, k) :: ls) d c d₁)
    (hl : (k, Item.label l) ∈ c.graded p d) : Steady p ls d c d₁ := by
  refine ⟨h.rise, fun k' i note l' hi hl' => ?_⟩
  rcases h.jumps k' i note l' hi hl' with hopen | hset
  · rcases List.mem_cons.1 hopen with heq | hopen
    · obtain ⟨rfl, rfl⟩ := Prod.mk.inj heq
      exact .inr hl
    · exact .inl hopen
  · exact .inr hset

/-- Where no label is open, any may be. -/
theorem any (h : Steady p [] d c d₁) : Steady p ls d c d₁ :=
  ⟨h.rise, fun k i note l hi hl => .inr ((h.jumps k i note l hi hl).resolve_left nofun)⟩

/-- A line stands at the depth that the code in front of it goes to. -/
theorem mem_graded {x : Item} (h : Steady p ls d c d₁) (post : Code) (hc : c' = c ++ x :: post) :
    (d₁, x) ∈ c'.graded p d :=
  Code.mem_graded.2 ⟨c, post, hc, h.rise⟩

theorem line {x : Item} (hx : x.rise? p d = some d₁)
    (hjump : ∀ i note l, x = .instr i note → i.ref? = some (.jump l) → (l, d) ∈ ls) :
    Steady p ls d [x] d₁ := by
  refine ⟨by rw [Code.rise?_cons, hx]; rfl, fun k i note l hi hl => ?_⟩
  have hone : (k, Item.instr i note) = (d, x) := by
    unfold Code.graded at hi
    rw [hx] at hi
    exact List.mem_singleton.1 hi
  obtain ⟨rfl, rfl⟩ := Prod.mk.inj hone
  exact .inl (hjump i note l rfl hl)

/-- A line that is no instruction. -/
theorem silent {x : Item} (hx : x.rise? p d = some d) (hi : ∀ i note, x ≠ .instr i note) :
    Steady p ls d [x] d :=
  line hx fun i note _ heq => absurd heq (hi i note)

theorem label (l : String) : Steady p ls d [.label l] d := silent rfl (by simp)

theorem instr {i : Instr} {note : Option String} (hi : i.rise? p d = some d₁)
    (hjump : i.jumps = false) : Steady p ls d [.instr i note] d₁ := by
  refine line hi fun i' note' l heq hl => ?_
  obtain ⟨rfl, -⟩ := Item.instr.inj heq
  exact absurd hl (Instr.ref?_ne_jump hjump l)

/-- An instruction that has nothing to do with the stack. -/
theorem plain {i : Instr} {note : Option String} (hi : i.usesStack = false)
    (hjump : i.jumps = false) : Steady p ls d [.instr i note] d :=
  instr (Instr.rise?_eq hi) hjump

theorem jump {l : String} (h : (l, d) ∈ ls) : Steady p ls d [Code.bare (.b l)] d := by
  refine line rfl fun i note l' heq hl => ?_
  obtain ⟨rfl, rfl⟩ := Item.instr.inj heq
  cases hl
  exact h

theorem branch {r : Reg} (hr : r ≠ .sp) {value : Int} {l : String} (h : (l, d) ∈ ls) :
    Steady p ls d [Code.bare (.beq r value l)] d := by
  have hrise : (Instr.beq r value l).rise? p d = some d := Instr.rise?_eq (decide_eq_false hr)
  refine line hrise fun i note l' heq hl => ?_
  obtain ⟨rfl, rfl⟩ := Item.instr.inj heq
  cases hl
  exact h

end Steady

/-! ## Pieces of code -/

namespace Code

variable {o : Options} {p : Program} {ls : List (String × Nat)} {d : Nat}

theorem remark_steady (text : String) : Steady p ls d (remark o text) d := by
  unfold remark
  split
  · exact .silent rfl (by simp)
  · exact .nil

theorem push_steady {r : Reg} (hr : r ≠ .sp) : Steady p ls d (push o r) (d + 1) := by
  have hput : Steady p ls d [noted o (.sw r (.indexed 0 .sp)) ("PUSH " ++ r.text)] d :=
    .instr (Instr.rise?_put hr) rfl
  exact hput.append (.instr Instr.rise?_grow rfl)

theorem peek_steady {r : Reg} (hr : r ≠ .sp) : Steady p ls (d + 1) (peek o r) (d + 1) :=
  .instr (Instr.rise?_top hr) rfl

theorem discard_steady : Steady p ls (d + 1) (discard o) d :=
  .instr Instr.rise?_shrink rfl

theorem pop_steady {r : Reg} (hr : r ≠ .sp) : Steady p ls (d + 1) (pop o r) d := by
  have htop : Steady p ls (d + 1)
      [noted o (.lw r (.indexed wordSize .sp)) ("POP " ++ r.text)] (d + 1) :=
    .instr (Instr.rise?_top hr) rfl
  exact htop.append (.instr Instr.rise?_shrink rfl)

theorem load_steady {r : Reg} (hr : r ≠ .sp) (l : Location) : Steady p ls d (load r l) d := by
  cases l <;>
    exact .plain (by simp [Location.address, Instr.usesStack, Address.base?, hr]) rfl

theorem store_steady {r : Reg} (hr : r ≠ .sp) (l : Location) : Steady p ls d (store r l) d := by
  cases l <;>
    exact .plain (by simp [Location.address, Instr.usesStack, Address.base?, hr]) rfl

theorem immediate_steady (value : Int) : Steady p ls d (immediate o value) (d + 1) := by
  have hli : Steady p ls d [bare (.li .t0 value)] d := .plain rfl rfl
  exact hli.append (push_steady (by decide))

theorem operate_steady (op : AluOp) : Steady p ls (d + 2) (operate o op) (d + 1) := by
  have halu : Steady p ls d [bare (.alu op .t0 .t0 (.reg .t1))] d :=
    .plain rfl rfl
  have hpop : Steady p ls (d + 2) (pop o .t1) (d + 1) := pop_steady (by decide)
  have hpops : Steady p ls (d + 2) (pop o .t1 ++ pop o .t0) d := hpop.append (pop_steady (by decide))
  exact (hpops.append halu).append (push_steady (by decide))

theorem sign_steady (op : UnaryOp) : Steady p ls d [bare (sign op)] d := by
  cases op <;> exact .plain rfl rfl

/-! ## Expressions -/

variable {b : Annotations} {v : Surroundings}

theorem length_eq_of_hasTypes {es : List Expr} {tys : List Ty} (h : HasTypes v es tys) :
    es.length = tys.length := by
  induction tys generalizing es with
  | nil => cases h; rfl
  | cons ty tys ih =>
    cases h with
    | cons _ hes => rw [List.length_cons, List.length_cons, ih hes]

theorem stringLiteral_pushes (text : String) : Emits (stringLiteral o text) (Pushes p 1) := by
  refine .bind (emits_any _) fun l _ => .pure fun d => ?_
  have hdata : Steady p [] d [Item.data] d := .silent rfl (by simp)
  have hdatum : Steady p [] d [Item.datum l (.asciiz (quoted text))] d := .silent rfl (by simp)
  have htext : Steady p [] d [Item.text] d := .silent rfl (by simp)
  have hla : Steady p [] d [bare (.la .t0 l)] d := .plain rfl rfl
  exact (((hdata.append hdatum).append htext).append hla).append (push_steady (by decide))

mutual

/-- **The code of an expression puts one operand on the stack**, at any depth. -/
theorem expr_pushes (hn : (p.decls.map Decl.key).Nodup) (hv : ∀ x ∈ v.decls, x ∈ p.decls) :
    ∀ (e : Expr) {ty : Ty}, HasType v e ty → Emits (expr o b e) (Pushes p 1)
  | .int .., _, _ | .bool .., _, _ => .pure fun _ => immediate_steady _
  | .str _ text, _, _ => stringLiteral_pushes text
  | .place q, _, _ =>
    .bind (emits_any _) fun l _ =>
      .pure fun _ => (load_steady (by decide) l).append (push_steady (by decide))
  | .assign _ target value, _, .assign _ he _ _ => by
    refine .bind (expr_pushes hn hv value he) fun x hx => .bind (emits_any _) fun l _ => .pure ?_
    exact fun d => ((hx d).append (peek_steady (by decide))).append (store_steady (by decide) l)
  | .call _ callee args, _, .call hd hfn hargs hsame => by
    obtain ⟨g, rfl, hparams, -⟩ := Decl.fn_of_ty hfn
    have hname : g.name.name = callee.name := Option.some.inj hd.value
    -- the rule for calls asks for as many arguments as there are parameters
    have hlength : args.length = g.params.length := by
      rw [length_eq_of_hasTypes hargs, hsame.length_eq, hparams, List.length_map]
    refine .bind (exprs_pushes hn hv args hargs) fun xs hxs => .pure fun d => ?_
    have hjal : Steady p [] (d + args.length) [bare (.jal (Label.function callee.name))] d := by
      rw [← hname, hlength]
      exact .instr (Instr.rise?_call (p.formals?_eq hn (hv _ hd.fn))) rfl
    exact ((hxs d).append hjal).append (push_steady (by decide))
  | .unary _ .negate operand, _, .negate he | .unary _ .not operand, _, .not he => by
    refine .bind (expr_pushes hn hv operand he) fun x hx => .pure fun d => ?_
    exact (((hx d).append (pop_steady (by decide))).append (sign_steady _)).append
      (push_steady (by decide))
  | .binary _ (.arith _) left right, _, .arith hl hr
  | .binary _ (.equality _) left right, _, .equality hl hr _ _ _
  | .binary _ (.order _) left right, _, .order hl hr =>
    .bind (expr_pushes hn hv left hl) fun _ hx => .bind (expr_pushes hn hv right hr) fun _ hy =>
      .pure fun d => ((hx d).append (hy (d + 1))).append (operate_steady _)
  | .binary _ (.logical op) left right, _, .logical hl hr => by
    refine .bind (emits_any _) fun stop _ => .bind (expr_pushes hn hv left hl) fun x hx =>
      .bind (expr_pushes hn hv right hr) fun y hy => .pure fun d => ?_
    -- on both ways to the label one operand is on the stack: the left one, or the right one
    have htest : Steady p [(stop, d + 1)] d
        (x ++ peek o .t0 ++ [bare (.beq .t0 (decisive op) stop)]) (d + 1) :=
      ((hx d).any.append (peek_steady (by decide))).append (.branch (by decide) (.head []))
    have hleft := (htest.append (discard_steady (o := o))).append (hy d).any
    exact (hleft.append (.label stop)).close (hleft.mem_graded [] rfl)

theorem exprs_pushes (hn : (p.decls.map Decl.key).Nodup) (hv : ∀ x ∈ v.decls, x ∈ p.decls) :
    ∀ (es : List Expr) {tys : List Ty}, HasTypes v es tys →
      Emits (exprs o b es) (Pushes p es.length)
  | [], _, _ => .pure fun _ => .nil
  | e :: es, _, .cons he hes => by
    refine .bind (expr_pushes hn hv e he) fun x hx => .bind (exprs_pushes hn hv es hes) fun xs hxs =>
      .pure fun d => ?_
    rw [List.length_cons, Nat.add_comm es.length, ← Nat.add_assoc]
    exact (hx d).append (hxs (d + 1))

end

/-! ## Statements -/

theorem step_steady (delta : Int) (q : Place) :
    Emits (step b delta q) fun c => Steady p ls 0 c 0 := by
  refine .bind (emits_any _) fun l _ => .pure ?_
  have hadd : Steady p ls 0 [bare (.addi .t0 .t0 delta)] 0 := .plain rfl rfl
  exact ((load_steady (by decide) l).append hadd).append (store_steady (by decide) l)

/-- A system call with its number. -/
theorem system_steady (number : Int) :
    Steady p ls d [bare (.li .v0 number), bare .syscall] d := by
  have hli : Steady p ls d [bare (.li .v0 number)] d := .plain rfl rfl
  exact hli.append (.plain rfl rfl)

theorem read_steady (q : Place) : Emits (read o b q) fun c => Steady p ls 0 c 0 := by
  refine .bind (emits_any _) fun l _ => .pure ?_
  exact ((remark_steady "READ").append (system_steady readInt)).append (store_steady (by decide) l)

theorem popBranch_steady {l : String} (h : (l, d) ∈ ls) :
    Steady p ls (d + 1) (pop o .t0 ++ [bare (.beq .t0 0 l)]) d :=
  (pop_steady (by decide)).append (.branch (by decide) h)

variable {exit : String} {ret : Ty}

theorem branchUnless_steady (hn : (p.decls.map Decl.key).Nodup)
    (hv : ∀ x ∈ v.decls, x ∈ p.decls) {e : Expr} {ty : Ty}
    (he : HasType v e ty) {l : String} (hl : (l, 0) ∈ ls) :
    Emits (branchUnless o b e l) fun c => Steady p ls 0 c 0 := by
  refine .bind (expr_pushes hn hv e he) fun x hx => .pure ?_
  rw [List.append_assoc]
  exact (hx 0).any.append (popBranch_steady hl)

mutual

/-- **The code of a statement leaves no operands on the stack.** -/
theorem stmt_steady (hn : (p.decls.map Decl.key).Nodup) :
    ∀ (st : Stmt) {v : Surroundings} {ls : List (String × Nat)},
    (∀ x ∈ v.decls, x ∈ p.decls) → StmtTyped ret v st → (exit, 0) ∈ ls →
    Emits (stmt o b exit st) fun c => Steady p ls 0 c 0
  | .assign .., v, ls, hv, .assign h, _ =>
    .bind (expr_pushes hn hv _ h) fun x hx =>
      .pure (((remark_steady "ASSIGN").append (hx 0).any).append discard_steady)
  | .increment _ target, _, _, _, _, _ | .decrement _ target, _, _, _, _, _ =>
    .bind (step_steady _ target) fun x hx => .pure ((remark_steady _).append hx)
  | .read _ target, _, _, _, _, _ => read_steady target
  | .write _ value, v, ls, hv, .write h _ _, _ => by
    refine .bind (emits_any _) fun number _ => .bind (expr_pushes hn hv value h) fun x hx => .pure ?_
    have hvalue : Steady p ls 0 (remark o "WRITE" ++ x) 1 := (remark_steady "WRITE").append (hx 0).any
    exact (hvalue.append (pop_steady (by decide))).append (system_steady number)
  | .ifThen _ cond body, v, ls, hv, .ifThen he hb, hexit => by
    refine .bind (emits_any _) fun stop _ => ?_
    have hstop : (stop, 0) ∈ (stop, 0) :: ls := .head ls
    refine .bind (branchUnless_steady hn hv he hstop) fun test htest => ?_
    refine .bind (body_steady hn body hv hb (.tail (stop, 0) hexit)) fun code hcode => .pure ?_
    have hall := ((remark_steady (o := o) "IF").append htest).append hcode
    exact (hall.append (.label stop)).close (hall.mem_graded [] rfl)
  | .ifElse _ cond thenBody elseBody, v, ls, hv, .ifElse he hb hb', hexit => by
    refine .bind (emits_any _) fun other _ => .bind (emits_any _) fun stop _ => ?_
    have hexit' : (exit, 0) ∈ (other, 0) :: (stop, 0) :: ls := .tail _ (.tail _ hexit)
    refine .bind (branchUnless_steady hn hv he (.head ((stop, 0) :: ls))) fun test htest => ?_
    refine .bind (body_steady hn thenBody hv hb hexit') fun thenCode hthen => ?_
    refine .bind (body_steady hn elseBody hv hb' hexit') fun elseCode helse => .pure ?_
    have hfirst := (((remark_steady (o := o) "IF").append htest).append hthen).append
      (.jump (.tail _ (.head ls)))
    have hboth := (hfirst.append (.label other)).append helse
    have hall := (hboth.append (.label stop)).close
      (hfirst.mem_graded (elseCode ++ [.label stop]) (by simp))
    simpa using hall.close (hboth.mem_graded [] rfl)
  | .whileLoop _ cond body, v, ls, hv, .whileLoop he hb, hexit => by
    refine .bind (emits_any _) fun start _ => .bind (emits_any _) fun stop _ => ?_
    have hexit' : (exit, 0) ∈ (start, 0) :: (stop, 0) :: ls := .tail _ (.tail _ hexit)
    have hstop : (stop, 0) ∈ (start, 0) :: (stop, 0) :: ls := .tail _ (.head ls)
    refine .bind (branchUnless_steady hn hv he hstop) fun test htest => ?_
    refine .bind (body_steady hn body hv hb hexit') fun code hcode => .pure ?_
    have hremark : Steady p ((start, 0) :: (stop, 0) :: ls) 0 (remark o "WHILE") 0 :=
      remark_steady "WHILE"
    have hloop := (((hremark.append (.label start)).append htest).append hcode).append
      (.jump (.head _))
    have hall := (hloop.append (.label stop)).close
      (hremark.mem_graded (test ++ code ++ [bare (.b start), .label stop]) (by simp))
    simpa using hall.close (hloop.mem_graded [] rfl)
  | .call .., v, ls, hv, .call h, _ =>
    .bind (expr_pushes hn hv _ h) fun x hx =>
      .pure (((remark_steady "CALL").append (hx 0).any).append discard_steady)
  | .ret _ none, _, _, _, _, hexit =>
    .bind (.pure (Q := fun c => Steady p _ 0 c 0) .nil) fun _ hx =>
      .pure (((remark_steady "RETURN").append hx).append (.jump hexit))
  | .ret _ (some value), v, ls, hv, .retValue _ he _, hexit => by
    have hvalue : Emits (returnValue o b (some value)) fun c => Steady p ls 0 c 0 :=
      .bind (expr_pushes hn hv value he) fun x hx => .pure ((hx 0).any.append (pop_steady (by decide)))
    exact .bind hvalue fun x hx => .pure (((remark_steady "RETURN").append hx).append (.jump hexit))

theorem body_steady (hn : (p.decls.map Decl.key).Nodup) :
    ∀ (t : Body) {v : Surroundings} {ls : List (String × Nat)},
    (∀ x ∈ v.decls, x ∈ p.decls) → BodyTyped ret v t → (exit, 0) ∈ ls →
    Emits (body o b exit t) fun c => Steady p ls 0 c 0
  | .block ds ss, v, _, hv, .block h, hexit => stmts_steady hn ss (v := v.enter ds) hv h hexit

theorem stmts_steady (hn : (p.decls.map Decl.key).Nodup) :
    ∀ (ss : List Stmt) {v : Surroundings} {ls : List (String × Nat)},
    (∀ x ∈ v.decls, x ∈ p.decls) → StmtsTyped ret v ss → (exit, 0) ∈ ls →
    Emits (stmts o b exit ss) fun c => Steady p ls 0 c 0
  | [], _, _, _, _, _ => .pure .nil
  | s :: ss, _, _, hv, .cons h hss, hexit =>
    .bind (stmt_steady hn s hv h hexit) fun _ hx =>
      .bind (stmts_steady hn ss hv hss hexit) fun _ hxs => .pure (hx.append hxs)

end

/-! ## Parts -/

namespace Part

/-- The part is well typed in surroundings that the program declares. -/
def Typed (p : Program) : Part → Prop
  | own _ => True
  | expr e => ∃ v ty, (∀ x ∈ v.decls, x ∈ p.decls) ∧ HasType v e ty
  | exprs es => ∃ v tys, (∀ x ∈ v.decls, x ∈ p.decls) ∧ HasTypes v es tys
  | stmt s => ∃ v ret, (∀ x ∈ v.decls, x ∈ p.decls) ∧ StmtTyped ret v s
  | stmts ss => ∃ v ret, (∀ x ∈ v.decls, x ∈ p.decls) ∧ StmtsTyped ret v ss

theorem typed_stmts (hv : ∀ x ∈ v.decls, x ∈ p.decls) {t : Body} (h : BodyTyped ret v t) :
    (stmts t.stmts).Typed p := by
  cases h with
  | @block _ ds ss h => exact ⟨v.enter ds, ret, hv, h⟩

theorem splitExpr_typed (hv : ∀ x ∈ v.decls, x ∈ p.decls) {e : Expr} {ty : Ty}
    (h : HasType v e ty) : Emits (splitExpr o b e) fun ys => ∀ y ∈ ys, y.Typed p := by
  cases h with
  | int | str | bool | place => exact .pure (List.forall_mem_singleton.2 trivial)
  | assign _ he | negate he | not he =>
    refine .pure ?_
    simp only [List.forall_mem_cons]
    exact ⟨⟨v, _, hv, he⟩, trivial, nofun⟩
  | call _ _ hargs =>
    refine .pure ?_
    simp only [List.forall_mem_cons]
    exact ⟨⟨v, _, hv, hargs⟩, trivial, nofun⟩
  | arith hl hr | order hl hr | equality hl hr =>
    refine .pure ?_
    simp only [List.forall_mem_cons]
    exact ⟨⟨v, _, hv, hl⟩, ⟨v, _, hv, hr⟩, trivial, nofun⟩
  | logical hl hr =>
    refine .bind (emits_any _) fun _ _ => .pure ?_
    simp only [List.forall_mem_cons]
    exact ⟨⟨v, _, hv, hl⟩, trivial, ⟨v, _, hv, hr⟩, trivial, nofun⟩

theorem splitStmt_typed (hv : ∀ x ∈ v.decls, x ∈ p.decls) {s : Stmt} (h : StmtTyped ret v s) :
    Emits (splitStmt o b exit s) fun ys => ∀ y ∈ ys, y.Typed p := by
  cases h with
  | increment | decrement | read | ret => exact .pure (List.forall_mem_singleton.2 trivial)
  | assign he | call he | retValue _ he =>
    refine .pure ?_
    simp only [List.forall_mem_cons]
    exact ⟨trivial, ⟨v, _, hv, he⟩, trivial, nofun⟩
  | write he =>
    refine .bind (emits_any _) fun _ _ => .pure ?_
    simp only [List.forall_mem_cons]
    exact ⟨trivial, ⟨v, _, hv, he⟩, trivial, nofun⟩
  | ifThen he hb =>
    refine .bind (emits_any _) fun _ _ => .pure ?_
    simp only [List.forall_mem_cons]
    exact ⟨trivial, ⟨v, _, hv, he⟩, trivial, typed_stmts hv hb, trivial, nofun⟩
  | ifElse he hb hb' =>
    refine .bind (emits_any _) fun _ _ => .bind (emits_any _) fun _ _ => .pure ?_
    simp only [List.forall_mem_cons]
    exact ⟨trivial, ⟨v, _, hv, he⟩, trivial, typed_stmts hv hb, trivial, typed_stmts hv hb', trivial,
      nofun⟩
  | whileLoop he hb =>
    refine .bind (emits_any _) fun _ _ => .bind (emits_any _) fun _ _ => .pure ?_
    simp only [List.forall_mem_cons]
    exact ⟨trivial, ⟨v, _, hv, he⟩, trivial, typed_stmts hv hb, trivial, nofun⟩

theorem split_typed (x : Part) (h : x.Typed p) :
    Emits (x.split o b exit) fun ys => ∀ y ∈ ys, y.Typed p := by
  cases x with
  | own => exact .pure (List.forall_mem_singleton.2 trivial)
  | expr e =>
    obtain ⟨v, ty, hv, he⟩ := h
    exact splitExpr_typed hv he
  | exprs es =>
    obtain ⟨v, tys, hv, hes⟩ := h
    cases hes with
    | nil => exact .pure nofun
    | cons he hes =>
      refine .pure ?_
      simp only [List.forall_mem_cons]
      exact ⟨⟨v, _, hv, he⟩, ⟨v, _, hv, hes⟩, nofun⟩
  | stmt s =>
    obtain ⟨v, ret, hv, hs⟩ := h
    exact splitStmt_typed hv hs
  | stmts ss =>
    obtain ⟨v, ret, hv, hss⟩ := h
    cases hss with
    | nil => exact .pure nofun
    | cons hs hss =>
      refine .pure ?_
      simp only [List.forall_mem_cons]
      exact ⟨⟨v, ret, hv, hs⟩, ⟨v, ret, hv, hss⟩, nofun⟩

/-- A statement, or several. -/
def IsStmt : Part → Prop
  | stmt _ | stmts _ => True
  | own _ | expr _ | exprs _ => False

@[simp] theorem not_isStmt_own (g : Gen Code) : ¬ (own g).IsStmt := id

@[simp] theorem not_isStmt_expr (e : Expr) : ¬ (expr e).IsStmt := id

@[simp] theorem not_isStmt_exprs (es : List Expr) : ¬ (exprs es).IsStmt := id

/-- From the depth `d` on, the parts go from depth to depth, and the statements among them start at
zero. -/
def Level (p : Program) (o : Options) (b : Annotations) (exit : String) : Nat → List Part → Prop
  | _, [] => True
  | d, y :: ys => (y.IsStmt → d = 0) ∧
      ∃ d', Emits (y.code o b exit) (fun c => c.rise? p d = some d') ∧ Level p o b exit d' ys

theorem Level.before {d : Nat} {before after : List Part} {y : Part} {m k : Nat} {c : Code}
    (h : Level p o b exit d (before ++ y :: after)) (hy : y.IsStmt)
    (hc : (codes o b exit before).run m = .ok (c, k)) : c.rise? p d = some 0 := by
  induction before generalizing d m c with
  | nil =>
    obtain ⟨rfl, -⟩ := run_pure_ok.1 hc
    exact congrArg some (h.1 hy)
  | cons x before ih =>
    obtain ⟨-, d', hx, hrest⟩ := h
    simp only [codes, run_bind_ok, run_pure_ok] at hc
    obtain ⟨cx, m', hcx, cs, k', hcs, rfl, rfl⟩ := hc
    rw [rise?_append, (hx m cx m' trivial hcx).2]
    exact ih hrest hcs

theorem Level.items {d d' : Nat} {c : Code} {ys : List Part} (ls : List (String × Nat))
    (hc : Steady p ls d c d') (h : Level p o b exit d' ys) :
    Level p o b exit d (items c :: ys) :=
  ⟨nofun, d', .pure hc.rise, h⟩

theorem Level.expr {d : Nat} {e : Expr} {ys : List Part} (he : Emits (Code.expr o b e) (Pushes p 1))
    (h : Level p o b exit (d + 1) ys) : Level p o b exit d (expr e :: ys) :=
  ⟨nofun, d + 1, he.mono fun _ hc => (hc d).rise, h⟩

theorem Level.stmts {ss : List Stmt} {ys : List Part} {ls : List (String × Nat)}
    (hss : Emits (Code.stmts o b exit ss) fun c => Steady p ls 0 c 0)
    (h : Level p o b exit 0 ys) : Level p o b exit 0 (stmts ss :: ys) :=
  ⟨fun _ => rfl, 0, hss.mono fun _ hc => hc.rise, h⟩

theorem emits_stmts (hn : (p.decls.map Decl.key).Nodup) (hv : ∀ x ∈ v.decls, x ∈ p.decls)
    {t : Body} (h : BodyTyped ret v t) :
    Emits (Code.stmts o b exit t.stmts) fun c => Steady p [(exit, 0)] 0 c 0 := by
  rw [← body_eq]
  exact body_steady hn t hv h (.head [])

/-- The statements inside a statement start at depth zero. -/
theorem splitStmt_level (hn : (p.decls.map Decl.key).Nodup) (hv : ∀ x ∈ v.decls, x ∈ p.decls)
    {s : Stmt} (h : StmtTyped ret v s) :
    Emits (splitStmt o b exit s) fun ys => (∀ y ∈ ys, ¬ y.IsStmt) ∨ Level p o b exit 0 ys := by
  cases h with
  | assign | increment | decrement | read | call | ret | retValue =>
    exact .pure (.inl (by simp))
  | write => exact .bind (emits_any _) fun _ _ => .pure (.inl (by simp))
  | ifThen he hb =>
    refine .bind (emits_any _) fun stop _ => .pure (.inr ?_)
    refine .items [] (remark_steady "IF") (.expr (expr_pushes hn hv _ he) ?_)
    refine .items _ (popBranch_steady (.head [])) (.stmts (emits_stmts hn hv hb) ?_)
    exact .items [] (.label stop) trivial
  | ifElse he hb hb' =>
    refine .bind (emits_any _) fun other _ => .bind (emits_any _) fun stop _ => .pure (.inr ?_)
    refine .items [] (remark_steady "IF") (.expr (expr_pushes hn hv _ he) ?_)
    refine .items _ (popBranch_steady (.head [])) (.stmts (emits_stmts hn hv hb) ?_)
    refine .items _ ((Steady.jump (.head [])).append (.label other)) ?_
    exact .stmts (emits_stmts hn hv hb') (.items [] (.label stop) trivial)
  | whileLoop he hb =>
    refine .bind (emits_any _) fun start _ => .bind (emits_any _) fun stop _ => .pure (.inr ?_)
    refine .items [] ((remark_steady "WHILE").append (.label start))
      (.expr (expr_pushes hn hv _ he) ?_)
    refine .items _ (popBranch_steady (.head [])) (.stmts (emits_stmts hn hv hb) ?_)
    exact .items _ ((Steady.jump (.head [])).append (.label stop)) trivial

theorem splitExpr_level (e : Expr) : Emits (splitExpr o b e) fun ys => ∀ y ∈ ys, ¬ y.IsStmt := by
  cases e with
  | int | str | bool | place | assign | call | unary => exact .pure (by simp)
  | binary _ op left right =>
    cases op with
    | arith | equality | order => exact .pure (by simp)
    | logical => exact .bind (emits_any _) fun _ _ => .pure (by simp)

/-- Only statements have statements for parts, and those start at depth zero. -/
theorem split_level (hn : (p.decls.map Decl.key).Nodup) (x : Part) (h : x.Typed p) :
    Emits (x.split o b exit) fun ys =>
      (∀ y ∈ ys, ¬ y.IsStmt) ∨ (x.IsStmt ∧ Level p o b exit 0 ys) := by
  cases x with
  | own => exact .pure (.inl (by simp))
  | expr e => exact (splitExpr_level e).mono fun _ => .inl
  | exprs es => cases es <;> exact .pure (.inl (by simp))
  | stmt s =>
    obtain ⟨v, ret, hv, hs⟩ := h
    exact (splitStmt_level hn hv hs).mono fun _ => .imp_right fun hl => ⟨trivial, hl⟩
  | stmts ss =>
    obtain ⟨v, ret, hv, hss⟩ := h
    cases hss with
    | nil => exact .pure (.inr ⟨trivial, trivial⟩)
    | cons hs hss =>
      have hexit : (exit, 0) ∈ [(exit, 0)] := .head []
      refine .pure (.inr ⟨trivial, fun _ => rfl, 0, ?_, ?_⟩)
      · exact (stmt_steady hn _ hv hs hexit).mono fun _ hc => hc.rise
      · exact .stmts (stmts_steady hn _ hv hss hexit) trivial

section At

variable {root x : Part} {n₀ n pos m₀ d : Nat} {c₀ : Code}

theorem At.typed (hroot : root.Typed p) (h : At o b exit root n₀ x n pos) : x.Typed p :=
  h.induct (P := Typed p) split_typed hroot

/-- The statements inside of statements start at depth zero. -/
theorem At.starts (hn : (p.decls.map Decl.key).Nodup) (hroot : root.Typed p)
    (hrun : (root.code o b exit).run n₀ = .ok (c₀, m₀)) (h : At o b exit root n₀ x n pos) :
    ∃ pre c post m, c₀ = pre ++ (c ++ post) ∧ pre.length = pos ∧
      (x.code o b exit).run n = .ok (c, m) ∧ (x.IsStmt → pre.rise? p 0 = some 0) := by
  induction h with
  | root => exact ⟨[], c₀, [], m₀, by simp, rfl, hrun, fun _ => rfl⟩
  | @part x y before after n m k pos c hx hsplit hbefore ih =>
    obtain ⟨pre, cx, post, mx, rfl, rfl, hcx, hpre⟩ := ih
    obtain ⟨c', k', cy, my, post', hc', hy, rfl⟩ := code_of_split hcx hsplit
    obtain ⟨rfl, rfl⟩ := Prod.mk.inj (Except.ok.inj (hc'.symm.trans hbefore))
    refine ⟨pre ++ c', cy, post' ++ post, my, by simp, by simp, hy, fun hstmt => ?_⟩
    obtain ⟨-, hflat | ⟨hx', hlevel⟩⟩ := split_level hn x (hx.typed hroot) n _ m trivial hsplit
    · exact absurd hstmt (hflat y (by simp))
    · rw [rise?_append, hpre hx']
      exact hlevel.before hstmt hbefore

/-- How far the code of a part raises the depth. -/
theorem At.rise (hn : (p.decls.map Decl.key).Nodup) (hroot : root.Typed p)
    (hrun : (root.code o b exit).run n₀ = .ok (c₀, m₀)) (h₀ : c₀.rise? p 0 = some d)
    (h : At o b exit root n₀ x n pos) :
    ∃ pre c post m k k', c₀ = pre ++ (c ++ post) ∧ pre.length = pos ∧
      (x.code o b exit).run n = .ok (c, m) ∧ pre.rise? p 0 = some k ∧
      (pre ++ c).rise? p 0 = some k' ∧ (∀ e, x = .expr e → k' = k + 1) ∧
      (∀ s, x = .stmt s → k = 0 ∧ k' = 0) := by
  obtain ⟨pre, c, post, m, rfl, hpos, hcode, hstart⟩ := h.starts hn hroot hrun
  have htyped := h.typed hroot
  obtain ⟨k, hk, hrest⟩ := exists_rise?_of_append h₀
  obtain ⟨k', hk', -⟩ := exists_rise?_of_append hrest
  have hboth : (pre ++ c).rise? p 0 = some k' := by rw [rise?_append, hk]; exact hk'
  refine ⟨pre, c, post, m, k, k', rfl, hpos, hcode, hk, hboth, ?_, ?_⟩
  · rintro e rfl
    obtain ⟨v, ty, hv, he⟩ := htyped
    have hpush := (expr_pushes hn hv e he n c m trivial hcode).2 k
    exact Option.some.inj (hk'.symm.trans hpush.rise)
  · rintro s rfl
    obtain ⟨v, ret, hv, hs⟩ := htyped
    obtain rfl := Option.some.inj (hk.symm.trans (hstart trivial))
    have hkeep := (stmt_steady hn s hv hs (.head []) n c m trivial hcode).2
    exact ⟨rfl, Option.some.inj (hk'.symm.trans hkeep.rise)⟩

end At

end Part

end Code

/-! ## Functions -/

/-- `depth` is right for the lines of a body, the label `exit` at the end of it included. It is zero
in front of the first line, and at `exit`. Every line takes the depth in front of it to the one in
front of the next line, and a jump goes to a line of its own depth. -/
structure Depths (p : Program) (exit : String) (lines : Code) (depth : Nat → Nat) : Prop where
  start : depth 0 = 0
  stop : ∀ j, lines[j]? = some (Item.label exit) → depth j = 0
  moves : ∀ k x, lines[k]? = some x → x.rise? p (depth k) = some (depth (k + 1))
  jumps : ∀ k i note l, lines[k]? = some (Item.instr i note) → i.ref? = some (.jump l) →
    (∃ j : Nat, lines[j]? = some (Item.label l)) ∧
      ∀ j : Nat, lines[j]? = some (Item.label l) → depth j = depth k

namespace Code

variable {p : Program} {c lines : Code} {d k : Nat} {exit : String}

/-- The depth in front of a line. -/
def depthAt (p : Program) (lines : Code) (k : Nat) : Nat := (rise? p 0 (lines.take k)).getD 0

theorem depthAt_eq {pre : Code} (h : rise? p 0 pre = some d) (hpre : pre <+: lines) :
    depthAt p lines pre.length = d := by
  rw [depthAt, ← List.prefix_iff_eq_take.1 hpre, h]
  rfl

theorem rise?_take (h : rise? p 0 lines = some d) (k : Nat) :
    rise? p 0 (lines.take k) = some (depthAt p lines k) := by
  rw [← List.take_append_drop k lines] at h
  obtain ⟨d', hd', -⟩ := exists_rise?_of_append h
  rw [depthAt, hd']
  rfl

theorem depthAt_succ (h : rise? p 0 lines = some d) {x : Item} (hx : lines[k]? = some x) :
    x.rise? p (depthAt p lines k) = some (depthAt p lines (k + 1)) := by
  have hlines := rise?_take h (k + 1)
  rw [List.take_add_one, hx, rise?_append, rise?_take h k] at hlines
  simpa [rise?_cons] using hlines

/-- A line is graded with its depth. -/
theorem depthAt_of_mem {x : Item} (h : (d, x) ∈ lines.graded p 0) :
    ∃ k, lines[k]? = some x ∧ depthAt p lines k = d := by
  obtain ⟨pre, post, rfl, hpre⟩ := mem_graded.1 h
  exact ⟨pre.length, by simp, depthAt_eq hpre (List.prefix_append ..)⟩

theorem mem_graded_depthAt (h : rise? p 0 lines = some d) {x : Item} (hx : lines[k]? = some x) :
    (depthAt p lines k, x) ∈ lines.graded p 0 := by
  obtain ⟨hk, rfl⟩ := List.getElem?_eq_some_iff.1 hx
  refine mem_graded.2 ⟨lines.take k, lines.drop (k + 1), ?_, rise?_take h k⟩
  rw [← List.drop_eq_getElem_cons hk, List.take_append_drop]

/-- Steady code, with the label at the end that it may jump to, has its depths. -/
theorem depths_of_steady (h : Steady p [(exit, 0)] 0 c 0)
    (hlabels : (c ++ [Item.label exit]).labels.Nodup) :
    Depths p exit (c ++ [Item.label exit]) (depthAt p (c ++ [Item.label exit])) := by
  have hexit := h.mem_graded (x := .label exit) [] rfl
  have hsteady := (h.append (.label exit)).close hexit
  generalize c ++ [Item.label exit] = lines at hexit hsteady hlabels
  -- a label stands on one line, so it has one depth
  have hunique : ∀ {l d j}, (d, Item.label l) ∈ lines.graded p 0 →
      lines[j]? = some (Item.label l) → depthAt p lines j = d := by
    intro l d j hl hj
    obtain ⟨k, hk, rfl⟩ := depthAt_of_mem hl
    rw [index_unique hlabels hj hk rfl rfl]
  refine ⟨rfl, fun j hj => hunique hexit hj, fun k x hx => depthAt_succ hsteady.rise hx, ?_⟩
  intro k i note l hi hl
  have hset := (hsteady.jumps _ i note l (mem_graded_depthAt hsteady.rise hi) hl).resolve_left
    List.not_mem_nil
  obtain ⟨j, hj, -⟩ := depthAt_of_mem hset
  exact ⟨⟨j, hj⟩, fun j hj => hunique hset hj⟩

end Code

/-- What is known of a function has room for a word a parameter, which is what calls of it push. -/
theorem Code.fnInfo_formalSpace {p : Program} {b : Annotations} {f : FnDecl} {info : FnInfo}
    {n m : Nat} (hr : Ready p b) (hf : Decl.fn f ∈ p.decls)
    (h : (fnInfo b f.name).run n = .ok (info, m)) :
    info.formalSpace = wordSize * f.params.length := by
  obtain ⟨k, hk⟩ := hr.fnAt hf
  obtain ⟨s, info', hs, hinfo, hformal, -⟩ := hk.placed.info
  simp only [fnInfo, hr.resolved.symbolOf? hk.link, hs, Option.bind_some, hinfo, run_pure_ok] at h
  rw [← h.1, hformal]

/-- The code of the function `f` has its depths in the file `code`. Every statement of the function
starts and ends at depth zero, and every expression ends one above the depth where it starts. The
epilogue drops a word a parameter, as many as a call takes from the stack. -/
def FnDecl.Balanced (o : Options) (p : Program) (b : Annotations) (code : Code) (f : FnDecl) :
    Prop :=
  ∃ before info n body m after depth,
    code = before ++ (Code.directives f.isMain ++
      .label (Label.function f.name.name) :: Code.inside o f info body) ++ after ∧
    info.formalSpace = wordSize * f.params.length ∧
    (Code.body o b (Label.exit f.name.name) f.body).run n = .ok (body, m) ∧
    Depths p (Label.exit f.name.name)
      (body ++ Code.remark o "FUNCTION EXIT" ++ [.label (Label.exit f.name.name)]) depth ∧
    (∀ s k pos, Part.At o b (Label.exit f.name.name) (.stmts f.body.stmts) n (.stmt s) k pos →
      ∃ pre c post k', body = pre ++ (c ++ post) ∧ pre.length = pos ∧
        (Code.stmt o b (Label.exit f.name.name) s).run k = .ok (c, k') ∧
        depth pos = 0 ∧ depth (pos + c.length) = 0) ∧
    ∀ e k pos, Part.At o b (Label.exit f.name.name) (.stmts f.body.stmts) n (.expr e) k pos →
      ∃ pre c post k', body = pre ++ (c ++ post) ∧ pre.length = pos ∧
        (Code.expr o b e).run k = .ok (c, k') ∧ depth (pos + c.length) = depth pos + 1

/-- The lines of the body of a function have their depths. -/
theorem Code.body_depths {o : Options} {p : Program} {b : Annotations} {f : FnDecl} {body : Code}
    {n m : Nat} (hr : Ready p b) (ht : p.WellTyped) (hf : Decl.fn f ∈ p.decls)
    (hbody : (Code.body o b (Label.exit f.name.name) f.body).run n = .ok (body, m)) :
    ((Part.stmts f.body.stmts).Typed p ∧ Steady p [(Label.exit f.name.name, 0)] 0 body 0) ∧
      Depths p (Label.exit f.name.name)
        (body ++ remark o "FUNCTION EXIT" ++ [.label (Label.exit f.name.name)])
        (depthAt p (body ++ remark o "FUNCTION EXIT" ++ [.label (Label.exit f.name.name)])) := by
  have hn := hr.resolved.nodup
  obtain ⟨ds, ds', hsplit⟩ := List.append_of_mem hf
  have htyped := ht.fns ds f ds' hsplit
  have hv : ∀ x ∈ (f.surroundings ds).decls, x ∈ p.decls := by
    intro x hx
    rw [hsplit, List.append_cons]
    exact List.mem_append_left ds' hx
  have hrun := hbody
  rw [Part.body_eq] at hrun
  have hsteady : Steady p [(Label.exit f.name.name, 0)] 0 body 0 :=
    (stmts_steady hn f.body.stmts hv htyped (.head []) n body m trivial hrun).2
  have hlines := hsteady.append (remark_steady (o := o) "FUNCTION EXIT")
  have hlabels : (body ++ remark o "FUNCTION EXIT" ++
      [Item.label (Label.exit f.name.name)]).labels.Nodup := by
    have hnumbered := body_numbered f.body hbody
    simp only [labels_append, labels_remark, labels_label, labels_nil, List.append_nil]
    refine List.nodup_append.2 ⟨hnumbered.nodup, by simp, fun l hl l' hl' => ?_⟩
    obtain ⟨stem, -, k, -, -, rfl⟩ := hnumbered.made l hl
    obtain rfl := List.mem_singleton.1 hl'
    exact Label.numbered_ne_exit stem _ k
  exact ⟨⟨⟨_, _, hv, htyped⟩, hsteady⟩, depths_of_steady hlines hlabels⟩

theorem Code.fnDecl_balanced {o : Options} {p : Program} {b : Annotations} {f : FnDecl}
    {before c after : Code} {n m : Nat} (hr : Ready p b) (ht : p.WellTyped)
    (hf : Decl.fn f ∈ p.decls) (hc : (fnDecl o b f).run n = .ok (c, m)) :
    f.Balanced o p b (before ++ c ++ after) := by
  have hn := hr.resolved.nodup
  rw [fnDecl_eq] at hc
  simp only [run_bind_ok, run_pure_ok] at hc
  obtain ⟨info, n', hinfo, body, m', hbody, rfl, rfl⟩ := hc
  obtain ⟨⟨hroot, hsteady⟩, hdepths⟩ := body_depths hr ht hf hbody
  have hrun := hbody
  rw [Part.body_eq] at hrun
  have hfirst : body <+: body ++ remark o "FUNCTION EXIT" ++
      [Item.label (Label.exit f.name.name)] :=
    (List.prefix_append ..).trans (List.prefix_append ..)
  refine ⟨before, info, n', body, m', after, _, rfl, fnInfo_formalSpace hr hf hinfo, hbody,
    hdepths, ?_, ?_⟩
  · intro s k pos hat
    obtain ⟨pre, c, post, k', d, d', rfl, rfl, hc, hd, hd', -, hstmt⟩ :=
      hat.rise hn hroot hrun hsteady.rise
    obtain ⟨rfl, rfl⟩ := hstmt s rfl
    refine ⟨pre, c, post, k', rfl, rfl, hc, ?_, ?_⟩
    · exact depthAt_eq hd ((List.prefix_append ..).trans hfirst)
    · rw [← List.length_append]
      exact depthAt_eq hd' (List.IsPrefix.trans ⟨post, List.append_assoc ..⟩ hfirst)
  · intro e k pos hat
    obtain ⟨pre, c, post, k', d, d', rfl, rfl, hc, hd, hd', hexpr, -⟩ :=
      hat.rise hn hroot hrun hsteady.rise
    obtain rfl := hexpr e rfl
    refine ⟨pre, c, post, k', rfl, rfl, hc, ?_⟩
    rw [← List.length_append, depthAt_eq hd ((List.prefix_append ..).trans hfirst)]
    exact depthAt_eq hd' (List.IsPrefix.trans ⟨post, List.append_assoc ..⟩ hfirst)

/-- **The operands on the stack are accounted for on every path** through the functions of a text
that is compiled. -/
theorem compile_balanced {source : String} {o : Options} {code : Code}
    (h : (compile source o).1 = .ok (some code)) :
    ∃ p b, Analyzed source p b ∧ ∀ f, Decl.fn f ∈ p.decls → f.Balanced o p b code := by
  obtain ⟨p, b, m, han, hgen⟩ := compile_ok h
  refine ⟨p, b, han, fun f hf => ?_⟩
  obtain ⟨before, c, after, k, l, rfl, hc⟩ := decl_of_decls hgen hf
  exact Code.fnDecl_balanced han.ready.1 han.accepted.wellFormed.2.2 hf hc

/-- A call with arguments behind a connective, and a `return` out of a loop. -/
theorem compile_balanced_calls :
    ∃ code p b f,
      (compile "int g(int a, bool c) \x7b while (true || c) \x7b return a; \x7d return 0; \x7d void main() \x7b bool x; x = true && 1 < g(2, x = false); \x7d" {}).1 =
        .ok (some code) ∧
      Analyzed "int g(int a, bool c) \x7b while (true || c) \x7b return a; \x7d return 0; \x7d void main() \x7b bool x; x = true && 1 < g(2, x = false); \x7d" p b ∧
      Ref.jump "and_end_3" ∈ code.refs ∧ Ref.call "_g" ∈ code.refs ∧ Decl.fn f ∈ p.decls ∧
      f.name.name = "main" ∧ f.Balanced {} p b code := by
  obtain ⟨-, -, code, -, -, -, hcode, htest⟩ := exists_of_code
    "int g(int a, bool c) \x7b while (true || c) \x7b return a; \x7d return 0; \x7d void main() \x7b bool x; x = true && 1 < g(2, x = false); \x7d"
    (fun code => [.jump "and_end_3", .call "_g"].all (code.refs.contains ·)) (by decide +kernel)
  simp only [List.all_cons, List.all_nil, List.contains_iff_mem, Bool.and_eq_true] at htest
  obtain ⟨p, b, han, hall⟩ := compile_balanced hcode
  obtain ⟨f, hf, hname, -⟩ := han.accepted.wellFormed.2.2.main
  exact ⟨code, p, b, f, hcode, han, htest.1, htest.2.1, hf, hname, hall f hf⟩

end FlatC
