import FlatC.Proofs.Compile
import FlatC.Proofs.Spans.Binding

/-!
# Remarks are no code

A remark stands on a line of its own or behind an instruction. `Line.plain` takes the remarks from a
file: a line that is nothing else goes, and an instruction loses what stands behind it.

With remarks switched off, every piece of code is the plain form of the piece with remarks, and
takes the same label numbers (`Code.decls_plain`). The steps that ask for a label or a symbol never
look at the option.
-/

namespace FlatC

namespace Line

/-- The remark on a line. -/
def remark? : Line → Option String
  | instr _ _ note => note
  | comment note => some note
  | _ => none

/-- A line without its remark; none, if it is nothing else. -/
def plain? : Line → Option Line
  | instr op operands _ => some (.instr op operands none)
  | comment _ => none
  | l => some l

/-- The lines of a file without their remarks. -/
def plain (ls : List Line) : List Line := ls.filterMap plain?

theorem remark?_of_plain? {l l' : Line} (h : l.plain? = some l') : l'.remark? = none := by
  cases l <;> cases h <;> rfl

theorem remark?_of_plain {ls : List Line} : ∀ l ∈ plain ls, l.remark? = none := by
  intro l hl
  obtain ⟨l', -, hl'⟩ := List.mem_filterMap.1 hl
  exact remark?_of_plain? hl'

end Line

/-- An item without its remark; none, if it is nothing else. -/
def Item.plain? : Item → Option Item
  | .instr i _ => some (.instr i none)
  | .comment _ => none
  | i => some i

theorem Item.line_plain? (i : Item) : i.plain?.map Item.line = i.line.plain? := by
  cases i with
  | datum name d => cases d <;> rfl
  | _ => rfl

namespace Code

/-- Code without its remarks. -/
def plain (c : Code) : Code := c.filterMap Item.plain?

@[simp] theorem plain_nil : plain [] = [] := rfl

@[simp] theorem plain_append (c c' : Code) : plain (c ++ c') = plain c ++ plain c' :=
  List.filterMap_append

theorem lines_plain (c : Code) : (plain c).lines = Line.plain c.lines := by
  unfold lines plain Line.plain
  rw [List.map_filterMap, List.filterMap_map]
  exact congrFun (congrArg List.filterMap (funext Item.line_plain?)) c

/-! ## Pieces of code -/

/-- Code with remarks. -/
def remarked : Options := { comments := true }

/-- Code without remarks. -/
def unremarked : Options := { comments := false }

section Pieces

@[simp] theorem plain_remark (text : String) :
    plain (remark remarked text) = remark unremarked text := rfl

@[simp] theorem plain_push (r : Reg) : plain (push remarked r) = push unremarked r := rfl

@[simp] theorem plain_pop (r : Reg) : plain (pop remarked r) = pop unremarked r := rfl

@[simp] theorem plain_peek (r : Reg) : plain (peek remarked r) = peek unremarked r := rfl

@[simp] theorem plain_discard : plain (discard remarked) = discard unremarked := rfl

@[simp] theorem plain_load (r : Reg) (l : Location) : plain (load r l) = load r l := rfl

@[simp] theorem plain_store (r : Reg) (l : Location) : plain (store r l) = store r l := rfl

@[simp] theorem plain_operate (op : AluOp) : plain (operate remarked op) = operate unremarked op :=
  rfl

@[simp] theorem plain_prologue (formalSpace localSpace : Nat) :
    plain (prologue remarked formalSpace localSpace) =
      prologue unremarked formalSpace localSpace := by
  unfold prologue
  split <;> rfl

@[simp] theorem plain_epilogue (formalSpace : Nat) (isMain : Bool) :
    plain (epilogue remarked formalSpace isMain) = epilogue unremarked formalSpace isMain := by
  cases isMain <;> rfl

@[simp] theorem plain_bare (i : Instr) (c : Code) : plain (bare i :: c) = bare i :: plain c := rfl

@[simp] theorem plain_label (name : String) (c : Code) :
    plain (.label name :: c) = .label name :: plain c := rfl

end Pieces

/-! ## Steps -/

section Steps

variable {α : Type} {notes : Annotations} {exit : String}

/-- A step that does not look at the options. -/
theorem mirrors_self (x : Gen α) : Mirrors id id x x := by
  intro n
  show x.run n = (x.run n).map fun r => r
  cases x.run n <;> rfl

/-- The step gives the plain form of the code with remarks. -/
abbrev Plain (x y : Gen Code) : Prop := Mirrors id plain x y

theorem stringLiteral_plain (text : String) :
    Plain (stringLiteral remarked text) (stringLiteral unremarked text) :=
  .bind (mirrors_self _) fun _ => .pure rfl

mutual

theorem expr_plain : ∀ e : Expr, Plain (expr remarked notes e) (expr unremarked notes e)
  | .int .. | .bool .. => .pure rfl
  | .str _ text => stringLiteral_plain text
  | .place p => .bind (mirrors_self (location notes p)) fun _ => .pure (by simp)
  | .assign _ target value =>
    .bind (expr_plain value) fun _ =>
      .bind (mirrors_self (location notes target)) fun _ => .pure (by simp)
  | .call _ _ args => .bind (exprs_plain args) fun _ => .pure (by simp)
  | .unary _ _ operand => .bind (expr_plain operand) fun _ => .pure (by simp)
  | .binary _ (.arith _) left right | .binary _ (.equality _) left right
  | .binary _ (.order _) left right =>
    .bind (expr_plain left) fun _ => .bind (expr_plain right) fun _ => .pure (by simp)
  | .binary _ (.logical op) left right =>
    .bind (mirrors_self (Gen.label (connectiveStem op))) fun _ =>
      .bind (expr_plain left) fun _ => .bind (expr_plain right) fun _ => .pure (by simp)

theorem exprs_plain : ∀ es : List Expr, Plain (exprs remarked notes es) (exprs unremarked notes es)
  | [] => .pure rfl
  | e :: es => .bind (expr_plain e) fun _ => .bind (exprs_plain es) fun _ => .pure (by simp)

end

theorem step_plain (delta : Int) (target : Place) :
    Plain (step notes delta target) (step notes delta target) :=
  .bind (mirrors_self _) fun _ => .pure (by simp)

theorem read_plain (target : Place) :
    Plain (read remarked notes target) (read unremarked notes target) :=
  .bind (mirrors_self _) fun _ => .pure (by simp)

theorem write_plain (value : Expr) :
    Plain (write remarked notes value) (write unremarked notes value) :=
  .bind (mirrors_self _) fun _ => .bind (expr_plain value) fun _ => .pure (by simp)

theorem branchUnless_plain (cond : Expr) (target : String) :
    Plain (branchUnless remarked notes cond target) (branchUnless unremarked notes cond target) :=
  .bind (expr_plain cond) fun _ => .pure (by simp)

theorem returnValue_plain : ∀ value : Option Expr,
    Plain (returnValue remarked notes value) (returnValue unremarked notes value)
  | none => .pure rfl
  | some value => .bind (expr_plain value) fun _ => .pure (by simp)

mutual

theorem stmt_plain : ∀ s : Stmt, Plain (stmt remarked notes exit s) (stmt unremarked notes exit s)
  | .assign _ node target value =>
    .bind (expr_plain (.assign node target value)) fun _ => .pure (by simp)
  | .increment _ target | .decrement _ target =>
    .bind (step_plain _ target) fun _ => .pure (by simp)
  | .read _ target => read_plain target
  | .write _ value => write_plain value
  | .ifThen _ cond b =>
    .bind (mirrors_self (Gen.label "if_end")) fun _ =>
      .bind (branchUnless_plain cond _) fun _ => .bind (body_plain b) fun _ => .pure (by simp)
  | .ifElse _ cond b b' =>
    .bind (mirrors_self (Gen.label "else")) fun _ =>
      .bind (mirrors_self (Gen.label "if_end")) fun _ =>
        .bind (branchUnless_plain cond _) fun _ =>
          .bind (body_plain b) fun _ => .bind (body_plain b') fun _ => .pure (by simp)
  | .whileLoop _ cond b =>
    .bind (mirrors_self (Gen.label "while")) fun _ =>
      .bind (mirrors_self (Gen.label "while_end")) fun _ =>
        .bind (branchUnless_plain cond _) fun _ => .bind (body_plain b) fun _ => .pure (by simp)
  | .call _ node callee args =>
    .bind (expr_plain (.call node callee args)) fun _ => .pure (by simp)
  | .ret _ value => .bind (returnValue_plain value) fun _ => .pure (by simp)

theorem body_plain : ∀ b : Body, Plain (body remarked notes exit b) (body unremarked notes exit b)
  | .block _ ss => stmts_plain ss

theorem stmts_plain : ∀ ss : List Stmt,
    Plain (stmts remarked notes exit ss) (stmts unremarked notes exit ss)
  | [] => .pure rfl
  | s :: ss => .bind (stmt_plain s) fun _ => .bind (stmts_plain ss) fun _ => .pure (by simp)

end

theorem globalVar_plain (d : VarDecl) : Plain (globalVar notes d) (globalVar notes d) := by
  unfold globalVar
  cases notes.symbolOf? d.name.id with
  | none => exact .throw
  | some s => exact .pure rfl

theorem fnDecl_plain (d : FnDecl) :
    Plain (fnDecl remarked notes d) (fnDecl unremarked notes d) := by
  have hglobl : plain (if d.isMain then [.globl "main"] else []) =
      if d.isMain then [.globl "main"] else [] := by
    split <;> rfl
  refine .bind (mirrors_self (fnInfo notes d.name)) fun info => ?_
  refine .bind (body_plain d.body) fun code => .pure ?_
  simp only [plain_append, plain_remark, plain_prologue, plain_epilogue, plain_label, hglobl]
  rfl

theorem decl_plain (d : Decl) : Plain (decl remarked notes d) (decl unremarked notes d) := by
  cases d with
  | var d => exact globalVar_plain d
  | struct d => exact .pure rfl
  | fn d => exact fnDecl_plain d

theorem decls_plain (ds : List Decl) :
    Plain (decls remarked notes ds) (decls unremarked notes ds) := by
  induction ds with
  | nil => exact .pure rfl
  | cons d ds ih => exact .bind (decl_plain d) fun _ => .bind ih fun _ => .pure (by simp)

end Steps

end Code

/-- **Remarks are inert.** For every program and whatever is noted about it, generation without
remarks gives the lines of generation with remarks, less the remarks, and stops at the same label
number; where the one meets a defect, so does the other. No line of it has a remark. -/
theorem generate_unremarked (p : Program) (notes : Annotations) (n : Nat) :
    (generate { comments := false } p notes n).map (fun r => (r.1.lines, r.2)) =
        (generate { comments := true } p notes n).map (fun r => (Line.plain r.1.lines, r.2)) ∧
      ∀ code m, generate { comments := false } p notes n = .ok (code, m) →
        ∀ l ∈ code.lines, l.remark? = none := by
  have hrun : generate { comments := false } p notes n =
      (generate { comments := true } p notes n).map fun r => (Code.plain r.1, r.2) :=
    Code.decls_plain p.decls n
  rw [hrun]
  cases generate { comments := true } p notes n with
  | error d => exact ⟨rfl, nofun⟩
  | ok r =>
    refine ⟨congrArg (fun ls => Except.ok (ls, r.2)) (Code.lines_plain r.1), fun code m h => ?_⟩
    obtain ⟨rfl, rfl⟩ := Prod.mk.inj (Except.ok.inj h)
    rw [Code.lines_plain]
    exact Line.remark?_of_plain

/-- A loop with a string in it: the code has remarks, and without them it is the plain form. -/
theorem generate_unremarked_loop :
    ∃ p b code code' m,
      Analyzed "void main() \x7b int n; while (n < 3) \x7b cout << \"n\"; n++; \x7d \x7d" p b ∧
      generate { comments := true } p b 0 = .ok (code, m) ∧
      generate { comments := false } p b 0 = .ok (code', m) ∧
      (∃ l ∈ code.lines, l.remark? ≠ none) ∧ code'.lines = Line.plain code.lines ∧
      ∀ l ∈ code'.lines, l.remark? = none := by
  obtain ⟨p, b, code, m, han, hgen, -, htest⟩ := exists_of_code
    "void main() \x7b int n; while (n < 3) \x7b cout << \"n\"; n++; \x7d \x7d"
    (fun code => code.lines.any (·.remark?.isSome)) (by decide +kernel)
  obtain ⟨hlines, hplain⟩ := generate_unremarked p b 0
  have hgen' : generate { comments := true } p b 0 = .ok (code, m) := hgen
  rw [hgen'] at hlines
  cases hoff : generate { comments := false } p b 0 with
  | error d => simp [hoff, Except.map] at hlines
  | ok r =>
    obtain ⟨code', m'⟩ := r
    rw [hoff] at hlines
    obtain ⟨hcode, rfl⟩ := Prod.mk.inj (Except.ok.inj hlines)
    obtain ⟨l, hl, hsome⟩ := List.any_eq_true.1 htest
    refine ⟨p, b, code, code', m', han, hgen', hoff, ⟨l, hl, ?_⟩, hcode, hplain code' m' hoff⟩
    exact Option.isSome_iff_ne_none.1 hsome

end FlatC
