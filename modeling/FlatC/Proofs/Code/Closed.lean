import FlatC.Proofs.Code.Anchors
import FlatC.Proofs.Layout.Disjoint

/-!
# Code is closed

An instruction can **refer** to a label: to jump there, to call it, to take the address of a string
or to reach a variable. `Code.refs` lists what a piece of code refers to, and `Code.sectioned` reads
its items in order and tells if each of them stands in its section.

The code of an expression or a statement is a **block** (`Block`): it starts and ends in the text
section, and it defines what it refers to, apart from functions, variables and some labels to jump
to. Blocks are put together, and a label that is set in a block is no longer open (`Block.close`).
`compile_closed` says that nothing is left open in the code of a text.
-/

namespace FlatC

/-! ## Sections -/

inductive Section where
  | text
  | data
  deriving DecidableEq, Repr

namespace Item

/-- The section that an item has to stand in. -/
def home? : Item → Option Section
  | .instr .. | .label _ => some .text
  | .datum .. => some .data
  | .text | .data | .align _ | .globl _ | .comment _ => none

/-- The section behind an item, where `s` is the one in front of it. -/
def behind (s : Option Section) : Item → Option Section
  | .text => some .text
  | .data => some .data
  | _ => s

end Item

namespace Code

/-- The section behind code, where `s` is the one in front of it. -/
def behind (s : Option Section) (c : Code) : Option Section := c.foldl Item.behind s

/-- Every item stands in its section, where `s` is the section in front of the first. -/
def sectioned (s : Option Section) : Code → Bool
  | [] => true
  | i :: c => i.home?.all (s = some ·) && sectioned (i.behind s) c

variable {s : Option Section} {c c' : Code}

theorem behind_append : behind s (c ++ c') = behind (behind s c) c' :=
  List.foldl_append

theorem sectioned_append :
    sectioned s (c ++ c') = (sectioned s c && sectioned (behind s c) c') := by
  induction c generalizing s with
  | nil => rfl
  | cons i c ih =>
    rw [List.cons_append, sectioned, sectioned, ih, Bool.and_assoc]
    rfl

/-- The code starts and ends in the text section. -/
structure InText (c : Code) : Prop where
  sectioned : c.sectioned (some .text) = true
  behind : c.behind (some .text) = some .text

theorem InText.nil : InText [] := ⟨rfl, rfl⟩

theorem InText.append (h : InText c) (h' : InText c') : InText (c ++ c') := by
  constructor
  · rw [sectioned_append, h.sectioned, h.behind, h'.sectioned, Bool.and_self]
  · rw [behind_append, h.behind, h'.behind]

end Code

/-! ## References -/

/-- What an instruction can refer to. -/
inductive Ref where
  /-- A label to jump to. -/
  | jump (l : String)
  /-- A function. -/
  | call (l : String)
  /-- The characters of a string. -/
  | string (l : String)
  /-- A variable in the data section. -/
  | cell (l : String)
  deriving DecidableEq, Repr

def Address.label? : Address → Option String
  | label name _ => some name
  | indexed .. => none

def Instr.ref? : Instr → Option Ref
  | .b l | .beq _ _ l => some (.jump l)
  | .jal l => some (.call l)
  | .la _ l => some (.string l)
  | .lw _ a | .sw _ a => a.label?.map .cell
  | _ => none

def Item.ref? : Item → Option Ref
  | .instr i _ => i.ref?
  | _ => none

namespace Code

/-- What the instructions of code refer to. -/
def refs (c : Code) : List Ref := c.filterMap Item.ref?

@[simp] theorem refs_append (c c' : Code) : refs (c ++ c') = refs c ++ refs c' :=
  List.filterMap_append

theorem mem_refs {c : Code} {r : Ref} :
    r ∈ refs c ↔ ∃ i note, Item.instr i note ∈ c ∧ i.ref? = some r := by
  constructor
  · intro h
    obtain ⟨x, hx, hr⟩ := List.mem_filterMap.1 h
    cases x with
    | instr i note => exact ⟨i, note, hx, hr⟩
    | _ => cases hr
  · rintro ⟨i, note, hi, hr⟩
    exact List.mem_filterMap.2 ⟨_, hi, hr⟩

end Code

section

variable (p : Program)

/-- The reference can be followed inside the code `c`, or leads to one of the labels `ls`, to a
function of the program, or to a variable outside all functions. -/
def Ref.Within (ls : List String) (c : Code) : Ref → Prop
  | jump l => l ∈ ls ∨ Item.label l ∈ c
  | call l => ∃ f, Decl.fn f ∈ p.decls ∧ l = Label.function f.name.name
  | string l => ∃ text, Item.datum l (.asciiz text) ∈ c
  | cell l => ∃ d, Decl.var d ∈ p.decls ∧ l = Label.global d.name.name

/-- Code that starts and ends in the text section and jumps only to labels of its own and to
`ls`. -/
structure Block (ls : List String) (c : Code) : Prop where
  inText : c.InText
  within : ∀ r ∈ c.refs, r.Within p ls c

end

variable {p : Program} {ls ls' : List String} {c c' : Code}

theorem Ref.Within.mono {r : Ref} (h : r.Within p ls c)
    (hls : ∀ l ∈ ls, l ∈ ls' ∨ Item.label l ∈ c') (hc : c ⊆ c') : r.Within p ls' c' := by
  cases r with
  | jump l =>
    rcases h with h | h
    · exact hls l h
    · exact .inr (hc h)
  | call l => exact h
  | string l =>
    obtain ⟨text, h⟩ := h
    exact ⟨text, hc h⟩
  | cell l => exact h

namespace Block

/-- Code that refers to nothing. -/
theorem plain (h : c.InText) (hrefs : c.refs = []) : Block p ls c :=
  ⟨h, by simp [hrefs]⟩

theorem nil : Block p ls [] := plain .nil rfl

theorem append (h : Block p ls c) (h' : Block p ls c') : Block p ls (c ++ c') := by
  refine ⟨h.inText.append h'.inText, ?_⟩
  rw [Code.refs_append, List.forall_mem_append]
  constructor
  · intro r hr
    exact (h.within r hr).mono (fun _ => .inl) (List.subset_append_left c c')
  · intro r hr
    exact (h'.within r hr).mono (fun _ => .inl) (List.subset_append_right c c')

/-- A label that the code sets is not open. -/
theorem close {l : String} (h : Block p (l :: ls) c) (hl : Item.label l ∈ c) : Block p ls c := by
  refine ⟨h.inText, fun r hr => (h.within r hr).mono (fun x hx => ?_) (List.Subset.refl c)⟩
  rcases List.mem_cons.1 hx with rfl | hx
  · exact .inr hl
  · exact .inl hx

/-- Where no label is open, any may be. -/
theorem any (h : Block p [] c) : Block p ls c :=
  ⟨h.inText, fun r hr => (h.within r hr).mono nofun (List.Subset.refl c)⟩

theorem label (l : String) : Block p ls [.label l] := plain ⟨rfl, rfl⟩ rfl

/-- An instruction with what it refers to. -/
theorem instr {i : Instr} {note : Option String}
    (h : ∀ r, i.ref? = some r → r.Within p ls [.instr i note]) : Block p ls [.instr i note] := by
  refine ⟨⟨rfl, rfl⟩, fun r hr => ?_⟩
  obtain ⟨i', note', hmem, href⟩ := Code.mem_refs.1 hr
  obtain ⟨rfl, rfl⟩ := Item.instr.inj (List.mem_singleton.1 hmem)
  exact h r href

theorem jump {l : String} (h : l ∈ ls) : Block p ls [Code.bare (.b l)] :=
  instr (by rintro _ ⟨⟩; exact .inl h)

theorem branch {reg : Reg} {value : Int} {l : String} (h : l ∈ ls) :
    Block p ls [Code.bare (.beq reg value l)] :=
  instr (by rintro _ ⟨⟩; exact .inl h)

end Block

/-! ## Pieces of code -/

namespace Code

variable {o : Options}

theorem remark_block (text : String) : Block p ls (remark o text) := by
  unfold remark
  split
  · exact .plain ⟨rfl, rfl⟩ rfl
  · exact .nil

theorem push_block (r : Reg) : Block p ls (push o r) := .plain ⟨rfl, rfl⟩ rfl

theorem pop_block (r : Reg) : Block p ls (pop o r) := .plain ⟨rfl, rfl⟩ rfl

theorem peek_block (r : Reg) : Block p ls (peek o r) := .plain ⟨rfl, rfl⟩ rfl

theorem discard_block : Block p ls (discard o) := .plain ⟨rfl, rfl⟩ rfl

theorem operate_block (op : AluOp) : Block p ls (operate o op) := .plain ⟨rfl, rfl⟩ rfl

theorem prologue_block (formalSpace localSpace : Nat) :
    Block p ls (prologue o formalSpace localSpace) := by
  unfold prologue
  split <;> exact .plain ⟨rfl, rfl⟩ rfl

theorem epilogue_block (formalSpace : Nat) (isMain : Bool) :
    Block p ls (epilogue o formalSpace isMain) := by
  cases isMain <;> exact .plain ⟨rfl, rfl⟩ rfl

end Code

/-! ## Steps -/

/-- What the step `x` gives, where it gives anything, satisfies `Q`. -/
abbrev Emits {α : Type} (x : Gen α) (Q : α → Prop) : Prop := Preserves (fun _ => True) x Q

namespace Code

variable {o : Options} {b : Annotations} {exit : String}

theorem emits_any {α : Type} (x : Gen α) : Emits x fun _ => True := fun _ _ _ _ _ =>
  ⟨trivial, trivial⟩

/-- The location is in the frame, or in the room of a variable of the program. -/
def Reached (p : Program) (l : Location) : Prop :=
  ∀ name, l.address.label? = some name → ∃ d, Decl.var d ∈ p.decls ∧ name = Label.global d.name.name

theorem Reached.load {l : Location} (h : Reached p l) (r : Reg) : Block p ls (Code.load r l) :=
  .instr fun _ hr => by
    obtain ⟨name, hname, rfl⟩ := Option.map_eq_some_iff.1 hr
    exact h name hname

theorem Reached.store {l : Location} (h : Reached p l) (r : Reg) : Block p ls (Code.store r l) :=
  .instr fun _ hr => by
    obtain ⟨name, hname, rfl⟩ := Option.map_eq_some_iff.1 hr
    exact h name hname

/-- A field is reached through the label of the variable that it is part of. -/
theorem Reached.field {l : Location} (h : Reached p l) (offset : Int) :
    Reached p (l.field offset) := by
  cases l with
  | global label u => exact h
  | frame u => exact nofun

theorem symbolOf_emits (i : Ident) : Emits (symbolOf b i) fun s => b.symbolOf? i.id = some s := by
  unfold symbolOf
  cases b.symbolOf? i.id with
  | none => exact .throw
  | some s => exact .pure rfl

theorem location_emits (q : Place) (h : q.Anchored p b) :
    Emits (location b q) (Reached p) := by
  induction q with
  | var node name =>
    refine .bind (symbolOf_emits name) fun s hs => .pure ?_
    cases hg : s.isGlobal with
    | false => exact nofun
    | true =>
      obtain ⟨d, hd, hname⟩ := h s hs hg
      rintro _ ⟨⟩
      exact ⟨d, hd, congrArg Label.global hname.symm⟩
  | field node base name ih =>
    exact .bind (emits_any _) fun s _ => .bind (ih h) fun l hl => .pure (hl.field _)

theorem stringLiteral_emits (text : String) : Emits (stringLiteral o text) (Block p []) := by
  refine .bind (emits_any _) fun l _ => .pure ⟨⟨rfl, rfl⟩, ?_⟩
  intro r hr
  obtain rfl := List.mem_singleton.1 hr
  exact ⟨quoted text, by simp⟩

mutual

/-- Wherever an expression jumps to, it sets the label itself. -/
theorem expr_emits : ∀ e : Expr, e.Anchored p b → Emits (expr o b e) (Block p [])
  | .int .., _ | .bool .., _ => .pure (.plain ⟨rfl, rfl⟩ rfl)
  | .str _ text, _ => stringLiteral_emits text
  | .place q, h =>
    .bind (location_emits q (Place.anchored_expr.1 h)) fun _ hl =>
      .pure ((hl.load .t0).append (push_block .t0))
  | .assign _ target value, h => by
    obtain ⟨hq, he⟩ := Expr.anchored_assign.1 h
    refine .bind (expr_emits value he) fun v hv => ?_
    refine .bind (location_emits target hq) fun l hl => .pure ?_
    exact (hv.append (peek_block .t0)).append (hl.store .t0)
  | .call _ callee args, h => by
    obtain ⟨⟨f, hf, hname⟩, hargs⟩ := Expr.anchored_call.1 h
    refine .bind (exprs_emits args hargs) fun xs hxs => .pure ?_
    have hjal : Block p [] [bare (.jal (Label.function callee.name))] :=
      .instr (by rintro _ ⟨⟩; exact ⟨f, hf, congrArg Label.function hname.symm⟩)
    exact (hxs.append hjal).append (push_block .v0)
  | .unary _ op operand, h => by
    refine .bind (expr_emits operand (Expr.anchored_unary.1 h)) fun x hx => .pure ?_
    have hsign : Block p [] [bare (sign op)] := by cases op <;> exact .plain ⟨rfl, rfl⟩ rfl
    exact ((hx.append (pop_block .t0)).append hsign).append (push_block .t0)
  | .binary _ (.arith _) left right, h | .binary _ (.equality _) left right, h
  | .binary _ (.order _) left right, h => by
    obtain ⟨hl, hr⟩ := Expr.anchored_binary.1 h
    refine .bind (expr_emits left hl) fun l hl => .bind (expr_emits right hr) fun r hr => .pure ?_
    exact (hl.append hr).append (operate_block _)
  | .binary _ (.logical op) left right, h => by
    obtain ⟨hl, hr⟩ := Expr.anchored_binary.1 h
    refine .bind (emits_any _) fun stop _ => ?_
    refine .bind (expr_emits left hl) fun l hl => .bind (expr_emits right hr) fun r hr => .pure ?_
    -- the label where the connective ends is open until it is set
    have htest : Block p [stop] (l ++ peek o .t0 ++ [bare (.beq .t0 (decisive op) stop)]) :=
      (hl.any.append (peek_block .t0)).append (.branch (.head []))
    exact (((htest.append discard_block).append hr.any).append (.label stop)).close (by simp)

theorem exprs_emits : ∀ es : List Expr, (∀ e ∈ es, e.Anchored p b) →
    Emits (exprs o b es) (Block p [])
  | [], _ => .pure .nil
  | e :: es, h => by
    rw [List.forall_mem_cons] at h
    exact .bind (expr_emits e h.1) fun _ hx =>
      .bind (exprs_emits es h.2) fun _ hxs => .pure (hx.append hxs)

end

theorem step_emits (delta : Int) (q : Place) (h : q.Anchored p b) :
    Emits (step b delta q) (Block p ls) := by
  refine .bind (location_emits q h) fun l hl => .pure ?_
  exact ((hl.load .t0).append (.plain ⟨rfl, rfl⟩ rfl)).append (hl.store .t0)

theorem read_emits (q : Place) (h : q.Anchored p b) : Emits (read o b q) (Block p ls) := by
  refine .bind (location_emits q h) fun l hl => .pure ?_
  exact ((remark_block "READ").append (.plain ⟨rfl, rfl⟩ rfl)).append (hl.store .v0)

theorem write_emits (e : Expr) (h : e.Anchored p b) : Emits (write o b e) (Block p ls) := by
  refine .bind (emits_any _) fun number _ => .bind (expr_emits e h) fun x hx => .pure ?_
  have hvalue : Block p ls (remark o "WRITE" ++ x) := (remark_block "WRITE").append hx.any
  exact (hvalue.append (pop_block .a0)).append (.plain ⟨rfl, rfl⟩ rfl)

theorem branchUnless_emits (e : Expr) (h : e.Anchored p b) {target : String} (ht : target ∈ ls) :
    Emits (branchUnless o b e target) (Block p ls) :=
  .bind (expr_emits e h) fun _ hx => .pure ((hx.any.append (pop_block .t0)).append (.branch ht))

theorem returnValue_emits : ∀ value : Option Expr, (∀ e ∈ value, e.Anchored p b) →
    Emits (returnValue o b value) (Block p ls)
  | none, _ => .pure .nil
  | some e, h => .bind (expr_emits e (h e rfl)) fun _ hx => .pure (hx.any.append (pop_block .v0))

mutual

theorem stmt_emits : ∀ (st : Stmt) (v : Surroundings) {ls : List String},
    (∀ r ∈ st.exprs v, r.2.Anchored p b) → exit ∈ ls → Emits (stmt o b exit st) (Block p ls)
  | .assign _ node target value, v, ls, h, _ => by
    rw [Stmt.exprs, List.forall_mem_singleton] at h
    refine .bind (expr_emits (.assign node target value) h) fun x hx => .pure ?_
    exact ((remark_block "ASSIGN").append hx.any).append discard_block
  | .increment _ target, v, ls, h, _ | .decrement _ target, v, ls, h, _ => by
    rw [Stmt.exprs, List.forall_mem_singleton, Place.anchored_expr] at h
    exact .bind (step_emits _ target h) fun x hx => .pure ((remark_block _).append hx)
  | .read _ target, v, ls, h, _ => by
    rw [Stmt.exprs, List.forall_mem_singleton, Place.anchored_expr] at h
    exact read_emits target h
  | .write _ value, v, ls, h, _ => by
    rw [Stmt.exprs, List.forall_mem_singleton] at h
    exact write_emits value h
  | .ifThen _ cond body, v, ls, h, hexit => by
    rw [Stmt.exprs, List.forall_mem_cons] at h
    refine .bind (emits_any _) fun stop _ => ?_
    have hstop : stop ∈ stop :: ls := .head ls
    refine .bind (branchUnless_emits cond h.1 hstop) fun test htest => ?_
    refine .bind (body_emits body v h.2 (.tail stop hexit)) fun code hcode => .pure ?_
    have hall := ((remark_block (o := o) "IF").append htest).append hcode
    exact (hall.append (.label stop)).close (by simp)
  | .ifElse _ cond thenBody elseBody, v, ls, h, hexit => by
    rw [Stmt.exprs, List.forall_mem_cons, List.forall_mem_append] at h
    refine .bind (emits_any _) fun other _ => .bind (emits_any _) fun stop _ => ?_
    have hexit' : exit ∈ other :: stop :: ls := .tail other (.tail stop hexit)
    refine .bind (branchUnless_emits cond h.1 (.head (stop :: ls))) fun test htest => ?_
    refine .bind (body_emits thenBody v h.2.1 hexit') fun thenCode hthen => ?_
    refine .bind (body_emits elseBody v h.2.2 hexit') fun elseCode helse => .pure ?_
    have hjump : Block p (other :: stop :: ls) [bare (.b stop), .label other] :=
      (Block.jump (by simp)).append (.label other)
    have hleft := (((remark_block (o := o) "IF").append htest).append hthen).append hjump
    have hall := (hleft.append helse).append (.label stop)
    exact (hall.close (by simp)).close (by simp)
  | .whileLoop _ cond body, v, ls, h, hexit => by
    rw [Stmt.exprs, List.forall_mem_cons] at h
    refine .bind (emits_any _) fun start _ => .bind (emits_any _) fun stop _ => ?_
    have hexit' : exit ∈ start :: stop :: ls := .tail start (.tail stop hexit)
    have hstop : stop ∈ start :: stop :: ls := .tail start (.head ls)
    refine .bind (branchUnless_emits cond h.1 hstop) fun test htest => ?_
    refine .bind (body_emits body v h.2 hexit') fun code hcode => .pure ?_
    have hjump : Block p (start :: stop :: ls) [bare (.b start), .label stop] :=
      (Block.jump (by simp)).append (.label stop)
    have hall := (((remark_block (o := o) "WHILE").append (.label start)).append htest).append hcode
    exact ((hall.append hjump).close (by simp)).close (by simp)
  | .call _ node callee args, v, ls, h, _ => by
    rw [Stmt.exprs, List.forall_mem_singleton] at h
    refine .bind (expr_emits (.call node callee args) h) fun x hx => .pure ?_
    exact ((remark_block "CALL").append hx.any).append discard_block
  | .ret _ none, v, ls, _, hexit =>
    .bind (returnValue_emits none nofun) fun _ hx =>
      .pure (((remark_block "RETURN").append hx).append (.jump hexit))
  | .ret _ (some value), v, ls, h, hexit => by
    rw [Stmt.exprs, List.forall_mem_singleton] at h
    refine .bind (returnValue_emits (some value) ?_) fun _ hx =>
      .pure (((remark_block "RETURN").append hx).append (.jump hexit))
    rintro _ ⟨⟩
    exact h

theorem body_emits : ∀ (bd : Body) (v : Surroundings) {ls : List String},
    (∀ r ∈ bd.exprs v, r.2.Anchored p b) → exit ∈ ls → Emits (body o b exit bd) (Block p ls)
  | .block ds ss, v, _, h, hexit => stmts_emits ss (v.enter ds) h hexit

theorem stmts_emits : ∀ (ss : List Stmt) (v : Surroundings) {ls : List String},
    (∀ r ∈ Stmt.manyExprs v ss, r.2.Anchored p b) → exit ∈ ls →
    Emits (stmts o b exit ss) (Block p ls)
  | [], _, _, _, _ => .pure .nil
  | s :: ss, v, _, h, hexit => by
    rw [Stmt.manyExprs, List.forall_mem_append] at h
    exact .bind (stmt_emits s v h.1 hexit) fun _ hx =>
      .bind (stmts_emits ss v h.2 hexit) fun _ hxs => .pure (hx.append hxs)

end

end Code

/-! ## Programs -/

/-- `c` is the code of the function `f`, and `own` is what stands in it between the entry label of
the function and the end of its epilogue. In front of the entry there are directives only. -/
structure FnDecl.Coded (o : Options) (f : FnDecl) (c own : Code) : Prop where
  entry : ∃ head,
    c = head ++ .label (Label.function f.name.name) :: own ∧ ∀ i ∈ head, i.home? = none
  epilogue : ∃ inner formalSpace, own = inner ++ Code.epilogue o formalSpace f.isMain

theorem FnDecl.Coded.subset {o : Options} {f : FnDecl} {c own : Code} (h : f.Coded o c own) :
    own ⊆ c := by
  obtain ⟨head, rfl, -⟩ := h.entry
  exact List.subset_append_of_subset_right _ (List.subset_cons_self _ _)

/-- `c` is the code of a declaration. What it refers to satisfies `P`, given what stands between the
entry and the end of the function; only functions refer to anything. -/
def Decl.Coded (o : Options) (P : Code → Ref → Prop) : Decl → Code → Prop
  | .fn f, c => ∃ own, f.Coded o c own ∧ ∀ r ∈ c.refs, P own r
  | .var _, c | .struct _, c => c.refs = []

theorem Decl.Coded.mono {o : Options} {P Q : Code → Ref → Prop} {d : Decl} {c : Code}
    (h : d.Coded o P c) (hPQ : ∀ own r, own ⊆ c → P own r → Q own r) : d.Coded o Q c := by
  cases d with
  | var d | struct d => exact h
  | fn f =>
    obtain ⟨own, hcoded, hrefs⟩ := h
    exact ⟨own, hcoded, fun r hr => hPQ own r hcoded.subset (hrefs r hr)⟩

namespace Code

variable {o : Options} {b : Annotations}

/-- The directives in front of a function. -/
def directives (isMain : Bool) : Code := [.text] ++ if isMain then [.globl "main"] else []

theorem directives_sectioned (isMain : Bool) (s : Option Section) :
    (directives isMain).sectioned s = true ∧ (directives isMain).behind s = some .text := by
  cases isMain <;> exact ⟨rfl, rfl⟩

theorem home?_of_directives (isMain : Bool) : ∀ i ∈ directives isMain, i.home? = none := by
  cases isMain <;> decide

/-- What stands between the entry of a function and its end, where `code` is the code of its
body. -/
def inside (o : Options) (f : FnDecl) (info : FnInfo) (code : Code) : Code :=
  remark o "FUNCTION ENTRY" ++ prologue o info.formalSpace info.localSpace ++ code ++
    remark o "FUNCTION EXIT" ++ [.label (Label.exit f.name.name)] ++
    epilogue o info.formalSpace f.isMain

theorem inside_block (f : FnDecl) (info : FnInfo) {code : Code}
    (h : Block p [Label.exit f.name.name] code) : Block p [] (inside o f info code) := by
  have hin := ((remark_block (o := o) "FUNCTION ENTRY").append
    (prologue_block (o := o) info.formalSpace info.localSpace)).append h
  have hout := (hin.append (remark_block (o := o) "FUNCTION EXIT")).append
    (.label (Label.exit f.name.name))
  refine (hout.append (epilogue_block info.formalSpace f.isMain)).close ?_
  simp

theorem fnDecl_eq (f : FnDecl) : fnDecl o b f = do
    let info ← fnInfo b f.name
    let code ← body o b (Label.exit f.name.name) f.body
    return directives f.isMain ++ .label (Label.function f.name.name) :: inside o f info code := by
  simp [fnDecl, directives, inside]

theorem fnDecl_emits (f : FnDecl) (h : f.Anchored p b) :
    Emits (fnDecl o b f) fun c => (∀ s, c.sectioned s = true) ∧
      (Decl.fn f).Coded o (fun own r => r.Within p [] own) c := by
  obtain ⟨before, h⟩ := h
  have hbody : Emits (body o b (Label.exit f.name.name) f.body)
      (Block p [Label.exit f.name.name]) := by
    cases hb : f.body with
    | block ds ss =>
      rw [FnDecl.exprs, hb] at h
      exact stmts_emits ss _ h (.head [])
  rw [fnDecl_eq]
  refine .bind (emits_any _) fun info _ => .bind hbody fun code hcode => .pure ?_
  have hown : Block p [] (inside o f info code) := inside_block f info hcode
  constructor
  · intro s
    obtain ⟨hs, hb⟩ := directives_sectioned f.isMain s
    rw [sectioned_append, hs, hb, Bool.true_and]
    exact hown.inText.sectioned
  · refine ⟨inside o f info code, ⟨⟨directives f.isMain, rfl, home?_of_directives f.isMain⟩, ?_⟩,
      fun r hr => hown.within r ?_⟩
    · exact ⟨_, info.formalSpace, rfl⟩
    · have hnone : (directives f.isMain).refs = [] := by cases f.isMain <;> rfl
      rw [refs_append, hnone, List.nil_append] at hr
      exact hr

theorem decl_emits (d : Decl) (h : ∀ f, d = .fn f → f.Anchored p b) :
    Emits (decl o b d) fun c => (∀ s, c.sectioned s = true) ∧
      d.Coded o (fun own r => r.Within p [] own) c := by
  cases d with
  | var d =>
    show Emits (globalVar b d) _
    unfold globalVar
    cases b.symbolOf? d.name.id with
    | none => exact .throw
    | some s => exact .pure ⟨fun s => rfl, rfl⟩
  | struct d => exact .pure ⟨fun s => rfl, rfl⟩
  | fn f => exact fnDecl_emits f (h f rfl)

theorem decls_emits : ∀ ds : List Decl, (∀ f, Decl.fn f ∈ ds → f.Anchored p b) →
    Emits (decls o b ds) fun code => (∀ s, code.sectioned s = true) ∧
      ∃ parts, code = parts.flatten ∧
        List.Forall₂ (Decl.Coded o fun own r => r.Within p [] own) ds parts
  | [], _ => .pure ⟨fun _ => rfl, [], rfl, .nil⟩
  | d :: ds, h => by
    have hd : ∀ f, d = .fn f → f.Anchored p b := by
      rintro f rfl
      exact h f (.head ds)
    refine .bind (decl_emits d hd) fun x hx => ?_
    refine .bind (decls_emits ds fun f hf => h f (.tail d hf)) fun xs hxs => .pure ?_
    obtain ⟨parts, rfl, hparts⟩ := hxs.2
    refine ⟨fun s => ?_, x :: parts, rfl, .cons hx.2 hparts⟩
    rw [sectioned_append, hx.1, hxs.1, Bool.and_self]

end Code

/-- The reference leads to what it should, in the file `code`: a jump to a label of the function
that `own` is the inside of, a call to the entry of a function, and an address to a datum of its
kind. -/
def Ref.Defined (p : Program) (code own : Code) : Ref → Prop
  | jump l => Item.label l ∈ own
  | call l => (∃ f, Decl.fn f ∈ p.decls ∧ l = Label.function f.name.name) ∧ Item.label l ∈ code
  | string l => ∃ text, Item.datum l (.asciiz text) ∈ code
  | cell l => ∃ bytes, Item.datum l (.space bytes) ∈ code

/-- In the code of a whole program, functions and variables are there. -/
theorem Ref.Within.defined {source : String} {b : Annotations} {o : Options} {n m : Nat}
    {code own : Code} (han : Analyzed source p b) (hgen : generate o p b n = .ok (code, m))
    (hsub : own ⊆ code) {r : Ref} (h : r.Within p [] own) : r.Defined p code own := by
  cases r with
  | jump l => exact h.resolve_left nofun
  | call l =>
    obtain ⟨f, hf, rfl⟩ := h
    obtain ⟨c, x, c', k, k', rfl, hx⟩ := decl_of_decls hgen hf
    obtain ⟨-, -, own', hcoded, -⟩ :=
      Code.fnDecl_emits f (han.accepted.anchored hf) k x k' trivial hx
    obtain ⟨head, rfl, -⟩ := hcoded.entry
    exact ⟨⟨f, hf, rfl⟩, by simp⟩
  | string l =>
    obtain ⟨text, ht⟩ := h
    exact ⟨text, hsub ht⟩
  | cell l =>
    obtain ⟨d, hd, rfl⟩ := h
    obtain ⟨k, hhoused⟩ := han.ready.1.outer hd
    obtain ⟨s, hs, -, -⟩ := hhoused.symbolOf? han.ready.1.resolved
    obtain ⟨c, c', rfl⟩ := datum_of_decls hgen hd hs
    exact ⟨s.size, by simp⟩

/-- **The code of a text is closed.** Every item stands in its section. The code is made of one part
for each declaration; only the parts of functions refer to anything, and every reference leads to
what it should: a jump goes to a label between the entry and the end of the same function, a call to
the entry of a function of the program, and an address is that of a string or of the room of a
variable. -/
theorem compile_closed {source : String} {o : Options} {code : Code}
    (h : (compile source o).1 = .ok (some code)) :
    code.sectioned none = true ∧
      ∃ ts p parts, tokenize source = .ok ts ∧ parse ts.lexemes = .ok p ∧ code = parts.flatten ∧
        List.Forall₂ (Decl.Coded o fun own r => r.Defined p code own) p.decls parts := by
  obtain ⟨p, b, m, han, hgen⟩ := compile_ok h
  obtain ⟨-, hsections, parts, hcode, hparts⟩ :=
    Code.decls_emits p.decls (fun f hf => han.accepted.anchored hf) 0 code m trivial hgen
  obtain ⟨hlength, hzip⟩ := List.forall₂_iff_zip.1 hparts
  have hall : List.Forall₂ (Decl.Coded o fun own r => r.Defined p code own) p.decls parts := by
    refine List.forall₂_iff_zip.2 ⟨hlength, fun {d c} hdc => ?_⟩
    have hc : c ⊆ code := by
      intro i hi
      rw [hcode]
      exact List.mem_flatten_of_mem (List.of_mem_zip hdc).2 hi
    exact (hzip hdc).mono fun own r hown hr => hr.defined han hgen (List.Subset.trans hown hc)
  obtain ⟨hlex, hparse, -, -, -⟩ := han
  exact ⟨hsections none, _, p, parts, hlex, hparse, hcode, hall⟩

/-- A loop, a call, a string and a field of a variable outside all functions. -/
theorem compile_closed_references :
    ∃ code ts p parts,
      (compile "struct P \x7b int x; int y; \x7d; struct P g; int f() \x7b return g.y; \x7d void main() \x7b while (f() < 3) \x7b cout << \"g\"; g.y++; \x7d \x7d" {}).1 =
        .ok (some code) ∧
      tokenize "struct P \x7b int x; int y; \x7d; struct P g; int f() \x7b return g.y; \x7d void main() \x7b while (f() < 3) \x7b cout << \"g\"; g.y++; \x7d \x7d" = .ok ts ∧
      parse ts.lexemes = .ok p ∧ Ref.jump "f_exit" ∈ code.refs ∧ Ref.jump "while_0" ∈ code.refs ∧
      Ref.call "_f" ∈ code.refs ∧ Ref.string "str_2" ∈ code.refs ∧ Ref.cell "_g" ∈ code.refs ∧
      code.sectioned none = true ∧ code = parts.flatten ∧
      List.Forall₂ (Decl.Coded {} fun own r => r.Defined p code own) p.decls parts := by
  obtain ⟨p, b, code, m, -, -, hcode, htest⟩ := exists_of_code
    "struct P \x7b int x; int y; \x7d; struct P g; int f() \x7b return g.y; \x7d void main() \x7b while (f() < 3) \x7b cout << \"g\"; g.y++; \x7d \x7d"
    (fun code => [.jump "f_exit", .jump "while_0", .call "_f", .string "str_2", .cell "_g"].all
      (code.refs.contains ·)) (by decide +kernel)
  obtain ⟨hsections, ts, p, parts, hlex, hparse, hflat, hparts⟩ := compile_closed hcode
  simp only [List.all_cons, List.all_nil, List.contains_iff_mem, Bool.and_eq_true] at htest
  obtain ⟨hexit, hloop, hcall, hstring, hcell, -⟩ := htest
  exact ⟨code, ts, p, parts, hcode, hlex, hparse, hexit, hloop, hcall, hstring, hcell, hsections,
    hflat, hparts⟩

end FlatC
