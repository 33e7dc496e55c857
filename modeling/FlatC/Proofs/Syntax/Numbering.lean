import FlatC.Proofs.Syntax.Grammar

/-!
# Node ids

The ids of a tree, listed in the order in which they were handed out. What the
grammar derives between `n` and `m` has the ids `n`, `n + 1`, … up to `m`
(`Reads.ids`), so no id comes twice in a program (`ReadsProgram.nodup_ids`).
-/

namespace FlatC

def TypeSpec.ids : TypeSpec → List NodeId
  | .scalar _ => []
  | .struct name => [name.id]

def Place.ids : Place → List NodeId
  | .var node name => [name.id, node.id]
  | .field node base name => base.ids ++ [name.id, node.id]

mutual

def Expr.ids : Expr → List NodeId
  | .int node _ | .str node _ | .bool node _ => [node.id]
  | .place p => p.ids
  | .assign node target value => target.ids ++ value.ids ++ [node.id]
  | .call node callee args => callee.id :: (Expr.allIds args ++ [node.id])
  | .unary node _ operand => operand.ids ++ [node.id]
  | .binary node _ left right => left.ids ++ right.ids ++ [node.id]

def Expr.allIds : List Expr → List NodeId
  | [] => []
  | e :: es => e.ids ++ Expr.allIds es

end

def VarDecl.ids (d : VarDecl) : List NodeId := d.type.ids ++ [d.name.id]

def Param.ids (p : Param) : List NodeId := [p.name.id]

mutual

def Stmt.ids : Stmt → List NodeId
  | .assign _ node target value => target.ids ++ value.ids ++ [node.id]
  | .increment _ target | .decrement _ target | .read _ target => target.ids
  | .write _ value => value.ids
  | .ifThen _ cond body => cond.ids ++ body.ids
  | .ifElse _ cond thenBody elseBody => cond.ids ++ thenBody.ids ++ elseBody.ids
  | .whileLoop _ cond body => cond.ids ++ body.ids
  | .call _ node callee args => callee.id :: (Expr.allIds args ++ [node.id])
  | .ret _ none => []
  | .ret _ (some value) => value.ids

def Body.ids : Body → List NodeId
  | .block decls stmts => decls.flatMap VarDecl.ids ++ Stmt.allIds stmts

def Stmt.allIds : List Stmt → List NodeId
  | [] => []
  | s :: ss => s.ids ++ Stmt.allIds ss

end

def Decl.ids : Decl → List NodeId
  | .var d => d.ids
  | .struct d => d.name.id :: d.fields.flatMap VarDecl.ids
  | .fn d => d.name.id :: (d.params.flatMap Param.ids ++ d.body.ids)

def Program.ids (p : Program) : List NodeId := p.decls.flatMap Decl.ids

namespace Grammar

/-- The numbers from `n` up to, and not including, `m`. -/
def Between (n m : Nat) (ids : List NodeId) : Prop := n ≤ m ∧ ids = List.range' n (m - n)

variable {n m k : Nat} {ts : List Token}

theorem Between.nil : Between n n [] := ⟨Nat.le_refl n, by simp⟩

theorem Between.one : Between n (n + 1) [n] := ⟨by omega, by simp⟩

theorem Between.append {ids ids' : List NodeId} (h : Between n m ids) (h' : Between m k ids') :
    Between n k (ids ++ ids') := by
  obtain ⟨hn, rfl⟩ := h
  obtain ⟨hm, rfl⟩ := h'
  refine ⟨by omega, ?_⟩
  have hm : m = n + (m - n) := by omega
  have hk : k - n = (m - n) + (k - m) := by omega
  rw [hk, ← List.range'_append_1, ← hm]

theorem Between.cons {ids : List NodeId} (h : Between (n + 1) m ids) : Between n m (n :: ids) :=
  .append .one h

theorem Between.snoc {ids : List NodeId} (h : Between n m ids) :
    Between n (m + 1) (ids ++ [m]) :=
  h.append .one

/-- The ids of a phrase, those that were handed out before it apart. -/
def Phrase.Between (n m : NodeId) : Phrase → Prop
  | .place p | .target p => Grammar.Between n m p.ids
  | .fields base p => ∀ k, Grammar.Between k n base.ids → Grammar.Between k m p.ids
  | .expr _ e => Grammar.Between n m e.ids
  | .chain _ left e => ∀ k, Grammar.Between k n left.ids → Grammar.Between k m e.ids
  | .args es | .moreArgs es => Grammar.Between n m (Expr.allIds es)

theorem Reads.ids {x : Phrase} (h : Reads n ts x m) : x.Between n m := by
  induction h with
  | place s s' _ ih => exact ih _ (.snoc .one)
  | fieldsNil => exact fun _ h => h
  | fieldsCons s s' _ ih =>
    intro k hk
    refine ih k ?_
    have := hk.snoc.snoc
    rwa [List.append_assoc] at this
  | target _ ih => exact ih
  | targetParen _ ih => exact ih
  | int | str | trueWord | falseWord => exact .one
  | placeExpr _ ih => exact ih
  | call s s' _ ih => exact .cons (Between.snoc ih)
  | paren _ ih => exact ih
  | primary _ ih => exact ih
  | sign _ _ _ ih => exact Between.snoc ih
  | chain _ _ _ ih ihc => exact ihc _ ih
  | chainNil => exact fun _ h => h
  | chainCons s _ _ _ _ ih ihc => exact fun k hk => ihc k (hk.append ih).snoc
  | operand _ ih => exact ih
  | comparison s _ _ _ ihl ihr => exact (Between.append ihl ihr).snoc
  | disjunction _ ih => exact ih
  | assign s _ _ ihp ihe => exact (Between.append ihp ihe).snoc
  | argsNil => exact .nil
  | argsCons _ _ ih ihs => exact Between.append ih ihs
  | moreNil => exact .nil
  | moreCons _ _ ih ihs => exact Between.append ih ihs

theorem ReadsVar.ids {d : VarDecl} (h : ReadsVar n ts d m) : Between n m d.ids := by
  cases h with
  | mk s s' h =>
    cases h with
    | scalar => exact .one
    | struct => exact .snoc .one

theorem ReadsMany.ids {α : Type} {R : NodeId → List Token → α → NodeId → Prop}
    {ids : α → List NodeId} {as : List α} (h : ReadsMany R n ts as m)
    (hR : ∀ {n ts a m}, R n ts a m → Between n m (ids a)) : Between n m (as.flatMap ids) := by
  induction h with
  | nil => exact .nil
  | cons h _ ih => rw [List.flatMap_cons]; exact (hR h).append ih

def Part.ids : Part → List NodeId
  | .stmt s => s.ids
  | .stmts ss => Stmt.allIds ss
  | .body b => b.ids

theorem ReadsStmt.ids {x : Part} (h : ReadsStmt n ts x m) : Between n m x.ids := by
  induction h with
  | assign s s' hp he => exact (Between.append hp.ids he.ids).snoc
  | increment _ h | decrement _ h | read _ h | write _ h | retValue _ h => exact h.ids
  | ifThen _ he _ ih => exact Between.append he.ids ih
  | ifElse _ he _ _ ih ih' => exact (Between.append he.ids ih).append ih'
  | whileLoop _ he _ ih => exact Between.append he.ids ih
  | call s s' s'' h => exact .cons (Between.snoc h.ids)
  | ret => exact .nil
  | nil => exact .nil
  | cons _ _ ih ihs => exact ih.append ihs
  | body hd _ ihs => exact (hd.ids fun h => h.ids).append ihs

theorem ReadsParam.ids {p : Param} (h : ReadsParam n ts p m) : Between n m p.ids := by
  cases h with
  | mk => exact .one

theorem ReadsParams.ids {ps : List Param} (h : ReadsParams n ts ps m) :
    Between n m (ps.flatMap Param.ids) := by
  cases h with
  | nil => exact .nil
  | cons h hs => exact Between.append h.ids (hs.ids fun ⟨h⟩ => h.ids)

theorem ReadsDecl.ids {d : Decl} (h : ReadsDecl n ts d m) : Between n m d.ids := by
  cases h with
  | var h => exact h.ids
  | struct s s' h => exact .cons (h.ids fun h => h.ids)
  | fn s s' _ hp hb => exact .cons (hp.ids.append hb.ids)

/-- **The ids of a program are the numbers below its node count**, in their order. -/
theorem ReadsProgram.ids {p : Program} (h : ReadsProgram ts p) :
    p.ids = List.range p.nodeCount := by
  cases h with
  | mk h =>
    rw [List.range_eq_range']
    exact (h.ids fun h => h.ids).2

theorem ReadsProgram.nodup_ids {p : Program} (h : ReadsProgram ts p) : p.ids.Nodup := by
  rw [h.ids]
  exact List.nodup_range

end Grammar

end FlatC
