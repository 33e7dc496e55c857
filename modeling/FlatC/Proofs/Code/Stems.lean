import FlatC.Code.Program
import FlatC.Proofs.Yields

/-!
# Which labels the code of a tree needs

The code of a tree needs a label for every string literal, for the end of every connective, and for
the branches and loops. Its **stems** are the words of these labels, in the order in which the labels
are made: that of a statement before those of its parts, and those of the parts in their order.
`Label.series n stems` are the labels made of them if `n` is the next free number.
-/

namespace FlatC

namespace Label

/-- The labels that are made of words, one after the other, with numbers from `n` on. -/
def series (n : Nat) : List String → List String
  | [] => []
  | stem :: stems => numbered stem n :: series (n + 1) stems

theorem series_append (n : Nat) (stems stems' : List String) :
    series n (stems ++ stems') = series n stems ++ series (n + stems.length) stems' := by
  induction stems generalizing n with
  | nil => rfl
  | cons stem stems ih =>
    have hlength : n + (stem :: stems).length = n + 1 + stems.length := by
      rw [List.length_cons]
      omega
    rw [List.cons_append, series, series, ih, hlength, List.cons_append]

/-- A series is what the steps that make its labels give. -/
theorem mapM_label (stems : List String) (n : Nat) :
    (stems.mapM Gen.label).run n = .ok (series n stems, n + stems.length) := by
  induction stems generalizing n with
  | nil => rfl
  | cons stem stems ih =>
    have hlength : n + (stem :: stems).length = n + 1 + stems.length := by
      rw [List.length_cons]
      omega
    rw [List.mapM_cons, hlength]
    exact run_bind_ok.2 ⟨_, _, rfl, run_bind_ok.2 ⟨_, _, ih (n + 1), rfl⟩⟩

end Label

mutual

def Expr.stems : Expr → List String
  | .int .. | .bool .. | .place _ => []
  | .str .. => ["str"]
  | .assign _ _ value => value.stems
  | .call _ _ args => Expr.allStems args
  | .unary _ _ operand => operand.stems
  | .binary _ (.logical op) left right => Code.connectiveStem op :: (left.stems ++ right.stems)
  | .binary _ (.arith _) left right | .binary _ (.equality _) left right
  | .binary _ (.order _) left right => left.stems ++ right.stems

def Expr.allStems : List Expr → List String
  | [] => []
  | e :: es => e.stems ++ Expr.allStems es

end

mutual

def Stmt.stems : Stmt → List String
  | .assign _ node target value => (Expr.assign node target value).stems
  | .increment .. | .decrement .. | .read .. => []
  | .write _ value => value.stems
  | .ifThen _ cond thenBody => "if_end" :: (cond.stems ++ thenBody.stems)
  | .ifElse _ cond thenBody elseBody =>
    "else" :: "if_end" :: (cond.stems ++ thenBody.stems ++ elseBody.stems)
  | .whileLoop _ cond loopBody => "while" :: "while_end" :: (cond.stems ++ loopBody.stems)
  | .call _ node callee args => (Expr.call node callee args).stems
  | .ret _ none => []
  | .ret _ (some value) => value.stems

def Body.stems : Body → List String
  | .block _ ss => Stmt.allStems ss

def Stmt.allStems : List Stmt → List String
  | [] => []
  | s :: ss => s.stems ++ Stmt.allStems ss

end

def Decl.stems : Decl → List String
  | .var _ | .struct _ => []
  | .fn d => d.body.stems

def Program.stems (p : Program) : List String := p.decls.flatMap Decl.stems

end FlatC
