import FlatC.Code.Statement

/-!
# Code for programs

Functions go to the text section and variables to the data section, in the order
of their declarations. A struct declaration makes no code.
-/

namespace FlatC

namespace Code

variable (o : Options) (notes : Annotations)

/-- Room for a variable outside all functions. -/
def globalVar (d : VarDecl) : Gen Code :=
  match notes.symbolOf? d.name.id with
  | some s => return [.data, .align 2, .datum (Label.global d.name.name) (.space s.size)]
  | none => throw (.unresolvedGlobal d.name.name)

def fnInfo (name : Ident) : Gen FnInfo :=
  match (notes.symbolOf? name.id).bind Symbol.fnInfo? with
  | some info => return info
  | none => throw (.notAFunction name.name)

def fnDecl (d : FnDecl) : Gen Code := do
  let info ← fnInfo notes d.name
  let code ← body o notes (Label.exit d.name.name) d.body
  return [.text] ++ (if d.isMain then [.globl "main"] else []) ++
    [.label (Label.function d.name.name)] ++ remark o "FUNCTION ENTRY" ++
    prologue o info.formalSpace info.localSpace ++ code ++ remark o "FUNCTION EXIT" ++
    [.label (Label.exit d.name.name)] ++ epilogue o info.formalSpace d.isMain

def decl : Decl → Gen Code
  | .var d => globalVar notes d
  | .struct _ => return []
  | .fn d => fnDecl o notes d

def decls : List Decl → Gen Code
  | [] => return []
  | d :: ds => do
    let x ← decl o notes d
    let xs ← decls ds
    return x ++ xs

end Code

/-- **The code of a program** that has been through all the stages before, and the
next free label number. -/
def generate (o : Options) (p : Program) (notes : Annotations) (nextLabel : Nat) :
    Except Defect (Code × Nat) :=
  (Code.decls o notes p.decls).run nextLabel

end FlatC
