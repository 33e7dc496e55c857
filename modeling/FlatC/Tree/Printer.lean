import FlatC.Tree.Basic

/-!
# Printing trees

A tree is printed as source text that reads back as the same tree: operators and
nested assignments stand in parentheses, blocks are indented by four.

Printing is relative to `ident : Ident → String`, the text of an identifier. With
`Ident.name` it is plain source; other functions add to each name what is known
about it.
-/

namespace FlatC

namespace Scalar

def text : Scalar → String
  | int => "int"
  | bool => "bool"
  | void => "void"

end Scalar

/-- The blanks in front of a line at depth `n`. -/
def indent (n : Nat) : String := String.ofList (List.replicate (4 * n) ' ')

section Print

variable (ident : Ident → String)

def TypeSpec.print : TypeSpec → String
  | .scalar s => s.text
  | .struct name => "struct " ++ ident name

def Place.print : Place → String
  | .var _ name => ident name
  | .field _ base name => base.print ++ "." ++ ident name

mutual

def Expr.print : Expr → String
  | .int _ value => toString value
  | .str _ text => "\"" ++ text ++ "\""
  | .bool _ value => if value then "true" else "false"
  | .place p => p.print ident
  | .assign _ target value => "(" ++ target.print ident ++ " = " ++ value.print ++ ")"
  | .call _ callee args => ident callee ++ "(" ++ Expr.printArgs args ++ ")"
  | .unary _ op operand => "(" ++ op.spelling ++ operand.print ++ ")"
  | .binary _ op left right =>
    "(" ++ left.print ++ " " ++ op.spelling ++ " " ++ right.print ++ ")"

def Expr.printArgs : List Expr → String
  | [] => ""
  | [e] => e.print
  | e :: es => e.print ++ ", " ++ Expr.printArgs es

end

def VarDecl.print (d : VarDecl) : String := d.type.print ident ++ " " ++ ident d.name ++ ";"

def Param.print (p : Param) : String := p.type.text ++ " " ++ ident p.name

/-- Variable declarations at depth `n`, one a line. -/
def VarDecl.printLines (n : Nat) (ds : List VarDecl) : String :=
  String.join (ds.map fun d => indent n ++ d.print ident ++ "\n")

mutual

/-- A statement at depth `n`, with its line break. -/
def Stmt.print (n : Nat) : Stmt → String
  | .assign _ _ target value =>
    indent n ++ target.print ident ++ " = " ++ value.print ident ++ ";\n"
  | .increment _ target => indent n ++ target.print ident ++ "++;\n"
  | .decrement _ target => indent n ++ target.print ident ++ "--;\n"
  | .read _ target => indent n ++ "cin >> " ++ target.print ident ++ ";\n"
  | .write _ value => indent n ++ "cout << " ++ value.print ident ++ ";\n"
  | .ifThen _ cond body =>
    indent n ++ "if (" ++ cond.print ident ++ ") \x7b\n" ++ body.print (n + 1) ++
      indent n ++ "\x7d\n"
  | .ifElse _ cond thenBody elseBody =>
    indent n ++ "if (" ++ cond.print ident ++ ") \x7b\n" ++ thenBody.print (n + 1) ++
      indent n ++ "\x7d\n" ++
      indent n ++ "else \x7b\n" ++ elseBody.print (n + 1) ++ indent n ++ "\x7d\n"
  | .whileLoop _ cond body =>
    indent n ++ "while (" ++ cond.print ident ++ ") \x7b\n" ++ body.print (n + 1) ++
      indent n ++ "\x7d\n"
  | .call _ node callee args =>
    indent n ++ (Expr.call node callee args).print ident ++ ";\n"
  | .ret _ none => indent n ++ "return;\n"
  | .ret _ (some value) => indent n ++ "return " ++ value.print ident ++ ";\n"

/-- The lines of a block at depth `n`, without its braces. -/
def Body.print (n : Nat) : Body → String
  | .block decls stmts => VarDecl.printLines ident n decls ++ Stmt.printAll n stmts

def Stmt.printAll (n : Nat) : List Stmt → String
  | [] => ""
  | s :: ss => s.print n ++ Stmt.printAll n ss

end

def StructDecl.print (d : StructDecl) : String :=
  "struct " ++ ident d.name ++ " \x7b\n" ++ VarDecl.printLines ident 1 d.fields ++ "\x7d;\n"

def FnDecl.print (d : FnDecl) : String :=
  d.returns.text ++ " " ++ ident d.name ++ "(" ++
    ", ".intercalate (d.params.map (Param.print ident)) ++ ") \x7b\n" ++
    d.body.print ident 1 ++ "\x7d\n"

def Decl.print : Decl → String
  | .var d => d.print ident ++ "\n"
  | .struct d => d.print ident
  | .fn d => d.print ident

/-- An empty line stands before a struct or a function that is not the first
declaration. -/
def Decl.gap : Decl → String
  | .var _ => ""
  | _ => "\n"

/-- **The source text of a program.** -/
def Program.print (p : Program) : String :=
  match p.decls with
  | [] => ""
  | d :: ds => d.print ident ++ String.join (ds.map fun d => d.gap ++ d.print ident)

end Print

end FlatC
