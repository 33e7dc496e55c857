import FlatC.Code.Expression

/-!
# Code for statements

The code of a statement leaves the stack as it was. A `return` leaves its value in
`$v0` and goes to the end of the function.
-/

namespace FlatC.Code

/-- The number of the system call that prints a word as an integer. -/
def printInt : Int := 1

/-- The number of the system call that prints the characters at an address. -/
def printString : Int := 4

/-- The number of the system call that reads an integer. -/
def readInt : Int := 5

variable (o : Options) (notes : Annotations)

/-- Adds to a place. -/
def step (delta : Int) (target : Place) : Gen Code := do
  let l ← location notes target
  return load .t0 l ++ [bare (.addi .t0 .t0 delta)] ++ store .t0 l

def read (target : Place) : Gen Code := do
  let l ← location notes target
  return remark o "READ" ++ [bare (.li .v0 readInt), bare .syscall] ++ store .v0 l

/-- The system call that prints an expression. -/
def printCall (value : Expr) : Gen Int :=
  match notes.typeOf? value.id with
  | some .string => return printString
  | some _ => return printInt
  | none => throw (.untyped value.id)

def write (value : Expr) : Gen Code := do
  let number ← printCall notes value
  let x ← expr o notes value
  return remark o "WRITE" ++ x ++ pop o .a0 ++ [bare (.li .v0 number), bare .syscall]

/-- Goes to `target` unless a condition holds. -/
def branchUnless (cond : Expr) (target : String) : Gen Code := do
  let x ← expr o notes cond
  return x ++ pop o .t0 ++ [bare (.beq .t0 0 target)]

/-- Leaves a value in `$v0`. -/
def returnValue : Option Expr → Gen Code
  | none => return []
  | some value => do return (← expr o notes value) ++ pop o .v0

variable (exit : String)

mutual

/-- The code of a statement of the function that ends at `exit`. -/
def stmt : Stmt → Gen Code
  | .assign _ node target value => do
    let x ← expr o notes (.assign node target value)
    return remark o "ASSIGN" ++ x ++ discard o
  | .increment _ target => do return remark o "POST-INCREMENT" ++ (← step notes 1 target)
  | .decrement _ target => do return remark o "POST-DECREMENT" ++ (← step notes (-1) target)
  | .read _ target => read o notes target
  | .write _ value => write o notes value
  | .ifThen _ cond thenBody => do
    let stop ← Gen.label "if_end"
    let test ← branchUnless o notes cond stop
    let code ← body thenBody
    return remark o "IF" ++ test ++ code ++ [.label stop]
  | .ifElse _ cond thenBody elseBody => do
    let other ← Gen.label "else"
    let stop ← Gen.label "if_end"
    let test ← branchUnless o notes cond other
    let thenCode ← body thenBody
    let elseCode ← body elseBody
    return remark o "IF" ++ test ++ thenCode ++ [bare (.b stop), .label other] ++ elseCode ++
      [.label stop]
  | .whileLoop _ cond loopBody => do
    let start ← Gen.label "while"
    let stop ← Gen.label "while_end"
    let test ← branchUnless o notes cond stop
    let code ← body loopBody
    return remark o "WHILE" ++ [.label start] ++ test ++ code ++ [bare (.b start), .label stop]
  | .call _ node callee args => do
    let x ← expr o notes (.call node callee args)
    return remark o "CALL" ++ x ++ discard o
  | .ret _ value => do
    let x ← returnValue o notes value
    return remark o "RETURN" ++ x ++ [bare (.b exit)]

def body : Body → Gen Code
  | .block _ ss => stmts ss

def stmts : List Stmt → Gen Code
  | [] => return []
  | s :: ss => do
    let x ← stmt s
    let xs ← stmts ss
    return x ++ xs

end

end FlatC.Code
