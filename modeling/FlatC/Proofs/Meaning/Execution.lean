import FlatC.Proofs.Meaning.World

/-!
# What programs do

Running a program, by recursion on its tree. Operands are evaluated from left to right, the right
side of an assignment before it is stored, and the right operand of a connective only if
the left one does not decide. A call gets variables of its own; when `main` returns, whoever
called it, the program ends.

Calls and loops use up fuel: `Terminates` says that some amount of it is enough.
-/

namespace FlatC

/-- How calls are run: the function, the declarations up to it, and the arguments. -/
abbrev Handler := FnDecl → List Decl → List Atom → Exec (Option Atom)

/-- Where a statement leaves off: in front of the next one, or at the end of the function. -/
inductive Flow where
  | next
  | returned (value : Option Atom)
  deriving DecidableEq, Repr

/-- What the function returns if its body leaves off here. -/
def Flow.result : Flow → Option Atom
  | next => none
  | returned value => value

namespace Eval

/-- The arguments of a call as the parameters hold them. -/
def conform : List Param → List Value → Option (List Atom)
  | [], [] => some []
  | q :: qs, v :: vs => do return (← v.as? q.type) :: (← conform qs vs)
  | _, _ => none

/-- The value of the left operand that decides a connective. -/
def decisive : Connective → Bool
  | .and => false
  | .or => true

def unary : UnaryOp → Value → Exec Atom
  | .negate, v => do
    let n ← Exec.from? .illTyped v.int?
    return .int (← Exec.from? .arithmetic (word? (-n)))
  | .not, v => do return .bool (!(← Exec.from? .illTyped v.bool?))

def arith (op : ArithOp) (v u : Value) : Exec Atom := do
  let n ← Exec.from? .illTyped v.int?
  let m ← Exec.from? .illTyped u.int?
  return .int (← Exec.from? .arithmetic (op.eval n m))

def order (op : OrderOp) (v u : Value) : Exec Atom := do
  let n ← Exec.from? .illTyped v.int?
  let m ← Exec.from? .illTyped u.int?
  return .bool (op.holds n m)

def equality (op : EqOp) (v u : Value) : Exec Atom := do
  return .bool (op.holds (← Exec.from? .illTyped (v.same? u)))

section

variable (call : Handler) (e : Env)

/-- The place, with the type of its word. -/
def target (q : Place) : Exec (Target × Scalar) := do
  let t ← Exec.from? .illTyped (e.place? q)
  match t.type with
  | .scalar s => return (t, s)
  | .struct _ => Exec.stuck .wholeStruct

def load (q : Place) : Exec Atom := do
  let (t, s) ← target e q
  Exec.from? .uninitialised (t.get s (← get))

/-- Assigns a value and gives it back. -/
def store (q : Place) (v : Value) : Exec Atom := do
  let (t, s) ← target e q
  let a ← Exec.from? .illTyped (v.as? s)
  modify (t.set a)
  return a

/-- Calls the function that a name stands for. -/
def invoke (callee : String) (vs : List Value) : Exec (Option Atom) := do
  let (f, outer) ← Exec.from? .illTyped (e.function? callee)
  let args ← Exec.from? .illTyped (conform f.params vs)
  call f outer args

mutual

def expr : Expr → Exec Value
  | .int _ n => return .atom (.int n)
  | .str node text => return .str node.id text
  | .bool _ v => return .atom (.bool v)
  | .place q => do return .atom (← load e q)
  | .assign _ q value => do
    let v ← expr value
    return .atom (← store e q v)
  | .call _ callee args => do
    let vs ← exprs args
    let result ← invoke call e callee.name vs
    return .atom (← Exec.from? .noValue result)
  | .unary _ op operand => do return .atom (← unary op (← expr operand))
  | .binary _ (.arith op) left right => do
    let v ← expr left
    let u ← expr right
    return .atom (← arith op v u)
  | .binary _ (.equality op) left right => do
    let v ← expr left
    let u ← expr right
    return .atom (← equality op v u)
  | .binary _ (.order op) left right => do
    let v ← expr left
    let u ← expr right
    return .atom (← order op v u)
  | .binary _ (.logical op) left right => do
    let v ← Exec.from? .illTyped (← expr left).bool?
    if v = decisive op then return .atom (.bool v)
    else return .atom (.bool (← Exec.from? .illTyped (← expr right).bool?))

def exprs : List Expr → Exec (List Value)
  | [] => return []
  | x :: xs => do
    let v ← expr x
    let vs ← exprs xs
    return v :: vs

end

/-- Adds to a place. -/
def step (delta : Int) (q : Place) : Exec Flow := do
  let n ← Exec.from? .illTyped (Value.atom (← load e q)).int?
  let m ← Exec.from? .arithmetic (word? (n + delta))
  let _ ← store e q (.atom (.int m))
  return .next

def next : Exec Int := do
  let w ← get
  match w.input with
  | [] => Exec.stuck .noInput
  | n :: input => do
    set { w with input }
    return n

def read (q : Place) : Exec Flow := do
  let (t, s) ← target e q
  let a ← Exec.from? .notABool (Atom.ofWord s (← next))
  modify (t.set a)
  return .next

def write (value : Expr) : Exec Flow := do
  let v ← expr call e value
  modify (·.write v.output)
  return .next

def condition (cond : Expr) : Exec Bool := do
  Exec.from? .illTyped (← expr call e cond).bool?

end

/-- Runs `body` as long as `test` holds and `body` does not return. -/
def repeatWhile (test : Exec Bool) (body : Exec Flow) : Nat → Exec Flow
  | 0 => Exec.stuck .outOfFuel
  | fuel + 1 => do
    if ← test then
      match ← body with
      | .next => repeatWhile test body fuel
      | .returned value => return .returned value
    else return .next

section

variable (call : Handler) (fuel : Nat) (returns : Scalar)

mutual

/-- Runs a statement of a function that returns that type. -/
def stmt (e : Env) : Stmt → Exec Flow
  | .assign _ node q value => do
    let _ ← expr call e (.assign node q value)
    return .next
  | .increment _ q => step e 1 q
  | .decrement _ q => step e (-1) q
  | .read _ q => read e q
  | .write _ value => write call e value
  | .ifThen _ cond thenBody => do
    if ← condition call e cond then body e thenBody else return .next
  | .ifElse _ cond thenBody elseBody => do
    if ← condition call e cond then body e thenBody else body e elseBody
  | .whileLoop _ cond loopBody => repeatWhile (condition call e cond) (body e loopBody) fuel
  | .call _ _ callee args => do
    let vs ← exprs call e args
    let _ ← invoke call e callee.name vs
    return .next
  | .ret _ none => return .returned none
  | .ret _ (some value) => do
    let v ← expr call e value
    return .returned (some (← Exec.from? .illTyped (v.as? returns)))

def body (e : Env) : Body → Exec Flow
  | .block decls ss => stmts (e.extend decls) ss

def stmts (e : Env) : List Stmt → Exec Flow
  | [] => return .next
  | s :: ss => do
    match ← stmt e s with
    | .next => stmts e ss
    | .returned value => return .returned value

end

end

/-- What the parameters of a function hold at its start. -/
def arguments (params : List Param) (args : List Atom) (q : Path) : Option Atom :=
  if q.fields = [] then ((params.map Param.decl).zip args).lookup q.root else none

/-- Runs calls with that much fuel. -/
def callAt : Nat → Handler
  | 0, _, _, _ => Exec.stuck .outOfFuel
  | fuel + 1, f, outer, args => do
    let caller := (← get).inner
    modify ({ · with inner := arguments f.params args })
    let flow ← body (callAt fuel) fuel f.returns (Env.ofFn f outer) f.body
    modify ({ · with inner := caller })
    if f.isMain then Exec.exit else return flow.result

end Eval

namespace Program

/-- Calls `main`. -/
def run (p : Program) (fuel : Nat) : Exec (Option Atom) :=
  Eval.invoke (Eval.callAt fuel) ⟨[], p.decls.reverse⟩ "main" []

/-- The program ends, having read `read` from `input` and written `output`. -/
def Terminates (p : Program) (input read : List Int) (output : List Output) : Prop :=
  ∃ fuel w, (p.run fuel).run (.initial input) = .error (.exit w) ∧ input = read ++ w.input ∧
    w.output = output

/-- What a program that ends leaves to be read, and what it has written. -/
def outcome (p : Program) (fuel : Nat) (input : List Int) : Option (List Int × List Output) :=
  match (p.run fuel).run (.initial input) with
  | .error (.exit w) => some (w.input, w.output)
  | _ => none

theorem Terminates.of_outcome {p : Program} {fuel : Nat} {input read rest : List Int}
    {output : List Output} (h : p.outcome fuel input = some (rest, output))
    (hread : input = read ++ rest) : p.Terminates input read output := by
  unfold outcome at h
  split at h
  next w hrun =>
    obtain ⟨rfl, rfl⟩ := Prod.mk.inj (Option.some.inj h)
    exact ⟨fuel, w, hrun, hread, rfl⟩
  next => cases h

end Program

end FlatC
