import FlatC.Proofs.Binding.Bound
import FlatC.Proofs.Meaning.Words

/-!
# What a running program sees

A running program sees values, the declarations that are in scope (`Env`), and the world: the
variables outside all functions, those of the function that runs, what is still to be read, and
what has been written. A word of a variable is known by its `Path`: the declaration of the
variable and those of the fields that lead to it.

A step of a program (`Exec`) changes the world, ends the program, or gets stuck for a reason.
-/

namespace FlatC

open Binding

/-- What a word of a variable can hold. -/
inductive Atom where
  | int (n : Int)
  | bool (v : Bool)
  deriving DecidableEq, Repr

namespace Atom

/-- The word that stands for it. -/
def word : Atom → Int
  | int n => n
  | bool v => v.toInt

/-- What a word stands for in a variable of a type. -/
def ofWord : Scalar → Int → Option Atom
  | .int, n => some (int n)
  | .bool, n => if n = 0 then some (bool false) else if n = 1 then some (bool true) else none
  | .void, _ => none

theorem word_of_ofWord {s : Scalar} {n : Int} {a : Atom} (h : ofWord s n = some a) :
    a.word = n := by
  cases s with
  | int =>
    cases h
    rfl
  | bool =>
    simp only [ofWord] at h
    split at h
    next hn =>
      cases h
      exact hn.symm
    next =>
      split at h
      next hn =>
        cases h
        exact hn.symm
      next => cases h
  | void => cases h

end Atom

/-- What an expression can give. A string literal gives the occurrence that it is. -/
inductive Value where
  | atom (a : Atom)
  | str (id : NodeId) (text : String)
  deriving DecidableEq, Repr

namespace Value

def int? : Value → Option Int
  | atom (.int n) => some n
  | _ => none

def bool? : Value → Option Bool
  | atom (.bool v) => some v
  | _ => none

/-- The value, if a variable of that type can hold it. -/
def as? : Scalar → Value → Option Atom
  | .int, atom (.int n) => some (.int n)
  | .bool, atom (.bool v) => some (.bool v)
  | _, _ => none

/-- Two values of one type are the same. -/
def same? : Value → Value → Option Bool
  | atom (.int n), atom (.int m) => some (n == m)
  | atom (.bool v), atom (.bool u) => some (v == u)
  | str i _, str j _ => some (i == j)
  | _, _ => none

theorem atom_of_int? {v : Value} {n : Int} (h : v.int? = some n) : v = atom (.int n) := by
  unfold int? at h
  split at h
  next => rw [Option.some.inj h]
  next => cases h

theorem atom_of_bool? {v : Value} {x : Bool} (h : v.bool? = some x) : v = atom (.bool x) := by
  unfold bool? at h
  split at h
  next => rw [Option.some.inj h]
  next => cases h

theorem atom_of_as? {v : Value} {s : Scalar} {a : Atom} (h : v.as? s = some a) : v = atom a := by
  unfold as? at h
  split at h
  next => rw [← Option.some.inj h]
  next => rw [← Option.some.inj h]
  next => cases h

end Value

/-- What is written by one statement. -/
inductive Output where
  | number (n : Int)
  | text (s : String)
  deriving DecidableEq, Repr

def Value.output : Value → Output
  | atom a => .number a.word
  | str _ text => .text (literalText text)

/-! ## Variables -/

/-- A word of a variable. -/
structure Path where
  root : VarDecl
  fields : List VarDecl
  deriving DecidableEq, Repr

/-- What is in scope, what was declared last first. -/
structure Env where
  /-- The parameters and variables of the function. -/
  inner : List VarDecl
  /-- The declarations of the program. -/
  outer : List Decl

/-- A place of a program, as far as it is known without running it. -/
structure Target where
  /-- The variable is declared outside all functions. -/
  isOuter : Bool
  path : Path
  type : TypeSpec

namespace Env

def decls (e : Env) : List Decl := e.inner.map Decl.var ++ e.outer

/-- Opens a block. -/
def extend (e : Env) (ds : List VarDecl) : Env := { e with inner := ds.reverse ++ e.inner }

/-- What is in scope at the start of the body of a function. -/
def ofFn (f : FnDecl) (outer : List Decl) : Env := extend ⟨[], outer⟩ (f.params.map Param.decl)

/-- The variable that a name stands for. -/
def named? (e : Env) (x : String) : Option Target :=
  match e.inner.find? (·.name.name == x) with
  | some d => some ⟨false, ⟨d, []⟩, d.type⟩
  | none =>
    match find e.outer x with
    | some (.var d) => some ⟨true, ⟨d, []⟩, d.type⟩
    | _ => none

/-- The field of a struct. -/
def field? (e : Env) (struct x : String) : Option VarDecl :=
  match find e.outer (structKey struct) with
  | some (.struct sd) => sd.fields.find? (·.name.name == x)
  | _ => none

def place? (e : Env) : Place → Option Target
  | .var _ name => e.named? name.name
  | .field _ base name => do
    let t ← e.place? base
    match t.type with
    | .struct struct =>
      let x ← e.field? struct.name name.name
      return ⟨t.isOuter, ⟨t.path.root, t.path.fields ++ [x]⟩, x.type⟩
    | .scalar _ => none

/-- The function that a name stands for, with the declarations up to it. -/
def function? (e : Env) (x : String) : Option (FnDecl × List Decl) :=
  match e.inner.find? (·.name.name == x) with
  | some _ => none
  | none =>
    match e.outer.dropWhile (·.key != x) with
    | .fn f :: ds => some (f, .fn f :: ds)
    | _ => none

end Env

/-! ## The world -/

structure World where
  /-- The variables outside all functions that have been assigned to. -/
  outer : Path → Option Atom
  /-- The variables of the function that runs that have been assigned to. -/
  inner : Path → Option Atom
  input : List Int
  output : List Output

namespace World

def initial (input : List Int) : World := ⟨fun _ => none, fun _ => none, input, []⟩

def write (w : World) (x : Output) : World := { w with output := w.output ++ [x] }

end World

namespace Target

/-- What a variable of type `s` holds. Outside all functions, variables start with zero. -/
def get (t : Target) (s : Scalar) (w : World) : Option Atom :=
  if t.isOuter then (w.outer t.path).or (Atom.ofWord s 0) else w.inner t.path

def set (t : Target) (a : Atom) (w : World) : World :=
  if t.isOuter then { w with outer := fun q => if q = t.path then some a else w.outer q }
  else { w with inner := fun q => if q = t.path then some a else w.inner q }

end Target

/-! ## Steps -/

/-- Why a program cannot go on. -/
inductive Stuck where
  /-- It has run for too long. -/
  | outOfFuel
  /-- A variable is read before anything was assigned to it. -/
  | uninitialised
  /-- The value of a call is used that ended without one. -/
  | noValue
  /-- A number was read into a `bool` that is neither zero nor one. -/
  | notABool
  /-- A struct is read or assigned as a whole. -/
  | wholeStruct
  /-- An arithmetic operation has no result. -/
  | arithmetic
  /-- There is nothing left to read. -/
  | noInput
  /-- Something is used as what it is not. -/
  | illTyped
  deriving DecidableEq, Repr

/-- How a program stops. -/
inductive Halt where
  | exit (final : World)
  | stuck (why : Stuck)

/-- A step of a program. -/
abbrev Exec := StateT World (Except Halt)

namespace Exec

variable {α : Type}

def stuck (why : Stuck) : Exec α := throw (.stuck why)

/-- Ends the program. -/
def exit : Exec α := do throw (.exit (← get))

/-- Goes on with a result, if there is one. -/
def from? (why : Stuck) : Option α → Exec α
  | some a => return a
  | none => stuck why

end Exec

end FlatC
