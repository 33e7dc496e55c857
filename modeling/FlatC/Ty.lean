import FlatC.Tree.Basic

/-!
# Types

The types of names and expressions. Two types are **compatible** if they are
printed alike; the type of something already reported as wrong, `error`, is
compatible with nothing, so that one mistake is reported once.
-/

namespace FlatC

/-- The bytes of a machine word, which holds an `int`, a `bool` or an address. -/
def wordSize : Nat := 4

inductive Ty where
  | int
  | bool
  | void
  | string
  /-- The name of a struct itself. -/
  | structDef (name : String)
  /-- A value of the struct of that name. -/
  | struct (name : String)
  | fn (params : List Ty) (ret : Ty)
  /-- The type of what has been reported as wrong. -/
  | error
  deriving Repr

namespace Ty

mutual

def decEq : (a b : Ty) → Decidable (a = b)
  | int, b => by cases b <;> first | exact isTrue rfl | exact isFalse (by simp)
  | bool, b => by cases b <;> first | exact isTrue rfl | exact isFalse (by simp)
  | void, b => by cases b <;> first | exact isTrue rfl | exact isFalse (by simp)
  | string, b => by cases b <;> first | exact isTrue rfl | exact isFalse (by simp)
  | error, b => by cases b <;> first | exact isTrue rfl | exact isFalse (by simp)
  | structDef n, b => by
    cases b with
    | structDef m => exact decidable_of_iff (n = m) (by simp)
    | _ => exact isFalse (by simp)
  | struct n, b => by
    cases b with
    | struct m => exact decidable_of_iff (n = m) (by simp)
    | _ => exact isFalse (by simp)
  | fn ps r, fn qs s =>
    match decEqList ps qs, decEq r s with
    | isTrue h, isTrue k => isTrue (by rw [h, k])
    | isFalse h, _ => isFalse (by simp [h])
    | _, isFalse k => isFalse (by simp [k])
  | fn _ _, int | fn _ _, bool | fn _ _, void | fn _ _, string | fn _ _, error
  | fn _ _, structDef _ | fn _ _, struct _ => isFalse (by simp)

def decEqList : (as bs : List Ty) → Decidable (as = bs)
  | [], [] => isTrue rfl
  | [], _ :: _ => isFalse (by simp)
  | _ :: _, [] => isFalse (by simp)
  | a :: as, b :: bs =>
    match decEq a b, decEqList as bs with
    | isTrue h, isTrue k => isTrue (by rw [h, k])
    | isFalse h, _ => isFalse (by simp [h])
    | _, isFalse k => isFalse (by simp [k])

end

instance : DecidableEq Ty := decEq

/-- The type that a word names. -/
def ofScalar : Scalar → Ty
  | .int => int
  | .bool => bool
  | .void => void

/-- The type that is meant by a written type. -/
def ofSpec : TypeSpec → Ty
  | .scalar s => ofScalar s
  | .struct name => struct name.name

def isInt : Ty → Bool
  | int => true
  | _ => false

def isBool : Ty → Bool
  | bool => true
  | _ => false

def isVoid : Ty → Bool
  | void => true
  | _ => false

def isString : Ty → Bool
  | string => true
  | _ => false

def isError : Ty → Bool
  | error => true
  | _ => false

def isFn : Ty → Bool
  | fn _ _ => true
  | _ => false

def isStructDef : Ty → Bool
  | structDef _ => true
  | _ => false

def isStruct : Ty → Bool
  | struct _ => true
  | _ => false

mutual

/-- The printed form of a type. -/
def text : Ty → String
  | int => "int"
  | bool => "bool"
  | void => "void"
  | string => "string"
  | structDef name => "struct-def " ++ name
  | struct name => name
  | fn params ret => "(" ++ textList params ++ ") -> " ++ text ret
  | error => "<error>"

/-- The printed forms of several types, with commas between them. -/
def textList : List Ty → String
  | [] => ""
  | [t] => text t
  | t :: ts => text t ++ ", " ++ textList ts

end

/-- Both types are printed alike, and neither is `error`. -/
def compatible (a b : Ty) : Bool := !a.isError && !b.isError && a.text == b.text

end Ty

end FlatC
