import FlatC.Scope
import FlatC.Ty

/-!
# Symbols and annotations

A **symbol** is what a name stands for. Symbols are numbered in the order in
which they are found. The **annotations** of a program hold its symbols, which
symbol each identifier occurrence stands for, and the type of each expression.
The tree itself does not change.
-/

namespace FlatC

/-- What is known of a function. -/
structure FnInfo where
  params : List Ty
  ret : Ty
  /-- The bytes of the parameters. -/
  formalSpace : Nat
  /-- The bytes of the local variables of all its blocks. -/
  localSpace : Nat
  deriving Repr

inductive SymbolKind where
  /-- A variable, parameter or field of one word. -/
  | var
  | fn (info : FnInfo)
  | structDef (fields : Scope)
  /-- A variable or field that is a struct. -/
  | structVar (definition : SymbolId)
  deriving Repr

structure Symbol where
  name : String
  ty : Ty
  kind : SymbolKind
  /-- The bytes it takes. -/
  size : Nat
  /-- Where it lies from the frame pointer. -/
  offset : Int
  /-- Where it lies from the start of its struct, if it is a field. -/
  fieldOffset : Int
  isGlobal : Bool
  /-- Where it is declared. -/
  span : Span
  deriving Repr

namespace Symbol

/-- A variable, parameter or field of one word. -/
def word (name : String) (ty : Ty) (span : Span) : Symbol :=
  ⟨name, ty, .var, wordSize, 0, 0, false, span⟩

/-- A function whose parameters are not known yet. -/
def function (name : String) (ret : Ty) (span : Span) : Symbol :=
  ⟨name, .fn [] ret, .fn ⟨[], ret, 0, 0⟩, wordSize, 0, 0, false, span⟩

def structDef (name : String) (fields : Scope) (span : Span) : Symbol :=
  ⟨name, .structDef name, .structDef fields, 0, 0, 0, false, span⟩

def structVar (name struct : String) (definition : SymbolId) (span : Span) : Symbol :=
  ⟨name, .struct struct, .structVar definition, 0, 0, 0, false, span⟩

/-- Tells a function its parameters. -/
def setParams (s : Symbol) (params : List Ty) : Symbol :=
  match s.kind with
  | .fn info => { s with kind := .fn { info with params }, ty := .fn params info.ret }
  | _ => s

def fnInfo? (s : Symbol) : Option FnInfo :=
  match s.kind with
  | .fn info => some info
  | _ => none

def fields? (s : Symbol) : Option Scope :=
  match s.kind with
  | .structDef fields => some fields
  | _ => none

/-- The struct of a variable that is one. -/
def definition? (s : Symbol) : Option SymbolId :=
  match s.kind with
  | .structVar d => some d
  | _ => none

def isFunction (s : Symbol) : Bool := s.fnInfo?.isSome

def isStructDef (s : Symbol) : Bool := s.fields?.isSome

def isStructVar (s : Symbol) : Bool := s.definition?.isSome

end Symbol

/-- Values by node id. What is put in last counts. -/
structure NodeMap (α : Type) where
  entries : List (NodeId × α)
  deriving Repr

namespace NodeMap

variable {α : Type}

def empty : NodeMap α := ⟨[]⟩

instance : Inhabited (NodeMap α) := ⟨empty⟩

def get? (m : NodeMap α) (id : NodeId) : Option α := m.entries.lookup id

def insert (m : NodeMap α) (id : NodeId) (a : α) : NodeMap α := ⟨(id, a) :: m.entries⟩

/-- The number of nodes with a value. -/
def size (m : NodeMap α) : Nat := (m.entries.map Prod.fst).eraseDups.length

/-- The values of the nodes below `n`, in their order. -/
def below (m : NodeMap α) (n : Nat) : List (NodeId × α) :=
  (List.range n).filterMap fun id => (m.get? id).map (id, ·)

@[simp] theorem get?_empty (id : NodeId) : (empty : NodeMap α).get? id = none := rfl

@[simp] theorem get?_insert_self (m : NodeMap α) (id : NodeId) (a : α) :
    (m.insert id a).get? id = some a := by
  simp [get?, insert]

theorem get?_insert_of_ne {m : NodeMap α} {id k : NodeId} {a : α} (h : k ≠ id) :
    (m.insert id a).get? k = m.get? k := by
  simp [get?, insert, List.lookup_cons, beq_false_of_ne h]

end NodeMap

/-- What the stages learn about a program. -/
structure Annotations where
  symbols : Array Symbol
  links : NodeMap SymbolId
  types : NodeMap Ty
  deriving Repr

namespace Annotations

def empty : Annotations := ⟨#[], .empty, .empty⟩

instance : Inhabited Annotations := ⟨empty⟩

/-- Numbers a symbol. -/
def add (a : Annotations) (s : Symbol) : SymbolId × Annotations :=
  (a.symbols.size, { a with symbols := a.symbols.push s })

def symbol? (a : Annotations) (id : SymbolId) : Option Symbol := a.symbols[id]?

/-- Changes the symbol of that number. -/
def update (a : Annotations) (id : SymbolId) (f : Symbol → Symbol) : Annotations :=
  { a with symbols := a.symbols.modify id f }

/-- Changing one symbol and then all is changing all and then the one, if so it is for a symbol. -/
theorem map_modify (symbols : Array Symbol) (k : SymbolId) {f g : Symbol → Symbol}
    (h : ∀ s, g (f s) = f (g s)) : (symbols.modify k f).map g = (symbols.map g).modify k f := by
  apply Array.ext_getElem?
  intro i
  simp only [Array.getElem?_map, Array.getElem?_modify]
  split
  · cases symbols[i]? with
    | none => rfl
    | some s => exact congrArg some (h s)
  · rfl

/-- Lets an identifier occurrence stand for a symbol. -/
def link (a : Annotations) (node : NodeId) (id : SymbolId) : Annotations :=
  { a with links := a.links.insert node id }

/-- The number of the symbol that an identifier occurrence stands for. -/
def linked? (a : Annotations) (node : NodeId) : Option SymbolId := a.links.get? node

/-- The symbol that an identifier occurrence stands for. -/
def symbolOf? (a : Annotations) (node : NodeId) : Option Symbol :=
  (a.linked? node).bind a.symbol?

def setType (a : Annotations) (node : NodeId) (ty : Ty) : Annotations :=
  { a with types := a.types.insert node ty }

def typeOf? (a : Annotations) (node : NodeId) : Option Ty := a.types.get? node

/-- The type of the symbol that an identifier occurrence stands for, for display. -/
def describe (a : Annotations) (node : NodeId) : String :=
  match a.symbolOf? node with
  | some s => s.ty.text
  | none => "***null***"

/-- An identifier with its type in parentheses behind it. -/
def printIdent (a : Annotations) (i : Ident) : String := i.name ++ "(" ++ a.describe i.id ++ ")"

end Annotations

end FlatC
