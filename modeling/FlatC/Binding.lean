import FlatC.Defect
import FlatC.Symbol
import FlatC.Diagnostic.Report

/-!
# Binding names

Every identifier occurrence is bound to a symbol by block scoping. The open scopes
are passed along: a declaration returns the scopes with the name in them, a
statement the scopes that are open behind it. A block opens a scope and closes it
again, so its names end with it.

In a block all declarations come before all statements. A function is declared
before its own body is bound, and its parameters share a scope with the
declarations of its body. A declaration that is wrong is reported and left out;
binding goes on behind it.
-/

namespace FlatC

/-- What can be wrong with a name. -/
inductive NameFault where
  | undeclared
  | redeclared
  | invalidStruct
  | invalidField
  | dotOfNonStruct
  | declaredVoid
  deriving DecidableEq, Repr

namespace NameFault

def code : NameFault → ErrorCode
  | undeclared => .undeclaredIdentifier
  | redeclared => .multiplyDeclared
  | invalidStruct => .invalidStructType
  | invalidField => .invalidStructField
  | dotOfNonStruct => .dotAccessOfNonStruct
  | declaredVoid => .nonFunctionDeclaredVoid

def message : NameFault → String
  | undeclared => "Undeclared identifier"
  | redeclared => "Multiply declared identifier"
  | invalidStruct => "Invalid struct type"
  | invalidField => "Invalid struct field name"
  | dotOfNonStruct => "Dot-access of non-struct type"
  | declaredVoid => "Non-function declared void"

/-- A fault at a place in the source. -/
def report (f : NameFault) (span : Span) : Report :=
  .problem { code := f.code, message := f.message, span }

end NameFault

/-- What binding has found so far. -/
structure Binding.State where
  notes : Annotations
  reports : List Report

/-- A step of binding. -/
abbrev Binding := StateT Binding.State (Except Defect)

namespace Binding

def report (f : NameFault) (span : Span) : Binding Unit :=
  modify fun s => { s with reports := s.reports ++ [f.report span] }

def link (node : NodeId) (id : SymbolId) : Binding Unit :=
  modify fun s => { s with notes := s.notes.link node id }

/-- The symbol of a number. -/
def symbol (id : SymbolId) : Binding Symbol := do
  match (← get).notes.symbol? id with
  | some s => return s
  | none => throw (.noSymbol id)

/-- Changes the symbol of a number. -/
def update (id : SymbolId) (f : Symbol → Symbol) : Binding Unit := do
  let _ ← symbol id
  modify fun s => { s with notes := s.notes.update id f }

def add (s : Symbol) : Binding SymbolId := do
  let (id, notes) := (← get).notes.add s
  modify fun st => { st with notes }
  return id

/-! ## Declarations -/

/-- Declares `key` for the symbol that `name` introduces. -/
def declare (t : ScopeTable) (key : String) (name : Ident) (id : SymbolId) :
    Binding ScopeTable :=
  match t.declare key id with
  | .error e => throw (.scope key e)
  | .ok t => do
    link name.id id
    return t

/-- The symbol of the struct that a type names. -/
def structOf? (t : ScopeTable) (name : Ident) : Binding (Option SymbolId) := do
  match t.lookup (structKey name.name) with
  | none => return none
  | some id => return if (← symbol id).isStructDef then some id else none

/-- The symbol for a written type: none if nothing can have that type. -/
def ofType? (t : ScopeTable) (d : VarDecl) : Binding (Option Symbol) := do
  let name := d.name
  match d.type with
  | .scalar .void =>
    report .declaredVoid name.span
    return none
  | .scalar s => return some (.word name.name (.ofScalar s) name.span)
  | .struct struct =>
    match ← structOf? t struct with
    | some definition =>
      link struct.id definition
      return some (.structVar name.name struct.name definition name.span)
    | none =>
      report .invalidStruct struct.span
      return none

/-- The symbol that a declaration introduces: none if it is wrong. `taken` tells
that its name is in use. -/
def symbolFor? (t : ScopeTable) (taken : Bool) (d : VarDecl) : Binding (Option Symbol) := do
  let symbol? ← ofType? t d
  if taken then
    report .redeclared d.name.span
    return none
  return symbol?

/-- Binds a variable declaration in the innermost scope. -/
def varDecl (t : ScopeTable) (d : VarDecl) : Binding ScopeTable := do
  match ← symbolFor? t (t.lookupLocal d.name.name).isSome d with
  | none => return t
  | some s =>
    let id ← add { s with isGlobal := t.atProgramLevel }
    declare t d.name.name d.name id

/-- Binds a field of a struct whose fields so far are `fields`. -/
def fieldDecl (t : ScopeTable) (fields : Scope) (d : VarDecl) : Binding Scope := do
  match ← symbolFor? t (fields.contains d.name.name) d with
  | none => return fields
  | some s =>
    let id ← add s
    match fields.declare d.name.name id with
    | .error e => throw (.field d.name.name e)
    | .ok fields =>
      link d.name.id id
      return fields

/-! ## Uses -/

/-- Binds a name to the symbol of the innermost scope that has it. -/
def ident (t : ScopeTable) (i : Ident) : Binding (Option SymbolId) := do
  match t.lookup i.name with
  | some id =>
    link i.id id
    return some id
  | none =>
    report .undeclared i.span
    return none

/-- What a place turned out to be. -/
inductive Access where
  /-- Something that was reported. -/
  | bad
  /-- A struct with the fields of that definition. -/
  | struct (definition : SymbolId)
  /-- Something without fields, with the span of its last name. -/
  | plain (span : Span)
  deriving DecidableEq, Repr

/-- What the symbol of a name at `span` gives access to. -/
def access (id : SymbolId) (span : Span) : Binding Access := do
  match (← symbol id).definition? with
  | some definition => return .struct definition
  | none => return .plain span

/-- The symbol of a field. -/
def field? (definition : SymbolId) (name : String) : Binding (Option SymbolId) := do
  return (← symbol definition).fields?.bind (·.lookup name)

/-- Binds the names of a place from left to right. -/
def place (t : ScopeTable) : Place → Binding Access
  | .var _ name => do
    match ← ident t name with
    | none => return .bad
    | some id => access id name.span
  | .field _ base name => do
    match ← place t base with
    | .bad => return .bad
    | .plain span =>
      report .dotOfNonStruct span
      return .bad
    | .struct definition =>
      match ← field? definition name.name with
      | none =>
        report .invalidField name.span
        return .bad
      | some id =>
        link name.id id
        access id name.span

mutual

def expr (t : ScopeTable) : Expr → Binding Unit
  | .int _ _ | .str _ _ | .bool _ _ => return
  | .place p => do
    let _ ← place t p
  | .assign _ target value => do
    let _ ← place t target
    expr t value
  | .call _ callee args => do
    let _ ← ident t callee
    exprs t args
  | .unary _ _ operand => expr t operand
  | .binary _ _ left right => do
    expr t left
    expr t right

def exprs (t : ScopeTable) : List Expr → Binding Unit
  | [] => return
  | e :: es => do
    expr t e
    exprs t es

end

/-- Closes the innermost scope. -/
def leave (t : ScopeTable) : Binding ScopeTable :=
  match t.leave with
  | .ok (_, t) => return t
  | .error _ => throw .noScope

mutual

/-- Binds a statement and gives the scopes that are open behind it. -/
def stmt (t : ScopeTable) : Stmt → Binding ScopeTable
  | .assign _ node target value => do
    expr t (.assign node target value)
    return t
  | .increment _ target | .decrement _ target | .read _ target => do
    let _ ← place t target
    return t
  | .write _ value => do
    expr t value
    return t
  | .ifThen _ cond thenBody => do
    expr t cond
    leave (← body t.enter thenBody)
  | .ifElse _ cond thenBody elseBody => do
    expr t cond
    let t ← leave (← body t.enter thenBody)
    leave (← body t.enter elseBody)
  | .whileLoop _ cond loopBody => do
    expr t cond
    leave (← body t.enter loopBody)
  | .call _ node callee args => do
    expr t (.call node callee args)
    return t
  | .ret _ none => return t
  | .ret _ (some value) => do
    expr t value
    return t

/-- Binds a block in the innermost scope. -/
def body (t : ScopeTable) : Body → Binding ScopeTable
  | .block decls ss => do
    let t ← decls.foldlM varDecl t
    stmts t ss

def stmts (t : ScopeTable) : List Stmt → Binding ScopeTable
  | [] => return t
  | s :: ss => do
    let t ← stmt t s
    stmts t ss

end

/-! ## Programs -/

/-- Declares a function and gives its symbol, unless its name is in use. -/
def fnName (t : ScopeTable) (d : FnDecl) : Binding (Option SymbolId × ScopeTable) := do
  if (t.lookupLocal d.name.name).isSome then
    report .redeclared d.name.span
    return (none, t)
  let symbol := Symbol.function d.name.name (.ofScalar d.returns) d.name.span
  let id ← add { symbol with isGlobal := t.atProgramLevel }
  return (some id, ← declare t d.name.name d.name id)

/-- Tells a function that was declared its parameters. -/
def setParams (id? : Option SymbolId) (params : List Param) : Binding Unit :=
  match id? with
  | none => return
  | some id => update id (·.setParams (params.map (.ofScalar ·.type)))

def fnDecl (t : ScopeTable) (d : FnDecl) : Binding ScopeTable := do
  let (id?, t) ← fnName t d
  let t ← (d.params.map Param.decl).foldlM varDecl t.enter
  setParams id? d.params
  leave (← body t d.body)

def structDecl (t : ScopeTable) (d : StructDecl) : Binding ScopeTable := do
  let key := structKey d.name.name
  let taken := (t.lookupLocal key).isSome
  if taken then report .redeclared d.name.span
  let fields ← d.fields.foldlM (fieldDecl t) .empty
  if taken then return t
  let symbol := Symbol.structDef d.name.name fields d.name.span
  let id ← add { symbol with isGlobal := t.atProgramLevel }
  declare t key d.name id

def decl (t : ScopeTable) : Decl → Binding ScopeTable
  | .var d => varDecl t d
  | .struct d => structDecl t d
  | .fn d => fnDecl t d

/-- Binds a program and gives the scopes that are open behind it. -/
def program (p : Program) : Binding ScopeTable := p.decls.foldlM decl .initial

end Binding

/-- **Binds the names of a program**, adding to `notes`. Nothing is reported
exactly if every name is bound. -/
def bindNames (p : Program) (notes : Annotations) : Except Defect (Annotations × List Report) :=
  match (Binding.program p).run ⟨notes, []⟩ with
  | .ok (_, s) => .ok (s.notes, s.reports)
  | .error d => .error d

end FlatC
