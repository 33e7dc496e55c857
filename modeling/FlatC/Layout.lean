import FlatC.Defect
import FlatC.Symbol

/-!
# Layout

Every variable gets its size and its place. A frame grows downwards from the frame
pointer: the parameters from offset 0, one word each, then two words for saved
registers, then the local variables of all blocks in the order in which they
are declared. The fields of a struct follow each other in the same direction,
and a struct is as large as its fields together.
-/

namespace FlatC

/-- A step of layout, which changes the symbols. -/
abbrev Layout := StateT Annotations (Except Defect)

namespace Layout

/-- The bytes between the parameters and the local variables of a frame, for the
return address and the caller's frame pointer. -/
def savedSpace : Nat := 2 * wordSize

/-- The symbol of a number. -/
def symbol (id : SymbolId) : Layout Symbol := do
  match (← get).symbol? id with
  | some s => return s
  | none => throw (.noSymbol id)

/-- Changes the symbol of a number. -/
def update (id : SymbolId) (f : Symbol → Symbol) : Layout Unit := do
  let _ ← symbol id
  modify (·.update id f)

/-- The symbol of a name that has been bound. -/
def resolved (name : Ident) : Layout SymbolId := do
  match (← get).linked? name.id with
  | some id => return id
  | none => throw (.unresolvedNode name.id)

/-- The bytes that a variable takes: those of its struct, or a word. -/
def sizeOf (id : SymbolId) : Layout Nat := do
  match (← symbol id).definition? with
  | some definition => return (← symbol definition).size
  | none => return wordSize

/-- Gives a variable its size. -/
def sized (d : VarDecl) : Layout (SymbolId × Nat) := do
  let id ← resolved d.name
  let size ← sizeOf id
  update id ({ · with size })
  return (id, size)

/-- Places fields behind the first `used` bytes of a struct; gives the bytes of the
struct. -/
def fields (used : Nat) : List VarDecl → Layout Nat
  | [] => return used
  | d :: ds => do
    let (id, size) ← sized d
    update id ({ · with fieldOffset := -(used : Int) })
    fields (used + size) ds

def structDecl (d : StructDecl) : Layout Unit := do
  let size ← fields 0 d.fields
  update (← resolved d.name) ({ · with size })

/-- Places parameters from `offset` downwards. -/
def params (offset : Int) : List Param → Layout Unit
  | [] => return
  | p :: ps => do
    let (id, _) ← sized p.decl
    update id ({ · with offset })
    params (offset - wordSize) ps

/-- Places local variables from `offset` downwards; gives the next free offset. -/
def locals (offset : Int) : List VarDecl → Layout Int
  | [] => return offset
  | d :: ds => do
    let (id, size) ← sized d
    update id ({ · with offset })
    locals (offset - size) ds

mutual

/-- Places the variables of a block and of those inside it. -/
def body (offset : Int) : Body → Layout Int
  | .block decls ss => do stmts (← locals offset decls) ss

def stmt (offset : Int) : Stmt → Layout Int
  | .ifThen _ _ thenBody => body offset thenBody
  | .ifElse _ _ thenBody elseBody => do body (← body offset thenBody) elseBody
  | .whileLoop _ _ loopBody => body offset loopBody
  | _ => return offset

def stmts (offset : Int) : List Stmt → Layout Int
  | [] => return offset
  | s :: ss => do stmts (← stmt offset s) ss

end

/-- Tells a function the bytes of its frame. -/
def setSpaces (formalSpace localSpace : Nat) (s : Symbol) : Symbol :=
  match s.kind with
  | .fn info => { s with kind := .fn { info with formalSpace, localSpace } }
  | _ => s

def fnDecl (d : FnDecl) : Layout Unit := do
  params 0 d.params
  let formalSpace := wordSize * d.params.length
  let start : Int := -(formalSpace + savedSpace : Nat)
  let stop ← body start d.body
  update (← resolved d.name) (setSpaces formalSpace (start - stop).toNat)

def decl : Decl → Layout Unit
  | .var d => do
    let _ ← sized d
  | .struct d => structDecl d
  | .fn d => fnDecl d

def decls : List Decl → Layout Unit
  | [] => return
  | d :: ds => do
    decl d
    decls ds

end Layout

/-- **Places the variables of a program** whose names are bound. -/
def placeSymbols (p : Program) (notes : Annotations) : Except Defect Annotations :=
  match (Layout.decls p.decls).run notes with
  | .ok (_, notes) => .ok notes
  | .error d => .error d

end FlatC
