import FlatC.Layout

/-!
# Layout in machine words

Sizes are kept in words of 32 bits without a sign, and offsets in words with one. `placeWords` is
layout with that arithmetic: it stops where a sum, a difference or a product does not fit, while
a change from one kind of word to the other keeps the bits, whatever they then say.
`placeSymbols` computes the numbers that are meant.
-/

namespace FlatC

/-- The number fits into a word without a sign. -/
def UnsignedWord (n : Nat) : Prop := n < 0x100000000

instance (n : Nat) : Decidable (UnsignedWord n) := inferInstanceAs (Decidable (n < 0x100000000))

/-- The number fits into a word with a sign. -/
def SignedWord (i : Int) : Prop := -0x80000000 ≤ i ∧ i < 0x80000000

instance (i : Int) : Decidable (SignedWord i) :=
  inferInstanceAs (Decidable (-0x80000000 ≤ i ∧ i < 0x80000000))

namespace Layout.Words

/-- The bits of a word without a sign, read with one. -/
def signed (n : Nat) : Int := (n : Int).bmod (0x100000000)

/-- The bits of a word with a sign, read without one. -/
def unsigned (i : Int) : Nat := (i % 0x100000000).toNat

/-- The result of an operation without a sign. -/
def unsignedResult (op : WordOp) (n : Nat) : Layout Nat :=
  if UnsignedWord n then return n else throw (.overflow op)

/-- The result of an operation with a sign. -/
def signedResult (op : WordOp) (i : Int) : Layout Int :=
  if SignedWord i then return i else throw (.overflow op)

/-- Places fields behind the first `used` bytes of a struct; gives the bytes of the
struct. -/
def fields (used : Nat) : List VarDecl → Layout Nat
  | [] => return used
  | d :: ds => do
    let (id, size) ← sized d
    let fieldOffset ← signedResult .negate (-signed used)
    update id ({ · with fieldOffset })
    fields (← unsignedResult .add (used + size)) ds

def structDecl (d : StructDecl) : Layout Unit := do
  let size ← fields 0 d.fields
  update (← resolved d.name) ({ · with size })

/-- Places parameters from `offset` downwards. -/
def params (offset : Int) : List Param → Layout Unit
  | [] => return
  | p :: ps => do
    let (id, _) ← sized p.decl
    update id ({ · with offset })
    params (← signedResult .subtract (offset - wordSize)) ps

/-- Places local variables from `offset` downwards; gives the next free offset. -/
def locals (offset : Int) : List VarDecl → Layout Int
  | [] => return offset
  | d :: ds => do
    let (id, size) ← sized d
    update id ({ · with offset })
    locals (← signedResult .subtract (offset - signed size)) ds

mutual

/-- Places the variables of a block and of those inside it. -/
def body (offset : Int) : Body → Layout Int
  | .block decls ss => do stmts (← locals offset decls) ss

def stmt (offset : Int) : Stmt → Layout Int
  | .ifThen _ _ thenBody => body offset thenBody
  | .ifElse _ _ thenBody elseBody => do body (← body offset thenBody) elseBody
  | .whileLoop _ _ loopBody => body offset loopBody
  | _ => return offset

def stmts (offset : Int) : List Stmt → Layout Int
  | [] => return offset
  | s :: ss => do stmts (← stmt offset s) ss

end

def fnDecl (d : FnDecl) : Layout Unit := do
  params 0 d.params
  let formalSpace ← unsignedResult .multiply (wordSize * (d.params.length % 0x100000000))
  let space ← signedResult .add (signed formalSpace + savedSpace)
  let start ← signedResult .negate (-space)
  let stop ← body start d.body
  let localSpace ← signedResult .subtract (start - stop)
  update (← resolved d.name) (setSpaces formalSpace (unsigned localSpace))

def decl : Decl → Layout Unit
  | .var d => do
    let _ ← sized d
  | .struct d => structDecl d
  | .fn d => fnDecl d

def decls : List Decl → Layout Unit
  | [] => return
  | d :: ds => do
    decl d
    decls ds

end Layout.Words

/-- **Places the variables of a program in machine words.** -/
def placeWords (p : Program) (notes : Annotations) : Except Defect Annotations :=
  match (Layout.Words.decls p.decls).run notes with
  | .ok (_, notes) => .ok notes
  | .error d => .error d

end FlatC
