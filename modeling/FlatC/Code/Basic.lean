import FlatC.Assembly.Label
import FlatC.Assembly.Line
import FlatC.Defect
import FlatC.Symbol

/-!
# Pieces of code

Expressions are evaluated on a stack below the frame: `$sp` points at the first
free word, so the top of the stack is the word above it. `push`, `pop`, `peek`
and `discard` are all that touches the stack, but for calls.

With `Options.comments` off, the same instructions are written without remarks.
-/

namespace FlatC

/-- How code is written. -/
structure Options where
  /-- Remarks are written along with the code. -/
  comments : Bool := true
  deriving DecidableEq, Repr

namespace Code

variable (o : Options)

/-- A remark on a line of its own. -/
def remark (text : String) : Code := if o.comments then [.comment text] else []

/-- An instruction with a remark. -/
def noted (i : Instr) (note : String) : Item := .instr i (if o.comments then some note else none)

/-- An instruction. -/
def bare (i : Instr) : Item := .instr i none

/-- Puts a register on the stack. -/
def push (r : Reg) : Code :=
  [noted o (.sw r (.indexed 0 .sp)) ("PUSH " ++ r.text), bare (.subu .sp .sp wordSize)]

/-- Takes the top of the stack into a register. -/
def pop (r : Reg) : Code :=
  [noted o (.lw r (.indexed wordSize .sp)) ("POP " ++ r.text), bare (.addu .sp .sp wordSize)]

/-- Copies the top of the stack into a register. -/
def peek (r : Reg) : Code := [noted o (.lw r (.indexed wordSize .sp)) "peek"]

/-- Drops the top of the stack. -/
def discard : Code := [noted o (.addu .sp .sp wordSize) "discard"]

def load (r : Reg) (l : Location) : Code := [bare (.lw r l.address)]

def store (r : Reg) (l : Location) : Code := [bare (.sw r l.address)]

/-- Pushes a number. -/
def immediate (value : Int) : Code := bare (.li .t0 value) :: push o .t0

/-- Saves the caller's registers and makes room for the local variables. -/
def prologue (formalSpace localSpace : Nat) : Code :=
  push o .ra ++ push o .fp ++ [noted o (.addu .fp .sp (2 * wordSize + formalSpace)) "set FP"] ++
    (if localSpace = 0 then [] else [noted o (.subu .sp .sp localSpace) "reserve locals"])

/-- Drops the frame with the parameters in it, and goes back to the caller; `main`
ends the program. -/
def epilogue (formalSpace : Nat) (isMain : Bool) : Code :=
  [ noted o (.lw .ra (.indexed (-formalSpace) .fp)) "get RA",
    noted o (.move .t0 .fp) "save control link",
    noted o (.lw .fp (.indexed (-formalSpace - wordSize) .fp)) "restore FP",
    noted o (.move .sp .t0) "restore SP" ] ++
    (if isMain then [noted o (.li .v0 10) "load exit code for syscall", bare .syscall]
      else [noted o (.jr .ra) "return"])

/-- The inside of a string literal in the notation of the assembler, which has no
escape for a single quote. -/
def asciizBody : List Char → List Char
  | [] => []
  | [c] => [c]
  | c :: d :: cs =>
    if c = '\\' then
      if d = '\x27' then d :: asciizBody cs else c :: d :: asciizBody cs
    else c :: asciizBody (d :: cs)

/-- A string literal in the notation of the assembler. -/
def quoted (text : String) : String :=
  "\"" ++ String.ofList (asciizBody text.toList) ++ "\""

end Code

/-- A step of code generation: it hands out label numbers, and stops at a defect. -/
abbrev Gen := StateT Nat (Except Defect)

namespace Gen

/-- A label that no other step gets. -/
def label (stem : String) : Gen String := do
  let n ← get
  set (n + 1)
  return Label.numbered stem n

end Gen

end FlatC
