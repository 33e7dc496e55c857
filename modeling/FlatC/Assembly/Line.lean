import FlatC.Assembly.Instr

/-!
# Assembly files

An **item** is a line of an assembly file in the terms of the machine: what the
compiler makes. A **line** is the same in terms of text, and can also hold lines
that the compiler never makes. `Item.line` goes from the one to the other, and
`Line.text` gives the characters.
-/

namespace FlatC

/-- A line of an assembly file, as text. -/
inductive Line where
  | directive (name args : String)
  | label (name : String)
  /-- A label and the data behind it. -/
  | data (label directive value : String)
  | instr (op : String) (operands : List String) (comment : Option String)
  | comment (text : String)
  | blank
  deriving DecidableEq, Repr

namespace Line

/-- The characters of a line, without its line break. -/
def text : Line → String
  | directive name args => "\t" ++ name ++ (if args = "" then "" else " " ++ args)
  | label name => name ++ ":"
  | data name kind value => name ++ ":\t" ++ kind ++ " " ++ value
  | instr op operands note =>
    "\t" ++ op ++
      (if operands.isEmpty then "" else "\t" ++ ", ".intercalate operands) ++
      (match note with
        | some c => "\t\t# " ++ c
        | none => "")
  | comment note => "\t\t# " ++ note
  | blank => ""

/-- The characters of a file. -/
def fileText (ls : List Line) : String := String.join (ls.map (·.text ++ "\n"))

/-- The operation and the operands of an instruction. -/
def instr? : Line → Option (String × List String)
  | instr op operands _ => some (op, operands)
  | _ => none

end Line

/-- What stands behind a label in the data section. -/
inductive Datum where
  /-- So many bytes, all zero. -/
  | space (bytes : Nat)
  /-- Characters in quotes, and a zero byte. -/
  | asciiz (quoted : String)
  deriving DecidableEq, Repr

/-- A line of an assembly file, in the terms of the machine. -/
inductive Item where
  /-- The text section follows. -/
  | text
  /-- The data section follows. -/
  | data
  /-- The next datum starts at a multiple of `2 ^ bits`. -/
  | align (bits : Nat)
  /-- The label can be seen from outside. -/
  | globl (name : String)
  | label (name : String)
  | datum (label : String) (d : Datum)
  | instr (i : Instr) (comment : Option String)
  | comment (text : String)
  deriving DecidableEq, Repr

def Item.line : Item → Line
  | text => .directive ".text" ""
  | data => .directive ".data" ""
  | align bits => .directive ".align" (toString bits)
  | globl name => .directive ".globl" name
  | label name => .label name
  | datum name (.space bytes) => .data name ".space" (toString bytes)
  | datum name (.asciiz quoted) => .data name ".asciiz" quoted
  | instr i note => .instr i.mnemonic i.operands note
  | comment note => .comment note

/-- The lines of an assembly file, in the terms of the machine. -/
abbrev Code := List Item

namespace Code

def lines (c : Code) : List Line := c.map Item.line

/-- The characters of an assembly file. -/
def fileText (c : Code) : String := Line.fileText c.lines

end Code

end FlatC
