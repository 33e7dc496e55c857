/-!
# Instructions

The registers, addresses and instructions of the target machine, a MIPS-style
machine with words of four bytes. Instructions are data; their text is made at the
end (`Instr.mnemonic`, `Instr.operands`).
-/

namespace FlatC

inductive Reg where
  | t0
  | t1
  | v0
  | a0
  | sp
  | fp
  | ra
  deriving DecidableEq, Repr

def Reg.text : Reg → String
  | t0 => "$t0"
  | t1 => "$t1"
  | v0 => "$v0"
  | a0 => "$a0"
  | sp => "$sp"
  | fp => "$fp"
  | ra => "$ra"

/-- Where an instruction loads from or stores to. -/
inductive Address where
  | indexed (offset : Int) (base : Reg)
  /-- So many bytes behind a label. -/
  | label (name : String) (offset : Nat)
  deriving DecidableEq, Repr

def Address.text : Address → String
  | indexed offset base => toString offset ++ "(" ++ base.text ++ ")"
  | label name offset => if offset = 0 then name else name ++ "+" ++ toString offset

/-- Where a variable is kept. -/
inductive Location where
  /-- In the data section, so many bytes behind a label. -/
  | global (label : String) (offset : Nat)
  /-- In the frame, at an offset from the frame pointer. -/
  | frame (offset : Int)
  deriving DecidableEq, Repr

namespace Location

/-- The field at `fieldOffset` of the struct at a location. Frames grow downwards,
and so do the structs in them; in the data section structs grow upwards. -/
def field (l : Location) (fieldOffset : Int) : Location :=
  match l with
  | global label offset => global label (offset + fieldOffset.natAbs)
  | frame offset => frame (offset + fieldOffset)

def address : Location → Address
  | global label offset => .label label offset
  | frame offset => .indexed offset .fp

def text (l : Location) : String := l.address.text

end Location

/-- Operations on two words. -/
inductive AluOp where
  | add
  | sub
  | mul
  | div
  | seq
  | sne
  | slt
  | sgt
  | sle
  | sge
  deriving DecidableEq, Repr

def AluOp.mnemonic : AluOp → String
  | add => "add"
  | sub => "sub"
  | mul => "mul"
  | div => "div"
  | seq => "seq"
  | sne => "sne"
  | slt => "slt"
  | sgt => "sgt"
  | sle => "sle"
  | sge => "sge"

/-- The second operand of an operation. -/
inductive Source where
  | reg (r : Reg)
  | imm (value : Int)
  deriving DecidableEq, Repr

def Source.text : Source → String
  | reg r => r.text
  | imm value => toString value

inductive Instr where
  | lw (dst : Reg) (src : Address)
  | sw (src : Reg) (dst : Address)
  | li (dst : Reg) (value : Int)
  | la (dst : Reg) (label : String)
  | move (dst src : Reg)
  | addi (dst src : Reg) (value : Int)
  | addu (dst src : Reg) (value : Nat)
  | subu (dst src : Reg) (value : Nat)
  | neg (dst src : Reg)
  | alu (op : AluOp) (dst left : Reg) (right : Source)
  /-- Jumps if the register holds the value. -/
  | beq (reg : Reg) (value : Int) (target : String)
  | b (target : String)
  | jal (target : String)
  | jr (reg : Reg)
  | syscall
  deriving DecidableEq, Repr

namespace Instr

def mnemonic : Instr → String
  | lw .. => "lw"
  | sw .. => "sw"
  | li .. => "li"
  | la .. => "la"
  | move .. => "move"
  | addi .. => "addi"
  | addu .. => "addu"
  | subu .. => "subu"
  | neg .. => "neg"
  | alu op .. => op.mnemonic
  | beq .. => "beq"
  | b .. => "b"
  | jal .. => "jal"
  | jr .. => "jr"
  | syscall => "syscall"

def operands : Instr → List String
  | lw dst src => [dst.text, src.text]
  | sw src dst => [src.text, dst.text]
  | li dst value => [dst.text, toString value]
  | la dst label => [dst.text, label]
  | move dst src => [dst.text, src.text]
  | addi dst src value => [dst.text, src.text, toString value]
  | addu dst src value => [dst.text, src.text, toString value]
  | subu dst src value => [dst.text, src.text, toString value]
  | neg dst src => [dst.text, src.text]
  | alu _ dst left right => [dst.text, left.text, right.text]
  | beq reg value target => [reg.text, toString value, target]
  | b target => [target]
  | jal target => [target]
  | jr reg => [reg.text]
  | syscall => []

end Instr

end FlatC
