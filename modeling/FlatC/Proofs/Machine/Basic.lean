import FlatC.Proofs.Meaning.World

/-!
# The machine

A machine that runs an assembly file. The items of the text sections stand one behind the other;
the program counter is the number of an item, and what is not an instruction is passed over. The
data sections are laid out together from `dataStart` on, and the stack grows downwards, without
a bound, from `stackStart`, which lies below.

Addresses count bytes. Words can be read and written only at multiples of four, in the stack and
in the room that `.space` makes; so the characters of a text stay what they are.
-/

namespace FlatC

/-- The label that an item defines. -/
def Item.defined? : Item → Option String
  | label name => some name
  | datum name _ => some name
  | _ => none

/-- The bytes of a datum. -/
def Datum.size : Datum → Nat
  | space bytes => bytes
  | asciiz quoted => (quotedText quoted).utf8ByteSize + 1

/-- A datum with its label, at an address. -/
structure Entry where
  label : String
  address : Int
  datum : Datum

namespace Entry

/-- The word at `a` lies in the room that is made here. -/
def hasRoom (x : Entry) (a : Int) : Bool :=
  match x.datum with
  | .space bytes => x.address ≤ a && a + wordSize ≤ x.address + bytes
  | .asciiz _ => false

/-- The text that starts at `a`, if it is this one. -/
def text? (x : Entry) (a : Int) : Option String :=
  match x.datum with
  | .asciiz quoted => if x.address = a then some (quotedText quoted) else none
  | .space _ => none

end Entry

namespace Code

/-- The next multiple of `2 ^ bits`. -/
def roundUp (a : Int) (bits : Nat) : Int := a + (-a) % 2 ^ bits

/-- The data of a file, from an address on. -/
def data (a : Int) : Code → List Entry
  | [] => []
  | .align bits :: is => data (roundUp a bits) is
  | .datum label d :: is => ⟨label, a, d⟩ :: data (a + d.size) is
  | _ :: is => data a is

/-- The labels that a file defines. -/
def labels (c : Code) : List String := c.filterMap Item.defined?

end Code

structure Machine where
  code : Code
  dataStart : Int
  stackStart : Int
  dataStart_dvd : (wordSize : Int) ∣ dataStart
  stackStart_dvd : (wordSize : Int) ∣ stackStart
  apart : stackStart + wordSize ≤ dataStart

namespace Machine

structure State where
  pc : Nat
  regs : Reg → Int
  mem : Int → Int
  input : List Int
  output : List Output

namespace State

def setReg (s : State) (r : Reg) (x : Int) : State :=
  { s with regs := fun q => if q = r then x else s.regs q }

def setMem (s : State) (a x : Int) : State :=
  { s with mem := fun c => if c = a then x else s.mem c }

def jump (s : State) (pc : Nat) : State := { s with pc }

/-- Goes on with the next item. -/
def next (s : State) : State := s.jump (s.pc + 1)

def write (s : State) (x : Output) : State := { s with output := s.output ++ [x] }

end State

variable (m : Machine)

/-- What stands in the data section. -/
def data : List Entry := m.code.data m.dataStart

/-- The address of a label in the data section. -/
def address? (label : String) : Option Int :=
  (m.data.find? (·.label == label)).map Entry.address

/-- The number of the item that a label in the text section stands for. -/
def position? (label : String) : Option Nat := m.code.findIdx? (· = .label label)

/-- A word can be read and written there. -/
def hasWord (a : Int) : Bool :=
  a % wordSize = 0 && (a ≤ m.stackStart || m.data.any (·.hasRoom a))

/-- The address of a word that an instruction uses. -/
def target? (s : State) : Address → Option Int
  | .indexed offset base => some (s.regs base + offset)
  | .label name offset => (m.address? name).map (· + offset)

def word? (s : State) (l : Address) : Option Int :=
  (m.target? s l).filter m.hasWord

def source (s : State) : Source → Int
  | .reg r => s.regs r
  | .imm x => x

/-- A system call. The one that ends the program is none. -/
def syscall (s : State) : Option State :=
  if s.regs .v0 = 1 then some (s.write (.number (s.regs .a0))).next
  else if s.regs .v0 = 4 then
    (m.data.findSome? (·.text? (s.regs .a0))).map fun text => (s.write (.text text)).next
  else if s.regs .v0 = 5 then
    match s.input with
    | [] => none
    | n :: input => some (State.setReg { s with input } .v0 n).next
  else none

def exec (s : State) : Instr → Option State
  | .lw dst src => (m.word? s src).map fun a => (s.setReg dst (s.mem a)).next
  | .sw src dst => (m.word? s dst).map fun a => (s.setMem a (s.regs src)).next
  | .li dst x => some (s.setReg dst x).next
  | .la dst label => (m.address? label).map fun a => (s.setReg dst a).next
  | .move dst src => some (s.setReg dst (s.regs src)).next
  | .addi dst src x => (FlatC.word? (s.regs src + x)).map fun y => (s.setReg dst y).next
  | .addu dst src x => some (s.setReg dst (s.regs src + x)).next
  | .subu dst src x => some (s.setReg dst (s.regs src - x)).next
  | .neg dst src => (FlatC.word? (-s.regs src)).map fun y => (s.setReg dst y).next
  | .alu op dst left right =>
    (op.eval (s.regs left) (source s right)).map fun y => (s.setReg dst y).next
  | .beq r x label => if s.regs r = x then (m.position? label).map s.jump else some s.next
  | .b label => (m.position? label).map s.jump
  | .jal label => (m.position? label).map (s.setReg .ra (s.pc + 1)).jump
  | .jr r => (s.regs r).toNat?.map s.jump
  | .syscall => m.syscall s

/-- What an item does. -/
def item (s : State) : Item → Option State
  | .instr i _ => m.exec s i
  | _ => some s.next

def step (s : State) : Option State := m.code[s.pc]?.bind (m.item s)

/-- Any number of steps. -/
def Steps : State → State → Prop := Relation.ReflTransGen fun s s' => m.step s = some s'

/-- The program is about to end. -/
def AtExit (s : State) : Prop :=
  ∃ note, m.code[s.pc]? = some (.instr .syscall note) ∧ s.regs .v0 = 10

/-- A file is loaded: all that is known of the memory is that there is zero where `.space` makes
room. -/
structure Initial (input : List Int) (s : State) : Prop where
  pc : m.position? "main" = some s.pc
  sp : s.regs .sp = m.stackStart
  zero : ∀ x ∈ m.data, ∀ a, x.hasRoom a = true → s.mem a = 0
  input : s.input = input
  output : s.output = []

end Machine

end FlatC
