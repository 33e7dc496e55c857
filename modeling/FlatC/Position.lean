/-!
# Lines and columns

A position is what a reader needs to find a byte offset in a text: the line,
the column counted in characters, and the line's own text. `Position.ofOffset`
accepts any offset: one past the end means the end, and one inside a character
means the character's first byte.
-/

namespace FlatC

/-- The number of bytes that a text takes in UTF-8. -/
def byteLength (cs : List Char) : Nat := cs.foldr (fun c n => c.utf8Size + n) 0

@[simp] theorem byteLength_nil : byteLength [] = 0 := rfl

@[simp] theorem byteLength_cons (c : Char) (cs : List Char) :
    byteLength (c :: cs) = c.utf8Size + byteLength cs := rfl

@[simp] theorem byteLength_append (a b : List Char) :
    byteLength (a ++ b) = byteLength a + byteLength b := by
  induction a with
  | nil => simp
  | cons c a ih => simp [ih, Nat.add_assoc]

/-- Cuts a text after the most characters that fit into `n` bytes. -/
def splitBytes : Nat → List Char → List Char × List Char
  | _, [] => ([], [])
  | n, c :: cs =>
    if c.utf8Size ≤ n then
      let (before, after) := splitBytes (n - c.utf8Size) cs
      (c :: before, after)
    else ([], c :: cs)

/-- Cutting loses nothing. -/
theorem splitBytes_append (n : Nat) (cs : List Char) :
    (splitBytes n cs).1 ++ (splitBytes n cs).2 = cs := by
  induction cs generalizing n with
  | nil => rfl
  | cons c cs ih =>
    unfold splitBytes
    split
    · simp [ih]
    · rfl

/-- A place in a text, in the terms of a reader. -/
structure Position where
  /-- Counted from 1. -/
  line : Nat
  /-- Counted in characters, from 1. -/
  column : Nat
  /-- The text of the line, without its line break. -/
  content : String
  deriving DecidableEq, Repr

namespace Position

/-- The position between `before` and `after`. -/
def between (before after : List Char) : Position :=
  let indent := (before.reverse.takeWhile (· != '\n')).reverse
  { line := before.count '\n' + 1
    column := indent.length + 1
    content := String.ofList (indent ++ after.takeWhile (· != '\n')) }

/-- The position of the byte at `offset`. -/
def ofOffset (source : String) (offset : Nat) : Position :=
  let (before, after) := splitBytes offset source.toList
  between before after

end Position

/-! ## Pages

A page breaks lines at more characters than the compiler does. -/

/-- A character that ends a line of a page. -/
def isPageBreak (c : Char) : Bool :=
  c == '\r' || c == '\n' || c == '\x0b' || c == '\x0c' || c == '\u0085' || c == '\u2028' ||
    c == '\u2029'

/-- The line and the column behind the next `n` characters, from a line and a column
on. A carriage return and a line feed break one line. -/
def pagePosition (line column : Nat) : Nat → List Char → Nat × Nat
  | 0, _ => (line, column)
  | _, [] => (line, column)
  | n + 1, c :: cs =>
    if isPageBreak c && !(c == '\r' && cs.head? == some '\n') then
      pagePosition (line + 1) 1 n cs
    else pagePosition line (column + 1) n cs

end FlatC
