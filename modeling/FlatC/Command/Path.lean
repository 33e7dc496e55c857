/-!
# File paths

A path is a text with slashes between its parts. Empty parts and single dots mean
nothing, but for a dot at the very start.
-/

namespace FlatC.Path

/-- The parts of a path between the slashes. -/
def parts : List Char → List (List Char)
  | [] => [[]]
  | c :: cs =>
    match parts cs with
    | [] => [[c]]
    | p :: ps => if c = '/' then [] :: p :: ps else (c :: p) :: ps

/-- The slashes and silent parts at the end of a path, taken off. The argument and
the result are reversed. -/
def trimReversed : List Char → List Char
  | '/' :: cs => trimReversed cs
  | '.' :: '/' :: cs => trimReversed cs
  | cs => cs

/-- A path without slashes and silent parts at its end. -/
def trimEnd (path : List Char) : List Char := (trimReversed path.reverse).reverse

/-- Cuts a path into what goes up to the last slash and the last part. -/
def splitLast (path : List Char) : List Char × List Char :=
  let last := (path.reverse.takeWhile (· != '/')).reverse
  (path.take (path.length - last.length), last)

/-- The name of the file that a path leads to. -/
def fileName? (path : String) : Option String :=
  let (_, last) := splitLast (trimEnd path.toList)
  if last == [] || last == ['.'] || last == ['.', '.'] then none else some (String.ofList last)

/-- A file name without its last extension. A dot at the start is part of the name. -/
def stem (name : List Char) : List Char :=
  match (name.reverse.dropWhile (· != '.')).drop 1 with
  | [] => name
  | before => before.reverse

/-- A path with the extension put behind the stem of its file name; a path without a
file name stays as it is. -/
def setExtension (path extension : String) : String :=
  match fileName? path with
  | none => path
  | some name =>
    let (directory, _) := splitLast (trimEnd path.toList)
    String.ofList (directory ++ stem name.toList) ++ "." ++ extension

/-- A path that ends with its file name, without the letters of its extension. The dot
before them stays. -/
def clearExtension (path : String) : String :=
  match fileName? path with
  | none => path
  | some name =>
    let letters := name.length - (stem name.toList).length - 1
    String.ofList (path.toList.take (path.length - letters))

/-- A path with the extension of its file name replaced. The old one is cleared before
the new one is set: what is left of `..cf` is `..`, which is no file name and stays. -/
def withExtension (path extension : String) : String := setExtension (clearExtension path) extension

end FlatC.Path
