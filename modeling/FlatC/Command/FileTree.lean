import FlatC.Command.Path

/-!
# Files in memory

A tree of directories and files that is a value, so that command lines can be run on
it without a disk. Reading and writing fail as they do on a disk: `FileFault` holds
the causes, with the texts and numbers of the operating system.

A path is **walked** name by name from the root or from the working directory. Every
name on the way has to be that of a directory, the last one excepted. A slash at the
end of a path asks for a directory.
-/

namespace FlatC

/-- Why a file cannot be read or written. -/
inductive FileFault where
  /-- An error of the operating system, with its text and number. -/
  | system (text : String) (number : Nat)
  /-- The bytes are no text. -/
  | notText
  deriving DecidableEq, Repr

namespace FileFault

def notFound : FileFault := system "No such file or directory" 2

def notDirectory : FileFault := system "Not a directory" 20

def isDirectory : FileFault := system "Is a directory" 21

def nameTooLong : FileFault := system "File name too long" 36

def message : FileFault → String
  | system text number => text ++ " (os error " ++ toString number ++ ")"
  | notText => "stream did not contain valid UTF-8"

end FileFault

/-- Directories and files by the names on the way to them from the root. -/
structure FileTree where
  directories : List (List String)
  files : List (List String × List UInt8)
  /-- Where paths start that do not start at the root. -/
  working : List String

namespace FileTree

/-- The most bytes that a name can have. -/
def maxName : Nat := 255

/-- The most bytes that a path can have. -/
def maxPath : Nat := 4095

/-- The names that a path spells. -/
def names (path : String) : List String :=
  ((Path.parts path.toList).filter (· != [])).map String.ofList

/-- A place and all the directories on the way to it. -/
def ancestors (place : List String) : List (List String) :=
  (List.range (place.length + 1)).map place.take

/-- The directories that a file system has at its root. -/
def standardDirectories : List (List String) :=
  [["bin"], ["dev"], ["etc"], ["home"], ["lib"], ["proc"], ["root"], ["tmp"], ["usr"], ["var"]]

/-- The null device, which is always empty. -/
def nullDevice : List String := ["dev", "null"]

/-- The working directory of a tree that is made from lists. -/
def workshop : List String := ["tmp", "work"]

/-- The tree with the given directories and files in its working directory, and the
directories on the way. -/
def ofLists (directories : List String) (files : List (String × List UInt8)) : FileTree where
  directories := standardDirectories ++ ancestors workshop ++
    directories.flatMap (fun d => ancestors (workshop ++ names d)) ++
    files.flatMap fun f => ancestors (workshop ++ (names f.1).dropLast)
  files := files.map (fun f => (workshop ++ names f.1, f.2)) ++ [(nullDevice, [])]
  working := workshop

def isDirectory (t : FileTree) (place : List String) : Bool :=
  place == [] || t.directories.contains place

def contents? (t : FileTree) (place : List String) : Option (List UInt8) := t.files.lookup place

/-- The way to a place from the working directory, if it lies there. -/
def fromWorking? (t : FileTree) (place : List String) : Option (List String) :=
  if place.take t.working.length = t.working then some (place.drop t.working.length) else none

/-! ## Walks -/

/-- Says why a place is no directory. -/
def requireDirectory (t : FileTree) (place : List String) : Except FileFault Unit :=
  if t.isDirectory place then .ok ()
  else if (t.contents? place).isSome then .error .notDirectory
  else .error .notFound

/-- Goes from a directory to what has that name in it, whether there is such a thing
or not. -/
def step (t : FileTree) (place : List String) (name : String) :
    Except FileFault (List String) := do
  t.requireDirectory place
  if name = "." then return place
  else if name = ".." then return place.dropLast
  else if maxName < name.utf8ByteSize then throw .nameTooLong
  else return place ++ [name]

/-- Takes a step for each name. -/
def walk (t : FileTree) (place : List String) : List String → Except FileFault (List String)
  | [] => .ok place
  | name :: rest => do t.walk (← t.step place name) rest

/-- Where the walk along a path starts. -/
def start (t : FileTree) (path : String) : Except FileFault (List String) :=
  if path = "" then .error .notFound
  else if maxPath < path.utf8ByteSize then .error .nameTooLong
  else if path.toList.head? = some '/' then .ok []
  else .ok t.working

/-- The path asks for a directory. -/
def endsInSlash (path : String) : Bool := path.toList.getLast? == some '/'

/-! ## Reading and writing -/

/-- The bytes of a file. -/
def read (t : FileTree) (path : String) : Except FileFault (List UInt8) := do
  let place ← t.walk (← t.start path) (names path)
  if t.isDirectory place then throw .isDirectory
  match t.contents? place with
  | none => throw .notFound
  | some bytes => if endsInSlash path then throw .notDirectory else return bytes

/-- The place of a file that is to be made or replaced. Once the way to it has been
walked, a slash at the end of the path is taken for a directory's, whether there is
one or not. -/
def target (t : FileTree) (path : String) : Except FileFault (List String) := do
  let parent ← t.walk (← t.start path) (names path).dropLast
  t.requireDirectory parent
  if endsInSlash path then throw .isDirectory
  let place ← t.walk parent (names path).getLast?.toList
  if t.isDirectory place then throw .isDirectory
  return place

/-- Makes or replaces a file; gives the names on the way to it. -/
def write (t : FileTree) (path : String) (bytes : List UInt8) :
    Except FileFault (List String × FileTree) := do
  let place ← t.target path
  return (place, { t with files := (place, bytes) :: t.files })

end FileTree

end FlatC
