import StackCompiler.Error
import StackCompiler.Text.Style

/-!
# Hosts

What the command needs of the world: files to read and write, and a terminal to print to. The
command is written once for every host. `Memory` is a host whose world is a value: a set of files
and the text printed so far.
-/
namespace StackCompiler.CommandLine

structure Host (m : Type → Type) where
  read : String → m (Except FileError String)
  write : String → String → m (Except FileError Unit)
  print : String → m Unit
  /-- Prints an error. -/
  report : String → m Unit
  terminal : Text.Terminal

inductive Entry where
  | file (bytes : List UInt8)
  | directory
  /-- A file that is always empty and takes whatever is written to it. -/
  | sink
  deriving DecidableEq, Repr

/-- A place in the tree of files: the names on the way from the working directory. The way starts
with `..` for each directory that it leads up, or with an empty name if it goes from the top. -/
abbrev Place := List String

namespace Place

def top : Place := [""]

def text (place : Place) : String :=
  String.intercalate "/" place

/-- Whether a place is the working directory or one above it. -/
def isAbove (place : Place) : Bool :=
  place == top || place.all (· == "..")

/-- The directory that a place is in. The top is in itself. -/
def parent (place : Place) : Place :=
  if place == top then top else if place.isAbove then place ++ [".."] else place.dropLast

end Place

structure Memory where
  /-- Files and directories by path. -/
  entries : List (String × Entry)
  printed : String := ""
  reported : String := ""

namespace Memory

/-- What every system has outside of the working directory. -/
def standardEntries : List (String × Entry) :=
  [("/dev", .directory), ("/dev/null", .sink), ("/tmp", .directory)]

def ofEntries (entries : List (String × Entry)) : Memory :=
  { entries := entries ++ standardEntries }

def get? (m : Memory) (path : String) : Option Entry :=
  (m.entries.find? (·.1 == path)).map Prod.snd

/-- Puts a file in place of what has its path, or behind the others. -/
def put (m : Memory) (path : String) (e : Entry) : Memory :=
  if (m.get? path).isSome then
    { m with entries := m.entries.map fun old => if old.1 == path then (path, e) else old }
  else { m with entries := m.entries ++ [(path, e)] }

/-- What is at a place. Above a file or a directory there are directories. -/
def entry? (m : Memory) (place : Place) : Option Entry :=
  if place.isAbove then some .directory
  else
    match m.get? place.text with
    | some e => some e
    | none => if m.entries.any (·.1.startsWith (place.text ++ "/")) then some .directory else none

def expectDirectory (m : Memory) (place : Place) : Except FileError Unit :=
  match m.entry? place with
  | some .directory => .ok ()
  | some _ => .error .notDirectory
  | none => .error .notFound

def maxNameBytes : Nat := 255

def maxPathBytes : Nat := 4095

/-- Goes from a place, which has to be a directory, to the one that a name leads to. -/
def step (m : Memory) (place : Place) (name : String) : Except FileError Place := do
  m.expectDirectory place
  if name == "" || name == "." then return place
  else if name == ".." then return place.parent
  else if maxNameBytes < name.utf8ByteSize then throw .nameTooLong
  else return place ++ [name]

/-- Follows names from the working directory, or from the top. -/
def follow (m : Memory) (fromTop : Bool) (names : List String) : Except FileError Place :=
  names.foldlM m.step (if fromTop then Place.top else [])

/-- The names of a path, and whether it goes from the top. -/
def split (path : String) : Except FileError (Bool × List String) :=
  if path.isEmpty then .error .notFound
  else if maxPathBytes < path.utf8ByteSize then .error .nameTooLong
  else .ok (path.startsWith "/", path.splitOn "/")

def read (m : Memory) (path : String) : Except FileError String := do
  let (fromTop, names) ← split path
  match m.entry? (← m.follow fromTop names) with
  | none => throw .notFound
  | some .directory => throw .isDirectory
  | some .sink => return ""
  | some (.file bytes) =>
    match String.fromUTF8? ⟨bytes.toArray⟩ with
    | some s => return s
    | none => throw .notText

/-- Writes a file. A path with a slash at its end can only mean a directory, whatever is there. -/
def write (m : Memory) (path content : String) : Except FileError Memory := do
  let (fromTop, names) ← split path
  if path.endsWith "/" then
    let names := (names.reverse.dropWhile (· == "")).reverse
    m.expectDirectory (← m.follow fromTop names.dropLast)
    throw .isDirectory
  else
    let place ← m.follow fromTop names
    match m.entry? place with
    | some .directory => throw .isDirectory
    | some .sink => return m
    | _ => return m.put place.text (.file content.toUTF8.data.toList)

/-- The host whose world is a value, with a terminal of its own. -/
def host (terminal : Text.Terminal) : Host (StateM Memory) where
  read path := do return (← get).read path
  write path content := do
    match (← get).write path content with
    | .ok m =>
      set m
      return .ok ()
    | .error e => return .error e
  print s := modify fun m => { m with printed := m.printed ++ s }
  report s := modify fun m => { m with reported := m.reported ++ s }
  terminal := terminal

end Memory

end StackCompiler.CommandLine
