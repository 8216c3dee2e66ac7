/-! Trees of files and directories, with the two operations by which a text gets to a path: making
the directories that are missing, and replacing the contents of a file. A place is the list of names
that lead to it from the root. -/
namespace ExtensionHeader

inductive FileTree.Entry where
  | file (text : String)
  | directory
deriving DecidableEq, Repr, Inhabited

structure FileTree where
  entries : List (List String × FileTree.Entry)
  /-- The place where relative paths start. -/
  workingDirectory : List String := []
deriving DecidableEq, Repr, Inhabited

structure Path where
  text : String
deriving DecidableEq, Repr, Inhabited

namespace Path

def pieces (p : Path) : List (List Char) := p.text.toList.splitOn '/'

def isName (piece : List Char) : Bool := piece ≠ [] && piece ≠ ['.']

def names (p : Path) : List String := (p.pieces.filter isName).map String.ofList

/-- The path without its last name and what follows it, and without the slashes and dots that would
then end it. Those further inside stay as they are given, and count as part of its length. -/
def parent (p : Path) : Path :=
  let outer := (p.pieces.reverse.dropWhile (!isName ·)).tail.dropWhile (!isName ·)
  ⟨"/".intercalate (outer.reverse.map String.ofList)⟩

def isAbsolute (p : Path) : Bool := p.text.toList.head? = some '/'

def namesDirectory (p : Path) : Bool :=
  p.pieces.getLast? = some [] || p.pieces.getLast? = some ['.']

/-- Whether the path ends in a dot, but for slashes. What it names has to be there already. -/
def endsInDot (p : Path) : Bool := (p.pieces.filter (· ≠ [])).getLast? = some ['.']

/-- Paths hold no null character and have fewer than 4096 bytes. -/
def isUsable (p : Path) : Bool := !p.text.contains '\x00' && p.text.utf8ByteSize < 4096

def isNameUsable (name : String) : Bool := name.utf8ByteSize ≤ 255

end Path

namespace FileTree

/-- What stands in the way of a path: a missing directory, or anything else. -/
inductive Obstacle where
  | missing | refused
deriving DecidableEq, Repr, Inhabited

def lookup? (t : FileTree) (place : List String) : Option Entry :=
  if place = [] then some .directory else t.entries.lookup place

def set (t : FileTree) (place : List String) (entry : Entry) : FileTree :=
  { t with entries := (place, entry) :: t.entries.filter (·.1 ≠ place) }

def start (t : FileTree) (p : Path) : List String :=
  if p.isAbsolute then [] else t.workingDirectory

def walk (t : FileTree) (place : List String) : List String → Except Obstacle (List String)
  | [] => .ok place
  | name :: rest =>
    if name = ".." then t.walk place.dropLast rest
    else if !Path.isNameUsable name then .error .refused
    else match t.lookup? (place ++ [name]) with
      | none => .error .missing
      | some (.file _) => .error .refused
      | some .directory => t.walk (place ++ [name]) rest

def makeDirectory (t : FileTree) (start outer : List String) (name : String) :
    Except Obstacle FileTree :=
  match t.walk start outer with
  | .error failure => .error failure
  | .ok place =>
    if name = ".." then .ok t
    else if !Path.isNameUsable name then .error .refused
    else match t.lookup? (place ++ [name]) with
      | none => .ok (t.set (place ++ [name]) .directory)
      | some .directory => .ok t
      | some (.file _) => .error .refused

/-- Makes a directory and those around it that are missing. The names are given innermost first.
Directories that were made before a failure stay. -/
def makeDirectories (t : FileTree) (start : List String) :
    List String → FileTree × Except Obstacle Unit
  | [] => (t, .ok ())
  | name :: outer =>
    match t.makeDirectory start outer.reverse name with
    | .ok made => (made, .ok ())
    | .error .refused => (t, .error .refused)
    | .error .missing =>
      match t.makeDirectories start outer with
      | (around, .error failure) => (around, .error failure)
      | (around, .ok ()) =>
        match around.makeDirectory start outer.reverse name with
        | .ok made => (made, .ok ())
        | .error failure => (around, .error failure)

def ensure (t : FileTree) (p : Path) : FileTree × Except Obstacle Unit :=
  if !p.isUsable then (t, .error .refused)
  else if p.endsInDot then
    match t.makeDirectories (t.start p) p.names.dropLast.reverse with
    | (around, .error failure) => (around, .error failure)
    | (around, .ok ()) => (around, (around.walk (t.start p) p.names).map fun _ => ())
  else t.makeDirectories (t.start p) p.names.reverse

def writeFile (t : FileTree) (p : Path) (text : String) : Except Obstacle FileTree :=
  if !p.isUsable || p.namesDirectory then .error .refused
  else match p.names.getLast? with
    | none => .error .refused
    | some name =>
      match t.walk (t.start p) p.names.dropLast with
      | .error failure => .error failure
      | .ok place =>
        if name = ".." || !Path.isNameUsable name then .error .refused
        else match t.lookup? (place ++ [name]) with
          | some .directory => .error .refused
          | _ => .ok (t.set (place ++ [name]) (.file text))

def write (t : FileTree) (p : Path) (text : String) : FileTree × Except Obstacle Unit :=
  match t.ensure p.parent with
  | (around, .error failure) => (around, .error failure)
  | (around, .ok ()) =>
    match around.writeFile p text with
    | .error failure => (around, .error failure)
    | .ok written => (written, .ok ())

def listing (t : FileTree) : List (List String × Entry) :=
  t.entries.filterMap fun (place, entry) =>
    match t.workingDirectory.isPrefixOf place, place.drop t.workingDirectory.length with
    | true, name :: rest => some (name :: rest, entry)
    | _, _ => none

end FileTree

end ExtensionHeader
