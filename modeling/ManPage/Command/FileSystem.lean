import ManPage.Load.Reader

/-! # Files

A path denotes a directory, or a file by its name, or neither. Two paths may denote the same file,
and a file that is denoted need not be there yet. A file may be kept from being read or from being
written.
-/
namespace ManPage.Command
open Load

/-- What a path denotes. No file has a name with a slash behind it: that is no place to make a file,
and `e` is the reason why nothing can be opened there. -/
inductive Location
  | nowhere (e : PathError)
  | directory
  | slashed (e : PathError)
  | file (name : Text)
deriving DecidableEq, Repr, Inhabited

/-- The last two fields tell why the file with a name cannot be read, or be made or written, where it
could be otherwise. -/
structure FileSystem where
  locate : Text → Location
  files : List (Text × List UInt8)
  unreadable : Text → Option PathError := fun _ => none
  unwritable : Text → Option PathError := fun _ => none

namespace FileSystem

def content? (fs : FileSystem) (name : Text) : Option (List UInt8) := fs.files.lookup name

def target (fs : FileSystem) (path : Text) : PathTarget :=
  match fs.locate path with
  | .nowhere e => .unreachable e
  | .directory => .directory
  | .slashed e => .unreachable e
  | .file name =>
    match fs.content? name, fs.unreadable name with
    | some bytes, none => .file bytes
    | some _, some e => .unreachable e
    | none, _ => .unreachable .missing

def put (fs : FileSystem) (name : Text) (bytes : List UInt8) : FileSystem :=
  { fs with files := (name, bytes) :: fs.files.filter fun f => f.1 != name }

/-- The name of the file that can be made where the path leads. -/
def place (fs : FileSystem) (path : Text) : Except PathError Text :=
  match fs.locate path with
  | .nowhere e => .error e
  | .directory => .error .isDirectory
  | .slashed _ => .error .isDirectory
  | .file name =>
    match fs.unwritable name with
    | some e => .error e
    | none => .ok name

/-- Makes the file with this name, or empties it if it is there. -/
def create (fs : FileSystem) (name : Text) : FileSystem := fs.put name []

/-- Writes behind what the file has. -/
def append (fs : FileSystem) (name : Text) (bytes : List UInt8) : FileSystem :=
  fs.put name ((fs.content? name).getD [] ++ bytes)

/-- Makes the file that the path denotes and writes to it. -/
def write (fs : FileSystem) (path : Text) (bytes : List UInt8) : Except PathError FileSystem := do
  let name ← fs.place path
  return (fs.create name).append name bytes

end FileSystem
end ManPage.Command
