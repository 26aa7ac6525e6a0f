import ManPage.Command.FileSystem

/-! # Paths in a working folder

A path is followed name by name, and every name but the last has to be that of a directory. The
working folder holds files, and the folders that their names imply. Of what is outside only the
directories above are known, and nothing in them.
-/
namespace ManPage.Command
open Load

/-- A directory: in the working folder, or a number of levels above it, or the root. -/
inductive Directory
  | inside (names : List Text)
  | above (levels : Nat)
  | root
deriving DecidableEq, Repr, Inhabited

namespace Directory

def parent : Directory → Directory
  | inside [] => above 1
  | inside (n :: ns) => inside (n :: ns).dropLast
  | above levels => above (levels + 1)
  | root => root

/-- The name of an entry of the directory, as seen from the working folder. -/
def entry (name : Text) : Directory → Text
  | inside names => List.intercalate ['/'] (names ++ [name])
  | above levels => (List.replicate levels "../".toList).flatten ++ name
  | root => '/' :: name

/-- The folder with this name; outside of the working folder there is none that is known. -/
def child? (files : List (Text × List UInt8)) (name : Text) : Directory → Option Directory
  | inside names =>
    let folder := (inside names).entry name ++ ['/']
    if files.any fun f => folder.isPrefixOf f.1 then some (inside (names ++ [name])) else none
  | _ => none

end Directory

/-- A name may have this many bytes. -/
def maxName : Nat := 255

/-- A path may have this many bytes. -/
def maxPath : Nat := 4095

def isTooLong (name : Text) : Bool := decide (maxName < (Text.encode name).length)

/-- The names between the slashes of a path. -/
def splitPath : Text → List Text
  | [] => [[]]
  | '/' :: r => [] :: splitPath r
  | c :: r =>
    match splitPath r with
    | [] => [[c]]
    | name :: names => (c :: name) :: names

def pathNames (path : Text) : List Text := (splitPath path).filter (· ≠ [])

section Lookup

variable (files : List (Text × List UInt8))

/-- Why a name that is no directory is none. -/
def noDirectory (name : Text) (d : Directory) : PathError :=
  if (files.lookup (d.entry name)).isSome then .notDirectory else .missing

/-- Follows one name into a directory. -/
def enterDirectory (d : Directory) (name : Text) : Except PathError Directory :=
  if name = ['.'] then .ok d
  else if name = ['.', '.'] then .ok d.parent
  else if isTooLong name then .error .nameTooLong
  else
    match d.child? files name with
    | some folder => .ok folder
    | none => .error (noDirectory files name d)

/-- The last name of a path, which ends with a slash if `slash`. -/
def lastName (d : Directory) (name : Text) (slash : Bool) : Location :=
  if name = ['.'] ∨ name = ['.', '.'] then .directory
  else if isTooLong name then if slash then .slashed .nameTooLong else .nowhere .nameTooLong
  else if (d.child? files name).isSome then .directory
  else if slash then .slashed (noDirectory files name d)
  else .file (d.entry name)

def locateFrom (start : Directory) (names : List Text) (slash : Bool) : Location :=
  match names.getLast? with
  | none => .directory
  | some name =>
    match names.dropLast.foldlM (enterDirectory files) start with
    | .error e => .nowhere e
    | .ok d => lastName files d name slash

end Lookup

/-- A working folder with these files. -/
def FileSystem.folder (files : List (Text × List UInt8)) : FileSystem where
  locate path :=
    if path = [] then .nowhere .missing
    else if maxPath < (Text.encode path).length then .nowhere .nameTooLong
    else
      locateFrom files (if path.head? = some '/' then .root else .inside []) (pathNames path)
        (path.getLast? = some '/')
  files := files

/-- The file is in the working folder. -/
def isInFolder (name : Text) : Bool :=
  !("../".toList.isPrefixOf name || "/".toList.isPrefixOf name)

end ManPage.Command
