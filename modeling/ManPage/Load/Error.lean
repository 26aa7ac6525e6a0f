import ManPage.Load.Mismatch

/-! # Errors of loading

A document fails to load because its source cannot be opened or read, because its text is no JSON
text or ends too early, or because what the text says is no document.
-/
namespace ManPage.Load
open Json

inductive Error
  | fault (f : Fault)
  | unfinished (u : Unfinished)
  | mismatch (m : Mismatch)
deriving DecidableEq, Repr, Inhabited

inductive Category
  | grammar | ended | data | source
deriving DecidableEq, Repr, Inhabited

namespace Error

def category : Error → Category
  | fault _ => .grammar
  | unfinished _ => .ended
  | mismatch _ => .data

def message : Error → Text
  | fault f => f.message
  | unfinished u => u.message
  | mismatch m => m.message

end Error

/-- Why a path does not lead to a file that can be opened or made. -/
inductive PathError
  | missing
  | denied
  | notDirectory
  | isDirectory
  | nameTooLong
deriving DecidableEq, Repr, Inhabited

def PathError.reason : PathError → Text
  | missing => "No such file or directory (os error 2)".toList
  | denied => "Permission denied (os error 13)".toList
  | notDirectory => "Not a directory (os error 20)".toList
  | isDirectory => "Is a directory (os error 21)".toList
  | nameTooLong => "File name too long (os error 36)".toList

/-- The message for a file that cannot be opened or made. -/
def PathError.message (e : PathError) : Text := "I/O error: ".toList ++ e.reason

/-- Why a document cannot be had from a path. -/
inductive OpenError
  | unreachable (e : PathError)
  | directory
  | invalid (e : Error)
deriving DecidableEq, Repr, Inhabited

def OpenError.category? : OpenError → Option Category
  | unreachable _ => none
  | directory => some .source
  | invalid e => some e.category

def invalidTree (reason : Text) : Text := "Invalid document tree: ".toList ++ reason

/-- A directory can be opened and fails only when it is read. -/
def OpenError.message : OpenError → Text
  | unreachable e => e.message
  | directory => invalidTree PathError.isDirectory.reason
  | invalid e => invalidTree e.message

end ManPage.Load
