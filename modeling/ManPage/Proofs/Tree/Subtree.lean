import ManPage.Tree.Node

/-! # Subtrees

A node in a tree is found by its path, the index of a child for each step from the root. What stands at
a path may be replaced; all nodes that are not on the path stay as they are, and of those on it only the
one child changes.
-/
namespace ManPage

namespace Node

def mapChildren (f : List Node → List Node) : Node → Node
  | header level rawText children => header level rawText (f children)
  | bulletList children => bulletList (f children)
  | orderedList children => orderedList (f children)
  | listItem children => listItem (f children)
  | blockQuote children => blockQuote (f children)
  | paragraph children => paragraph (f children)
  | emphasis children => emphasis (f children)
  | strong children => strong (f children)
  | link href children => link href (f children)
  | n => n

/-- The node at the path. -/
def at? : List Nat → Node → Option Node
  | [], n => some n
  | i :: path, n => n.children[i]?.bind (at? path)

/-- Makes something else of the node at the path, if there is one. -/
def alterAt (f : Node → Node) : List Nat → Node → Node
  | [], n => f n
  | i :: path, n => n.mapChildren fun children => children.modify i (alterAt f path)

/-- Puts a new node in the place of the one at the path, if there is one. -/
def replaceAt (new : Node) : List Nat → Node → Node
  | [], _ => new
  | i :: path, n => n.mapChildren fun children => children.modify i (replaceAt new path)

theorem mapChildren_id (n : Node) : n.mapChildren id = n := by
  cases n <;> rfl

theorem alterAt_const (new : Node) (path : List Nat) :
    alterAt (fun _ => new) path = replaceAt new path := by
  induction path with
  | nil => rfl
  | cons i path ih =>
    funext n
    rw [alterAt, replaceAt, ih]

theorem alterAt_id (path : List Nat) : alterAt id path = id := by
  induction path with
  | nil => rfl
  | cons i path ih =>
    funext n
    have hchildren : (fun children : List Node => children.modify i id) = id :=
      funext fun children => List.modify_id i children
    rw [alterAt, ih, hchildren, mapChildren_id]
    rfl

end Node

namespace Document

/-- The node at the path; the first index is that of a block. -/
def at? (d : Document) : List Nat → Option Node
  | [] => none
  | i :: path => d.blocks[i]?.bind (Node.at? path)

def alterAt (f : Node → Node) (d : Document) : List Nat → Document
  | [] => d
  | i :: path => ⟨d.blocks.modify i (Node.alterAt f path)⟩

def replaceAt (new : Node) (d : Document) : List Nat → Document
  | [] => d
  | i :: path => ⟨d.blocks.modify i (Node.replaceAt new path)⟩

theorem alterAt_const (new : Node) (d : Document) (path : List Nat) :
    d.alterAt (fun _ => new) path = d.replaceAt new path := by
  cases path with
  | nil => rfl
  | cons i path => rw [alterAt, replaceAt, Node.alterAt_const]

theorem alterAt_id (d : Document) (path : List Nat) : d.alterAt id path = d := by
  cases path with
  | nil => rfl
  | cons i path => rw [alterAt, Node.alterAt_id, List.modify_id]

end Document
end ManPage
