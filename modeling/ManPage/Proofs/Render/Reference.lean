import ManPage.Proofs.Render.Visit

/-! # Rendering with given numbers

A rendering without any state. The number of each ordered list is given beforehand by its path; the
declaration of a list and the macros of its items have no other number, whatever has been rendered
before them. The labels of a child are those of the paths that lead through it.
-/
namespace ManPage
open Text Fragment

/-- The labels of the nodes below the child with the index `i`. -/
def childLabels (label : Path → Nat) (i : Nat) : Path → Nat := fun p => label (i :: p)

mutual

def typeset (label : Path → Nat) : Node → Option Text
  | .blank => some ".LP".toList
  | .text value => some (escape value)
  | .abbreviation value => some (escape value)
  | .typographic symbol => some symbol.glyph
  | .quote symbol => some symbol.glyph
  | .header level rawText _ => some (header level rawText)
  | .rule => some rule
  | .bulletList children =>
    some (indented (joinLines (typesetItems .bullet label 0 children)))
  | .orderedList children =>
    some (Marker.declaration (label []) ++
      '\n' :: indented (joinLines (typesetItems (.step (label [])) label 0 children)))
  | .blockQuote children =>
    some (".PP\n".toList ++ indented (joinLines (typesetQuoted label 0 children)))
  | .codeBlock value => some (codeBlock value)
  | .comment value => some (comment value)
  | .paragraph children => some (paragraph children (typesetAll label 0 children))
  | .emphasis children => some (emphasis (inline (typesetAll label 0 children)))
  | .strong children => some (strong (inline (typesetAll label 0 children)))
  | .codeSpan value => some (codeSpan value)
  | .link href children => some (link href (inline (typesetAll label 0 children)))
  | .listItem _ => none
  | .unknown => none

/-- The fragments of nodes, the first of which is the child with the index `i`. -/
def typesetAll (label : Path → Nat) (i : Nat) : List Node → List Text
  | [] => []
  | n :: ns => (typeset (childLabels label i) n).toList ++ typesetAll label (i + 1) ns

def typesetQuoted (label : Path → Nat) (i : Nat) : List Node → List Text
  | [] => []
  | .paragraph children :: ns =>
    inline (typesetAll (childLabels label i) 0 children) :: typesetQuoted label (i + 1) ns
  | n :: ns => (typeset (childLabels label i) n).toList ++ typesetQuoted label (i + 1) ns

def typesetItems (marker : Marker) (label : Path → Nat) (i : Nat) : List Node → List Text
  | [] => []
  | .listItem children :: ns =>
    joinLines (typesetParagraphs marker.first marker.further (childLabels label i) 0 children) ::
      typesetItems marker label (i + 1) ns
  | _ :: ns => typesetItems marker label (i + 1) ns

def typesetParagraphs (opening further : Text) (label : Path → Nat) (i : Nat) :
    List Node → List Text
  | [] => []
  | .paragraph children :: ns =>
    (opening ++ '\n' :: inline (typesetAll (childLabels label i) 0 children)) ::
      typesetParagraphs further further label (i + 1) ns
  | _ :: ns => typesetParagraphs opening further label (i + 1) ns

end

/-- Each of the nodes by itself. -/
def typesetEach (label : Path → Nat) (i : Nat) : List Node → List (Option Text)
  | [] => []
  | n :: ns => typeset (childLabels label i) n :: typesetEach label (i + 1) ns

section
variable {n : Node} (ns : List Node) (label : Path → Nat) (i : Nat)

theorem typesetQuoted_of_ne (h : ¬ n.IsParagraph) : typesetQuoted label i (n :: ns) =
    (typeset (childLabels label i) n).toList ++ typesetQuoted label (i + 1) ns := by
  rw [typesetQuoted]
  exact fun children hn => h ⟨children, hn⟩

theorem typesetItems_of_ne (marker : Marker) (h : ¬ n.IsItem) :
    typesetItems marker label i (n :: ns) = typesetItems marker label (i + 1) ns := by
  rw [typesetItems]
  exact fun children hn => h ⟨children, hn⟩

theorem typesetParagraphs_of_ne (opening further : Text) (h : ¬ n.IsParagraph) :
    typesetParagraphs opening further label i (n :: ns) =
      typesetParagraphs opening further label (i + 1) ns := by
  rw [typesetParagraphs]
  exact fun children hn => h ⟨children, hn⟩

end

end ManPage
