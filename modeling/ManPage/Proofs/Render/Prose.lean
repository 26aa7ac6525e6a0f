import ManPage.Proofs.Render.Children
import ManPage.Proofs.Render.Scan

/-! # Reading prose back

A paragraph of text, symbols, emphasis and strong text is read as the tree again, but for white space,
whatever the texts are in it: nothing that is put together or trimmed on the way takes an escape apart or
makes one.
-/
namespace ManPage
open Text Fragment

/-! ## Prose -/

namespace Node

mutual

/-- Text, symbols, emphasis and strong text, one inside the other in any way. -/
def isProse : Node → Bool
  | text _ | abbreviation _ | typographic _ | quote _ => true
  | emphasis children | strong children => areProse children
  | _ => false

def areProse : List Node → Bool
  | [] => true
  | n :: ns => n.isProse && areProse ns

end

end Node

/-- What prose is made of: texts, symbols, which need no escape, and the changes of font around emphasis
and strong text. -/
inductive Mark
  | text (value : Text)
  | symbol (glyph : { g : Text // '\\' ∉ g })
  | font (f : Font)
deriving DecidableEq, Repr, Inhabited

namespace Mark

/-- How the mark is written. -/
def fragment : Mark → Text
  | text value => escape value
  | symbol glyph => glyph
  | font f => ['\\', 'f', f.letter]

def tokens : Mark → List Token
  | text value => value.map .char
  | symbol glyph => glyph.val.map .char
  | font f => [.font f]

def lineFeed : Mark := symbol ⟨['\n'], by decide⟩

end Mark

mutual

/-- The marks of prose, in their order on the page. -/
def Node.marks : Node → List Mark
  | .text value | .abbreviation value => [.text value]
  | .typographic s => [.symbol ⟨s.glyph, s.not_mem_glyph⟩]
  | .quote q => [.symbol ⟨q.glyph, q.not_mem_glyph⟩]
  | .emphasis children => .font .italic :: (marksOf children ++ [.font .previous])
  | .strong children => .font .bold :: (marksOf children ++ [.font .previous])
  | _ => []

def marksOf : List Node → List Mark
  | [] => []
  | n :: ns => n.marks ++ marksOf ns

end

end ManPage
