import ManPage.Tree.Kind
import ManPage.Tree.Symbol

/-! # Document trees

A document is a list of block nodes. The set of node kinds is closed; `unknown` stands for a kind
that has no conversion rule.
-/
namespace ManPage

inductive Node
  | blank
  | text (value : Text)
  | typographic (value : Typographic)
  | quote (value : Quote)
  | header (level : UInt8) (rawText : Text) (children : List Node)
  | rule
  | bulletList (children : List Node)
  | orderedList (children : List Node)
  | listItem (children : List Node)
  | abbreviation (value : Text)
  | blockQuote (children : List Node)
  | codeBlock (value : Text)
  | comment (value : Text)
  | paragraph (children : List Node)
  | emphasis (children : List Node)
  | strong (children : List Node)
  | codeSpan (value : Text)
  | link (href : Text) (children : List Node)
  | unknown
deriving Repr, Inhabited

namespace Node

def kind : Node → Kind
  | blank => .blank
  | text _ => .text
  | typographic _ => .typographic
  | quote _ => .quote
  | header .. => .header
  | rule => .rule
  | bulletList _ => .bulletList
  | orderedList _ => .orderedList
  | listItem _ => .listItem
  | abbreviation _ => .abbreviation
  | blockQuote _ => .blockQuote
  | codeBlock _ => .codeBlock
  | comment _ => .comment
  | paragraph _ => .paragraph
  | emphasis _ => .emphasis
  | strong _ => .strong
  | codeSpan _ => .codeSpan
  | link .. => .link
  | unknown => .unknown

def children : Node → List Node
  | header _ _ cs | bulletList cs | orderedList cs | listItem cs | blockQuote cs | paragraph cs
  | emphasis cs | strong cs | link _ cs => cs
  | _ => []

/-- A header whose one child is its raw text. -/
def plainHeader (level : UInt8) (rawText : Text) : Node := header level rawText [text rawText]

/-- A list item that holds one paragraph of text. -/
def textItem (value : Text) : Node := listItem [paragraph [text value]]

mutual

def same : Node → Node → Bool
  | blank, blank | rule, rule | unknown, unknown => true
  | text v, text w | abbreviation v, abbreviation w | codeBlock v, codeBlock w
  | comment v, comment w | codeSpan v, codeSpan w => v == w
  | typographic s, typographic t => s == t
  | quote s, quote t => s == t
  | header l r cs, header m s ds => l == m && r == s && sameAll cs ds
  | bulletList cs, bulletList ds | orderedList cs, orderedList ds | listItem cs, listItem ds
  | blockQuote cs, blockQuote ds | paragraph cs, paragraph ds | emphasis cs, emphasis ds
  | strong cs, strong ds => sameAll cs ds
  | link h cs, link i ds => h == i && sameAll cs ds
  | _, _ => false

def sameAll : List Node → List Node → Bool
  | [], [] => true
  | n :: ns, m :: ms => same n m && sameAll ns ms
  | _, _ => false

end

mutual

theorem same_iff : ∀ {n m : Node}, same n m = true ↔ n = m
  | .header _ _ _, m => by cases m <;> simp [same, sameAll_iff, and_assoc]
  | .bulletList _, m => by cases m <;> simp [same, sameAll_iff]
  | .orderedList _, m => by cases m <;> simp [same, sameAll_iff]
  | .listItem _, m => by cases m <;> simp [same, sameAll_iff]
  | .blockQuote _, m => by cases m <;> simp [same, sameAll_iff]
  | .paragraph _, m => by cases m <;> simp [same, sameAll_iff]
  | .emphasis _, m => by cases m <;> simp [same, sameAll_iff]
  | .strong _, m => by cases m <;> simp [same, sameAll_iff]
  | .link _ _, m => by cases m <;> simp [same, sameAll_iff]
  | .blank, m => by cases m <;> simp [same]
  | .rule, m => by cases m <;> simp [same]
  | .unknown, m => by cases m <;> simp [same]
  | .text _, m => by cases m <;> simp [same]
  | .abbreviation _, m => by cases m <;> simp [same]
  | .codeBlock _, m => by cases m <;> simp [same]
  | .comment _, m => by cases m <;> simp [same]
  | .codeSpan _, m => by cases m <;> simp [same]
  | .typographic _, m => by cases m <;> simp [same]
  | .quote _, m => by cases m <;> simp [same]

theorem sameAll_iff : ∀ {l k : List Node}, sameAll l k = true ↔ l = k
  | [], k => by cases k <;> simp [sameAll]
  | n :: l, k => by cases k <;> simp [sameAll, same_iff (n := n), sameAll_iff (l := l)]

end

instance : DecidableEq Node := fun n m => decidable_of_iff (same n m = true) same_iff

/-! ## Induction -/

section
set_option linter.unusedSectionVars false
variable {P : Node → Prop} (h : ∀ n, (∀ c ∈ n.children, P c) → P n)
include h

mutual

/-- What holds of a node if it holds of all its children holds of every node. -/
theorem induct : ∀ n, P n
  | .header _ _ children | .bulletList children | .orderedList children | .listItem children
  | .blockQuote children | .paragraph children | .emphasis children | .strong children
  | .link _ children => h _ (forall_children children)
  | .blank | .text _ | .typographic _ | .quote _ | .rule | .abbreviation _ | .codeBlock _
  | .comment _ | .codeSpan _ | .unknown => h _ nofun

theorem forall_children : ∀ ns : List Node, ∀ c ∈ ns, P c
  | [] => nofun
  | n :: ns => List.forall_mem_cons.mpr ⟨induct n, forall_children ns⟩

end

end

end Node

structure Document where
  blocks : List Node := []
deriving Repr, Inhabited, DecidableEq

namespace Document

/-- The name under which a document has its blocks. -/
def blocksKey : Text := "children".toList

def isEmpty (d : Document) : Bool := d.blocks.isEmpty

end Document

end ManPage
