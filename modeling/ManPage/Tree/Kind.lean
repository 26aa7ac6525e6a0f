import ManPage.Text.Basic

/-! # Kinds of nodes

A kind is named by its tag. Every other tag names the kind `unknown`, so that a tree of a later
vocabulary can still be read.
-/
namespace ManPage

inductive Kind
  | blank | text | typographic | quote | header | rule | bulletList | orderedList | listItem
  | abbreviation | blockQuote | codeBlock | comment | paragraph | emphasis | strong | codeSpan
  | link | unknown
deriving DecidableEq, Repr, Inhabited

namespace Kind

/-- The kinds in the order in which they are numbered. -/
def all : List Kind :=
  [blank, text, typographic, quote, header, rule, bulletList, orderedList, listItem, abbreviation,
   blockQuote, codeBlock, comment, paragraph, emphasis, strong, codeSpan, link, unknown]

def tag : Kind → Text
  | blank => "blank".toList
  | text => "text".toList
  | typographic => "typographic_sym".toList
  | quote => "smart_quote".toList
  | header => "header".toList
  | rule => "hr".toList
  | bulletList => "ul".toList
  | orderedList => "ol".toList
  | listItem => "li".toList
  | abbreviation => "abbreviation".toList
  | blockQuote => "blockquote".toList
  | codeBlock => "codeblock".toList
  | comment => "comment".toList
  | paragraph => "paragraph".toList
  | emphasis => "emphasis".toList
  | strong => "strong".toList
  | codeSpan => "codespan".toList
  | link => "link".toList
  | unknown => "unknown".toList

def ofTag (tag : Text) : Kind := (all.find? fun k => k.tag == tag).getD unknown

def ofIndex (i : Nat) : Kind := all[i]?.getD unknown

theorem ofTag_tag (k : Kind) : ofTag k.tag = k := by
  cases k <;> rfl

theorem ofTag_of_forall_ne {t : Text} (h : ∀ k : Kind, k.tag ≠ t) : ofTag t = unknown := by
  have none : (all.find? fun k => k.tag == t) = none :=
    List.find?_eq_none.2 fun k _ => by simpa using h k
  rw [ofTag, none, Option.getD_none]

end Kind
end ManPage
