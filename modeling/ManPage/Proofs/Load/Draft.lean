import ManPage.Proofs.Load.Structure

/-! # Drafts

The entries of a document are its blocks, and values under other keys. All keys of the document and all
of its blocks are decoded. The other values are not: stray bytes may stand in their strings, and nowhere
else, and whatever they are the document is the same.
-/
namespace ManPage.Load
open Json Outcome Reader
open Text (Piece toPieces toPieces_cons toPieces_append)

/-- A key of a document that is not the key of its blocks. -/
structure OtherKey where
  key : Padded (List StringUnit)
  name : Text
  decode_key : StringUnit.decode key.it = .ok name
  name_ne : name ≠ Document.blocksKey

inductive DraftEntry
  | blocks (m : Member Spelling) (h : StringUnit.decode m.key.it = .ok Document.blocksKey)
  | skipped (key : OtherKey) (value : Padded Loose)

/-- A document as it is written. -/
inductive Draft
  | array (inside : Space) (items : List (Padded Spelling))
  | object (inside : Space) (entries : List DraftEntry)

namespace DraftEntry

def pieces : DraftEntry → List Piece
  | blocks m _ => (m.text Spelling.text).toPieces
  | skipped k value =>
    (k.key.text StringUnit.literal).toPieces ++ .char ':' :: value.pieces Loose.pieces

/-- An entry gives the blocks of the document, or nothing. -/
def gather (found : Option (List Node)) : DraftEntry → Except Error (Option (List Node))
  | blocks m _ => Spelling.documentEntry found m
  | skipped _ _ => .ok found

end DraftEntry

namespace Draft

def pieces : Draft → List Piece
  | array inside items => (Spelling.array inside items).text.toPieces
  | object inside entries => .char '{' :: (inside.val.toPieces ++
      (separated (entries.map DraftEntry.pieces) ++ [.char '}']))

def document : Draft → Except Error Document
  | array inside items => (Spelling.array inside items).document
  | object _ entries => (fun found => ⟨found.getD []⟩) <$> entries.foldlM DraftEntry.gather none

end Draft

theorem takesEntry_draft (e : DraftEntry) :
    TakesEntry OpenObject.document DraftEntry.gather DraftEntry.pieces e := by
  cases e with
  | blocks m _ => exact readsEntry_document m
  | skipped k value =>
    intro found start hstart ps hd
    have hslot : (OpenObject.document found).slot k.name = .ok (.skipped found []) := if_neg k.name_ne
    rw [DraftEntry.pieces, List.append_assoc, List.cons_append, read_memberKey hstart k.key rfl,
      k.decode_key, ofFault_ok, ok_bind, hslot, ok_bind]
    exact (passedOver value.it).read_padded found [] hd

end ManPage.Load

namespace ManPage
open Json Load Outcome Reader
open Text (toPieces toPieces_append)

/-- A document is read as it is written. -/
theorem Document.ofPieces_draft (p : Padded Draft) :
    Document.ofPieces (p.pieces Draft.pieces) = p.it.document := by
  obtain ⟨before, draft, behind⟩ := p
  cases draft with
  | array inside items =>
    have htext := Document.ofText_text ⟨before, .array inside items, behind⟩
    rw [Document.ofText] at htext
    simpa only [Padded.text, toPieces_append, Padded.pieces, Draft.pieces, Draft.document] using htext
  | object inside entries =>
    have hentries := read_separatedEntries (fun e (_ : e ∈ entries) => takesEntry_draft e) inside none
      behind.val.toPieces
    simp only [Document.ofPieces, Padded.pieces, Draft.pieces, List.append_assoc, List.cons_append,
      List.nil_append]
    rw [read_space _ before.property, read_openObject, Slot.openObject, ok_bind, hentries,
      Draft.document]
    cases entries.foldlM DraftEntry.gather none with
    | error e => rfl
    | ok found => exact read_finished (g := .document) _ behind.property

end ManPage

namespace ManPage.Load
open Json Outcome
open Text (Piece toPieces)

/-! ## The place of a skipped value -/

/-- What is written around a value that is skipped. -/
structure SkippedPlace where
  before : Space
  inside : Space
  front : List DraftEntry
  key : OtherKey
  ahead : Space
  after : Space
  back : List DraftEntry
  behind : Space

namespace SkippedPlace
variable (f : SkippedPlace)

def fill (l : Loose) : Padded Draft :=
  ⟨f.before, .object f.inside (f.front ++ .skipped f.key ⟨f.ahead, l, f.after⟩ :: f.back), f.behind⟩

/-- The pieces up to the value. -/
def opening : List Piece :=
  f.before.val.toPieces ++ .char '{' :: (f.inside.val.toPieces ++
    (f.front.flatMap (fun e => e.pieces ++ [.char ',']) ++
      ((f.key.key.text StringUnit.literal).toPieces ++ .char ':' :: f.ahead.val.toPieces)))

/-- The pieces behind the value. -/
def closing : List Piece :=
  f.after.val.toPieces ++ (sequel (f.back.map DraftEntry.pieces) ++
    .char '}' :: f.behind.val.toPieces)

end SkippedPlace

theorem separated_append_cons (pss : List (List Piece)) (qs : List Piece) (rss : List (List Piece)) :
    separated (pss ++ qs :: rss) = pss.flatMap (· ++ [.char ',']) ++ (qs ++ sequel rss) := by
  have hsequel (qss : List (List Piece)) (h : qss ≠ []) : sequel qss = .char ',' :: separated qss := by
    cases qss with
    | nil => exact absurd rfl h
    | cons ps qss => rfl
  induction pss with
  | nil => rfl
  | cons ps pss ih =>
    have hne : pss ++ qs :: rss ≠ [] := List.append_ne_nil_of_right_ne_nil _ (List.cons_ne_nil _ _)
    rw [List.cons_append, separated, hsequel _ hne, ih]
    simp

namespace SkippedPlace
variable (f : SkippedPlace)

theorem pieces_fill (l : Loose) :
    (f.fill l).pieces Draft.pieces = f.opening ++ (l.pieces ++ f.closing) := by
  simp [fill, opening, closing, Padded.pieces, Draft.pieces, separated_append_cons, DraftEntry.pieces,
    List.flatMap_map]

/-- A skipped value has no part in the document. -/
theorem document_fill (l l' : Loose) : (f.fill l).it.document = (f.fill l').it.document := by
  simp only [fill, Draft.document, List.foldlM_append, List.foldlM_cons, DraftEntry.gather]

/-- A blank and the marks between tokens are ASCII characters. -/
theorem ascii_of_blank {c : Char} (h : isBlank c) : c.toNat < 128 := by
  simp only [isBlank, Bool.or_eq_true, beq_iff_eq] at h
  rcases h with ((rfl | rfl) | rfl) | rfl <;> decide

theorem exists_last_opening : ∃ ps c, f.opening = ps ++ [.char c] ∧ c.toNat < 128 := by
  rcases List.eq_nil_or_concat f.ahead.val with hnil | ⟨ws, c, hws⟩
  · refine ⟨f.before.val.toPieces ++ .char '{' :: (f.inside.val.toPieces ++
      (f.front.flatMap (fun e => e.pieces ++ [.char ',']) ++
        (f.key.key.text StringUnit.literal).toPieces)), ':', ?_, by decide⟩
    simp [opening, hnil]
  · have hblank : isBlank c := by
      have hall := f.ahead.property
      rw [hws, List.concat_eq_append, List.all_append, Bool.and_eq_true] at hall
      simpa using hall.2
    refine ⟨f.before.val.toPieces ++ .char '{' :: (f.inside.val.toPieces ++
      (f.front.flatMap (fun e => e.pieces ++ [.char ',']) ++
        ((f.key.key.text StringUnit.literal).toPieces ++ .char ':' :: toPieces ws))), c, ?_,
      ascii_of_blank hblank⟩
    simp [opening, hws]

theorem exists_head_closing : ∃ c ps, f.closing = .char c :: ps ∧ c.toNat < 128 := by
  rw [closing]
  cases hafter : f.after.val with
  | cons c ws =>
    have hall := f.after.property
    rw [hafter, List.all_cons, Bool.and_eq_true] at hall
    exact ⟨c, _, rfl, ascii_of_blank hall.1⟩
  | nil =>
    cases f.back with
    | nil => exact ⟨'}', _, rfl, by decide⟩
    | cons e back => exact ⟨',', _, rfl, by decide⟩

end SkippedPlace
end ManPage.Load
