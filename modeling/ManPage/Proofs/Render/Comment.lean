import ManPage.Proofs.Render.Children
import ManPage.Proofs.Text.LineEnds
import ManPage.Proofs.Text.Rows
import ManPage.Render.Sink

/-! # Comments

Each line of a comment becomes a row that starts as a comment, so that nothing in it is set and nothing in it
is a request. A comment that is a block of a document, or of block quotes one in the other, has these rows to
itself on the page; those above and below it are the same whatever it says. A comment with nothing in it has no
line, and leaves a row with nothing in it.
-/
namespace ManPage
open Text Fragment

/-! ## The rows of a comment -/

def commentStart : Text := ".\\\" ".toList

/-- What a row says behind the start of a comment. -/
def uncommented (l : Text) : Text := (commentStart.isPrefixOf? l).getD l

/-- Every row of the text is a comment, and together they say the value; there are none for no value. -/
structure IsComment (value t : Text) : Prop where
  empty : value = [] → t = []
  starts : value ≠ [] → ∀ l ∈ rows t, commentStart <+: l
  reads : joinLines ((rows t).map uncommented) = dropFeed (lineFeeds value)

theorem uncommented_append (l : Text) : uncommented (commentStart ++ l) = l := by
  have h : commentStart.isPrefixOf? (commentStart ++ l) = some l :=
    List.isPrefixOf?_eq_some_iff_append_eq.mpr rfl
  simp [uncommented, h]

theorem map_uncommented (ls : List Text) : (ls.map (commentStart ++ ·)).map uncommented = ls := by
  simp [Function.comp_def, uncommented_append]

theorem rows_comment {value : Text} (h : value ≠ []) :
    rows (comment value) = (lines value).map (commentStart ++ ·) := by
  apply rows_joinLines_of_not_mem
  · simp only [List.forall_mem_map, List.mem_append, not_or]
    intro l hl
    exact ⟨by decide, not_mem_of_mem_lines hl⟩
  · simpa using mt lines_eq_nil_iff.mp h

theorem isComment_comment (value : Text) : IsComment value (comment value) := by
  by_cases h : value = []
  · subst h
    exact ⟨fun _ => rfl, fun hne => absurd rfl hne, by decide⟩
  · refine ⟨fun hnil => absurd hnil h, fun _ => ?_, ?_⟩
    · simp [rows_comment h]
    · rw [rows_comment h, map_uncommented, joinLines_lines]

/-! ## Blocks among others -/

/-- The node in a block quote, that one in a block quote in turn, and so on, each with the nodes of its level
before and after it; the outermost level comes first. -/
def quoteIn : List (List Node × List Node) → Node → Node
  | [], n => n
  | (before, after) :: levels, n => .blockQuote (before ++ quoteIn levels n :: after)

theorem not_isParagraph_quoteIn (levels : List (List Node × List Node)) {n : Node} (h : ¬ n.IsParagraph) :
    ¬ (quoteIn levels n).IsParagraph := by
  cases levels with
  | nil => exact h
  | cons level levels => exact fun ⟨_, hparagraph⟩ => Node.noConfusion hparagraph

/-- Of the nodes, one for each value, all are converted alike but for the rows of a comment that says it. -/
def SetsApart (n : Text → Node) : Prop := ∀ k, ∃ above below lists, ∀ value,
  ((convert (n value)).run k).lists = lists ∧ ∃ t, ((convert (n value)).run k).result = some t ∧
    rows t = above ++ (rows (comment value) ++ below)

theorem rows_joinLines_among (parts more : List Text) (t : Text) :
    rows (joinLines (parts ++ t :: more)) = parts.flatMap rows ++ (rows t ++ more.flatMap rows) := by
  rw [rows_joinLines_of_ne (by simp), List.flatMap_append, List.flatMap_cons]

theorem rows_indented (body : Text) :
    rows (indented body) = ".RS".toList :: (rows body ++ [".RE".toList]) := by
  rw [indented_eq]
  exact rows_between (by decide) (by decide) body

theorem rows_blockQuote (body : Text) : rows (".PP\n".toList ++ indented body) =
    ".PP".toList :: ".RS".toList :: (rows body ++ [".RE".toList]) := by
  have hlines : ".PP\n".toList ++ indented body = ".PP".toList ++ '\n' :: indented body := rfl
  have hparagraph : rows ".PP".toList = [".PP".toList] := rows_of_not_mem (by decide)
  rw [hlines, rows_lineFeed, hparagraph, rows_indented, List.singleton_append]

theorem setsApart_comment : SetsApart .comment :=
  fun k => ⟨[], [], k, fun value => ⟨rfl, comment value, rfl, by simp⟩⟩

section
variable {n : Text → Node} (h : SetsApart n) (before after : List Node)
include h

/-- The rows of the quote that belong to the node are still apart from those of the nodes around it. -/
theorem SetsApart.blockQuote (hn : ∀ value, ¬ (n value).IsParagraph) :
    SetsApart fun value => .blockQuote (before ++ n value :: after) := by
  intro k
  obtain ⟨above, below, lists, h⟩ := h ((quoted before).run k).lists
  refine ⟨".PP".toList :: ".RS".toList :: (((quoted before).run k).result.flatMap rows ++ above),
    below ++ (((quoted after).run lists).result.flatMap rows ++ [".RE".toList]),
    ((quoted after).run lists).lists, fun value => ?_⟩
  obtain ⟨hlists, t, hresult, hrows⟩ := h value
  have hquote : ((convert (.blockQuote (before ++ n value :: after))).run k).result =
      some (".PP\n".toList ++ indented (joinLines (((quoted before).run k).result ++
        t :: ((quoted after).run lists).result))) := by
    simp [convert, quoted_among _ _ (hn value), hlists, hresult]
  refine ⟨?_, _, hquote, ?_⟩
  · simp [convert, quoted_among _ _ (hn value), hlists]
  · rw [rows_blockQuote, rows_joinLines_among, hrows]
    simp

end

theorem setsApart_quoteIn (levels : List (List Node × List Node)) :
    SetsApart fun value => quoteIn levels (.comment value) := by
  induction levels with
  | nil => exact setsApart_comment
  | cons level levels ih =>
    refine ih.blockQuote level.1 level.2 fun value => not_isParagraph_quoteIn levels ?_
    rintro ⟨children, hparagraph⟩
    cases hparagraph

/-! ## Pages -/

theorem SetsApart.body {n : Text → Node} (h : SetsApart n) (before after : List Node) (k : Nat) :
    ∃ above below, ∀ value, rows ((Document.body ⟨before ++ n value :: after⟩).run k).result =
      above ++ (rows (comment value) ++ below) := by
  obtain ⟨above, below, lists, h⟩ := h ((convertAll before).run k).lists
  refine ⟨((convertAll before).run k).result.flatMap rows ++ above,
    below ++ ((convertAll after).run lists).result.flatMap rows, fun value => ?_⟩
  obtain ⟨hlists, t, hresult, hrows⟩ := h value
  simp [Document.body, convertAll_among, hlists, hresult, rows_joinLines_among, hrows]

theorem rows_page (d : Document) (k : Nat) :
    rows (d.page.run k).result = rows bannerLines ++ rows (d.body.run k).result := by
  rw [Document.page, Conversion.run_map, rows_lineFeed]

/-- A block of a document or of block quotes, one in the other, that is a comment has rows to itself on the
page, and the rows above and below are the same for all values. If there is something in the value, each of the
comment's rows starts as a comment, and they say all lines of the value, so that nothing of it is left to be set
or to be a request; if there is nothing in it, the row is empty. -/
theorem comment_among (before after : List Node) (levels : List (List Node × List Node)) (k : Nat) :
    ∃ above below, ∀ value, ∃ t, IsComment value t ∧
      (∀ lists, (convert (.comment value)).run lists = ⟨some t, lists, []⟩) ∧
      rows ((Document.body ⟨before ++ quoteIn levels (.comment value) :: after⟩).run k).result =
        above ++ (rows t ++ below) ∧
      rows ((Document.page ⟨before ++ quoteIn levels (.comment value) :: after⟩).run k).result =
        rows bannerLines ++ (above ++ (rows t ++ below)) := by
  obtain ⟨above, below, h⟩ := (setsApart_quoteIn levels).body before after k
  refine ⟨above, below, fun value => ⟨comment value, isComment_comment value, fun lists => rfl, h value, ?_⟩⟩
  rw [rows_page, h value]

/-- A request in the value and a carriage return by itself stay in the comment. -/
example : Document.render ⟨[.blockQuote [.comment "a\r\n.so b\n\r".toList, .comment []]]⟩ =
    bannerLines ++ "\n.PP\n.RS\n.\\\" a\n.\\\" .so b\n.\\\" \r\n\n.RE".toList := by decide

end ManPage
