import ManPage.Text.Basic

/-! # Line ends

A line ends at a line feed, or at a carriage return with a line feed behind it. What is left of a text that is
cut into its lines and joined again is the text itself, with a line feed in the place of each line end and with
nothing in the place of one that is the last of the text: no character of a line is lost and no line is.
-/
namespace ManPage.Text

/-- The text with a line feed in the place of each carriage return that has a line feed behind it. -/
def lineFeeds : Text → Text
  | '\r' :: '\n' :: t => '\n' :: lineFeeds t
  | c :: t => c :: lineFeeds t
  | [] => []

/-- The text without the line feed at its end, if there is one. -/
def dropFeed (t : Text) : Text := if t.getLast? = some '\n' then t.dropLast else t

section
variable {c : Char} {t : Text}

theorem lineFeeds_cons (h : ∀ r, c = '\r' → t = '\n' :: r → False) :
    lineFeeds (c :: t) = c :: lineFeeds t := by
  rw [lineFeeds]
  exact h

theorem lineFeeds_eq_nil_iff : lineFeeds t = [] ↔ t = [] := by
  cases t using lineFeeds.fun_cases with
  | case1 t => simp [lineFeeds]
  | case2 c t h => simp [lineFeeds_cons h]
  | case3 => simp [lineFeeds]

/-- A character that ends no line is the start of the first line behind it, or a line by itself. -/
theorem lines_cons (hc : c ≠ '\n') (h : ∀ r, c = '\r' → t = '\n' :: r → False) :
    lines (c :: t) = (c :: (lines t).headD []) :: (lines t).tail := by
  rw [lines]
  · cases lines t <;> rfl
  · exact hc
  · exact h

theorem lines_eq_nil_iff : lines t = [] ↔ t = [] := by
  cases t using lineFeeds.fun_cases with
  | case1 t => simp [lines]
  | case2 c t h =>
    by_cases hc : c = '\n'
    · simp [hc, lines]
    · simp [lines_cons hc h]
  | case3 => simp [lines]

theorem dropFeed_feed (ht : t ≠ []) : dropFeed ('\n' :: t) = '\n' :: dropFeed t := by
  obtain ⟨d, t, rfl⟩ := List.exists_cons_of_ne_nil ht
  simp only [dropFeed, List.getLast?_cons_cons, List.dropLast_cons_cons]
  split <;> rfl

theorem dropFeed_cons (hc : c ≠ '\n') (t : Text) : dropFeed (c :: t) = c :: dropFeed t := by
  cases t with
  | nil => simp [dropFeed, hc]
  | cons d t =>
    simp only [dropFeed, List.getLast?_cons_cons, List.dropLast_cons_cons]
    split <;> rfl

theorem joinLines_head (c : Char) (ls : List Text) :
    joinLines ((c :: ls.headD []) :: ls.tail) = c :: joinLines ls := by
  rcases ls with _ | ⟨l, _ | ⟨m, ls⟩⟩ <;> simp [joinLines_cons_cons]

/-- The feed that ends a blank line is kept if there are more lines, and is else the last of the text. -/
theorem joinLines_blank (h : joinLines (lines t) = dropFeed (lineFeeds t)) :
    joinLines ([] :: lines t) = dropFeed ('\n' :: lineFeeds t) := by
  by_cases ht : t = []
  · subst ht
    rfl
  · obtain ⟨l, ls, hls⟩ := List.exists_cons_of_ne_nil (mt lines_eq_nil_iff.mp ht)
    rw [dropFeed_feed (mt lineFeeds_eq_nil_iff.mp ht), ← h, hls, joinLines_cons_cons, List.nil_append]

theorem joinLines_lines (t : Text) : joinLines (lines t) = dropFeed (lineFeeds t) := by
  induction t using lineFeeds.induct with
  | case1 t ih => exact joinLines_blank ih
  | case2 c t h ih =>
    rw [lineFeeds_cons h]
    by_cases hc : c = '\n'
    · subst hc
      exact joinLines_blank ih
    · rw [lines_cons hc h, joinLines_head, ih, dropFeed_cons hc]
  | case3 => rfl

end

/-- Only one carriage return belongs to a line end, and one that no line feed follows is kept. -/
example : lines "a\r\r\n\r\nb\r".toList = ["a\r".toList, [], "b\r".toList] := by decide

end ManPage.Text
