import ManPage.Proofs.Render.Children
import ManPage.Proofs.Text.Rows
import ManPage.Proofs.Text.Unescape

/-! # Code blocks

A code block is written row by row between two macros, and its code is read from the rows again, but for the
white space at its end. That white space is trimmed after the code has been escaped. Nothing in it is escaped
and no escape is white, so the trim takes from the escaped code what it would have taken from the code, and it
stops at the same character; and so does every other trim of an escaped text.
-/
namespace ManPage

namespace Text

/-! ## Trimming what is escaped -/

section
variable {s t : Text}

theorem escape_of_all (h : t.all isWhite) : escape t = t := by
  have hblack : isWhite '\\' = false ∧ isWhite '-' = false := by decide
  rw [List.all_eq_true] at h
  rw [escape_eq_self_iff]
  exact ⟨fun hmem => ne_of_isWhite (h _ hmem) hblack.1 rfl,
    fun hmem => ne_of_isWhite (h _ hmem) hblack.2 rfl⟩

/-- The white space around what is left of a text is around what is left of its escaped form. -/
theorem exists_white_around (h : Shorn t s) : ∃ a b : Text, a.all isWhite ∧ b.all isWhite ∧
    t = a ++ (s ++ b) ∧ escape t = a ++ (escape s ++ b) := by
  obtain ⟨a, b, ha, hb, rfl⟩ := h
  refine ⟨a, b, ha, hb, rfl, ?_⟩
  rw [escape_append, escape_append, escape_of_all ha, escape_of_all hb]

end

/-- Whichever trim is taken of it, the text may be escaped before or after. What is left in the end has all of
its escapes whole, and has lost the white space that the text has lost. -/
structure TrimsEscaped (t : Text) (cut : Text → Text) : Prop where
  commutes : cut (escape t) = escape (cut t)
  whole : Safe (cut (escape t))
  taken : ∃ a b : Text, a.all isWhite ∧ b.all isWhite ∧ t = a ++ (cut t ++ b) ∧
    escape t = a ++ (cut (escape t) ++ b)

theorem trimsEscaped_of_shorn {t : Text} {cut : Text → Text} (h : cut (escape t) = escape (cut t))
    (hcut : Shorn t (cut t)) : TrimsEscaped t cut := by
  obtain ⟨a, b, ha, hb, ht, hescape⟩ := exists_white_around hcut
  rw [← h] at hescape
  refine ⟨h, ?_, a, b, ha, hb, ht, hescape⟩
  rw [h]
  exact safe_escape _

end Text

open Text Fragment

/-! ## The rows of a code block -/

/-- The text is read as the code without the white space at its end. -/
structure ReadsAsCode (code t : Text) : Prop where
  whole : Safe t
  read : unescape t = trimEnd code
  kept : ∃ b : Text, b.all isWhite ∧ code = unescape t ++ b
  black : ∀ c ∈ (unescape t).getLast?, ¬ isWhite c
  rowByRow : rows t = (rows (unescape t)).map escape

theorem readsAsCode_trimEnd (code : Text) : ReadsAsCode code (trimEnd (escape code)) := by
  have hread : unescape (trimEnd (escape code)) = trimEnd code := by
    rw [trimEnd_escape, unescape_escape]
  refine ⟨?_, hread, ?_, ?_, ?_⟩
  · rw [trimEnd_escape]
    exact safe_escape _
  · rw [hread]
    exact exists_trimEnd code
  · rw [hread, ← trimEnd_eq_self_iff, trimEnd_trimEnd]
  · rw [hread, trimEnd_escape, rows_escape]

theorem rows_codeBlock (code : Text) : rows (codeBlock code) =
    ".nf".toList :: (rows (trimEnd (escape code)) ++ [".fi".toList]) := by
  have hlines : codeBlock code =
      ".nf".toList ++ '\n' :: (trimEnd (escape code) ++ '\n' :: ".fi".toList) :=
    List.append_assoc ".nf\n".toList _ "\n.fi".toList
  rw [hlines]
  exact rows_between (by decide) (by decide) _

/-- Wherever it stands, a code block has between `.nf` and `.fi` a text that is read as the code without the
white space at its end, one row for each row of it. Every text may be trimmed at its start, at its end, or at
both, before it is escaped or after; no white space is left there, and no trim takes a part of an escape. -/
theorem convert_codeBlock (code : Text) :
    (∃ t, ReadsAsCode code t ∧ ∀ k, ∃ fragment,
      (convert (.codeBlock code)).run k = ⟨some fragment, k, []⟩ ∧
      fragment = ".nf\n".toList ++ t ++ "\n.fi".toList ∧
      rows fragment = ".nf".toList :: (rows t ++ [".fi".toList])) ∧
    TrimsEscaped code trimStart ∧ (∀ c ∈ (trimStart (escape code)).head?, ¬ isWhite c) ∧
    TrimsEscaped code trimEnd ∧ (∀ c ∈ (trimEnd (escape code)).getLast?, ¬ isWhite c) ∧
    TrimsEscaped code trim := by
  refine ⟨⟨trimEnd (escape code), readsAsCode_trimEnd code, fun k => ?_⟩, ?_, ?_, ?_, ?_, ?_⟩
  · exact ⟨codeBlock code, rfl, rfl, rows_codeBlock code⟩
  · exact trimsEscaped_of_shorn (trimStart_escape code) (shorn_trimStart code)
  · exact trimStart_eq_self_iff.mp (trimStart_trimStart _)
  · exact trimsEscaped_of_shorn (trimEnd_escape code) (shorn_trimEnd code)
  · exact trimEnd_eq_self_iff.mp (trimEnd_trimEnd _)
  · exact trimsEscaped_of_shorn (trim_escape code) ((shorn_trimStart code).trans (shorn_trimEnd _))

/-- A hyphen and a backslash end the code, also with white space between them and behind. -/
example : ((convert (.codeBlock "\t- \n\r\n \\ \r\n\n".toList)).run 0).result =
    some ".nf\n\t\\- \n\r\n \\\\\n.fi".toList := by decide

end ManPage
