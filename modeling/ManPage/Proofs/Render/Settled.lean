import ManPage.Proofs.Render.RunningText

/-! # Rows that show no register

If no string that is written as it is has a backslash, the escapes of a row are those of texts, fonts and
rules, and none of them shows a number register with a name in brackets.
-/
namespace ManPage
open Text Fragment

/-- A register is shown by its name in brackets, unless the row has ended in a comment before. -/
def showsRegister : Text → Bool
  | '\\' :: '"' :: _ => false
  | '\\' :: 'n' :: '[' :: _ => true
  | '\\' :: 'n' :: '+' :: '[' :: _ => true
  | '\\' :: 'n' :: '-' :: '[' :: _ => true
  | '\\' :: _ :: t => showsRegister t
  | _ :: t => showsRegister t
  | [] => false

/-- A row whose escapes are known, none of which shows a register with a name in brackets. -/
inductive Settled : Text → Prop
  | nil : Settled []
  | plain {c : Char} {t : Text} (hc : c ≠ '\\') (h : Settled t) : Settled (c :: t)
  | escaped {c : Char} {t : Text} (hc : c ≠ 'n' ∧ c ≠ '"' ∧ isWhite c = false) (h : Settled t) :
    Settled ('\\' :: c :: t)
  | short {t : Text} (h : Settled t) : Settled ('\\' :: 'n' :: '(' :: t)
  | comment (t : Text) : Settled ('\\' :: '"' :: t)

theorem Settled.showsRegister_eq_false {t : Text} (h : Settled t) : showsRegister t = false := by
  induction h with
  | nil => rfl
  | plain hc h ih =>
    rw [showsRegister]
    · exact ih
    all_goals
      intros
      contradiction
  | escaped hc h ih =>
    obtain ⟨hn, hquote, -⟩ := hc
    rw [showsRegister]
    · exact ih
    all_goals
      intros
      contradiction
  | short h ih => exact ih
  | comment t => rfl

theorem settled_of_not_mem {t : Text} (h : '\\' ∉ t) : Settled t := by
  induction t with
  | nil => exact .nil
  | cons c t ih =>
    rw [List.mem_cons, not_or] at h
    exact .plain (Ne.symm h.1) (ih h.2)

theorem settled_escapeEach (t : Text) : Settled (escapeEach t) := by
  have hescaped : ∀ c, needsEscape c → c ≠ 'n' ∧ c ≠ '"' ∧ isWhite c = false := by
    intro c hc
    rw [needsEscape_iff] at hc
    rcases hc with rfl | rfl <;> decide
  induction t with
  | nil => exact .nil
  | cons c t ih =>
    rw [escapeEach]
    split
    · exact .escaped (hescaped c ‹_›) ih
    · rename_i hc
      refine .plain ?_ ih
      rintro rfl
      exact hc rfl

/-- White space at the ends of a row is no part of an escape. -/
theorem rowLaw_settled : RowLaw Settled where
  nil := .nil
  append hs ht := by
    induction hs with
    | nil => exact ht
    | plain hc h ih => exact .plain hc ih
    | escaped hc h ih => exact .escaped hc ih
    | short h ih => exact .short ih
    | comment t => exact .comment _
  of_white_append {a t} ha h := by
    induction a with
    | nil => exact h
    | cons c a ih =>
      rw [List.all_cons, Bool.and_eq_true] at ha
      have hc : c ≠ '\\' := ne_of_isWhite ha.1 (by decide)
      apply ih ha.2
      rw [List.cons_append] at h
      generalize a ++ t = rest at h
      cases h with
      | plain hc h => exact h
      | _ => contradiction
  of_append_white {t b} hb h := by
    generalize hwhole : t ++ b = whole at h
    induction h generalizing t with
    | nil =>
      obtain ⟨rfl, -⟩ := List.append_eq_nil_iff.mp hwhole
      exact .nil
    | plain hc h ih =>
      cases t with
      | nil => exact .nil
      | cons d t =>
        obtain ⟨rfl, hrest⟩ := List.cons.inj hwhole
        exact .plain hc (ih hrest)
    | escaped hc h ih =>
      obtain ⟨_, rfl, hfirst⟩ := exists_cons_of_append_white hb (by decide) hwhole
      obtain ⟨_, rfl, hrest⟩ := exists_cons_of_append_white hb hc.2.2 hfirst
      exact .escaped hc (ih hrest)
    | short h ih =>
      obtain ⟨_, rfl, hfirst⟩ := exists_cons_of_append_white hb (by decide) hwhole
      obtain ⟨_, rfl, hsecond⟩ := exists_cons_of_append_white hb (by decide) hfirst
      obtain ⟨_, rfl, hrest⟩ := exists_cons_of_append_white hb (by decide) hsecond
      exact .short (ih hrest)
    | comment r =>
      obtain ⟨_, rfl, hfirst⟩ := exists_cons_of_append_white hb (by decide) hwhole
      obtain ⟨t, rfl, -⟩ := exists_cons_of_append_white hb (by decide) hfirst
      exact .comment t

theorem settled_font {c : Char} (h : c ≠ '\\') : Settled ['\\', 'f', c] :=
  .escaped (by decide) (.plain h .nil)

theorem settled_comment (t : Text) : Settled (".\\\"".toList ++ t) :=
  .plain (by decide) (.comment t)

theorem settled_plainMacros : ∀ t ∈ plainMacros, Settled t := by
  rw [plainMacros, List.forall_mem_append]
  constructor
  · simp only [List.forall_mem_cons]
    exact ⟨settled_of_not_mem (by decide), settled_of_not_mem (by decide), settled_font (by decide),
      settled_font (by decide), settled_font (by decide), nofun⟩
  · have hbanner : ∀ l ∈ rows bannerLines, l.take 3 = ".\\\"".toList := by decide
    intro l hl
    rw [← List.take_append_drop 3 l, hbanner l hl]
    exact settled_comment _

/-! ## The rows of a node -/

theorem eachRow_settled_of_not_mem {t : Text} (h : '\\' ∉ t) : EachRow Settled t := by
  intro l hl
  apply settled_of_not_mem
  intro hmem
  exact h (mem_of_mem_rows hl _ hmem)

theorem not_mem_link {href : Text} (h : '\\' ∉ href) : '\\' ∉ link href [] := by
  rcases link_nil_cases href with ⟨address, rfl, hlink⟩ | ⟨page, hpage, hlink⟩ | hlink
  · rw [List.mem_append, not_or] at h
    rw [hlink]
    simp only [List.mem_cons, List.mem_append, not_or]
    exact ⟨by decide, ⟨by decide, h.2⟩, by decide, by decide⟩
  · have hblack : '\\' ∉ page := fun hmem => absurd (hpage _ hmem) (by decide)
    rw [hlink]
    simp only [List.mem_cons, List.mem_append, not_or]
    exact ⟨by decide, by decide, hblack⟩
  · rw [hlink]
    simp only [List.mem_cons, List.mem_append, not_or]
    exact ⟨by decide, ⟨by decide, h⟩, by decide, by decide⟩

theorem settled_own {n : Node} (h : ∀ s ∈ n.rawStrings, '\\' ∉ s) : EachRow Settled (own n) := by
  have hescape (t : Text) : EachRow Settled (escape t) := by
    rw [escape_eq, EachRow, rows_escapeEach, List.forall_mem_map]
    exact fun l _ => settled_escapeEach l
  have hrow {t : Text} (hline : '\n' ∉ t) (ht : Settled t) : EachRow Settled t :=
    (eachRow_of_not_mem hline).mpr ht
  cases n with
  | blank => exact eachRow_settled_of_not_mem (by decide)
  | text value | abbreviation value | codeBlock value => exact hescape value
  | typographic symbol => exact eachRow_settled_of_not_mem symbol.not_mem_glyph
  | quote symbol => exact eachRow_settled_of_not_mem symbol.not_mem_glyph
  | header level rawText _ =>
    have hword : '\\' ∉ headerMacro level := by
      unfold headerMacro
      split
      · decide
      · split <;> decide
    apply eachRow_settled_of_not_mem
    rw [own, header, List.mem_append, List.mem_cons, not_or, not_or]
    exact ⟨hword, by decide, h rawText List.mem_cons_self⟩
  | rule =>
    have hline : Settled "\\l'\\n(.lu'".toList :=
      .escaped (by decide) (.plain (by decide) (.short (settled_of_not_mem (by decide))))
    have hindent : EachRow Settled ".ti 0".toList := eachRow_settled_of_not_mem (by decide)
    exact eachRow_lineFeed.mpr ⟨hindent, hrow (by decide) hline⟩
  | comment value => exact eachRow_comment rowLaw_settled settled_comment value
  | codeSpan value =>
    have hopening : EachRow Settled "\\fB\\fC".toList :=
      hrow (by decide) (.escaped (by decide) (.plain (by decide) (settled_font (by decide))))
    have hclosing : EachRow Settled "\\fR".toList := hrow (by decide) (settled_font (by decide))
    have hvalue := eachRow_settled_of_not_mem (h value List.mem_cons_self)
    exact (hopening.append rowLaw_settled hvalue).append rowLaw_settled hclosing
  | link href _ => exact eachRow_settled_of_not_mem (not_mem_link (h href List.mem_cons_self))
  | _ => exact eachRow_nil rowLaw_settled

end ManPage
