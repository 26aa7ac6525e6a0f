import ManPage.Proofs.Render.Children
import ManPage.Proofs.Text.Unescape

/-! # Definitions

A paragraph that starts with emphasis or code and goes on with an indented text is a definition: its term,
its description and the rest each have a line, and the whole is trimmed at its end. A term ends with a font
change, so that the trim never comes to it. What the trim takes is the line of a rest that is empty, with
the white space at the end of the description in front of it, and the line of a description that is empty
as well.
-/
namespace ManPage

/-! ## Ends of texts -/

namespace Text

/-- The last character of the text is there, and is no white space. -/
def EndsBlack (t : Text) : Prop := ∃ s c, t = s ++ [c] ∧ ¬ isWhite c

section
variable {s t : Text}

theorem EndsBlack.before (h : EndsBlack t) (s : Text) : EndsBlack (s ++ t) := by
  obtain ⟨r, c, rfl, hc⟩ := h
  exact ⟨s ++ r, c, (List.append_assoc ..).symm, hc⟩

theorem EndsBlack.trimEnd_eq (h : EndsBlack t) : trimEnd t = t := by
  obtain ⟨r, c, rfl, hc⟩ := h
  exact trimEnd_concat hc r

/-- A trim goes no further than the last character that is no white space. -/
theorem EndsBlack.trimEnd_append (h : EndsBlack s) (t : Text) : trimEnd (s ++ t) = s ++ trimEnd t := by
  by_cases hwhite : t.all isWhite
  · rw [trimEnd_append_of_all hwhite, trimEnd_of_all hwhite, h.trimEnd_eq, List.append_nil]
  · exact trimEnd_append_of_not_all hwhite s

theorem endsBlack_trimEnd (h : ¬ t.all isWhite) : EndsBlack (trimEnd t) := by
  induction t using List.reverseRecOn with
  | nil => exact absurd rfl h
  | append_singleton t c ih =>
    by_cases hc : isWhite c
    · have hlast : [c].all isWhite := by
        rw [List.all_cons, hc]
        rfl
      rw [List.all_append, hlast, Bool.and_true] at h
      rw [trimEnd_append_of_all hlast]
      exact ih h
    · exact ⟨t, c, trimEnd_concat hc t, hc⟩

theorem not_all_trimStart (h : trimStart t ≠ []) : ¬ (trimStart t).all isWhite := by
  intro hall
  obtain ⟨s, hs, ht⟩ := exists_trimStart t
  apply h
  apply trimStart_of_all
  rw [ht, List.all_append, hs, hall]
  rfl

theorem endsBlack_trim (h : trim t ≠ []) : EndsBlack (trim t) := by
  apply endsBlack_trimEnd
  apply not_all_trimStart
  intro hnil
  rw [trim, hnil] at h
  exact h rfl

end

end Text

open Text Fragment

/-! ## The shape of a definition -/

/-- A term, an indented text that describes it, and what follows. -/
structure Definition where
  term : Node
  value : Text
  rest : List Node
  isTerm : term.kind = .emphasis ∨ term.kind = .codeSpan
  indented : "  ".toList <+: value ∨ "\t".toList <+: value

namespace Definition

def children (d : Definition) : List Node := d.term :: .text d.value :: d.rest

/-- The description as it is written, in front of more text. -/
def description (d : Definition) : Text := trimStart (escape d.value)

/-- The running text behind the description, where `k` lists come before the term. -/
def remainder (d : Definition) (k : Nat) : Text :=
  Fragment.inline ((convertAll d.rest).run ((convert d.term).run k).lists).result

theorem eq_of_children {d e : Definition} (h : d.children = e.children) : d = e := by
  obtain ⟨term, value, rest, _, _⟩ := d
  obtain ⟨term', value', rest', _, _⟩ := e
  obtain ⟨rfl, hmore⟩ := List.cons.inj h
  obtain ⟨hvalue, rfl⟩ := List.cons.inj hmore
  obtain rfl := Node.text.inj hvalue
  rfl

end Definition

theorem isIndented_iff {t : Text} : isIndented t ↔ "  ".toList <+: t ∨ "\t".toList <+: t := by
  constructor
  · intro h
    unfold isIndented at h
    split at h
    · exact Or.inl ⟨_, rfl⟩
    · exact Or.inr ⟨_, rfl⟩
    · contradiction
  · rintro (⟨r, rfl⟩ | ⟨r, rfl⟩) <;> rfl

theorem description?_children (d : Definition) : description? d.children = some d.value := by
  obtain ⟨term, value, rest, hterm, hindented⟩ := d
  have hvalue := isIndented_iff.mpr hindented
  cases term with
  | emphasis inside => exact if_pos hvalue
  | codeSpan code => exact if_pos hvalue
  | _ => rcases hterm with h | h <;> contradiction

theorem exists_definition {children : List Node} {value : Text} (h : description? children = some value) :
    ∃ d : Definition, d.children = children ∧ d.value = value := by
  obtain ⟨term, rest, rfl, hterm⟩ := description?_eq_some h
  have hindented : isIndented value := by
    rcases hterm with ⟨inside, rfl⟩ | ⟨code, rfl⟩ <;> exact (Option.ite_none_right_eq_some.mp h).1
  have hkind : term.kind = .emphasis ∨ term.kind = .codeSpan := by
    rcases hterm with ⟨inside, rfl⟩ | ⟨code, rfl⟩
    · exact Or.inl rfl
    · exact Or.inr rfl
  exact ⟨⟨term, value, rest, hkind, isIndented_iff.mp hindented⟩, rfl, rfl⟩

/-! ## The fragment of a definition -/

section
variable {term d r : Text}

theorem endsBlack_emphasis (body : Text) : EndsBlack (emphasis body) :=
  EndsBlack.before ⟨"\\f".toList, 'P', rfl, by decide⟩ _

theorem endsBlack_codeSpan (value : Text) : EndsBlack (codeSpan value) :=
  EndsBlack.before ⟨"\\f".toList, 'R', rfl, by decide⟩ _

theorem definition_eq_append (hterm : EndsBlack term) (value rest : Text) :
    definition term value rest =
      ".TP\n".toList ++ term ++ trimEnd ('\n' :: trimStart (escape value) ++ '\n' :: rest) := by
  rw [definition, List.append_assoc]
  exact (hterm.before _).trimEnd_append _

/-- The rest ends the trim if there is one. -/
theorem trimEnd_lines_of_rest (h : EndsBlack r) :
    trimEnd ('\n' :: d ++ '\n' :: r) = '\n' :: d ++ '\n' :: r := by
  have hrest : EndsBlack ('\n' :: r) := h.before ['\n']
  exact (hrest.before _).trimEnd_eq

/-- The line of an empty rest is trimmed, and with it the end of the description. -/
theorem trimEnd_lines_nil (h : ¬ d.all isWhite) :
    trimEnd ('\n' :: d ++ ['\n']) = '\n' :: trimEnd d := by
  have hline : ['\n'].all isWhite := by decide
  rw [trimEnd_append_of_all hline]
  exact trimEnd_append_of_not_all h ['\n']

end

theorem exists_convert_term (d : Definition) (k : Nat) :
    ∃ term, ((convert d.term).run k).result = some term ∧ EndsBlack term := by
  obtain ⟨term, value, rest, hterm, hindented⟩ := d
  cases term with
  | emphasis inside => exact ⟨_, rfl, endsBlack_emphasis _⟩
  | codeSpan code => exact ⟨_, rfl, endsBlack_codeSpan code⟩
  | _ => rcases hterm with h | h <;> contradiction

/-- A definition is put together from its term, its description and the rest. -/
theorem convert_definition (d : Definition) {k : Nat} {term : Text}
    (h : ((convert d.term).run k).result = some term) :
    ((convert (.paragraph d.children)).run k).result =
      some (definition term d.value (d.remainder k)) := by
  have hresult : ((convert (.paragraph d.children)).run k).result =
      some (paragraph d.children ((convertAll d.children).run k).result) := rfl
  have htext (lists : Nat) : ((convert (.text d.value)).run lists).result = some (escape d.value) := rfl
  rw [hresult, paragraph, description?_children, Definition.children, result_convertAll_cons,
    result_convertAll_cons, h, htext]
  rfl

theorem convert_paragraph_plain {children : List Node} (h : ¬ ∃ d : Definition, d.children = children)
    (k : Nat) : ((convert (.paragraph children)).run k).result =
      some (".PP\n".toList ++ Fragment.inline ((convertAll children).run k).result) := by
  have hresult : ((convert (.paragraph children)).run k).result =
      some (paragraph children ((convertAll children).run k).result) := rfl
  rw [hresult, paragraph]
  cases hdescription : description? children with
  | none => rfl
  | some value =>
    obtain ⟨d, hd, -⟩ := exists_definition hdescription
    exact absurd ⟨d, hd⟩ h

theorem definition_cases {term : Text} (hterm : EndsBlack term) (d : Definition) (k : Nat) :
    (d.remainder k ≠ [] → definition term d.value (d.remainder k) =
      ".TP\n".toList ++ term ++ '\n' :: d.description ++ '\n' :: d.remainder k) ∧
    (d.remainder k = [] → d.description ≠ [] → definition term d.value (d.remainder k) =
      ".TP\n".toList ++ term ++ '\n' :: trimEnd d.description) ∧
    (d.remainder k = [] → d.description = [] → definition term d.value (d.remainder k) =
      ".TP\n".toList ++ term) := by
  rw [definition_eq_append hterm, ← Definition.description]
  refine ⟨?_, ?_, ?_⟩
  · intro hrest
    have hblack : EndsBlack (d.remainder k) := endsBlack_trim hrest
    rw [trimEnd_lines_of_rest hblack, List.append_assoc _ ('\n' :: d.description)]
  · intro hrest hdescription
    have hblack : ¬ d.description.all isWhite := not_all_trimStart hdescription
    rw [hrest, trimEnd_lines_nil hblack]
  · intro hrest hdescription
    have hlines : trimEnd (['\n'] ++ '\n' :: []) = [] := trimEnd_of_all (by decide)
    rw [hrest, hdescription, hlines, List.append_nil]

theorem endsBlack_definition (term value rest : Text) : EndsBlack (definition term value rest) := by
  apply endsBlack_trimEnd
  intro hall
  rw [List.append_assoc, List.append_assoc, List.all_append, Bool.and_eq_true] at hall
  exact Bool.false_ne_true hall.1

/-! ## Paragraphs -/

/-- A paragraph opens with `.TP` if its children have the shape of a definition, and with `.PP` otherwise.
A definition keeps its term as it is, whatever is in it. The rest stands on a line of its own below the
description, which then has all of its white space at the end; if there is no rest the description is
trimmed, and if there is no description either the term is the last of the lines. The description is the
text without the white space in front of it, and white space is never the end of a definition. -/
theorem convert_paragraph (children : List Node) (k : Nat) :
    ∃ fragment, ((convert (.paragraph children)).run k).result = some fragment ∧
      (".TP\n".toList <+: fragment ↔ ∃ d : Definition, d.children = children) ∧
      (".PP\n".toList <+: fragment ↔ ¬ ∃ d : Definition, d.children = children) ∧
      ∀ d : Definition, d.children = children →
        ∃ term, ((convert d.term).run k).result = some term ∧
          (d.remainder k ≠ [] → fragment =
            ".TP\n".toList ++ term ++ '\n' :: d.description ++ '\n' :: d.remainder k) ∧
          (d.remainder k = [] → d.description ≠ [] → fragment =
            ".TP\n".toList ++ term ++ '\n' :: trimEnd d.description) ∧
          (d.remainder k = [] → d.description = [] → fragment = ".TP\n".toList ++ term) ∧
          unescape d.description = trimStart d.value ∧
          ".TP\n".toList ++ term <+: fragment ∧ EndsBlack fragment := by
  by_cases hshape : ∃ d : Definition, d.children = children
  · obtain ⟨d, rfl⟩ := hshape
    obtain ⟨term, hterm, hblack⟩ := exists_convert_term d k
    have hkept := definition_eq_append hblack d.value (d.remainder k)
    refine ⟨_, convert_definition d hterm, ?_, ?_, ?_⟩
    · rw [hkept, List.append_assoc]
      exact iff_of_true (List.prefix_append ..) ⟨d, rfl⟩
    · rw [hkept, List.append_assoc]
      exact iff_of_false (by rintro ⟨r, hr⟩; cases hr) (absurd ⟨d, rfl⟩)
    · intro e he
      obtain rfl := Definition.eq_of_children he
      obtain ⟨hrest, hdescription, hnone⟩ := definition_cases hblack e k
      refine ⟨term, hterm, hrest, hdescription, hnone, ?_, ?_, endsBlack_definition ..⟩
      · rw [Definition.description, escape_eq, trimStart_escapeEach, unescape_escapeEach]
      · rw [hkept]
        exact List.prefix_append ..
  · refine ⟨_, convert_paragraph_plain hshape k, ?_, ?_, ?_⟩
    · exact iff_of_false (by rintro ⟨r, hr⟩; cases hr) hshape
    · exact iff_of_true (List.prefix_append ..) hshape
    · intro d hd
      exact absurd ⟨d, hd⟩ hshape

/-- White space is kept in the term and in front of the rest, and none is left where the rest is empty. -/
example :
    ((convert (.paragraph [.codeSpan "-v ".toList, .text "\t a- ".toList, .strong []])).run 0).result =
      some ".TP\n\\fB\\fC-v \\fR\na\\- \n\\fB\\fP".toList ∧
    ((convert (.paragraph [.codeSpan "-v ".toList, .text "\t a- ".toList, .text " ".toList])).run 0).result =
      some ".TP\n\\fB\\fC-v \\fR\na\\-".toList := by decide

end ManPage
