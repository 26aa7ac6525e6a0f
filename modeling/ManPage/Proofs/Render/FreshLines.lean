import ManPage.Proofs.Render.Inline
import ManPage.Proofs.Render.RunningText

/-! # Macros on lines of their own

A macro is read only at the start of a line. A link puts a line feed before each of its macros; the one
before the first of them is trimmed away if nothing stands before it in the node around the link. Where
this happens nowhere, and no string has a dot in it, every dot of a paragraph starts a line.
-/
namespace ManPage
open Text Fragment

/-- Every dot in the text is at its start or behind a line feed. -/
def Fresh (t : Text) : Prop := ∀ s r, t = s ++ '.' :: r → s = [] ∨ s.getLast? = some '\n'

/-- Every dot in the text is behind a line feed, so that any text may stand before it. -/
def Anchored (t : Text) : Prop := ∀ s r, t = s ++ '.' :: r → s.getLast? = some '\n'

section
variable {s t : Text}

theorem Anchored.fresh (h : Anchored t) : Fresh t := fun s r ht => Or.inr (h s r ht)

theorem Fresh.anchored (h : Fresh t) (hhead : t.head? ≠ some '.') : Anchored t := by
  rintro s r rfl
  rcases h s r rfl with rfl | hlast
  · exact absurd rfl hhead
  · exact hlast

theorem anchored_of_not_mem (h : '.' ∉ t) : Anchored t := by
  rintro s r rfl
  exact absurd (List.mem_append_right s List.mem_cons_self) h

theorem Anchored.append (hs : Anchored s) (ht : Anchored t) : Anchored (s ++ t) := by
  intro a r h
  rcases List.append_eq_append_iff.mp h with ⟨b, rfl, hb⟩ | ⟨b, hb, hr⟩
  · rw [List.getLast?_append, ht b r hb, Option.some_or]
  · cases b with
    | nil => exact absurd (ht [] r hr.symm) nofun
    | cons c b =>
      obtain ⟨rfl, -⟩ := List.cons.inj hr
      exact hs a b hb

theorem anchored_flatten {parts : List Text} (h : ∀ t ∈ parts, Anchored t) :
    Anchored parts.flatten := by
  induction parts with
  | nil => exact anchored_of_not_mem List.not_mem_nil
  | cons t parts ih =>
    rw [List.forall_mem_cons] at h
    exact h.1.append (ih h.2)

/-- White space that is taken from the ends may be the line feed before the first dot, and no other. -/
theorem Fresh.of_shorn (h : Fresh s) (hshorn : Shorn s t) : Fresh t := by
  obtain ⟨a, b, -, -, rfl⟩ := hshorn
  rintro s r rfl
  have hlast := h (a ++ s) (r ++ b) (by simp only [List.append_assoc, List.cons_append])
  rw [List.append_eq_nil_iff, List.getLast?_append] at hlast
  cases hs : s.getLast? with
  | none => exact Or.inl (List.getLast?_eq_none_iff.mp hs)
  | some c =>
    rw [hs, Option.some_or] at hlast
    rcases hlast with ⟨-, rfl⟩ | hlast
    · exact Or.inl rfl
    · exact Or.inr hlast

/-- A line may start with a dot. -/
theorem Fresh.lineFeed (hs : Fresh s) (ht : Fresh t) : Fresh (s ++ '\n' :: t) := by
  intro a r h
  rcases List.append_eq_append_iff.mp h with ⟨b, rfl, hb⟩ | ⟨b, hb, hr⟩
  · cases b with
    | nil => exact absurd (List.cons.inj hb).1 (by decide)
    | cons c b =>
      obtain ⟨rfl, hbelow⟩ := List.cons.inj hb
      right
      rcases ht b r hbelow with rfl | hlast
      · rw [List.getLast?_append]
        rfl
      · rw [List.getLast?_append, List.getLast?_cons, hlast]
        rfl
  · cases b with
    | nil => exact absurd (List.cons.inj hr).1 (by decide)
    | cons c b =>
      obtain ⟨rfl, -⟩ := List.cons.inj hr
      exact hs a b hb

theorem fresh_word (h : '.' ∉ t) : Fresh ('.' :: t) := by
  intro s r hs
  cases s with
  | nil => exact Or.inl rfl
  | cons c s =>
    obtain ⟨-, rfl⟩ := List.cons.inj hs
    exact absurd (List.mem_append_right s List.mem_cons_self) h

theorem anchored_line (h : '.' ∉ t) : Anchored ('\n' :: '.' :: t) := by
  have hempty : Fresh [] := (anchored_of_not_mem List.not_mem_nil).fresh
  refine (hempty.lineFeed (fresh_word h)).anchored ?_
  rw [List.nil_append, List.head?_cons]
  decide

end

/-! ## Fragments -/

theorem not_mem_escape {c : Char} (hc : c ≠ '\\') {t : Text} (h : c ∉ t) : c ∉ escape t := by
  rw [escape_eq]
  induction t with
  | nil => exact List.not_mem_nil
  | cons d t ih =>
    rw [List.mem_cons, not_or] at h
    have hrest := ih h.2
    rw [escapeEach]
    split
    · simp only [List.mem_cons, not_or]
      exact ⟨hc, h.1, hrest⟩
    · rw [List.mem_cons, not_or]
      exact ⟨h.1, hrest⟩

/-- With no dot in its address a link has none but those of its macros. -/
theorem anchored_link {href : Text} (h : '.' ∉ href) : Anchored (link href []) := by
  rcases link_nil_cases href with ⟨address, rfl, hlink⟩ | ⟨page, hpage, hlink⟩ | hlink
  · have haddress : '.' ∉ "MT ".toList ++ address := by
      rw [List.mem_append, not_or] at h ⊢
      exact ⟨by decide, h.2⟩
    rw [hlink]
    exact (anchored_line haddress).append (anchored_line (by decide))
  · have hname : '.' ∉ "BR ".toList ++ page := by
      rw [List.mem_append, not_or]
      exact ⟨by decide, fun hmem => absurd (hpage _ hmem) (by decide)⟩
    rw [hlink]
    exact anchored_line hname
  · have hhref : '.' ∉ "UR ".toList ++ href := by
      rw [List.mem_append, not_or]
      exact ⟨by decide, h⟩
    rw [hlink]
    exact (anchored_line hhref).append (anchored_line (by decide))

namespace Node

/-- No string of the node has a dot in it. -/
def IsUndotted (n : Node) : Prop := ∀ s ∈ n.strings, '.' ∉ s

/-- What stands in the node starts with a macro. -/
def IsLed (n : Node) : Prop := n.content.head? = some '.'

instance (n : Node) : Decidable n.IsUndotted :=
  inferInstanceAs (Decidable (∀ s ∈ n.strings, '.' ∉ s))

instance (n : Node) : Decidable n.IsLed :=
  inferInstanceAs (Decidable (n.content.head? = some '.'))

end Node

theorem fresh_inline {parts : List Text} (h : ∀ t ∈ parts, Anchored t) :
    Fresh (Fragment.inline parts) :=
  ((anchored_flatten h).fresh.of_shorn (shorn_trimStart _)).of_shorn (shorn_trimEnd _)

theorem anchored_fragment {n : Node}
    (h : EachVisited (fun m => m.kind.isInline ∧ m.IsUndotted ∧ ¬ m.IsLed) .all n) :
    Anchored n.fragment := by
  induction n using Node.induct with
  | h n ih =>
    obtain ⟨hinline, hundotted, hled⟩ := h.self
    have hcontent : Rule.below .all n = some .all → Anchored n.content := by
      intro hbelow
      have hparts : ∀ c ∈ n.children, Anchored c.fragment := fun c hc =>
        ih c hc (h.children hbelow c hc)
      exact (fresh_inline (List.forall_mem_map.mpr hparts)).anchored hled
    have hspan {opening t : Text} (hopening : '.' ∉ opening) (ht : Anchored t)
        {closing : Text} (hclosing : '.' ∉ closing) : Anchored (opening ++ t ++ closing) :=
      ((anchored_of_not_mem hopening).append ht).append (anchored_of_not_mem hclosing)
    cases n with
    | text value | abbreviation value =>
      have hvalue : '.' ∉ value := hundotted value List.mem_cons_self
      exact anchored_of_not_mem (not_mem_escape (by decide) hvalue)
    | typographic symbol =>
      apply anchored_of_not_mem
      cases symbol <;> decide
    | quote symbol =>
      apply anchored_of_not_mem
      cases symbol <;> decide
    | codeSpan value =>
      have hvalue : '.' ∉ value := hundotted value List.mem_cons_self
      exact hspan (by decide) (anchored_of_not_mem hvalue) (by decide)
    | emphasis children =>
      rw [fragment_emphasis]
      exact hspan (by decide) (hcontent rfl) (by decide)
    | strong children =>
      rw [fragment_strong]
      exact hspan (by decide) (hcontent rfl) (by decide)
    | link href children =>
      have hlink := anchored_link (hundotted href List.mem_cons_self)
      obtain ⟨shown, hshown, heq⟩ := link_eq href (Node.link href children).content
      rw [fragment_link, heq]
      rcases hshown with rfl | rfl
      · exact (hcontent rfl).append hlink
      · exact hlink
    | _ => contradiction

theorem fresh_definition {term value rest : Text} (hterm : Fresh term) (hvalue : '.' ∉ value)
    (hrest : Fresh rest) : Fresh (definition term value rest) := by
  have hword : Fresh ".TP".toList := fresh_word (by decide)
  have hescaped : Fresh (escape value) :=
    (anchored_of_not_mem (not_mem_escape (by decide) hvalue)).fresh
  have hlines := ((hword.lineFeed hterm).lineFeed (hescaped.of_shorn (shorn_trimStart _))).lineFeed
    hrest
  exact hlines.of_shorn (shorn_trimEnd _)

theorem fresh_parts {children : List Node} {parts : List Text}
    (hparts : ∀ t ∈ parts, Anchored t) (hundotted : ∀ c ∈ children, c.IsUndotted) :
    Fresh (paragraph children parts) := by
  rw [paragraph]
  cases hdescription : description? children with
  | none =>
    have hword : Fresh ".PP".toList := fresh_word (by decide)
    exact hword.lineFeed (fresh_inline hparts)
  | some value =>
    obtain ⟨term, rest, rfl, -⟩ := description?_eq_some hdescription
    have hvalue : '.' ∉ value :=
      hundotted _ (List.mem_cons_of_mem _ List.mem_cons_self) value List.mem_cons_self
    have hterm : Fresh (parts.headD []) := by
      cases parts with
      | nil => exact (anchored_of_not_mem List.not_mem_nil).fresh
      | cons t parts => exact (hparts t List.mem_cons_self).fresh
    exact fresh_definition hterm hvalue (fresh_inline fun t ht => hparts t (List.mem_of_mem_drop ht))

/-! ## Paragraphs -/

/-- Where no macro stands at the start of emphasis, strong text or a link, each has a line of its own. -/
theorem fresh_paragraph {children : List Node} (hinline : ∀ c ∈ children, c.IsInlineTree)
    (hundotted : ∀ c ∈ children, EachVisited Node.IsUndotted .all c)
    (hled : ∀ c ∈ children, EachVisited (¬ ·.IsLed) .all c) (k : Nat) :
    ∃ t, ((convert (.paragraph children)).run k).result = some t ∧ Fresh t := by
  refine ⟨_, (gives_paragraph hinline k).1, fresh_parts ?_ fun c hc => (hundotted c hc).self⟩
  rw [List.forall_mem_map]
  intro c hc
  exact anchored_fragment fun v hv => ⟨hinline c hc v hv, hundotted c hc v hv, hled c hc v hv⟩

def nestedLinks : List Node :=
  [.link "man:ls(1)".toList [.text "ls".toList],
   .strong [.text "or ".toList, .emphasis [.text "see ".toList,
     .link "https://x/".toList [.text "x, ".toList, .link "mailto:a@b".toList []]]]]

theorem fresh_paragraph_nestedLinks :
    (∀ c ∈ nestedLinks, c.IsInlineTree) ∧
    (∀ c ∈ nestedLinks, EachVisited Node.IsUndotted .all c) ∧
    (∀ c ∈ nestedLinks, EachVisited (¬ ·.IsLed) .all c) ∧
    ∃ t, ((convert (.paragraph nestedLinks)).run 0).result = some t ∧ Fresh t := by
  have hinline : ∀ c ∈ nestedLinks, c.IsInlineTree := by decide
  have hundotted : ∀ c ∈ nestedLinks, EachVisited Node.IsUndotted .all c := by decide
  have hled : ∀ c ∈ nestedLinks, EachVisited (¬ ·.IsLed) .all c := by decide
  exact ⟨hinline, hundotted, hled, fresh_paragraph hinline hundotted hled 0⟩

/-- The reference to a page is all that is in the emphasis. -/
def ledEmphasis : List Node :=
  [.text "See ".toList, .emphasis [.link "man:ls(1)".toList [.text "ls".toList]]]

/-- A macro may stand in the middle of a line, though no string has a dot in it. -/
theorem not_fresh_paragraph : ¬ ∀ children : List Node, (∀ c ∈ children, c.IsInlineTree) →
    (∀ c ∈ children, EachVisited Node.IsUndotted .all c) →
    ∀ k t, ((convert (.paragraph children)).run k).result = some t → Fresh t := by
  intro h
  have hresult : ((convert (.paragraph ledEmphasis)).run 0).result =
      some (".PP\nSee \\fI".toList ++ '.' :: "BR ls (1)\\fP".toList) := by decide
  have hfresh := h ledEmphasis (by decide) (by decide) 0 _ hresult _ _ rfl
  exact absurd hfresh (by decide)

end ManPage
