import ManPage.Proofs.Render.Placement
import ManPage.Proofs.Render.RunningText

/-! # Fonts

A page is read with two fonts in mind, the current one and the one before it, which `\fP` exchanges. A
span with no span inside it leaves the current font as it was. Emphasis and strong text with a span inside
do not: the font outside is forgotten at the second change, and `\fP` goes back to a font of the inside.
Code always leaves the roman font behind.
-/
namespace ManPage
open Text Fragment

inductive Face
  | roman | italic | bold | constant
deriving DecidableEq, Repr, Inhabited

def Face.ofLetter? : Char → Option Face
  | 'R' => some .roman
  | 'I' => some .italic
  | 'B' => some .bold
  | 'C' => some .constant
  | _ => none

structure Fonts where
  current : Face
  previous : Face
deriving DecidableEq, Repr, Inhabited

namespace Fonts

def switch (f : Fonts) (face : Face) : Fonts := ⟨face, f.current⟩

def back (f : Fonts) : Fonts := ⟨f.previous, f.current⟩

end Fonts

/-- How far a page has been read: up to a whole character, or into an escape. A reader that has met an
escape that is none of those known is lost. -/
inductive FontReader
  | whole (f : Fonts)
  | escape (f : Fonts)
  | font (f : Fonts)
  | lost
deriving DecidableEq, Repr, Inhabited

namespace FontReader

def step : FontReader → Char → FontReader
  | whole f, c => if c = '\\' then escape f else whole f
  | escape f, c => if needsEscape c then whole f else if c = 'f' then font f else lost
  | font f, c =>
    match Face.ofLetter? c with
    | some face => whole (f.switch face)
    | none => if c = 'P' then whole f.back else lost
  | lost, _ => lost

def run (r : FontReader) (t : Text) : FontReader := t.foldl step r

theorem run_append (r : FontReader) (s t : Text) : r.run (s ++ t) = (r.run s).run t :=
  List.foldl_append

theorem run_whole {t : Text} (h : '\\' ∉ t) (f : Fonts) : (whole f).run t = whole f := by
  induction t with
  | nil => rfl
  | cons c t ih =>
    rw [List.mem_cons, not_or] at h
    have hstep : (whole f).step c = whole f := if_neg (Ne.symm h.1)
    rw [run, List.foldl_cons, hstep]
    exact ih h.2

theorem step_white {r : FontReader} {c : Char} (hc : isWhite c) : r.step c = r ∨ r.step c = lost := by
  have hplain : c ≠ '\\' := ne_of_isWhite hc (by decide)
  have hfont : c ≠ 'f' := ne_of_isWhite hc (by decide)
  have hback : c ≠ 'P' := ne_of_isWhite hc (by decide)
  cases r with
  | whole f => exact Or.inl (if_neg hplain)
  | escape f =>
    have hescape : ¬ needsEscape c := fun h => not_isWhite_of_needsEscape h hc
    right
    rw [step, if_neg hescape, if_neg hfont]
  | font f =>
    have hletter : Face.ofLetter? c = none := by
      unfold Face.ofLetter?
      split <;> first | rfl | exact absurd hc (by decide)
    right
    rw [step, hletter]
    exact if_neg hback
  | lost => exact Or.inr rfl

/-- White space leaves the reading as it is, or the reader is lost. -/
theorem eq_of_run_white {r : FontReader} {f : Fonts} {t : Text} (ht : t.all isWhite)
    (h : r.run t = whole f) : r = whole f := by
  induction t generalizing r with
  | nil => exact h
  | cons c t ih =>
    rw [List.all_cons, Bool.and_eq_true] at ht
    have hstep := ih ht.2 h
    rcases step_white (r := r) ht.1 with hsame | hlost
    · rwa [hsame] at hstep
    · rw [hlost] at hstep
      contradiction

end FontReader

/-- The text has whole escapes only, and changes the fonts from the ones to the others. -/
def Turns (t : Text) (f g : Fonts) : Prop := (FontReader.whole f).run t = .whole g

section
variable {s t : Text} {f g h : Fonts}

theorem turns_nil (f : Fonts) : Turns [] f f := rfl

theorem turns_of_not_mem (ht : '\\' ∉ t) (f : Fonts) : Turns t f f := FontReader.run_whole ht f

theorem Turns.append (hs : Turns s f g) (ht : Turns t g h) : Turns (s ++ t) f h := by
  rw [Turns, FontReader.run_append, hs]
  exact ht

theorem Turns.unique (hg : Turns t f g) (hh : Turns t f h) : g = h := by
  rw [Turns, hg] at hh
  exact FontReader.whole.inj hh

theorem turns_escape (t : Text) (f : Fonts) : Turns (Text.escape t) f f := by
  rw [escape_eq]
  induction t with
  | nil => rfl
  | cons c t ih =>
    rw [escapeEach]
    split
    · rename_i hc
      have hstep : ((FontReader.whole f).step '\\').step c = .whole f := if_pos hc
      rw [Turns, FontReader.run, List.foldl_cons, List.foldl_cons, hstep]
      exact ih
    · rename_i hc
      have hplain : c ≠ '\\' := by
        rintro rfl
        contradiction
      have hstep : (FontReader.whole f).step c = .whole f := if_neg hplain
      rw [Turns, FontReader.run, List.foldl_cons, hstep]
      exact ih

/-- No escape is lost with white space that is taken from the ends. -/
theorem Turns.of_shorn (ht : Turns s f g) (hshorn : Shorn s t) : Turns t f g := by
  obtain ⟨a, b, ha, hb, rfl⟩ := hshorn
  have hblack : '\\' ∉ a := fun hmem => absurd (List.all_eq_true.mp ha _ hmem) (by decide)
  rw [Turns, FontReader.run_append, FontReader.run_whole hblack, FontReader.run_append] at ht
  exact FontReader.eq_of_run_white hb ht

end

/-! ## Trees -/

mutual

/-- The fonts behind the fragment of the node. -/
def Node.turn : Node → Fonts → Fonts
  | .emphasis children, f => (turnAll children (f.switch .italic)).back
  | .strong children, f => (turnAll children (f.switch .bold)).back
  | .codeSpan _, f => ((f.switch .bold).switch .constant).switch .roman
  | _, f => f

def turnAll : List Node → Fonts → Fonts
  | [], f => f
  | n :: ns, f => turnAll ns (n.turn f)

end

namespace Node

/-- The font of what stands directly in the node. -/
def face : Node → Face
  | emphasis _ => .italic
  | strong _ => .bold
  | _ => .roman

/-- Emphasis or strong text with nothing but text and symbols in it. -/
def IsPlainSpan (n : Node) : Prop :=
  (n.kind = .emphasis ∨ n.kind = .strong) ∧ ∀ c ∈ n.children, ¬ c.kind.setsFont

/-- The nodes behind which the font is the current one again. -/
def Restores (n : Node) (face : Face) : Prop :=
  ¬ n.kind.setsFont ∨ n.IsPlainSpan ∨ n.kind = .codeSpan ∧ face = .roman

/-- There is no backslash in what is written without escapes. -/
def IsClean (n : Node) : Prop := ∀ s ∈ n.rawStrings, '\\' ∉ s

instance (n : Node) : Decidable n.IsPlainSpan := inferInstanceAs
  (Decidable ((n.kind = .emphasis ∨ n.kind = .strong) ∧ ∀ c ∈ n.children, ¬ c.kind.setsFont))

instance (n : Node) (face : Face) : Decidable (n.Restores face) := inferInstanceAs
  (Decidable (¬ n.kind.setsFont ∨ n.IsPlainSpan ∨ n.kind = .codeSpan ∧ face = .roman))

instance (n : Node) : Decidable n.IsClean :=
  inferInstanceAs (Decidable (∀ s ∈ n.rawStrings, '\\' ∉ s))

end Node

theorem turn_of_span {n : Node} (h : n.kind = .emphasis ∨ n.kind = .strong) (f : Fonts) :
    n.turn f = (turnAll n.children (f.switch n.face)).back := by
  cases n with
  | emphasis _ | strong _ => rfl
  | _ => rcases h with h | h <;> contradiction

theorem turn_of_not_setsFont {n : Node} (h : ¬ n.kind.setsFont) (f : Fonts) : n.turn f = f := by
  cases n <;> first | rfl | exact absurd rfl h

theorem turnAll_of_not_setsFont {ns : List Node} (h : ∀ n ∈ ns, ¬ n.kind.setsFont) (f : Fonts) :
    turnAll ns f = f := by
  induction ns with
  | nil => rfl
  | cons n ns ih =>
    rw [List.forall_mem_cons] at h
    rw [turnAll, turn_of_not_setsFont h.1]
    exact ih h.2

theorem current_turn {n : Node} {f : Fonts} (h : n.Restores f.current) :
    (n.turn f).current = f.current := by
  rcases h with hplain | ⟨hkind, hchildren⟩ | ⟨hkind, hroman⟩
  · rw [turn_of_not_setsFont hplain]
  · rw [turn_of_span hkind, turnAll_of_not_setsFont hchildren]
    rfl
  · cases n with
    | codeSpan value => exact hroman.symm
    | _ => contradiction

theorem current_turnAll {ns : List Node} {f : Fonts} (h : ∀ n ∈ ns, n.Restores f.current) :
    (turnAll ns f).current = f.current := by
  induction ns generalizing f with
  | nil => rfl
  | cons n ns ih =>
    rw [List.forall_mem_cons] at h
    have hfirst := current_turn h.1
    rw [← hfirst] at h
    rw [turnAll, ih h.2, hfirst]

/-- A span forgets the font before the current one. -/
theorem turn_eq_of_current_eq {n : Node} (h : n.kind.setsFont) {f g : Fonts}
    (hfg : f.current = g.current) : n.turn f = n.turn g := by
  have hswitch (face : Face) : f.switch face = g.switch face := by
    rw [Fonts.switch, Fonts.switch, hfg]
  cases n with
  | emphasis children => rw [Node.turn, Node.turn, hswitch]
  | strong children => rw [Node.turn, Node.turn, hswitch]
  | codeSpan value => rw [Node.turn, Node.turn, hswitch]
  | _ => contradiction

theorem turnAll_eq_of_current_eq {ns : List Node} (h : ∃ n ∈ ns, n.kind.setsFont) {f g : Fonts}
    (hfg : f.current = g.current) : turnAll ns f = turnAll ns g := by
  induction ns with
  | nil =>
    obtain ⟨n, hn, -⟩ := h
    contradiction
  | cons n ns ih =>
    rw [turnAll, turnAll]
    by_cases hn : n.kind.setsFont
    · rw [turn_eq_of_current_eq hn hfg]
    · rw [List.exists_mem_cons_iff] at h
      rw [turn_of_not_setsFont hn, turn_of_not_setsFont hn]
      exact ih (h.resolve_left hn)

/-- Behind emphasis or strong text with a span inside, the fonts are the same whatever they were. -/
theorem turn_eq_of_not_isPlainSpan {n : Node} (hkind : n.kind = .emphasis ∨ n.kind = .strong)
    (h : ¬ n.IsPlainSpan) (f g : Fonts) : n.turn f = n.turn g := by
  have hspan : ∃ c ∈ n.children, c.kind.setsFont := by
    apply Classical.byContradiction
    intro hnone
    refine h ⟨hkind, fun c hc hsets => hnone ⟨c, hc, hsets⟩⟩
  rw [turn_of_span hkind, turn_of_span hkind]
  exact congrArg Fonts.back (turnAll_eq_of_current_eq hspan rfl)

/-! ## Fragments -/

theorem turns_flatten {ns : List Node} (h : ∀ n ∈ ns, ∀ f, Turns n.fragment f (n.turn f))
    (f : Fonts) : Turns (ns.map Node.fragment).flatten f (turnAll ns f) := by
  induction ns generalizing f with
  | nil => exact turns_nil f
  | cons n ns ih =>
    rw [List.forall_mem_cons] at h
    exact (h.1 f).append (ih h.2 (n.turn f))

theorem turns_fragment {n : Node} (hrun : n.IsRun) (hclean : EachVisited Node.IsClean .all n)
    (f : Fonts) : Turns n.fragment f (n.turn f) := by
  induction n using Node.induct generalizing f with
  | h n ih =>
    have hkind := EachVisited.self hrun
    have hcontent : Rule.below .all n = some .all → ∀ f, Turns n.content f (turnAll n.children f) := by
      intro hbelow f
      have hchildren : ∀ c ∈ n.children, ∀ f, Turns c.fragment f (c.turn f) := fun c hc =>
        ih c hc (EachVisited.children hrun hbelow c hc) (hclean.children hbelow c hc)
      exact ((turns_flatten hchildren f).of_shorn (shorn_trimStart _)).of_shorn (shorn_trimEnd _)
    have hclosing (f : Fonts) : Turns "\\fP".toList f f.back := rfl
    cases n with
    | text value | abbreviation value => exact turns_escape value f
    | typographic symbol => exact turns_of_not_mem symbol.not_mem_glyph f
    | quote symbol => exact turns_of_not_mem symbol.not_mem_glyph f
    | emphasis children =>
      have hopening : Turns "\\fI".toList f (f.switch .italic) := rfl
      rw [fragment_emphasis]
      exact (hopening.append (hcontent rfl _)).append (hclosing _)
    | strong children =>
      have hopening : Turns "\\fB".toList f (f.switch .bold) := rfl
      rw [fragment_strong]
      exact (hopening.append (hcontent rfl _)).append (hclosing _)
    | codeSpan value =>
      have hopening : Turns "\\fB\\fC".toList f ((f.switch .bold).switch .constant) := rfl
      have hvalue := turns_of_not_mem (hclean.self value List.mem_cons_self)
      exact (hopening.append (hvalue _)).append rfl
    | _ => contradiction

/-! ## Places -/

section
variable {children : List Node} (hrun : ∀ c ∈ children, c.IsRun)
  (hclean : ∀ c ∈ children, EachVisited Node.IsClean .all c)
include hrun hclean

theorem turns_ahead (i : Nat) (f : Fonts) :
    Turns (Node.ahead children i) f (turnAll (children.take i) f) := by
  have htake : ∀ c ∈ children.take i, ∀ f, Turns c.fragment f (c.turn f) := fun c hc =>
    turns_fragment (hrun c (List.mem_of_mem_take hc)) (hclean c (List.mem_of_mem_take hc))
  exact (turns_flatten htake f).of_shorn (shorn_trimStart _)

theorem turns_aheadInParagraph (i : Nat) (f : Fonts) :
    Turns (Node.aheadInParagraph children i) f (turnAll (children.take i) f) := by
  rw [Node.aheadInParagraph]
  cases hdescription : description? children with
  | none =>
    have hword : Turns ".PP\n".toList f f := turns_of_not_mem (by decide) f
    exact hword.append (turns_ahead hrun hclean i f)
  | some value =>
    obtain ⟨term, more, rfl, -⟩ := description?_eq_some hdescription
    have hword : Turns ".TP\n".toList f f := turns_of_not_mem (by decide) f
    rw [List.forall_mem_cons] at hrun hclean
    have hterm := hword.append (turns_fragment hrun.1 hclean.1 f)
    have hline (g : Fonts) : Turns ['\n'] g g := turns_of_not_mem (by decide) g
    have hvalue (g : Fonts) : Turns (trimStart (Text.escape value)) g g :=
      (turns_escape value g).of_shorn (shorn_trimStart _)
    obtain _ | _ | i := i
    · exact hword
    · exact hterm.append (hline _)
    · have hmore := turns_ahead (fun c hc => hrun.2 c (List.mem_cons_of_mem _ hc))
        (fun c hc => hclean.2 c (List.mem_cons_of_mem _ hc)) i (term.turn f)
      exact (hterm.append ((hline _).append (hvalue _))).append ((hline _).append hmore)

end

theorem turns_lead {n : Node} (hkind : n.kind = .emphasis ∨ n.kind = .strong) (hrun : n.IsRun)
    (hclean : EachVisited Node.IsClean .all n) (i : Nat) (f : Fonts) :
    Turns (n.lead i) f (turnAll (n.children.take i) (f.switch n.face)) := by
  have hbelow := below_of_span hkind
  have hahead := turns_ahead (EachVisited.children hrun hbelow) (hclean.children hbelow) i
    (f.switch n.face)
  cases n with
  | emphasis children =>
    have hopening : Turns "\\fI".toList f (f.switch .italic) := rfl
    exact hopening.append hahead
  | strong children =>
    have hopening : Turns "\\fB".toList f (f.switch .bold) := rfl
    exact hopening.append hahead
  | _ => rcases hkind with hkind | hkind <;> contradiction

/-- What is written before a node, at whatever depth, has whole escapes only. -/
theorem exists_turns_textBefore {n m : Node} {path : Path} (hrun : n.IsRun)
    (hclean : EachVisited Node.IsClean .all n) (hm : n.at? path = some m) (f : Fonts) :
    ∃ g, Turns (n.textBefore path) f g := by
  induction path generalizing n f with
  | nil => exact ⟨f, turns_nil f⟩
  | cons i path ih =>
    have hkind := kind_of_at? hrun hm
    have hbelow := below_of_span hkind
    obtain ⟨c, hc, hmc⟩ := Option.bind_eq_some_iff.mp hm
    have hlead := turns_lead hkind hrun hclean i f
    obtain ⟨g, hg⟩ := ih (EachVisited.children hrun hbelow c (List.mem_of_getElem? hc))
      (hclean.children hbelow c (List.mem_of_getElem? hc)) hmc _
    rw [Node.textBefore, hc, Option.elim_some]
    exact ⟨g, hlead.append hg⟩

/-! ## Paragraphs -/

section
variable {children : List Node} (hrun : ∀ c ∈ children, c.IsRun)
  (hclean : ∀ c ∈ children, EachVisited Node.IsClean .all c) {m : Node} {path : Path}
include hrun hclean

theorem run_of_at? (hpath : path ≠ []) (hm : (Node.paragraph children).at? path = some m) :
    m.IsRun ∧ EachVisited Node.IsClean .all m := by
  cases path with
  | nil => contradiction
  | cons i path =>
    obtain ⟨c, hc, hmc⟩ := Option.bind_eq_some_iff.mp hm
    have hmem := List.mem_of_getElem? hc
    exact ⟨EachVisited.of_at? (hrun c hmem) (hrun c hmem) hmc, (hclean c hmem).of_at? (hrun c hmem) hmc⟩

theorem exists_turns_paragraph (hm : (Node.paragraph children).at? path = some m) (f : Fonts) :
    ∃ g, Turns ((Node.paragraph children).textBefore path) f g := by
  cases path with
  | nil => exact ⟨f, turns_nil f⟩
  | cons i path =>
    obtain ⟨c, hc, hmc⟩ := Option.bind_eq_some_iff.mp hm
    have hmem := List.mem_of_getElem? hc
    have hahead := turns_aheadInParagraph hrun hclean i f
    obtain ⟨g, hg⟩ := exists_turns_textBefore (hrun c hmem) (hclean c hmem) hmc _
    rw [Node.textBefore, hc, Option.elim_some]
    exact ⟨g, hahead.append hg⟩

/-- Behind nodes that restore it, the font is that of the node around. -/
theorem current_of_restores {e : Node} {q : Path} {i : Nat}
    (hm : (Node.paragraph children).at? (q ++ [i]) = some m)
    (he : (Node.paragraph children).at? q = some e)
    (hrestores : ∀ c ∈ e.children.take i, c.Restores e.face) {f g : Fonts}
    (hf : f.current = .roman) (hg : Turns ((Node.paragraph children).textBefore (q ++ [i])) f g) :
    g.current = e.face := by
  rw [Node.textBefore_append he] at hg
  cases q with
  | nil =>
    obtain rfl := Option.some.inj he
    have hahead := turns_aheadInParagraph hrun hclean i f
    rw [hg.unique hahead]
    have hface : (Node.paragraph children).face = f.current := hf.symm
    rw [hface] at hrestores ⊢
    exact current_turnAll hrestores
  | cons j q =>
    obtain ⟨herun, heclean⟩ := run_of_at? hrun hclean (List.cons_ne_nil j q) he
    have hkind : e.kind = .emphasis ∨ e.kind = .strong := by
      rw [Node.at?_append, he] at hm
      exact kind_of_at? herun hm
    obtain ⟨b, hb⟩ := exists_turns_paragraph hrun hclean he f
    have hlead := turns_lead hkind herun heclean i b
    rw [hg.unique (hb.append hlead)]
    exact current_turnAll hrestores

/-- What stands before a node of a paragraph, and how the fonts are changed by it and by the node. -/
theorem fonts_paragraph (hpath : path ≠ []) (hm : (Node.paragraph children).at? path = some m)
    (hvisible : m.kind.setsFont ∨ ¬ m.fragment.all isWhite) (k : Nat) (previous : Face) :
    ∃ piece rest f g,
      ((convert (.paragraph children)).run k).result =
        some ((Node.paragraph children).textBefore path ++ (piece ++ rest)) ∧
      Shorn m.fragment piece ∧
      Turns ((Node.paragraph children).textBefore path) ⟨.roman, previous⟩ f ∧
      Turns piece f g ∧
      (m.Restores f.current → g.current = f.current) ∧
      (m.kind = .codeSpan → g.current = .roman) ∧
      (m.kind = .emphasis ∨ m.kind = .strong → ¬ m.IsPlainSpan → ∀ other, Turns piece other g) ∧
      (∀ q i e, path = q ++ [i] → (Node.paragraph children).at? q = some e →
        (∀ c ∈ e.children.take i, c.Restores e.face) → f.current = e.face) := by
  have hresult := (gives_paragraph (fun c hc => (hrun c hc).isInlineTree) k).1
  have hblack : ¬ m.fragment.all isWhite := hvisible.elim not_all_of_setsFont id
  obtain ⟨piece, rest, heq, hpiece⟩ := stands_at_paragraph hrun hpath hm hblack
  obtain ⟨f, hf⟩ := exists_turns_paragraph hrun hclean hm ⟨.roman, previous⟩
  have hturns : ∀ f, Turns piece f (m.turn f) := by
    intro f
    obtain ⟨hmrun, hmclean⟩ := run_of_at? hrun hclean hpath hm
    exact (turns_fragment hmrun hmclean f).of_shorn hpiece
  refine ⟨piece, rest, f, m.turn f, ?_, hpiece, hf, hturns f, current_turn, ?_, ?_, ?_⟩
  · rw [hresult, heq]
  · intro hkind
    cases m with
    | codeSpan value => rfl
    | _ => contradiction
  · intro hkind hspan other
    rw [turn_eq_of_not_isPlainSpan hkind hspan f other]
    exact hturns other
  · rintro q i e rfl he hrestores
    exact current_of_restores hrun hclean hm he hrestores rfl hf

end

/-- A definition whose term is code, with text in bold type behind a word in italics. -/
def fontSample : List Node :=
  [.codeSpan "-x".toList, .text "  takes ".toList,
   .strong [.text "a ".toList, .emphasis [.text "file".toList], .text "name".toList]]

theorem fonts_paragraph_sample :
    (∀ c ∈ fontSample, c.IsRun) ∧ (∀ c ∈ fontSample, EachVisited Node.IsClean .all c) ∧
    ∃ piece rest f g,
      ((convert (.paragraph fontSample)).run 0).result =
        some ((Node.paragraph fontSample).textBefore [2, 2] ++ (piece ++ rest)) ∧
      Shorn (Node.text "name".toList).fragment piece ∧
      Turns ((Node.paragraph fontSample).textBefore [2, 2]) ⟨.roman, .roman⟩ f ∧
      Turns piece f g ∧ f.current = .bold ∧ g.current = .bold := by
  have hrun : ∀ c ∈ fontSample, c.IsRun := by decide
  have hclean : ∀ c ∈ fontSample, EachVisited Node.IsClean .all c := by decide
  have hm : (Node.paragraph fontSample).at? [2, 2] = some (.text "name".toList) := by decide
  obtain ⟨piece, rest, f, g, hresult, hpiece, hf, hg, hrestores, -, -, hsiblings⟩ :=
    fonts_paragraph hrun hclean (List.cons_ne_nil 2 [2]) hm (Or.inr (by decide)) 0 .roman
  have hbold : f.current = .bold := by
    exact hsiblings [2] 2 _ rfl rfl (by decide)
  refine ⟨hrun, hclean, piece, rest, f, g, hresult, hpiece, hf, hg, hbold, ?_⟩
  rw [hrestores (Or.inl (by decide)), hbold]

/-- Bold text in italics, and a letter behind it. -/
def nestedSpans : List Node := [.emphasis [.strong [.text "a".toList]], .text "b".toList]

/-- The font is not always the one before again behind a span. -/
theorem not_fonts_paragraph : ¬ ∀ (children : List Node) (path : Path) (m : Node),
    (∀ c ∈ children, c.IsRun) → (∀ c ∈ children, EachVisited Node.IsClean .all c) →
    (Node.paragraph children).at? path = some m → m.kind.setsFont → ∀ f g,
      Turns ((Node.paragraph children).textBefore path) ⟨.roman, .roman⟩ f →
      Turns m.fragment f g → g.current = f.current := by
  intro h
  have hlost := h nestedSpans [0] (.emphasis [.strong [.text "a".toList]]) (by decide) (by decide)
    (by decide) rfl ⟨.roman, .roman⟩ ⟨.bold, .italic⟩ rfl rfl
  contradiction

end ManPage
