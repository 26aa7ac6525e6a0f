import ManPage.Proofs.Render.Inline
import ManPage.Proofs.Render.Prose
import ManPage.Proofs.Tree.Subtree

/-! # Where a fragment stands

A node of running text that is more than white space is found again in the fragment of the paragraph
around it: behind what is written before it, which its path says, there is its own fragment, from whose
ends white space may be missing.
-/
namespace ManPage
open Text Fragment

namespace Kind

/-- The kinds that change the font for their fragment. -/
def setsFont : Kind → Bool
  | emphasis | strong | codeSpan => true
  | _ => false

/-- The kinds of running text without links. -/
def isRun : Kind → Bool
  | text | abbreviation | typographic | quote | emphasis | strong | codeSpan => true
  | _ => false

theorem isInline_of_isRun {k : Kind} (h : k.isRun) : k.isInline := by
  cases k <;> first | rfl | contradiction

end Kind

namespace Node

/-- Running text without links. -/
def IsRun (n : Node) : Prop := EachVisited (fun m => m.kind.isRun) .all n

instance (n : Node) : Decidable n.IsRun :=
  inferInstanceAs (Decidable (EachVisited (fun m => m.kind.isRun) .all n))

theorem IsRun.isInlineTree {n : Node} (h : n.IsRun) : n.IsInlineTree :=
  fun v hv => Kind.isInline_of_isRun (h v hv)

/-- What is written of the children before the one with the index given, where that one is more than
white space. -/
def ahead (children : List Node) (i : Nat) : Text :=
  trimStart ((children.take i).map fragment).flatten

/-- What is written in a definition before the child with the index given. -/
def aheadInDefinition (term : Node) (value : Text) (more : List Node) : Nat → Text
  | 0 => ".TP\n".toList
  | 1 => ".TP\n".toList ++ term.fragment ++ ['\n']
  | i + 2 => ".TP\n".toList ++ term.fragment ++ '\n' :: trimStart (escape value) ++
      '\n' :: ahead more i

section
variable (term : Node) (value : Text) (more : List Node)

theorem aheadInDefinition_one :
    aheadInDefinition term value more 1 = ".TP\n".toList ++ term.fragment ++ ['\n'] := rfl

theorem aheadInDefinition_add_two (i : Nat) : aheadInDefinition term value more (i + 2) =
    ".TP\n".toList ++ term.fragment ++ '\n' :: trimStart (escape value) ++ '\n' :: ahead more i := rfl

end

/-- What is written in a paragraph before the child with the index given. -/
def aheadInParagraph (children : List Node) (i : Nat) : Text :=
  match description? children with
  | none => ".PP\n".toList ++ ahead children i
  | some value => aheadInDefinition (children.headD .blank) value (children.drop 2) i

/-- What is written of the node before the child with the index given. -/
def lead : Node → Nat → Text
  | emphasis children, i => "\\fI".toList ++ ahead children i
  | strong children, i => "\\fB".toList ++ ahead children i
  | paragraph children, i => aheadInParagraph children i
  | _, _ => []

/-- What is written of the node before the one at the path. -/
def textBefore : List Nat → Node → Text
  | [], _ => []
  | i :: path, n => n.lead i ++ (n.children[i]?).elim [] (textBefore path)

end Node

/-! ## Trimmed fragments -/

/-- The text starts with `before`, and the fragment stands behind it. -/
def Stands (fragment before t : Text) : Prop :=
  ∃ piece rest, t = before ++ (piece ++ rest) ∧ Shorn fragment piece

theorem Stands.not_all {s before t : Text} (h : Stands s before t) (hs : ¬ s.all isWhite) :
    ¬ t.all isWhite := by
  obtain ⟨piece, rest, rfl, hpiece⟩ := h
  rw [List.all_append, List.all_append, Bool.and_eq_true, Bool.and_eq_true]
  exact fun hall => hpiece.not_all hs hall.2.1

section
variable {t : Text} (h : ¬ t.all isWhite) (s b : Text)
include h

theorem stands_trimEnd : Stands t s (trimEnd (s ++ (t ++ b))) := by
  have hblack : ¬ (t ++ b).all isWhite := by
    rw [List.all_append, Bool.and_eq_true]
    exact fun hall => h hall.1
  obtain ⟨ps, hps, heq⟩ := ((assembles_singleton t).append (assembles_singleton b)).trimEnd
  cases hps with
  | cons hp hps =>
    rw [trimEnd_append_of_not_all hblack, heq, List.flatten_cons]
    exact ⟨_, _, rfl, hp⟩

theorem stands_trim : Stands t (trimStart s) (trim (s ++ (t ++ b))) := by
  rw [trim]
  by_cases hs : s.all isWhite
  · obtain ⟨piece, rest, heq, hpiece⟩ := stands_trimEnd (t := trimStart t)
      ((shorn_trimStart t).not_all h) [] b
    rw [trimStart_append_of_all hs, trimStart_append_of_not_all h, trimStart_of_all hs]
    exact ⟨piece, rest, heq, (shorn_trimStart t).trans hpiece⟩
  · rw [trimStart_append_of_not_all hs]
    exact stands_trimEnd h _ b

end

theorem stands_inline {children : List Node} {i : Nat} {c : Node} (hc : children[i]? = some c)
    (hvisible : ¬ c.fragment.all isWhite) : Stands c.fragment (Node.ahead children i)
      (Fragment.inline (children.map Node.fragment)) := by
  have hsplit : (children.map Node.fragment).flatten =
      ((children.take i).map Node.fragment).flatten ++
        (c.fragment ++ ((children.drop (i + 1)).map Node.fragment).flatten) := by
    obtain ⟨hi, rfl⟩ := List.getElem?_eq_some_iff.mp hc
    conv_lhs => rw [← List.take_append_drop i children, List.drop_eq_getElem_cons hi]
    rw [List.map_append, List.flatten_append, List.map_cons, List.flatten_cons]
  rw [Fragment.inline, hsplit]
  exact stands_trim hvisible _ _

theorem exists_fragment_of_setsFont {n : Node} (h : n.kind.setsFont) :
    ∃ s d, n.fragment = '\\' :: (s ++ [d]) ∧ ¬ isWhite d := by
  have hback : "\\fP".toList = ['\\', 'f', 'P'] := rfl
  cases n with
  | emphasis children =>
    have hitalic : "\\fI".toList = ['\\', 'f', 'I'] := rfl
    refine ⟨'f' :: 'I' :: ((Node.emphasis children).content ++ ['\\', 'f']), 'P', ?_, by decide⟩
    rw [fragment_emphasis]
    unfold Fragment.emphasis
    rw [hitalic, hback]
    simp
  | strong children =>
    have hbold : "\\fB".toList = ['\\', 'f', 'B'] := rfl
    refine ⟨'f' :: 'B' :: ((Node.strong children).content ++ ['\\', 'f']), 'P', ?_, by decide⟩
    rw [fragment_strong]
    unfold Fragment.strong
    rw [hbold, hback]
    simp
  | codeSpan value =>
    have hcode : "\\fB\\fC".toList = ['\\', 'f', 'B', '\\', 'f', 'C'] := rfl
    have hroman : "\\fR".toList = ['\\', 'f', 'R'] := rfl
    refine ⟨'f' :: 'B' :: '\\' :: 'f' :: 'C' :: (value ++ ['\\', 'f']), 'R', ?_, by decide⟩
    show Fragment.codeSpan value = _
    unfold Fragment.codeSpan
    rw [hcode, hroman]
    simp
  | _ => contradiction

theorem not_all_of_setsFont {n : Node} (h : n.kind.setsFont) : ¬ n.fragment.all isWhite := by
  obtain ⟨s, d, heq, -⟩ := exists_fragment_of_setsFont h
  rw [heq, List.all_cons, Bool.and_eq_true]
  exact fun hall => absurd hall.1 (by decide)

theorem eq_of_shorn_of_setsFont {n : Node} (h : n.kind.setsFont) {piece : Text}
    (hpiece : Shorn n.fragment piece) : piece = n.fragment := by
  obtain ⟨s, d, heq, hd⟩ := exists_fragment_of_setsFont h
  rw [heq] at hpiece ⊢
  exact hpiece.eq_of_black (by decide) hd

/-! ## Children -/

/-- The lines of a definition, each behind what is written before it. -/
theorem stands_definition {term c : Node} {value : Text} {more : List Node} {i : Nat}
    (hc : (term :: .text value :: more)[i]? = some c) (hvisible : ¬ c.fragment.all isWhite) :
    Stands c.fragment (Node.aheadInDefinition term value more i)
      (definition term.fragment value (Fragment.inline (more.map Node.fragment))) := by
  rw [definition]
  obtain _ | _ | i := i
  · obtain rfl := Option.some.inj hc
    simp only [List.append_assoc]
    exact stands_trimEnd hvisible _ _
  · obtain rfl := Option.some.inj hc
    have hvalue : Shorn (escape value) (trimStart (escape value)) := shorn_trimStart _
    obtain ⟨piece, rest, heq, hpiece⟩ := stands_trimEnd (hvalue.not_all hvisible)
      (".TP\n".toList ++ (term.fragment ++ ['\n'])) ('\n' :: Fragment.inline (more.map Node.fragment))
    refine ⟨piece, rest, ?_, hvalue.trans hpiece⟩
    simp only [Nat.zero_add, Node.aheadInDefinition_one, List.append_assoc, List.cons_append,
      List.nil_append] at heq ⊢
    exact heq
  · have hmore : more[i]? = some c := hc
    obtain ⟨inner, behind, hinline, hinner⟩ := stands_inline hmore hvisible
    obtain ⟨piece, rest, heq, hpiece⟩ := stands_trimEnd (hinner.not_all hvisible)
      (Node.aheadInDefinition term value more (i + 2)) behind
    refine ⟨piece, rest, ?_, hinner.trans hpiece⟩
    rw [hinline]
    simp only [Node.aheadInDefinition_add_two, List.append_assoc, List.cons_append] at heq ⊢
    exact heq

theorem stands_paragraph {children : List Node} {i : Nat} {c : Node}
    (hc : children[i]? = some c) (hvisible : ¬ c.fragment.all isWhite) :
    Stands c.fragment (Node.aheadInParagraph children i)
      (paragraph children (children.map Node.fragment)) := by
  rw [paragraph, Node.aheadInParagraph]
  cases hdescription : description? children with
  | none =>
    obtain ⟨piece, rest, heq, hpiece⟩ := stands_inline hc hvisible
    refine ⟨piece, rest, ?_, hpiece⟩
    dsimp only
    rw [heq, List.append_assoc]
  | some value =>
    obtain ⟨term, more, rfl, -⟩ := description?_eq_some hdescription
    exact stands_definition hc hvisible

theorem stands_fragment {n c : Node} {i : Nat} (hn : n.kind = .emphasis ∨ n.kind = .strong)
    (hc : n.children[i]? = some c) (hvisible : ¬ c.fragment.all isWhite) :
    Stands c.fragment (n.lead i) n.fragment := by
  obtain ⟨piece, rest, heq, hpiece⟩ := stands_inline hc hvisible
  cases n with
  | emphasis children =>
    refine ⟨piece, rest ++ "\\fP".toList, ?_, hpiece⟩
    rw [fragment_emphasis, Node.content]
    unfold Fragment.emphasis
    rw [heq, List.append_assoc, List.append_assoc, List.append_assoc]
    exact (List.append_assoc _ _ _).symm
  | strong children =>
    refine ⟨piece, rest ++ "\\fP".toList, ?_, hpiece⟩
    rw [fragment_strong, Node.content]
    unfold Fragment.strong
    rw [heq, List.append_assoc, List.append_assoc, List.append_assoc]
    exact (List.append_assoc _ _ _).symm
  | _ => rcases hn with hn | hn <;> contradiction

/-! ## Paths -/

theorem kind_of_at? {n m : Node} {i : Nat} {path : Path} (h : n.IsRun)
    (hm : n.at? (i :: path) = some m) : n.kind = .emphasis ∨ n.kind = .strong := by
  have hrun := EachVisited.self h
  cases n with
  | emphasis _ => exact Or.inl rfl
  | strong _ => exact Or.inr rfl
  | _ => contradiction

theorem below_of_span {n : Node} (h : n.kind = .emphasis ∨ n.kind = .strong) :
    Rule.below .all n = some .all := by
  cases n <;> rcases h with h | h <;> first | rfl | contradiction

/-- What holds of all nodes of a tree holds of those of a subtree. -/
theorem EachVisited.of_at? {Q : Node → Prop} {n m : Node} {path : Path} (h : EachVisited Q .all n)
    (hn : n.IsRun) (hm : n.at? path = some m) : EachVisited Q .all m := by
  induction path generalizing n with
  | nil =>
    obtain rfl := Option.some.inj hm
    exact h
  | cons i path ih =>
    have hbelow := below_of_span (kind_of_at? hn hm)
    obtain ⟨c, hc, hmc⟩ := Option.bind_eq_some_iff.mp hm
    have hmem := List.mem_of_getElem? hc
    exact ih (h.children hbelow c hmem) (EachVisited.children hn hbelow c hmem) hmc

theorem Node.at?_append {n : Node} (q r : Path) : n.at? (q ++ r) = (n.at? q).bind (at? r) := by
  induction q generalizing n with
  | nil => rfl
  | cons i q ih =>
    rw [List.cons_append, at?, at?, Option.bind_assoc]
    exact Option.bind_congr fun c _ => ih

/-- Before a child there is what is before its parent, and what is before it in the parent. -/
theorem Node.textBefore_append {n e : Node} {q : Path} (h : n.at? q = some e) (i : Nat) :
    n.textBefore (q ++ [i]) = n.textBefore q ++ e.lead i := by
  induction q generalizing n with
  | nil =>
    obtain rfl := Option.some.inj h
    rw [List.nil_append, textBefore, textBefore, List.nil_append]
    cases n.children[i]? <;> exact List.append_nil _
  | cons j q ih =>
    obtain ⟨c, hc, he⟩ := Option.bind_eq_some_iff.mp h
    rw [List.cons_append, textBefore, textBefore, hc, Option.elim_some, Option.elim_some, ih he,
      List.append_assoc]

/-- What is in a child is found in the text around the child, which keeps all of a child that has
something in it. -/
theorem Stands.within {c m : Node} {path : Path} {t before : Text}
    (houter : Stands c.fragment before t) (hc : c.IsRun) (hm : c.at? path = some m)
    (hinner : Stands m.fragment (c.textBefore path) c.fragment) :
    Stands m.fragment (before ++ c.textBefore path) t := by
  obtain ⟨outer, behind, rfl, houter⟩ := houter
  obtain ⟨piece, rest, hfragment, hpiece⟩ := hinner
  cases path with
  | nil =>
    obtain rfl := Option.some.inj hm
    exact ⟨outer, behind, by rw [Node.textBefore, List.append_nil], houter⟩
  | cons i path =>
    have hsets : c.kind.setsFont := by
      rcases kind_of_at? hc hm with hkind | hkind <;> rw [hkind] <;> rfl
    obtain rfl := eq_of_shorn_of_setsFont hsets houter
    refine ⟨piece, rest ++ behind, ?_, hpiece⟩
    rw [hfragment]
    simp only [List.append_assoc]

theorem stands_at {n m : Node} {path : Path} (hn : n.IsRun) (hm : n.at? path = some m)
    (hvisible : ¬ m.fragment.all isWhite) :
    Stands m.fragment (n.textBefore path) n.fragment := by
  induction path generalizing n with
  | nil =>
    obtain rfl := Option.some.inj hm
    exact ⟨n.fragment, [], (List.append_nil _).symm, .refl _⟩
  | cons i path ih =>
    have hkind := kind_of_at? hn hm
    obtain ⟨c, hc, hmc⟩ := Option.bind_eq_some_iff.mp hm
    have hrun : c.IsRun := EachVisited.children hn (below_of_span hkind) c (List.mem_of_getElem? hc)
    have hinner := ih hrun hmc
    have houter := stands_fragment hkind hc (hinner.not_all hvisible)
    rw [Node.textBefore, hc, Option.elim_some]
    exact houter.within hrun hmc hinner

/-- A node in a paragraph stands behind what is written before it. -/
theorem stands_at_paragraph {children : List Node} {m : Node} {path : Path}
    (h : ∀ c ∈ children, c.IsRun) (hpath : path ≠ [])
    (hm : (Node.paragraph children).at? path = some m) (hvisible : ¬ m.fragment.all isWhite) :
    Stands m.fragment ((Node.paragraph children).textBefore path)
      (paragraph children (children.map Node.fragment)) := by
  cases path with
  | nil => contradiction
  | cons i path =>
    obtain ⟨c, hc, hmc⟩ := Option.bind_eq_some_iff.mp hm
    have hrun := h c (List.mem_of_getElem? hc)
    have hinner := stands_at hrun hmc hvisible
    have houter := stands_paragraph hc (hinner.not_all hvisible)
    rw [Node.textBefore, hc, Option.elim_some]
    exact houter.within hrun hmc hinner

end ManPage
