import ManPage.Proofs.Render.Outline

/-! # Inline trees

An inline tree has no list in it. Its fragment is the same wherever it stands, and is made from the
fragments of its children alone.
-/
namespace ManPage
open Text Fragment

namespace Node

/-- The fragment of a node without lists, empty for a node that has none. -/
def fragment (n : Node) : Text := (typeset (fun _ => 0) n).getD []

/-- The fragments of the children, put one behind the other and trimmed. -/
def content (n : Node) : Text := inline (n.children.map fragment)

def IsInlineTree (n : Node) : Prop := EachVisited (fun m => m.kind.isInline) .all n

end Node

instance (Q : Node → Prop) [DecidablePred Q] (rule : Rule) (n : Node) :
    Decidable (EachVisited Q rule n) := inferInstanceAs (Decidable (∀ v ∈ visited rule n, Q v.2))

instance (n : Node) : Decidable n.IsInlineTree :=
  inferInstanceAs (Decidable (EachVisited (fun m => m.kind.isInline) .all n))

/-- A node without a fragment leaves no trace among the others. -/
theorem flatten_typesetAll (ns : List Node) (i : Nat) :
    (typesetAll (fun _ => 0) i ns).flatten = (ns.map Node.fragment).flatten := by
  induction ns generalizing i with
  | nil => rfl
  | cons n ns ih =>
    have hfirst : (typeset (fun _ => 0) n).toList.flatten = n.fragment := by
      rw [Node.fragment]
      cases typeset (fun _ => 0) n with
      | none => rfl
      | some t => exact List.append_nil t
    rw [typesetAll, List.flatten_append, ih, List.map_cons, List.flatten_cons, ← hfirst]
    rfl

theorem inline_typesetAll (n : Node) :
    Fragment.inline (typesetAll (fun _ => 0) 0 n.children) = n.content := by
  rw [Fragment.inline, flatten_typesetAll]
  rfl

section
variable (children : List Node)

theorem fragment_emphasis :
    (Node.emphasis children).fragment = emphasis (Node.emphasis children).content := by
  rw [← inline_typesetAll]
  rfl

theorem fragment_strong :
    (Node.strong children).fragment = strong (Node.strong children).content := by
  rw [← inline_typesetAll]
  rfl

theorem fragment_link (href : Text) :
    (Node.link href children).fragment = link href (Node.link href children).content := by
  rw [← inline_typesetAll]
  rfl

end

/-! ## Conversions -/

theorem lists_eq_nil {n : Node} (h : n.IsInlineTree) : lists .all n = [] := by
  rw [lists_eq, ordered, List.map_eq_nil_iff, List.filter_eq_nil_iff]
  intro v hv hlist
  have hinline := h v hv
  rw [beq_iff_eq] at hlist
  rw [hlist] at hinline
  contradiction

/-- An inline tree becomes its fragment, however many lists stand before it. -/
theorem gives_fragment {n : Node} (h : n.IsInlineTree) (k : Nat) :
    Gives (convert n) k (some n.fragment) 0 := by
  have hlists := lists_eq_nil h
  have hgives := (followsReference n).self k (fun _ => 0)
  rw [hlists] at hgives
  have hsome : typeset (fun _ => 0) n = some n.fragment := by
    have hself := EachVisited.self h
    cases n <;> first | rfl | contradiction
  rw [← hsome]
  exact hgives trivial

variable {children : List Node} (h : ∀ c ∈ children, c.IsInlineTree)
include h

theorem gives_fragments (k : Nat) :
    Gives (convertAll children) k (children.map Node.fragment) 0 := by
  induction children generalizing k with
  | nil => exact gives_pure [] k
  | cons n ns ih =>
    rw [List.forall_mem_cons] at h
    rw [convertAll]
    exact (gives_fragment h.1 k).bind ((ih h.2 k).form _) rfl

theorem gives_paragraph (k : Nat) : Gives (convert (.paragraph children)) k
    (some (paragraph children (children.map Node.fragment))) 0 := by
  rw [convert]
  exact (gives_fragments h k).form fun parts => some (paragraph children parts)

end ManPage
