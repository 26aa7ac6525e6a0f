import ManPage.Proofs.Render.Conversion
import ManPage.Proofs.Render.Visit
import ManPage.Render.Sink

/-! # Pruning

Nodes of an unknown kind, items outside a list, what is no item in a list, what is no paragraph in an
item, and whatever is below a header have no part in a page. Without them a document is rendered to the
same page, unless a paragraph becomes a definition when what stood before or behind its term is gone.
-/
namespace ManPage
open Text Fragment

/-- A child under the rule has a part in the page. -/
def Rule.keeps : Rule → Node → Bool
  | .all, .listItem _ | .all, .unknown => false
  | .all, _ => true
  | .items, .listItem _ => true
  | .items, _ => false
  | .paragraphs, .paragraph _ => true
  | .paragraphs, _ => false

mutual

def Node.prune : Node → Node
  | .header level rawText _ => .header level rawText []
  | .bulletList children => .bulletList (pruneAll .items children)
  | .orderedList children => .orderedList (pruneAll .items children)
  | .listItem children => .listItem (pruneAll .paragraphs children)
  | .blockQuote children => .blockQuote (pruneAll .all children)
  | .paragraph children => .paragraph (pruneAll .all children)
  | .emphasis children => .emphasis (pruneAll .all children)
  | .strong children => .strong (pruneAll .all children)
  | .link href children => .link href (pruneAll .all children)
  | n => n

/-- The children that the rule keeps, pruned themselves. -/
def pruneAll (rule : Rule) : List Node → List Node
  | [] => []
  | n :: ns => if rule.keeps n then n.prune :: pruneAll rule ns else pruneAll rule ns

end

def Document.prune (d : Document) : Document := ⟨pruneAll .all d.blocks⟩

mutual

/-- The children of every paragraph that is kept, from the node down. -/
def Node.paragraphs : Node → List (List Node)
  | .paragraph children => children :: paragraphsBelow .all children
  | .bulletList children | .orderedList children => paragraphsBelow .items children
  | .listItem children => paragraphsBelow .paragraphs children
  | .blockQuote children | .emphasis children | .strong children | .link _ children =>
    paragraphsBelow .all children
  | _ => []

def paragraphsBelow (rule : Rule) : List Node → List (List Node)
  | [] => []
  | n :: ns =>
    if rule.keeps n then n.paragraphs ++ paragraphsBelow rule ns else paragraphsBelow rule ns

end

def Document.paragraphs (d : Document) : List (List Node) := paragraphsBelow .all d.blocks

/-- The paragraph with the children given is a definition after pruning just if it is one before. -/
def KeepsShape (children : List Node) : Prop :=
  (description? (pruneAll .all children)).isSome = (description? children).isSome

instance (children : List Node) : Decidable (KeepsShape children) :=
  inferInstanceAs (Decidable (_ = _))

section
variable {rule : Rule} {n : Node} (ns : List Node)

theorem pruneAll_of_keeps (h : rule.keeps n) :
    pruneAll rule (n :: ns) = n.prune :: pruneAll rule ns := by
  rw [pruneAll, if_pos h]

theorem pruneAll_of_not_keeps (h : ¬ rule.keeps n) :
    pruneAll rule (n :: ns) = pruneAll rule ns := by
  rw [pruneAll, if_neg h]

theorem paragraphsBelow_of_keeps (h : rule.keeps n) :
    paragraphsBelow rule (n :: ns) = n.paragraphs ++ paragraphsBelow rule ns := by
  rw [paragraphsBelow, if_pos h]

theorem paragraphsBelow_of_not_keeps (h : ¬ rule.keeps n) :
    paragraphsBelow rule (n :: ns) = paragraphsBelow rule ns := by
  rw [paragraphsBelow, if_neg h]

theorem keeps_items_iff : Rule.items.keeps n ↔ n.IsItem := by
  cases n <;> simp [Rule.keeps, Node.IsItem]

theorem keeps_paragraphs_iff : Rule.paragraphs.keeps n ↔ n.IsParagraph := by
  cases n <;> simp [Rule.keeps, Node.IsParagraph]

theorem not_isParagraph_prune (h : ¬ n.IsParagraph) : ¬ n.prune.IsParagraph := by
  rintro ⟨children, hn⟩
  cases n <;> first | exact absurd ⟨_, rfl⟩ h | exact absurd hn (by simp [Node.prune])

end

/-- A definition stays one, with the same description: its term and its text are kept. -/
theorem description?_pruneAll {children : List Node} {value : Text}
    (h : description? children = some value) : description? (pruneAll .all children) = some value := by
  unfold description? at h
  split at h
  · simpa [pruneAll, Rule.keeps, Node.prune, description?] using h
  · simpa [pruneAll, Rule.keeps, Node.prune, description?] using h
  · contradiction

theorem KeepsShape.description?_eq {children : List Node} (h : KeepsShape children) :
    description? (pruneAll .all children) = description? children := by
  unfold KeepsShape at h
  cases hdescription : description? children with
  | none =>
    rw [hdescription, Option.isSome_none] at h
    exact Option.not_isSome_iff_eq_none.mp (by rw [h]; exact Bool.false_ne_true)
  | some value => exact description?_pruneAll hdescription

theorem paragraph_pruneAll {children : List Node} (h : KeepsShape children) (parts : List Text) :
    paragraph (pruneAll .all children) parts = paragraph children parts := by
  unfold paragraph
  rw [h.description?_eq]

/-! ## Nodes without a part -/

theorem agrees_convert_of_not_keeps {n : Node} (h : ¬ Rule.all.keeps n) :
    (convert n).Agrees (pure none) := by
  cases n with
  | listItem children =>
    rw [convert]
    exact Conversion.agrees_report _ _
  | unknown =>
    rw [convert]
    exact Conversion.agrees_report _ _
  | _ => exact absurd rfl h

section
variable {n : Node} (ns : List Node)

theorem agrees_convertAll_of_not_keeps (h : ¬ Rule.all.keeps n) :
    (convertAll (n :: ns)).Agrees (convertAll ns) := by
  have hnone := (agrees_convert_of_not_keeps h).bind fun part =>
    (Conversion.Agrees.refl (convertAll ns)).form fun parts => part.toList ++ parts
  rw [convertAll]
  simpa using hnone

theorem agrees_quoted_of_not_keeps (h : ¬ Rule.all.keeps n) :
    (quoted (n :: ns)).Agrees (quoted ns) := by
  have hnone := (agrees_convert_of_not_keeps h).bind fun part =>
    (Conversion.Agrees.refl (quoted ns)).form fun parts => part.toList ++ parts
  have hp : ¬ n.IsParagraph := by
    rintro ⟨children, rfl⟩
    exact h rfl
  rw [quoted_of_ne ns hp]
  simpa using hnone

theorem agrees_listItems_of_not_keeps (marker : Marker) (h : ¬ Rule.items.keeps n) :
    (listItems marker (n :: ns)).Agrees (listItems marker ns) := by
  have hi : ¬ n.IsItem := mt keeps_items_iff.mpr h
  rw [listItems_of_ne ns marker hi]
  exact Conversion.agrees_report _ _

end

/-! ## Agreement -/

/-- What pruning leaves of the node is converted as the node is, by itself, by the fragments of its
children and by its paragraphs, where it changes no paragraph's shape. -/
structure PrunesSafely (n : Node) : Prop where
  self : (∀ children ∈ n.paragraphs, KeepsShape children) → (convert n.prune).Agrees (convert n)
  children : (∀ children ∈ paragraphsBelow .all n.children, KeepsShape children) →
    (convertAll (pruneAll .all n.children)).Agrees (convertAll n.children)
  paragraphs : ∀ opening further,
    (∀ children ∈ paragraphsBelow .paragraphs n.children, KeepsShape children) →
    (itemParagraphs opening further (pruneAll .paragraphs n.children)).Agrees
      (itemParagraphs opening further n.children)

section
variable {ns : List Node} (hns : ∀ n ∈ ns, PrunesSafely n)
include hns

theorem agrees_convertAll (h : ∀ children ∈ paragraphsBelow .all ns, KeepsShape children) :
    (convertAll (pruneAll .all ns)).Agrees (convertAll ns) := by
  induction ns with
  | nil => exact .refl _
  | cons n ns ih =>
    rw [List.forall_mem_cons] at hns
    by_cases hkeep : Rule.all.keeps n
    · rw [paragraphsBelow_of_keeps ns hkeep, List.forall_mem_append] at h
      have hfirst := hns.1.self h.1
      have hmore := ih hns.2 h.2
      rw [pruneAll_of_keeps ns hkeep, convertAll, convertAll]
      exact hfirst.bind fun part => hmore.form _
    · rw [paragraphsBelow_of_not_keeps ns hkeep] at h
      have hdropped := agrees_convertAll_of_not_keeps ns hkeep
      rw [pruneAll_of_not_keeps ns hkeep]
      exact (ih hns.2 h).trans hdropped.symm

theorem agrees_quoted (h : ∀ children ∈ paragraphsBelow .all ns, KeepsShape children) :
    (quoted (pruneAll .all ns)).Agrees (quoted ns) := by
  induction ns with
  | nil => exact .refl _
  | cons n ns ih =>
    rw [List.forall_mem_cons] at hns
    by_cases hkeep : Rule.all.keeps n
    · rw [paragraphsBelow_of_keeps ns hkeep, List.forall_mem_append] at h
      rw [pruneAll_of_keeps ns hkeep]
      have hmore := ih hns.2 h.2
      by_cases hp : n.IsParagraph
      · obtain ⟨children, rfl⟩ := hp
        have hbelow := hns.1.children fun cs hcs => h.1 cs (List.mem_cons_of_mem _ hcs)
        rw [Node.prune, quoted, quoted]
        exact hbelow.bind fun parts => hmore.form _
      · have hfirst := hns.1.self h.1
        rw [quoted_of_ne _ (not_isParagraph_prune hp), quoted_of_ne ns hp]
        exact hfirst.bind fun part => hmore.form _
    · rw [paragraphsBelow_of_not_keeps ns hkeep] at h
      have hdropped := agrees_quoted_of_not_keeps ns hkeep
      rw [pruneAll_of_not_keeps ns hkeep]
      exact (ih hns.2 h).trans hdropped.symm

theorem agrees_listItems (marker : Marker)
    (h : ∀ children ∈ paragraphsBelow .items ns, KeepsShape children) :
    (listItems marker (pruneAll .items ns)).Agrees (listItems marker ns) := by
  induction ns with
  | nil => exact .refl _
  | cons n ns ih =>
    rw [List.forall_mem_cons] at hns
    by_cases hkeep : Rule.items.keeps n
    · rw [paragraphsBelow_of_keeps ns hkeep, List.forall_mem_append] at h
      rw [pruneAll_of_keeps ns hkeep]
      obtain ⟨children, rfl⟩ := keeps_items_iff.mp hkeep
      have hitem := hns.1.paragraphs marker.first marker.further h.1
      have hmore := ih hns.2 h.2
      rw [Node.prune, listItems, listItems]
      exact hitem.bind fun parts => hmore.form _
    · rw [paragraphsBelow_of_not_keeps ns hkeep] at h
      have hdropped := agrees_listItems_of_not_keeps ns marker hkeep
      rw [pruneAll_of_not_keeps ns hkeep]
      exact (ih hns.2 h).trans hdropped.symm

theorem agrees_itemParagraphs (opening further : Text)
    (h : ∀ children ∈ paragraphsBelow .paragraphs ns, KeepsShape children) :
    (itemParagraphs opening further (pruneAll .paragraphs ns)).Agrees
      (itemParagraphs opening further ns) := by
  induction ns generalizing opening with
  | nil => exact .refl _
  | cons n ns ih =>
    rw [List.forall_mem_cons] at hns
    by_cases hkeep : Rule.paragraphs.keeps n
    · rw [paragraphsBelow_of_keeps ns hkeep, List.forall_mem_append] at h
      rw [pruneAll_of_keeps ns hkeep]
      obtain ⟨children, rfl⟩ := keeps_paragraphs_iff.mp hkeep
      have hbelow := hns.1.children fun cs hcs => h.1 cs (List.mem_cons_of_mem _ hcs)
      have hmore := ih hns.2 further h.2
      rw [Node.prune, itemParagraphs, itemParagraphs]
      exact hbelow.bind fun parts => hmore.form _
    · have hp : ¬ n.IsParagraph := mt keeps_paragraphs_iff.mpr hkeep
      rw [paragraphsBelow_of_not_keeps ns hkeep] at h
      rw [pruneAll_of_not_keeps ns hkeep, itemParagraphs_of_ne ns opening further hp]
      exact ih hns.2 opening h

end

theorem agrees_convert {n : Node} (hn : ∀ c ∈ n.children, PrunesSafely c)
    (h : ∀ children ∈ n.paragraphs, KeepsShape children) : (convert n.prune).Agrees (convert n) := by
  cases n with
  | blank | text _ | abbreviation _ | typographic _ | quote _ | header _ _ _ | rule | codeBlock _
  | comment _ | codeSpan _ | unknown => exact .refl _
  | listItem children =>
    rw [Node.prune, convert, convert]
    exact .refl _
  | bulletList children =>
    have hitems := agrees_listItems hn .bullet h
    rw [Node.prune, convert, convert]
    exact hitems.form _
  | orderedList children =>
    rw [Node.prune, convert, convert]
    refine (Conversion.Agrees.refl _).bind fun list => ?_
    have hitems := agrees_listItems hn (.step list) h
    exact hitems.form _
  | blockQuote children =>
    have hquoted := agrees_quoted hn h
    rw [Node.prune, convert, convert]
    exact hquoted.form _
  | paragraph children =>
    obtain ⟨hshape, hbelow⟩ := List.forall_mem_cons.mp h
    have hall := agrees_convertAll hn hbelow
    rw [Node.prune, convert, convert]
    simp only [paragraph_pruneAll hshape]
    exact hall.form _
  | emphasis children | strong children =>
    have hall := agrees_convertAll hn h
    rw [Node.prune, convert, convert]
    exact hall.form _
  | link href children =>
    have hall := agrees_convertAll hn h
    rw [Node.prune, convert, convert]
    exact hall.bind fun parts => .refl _

theorem prunesSafely (n : Node) : PrunesSafely n := by
  induction n using Node.induct with
  | h n ih =>
    refine ⟨agrees_convert ih, agrees_convertAll ih, ?_⟩
    intro opening further h
    exact agrees_itemParagraphs ih opening further h

/-- A document is rendered to the same page when all that has no part in a page is pruned, at every
depth, provided that no paragraph becomes a definition or ceases to be one. -/
theorem render_prune (d : Document) (h : ∀ children ∈ d.paragraphs, KeepsShape children) :
    d.prune.render = d.render := by
  have hblocks := agrees_convertAll (fun n _ => prunesSafely n) h
  unfold Document.render Document.page Document.body
  simp only [Conversion.run_map]
  rw [Document.prune, (hblocks 0).1]

/-- Lists that are not visited stand before the one that is, and a definition has an unknown part. -/
def crowded : Document where
  blocks :=
    [.listItem [.orderedList [.textItem "lost".toList]],
     .header 1 "NAME".toList [.orderedList []],
     .bulletList [.orderedList [], .listItem [.unknown, .paragraph [.text "kept".toList], .rule]],
     .orderedList [.textItem "first".toList, .unknown],
     .paragraph [.emphasis [.unknown], .text "  what it is".toList, .unknown]]

theorem render_prune_crowded : (∀ children ∈ crowded.paragraphs, KeepsShape children) ∧
    crowded.prune ≠ crowded ∧ crowded.prune.render = crowded.render := by
  have hshapes : ∀ children ∈ crowded.paragraphs, KeepsShape children := by decide
  exact ⟨hshapes, by decide, render_prune crowded hshapes⟩

end ManPage
