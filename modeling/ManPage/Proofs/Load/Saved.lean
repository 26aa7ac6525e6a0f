import ManPage.Proofs.Load.Grammar
import ManPage.Proofs.Load.RoundTrip

/-! # Loaded trees are saved

A tree that has been loaded is had back from what is saved of it. There is one thing that a reader takes
and a writer never leaves out: a node without children need not say so. Every node stands in two
brackets more than its parent, and the brackets of its children are one more, which matters where no
bracket is left. So the trees that are loaded and cannot be loaded again are those with a node of a kind
with children inside 62 others, where it has none.
-/
namespace ManPage
open Load

/-- The nodes of the kind may have children. -/
def Kind.takesChildren (k : Kind) : Bool := (fields k).contains .children

namespace Node

/-- The nodes that are `k` steps below the node. -/
def atDepth : Nat → Node → List Node
  | 0, n => [n]
  | k + 1, n => n.children.flatMap (atDepth k)

theorem children_of_not_takesChildren {n : Node} (h : ¬ n.kind.takesChildren) : n.children = [] := by
  cases n <;> first | rfl | exact absurd rfl h

theorem levels_of_takesChildren {n : Node} (h : n.kind.takesChildren) :
    n.levels = largestLevels n.children + 2 := by
  cases n <;> first | rfl | exact absurd h Bool.false_ne_true

theorem levels_of_not_takesChildren {n : Node} (h : ¬ n.kind.takesChildren) : n.levels = 1 := by
  cases n <;> first | rfl | exact absurd rfl h

theorem largestLevels_le {ns : List Node} {m : Nat} :
    largestLevels ns ≤ m ↔ ∀ n ∈ ns, n.levels ≤ m := by
  induction ns with
  | nil => simp [largestLevels]
  | cons n ns ih => rw [largestLevels, Nat.max_le, ih, List.forall_mem_cons]

theorem mem_atDepth_succ {k : Nat} {n m c : Node} (hm : m ∈ n.atDepth k) (hc : c ∈ m.children) :
    c ∈ n.atDepth (k + 1) := by
  induction k generalizing n with
  | zero =>
    obtain rfl := List.mem_singleton.mp hm
    exact List.mem_flatMap.mpr ⟨c, hc, List.mem_singleton.mpr rfl⟩
  | succ k ih =>
    obtain ⟨child, hchild, hm⟩ := List.mem_flatMap.mp hm
    exact List.mem_flatMap.mpr ⟨child, hchild, ih hm⟩

/-- A node has room where no node that may have children stands in the last bracket. -/
theorem levels_le_iff_atDepth (k : Nat) (n : Node) :
    n.levels ≤ 2 * k + 1 ↔ ∀ m ∈ n.atDepth k, ¬ m.kind.takesChildren := by
  induction k generalizing n with
  | zero =>
    rw [atDepth, List.forall_mem_singleton]
    by_cases hn : n.kind.takesChildren
    · have hlevels := levels_of_takesChildren hn
      exact iff_of_false (by omega) (not_not_intro hn)
    · have hlevels := levels_of_not_takesChildren hn
      exact iff_of_true (by omega) hn
  | succ k ih =>
    rw [atDepth, List.forall_mem_flatMap]
    by_cases hn : n.kind.takesChildren
    · have hlevels : n.levels ≤ 2 * (k + 1) + 1 ↔ largestLevels n.children ≤ 2 * k + 1 := by
        rw [levels_of_takesChildren hn]
        omega
      rw [hlevels, largestLevels_le]
      exact forall₂_congr fun c _ => ih c
    · have hlevels := levels_of_not_takesChildren hn
      have hchildren := children_of_not_takesChildren hn
      rw [hchildren]
      exact iff_of_true (by omega) nofun

end Node

/-- The nodes that stand inside `k` other nodes. -/
def Document.atDepth (k : Nat) (d : Document) : List Node := d.blocks.flatMap (Node.atDepth k)

theorem Document.levels_le_iff_atDepth (d : Document) :
    d.levels ≤ 127 ↔ ∀ n ∈ d.atDepth 62, ¬ n.kind.takesChildren := by
  have hlevels : d.levels ≤ 127 ↔ Node.largestLevels d.blocks ≤ 2 * 62 + 1 := by
    rw [Document.levels]
    omega
  rw [hlevels, Node.largestLevels_le, Document.atDepth, List.forall_mem_flatMap]
  exact forall₂_congr fun n _ => Node.levels_le_iff_atDepth 62 n

namespace Load
open Json Outcome

/-! ## Where children are read from -/

/-- The node is read from a value that has room for one bracket around it. -/
def ReadWithin (room : Nat) (n : Node) : Prop := ∃ v, readNode v = .ok n ∧ v.depth + 1 ≤ room

section
variable {room : Nat}

theorem readWithin_of_readNodes {vs : List Value} {ns : List Node} (h : readNodes vs = .ok ns)
    (hvs : ∀ v ∈ vs, v.depth + 1 ≤ room) : ∀ n ∈ ns, ReadWithin room n := by
  induction vs generalizing ns with
  | nil =>
    cases h
    exact List.forall_mem_nil _
  | cons v vs ih =>
    rw [List.forall_mem_cons] at hvs
    rw [readNodes] at h
    obtain ⟨n, hn, h⟩ := bind_eq_ok.mp h
    obtain ⟨ns, hns, h⟩ := bind_eq_ok.mp h
    cases h
    exact List.forall_mem_cons.mpr ⟨⟨v, hn, hvs.1⟩, ih hns hvs.2⟩

theorem readWithin_of_readField {s t : Slots} {f : Field} {v : Value} (h : readField s f v = .ok t)
    (hv : v.depth ≤ room) (hs : ∀ n ∈ s.children.getD [], ReadWithin room n) :
    ∀ n ∈ t.children.getD [], ReadWithin room n := by
  rw [readField_eq] at h
  obtain ⟨a, ha, rfl⟩ := map_eq_ok.mp h
  cases f with
  | value | typographic | quote | level | rawText | href => exact hs
  | children =>
    cases v with
    | scalar _ | object _ => contradiction
    | array items =>
      rw [Value.depth] at hv
      apply readWithin_of_readNodes ha
      intro v hmem
      have hdepth := Value.itemsDepth_le.mp (Nat.le_refl _) v hmem
      omega

theorem readWithin_of_readEntries {fs : List Field} {es : List (Text × Value)} {s t : Slots}
    (h : readEntries fs es s = .ok t) (hes : ∀ e ∈ es, e.2.depth ≤ room)
    (hs : ∀ n ∈ s.children.getD [], ReadWithin room n) :
    ∀ n ∈ t.children.getD [], ReadWithin room n := by
  induction es generalizing s with
  | nil =>
    cases h
    exact hs
  | cons e es ih =>
    obtain ⟨key, v⟩ := e
    rw [List.forall_mem_cons] at hes
    rw [readEntries] at h
    cases hfind : fs.find? fun f => f.key == key with
    | none =>
      rw [hfind] at h
      exact ih h hes.2 hs
    | some f =>
      simp only [hfind] at h
      split at h
      · contradiction
      · obtain ⟨u, hu, h⟩ := bind_eq_ok.mp h
        exact ih h hes.2 (readWithin_of_readField hu hes.1 hs)

theorem readWithin_of_readItems {fs : List Field} {vs : List Value} {s t : Slots}
    (h : readItems fs vs s = .ok t) (hvs : ∀ v ∈ vs, v.depth ≤ room)
    (hs : ∀ n ∈ s.children.getD [], ReadWithin room n) :
    ∀ n ∈ t.children.getD [], ReadWithin room n := by
  induction vs generalizing fs s with
  | nil =>
    cases fs <;> cases h <;> exact hs
  | cons v vs ih =>
    rw [List.forall_mem_cons] at hvs
    cases fs with
    | nil =>
      cases h
      exact hs
    | cons f fs =>
      rw [readItems] at h
      obtain ⟨u, hu, h⟩ := bind_eq_ok.mp h
      exact ih h hvs.2 (readWithin_of_readField hu hvs.1 hs)

/-- The children of a node are the ones that were read for it. -/
theorem children_of_node {absent : Field → Mismatch} {s : Slots} {kind : Kind} {n : Node}
    (h : s.node absent kind = .ok n) : n.children ⊆ s.children.getD [] := by
  cases kind with
  | blank | rule | unknown =>
    cases h
    exact List.nil_subset _
  | text | typographic | quote | abbreviation | codeBlock | comment | codeSpan =>
    obtain ⟨_, -, h⟩ := bind_eq_ok.mp h
    cases h
    exact List.nil_subset _
  | header =>
    obtain ⟨_, -, h⟩ := bind_eq_ok.mp h
    obtain ⟨_, -, h⟩ := bind_eq_ok.mp h
    cases h
    exact List.Subset.refl _
  | link =>
    obtain ⟨_, -, h⟩ := bind_eq_ok.mp h
    cases h
    exact List.Subset.refl _
  | bulletList | orderedList | listItem | blockQuote | paragraph | emphasis | strong =>
    cases h
    exact List.Subset.refl _

theorem readWithin_of_ofEntries {kind : Kind} {es : List (Text × Value)} {n : Node}
    (h : ofEntries kind es = .ok n) (hes : ∀ e ∈ es, e.2.depth ≤ room) :
    ∀ c ∈ n.children, ReadWithin room c := by
  obtain ⟨s, hs, h⟩ := bind_eq_ok.mp h
  intro c hc
  exact readWithin_of_readEntries hs hes nofun c (children_of_node h hc)

theorem readWithin_of_ofItems {kind : Kind} {vs : List Value} {n : Node}
    (h : ofItems kind vs = .ok n) (hvs : ∀ v ∈ vs, v.depth ≤ room) :
    ∀ c ∈ n.children, ReadWithin room c := by
  obtain ⟨s, hs, h⟩ := bind_eq_ok.mp h
  rw [nodeOfItems] at h
  split at h
  · contradiction
  intro c hc
  exact readWithin_of_readItems hs hvs nofun c (children_of_node h hc)

theorem exists_of_readNode {v : Value} {n : Node} (h : readNode v = .ok n) :
    ∃ room, v.depth = room + 1 ∧ ∀ c ∈ n.children, ReadWithin room c := by
  cases v with
  | scalar s => contradiction
  | array vs =>
    refine ⟨_, rfl, ?_⟩
    cases vs with
    | nil => contradiction
    | cons tag vs =>
      rw [readNode] at h
      obtain ⟨kind, -, h⟩ := bind_eq_ok.mp h
      apply readWithin_of_ofItems h
      intro v hv
      exact Value.itemsDepth_le.mp (Nat.le_refl _) v (List.mem_cons_of_mem tag hv)
  | object es =>
    refine ⟨_, rfl, ?_⟩
    rw [readNode] at h
    obtain ⟨kind, -, h⟩ := bind_eq_ok.mp h
    apply readWithin_of_ofEntries h
    exact Value.entriesDepth_le.mp (Nat.le_refl _)

/-- Each step down in a node that is read is a step through two brackets. -/
theorem depth_of_atDepth {v : Value} {n m : Node} {k : Nat} (h : readNode v = .ok n)
    (hm : m ∈ n.atDepth k) : 2 * k + 1 ≤ v.depth := by
  induction k generalizing v n with
  | zero =>
    obtain ⟨room, hroom, -⟩ := exists_of_readNode h
    omega
  | succ k ih =>
    obtain ⟨room, hroom, hchildren⟩ := exists_of_readNode h
    obtain ⟨c, hc, hm⟩ := List.mem_flatMap.mp hm
    obtain ⟨w, hw, hdepth⟩ := hchildren c hc
    have hbelow := ih hw hm
    omega

end

/-! ## What is accepted -/

theorem ofMismatch_eq_ok {α : Type} {x : Except Mismatch α} {a : α} :
    ofMismatch x = .ok a ↔ x = .ok a := by
  cases x <;> simp [ofMismatch]

theorem depth_le_of_value {s : Spelling} {room : Nat} {v : Value} (h : s.value room = .ok v) :
    v.depth ≤ room := by
  have hwithin := s.value_within h room
  rw [h] at hwithin
  split at hwithin
  · assumption
  · contradiction

/-- An entry of a block is kept only where there is room for its value. -/
theorem depth_le_of_nodeEntry {room : Nat} (found : Option Kind × List (Text × Value))
    (m : Member Spelling) (next : Option Kind × List (Text × Value))
    (hfound : ∀ e ∈ found.2, e.2.depth ≤ room) (h : Spelling.nodeEntry room found m = .ok next) :
    ∀ e ∈ next.2, e.2.depth ≤ room := by
  rw [Spelling.nodeEntry] at h
  obtain ⟨key, -, h⟩ := bind_eq_ok.mp h
  split at h
  · split at h
    · contradiction
    · obtain ⟨kind, -, rfl⟩ := map_eq_ok.mp h
      exact hfound
  · obtain ⟨v, hv, rfl⟩ := map_eq_ok.mp h
    have hdepth := depth_le_of_value (ofFault_eq_ok.mp hv)
    exact List.forall_mem_cons.mpr ⟨hdepth, hfound⟩

/-- A block is accepted only where there is room for its children. -/
theorem exists_of_node {s : Spelling} {room : Nat} {n : Node} (h : s.node room = .ok n) :
    ∃ less, room = less + 1 ∧ ∀ c ∈ n.children, ReadWithin less c := by
  cases s with
  | scalar s =>
    obtain ⟨x, -, h⟩ := bind_eq_ok.mp h
    exact absurd h expected_ne_ok
  | array inside items =>
    cases room with
    | zero => contradiction
    | succ room =>
      refine ⟨room, rfl, ?_⟩
      cases items with
      | nil => contradiction
      | cons tag items =>
        rw [Spelling.node] at h
        obtain ⟨kind, -, h⟩ := bind_eq_ok.mp h
        obtain ⟨vs, hvs, h⟩ := bind_eq_ok.mp h
        apply readWithin_of_ofItems (ofMismatch_eq_ok.mp h)
        intro v hv
        obtain ⟨p, -, hp⟩ := exists_of_mem_mapM (ofFault_eq_ok.mp hvs) v hv
        exact depth_le_of_value hp
  | object inside entries =>
    cases room with
    | zero => contradiction
    | succ room =>
      refine ⟨room, rfl, ?_⟩
      rw [Spelling.node] at h
      obtain ⟨⟨found, es⟩, hes, h⟩ := bind_eq_ok.mp h
      have hnone : ∀ e ∈ ([] : List (Text × Value)), e.2.depth ≤ room := List.forall_mem_nil _
      have hdepth := foldlM_invariant depth_le_of_nodeEntry hnone hes
      cases found with
      | none => contradiction
      | some kind =>
        apply readWithin_of_ofEntries (ofMismatch_eq_ok.mp h)
        intro e he
        exact hdepth e (List.mem_reverse.mp he)

/-- The node is accepted as a block of a document. -/
def IsBlock (n : Node) : Prop := ∃ s : Spelling, s.node (maxDepth - 2) = .ok n

theorem isBlock_of_blocks {s : Spelling} {ns : List Node} (h : s.blocks = .ok ns) :
    ∀ n ∈ ns, IsBlock n := by
  cases s with
  | scalar s =>
    obtain ⟨x, -, h⟩ := bind_eq_ok.mp h
    exact absurd h expected_ne_ok
  | array inside items =>
    intro n hn
    obtain ⟨p, -, hp⟩ := exists_of_mem_mapM h n hn
    exact ⟨p.it, hp⟩
  | object inside entries => contradiction

theorem isBlock_of_documentEntry (found : Option (List Node)) (m : Member Spelling)
    (next : Option (List Node)) (hfound : ∀ n ∈ found.getD [], IsBlock n)
    (h : Spelling.documentEntry found m = .ok next) : ∀ n ∈ next.getD [], IsBlock n := by
  unfold Spelling.documentEntry at h
  obtain ⟨key, -, h⟩ := bind_eq_ok.mp h
  split at h
  · split at h
    · contradiction
    · obtain ⟨ns, hns, rfl⟩ := map_eq_ok.mp h
      exact isBlock_of_blocks hns
  · cases h
    exact hfound

theorem isBlock_of_document {s : Spelling} {d : Document} (h : s.document = .ok d) :
    ∀ n ∈ d.blocks, IsBlock n := by
  cases s with
  | scalar s =>
    obtain ⟨x, -, h⟩ := bind_eq_ok.mp h
    exact absurd h expected_ne_ok
  | array inside items =>
    match items with
    | [] =>
      cases h
      nofun
    | [p] =>
      obtain ⟨ns, hns, rfl⟩ := map_eq_ok.mp h
      exact isBlock_of_blocks hns
    | _ :: _ :: _ =>
      obtain ⟨_, -, h⟩ := bind_eq_ok.mp h
      contradiction
  | object inside entries =>
    obtain ⟨found, hfound, rfl⟩ := map_eq_ok.mp h
    have hnone : ∀ n ∈ (none : Option (List Node)).getD [], IsBlock n := nofun
    exact foldlM_invariant isBlock_of_documentEntry hnone hfound

/-- The children of a block that is accepted leave its last bracket to themselves. -/
theorem depth_of_isBlock {n m : Node} {k : Nat} (h : IsBlock n) (hm : m ∈ n.atDepth k) :
    2 * k + 1 ≤ maxDepth - 2 := by
  obtain ⟨s, hs⟩ := h
  obtain ⟨less, hless, hchildren⟩ := exists_of_node hs
  cases k with
  | zero => omega
  | succ k =>
    obtain ⟨c, hc, hm⟩ := List.mem_flatMap.mp hm
    obtain ⟨w, hw, hdepth⟩ := hchildren c hc
    have hbelow := depth_of_atDepth hw hm
    omega

/-- No node of a document that is loaded stands inside more than 62 others. -/
theorem atDepth_of_ofText {t : Text} {d : Document} (h : Document.ofText t = .ok d) :
    d.atDepth 63 = [] := by
  obtain ⟨p, rfl⟩ := Document.exists_padded_of_ofText h
  rw [Document.ofText_text] at h
  apply List.eq_nil_iff_forall_not_mem.mpr
  intro m hm
  obtain ⟨n, hn, hm⟩ := List.mem_flatMap.mp hm
  have hdepth := depth_of_isBlock (isBlock_of_document h n hn) hm
  rw [maxDepth] at hdepth
  omega

theorem children_of_atDepth {t : Text} {d : Document} (h : Document.ofText t = .ok d) :
    ∀ n ∈ d.atDepth 62, n.children = [] := by
  intro n hn
  obtain ⟨block, hblock, hn⟩ := List.mem_flatMap.mp hn
  apply List.eq_nil_iff_forall_not_mem.mpr
  intro c hc
  have hbelow : c ∈ d.atDepth 63 :=
    List.mem_flatMap.mpr ⟨block, hblock, Node.mem_atDepth_succ hn hc⟩
  rw [atDepth_of_ofText h] at hbelow
  exact List.not_mem_nil hbelow

/-! ## What is saved of it -/

/-- A document that has been loaded is had back from what is saved of it, and is saved as the same text
again, unless a node that may have children stands inside 62 others. Such a node has no children, and
the brackets for them, which need not be written to be read, are too deep. -/
theorem load_saved {t : Text} {d : Document} (h : Document.ofText t = .ok d) :
    ((∀ n ∈ d.atDepth 62, ¬ n.kind.takesChildren) → ∃ e, Document.ofText (d.toText .pretty) = .ok e ∧
      e = d ∧ e.toText .pretty = d.toText .pretty) ∧
    ((∃ n ∈ d.atDepth 62, n.kind.takesChildren) →
      Document.ofText (d.toText .pretty) = .error tooDeep) ∧
    ∀ n ∈ d.atDepth 62, n.children = [] := by
  have hsaved := ofText_toText_document .pretty d
  have hlevels := d.levels_le_iff_atDepth
  refine ⟨?_, ?_, children_of_atDepth h⟩
  · intro hroom
    rw [maxDepth, if_pos (hlevels.mpr hroom)] at hsaved
    exact ⟨d, hsaved, rfl, rfl⟩
  · rintro ⟨n, hn, hparent⟩
    have hdeep : ¬ d.levels ≤ 127 := fun hle => hlevels.mp hle n hn hparent
    rw [maxDepth, if_neg hdeep] at hsaved
    exact hsaved

/-- A document as an array, in which a node is an array, a key is ignored and children are left out. -/
def looseText : Text :=
  " [[[\"paragraph\"], \x7b\"x\":[1e5],\"children\":[[\"li\"]],\"type\":\"ul\"\x7d]]\n".toList

theorem load_saved_loose :
    Document.ofText looseText = .ok ⟨[.paragraph [], .bulletList [.listItem []]]⟩ ∧
    ∃ e, Document.ofText (Document.toText .pretty ⟨[.paragraph [], .bulletList [.listItem []]]⟩) =
      .ok e ∧ e = ⟨[.paragraph [], .bulletList [.listItem []]]⟩ ∧
      e.toText .pretty = Document.toText .pretty ⟨[.paragraph [], .bulletList [.listItem []]]⟩ := by
  have hload : (Document.ofText looseText).toOption =
      some ⟨[.paragraph [], .bulletList [.listItem []]]⟩ := by decide +kernel
  have hload := toOption_eq_some.mp hload
  exact ⟨hload, (load_saved hload).1 (by decide)⟩

theorem ofText_toText_ne {d : Document} (h : ¬ d.levels ≤ maxDepth) :
    Document.ofText (d.toText .pretty) ≠ .ok d := by
  rw [ofText_toText_document, if_neg h]
  nofun

/-- Lists inside one another, the innermost with nothing in it. -/
def nestedList : Nat → Node
  | 0 => .bulletList []
  | k + 1 => .bulletList [nestedList k]

/-- The innermost list has its children left out. -/
def nestedText : Nat → Text
  | 0 => "\x7b\"type\":\"ul\"\x7d".toList
  | k + 1 => "\x7b\"type\":\"ul\",\"children\":[".toList ++ (nestedText k ++ "]\x7d".toList)

def deepestText : Text := "\x7b\"children\":[".toList ++ (nestedText 62 ++ "]\x7d".toList)

/-- There is a document that is loaded and is not had back from what is saved of it. -/
theorem load_not_saved : ¬ ∀ t d, Document.ofText t = .ok d →
    Document.ofText (d.toText .pretty) = .ok d ∧
    ∀ e, Document.ofText (d.toText .pretty) = .ok e → e.toText .pretty = d.toText .pretty := by
  intro h
  have hload : (Document.ofText deepestText).toOption = some ⟨[nestedList 62]⟩ := by
    decide +kernel
  have hdeep : ¬ Document.levels ⟨[nestedList 62]⟩ ≤ maxDepth := by decide +kernel
  exact ofText_toText_ne hdeep (h _ _ (toOption_eq_some.mp hload)).1

end Load
end ManPage
