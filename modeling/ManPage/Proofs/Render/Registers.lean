import ManPage.Proofs.Render.Conversion
import ManPage.Proofs.Render.Reference
import ManPage.Render.Sink

/-! # Registers of ordered lists

A conversion counts the ordered lists as it comes upon them. The page that it makes is the one that is
had by numbering the visited lists in pre-order first and rendering without any state then: no list is
counted that is not visited, and no list uses the number of another one.
-/
namespace ManPage
open Text Fragment

/-- The labels of the paths are the numbers that follow `k`, in their order. -/
def Numbers (label : Path → Nat) : Nat → List Path → Prop
  | _, [] => True
  | k, p :: ps => label p = k + 1 ∧ Numbers label (k + 1) ps

section
variable {label : Path → Nat}

theorem numbers_append (k : Nat) (ps qs : List Path) :
    Numbers label k (ps ++ qs) ↔ Numbers label k ps ∧ Numbers label (k + ps.length) qs := by
  induction ps generalizing k with
  | nil => simp [Numbers]
  | cons p ps ih =>
    have hlength : k + (p :: ps).length = k + 1 + ps.length := by
      rw [List.length_cons]
      omega
    rw [List.cons_append, Numbers, Numbers, ih, hlength, and_assoc]

theorem numbers_map (k i : Nat) (ps : List Path) :
    Numbers label k (ps.map (i :: ·)) ↔ Numbers (childLabels label i) k ps := by
  induction ps generalizing k with
  | nil => exact Iff.rfl
  | cons p ps ih => exact and_congr Iff.rfl (ih (k + 1))

/-- The labels below a list of nodes, taken apart at its first node. -/
theorem numbers_listsBelow {rule : Rule} {n : Node} {ns : List Node} {k i : Nat}
    (h : Numbers label k (listsBelow rule i (n :: ns))) :
    Numbers (childLabels label i) k (lists rule n) ∧
      Numbers label (k + (lists rule n).length) (listsBelow rule (i + 1) ns) := by
  rw [listsBelow, numbers_append, numbers_map, List.length_map] at h
  exact h

end

/-! ## Agreement -/

/-- The conversion of the node agrees with the reference, by itself, by the fragments of its children
and by its paragraphs, however the lists are labelled. -/
structure FollowsReference (n : Node) : Prop where
  self : ∀ k label, Numbers label k (lists .all n) →
    Gives (convert n) k (typeset label n) (lists .all n).length
  children : ∀ k label, Numbers label k (listsBelow .all 0 n.children) →
    Gives (convertAll n.children) k (typesetAll label 0 n.children)
      (listsBelow .all 0 n.children).length
  paragraphs : ∀ opening further k label,
    Numbers label k (listsBelow .paragraphs 0 n.children) →
    Gives (itemParagraphs opening further n.children) k
      (typesetParagraphs opening further label 0 n.children)
      (listsBelow .paragraphs 0 n.children).length

section
variable {ns : List Node} (hns : ∀ n ∈ ns, FollowsReference n) {label : Path → Nat}
include hns

theorem gives_convertAll (k i : Nat) (h : Numbers label k (listsBelow .all i ns)) :
    Gives (convertAll ns) k (typesetAll label i ns) (listsBelow .all i ns).length := by
  induction ns generalizing k i with
  | nil => exact gives_pure [] k
  | cons n ns ih =>
    rw [List.forall_mem_cons] at hns
    obtain ⟨hn, hrest⟩ := numbers_listsBelow h
    have hfirst := hns.1.self k _ hn
    have hmore := ih hns.2 _ (i + 1) hrest
    rw [convertAll, typesetAll, listsBelow, List.length_append, List.length_map]
    exact hfirst.bind (hmore.form _) rfl

theorem gives_quoted (k i : Nat) (h : Numbers label k (listsBelow .all i ns)) :
    Gives (quoted ns) k (typesetQuoted label i ns) (listsBelow .all i ns).length := by
  induction ns generalizing k i with
  | nil => exact gives_pure [] k
  | cons n ns ih =>
    rw [List.forall_mem_cons] at hns
    obtain ⟨hn, hrest⟩ := numbers_listsBelow h
    have hmore := ih hns.2 _ (i + 1) hrest
    rw [listsBelow, List.length_append, List.length_map]
    by_cases hp : n.IsParagraph
    · obtain ⟨children, rfl⟩ := hp
      have hfirst := hns.1.children k _ hn
      rw [quoted, typesetQuoted]
      exact hfirst.bind (hmore.form _) rfl
    · have hfirst := hns.1.self k _ hn
      rw [quoted_of_ne ns hp, typesetQuoted_of_ne ns label i hp]
      exact hfirst.bind (hmore.form _) rfl

theorem gives_listItems (marker : Marker) (k i : Nat)
    (h : Numbers label k (listsBelow .items i ns)) :
    Gives (listItems marker ns) k (typesetItems marker label i ns)
      (listsBelow .items i ns).length := by
  induction ns generalizing k i with
  | nil => exact gives_pure [] k
  | cons n ns ih =>
    rw [List.forall_mem_cons] at hns
    obtain ⟨hn, hrest⟩ := numbers_listsBelow h
    have hmore := ih hns.2 _ (i + 1) hrest
    rw [listsBelow, List.length_append, List.length_map]
    by_cases hp : n.IsItem
    · obtain ⟨children, rfl⟩ := hp
      have hfirst := hns.1.paragraphs marker.first marker.further k _ hn
      rw [listItems, typesetItems]
      exact hfirst.bind (hmore.form _) rfl
    · rw [lists_items_of_ne hp] at hmore ⊢
      rw [listItems_of_ne ns marker hp, typesetItems_of_ne ns label i marker hp]
      exact (gives_report _ k).bind hmore rfl

theorem gives_itemParagraphs (opening further : Text) (k i : Nat)
    (h : Numbers label k (listsBelow .paragraphs i ns)) :
    Gives (itemParagraphs opening further ns) k (typesetParagraphs opening further label i ns)
      (listsBelow .paragraphs i ns).length := by
  induction ns generalizing opening k i with
  | nil => exact gives_pure [] k
  | cons n ns ih =>
    rw [List.forall_mem_cons] at hns
    obtain ⟨hn, hrest⟩ := numbers_listsBelow h
    rw [listsBelow, List.length_append, List.length_map]
    by_cases hp : n.IsParagraph
    · have hmore := ih hns.2 further _ (i + 1) hrest
      obtain ⟨children, rfl⟩ := hp
      have hfirst := hns.1.children k _ hn
      rw [itemParagraphs, typesetParagraphs]
      exact hfirst.bind (hmore.form _) rfl
    · have hmore := ih hns.2 opening _ (i + 1) hrest
      rw [lists_paragraphs_of_ne hp] at hmore ⊢
      rw [itemParagraphs_of_ne ns opening further hp,
        typesetParagraphs_of_ne ns label i opening further hp, List.length_nil, Nat.zero_add]
      exact hmore

end

theorem gives_convert {n : Node} (h : ∀ c ∈ n.children, FollowsReference c) (k : Nat)
    (label : Path → Nat) (hk : Numbers label k (lists .all n)) :
    Gives (convert n) k (typeset label n) (lists .all n).length := by
  cases n with
  | blank | text _ | abbreviation _ | typographic _ | quote _ | header _ _ _ | rule | codeBlock _
  | comment _ | codeSpan _ => exact gives_pure _ k
  | listItem _ | unknown => exact (gives_report _ k).form _
  | bulletList children =>
    have hitems := gives_listItems h .bullet k 0 hk
    rw [convert, typeset]
    exact hitems.form _
  | orderedList children =>
    obtain ⟨hlabel, hbelow⟩ := hk
    have hitems := gives_listItems h (.step (k + 1)) (k + 1) 0 hbelow
    rw [convert, typeset, hlabel]
    refine (gives_nextList k).bind ?_ (Nat.add_comm 1 _)
    exact hitems.form _
  | blockQuote children =>
    have hquoted := gives_quoted h k 0 hk
    rw [convert, typeset]
    exact hquoted.form _
  | paragraph children | emphasis children | strong children =>
    have hall := gives_convertAll h k 0 hk
    rw [convert, typeset]
    exact hall.form _
  | link href children =>
    have hall := gives_convertAll h k 0 hk
    rw [convert, typeset]
    refine hall.bind ?_ (Nat.add_zero _)
    dsimp only
    split
    · exact (gives_report _ _).form _
    · exact gives_pure _ _

theorem followsReference (n : Node) : FollowsReference n := by
  induction n using Node.induct with
  | h n ih =>
    refine ⟨gives_convert ih, ?_, ?_⟩
    · intro k label h
      exact gives_convertAll ih k 0 h
    · intro opening further k label h
      exact gives_itemParagraphs ih opening further k 0 h

/-! ## Registers -/

/-- The label of a path is its rank among the paths, counted from behind `k`. -/
def rank (k : Nat) (ps : List Path) (p : Path) : Nat := k + 1 + ps.idxOf p

theorem numbers_congr {label label' : Path → Nat} {ps : List Path}
    (h : ∀ p ∈ ps, label p = label' p) (k : Nat) : Numbers label k ps ↔ Numbers label' k ps := by
  induction ps generalizing k with
  | nil => exact Iff.rfl
  | cons p ps ih =>
    rw [List.forall_mem_cons] at h
    rw [Numbers, Numbers, h.1, ih h.2]

/-- Paths that are all different are numbered by their ranks. -/
theorem numbers_rank {ps : List Path} (h : ps.Nodup) (k : Nat) : Numbers (rank k ps) k ps := by
  induction ps generalizing k with
  | nil => trivial
  | cons p ps ih =>
    obtain ⟨hp, hps⟩ := List.nodup_cons.mp h
    have hself : rank k (p :: ps) p = k + 1 := by
      rw [rank, List.idxOf_cons_self]
    have hrest : ∀ q ∈ ps, rank k (p :: ps) q = rank (k + 1) ps q := by
      intro q hq
      have hne : (p == q) = false := beq_false_of_ne fun heq => hp (heq ▸ hq)
      rw [rank, rank, List.idxOf_cons, hne, cond_false]
      omega
    exact ⟨hself, (numbers_congr hrest (k + 1)).mpr (ih hps (k + 1))⟩

theorem nodup_of_pairwise {ps : List Path} (h : ps.Pairwise (· < ·)) : ps.Nodup := by
  refine h.imp ?_
  rintro p _ hpq rfl
  exact List.lt_irrefl p hpq

theorem nodup_lists (n : Node) : (lists .all n).Nodup := nodup_of_pairwise (pairwise_lists .all n)

theorem nodup_listsBelow (ns : List Node) : (listsBelow .all 0 ns).Nodup :=
  nodup_of_pairwise (pairwise_listsBelow (fun n _ => pairwise_lists .all n) 0)

theorem register_injective {i j : Nat} (h : Marker.register i = Marker.register j) : i = j := by
  have hdigits : decimal i = decimal j := List.append_cancel_left h
  have hnumber := congrArg (fun ds => Nat.ofDigitChars 10 ds 0) hdigits
  simpa [decimal] using hnumber

theorem getElem?_idxOf {ps : List Path} {p : Path} (h : p ∈ ps) : ps[ps.idxOf p]? = some p := by
  have hlength : ps.idxOf p < ps.length := List.idxOf_lt_length_of_mem h
  rw [List.getElem?_eq_getElem hlength, List.getElem_idxOf hlength]

theorem eq_of_rank_eq {k : Nat} {ps : List Path} {p q : Path} (hp : p ∈ ps) (hq : q ∈ ps)
    (h : rank k ps p = rank k ps q) : p = q := by
  have hidx : ps.idxOf p = ps.idxOf q := by
    rw [rank, rank] at h
    omega
  have hat : ps[ps.idxOf p]? = some q := by
    rw [hidx]
    exact getElem?_idxOf hq
  rw [getElem?_idxOf hp] at hat
  exact Option.some.inj hat

/-- Lists with different paths have different registers. -/
theorem nodup_registers {ps : List Path} (h : ps.Nodup) (k : Nat) :
    (ps.map fun p => Marker.register (rank k ps p)).Nodup := by
  rw [List.Nodup, List.pairwise_map]
  refine List.Pairwise.imp_of_mem ?_ h
  intro p q hp hq hne heq
  exact hne (eq_of_rank_eq hp hq (register_injective heq))

/-! ## Conversions in sequence -/

theorem gives_mapM (ns : List Node) (k i : Nat) {label : Path → Nat}
    (h : Numbers label k (listsBelow .all i ns)) :
    Gives (ns.mapM convert) k (typesetEach label i ns) (listsBelow .all i ns).length := by
  induction ns generalizing k i with
  | nil => exact gives_pure [] k
  | cons n ns ih =>
    obtain ⟨hn, hrest⟩ := numbers_listsBelow h
    have hfirst := (followsReference n).self k _ hn
    have hmore := ih _ (i + 1) hrest
    rw [List.mapM_cons, typesetEach, listsBelow, List.length_append, List.length_map]
    exact hfirst.bind (hmore.form _) rfl

theorem gives_body (d : Document) (k : Nat) {label : Path → Nat}
    (h : Numbers label k (listsBelow .all 0 d.blocks)) :
    Gives d.body k (joinLines (typesetAll label 0 d.blocks)) (listsBelow .all 0 d.blocks).length := by
  have hblocks := gives_convertAll (fun n _ => followsReference n) k 0 h
  rw [Document.body, map_eq_pure_bind]
  exact hblocks.form joinLines

/-- The registers of ordered lists are their ranks in pre-order: a single conversion, a sequence of
conversions in one count and the body of a document are what the reference makes of the ranks of the
visited lists, all of which are counted and nothing else; and no two of the lists share a register. -/
theorem registers_preorder :
    (∀ n k, Gives (convert n) k (typeset (rank k (lists .all n)) n) (lists .all n).length) ∧
    (∀ ns k, Gives (ns.mapM convert) k (typesetEach (rank k (listsBelow .all 0 ns)) 0 ns)
      (listsBelow .all 0 ns).length) ∧
    (∀ (d : Document) k, Gives d.body k
      (joinLines (typesetAll (rank k (listsBelow .all 0 d.blocks)) 0 d.blocks))
      (listsBelow .all 0 d.blocks).length) ∧
    (∀ n, (lists .all n).Pairwise (· < ·) ∧ ∀ p, p ∈ lists .all n ↔
      ∃ children, Visits .all n p (.orderedList children)) ∧
    (∀ ns, (listsBelow .all 0 ns).Pairwise (· < ·) ∧ ∀ p, p ∈ listsBelow .all 0 ns ↔
      ∃ i n q children, ns[i]? = some n ∧ p = i :: q ∧ Visits .all n q (.orderedList children)) ∧
    (∀ n k, ((lists .all n).map fun p => Marker.register (rank k (lists .all n) p)).Nodup) ∧
    ∀ ns k, ((listsBelow .all 0 ns).map fun p =>
      Marker.register (rank k (listsBelow .all 0 ns) p)).Nodup := by
  refine ⟨?_, ?_, ?_, ?_, ?_, ?_, ?_⟩
  · intro n k
    exact (followsReference n).self k _ (numbers_rank (nodup_lists n) k)
  · intro ns k
    exact gives_mapM ns k 0 (numbers_rank (nodup_listsBelow ns) k)
  · intro d k
    exact gives_body d k (numbers_rank (nodup_listsBelow d.blocks) k)
  · intro n
    exact ⟨pairwise_lists .all n, mem_lists .all n⟩
  · intro ns
    have hmem := mem_listsBelow (fun n (_ : n ∈ ns) p => mem_lists .all n p) 0
    simp only [Nat.zero_add] at hmem
    exact ⟨pairwise_listsBelow (fun n _ => pairwise_lists .all n) 0, hmem⟩
  · intro n k
    exact nodup_registers (nodup_lists n) k
  · intro ns k
    exact nodup_registers (nodup_listsBelow ns) k

end ManPage
