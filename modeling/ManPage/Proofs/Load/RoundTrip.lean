import ManPage.Proofs.Json.Written
import ManPage.Proofs.Load.Fields
import ManPage.Proofs.Load.Structure
import ManPage.Save.Document

/-! # Saved trees are loaded again

What is saved of a tree is a spelling of its JSON value, and the tree is had back from it wherever there
is room for its levels: each node with children takes two brackets, one for itself and one for the array
of its children. There is one thing that goes wrong otherwise, which is that the brackets are too deep.
-/
namespace ManPage

namespace Node

mutual

/-- The number of nested brackets in which the node is written. -/
def levels : Node → Nat
  | header _ _ children | bulletList children | orderedList children | listItem children
  | blockQuote children | paragraph children | emphasis children | strong children
  | link _ children => largestLevels children + 2
  | blank | text _ | typographic _ | quote _ | rule | abbreviation _ | codeBlock _ | comment _
  | codeSpan _ | unknown => 1

def largestLevels : List Node → Nat
  | [] => 0
  | n :: ns => max (levels n) (largestLevels ns)

end

end Node

def Document.levels (d : Document) : Nat := Node.largestLevels d.blocks + 2

namespace Load
open Json Outcome

/-! ## Saved values -/

mutual

theorem depth_toValue : ∀ n : Node, n.toValue.depth = n.levels
  | .header _ _ children | .bulletList children | .orderedList children | .listItem children
  | .blockQuote children | .paragraph children | .emphasis children | .strong children
  | .link _ children => by
    have hchildren := itemsDepth_toValues children
    simp [Node.toValue, Node.tagged, Node.ofString, Value.depth, Value.entriesDepth, hchildren,
      Node.levels]
  | .blank | .text _ | .typographic _ | .quote _ | .rule | .abbreviation _ | .codeBlock _
  | .comment _ | .codeSpan _ | .unknown => rfl

theorem itemsDepth_toValues : ∀ ns : List Node,
    Value.itemsDepth (Node.toValues ns) = Node.largestLevels ns
  | [] => rfl
  | n :: ns => by
    rw [Node.toValues, Value.itemsDepth, depth_toValue n, itemsDepth_toValues ns, Node.largestLevels]

end

theorem isPlain_string (t : Text) : (Node.ofString t).IsPlain := .scalar trivial

theorem isPlain_tagged {kind : Kind} {es : List (Text × Value)} (h : ∀ e ∈ es, e.2.IsPlain) :
    (Node.tagged kind es).IsPlain :=
  .object (List.forall_mem_cons.mpr ⟨isPlain_string kind.tag, h⟩)

mutual

theorem isPlain_toValue : ∀ n : Node, n.toValue.IsPlain
  | .blank | .rule | .unknown => isPlain_tagged nofun
  | .text v | .abbreviation v | .codeBlock v | .comment v | .codeSpan v =>
    isPlain_tagged (List.forall_mem_singleton.mpr (isPlain_string v))
  | .typographic s => isPlain_tagged (List.forall_mem_singleton.mpr (isPlain_string s.name))
  | .quote q => isPlain_tagged (List.forall_mem_singleton.mpr (isPlain_string q.name))
  | .bulletList children | .orderedList children | .listItem children | .blockQuote children
  | .paragraph children | .emphasis children | .strong children =>
    isPlain_tagged (List.forall_mem_singleton.mpr (.array (isPlain_toValues children)))
  | .link href children => isPlain_tagged (List.forall_mem_cons.mpr ⟨isPlain_string href,
      List.forall_mem_singleton.mpr (.array (isPlain_toValues children))⟩)
  | .header level rawText children => by
    have hlevel : Scalar.IsPlain (.number (.integer level.toNat)) := by
      have hlt := level.toNat_lt
      have hsize : 256 ≤ UInt64.size := by decide
      exact ⟨by omega, by omega⟩
    exact isPlain_tagged (List.forall_mem_cons.mpr ⟨.scalar hlevel,
      List.forall_mem_cons.mpr ⟨isPlain_string rawText,
        List.forall_mem_singleton.mpr (.array (isPlain_toValues children))⟩⟩)

theorem isPlain_toValues : ∀ ns : List Node, ∀ v ∈ Node.toValues ns, v.IsPlain
  | [] => nofun
  | n :: ns => List.forall_mem_cons.mpr ⟨isPlain_toValue n, isPlain_toValues ns⟩

end

/-- The entries of a node but for its tag, from which the node can be read. -/
def Fields (n : Node) (es : List (Text × Value)) : Prop :=
  n.toValue = Node.tagged n.kind es ∧ (∀ e ∈ es, e.1 ≠ tagKey) ∧ ofEntries n.kind es = .ok n

theorem entriesKind_some {es : List (Text × Value)} (h : ∀ e ∈ es, e.1 ≠ tagKey) (kind : Kind) :
    entriesKind (some kind) es = .ok kind := by
  induction es with
  | nil => rfl
  | cons e es ih =>
    rw [List.forall_mem_cons] at h
    unfold entriesKind
    rw [if_neg h.1, ih h.2]

theorem readNode_tagged {kind : Kind} {es : List (Text × Value)} (h : ∀ e ∈ es, e.1 ≠ tagKey) :
    readNode (Node.tagged kind es) = ofEntries kind es := by
  have hkind : entriesKind none ((tagKey, Node.ofString kind.tag) :: es) = .ok kind := by
    unfold entriesKind
    rw [if_pos rfl, Node.ofString, readTag, Kind.ofTag_tag]
    exact entriesKind_some h kind
  have hfields : readEntries (fields kind) ((tagKey, Node.ofString kind.tag) :: es) {} =
      readEntries (fields kind) es {} := by
    have hfind : (fields kind).find? (fun f => f.key == tagKey) = none := by
      cases kind <;> rfl
    rw [readEntries, hfind]
  rw [Node.tagged, readNode, hkind, ok_bind, hfields, ofEntries]

/-- A node with one field is had from the one entry for it. -/
theorem ofEntries_singleton {kind : Kind} {f : Field} {v : Value} {s : Slots}
    (hkind : fields kind = [f]) (h : readField {} f v = .ok s) :
    ofEntries kind [(f.key, v)] = nodeOfEntries kind s := by
  have hfind : [f].find? (fun g => g.key == f.key) = some f := by simp
  have hfree : Slots.has {} f = false := by
    cases f <;> rfl
  rw [ofEntries, hkind, readEntries, hfind]
  simp only [hfree, h]
  rfl

theorem ofEntries_children {kind : Kind} {children : List Node}
    (hkind : fields kind = [.children]) (h : readNodes (Node.toValues children) = .ok children) :
    ofEntries kind [(Field.children.key, .array (Node.toValues children))] =
      nodeOfEntries kind { children := some children } := by
  apply ofEntries_singleton hkind
  rw [readField, h]
  rfl

theorem ofEntries_link (href : Text) {children : List Node}
    (h : readNodes (Node.toValues children) = .ok children) :
    ofEntries .link [(Field.href.key, Node.ofString href),
      (Field.children.key, .array (Node.toValues children))] = .ok (.link href children) := by
  rw [ofEntries]
  change (readField _ .children _ >>= readEntries [.href, .children] []) >>= nodeOfEntries .link = _
  rw [readField, h]
  rfl

/-- A symbol is read from its name, in whatever way the names of its kind are looked up. -/
theorem readSymbol_name {α : Type} {name : α → Text} {ofName? : Text → Option α}
    (h : ∀ s, ofName? (name s) = some s) (unknown : Text → Mismatch) (s : α) :
    readSymbol ofName? unknown (Node.ofString (name s)) = .ok s := by
  rw [Node.ofString, readSymbol, readSymbol.named, h]

theorem ofEntries_typographic (s : Typographic) :
    ofEntries .typographic [(Field.typographic.key, Node.ofString s.name)] = .ok (.typographic s) := by
  have hread : readField {} .typographic (Node.ofString s.name) = .ok { typographic := some s } := by
    rw [readField, readSymbol_name Typographic.ofName?_name]
    rfl
  rw [ofEntries_singleton rfl hread]
  rfl

theorem ofEntries_quote (q : Quote) :
    ofEntries .quote [(Field.quote.key, Node.ofString q.name)] = .ok (.quote q) := by
  have hread : readField {} .quote (Node.ofString q.name) = .ok { quote := some q } := by
    rw [readField, readSymbol_name Quote.ofName?_name]
    rfl
  rw [ofEntries_singleton rfl hread]
  rfl

theorem readLevel_toNat (level : UInt8) :
    readLevel (.scalar (.number (.integer level.toNat))) = .ok level := by
  have hlt := level.toNat_lt
  rw [readLevel, if_pos ⟨by omega, by omega⟩]
  exact congrArg Except.ok (UInt8.ofNat_toNat)

theorem ofEntries_header (level : UInt8) (rawText : Text) {children : List Node}
    (h : readNodes (Node.toValues children) = .ok children) :
    ofEntries .header [(Field.level.key, .scalar (.number (.integer level.toNat))),
      (Field.rawText.key, Node.ofString rawText),
      (Field.children.key, .array (Node.toValues children))] = .ok (.header level rawText children) := by
  have hlevel : readField {} .level (.scalar (.number (.integer level.toNat))) =
      .ok { level := some level } := by
    rw [readField, readLevel_toNat]
    rfl
  rw [ofEntries]
  change (readField {} .level _ >>= readEntries (fields .header) _) >>= nodeOfEntries .header = _
  rw [hlevel]
  change (readField _ .children _ >>= readEntries (fields .header) []) >>= nodeOfEntries .header = _
  rw [readField, h]
  rfl

mutual

theorem exists_fields : ∀ n : Node, ∃ es, Fields n es
  | .blank | .rule | .unknown => ⟨[], rfl, nofun, rfl⟩
  | .text _ | .abbreviation _ | .codeBlock _ | .comment _ | .codeSpan _ =>
    ⟨_, rfl, List.forall_mem_singleton.mpr Field.value.key_ne_tagKey, rfl⟩
  | .typographic s =>
    ⟨_, rfl, List.forall_mem_singleton.mpr Field.typographic.key_ne_tagKey, ofEntries_typographic s⟩
  | .quote q =>
    ⟨_, rfl, List.forall_mem_singleton.mpr Field.quote.key_ne_tagKey, ofEntries_quote q⟩
  | .bulletList children | .orderedList children | .listItem children | .blockQuote children
  | .paragraph children | .emphasis children | .strong children =>
    ⟨_, rfl, List.forall_mem_singleton.mpr Field.children.key_ne_tagKey,
      ofEntries_children rfl (readNodes_toValues children)⟩
  | .link href children =>
    ⟨_, rfl, List.forall_mem_cons.mpr ⟨Field.href.key_ne_tagKey,
      List.forall_mem_singleton.mpr Field.children.key_ne_tagKey⟩,
      ofEntries_link href (readNodes_toValues children)⟩
  | .header level rawText children =>
    ⟨_, rfl, List.forall_mem_cons.mpr ⟨Field.level.key_ne_tagKey,
      List.forall_mem_cons.mpr ⟨Field.rawText.key_ne_tagKey,
        List.forall_mem_singleton.mpr Field.children.key_ne_tagKey⟩⟩,
      ofEntries_header level rawText (readNodes_toValues children)⟩

theorem readNodes_toValues : ∀ ns : List Node, readNodes (Node.toValues ns) = .ok ns
  | [] => rfl
  | n :: ns => by
    obtain ⟨es, hvalue, htag, hn⟩ := exists_fields n
    rw [Node.toValues, readNodes, hvalue, readNode_tagged htag, hn, readNodes_toValues ns]
    rfl

end

/-! ## Spelled trees -/

/-- Entries of a block that are no tags are kept as they are spelled. -/
theorem nodeEntries_untagged {big : Nat} {entries : List (Member Spelling)}
    {es : List (Text × Value)} (h : entries.mapM (Spelling.member big) = .ok es)
    (htag : ∀ e ∈ es, e.1 ≠ tagKey) (room : Nat) (kind : Option Kind) (done : List (Text × Value)) :
    entries.foldlM (Spelling.nodeEntry room) (kind, done) =
      (fun es => (kind, es.reverse ++ done)) <$> ofFault (entries.mapM (Spelling.member room)) := by
  induction entries generalizing es done with
  | nil => rfl
  | cons m entries ih =>
    obtain ⟨⟨key, v⟩, es, hm, hes, rfl⟩ := mapM_cons_eq_ok.mp h
    rw [List.forall_mem_cons] at htag
    obtain ⟨hkey, -⟩ := Spelling.member_eq_ok.mp hm
    rw [List.foldlM_cons, List.mapM_cons, Spelling.nodeEntry_other hkey htag.1, Spelling.member, hkey,
      ok_bind]
    cases m.value.it.value room with
    | error f => rfl
    | ok w =>
      simp only [ofFault_ok, map_ok, ok_bind, pure_eq, ofFault_bind, ih hes htag.2]
      cases entries.mapM (Spelling.member room) with
      | error f => rfl
      | ok ds => simp

theorem tag_of_value {s : Spelling} {room : Nat} {t : Text} (h : s.value room = .ok (Node.ofString t)) :
    s.tag = .ok (Kind.ofTag t) := by
  obtain ⟨sc, rfl, hx⟩ := Spelling.exists_scalar_of_value h
  rw [Spelling.tag, hx]
  rfl

theorem levels_le_iff {n : Node} {es : List (Text × Value)} (h : Fields n es) (room : Nat) :
    n.levels ≤ room + 1 ↔ ∀ e ∈ es, e.2.depth ≤ room := by
  have hdepth : n.levels = Value.entriesDepth es + 1 := by
    rw [← depth_toValue, h.1, Node.tagged, Value.depth, Value.entriesDepth, Node.ofString, Value.depth,
      Nat.zero_max]
  rw [hdepth, Nat.add_le_add_iff_right, Value.entriesDepth_le]

/-- A spelling of what is saved for a node is read as the node wherever there is room for it. -/
theorem node_of_value {s : Spelling} {n : Node} {big : Nat} (h : s.value big = .ok n.toValue)
    (room : Nat) : s.node room = if n.levels ≤ room then .ok n else .error (.fault .tooDeep) := by
  obtain ⟨es, hfields⟩ := exists_fields n
  have ⟨hvalue, htag, hn⟩ := hfields
  rw [hvalue] at h
  obtain ⟨big, inside, _, -, rfl, hentries⟩ := Spelling.exists_object_of_value h
  obtain ⟨m, entries, rfl, hm, hes⟩ := mapM_eq_ok_cons.mp hentries
  obtain ⟨hkey, hkind⟩ := Spelling.member_eq_ok.mp hm
  have hkind := tag_of_value hkind
  rw [Kind.ofTag_tag] at hkind
  cases room with
  | zero =>
    have hlevels : ¬ n.levels ≤ 0 := by
      cases n <;> simp [Node.levels]
    rw [if_neg hlevels]
    rfl
  | succ room =>
    have hwithin := mapM_within (fun m _ e (he : Spelling.member big m = .ok e) =>
      Spelling.member_within he fun hv => m.value.it.value_within hv room) hes
    rw [Spelling.node, List.foldlM_cons, Spelling.nodeEntry_tag hkey, hkind, map_ok, ok_bind,
      nodeEntries_untagged hes htag, hwithin]
    simp only [levels_le_iff hfields]
    split
    · simp only [ofFault_ok, map_ok, ok_bind, Spelling.closeNode, List.append_nil,
        List.reverse_reverse, hn]
      rfl
    · rfl

/-- Spellings of what is saved for the nodes are read as the nodes if there is room for all of them. -/
theorem mapM_node {items : List (Padded Spelling)} {ns : List Node} {big : Nat}
    (h : (items.mapM fun p => p.it.value big) = .ok (Node.toValues ns)) (room : Nat) :
    (items.mapM fun p => p.it.node room) =
      if Node.largestLevels ns ≤ room then .ok ns else .error (.fault .tooDeep) := by
  induction ns generalizing items with
  | nil =>
    rw [mapM_eq_ok_nil.mp h]
    rfl
  | cons n ns ih =>
    obtain ⟨p, items, rfl, hp, hitems⟩ := mapM_eq_ok_cons.mp h
    rw [List.mapM_cons, node_of_value hp, ih hitems]
    simp only [Node.largestLevels, Nat.max_le]
    by_cases hn : n.levels ≤ room
    · by_cases hns : Node.largestLevels ns ≤ room
      · simp [hn, hns]
      · simp [hn, hns]
    · simp [hn]

theorem document_of_value {s : Spelling} {d : Document} {big : Nat} (h : s.value big = .ok d.toValue) :
    s.document = if d.levels ≤ maxDepth then .ok d else .error (.fault .tooDeep) := by
  obtain ⟨big, inside, _, -, rfl, hentries⟩ := Spelling.exists_object_of_value h
  obtain ⟨m, _, rfl, hm, hrest⟩ := mapM_eq_ok_cons.mp hentries
  obtain ⟨hkey, harray⟩ := Spelling.member_eq_ok.mp hm
  obtain ⟨big, inside, items, -, harray, hitems⟩ := Spelling.exists_array_of_value harray
  have hlevels : d.levels ≤ maxDepth ↔ Node.largestLevels d.blocks ≤ maxDepth - 2 := by
    rw [Document.levels, maxDepth]
    omega
  rw [mapM_eq_ok_nil.mp hrest, Spelling.document, List.foldlM_cons, Spelling.documentEntry_blocks hkey,
    harray, Spelling.blocks, mapM_node hitems]
  simp only [hlevels]
  split <;> rfl

/-! ## Saved texts -/

theorem ofText_toText_document (form : Form) (d : Document) : Document.ofText (d.toText form) =
    if d.levels ≤ maxDepth then .ok d else .error (.fault .tooDeep) := by
  have hplain : d.toValue.IsPlain :=
    .object (List.forall_mem_singleton.mpr (.array (isPlain_toValues d.blocks)))
  obtain ⟨p, htext, hvalue⟩ := exists_text_eq form hplain
  rw [Document.toText, ← htext, Document.ofText_text, document_of_value hvalue]

theorem ofText_toText_node (form : Form) (n : Node) : Node.ofText (n.toText form) =
    if n.levels ≤ maxDepth then .ok n else .error (.fault .tooDeep) := by
  obtain ⟨p, htext, hvalue⟩ := exists_text_eq form (isPlain_toValue n)
  rw [Node.toText, ← htext, Node.ofText_text, node_of_value hvalue]

/-- The error of loading for brackets that are nested too deeply. -/
def tooDeep : Error := .fault .tooDeep

/-- A saved tree is loaded again exactly if it has at most 127 levels, and all else that can come of it
is the syntax error of brackets that are nested too deeply. -/
theorem load_save : (∀ d : Document, Document.ofText (d.toText .pretty) =
      if d.levels ≤ 127 then .ok d else .error tooDeep) ∧
    (∀ n : Node, Node.ofText (n.toText .compact) =
      if n.levels ≤ 127 then .ok n else .error tooDeep) ∧
    tooDeep.category = .grammar ∧ tooDeep.message = "recursion limit exceeded".toList :=
  ⟨ofText_toText_document .pretty, ofText_toText_node .compact, rfl, rfl⟩

end Load
end ManPage
