import ManPage.Proofs.Load.Replacement

/-! # Nodes of unknown kinds

Every node of a document stands in the text in a context of its own. It may be replaced there by an
object whose tag names no kind, with other entries as they come; the node is then unknown, and nothing
else in the document changes.
-/
namespace ManPage.Load
open Json Declared Outcome

/-! ## The context of a node -/

/-- In the value the elements of one array stand in the place of children. -/
inductive HasList (items : List Value) : Value → Prop
  | entry (front back : List (Text × Value)) :
    HasList items (.object (front ++ (Document.blocksKey, .array items) :: back))
  | item (front back : List Value) : HasList items (.array (front ++ .array items :: back))

section
variable {es : List (Text × Reading)} {kind : Kind} {n : Node}

theorem children?_of_ofFields? (h : ofFields? es kind = some n) (hn : n.children ≠ []) :
    children? es = some n.children := by
  cases kind with
  | blank | rule | unknown =>
    cases h
    exact absurd rfl hn
  | text | abbreviation | codeBlock | comment | codeSpan | typographic | quote =>
    obtain ⟨_, -, rfl⟩ := Option.map_eq_some_iff.mp h
    exact absurd rfl hn
  | header =>
    simp only [ofFields?, Option.bind_eq_bind, Option.bind_eq_some_iff] at h
    obtain ⟨_, -, _, -, ns, hns, hn⟩ := h
    cases hn
    exact hns
  | link =>
    simp only [ofFields?, Option.bind_eq_bind, Option.bind_eq_some_iff] at h
    obtain ⟨_, -, ns, hns, hn⟩ := h
    cases hn
    exact hns
  | bulletList | orderedList | listItem | blockQuote | paragraph | emphasis | strong =>
    obtain ⟨ns, hns, rfl⟩ := Option.map_eq_some_iff.mp h
    exact hns

/-- The children of a node stand under one of its keys. -/
theorem exists_reading_of_children (h : ofFields? es kind = some n) (hn : n.children ≠ []) :
    ∃ r, (Document.blocksKey, r) ∈ es ∧ r.nodes? = some n.children := by
  have hkey : "children".toList = Document.blocksKey := rfl
  have hchildren := children?_of_ofFields? h hn
  simp only [children?, optional?, hkey] at hchildren
  rcases hunder : under Document.blocksKey es with _ | ⟨r, _ | ⟨r', rs⟩⟩
  · rw [hunder] at hchildren
    exact absurd (Option.some.inj hchildren).symm hn
  · rw [hunder] at hchildren
    have hmem : r ∈ under Document.blocksKey es := by
      rw [hunder]
      exact List.mem_singleton.mpr rfl
    exact ⟨r, mem_of_mem_under _ _ hmem, hchildren⟩
  · rw [hunder] at hchildren
    contradiction

end

theorem exists_items_of_reading {v : Value} {ns : List Node} (h : (reading kind? v).nodes? = some ns) :
    ∃ items, v = .array items ∧ nodes? kind? items = some ns := by
  cases v with
  | scalar _ | object _ => contradiction
  | array items => exact ⟨items, rfl, h⟩

theorem hasList_of_children {tag? : Value → Option Kind} {v : Value} {n : Node}
    (h : nodeBy? tag? v = some n) (hn : n.children ≠ []) :
    ∃ items, HasList items v ∧ nodes? kind? items = some n.children := by
  cases v with
  | scalar _ => contradiction
  | array vs =>
    cases vs with
    | nil => contradiction
    | cons tag vs =>
      obtain ⟨kind, -, h⟩ := Option.bind_eq_some_iff.mp h
      split at h
      · obtain ⟨r, hr, hnodes⟩ := exists_reading_of_children h hn
        have hmem := (List.of_mem_zip hr).2
        rw [readings_eq] at hmem
        obtain ⟨w, hw, rfl⟩ := List.mem_map.mp hmem
        obtain ⟨items, rfl, hitems⟩ := exists_items_of_reading hnodes
        obtain ⟨front, back, rfl⟩ := List.append_of_mem hw
        exact ⟨items, .item (tag :: front) back, hitems⟩
      · contradiction
  | object es =>
    obtain ⟨kind, -, h⟩ := Option.bind_eq_some_iff.mp h
    obtain ⟨r, hr, hnodes⟩ := exists_reading_of_children h hn
    rw [entries_eq] at hr
    obtain ⟨⟨key, w⟩, hw, he⟩ := List.mem_map.mp hr
    obtain ⟨rfl, rfl⟩ := Prod.mk.inj he
    obtain ⟨items, rfl, hitems⟩ := exists_items_of_reading hnodes
    obtain ⟨front, back, rfl⟩ := List.append_of_mem hw
    exact ⟨items, .entry front back, hitems⟩

theorem exists_of_nodes? {items : List Value} {ns : List Node} {i : Nat} {c : Node}
    (h : nodes? kind? items = some ns) (hi : ns[i]? = some c) :
    ∃ front v back, items = front ++ v :: back ∧ front.length = i ∧ nodeBy? kind? v = some c := by
  induction items generalizing ns i with
  | nil =>
    cases h
    contradiction
  | cons v items ih =>
    simp only [nodes?, Option.bind_eq_bind, Option.bind_eq_some_iff] at h
    obtain ⟨m, hm, ms, hms, hns⟩ := h
    cases hns
    cases i with
    | zero =>
      cases hi
      exact ⟨[], v, items, rfl, rfl, by rwa [← node?_eq]⟩
    | succ i =>
      obtain ⟨front, w, back, rfl, hlength, hw⟩ := ih hms hi
      exact ⟨v :: front, w, back, rfl, congrArg Nat.succ hlength, hw⟩

/-- The text of the node, where `room` more brackets may be opened. -/
def IsText (room : Nat) (n : Node) (s : Spelling) : Prop :=
  ∃ v tag?, s.value room = .ok v ∧ ReadsNames tag? ∧ nodeBy? tag? v = some n

section
variable {s : Spelling} {room : Nat}

theorem exists_itemFrame {front back : List Value} {v : Value}
    (h : s.value room = .ok (.array (front ++ v :: back))) :
    ∃ (f : ItemFrame) (x : Spelling) (r : Nat), room = r + 1 ∧ f.fill x = s ∧
      f.front.length = front.length ∧ x.value r = .ok v := by
  obtain ⟨r, inside, items, rfl, rfl, hitems⟩ := Spelling.exists_array_of_value h
  obtain ⟨before, p, behind, rfl, hbefore, hp, -⟩ := mapM_eq_ok_append_cons.mp hitems
  exact ⟨⟨inside, before, p.before, p.behind, behind⟩, p.it, r, rfl, rfl,
    (length_of_mapM hbefore).symm, hp⟩

theorem exists_entryFrame {key : Text} {front back : List (Text × Value)} {v : Value}
    (h : s.value room = .ok (.object (front ++ (key, v) :: back))) :
    ∃ (f : EntryFrame key) (x : Spelling) (r : Nat), room = r + 1 ∧ f.fill x = s ∧
      x.value r = .ok v := by
  obtain ⟨r, inside, entries, rfl, rfl, hentries⟩ := Spelling.exists_object_of_value h
  obtain ⟨before, m, behind, rfl, -, hm, -⟩ := mapM_eq_ok_append_cons.mp hentries
  obtain ⟨hkey, hv⟩ := Spelling.member_eq_ok.mp hm
  exact ⟨⟨inside, before, m.key, hkey, m.value.before, m.value.behind, behind⟩, m.value.it, r, rfl, rfl,
    hv⟩

theorem exists_listFrame {items : List Value} {v : Value} (hlist : HasList items v)
    (h : s.value room = .ok v) :
    ∃ (f : ListFrame) (x : Spelling) (r : Nat), room = r + 1 ∧ f.fill x = s ∧
      x.value r = .ok (.array items) := by
  cases hlist with
  | entry front back =>
    obtain ⟨f, x, r, hroom, hs, hx⟩ := exists_entryFrame h
    exact ⟨.entry f, x, r, hroom, hs, hx⟩
  | item front back =>
    obtain ⟨f, x, r, hroom, hs, -, hx⟩ := exists_itemFrame h
    exact ⟨.item f, x, r, hroom, hs, hx⟩

/-- Every node below another one has its frames in the text. -/
theorem exists_frames {path : List Nat} {n m : Node} (hn : IsText room n s) (hm : n.at? path = some m) :
    ∃ (fs : List Frame) (x : Spelling), Frame.fillAll fs x = s ∧ fs.map Frame.index = path ∧
      IsText (room - 2 * fs.length) m x := by
  induction path generalizing s room n with
  | nil =>
    cases hm
    exact ⟨[], s, rfl, rfl, hn⟩
  | cons i path ih =>
    obtain ⟨v, tag?, hv, htag, hn⟩ := hn
    obtain ⟨c, hc, hrest⟩ := Option.bind_eq_some_iff.mp hm
    have hne : n.children ≠ [] := by
      intro hnil
      rw [hnil] at hc
      contradiction
    obtain ⟨items, hlist, hitems⟩ := hasList_of_children hn hne
    obtain ⟨front, w, back, rfl, rfl, hw⟩ := exists_of_nodes? hitems hc
    obtain ⟨list, y, _, rfl, rfl, hy⟩ := exists_listFrame hlist hv
    obtain ⟨item, z, room, rfl, rfl, hindex, hz⟩ := exists_itemFrame hy
    obtain ⟨fs, x, rfl, rfl, hx⟩ := ih ⟨w, kind?, hz, readsNames_kind?, hw⟩ hrest
    refine ⟨⟨list, item⟩ :: fs, x, rfl, ?_, ?_⟩
    · rw [List.map_cons, Frame.index, hindex]
    · have hroom : room + 1 + 1 - 2 * (fs.length + 1) = room - 2 * fs.length := by omega
      rwa [List.length_cons, hroom]

theorem exists_frame_of_blocks {bs : List Node} {i : Nat} {n : Node} (h : s.blocks = .ok bs)
    (hi : bs[i]? = some n) : ∃ (f : ItemFrame) (x : Spelling), f.fill x = s ∧ f.front.length = i ∧
      x.node (maxDepth - 2) = .ok n := by
  obtain ⟨front, back, rfl, rfl⟩ := exists_append_of_getElem? hi
  cases s with
  | scalar s =>
    obtain ⟨x, -, hx⟩ := bind_eq_ok.mp h
    exact absurd hx expected_ne_ok
  | object _ _ => exact absurd h expected_ne_ok
  | array inside items =>
    obtain ⟨before, p, behind, rfl, hbefore, hp, -⟩ := mapM_eq_ok_append_cons.mp h
    exact ⟨⟨inside, before, p.before, p.behind, behind⟩, p.it, rfl, (length_of_mapM hbefore).symm, hp⟩

/-- The blocks that are found in a document stand under their key. -/
theorem exists_of_documentEntries {entries : List (Member Spelling)} {bs : List Node}
    (h : entries.foldlM Spelling.documentEntry none = .ok (some bs)) :
    ∃ front m back, entries = front ++ m :: back ∧ StringUnit.decode m.key.it = .ok Document.blocksKey ∧
      m.value.it.blocks = .ok bs := by
  induction entries with
  | nil => cases h
  | cons m entries ih =>
    rw [List.foldlM_cons] at h
    obtain ⟨found, hm, h⟩ := bind_eq_ok.mp h
    obtain ⟨key, hkey, -⟩ := bind_eq_ok.mp hm
    have hkey := ofFault_eq_ok.mp hkey
    by_cases hblocks : key = Document.blocksKey
    · subst hblocks
      rw [Spelling.documentEntry_blocks hkey] at hm
      obtain ⟨cs, hcs, rfl⟩ := map_eq_ok.mp hm
      rw [documentEntries_of_found h cs] at h
      cases h
      exact ⟨[], m, entries, rfl, hkey, hcs⟩
    · rw [Spelling.documentEntry_other hkey hblocks] at hm
      cases hm
      obtain ⟨front, m', back, rfl, hm'⟩ := ih h
      exact ⟨m :: front, m', back, rfl, hm'⟩

theorem exists_frame_of_document {d : Document} {i : Nat} {n : Node} (h : s.document = .ok d)
    (hi : d.blocks[i]? = some n) :
    ∃ (f : Frame) (x : Spelling), f.fill x = s ∧ f.index = i ∧ x.node (maxDepth - 2) = .ok n := by
  cases s with
  | scalar s =>
    obtain ⟨x, -, hx⟩ := bind_eq_ok.mp h
    exact absurd hx expected_ne_ok
  | array inside items =>
    rcases items with _ | ⟨p, _ | ⟨q, items⟩⟩
    · cases h
      contradiction
    · obtain ⟨bs, hbs, rfl⟩ := map_eq_ok.mp h
      obtain ⟨item, x, hx, hindex, hn⟩ := exists_frame_of_blocks hbs hi
      refine ⟨⟨.item ⟨inside, [], p.before, p.behind, []⟩, item⟩, x, ?_, hindex, hn⟩
      rw [Frame.fill, hx]
      rfl
    · obtain ⟨_, -, h⟩ := bind_eq_ok.mp h
      contradiction
  | object inside entries =>
    obtain ⟨found, hfound, rfl⟩ := map_eq_ok.mp h
    cases found with
    | none => contradiction
    | some bs =>
      obtain ⟨front, m, back, rfl, hkey, hbs⟩ := exists_of_documentEntries hfound
      obtain ⟨item, x, hx, hindex, hn⟩ := exists_frame_of_blocks hbs hi
      refine ⟨⟨.entry ⟨inside, front, m.key, hkey, m.value.before, m.value.behind, back⟩, item⟩, x, ?_,
        hindex, hn⟩
      rw [Frame.fill, hx]
      rfl

end

/-- Every node of a document has its context in the text. -/
theorem exists_context {t : Text} {d : Document} (h : Document.ofText t = .ok d) {path : List Nat}
    {n : Node} (hn : d.at? path = some n) :
    ∃ (c : Context) (s : Spelling), c.text s = t ∧ c.path = path ∧ IsText c.room n s := by
  obtain ⟨⟨before, s, behind⟩, rfl⟩ := Document.exists_padded_of_ofText h
  rw [Document.ofText_text] at h
  cases path with
  | nil => contradiction
  | cons i path =>
    obtain ⟨b, hb, hrest⟩ := Option.bind_eq_some_iff.mp hn
    obtain ⟨f, x, rfl, rfl, hx⟩ := exists_frame_of_document h hb
    obtain ⟨v, hv, hblock⟩ := node_eq_ok.mp hx
    obtain ⟨fs, y, rfl, rfl, hy⟩ := exists_frames ⟨v, _, hv, readsNames_namedKind?, hblock⟩ hrest
    exact ⟨⟨before, f, fs, behind⟩, y, rfl, rfl, hy⟩

/-! ## Nodes that are unknown -/

/-- An entry with a key that is not the tag, and with a value for which there is room. -/
def IsUntagged (room : Nat) (m : Member Spelling) : Prop :=
  ∃ e, Spelling.member room m = .ok e ∧ e.1 ≠ tagKey

/-- An object whose tag names no kind, with other entries for which there is room. -/
def IsForeign (room : Nat) (s : Spelling) : Prop :=
  ∃ inner inside front tag back us name, room = inner + 1 ∧
    s = .object inside (front ++ tag :: back) ∧ StringUnit.decode tag.key.it = .ok tagKey ∧
    tag.value.it = .scalar (.string us) ∧ StringUnit.decode us = .ok name ∧
    (∀ kind : Kind, kind ≠ .unknown → kind.tag ≠ name) ∧ ∀ m ∈ front ++ back, IsUntagged inner m

theorem ofTag_eq_unknown {name : Text} (h : ∀ kind : Kind, kind ≠ .unknown → kind.tag ≠ name) :
    Kind.ofTag name = .unknown := by
  by_cases hname : Kind.unknown.tag = name
  · rw [← hname, Kind.ofTag_tag]
  · refine Kind.ofTag_of_forall_ne fun kind => ?_
    by_cases hkind : kind = .unknown
    · rwa [hkind]
    · exact h kind hkind

theorem under_eq_nil {α : Type} {key : Text} {es : List (Text × α)} (h : ∀ e ∈ es, e.1 ≠ key) :
    under key es = [] := by
  rw [under, List.map_eq_nil_iff, List.filter_eq_nil_iff]
  intro e he
  simpa using h e he

/-- Nothing but the tag of an unknown node is looked at. -/
theorem isNode_unknown {name : Text} (hname : Kind.ofTag name = .unknown)
    {front back : List (Text × Value)} (hfront : ∀ e ∈ front, e.1 ≠ tagKey)
    (hback : ∀ e ∈ back, e.1 ≠ tagKey) :
    IsNode .unknown (.object (front ++ (tagKey, .scalar (.string name)) :: back)) := by
  intro tag? htag
  have hkey : "type".toList = tagKey := rfl
  have hunder : under tagKey (front ++ (tagKey, .scalar (.string name)) :: back) =
      [.scalar (.string name)] := by
    rw [under_append, under_cons_self, under_eq_nil hfront, under_eq_nil hback, List.nil_append]
  rw [nodeBy?, ofEntries?, required?, hkey, entries_eq, under_map, hunder]
  simp only [List.map_cons, List.map_nil, reading_value, htag.name, hname]
  rfl

theorem IsForeign.exists_value {room : Nat} {s : Spelling} (h : IsForeign room s) :
    ∃ v, s.value room = .ok v ∧ IsNode .unknown v := by
  obtain ⟨inner, inside, front, tag, back, us, name, rfl, rfl, hkey, hvalue, hdecode, hname, hothers⟩ := h
  obtain ⟨es, hes, hes'⟩ := exists_mapM fun m hm => hothers m (List.mem_append_left back hm)
  obtain ⟨ls, hls, hls'⟩ := exists_mapM fun m hm => hothers m (List.mem_append_right front hm)
  have htag : Spelling.member inner tag = .ok (tagKey, .scalar (.string name)) := by
    refine Spelling.member_eq_ok.mpr ⟨hkey, ?_⟩
    rw [hvalue, Spelling.value, ScalarSpelling.scalar, hdecode]
    rfl
  have hentries := mapM_append_cons_eq_ok.mpr ⟨es, _, ls, hes, htag, hls, rfl⟩
  refine ⟨_, ?_, isNode_unknown (ofTag_eq_unknown hname) hes' hls'⟩
  rw [Spelling.value_object_succ, hentries, map_ok]

end ManPage.Load

namespace ManPage
open Json Load

/-- Every node of a document that is loaded has its context in the text. Whatever stands in a context
may be replaced by an object whose tag names no kind, and the document then is the same but for an
unknown node at the path of the context. -/
theorem Document.ofText_foreign {t : Text} {d : Document} (h : Document.ofText t = .ok d) :
    (∀ path n, d.at? path = some n →
      ∃ (c : Context) (s : Spelling), c.text s = t ∧ c.path = path ∧ IsText c.room n s) ∧
    ∀ (c : Context) (s s' : Spelling), c.text s = t → IsForeign c.room s' →
      Document.ofText (c.text s') = .ok (d.replaceAt .unknown c.path) := by
  constructor
  · intro path n hn
    exact exists_context h hn
  · rintro c s s' rfl hs'
    obtain ⟨v, hv, hnode⟩ := hs'.exists_value
    exact Document.ofText_replace h hv hnode

/-- A list with a rule in it, which is replaced by a node with a tag of another vocabulary. -/
theorem Document.ofText_foreign_video : ∃ (c : Context) (s s' : Spelling),
    c.text s = "[[[\"ul\",[\x7b\"type\":\"hr\"\x7d]]]]".toList ∧
    s'.text = "\x7b\"type\":\"video\",\"children\":null\x7d".toList ∧ IsForeign c.room s' ∧
    Document.ofText (c.text s') = .ok ⟨[.bulletList [.unknown]]⟩ := by
  have hload : Document.ofText "[[[\"ul\",[\x7b\"type\":\"hr\"\x7d]]]]".toList =
      .ok ⟨[.bulletList [.rule]]⟩ := by decide +kernel
  obtain ⟨hcontext, hforeign⟩ := Document.ofText_foreign hload
  obtain ⟨c, s, hc, hpath, -⟩ := hcontext [0, 0] .rule rfl
  have hroom : c.room = 122 + 1 := by
    have hlength := congrArg List.length hpath
    simp only [Context.path, List.length_cons, List.length_map, List.length_nil] at hlength
    simp only [Context.room, maxDepth]
    omega
  obtain ⟨key, hkeyText, hkey⟩ := exists_units tagKey
  obtain ⟨name, hnameText, hname⟩ := exists_units "video".toList
  obtain ⟨list, hlistText, hlist⟩ := exists_units "children".toList
  have hs' : IsForeign c.room (.object noSpace
      ([] ++ ⟨⟨noSpace, key, noSpace⟩, ⟨noSpace, .scalar (.string name), noSpace⟩⟩ ::
        [⟨⟨noSpace, list, noSpace⟩, ⟨noSpace, .scalar .null, noSpace⟩⟩])) := by
    refine ⟨122, _, _, _, _, name, _, hroom, rfl, hkey, rfl, hname, ?_, ?_⟩
    · intro kind _
      cases kind <;> decide
    · intro m hm
      obtain rfl := List.mem_singleton.mp hm
      exact ⟨("children".toList, .scalar .null), Spelling.member_eq_ok.mpr ⟨hlist, rfl⟩, by decide⟩
  have hreplaced := hforeign c s _ hc hs'
  rw [hpath] at hreplaced
  refine ⟨c, s, _, hc, ?_, hs', hreplaced⟩
  simp only [Spelling.text, Spelling.entryTexts, ScalarSpelling.text, Padded.text, StringUnit.literal,
    List.nil_append, hkeyText, hnameText, hlistText]
  decide

end ManPage
