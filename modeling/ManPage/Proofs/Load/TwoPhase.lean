import ManPage.Proofs.Json.Written
import ManPage.Proofs.Load.DeclaredNode
import ManPage.Proofs.Load.Grammar
import ManPage.Proofs.Load.Structure

/-! # Loading in two phases

A document is loaded in one pass over its text. The same document is had in two: first the text is read
as a JSON value, which takes no notice of documents, and then the value is taken as what the schema
declares it to be. Wherever the first phase has a value the two ways agree.
-/
namespace ManPage.Load
open Json Declared Outcome

/-! ## Nodes -/

theorem toOption_ofMismatch {α : Type} (x : Except Mismatch α) :
    (ofMismatch x).toOption = x.toOption := by
  cases x <;> rfl

theorem toOption_tag {s : Spelling} {room : Nat} {v : Value} (h : s.value room = .ok v) :
    s.tag.toOption = namedKind? v := by
  cases v with
  | scalar x =>
    obtain ⟨sc, rfl, hx⟩ := Spelling.exists_scalar_of_value h
    rw [Spelling.tag, hx]
    cases x <;> rfl
  | array vs =>
    obtain ⟨_, _, _, -, rfl, -⟩ := Spelling.exists_array_of_value h
    rfl
  | object es =>
    obtain ⟨_, _, _, -, rfl, -⟩ := Spelling.exists_object_of_value h
    rfl

/-- The entries of an object but for the tag. -/
def untagged (es : List (Text × Value)) : List (Text × Value) := es.filter fun e => e.1 != tagKey

/-- The entries of a block give its kind and leave all others to be read when it is closed. -/
theorem toOption_nodeEntries {room : Nat} {entries : List (Member Spelling)}
    {es : List (Text × Value)} (h : entries.mapM (Spelling.member room) = .ok es)
    (found : Option Kind) (done : List (Text × Value)) :
    (entries.foldlM (Spelling.nodeEntry room) (found, done) >>= Spelling.closeNode).toOption =
      foundKind? namedKind? found (under tagKey es) >>= fun kind =>
        (ofEntries kind (done.reverse ++ untagged es)).toOption := by
  induction entries generalizing es found done with
  | nil =>
    obtain rfl : [] = es := Except.ok.inj h
    cases found with
    | none => rfl
    | some kind =>
      rw [untagged, List.filter_nil, List.append_nil, List.foldlM_nil, pure_eq, ok_bind,
        Spelling.closeNode, under_nil, foundKind?, toOption_ofMismatch]
      rfl
  | cons m entries ih =>
    obtain ⟨⟨key, v⟩, es, hm, hes, rfl⟩ := mapM_cons_eq_ok.mp h
    obtain ⟨hkey, hv⟩ := Spelling.member_eq_ok.mp hm
    rw [List.foldlM_cons, bind_assoc]
    by_cases htag : key = tagKey
    · subst htag
      rw [under_cons_self]
      cases found with
      | some kind =>
        rw [Spelling.nodeEntry_secondTag hkey]
        rfl
      | none =>
        have hrest : untagged ((tagKey, v) :: es) = untagged es := by simp [untagged]
        rw [Spelling.nodeEntry_tag hkey, foundKind?_none_cons, ← toOption_tag hv, hrest]
        cases m.value.it.tag with
        | error e => rfl
        | ok kind => exact ih hes (some kind) done
    · have hrest : untagged ((key, v) :: es) = (key, v) :: untagged es := by
        simp [untagged, htag]
      rw [Spelling.nodeEntry_other hkey htag, under_cons_of_ne htag, hrest, hv, ofFault_ok, map_ok,
        ok_bind, ih hes]
      simp

theorem under_untagged {key : Text} (h : key ≠ tagKey) (es : List (Text × Value)) :
    under key (untagged es) = under key es := by
  induction es with
  | nil => rfl
  | cons e es ih =>
    obtain ⟨k, v⟩ := e
    by_cases hk : k = tagKey
    · have hrest : untagged ((k, v) :: es) = untagged es := by simp [untagged, hk]
      rw [hrest, ih, under_cons_of_ne fun hkey : k = key => h (hkey ▸ hk)]
    · have hrest : untagged ((k, v) :: es) = (k, v) :: untagged es := by simp [untagged, hk]
      rw [hrest]
      by_cases hkey : k = key
      · subst hkey
        rw [under_cons_self, under_cons_self, ih]
      · rw [under_cons_of_ne hkey, under_cons_of_ne hkey, ih]

/-- The tag is no field of any kind. -/
theorem ofFields?_untagged (es : List (Text × Value)) (kind : Kind) :
    ofFields? (entries kind? (untagged es)) kind = ofFields? (entries kind? es) kind := by
  have hfields (fs : List Field) (s : Slots) :
      gatherAll fs (untagged es) s = gatherAll fs es s := by
    have hunder (f : Field) : under f.key (untagged es) = under f.key es :=
      under_untagged f.key_ne_tagKey es
    simp only [gatherAll, hunder]
  rw [ofFields?_eq fun e _ => agrees e.2, ofFields?_eq fun e _ => agrees e.2, hfields]

/-- A block whose spelling has a value is what the schema declares of the value. -/
theorem toOption_node {s : Spelling} {room : Nat} {v : Value} (h : s.value room = .ok v) :
    (s.node room).toOption = block? kind? v := by
  cases v with
  | scalar x =>
    obtain ⟨sc, rfl, hx⟩ := Spelling.exists_scalar_of_value h
    rw [Spelling.node, hx]
    rfl
  | array vs =>
    obtain ⟨room, inside, items, rfl, rfl, hvs⟩ := Spelling.exists_array_of_value h
    cases vs with
    | nil =>
      rw [mapM_eq_ok_nil.mp hvs]
      rfl
    | cons v vs =>
      obtain ⟨tag, items, rfl, hv, hrest⟩ := mapM_eq_ok_cons.mp hvs
      have hitems := toOption_ofItems (fun v (_ : v ∈ vs) => agrees v)
      have hlength : (readings kind? vs).length = vs.length := by
        rw [readings_eq, List.length_map]
      rw [Spelling.node, block?, readings, ofItems?, reading_value, hlength, toOption_bind,
        toOption_tag hv, hrest]
      congr 1
      funext kind
      rw [ofFault_ok, ok_bind, toOption_ofMismatch, hitems kind]
  | object es =>
    obtain ⟨room, inside, entries, rfl, rfl, hes⟩ := Spelling.exists_object_of_value h
    rw [Spelling.node, toOption_nodeEntries hes, block?, ofEntries?, required?_tag]
    congr 1
    funext kind
    rw [List.reverse_nil, List.nil_append, toOption_ofEntries fun e _ => agrees e.2,
      ofFields?_untagged]

/-! ## Documents -/

/-- If what is had from each element is known from another thing that is had from it, then so it is for
all of them. -/
theorem toOption_mapM {ε ε' α β γ : Type} {f : α → Except ε β} {g : α → Except ε' γ}
    {k : β → Option γ} (h : ∀ a b, f a = .ok b → (g a).toOption = k b) {l : List α} {bs : List β}
    (hbs : l.mapM f = .ok bs) : (l.mapM g).toOption = bs.mapM k := by
  induction l generalizing bs with
  | nil =>
    cases hbs
    rfl
  | cons a l ih =>
    obtain ⟨b, cs, hb, hcs, rfl⟩ := mapM_cons_eq_ok.mp hbs
    rw [List.mapM_cons, List.mapM_cons, ← ih hcs, ← h a b hb, toOption_bind]
    simp only [toOption_bind, pure_eq, toOption_ok]
    rfl

theorem toOption_blocks {s : Spelling} {v : Value} (h : s.value (maxDepth - 1) = .ok v) :
    s.blocks.toOption = blocks? kind? v := by
  cases v with
  | scalar x =>
    obtain ⟨sc, rfl, hx⟩ := Spelling.exists_scalar_of_value h
    rw [Spelling.blocks, hx]
    rfl
  | array vs =>
    obtain ⟨room, inside, items, hroom, rfl, hvs⟩ := Spelling.exists_array_of_value h
    cases hroom
    exact toOption_mapM (fun p v hv => toOption_node hv) hvs
  | object es =>
    obtain ⟨_, _, _, -, rfl, -⟩ := Spelling.exists_object_of_value h
    rfl

/-- The blocks of a document from what stands under their key, where they may have been found before. -/
def foundBlocks? : Option (List Node) → List Value → Option (Option (List Node))
  | found, [] => some found
  | none, [v] => some <$> blocks? kind? v
  | _, _ => none

theorem foundBlocks?_some_cons (bs : List Node) (v : Value) (vs : List Value) :
    foundBlocks? (some bs) (v :: vs) = none := by
  cases vs <;> rfl

theorem toOption_documentEntries {entries : List (Member Spelling)} {es : List (Text × Value)}
    (h : entries.mapM (Spelling.member (maxDepth - 1)) = .ok es) (found : Option (List Node)) :
    (entries.foldlM Spelling.documentEntry found).toOption =
      foundBlocks? found (under Document.blocksKey es) := by
  induction entries generalizing es found with
  | nil =>
    cases h
    rfl
  | cons m entries ih =>
    obtain ⟨⟨key, v⟩, es, hm, hes, rfl⟩ := mapM_cons_eq_ok.mp h
    obtain ⟨hkey, hv⟩ := Spelling.member_eq_ok.mp hm
    rw [List.foldlM_cons]
    by_cases hblocks : key = Document.blocksKey
    · subst hblocks
      rw [under_cons_self]
      cases found with
      | some bs =>
        rw [Spelling.documentEntry_secondBlocks hkey, foundBlocks?_some_cons]
        rfl
      | none =>
        have hrest := fun bs => ih hes (some bs)
        rw [Spelling.documentEntry_blocks hkey, toOption_bind, toOption_map, toOption_blocks hv]
        simp only [Option.map_eq_map, Option.bind_eq_bind, Option.bind_map, Function.comp_def, hrest]
        cases under Document.blocksKey es with
        | nil =>
          rw [foundBlocks?]
          cases blocks? kind? v <;> rfl
        | cons w vs =>
          simp only [foundBlocks?_some_cons]
          cases blocks? kind? v <;> rfl
    · rw [Spelling.documentEntry_other hkey hblocks, under_cons_of_ne hblocks, ok_bind, ih hes]

/-- A document whose spelling has a value is what the schema declares of the value. -/
theorem toOption_document {s : Spelling} {v : Value} (h : s.value maxDepth = .ok v) :
    s.document.toOption = document? kind? v := by
  cases v with
  | scalar x =>
    obtain ⟨sc, rfl, hx⟩ := Spelling.exists_scalar_of_value h
    rw [Spelling.document, hx]
    rfl
  | array vs =>
    obtain ⟨room, inside, items, hroom, rfl, hvs⟩ := Spelling.exists_array_of_value h
    cases hroom
    rcases vs with _ | ⟨v, _ | ⟨w, vs⟩⟩
    · rw [mapM_eq_ok_nil.mp hvs]
      rfl
    · obtain ⟨p, _, rfl, hv, hrest⟩ := mapM_eq_ok_cons.mp hvs
      rw [mapM_eq_ok_nil.mp hrest, Spelling.document, toOption_map, toOption_blocks hv]
      rfl
    · obtain ⟨p, _, rfl, -, hrest⟩ := mapM_eq_ok_cons.mp hvs
      obtain ⟨q, items, rfl, -, -⟩ := mapM_eq_ok_cons.mp hrest
      rw [Spelling.document]
      cases p.it.blocks <;> rfl
  | object es =>
    obtain ⟨room, inside, entries, hroom, rfl, hes⟩ := Spelling.exists_object_of_value h
    cases hroom
    have hkey : "children".toList = Document.blocksKey := rfl
    rw [Spelling.document, toOption_map, toOption_documentEntries hes, document?, optional?, hkey]
    rcases under Document.blocksKey es with _ | ⟨v, _ | ⟨w, vs⟩⟩
    · rfl
    · rw [foundBlocks?]
      change _ = Document.mk <$> blocks? kind? v
      cases blocks? kind? v <;> rfl
    · rfl

/-! ## Texts -/

/-- The text is one of the grammar. -/
def IsJson (t : Text) : Prop := ∃ p : Padded Spelling, p.text Spelling.text = t

/-- A strict reader has the value from the text: the text is one of the grammar, its numbers are in
range, its surrogates are paired, and no more than 127 brackets are nested. -/
def Spells (t : Text) (v : Value) : Prop :=
  ∃ p : Padded Spelling, p.text Spelling.text = t ∧ p.it.value 127 = .ok v

theorem spells_write (form : Form) {v : Value} (h : v.IsPlain) (hdepth : v.depth ≤ 127) :
    Spells (form.write 0 v []) v := by
  obtain ⟨p, htext, hvalue⟩ := exists_text_eq form h
  refine ⟨p, htext, ?_⟩
  rw [p.it.value_within hvalue, if_pos hdepth]

/-- Loading a document agrees with reading a value and taking it as the document that it is declared to
be, and loads from nothing but texts of the grammar. -/
theorem load_declared :
    (∀ t v, Spells t v → ∀ d, Document.ofText t = .ok d ↔ document? kind? v = some d) ∧
    ∀ t d, Document.ofText t = .ok d → IsJson t := by
  refine ⟨?_, ?_⟩
  · rintro _ v ⟨p, rfl, hv⟩ d
    rw [Document.ofText_text, ← toOption_eq_some, toOption_document hv]
  · intro t d h
    exact Document.exists_padded_of_ofText h

/-- A list whose one item has its kind by number. -/
def numberedText : Text :=
  "\x7b\"children\":[\x7b\"type\":\"ul\",\"children\":[\x7b\"type\":1,\"value\":\"x\"\x7d]\x7d]\x7d".toList

def numberedValue : Value :=
  .object [("children".toList, .array [.object [("type".toList, .scalar (.string "ul".toList)),
    ("children".toList, .array [.object [("type".toList, .scalar (.number (.integer 1))),
      ("value".toList, .scalar (.string "x".toList))]])]])]

theorem spells_numbered : Spells numberedText numberedValue := by
  have hitem : Value.IsPlain (.object [("type".toList, .scalar (.number (.integer 1))),
      ("value".toList, .scalar (.string "x".toList))]) :=
    .object (List.forall_mem_cons.mpr ⟨.scalar ⟨by decide, by decide⟩,
      List.forall_mem_singleton.mpr (.scalar trivial)⟩)
  have hlist := Value.IsPlain.array (List.forall_mem_singleton.mpr hitem)
  have hplain : numberedValue.IsPlain :=
    .object (List.forall_mem_singleton.mpr (.array (List.forall_mem_singleton.mpr
      (.object (List.forall_mem_cons.mpr ⟨.scalar trivial, List.forall_mem_singleton.mpr hlist⟩)))))
  have htext : numberedText = Form.compact.write 0 numberedValue [] := by decide +kernel
  rw [htext]
  exact spells_write .compact hplain (by decide)

theorem document?_numbered :
    document? kind? numberedValue = some ⟨[.bulletList [.text "x".toList]]⟩ := by decide +kernel

theorem load_numbered : Spells numberedText numberedValue ∧
    Document.ofText numberedText = .ok ⟨[.bulletList [.text "x".toList]]⟩ ∧ IsJson numberedText := by
  have hload := (load_declared.1 _ _ spells_numbered _).mpr document?_numbered
  exact ⟨spells_numbered, hload, load_declared.2 _ _ hload⟩

/-- Loading does not agree with a schema in which every tag is a name. -/
theorem load_not_named : ¬ ∀ t v, Spells t v → ∀ d,
    Document.ofText t = .ok d ↔ document? namedKind? v = some d := by
  intro h
  have hload : (Document.ofText numberedText).toOption = some ⟨[.bulletList [.text "x".toList]]⟩ := by
    decide +kernel
  have hnone : document? namedKind? numberedValue = none := by decide +kernel
  have hsome := (h _ _ spells_numbered _).mp (toOption_eq_some.mp hload)
  exact absurd (hnone.symm.trans hsome) (Option.some_ne_none _).symm

end ManPage.Load
