import ManPage.Proofs.Json.Nesting
import ManPage.Proofs.Load.Declared

/-! # Reading nodes as declared

The node that is read from a value, entry by entry and up to the first error, is the one that the
schema declares; if the schema declares none, there is an error.
-/
namespace ManPage.Declared
open Json Load Outcome

section
variable {α β : Type} (f : α → β) (key : Text) (es : List (Text × α))

theorem under_map : under key (es.map fun e => (e.1, f e.2)) = (under key es).map f := by
  induction es with
  | nil => rfl
  | cons e es ih =>
    obtain ⟨k, a⟩ := e
    by_cases h : k = key
    · subst h
      rw [List.map_cons, under_cons_self, under_cons_self, ih, List.map_cons]
    · rw [List.map_cons, under_cons_of_ne h, under_cons_of_ne h, ih]

theorem mem_of_mem_under {a : α} (h : a ∈ under key es) : (key, a) ∈ es := by
  obtain ⟨e, he, rfl⟩ := List.mem_map.mp h
  obtain ⟨hmem, hkey⟩ := List.mem_filter.mp he
  have hkey : e.1 = key := by simpa using hkey
  rwa [← hkey]

end

section
variable (tag? : Value → Option Kind)

theorem readings_eq (vs : List Value) : readings tag? vs = vs.map (reading tag?) := by
  induction vs with
  | nil => rfl
  | cons v vs ih => rw [readings, ih, List.map_cons]

theorem entries_eq (es : List (Text × Value)) :
    entries tag? es = es.map fun e => (e.1, reading tag? e.2) := by
  induction es with
  | nil => rfl
  | cons e es ih => rw [entries, ih, List.map_cons]

@[simp] theorem reading_value (v : Value) : (reading tag? v).value = v := by
  cases v <;> rfl

end

/-! ## Fields -/

theorem toOption_readString (v : Value) : (readString v).toOption = string? v := by
  cases v with
  | scalar s => cases s <;> rfl
  | array _ | object _ => rfl

theorem toOption_readLevel (v : Value) : (readLevel v).toOption = level? v := by
  match v with
  | .scalar (.number (.integer n)) =>
    rw [readLevel, level?]
    split <;> rfl
  | .scalar (.number (.float _ _)) | .scalar .null | .scalar (.bool _) | .scalar (.string _)
  | .array _ | .object _ => rfl

theorem toOption_named {α : Type} (ofName? : Text → Option α) (unknown : Text → Mismatch) (t : Text) :
    (readSymbol.named ofName? unknown t).toOption = ofName? t := by
  rw [readSymbol.named]
  cases ofName? t <;> rfl

theorem toOption_readSymbol {α : Type} (ofName? : Text → Option α) (unknown : Text → Mismatch)
    (v : Value) : (readSymbol ofName? unknown v).toOption = symbol? ofName? v := by
  match v with
  | .scalar (.string t) => exact toOption_named ofName? unknown t
  | .scalar .null | .scalar (.bool _) | .scalar (.number _) | .array _ | .object [] => rfl
  | .object (e :: _ :: _) =>
    obtain ⟨_, w⟩ := e
    rw [readSymbol, symbol?]
    · rfl
    all_goals nofun
  | .object [(t, w)] =>
    have hnamed := toOption_named ofName? unknown t
    rw [readSymbol, toOption_bind, hnamed]
    match w with
    | .scalar .null | .object [] => cases h : ofName? t <;> simp [readUnit, symbol?, h]
    | .scalar (.bool _) | .scalar (.number _) | .scalar (.string _) | .array _ | .object (_ :: _) =>
      cases h : ofName? t <;> simp [readUnit, symbol?]

theorem toOption_readTag (v : Value) : (readTag v).toOption = kind? v := by
  match v with
  | .scalar (.number (.integer n)) =>
    rw [readTag, kind?]
    split <;> rfl
  | .scalar (.number (.float _ _)) | .scalar .null | .scalar (.bool _) | .scalar (.string _)
  | .array _ | .object _ => rfl

/-- What is read under the key of a field, with the children that are in it. -/
def content? : (f : Field) → Reading → Option f.Content
  | .value, r => string? r.value
  | .typographic, r => symbol? Typographic.ofName? r.value
  | .quote, r => symbol? Quote.ofName? r.value
  | .level, r => level? r.value
  | .rawText, r => string? r.value
  | .href, r => string? r.value
  | .children, r => r.nodes?

/-- The nodes in an array are read as they are declared. -/
def Agrees (v : Value) : Prop :=
  ∀ items, v = .array items → (readNodes items).toOption = nodes? kind? items

theorem toOption_read {v : Value} (h : Agrees v) (f : Field) :
    (f.read v).toOption = content? f (reading kind? v) := by
  cases f with
  | value | rawText | href =>
    rw [content?, reading_value]
    exact toOption_readString v
  | level =>
    rw [content?, reading_value]
    exact toOption_readLevel v
  | typographic =>
    rw [content?, reading_value]
    exact toOption_readSymbol _ _ v
  | quote =>
    rw [content?, reading_value]
    exact toOption_readSymbol _ _ v
  | children =>
    cases v with
    | scalar _ | object _ => rfl
    | array items => exact h items rfl

theorem gather_of_two (f : Field) (v w : Value) (vs : List Value) :
    f.gather (v :: w :: vs) none = none := by
  rw [Field.gather]
  cases (f.read v).toOption <;> rfl

section
variable {es : List (Text × Value)} (h : ∀ e ∈ es, Agrees e.2)
include h

/-- What is gathered for a field that must be given. -/
theorem required?_eq (f : Field) : required? f.key (content? f) (entries kind? es) =
    f.gather (under f.key es) none >>= id := by
  rw [required?, entries_eq, under_map]
  cases hunder : under f.key es with
  | nil => rfl
  | cons v vs =>
    have hv : Agrees v := h _ (mem_of_mem_under f.key es (hunder ▸ List.mem_cons_self))
    cases vs with
    | nil =>
      rw [Field.gather, toOption_read hv]
      change content? f (reading kind? v) = _
      cases content? f (reading kind? v) <;> rfl
    | cons w vs =>
      rw [gather_of_two]
      rfl

/-- What is gathered for the children, which may be left out. -/
theorem children?_eq : children? (entries kind? es) =
    (fun o => o.getD []) <$> Field.children.gather (under Field.children.key es) none := by
  have hkey : Field.children.key = "children".toList := rfl
  rw [children?, optional?, entries_eq, under_map, hkey]
  cases hunder : under "children".toList es with
  | nil => rfl
  | cons v vs =>
    have hv : Agrees v := h _ (mem_of_mem_under _ es (hunder ▸ List.mem_cons_self))
    cases vs with
    | nil =>
      rw [Field.gather, toOption_read hv]
      change (reading kind? v).nodes? = _
      rw [content?]
      cases (reading kind? v).nodes? <;> rfl
    | cons w vs =>
      rw [gather_of_two]
      rfl

/-- The node of a kind is the one that its gathered fields make. -/
theorem ofFields?_eq (kind : Kind) : ofFields? (entries kind? es) kind =
    gatherAll (fields kind) es {} >>= fun s => (nodeOfEntries kind s).toOption := by
  have hnil (s : Slots) : gatherAll [] es s = some s := rfl
  cases kind with
  | blank | rule | unknown => rfl
  | text | abbreviation | codeBlock | comment | codeSpan =>
    have hvalue : text? "value".toList (entries kind? es) = _ := required?_eq h .value
    simp only [ofFields?, hvalue, fields, gatherAll_cons, hnil, Slots.get_empty]
    cases Field.value.gather (under Field.value.key es) none with
    | none => rfl
    | some o => cases o <;> rfl
  | typographic =>
    have hvalue : required? "value".toList (fun r => symbol? Typographic.ofName? r.value)
        (entries kind? es) = _ := required?_eq h .typographic
    simp only [ofFields?, hvalue, fields, gatherAll_cons, hnil, Slots.get_empty]
    cases Field.typographic.gather (under Field.typographic.key es) none with
    | none => rfl
    | some o => cases o <;> rfl
  | quote =>
    have hvalue : required? "value".toList (fun r => symbol? Quote.ofName? r.value)
        (entries kind? es) = _ := required?_eq h .quote
    simp only [ofFields?, hvalue, fields, gatherAll_cons, hnil, Slots.get_empty]
    cases Field.quote.gather (under Field.quote.key es) none with
    | none => rfl
    | some o => cases o <;> rfl
  | bulletList | orderedList | listItem | blockQuote | paragraph | emphasis | strong =>
    simp only [ofFields?, children?_eq h, fields, gatherAll_cons, hnil, Slots.get_empty]
    cases Field.children.gather (under Field.children.key es) none <;> rfl
  | link =>
    have hhref : text? "href".toList (entries kind? es) = _ := required?_eq h .href
    have hget (o : Option Text) : (Slots.put {} .href o).get .children = none := rfl
    simp only [ofFields?, hhref, children?_eq h, fields, gatherAll_cons, hnil, Slots.get_empty, hget]
    cases Field.href.gather (under Field.href.key es) none with
    | none => rfl
    | some href =>
      cases Field.children.gather (under Field.children.key es) none with
      | none => cases href <;> rfl
      | some children => cases href <;> rfl
  | header =>
    have hlevel : required? "level".toList (fun r => level? r.value) (entries kind? es) = _ :=
      required?_eq h .level
    have hrawText : text? "raw_text".toList (entries kind? es) = _ := required?_eq h .rawText
    have hget (o : Option UInt8) : (Slots.put {} .level o).get .rawText = none := rfl
    have hget' (o : Option UInt8) (p : Option Text) :
        ((Slots.put {} .level o).put .rawText p).get .children = none := rfl
    simp only [ofFields?, hlevel, hrawText, children?_eq h, fields, gatherAll_cons, hnil,
      Slots.get_empty, hget, hget']
    cases Field.level.gather (under Field.level.key es) none with
    | none => rfl
    | some level =>
      cases Field.rawText.gather (under Field.rawText.key es) none with
      | none => cases level <;> rfl
      | some rawText =>
        cases Field.children.gather (under Field.children.key es) none with
        | none => cases level <;> cases rawText <;> rfl
        | some children => cases level <;> cases rawText <;> rfl

end

/-! ## Nodes -/

theorem toOption_need {α : Type} (absent absent' : Field → Mismatch) (f : Field) (o : Option α) :
    (Slots.need absent f o).toOption = (Slots.need absent' f o).toOption := by
  cases o <;> rfl

/-- Which error stands for a missing field does not matter. -/
theorem toOption_node (absent absent' : Field → Mismatch) (s : Slots) (kind : Kind) :
    (s.node absent kind).toOption = (s.node absent' kind).toOption := by
  cases kind <;> simp only [Slots.node, toOption_bind, toOption_need absent absent']

theorem toOption_nodeOfItems (kind : Kind) (given : Nat) (s : Slots) :
    (nodeOfItems kind given s).toOption =
      if given ≤ (fields kind).length then (nodeOfEntries kind s).toOption else none := by
  rw [nodeOfItems]
  by_cases hgiven : (fields kind).length < given
  · rw [if_pos hgiven, if_neg (Nat.not_le_of_lt hgiven)]
    rfl
  · rw [if_neg hgiven, if_pos (Nat.le_of_not_lt hgiven)]
    exact toOption_node _ _ s kind

theorem keys_eq (kind : Kind) : keys kind = (fields kind).map Field.key := by
  cases kind <;> rfl

theorem toOption_ofEntries {es : List (Text × Value)} (h : ∀ e ∈ es, Agrees e.2) (kind : Kind) :
    (ofEntries kind es).toOption = ofFields? (entries kind? es) kind := by
  rw [ofFields?_eq h, ofEntries, toOption_bind, toOption_readEntries (distinctKeys_fields kind)]

theorem toOption_ofItems {items : List Value} (h : ∀ v ∈ items, Agrees v) (kind : Kind) :
    (ofItems kind items).toOption = if items.length ≤ (keys kind).length
      then ofFields? ((keys kind).zip (readings kind? items)) kind else none := by
  have hzip : (keys kind).zip (readings kind? items) = entries kind? ((keys kind).zip items) := by
    rw [readings_eq, entries_eq, List.zip_map_right]
    rfl
  have hagrees : ∀ e ∈ (keys kind).zip items, Agrees e.2 := fun e he => h _ (List.of_mem_zip he).2
  have hlength : (keys kind).length = (fields kind).length := by rw [keys_eq, List.length_map]
  rw [ofItems, toOption_bind, toOption_readItems (distinctKeys_fields kind), ← keys_eq]
  simp only [toOption_nodeOfItems, hlength]
  split
  · rw [hzip, ofFields?_eq hagrees]
  · cases gatherAll (fields kind) ((keys kind).zip items) {} <;> rfl

/-- The kind of a node from the tags that stand in it, where one may have been found before them. -/
def foundKind? (tag? : Value → Option Kind) : Option Kind → List Value → Option Kind
  | none, [v] => tag? v
  | some kind, [] => some kind
  | _, _ => none

theorem foundKind?_none_cons (tag? : Value → Option Kind) (v : Value) (vs : List Value) :
    foundKind? tag? none (v :: vs) = tag? v >>= fun kind => foundKind? tag? (some kind) vs := by
  cases vs with
  | nil =>
    rw [foundKind?]
    cases tag? v <;> rfl
  | cons w vs =>
    rw [foundKind?]
    · cases tag? v <;> rfl
    all_goals nofun

theorem toOption_entriesKind (found : Option Kind) (es : List (Text × Value)) :
    (entriesKind found es).toOption = foundKind? kind? found (under tagKey es) := by
  induction es generalizing found with
  | nil => cases found <;> rfl
  | cons e es ih =>
    obtain ⟨key, v⟩ := e
    unfold entriesKind
    by_cases hkey : key = tagKey
    · subst hkey
      rw [if_pos rfl, under_cons_self]
      cases found with
      | some kind => rfl
      | none =>
        rw [foundKind?_none_cons, toOption_bind, toOption_readTag]
        simp only [ih]
    · rw [if_neg hkey, under_cons_of_ne hkey, ih]

theorem required?_tag (tag? : Value → Option Kind) (es : List (Text × Value)) :
    required? "type".toList (fun r => tag? r.value) (entries kind? es) =
      foundKind? tag? none (under tagKey es) := by
  have hkey : "type".toList = tagKey := rfl
  rw [required?, entries_eq, under_map, hkey]
  match under tagKey es with
  | [] => rfl
  | [v] =>
    change tag? (reading kind? v).value = tag? v
    rw [reading_value]
  | _ :: _ :: _ => rfl

theorem toOption_readNodes {items : List Value}
    (h : ∀ v ∈ items, (readNode v).toOption = node? kind? v) :
    (readNodes items).toOption = nodes? kind? items := by
  induction items with
  | nil => rfl
  | cons v vs ih =>
    have hvs := ih fun w hw => h w (List.mem_cons_of_mem v hw)
    rw [readNodes, nodes?, ← h v List.mem_cons_self, ← hvs, toOption_bind]
    simp only [toOption_bind, pure_eq, toOption_ok]
    rfl

/-- Every value is read as the node that it is declared to be. -/
theorem toOption_readNode (v : Value) : (readNode v).toOption = node? kind? v ∧ Agrees v := by
  induction v using Value.induct with
  | scalar s => exact ⟨rfl, nofun⟩
  | array items ih =>
    have hnodes := toOption_readNodes fun v hv => (ih v hv).1
    refine ⟨?_, ?_⟩
    · cases items with
      | nil => rfl
      | cons tag items =>
        have hitems := toOption_ofItems fun v hv => (ih v (List.mem_cons_of_mem tag hv)).2
        rw [readNode, node?, readings, ofItems?, reading_value, toOption_bind, toOption_readTag]
        have hlength : (readings kind? items).length = items.length := by
          rw [readings_eq, List.length_map]
        rw [hlength]
        congr 1
        funext kind
        rw [← hitems kind]
        rfl
    · rintro _ ⟨⟩
      exact hnodes
  | object es ih =>
    refine ⟨?_, nofun⟩
    have hentries := toOption_ofEntries fun e he => (ih e he).2
    rw [readNode, node?, ofEntries?, required?_tag, toOption_bind, toOption_entriesKind]
    congr 1
    funext kind
    rw [← hentries kind]
    rfl

theorem agrees (v : Value) : Agrees v := (toOption_readNode v).2

end ManPage.Declared
