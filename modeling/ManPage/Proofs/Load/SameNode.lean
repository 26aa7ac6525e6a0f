import ManPage.Proofs.Load.UnknownKind

/-! # Values that are the same node

The same node may be a value in many ways: its entries stand in any order, with other entries between
them; it is an object or an array; an empty list of children is there or not.
-/
namespace ManPage.Declared
open Json Load

/-! ## Fields -/

section
variable {α : Type} {es es' : List (Text × α)} {key : Text}

theorem under_perm (h : es.Perm es') (key : Text) : (under key es).Perm (under key es') :=
  (h.filter _).map Prod.snd

variable (h : (under key es).Perm (under key es'))
include h

/-- Whether one thing stands under a key does not depend on the order of the entries. -/
theorem required?_perm {β : Type} (decode : α → Option β) :
    required? key decode es = required? key decode es' := by
  rw [required?, required?]
  generalize under key es = l, under key es' = l' at h
  have hlength := h.length_eq
  rcases l with _ | ⟨a, _ | ⟨b, l⟩⟩ <;> rcases l' with _ | ⟨a', _ | ⟨b', l'⟩⟩
  case cons.nil.cons.nil => rw [List.singleton_perm_singleton.mp h]
  all_goals first | rfl | (simp at hlength)

theorem optional?_perm : optional? key es = optional? key es' := by
  rw [optional?, optional?]
  generalize under key es = l, under key es' = l' at h
  have hlength := h.length_eq
  rcases l with _ | ⟨a, _ | ⟨b, l⟩⟩ <;> rcases l' with _ | ⟨a', _ | ⟨b', l'⟩⟩
  case cons.nil.cons.nil => rw [List.singleton_perm_singleton.mp h]
  all_goals first | rfl | (simp at hlength)

end

theorem children?_perm {es es' : List (Text × Reading)}
    (h : (under Document.blocksKey es).Perm (under Document.blocksKey es')) :
    children? es = children? es' := by
  have hoptional : optional? "children".toList es = optional? "children".toList es' := optional?_perm h
  rw [children?, children?, hoptional]

/-- A node has nothing from its entries but what stands under the keys of its fields. -/
theorem ofFields?_congr {es es' : List (Text × Reading)} {kind : Kind}
    (hfields : ∀ key ∈ keys kind, key ≠ Document.blocksKey → (under key es).Perm (under key es'))
    (hchildren : Document.blocksKey ∈ keys kind → children? es = children? es') :
    ofFields? es kind = ofFields? es' kind := by
  have hrequired {β : Type} {key : Text} (hmem : key ∈ keys kind) (hne : key ≠ Document.blocksKey)
      (decode : Reading → Option β) : required? key decode es = required? key decode es' :=
    required?_perm (hfields key hmem hne) decode
  cases kind with
  | blank | rule | unknown => rfl
  | text | abbreviation | codeBlock | comment | codeSpan =>
    rw [ofFields?, ofFields?, text?, text?, hrequired List.mem_cons_self (by decide)]
  | typographic | quote =>
    rw [ofFields?, ofFields?, hrequired List.mem_cons_self (by decide)]
  | header =>
    rw [ofFields?, ofFields?, text?, text?, hrequired (by decide) (by decide),
      hrequired (by decide) (by decide), hchildren (by decide)]
  | link =>
    rw [ofFields?, ofFields?, text?, text?, hrequired (by decide) (by decide), hchildren (by decide)]
  | bulletList | orderedList | listItem | blockQuote | paragraph | emphasis | strong =>
    rw [ofFields?, ofFields?, hchildren List.mem_cons_self]

/-- No field is named as the tag. -/
theorem ne_tagKey_of_mem_keys {kind : Kind} {key : Text} (h : key ∈ keys kind) : tagKey ≠ key := by
  have hall : ∀ key ∈ keys kind, tagKey ≠ key := by
    cases kind <;> decide
  exact hall key h

theorem nodup_keys (kind : Kind) : (keys kind).Nodup := by
  cases kind <;> decide

section
variable {front back : List (Text × Reading)} {kind : Kind} {r : Reading}

/-- An entry under a key that is no field is not looked at. -/
theorem ofFields?_ignored {key : Text} (h : key ∉ keys kind) :
    ofFields? (front ++ (key, r) :: back) kind = ofFields? (front ++ back) kind := by
  have hunder : ∀ other ∈ keys kind, under other (front ++ (key, r) :: back) =
      under other (front ++ back) := by
    intro other hother
    have hne : key ≠ other := fun heq => h (heq ▸ hother)
    rw [under_append, under_append, under_cons_of_ne hne]
  exact ofFields?_congr (fun other hother _ => .of_eq (hunder other hother)) fun hblocks =>
    children?_perm (.of_eq (hunder _ hblocks))

/-- An empty list of children may be left out. -/
theorem ofFields?_noChildren (hnone : ∀ e ∈ front ++ back, e.1 ≠ Document.blocksKey)
    (hr : r.nodes? = some []) :
    ofFields? (front ++ (Document.blocksKey, r) :: back) kind = ofFields? (front ++ back) kind := by
  apply ofFields?_congr
  · intro key _ hne
    rw [under_append, under_append, under_cons_of_ne (Ne.symm hne)]
  · intro _
    have hkey : "children".toList = Document.blocksKey := rfl
    rw [List.forall_mem_append] at hnone
    simp only [children?, optional?, hkey, under_append, under_cons_self, under_eq_nil hnone.1,
      under_eq_nil hnone.2]
    exact hr

end

/-! ## Nodes -/

/-- Tags are read by name, and otherwise as the number of a kind if at all. -/
structure ReadsTags (tag? : Value → Option Kind) : Prop extends ReadsNames tag? where
  kind : ∀ v kind, tag? v = some kind → kind? v = some kind

theorem readsTags_kind? : ReadsTags kind? := ⟨readsNames_kind?, fun _ _ => id⟩

theorem readsTags_namedKind? : ReadsTags namedKind? := by
  refine ⟨readsNames_namedKind?, ?_⟩
  intro v kind h
  unfold namedKind? at h
  split at h
  · exact h
  · contradiction

/-- The values are the same node or no node, whichever way their own tag is read. -/
def Agree (v w : Value) : Prop := ∀ tag?, ReadsTags tag? → nodeBy? tag? v = nodeBy? tag? w

theorem Agree.symm {v w : Value} (h : Agree v w) : Agree w v := fun tag? htag => (h tag? htag).symm

theorem ofEntries?_congr {tag? : Value → Option Kind} {es es' : List (Text × Reading)}
    (htag : (under tagKey es).Perm (under tagKey es'))
    (hfields : ∀ kind, required? tagKey (fun r => tag? r.value) es = some kind →
      ofFields? es kind = ofFields? es' kind) : ofEntries? tag? es = ofEntries? tag? es' := by
  have hkey : "type".toList = tagKey := rfl
  rw [ofEntries?, ofEntries?, hkey, ← required?_perm htag]
  exact Option.bind_congr fun kind hkind => hfields kind hkind

theorem agree_of_perm {es es' : List (Text × Value)} (h : es.Perm es') :
    Agree (.object es) (.object es') := by
  intro tag? _
  have hentries : (entries kind? es).Perm (entries kind? es') := by
    rw [entries_eq, entries_eq]
    exact h.map _
  refine ofEntries?_congr (under_perm hentries _) fun kind _ => ofFields?_congr ?_ ?_
  · exact fun key _ _ => under_perm hentries key
  · exact fun _ => children?_perm (under_perm hentries _)

/-- The value of the tag names the kind. -/
def HasKind (kind : Kind) (es : List (Text × Value)) : Prop :=
  ∃ v, (tagKey, v) ∈ es ∧ kind? v = some kind

theorem agree_ignored {front back : List (Text × Value)} {kind : Kind} {key : Text}
    (hkind : HasKind kind (front ++ back)) (htag : key ≠ tagKey) (hkey : key ∉ keys kind) (v : Value) :
    Agree (.object (front ++ (key, v) :: back)) (.object (front ++ back)) := by
  obtain ⟨w, hmem, hw⟩ := hkind
  intro tag? htag?
  simp only [nodeBy?, entries_eq, List.map_append, List.map_cons]
  refine (ofEntries?_congr ?_ ?_).symm
  · rw [under_append, under_append, under_cons_of_ne htag]
  · intro other hother
    have hreading := List.mem_map_of_mem (f := fun e => (e.1, reading kind? e.2)) hmem
    rw [List.map_append] at hreading
    obtain ⟨before, behind, heq⟩ := List.append_of_mem hreading
    rw [heq] at hother
    have hkindOf := htag?.kind _ _ (decode_of_required? hother)
    rw [reading_value, hw] at hkindOf
    obtain rfl := Option.some.inj hkindOf
    exact (ofFields?_ignored hkey).symm

theorem zip_of_prefix {α : Type} {ks : List Text} {es : List (Text × α)}
    (h : es.map Prod.fst <+: ks) : ks.zip (es.map Prod.snd) = es := by
  induction es generalizing ks with
  | nil => exact List.zip_nil_right
  | cons e es ih =>
    obtain ⟨rest, rfl⟩ := h
    rw [List.map_cons, List.map_cons, List.cons_append, List.zip_cons_cons, ih (List.prefix_append _ _)]

section
variable {tag? : Value → Option Kind} (htag? : ReadsTags tag?) {v : Value} {kind : Kind}
  (hv : kind? v = some kind)
include htag? hv

/-- If a tag is read at all it is the kind. -/
theorem bind_tag {β : Type} (f : Kind → Option β) : (tag? v).bind f = (tag? v).bind fun _ => f kind := by
  refine Option.bind_congr fun other hother => ?_
  have hkind := htag?.kind v other hother
  rw [hv] at hkind
  rw [Option.some.inj hkind]

theorem nodeBy?_array (vs : List Value) : nodeBy? tag? (.array (v :: vs)) = (tag? v).bind fun _ =>
    if vs.length ≤ (keys kind).length then
      ofFields? ((keys kind).zip (vs.map (reading kind?))) kind else none := by
  rw [nodeBy?, readings_eq, List.map_cons, ofItems?, reading_value]
  refine (bind_tag htag? hv _).trans ?_
  rw [List.length_map]

theorem nodeBy?_object {fields : List (Text × Value)} (h : ∀ e ∈ fields, e.1 ≠ tagKey) :
    nodeBy? tag? (.object ((tagKey, v) :: fields)) =
      (tag? v).bind fun _ => ofFields? (entries kind? fields) kind := by
  have hkey : "type".toList = tagKey := rfl
  have hentries : entries kind? ((tagKey, v) :: fields) =
      (tagKey, reading kind? v) :: entries kind? fields := by
    rw [entries]
  have hnone : under tagKey (entries kind? fields) = [] := by
    rw [entries_eq, under_map, under_eq_nil h, List.map_nil]
  have htagKey : tagKey ∉ keys kind := fun hmem => ne_tagKey_of_mem_keys hmem rfl
  rw [nodeBy?, hentries, ofEntries?, hkey, required?, under_cons_self, hnone]
  dsimp only
  rw [reading_value, ← List.nil_append (_ :: _)]
  refine (bind_tag htag? hv _).trans ?_
  rw [ofFields?_ignored htagKey, List.nil_append]

end

/-- An object with its fields in order is an array. -/
theorem agree_form {v : Value} {kind : Kind} {fields : List (Text × Value)}
    (hv : kind? v = some kind) (h : fields.map Prod.fst <+: keys kind) :
    Agree (.object ((tagKey, v) :: fields)) (.array (v :: fields.map Prod.snd)) := by
  intro tag? htag?
  have hkeys : ∀ e ∈ fields, e.1 ≠ tagKey := fun e he =>
    (ne_tagKey_of_mem_keys (h.subset (List.mem_map_of_mem he))).symm
  have hlength : (fields.map Prod.snd).length ≤ (keys kind).length := by
    have hle := h.length_le
    rwa [List.length_map] at hle ⊢
  have hzip : (keys kind).zip ((fields.map Prod.snd).map (reading kind?)) = entries kind? fields := by
    rw [List.zip_map_right, zip_of_prefix h, entries_eq]
    rfl
  rw [nodeBy?_object htag? hv hkeys, nodeBy?_array htag? hv, if_pos hlength, hzip]

theorem agree_noChildren {front back : List (Text × Value)}
    (h : ∀ e ∈ front ++ back, e.1 ≠ Document.blocksKey) :
    Agree (.object (front ++ (Document.blocksKey, .array []) :: back)) (.object (front ++ back)) := by
  intro tag? _
  have hnone : ∀ e ∈ entries kind? front ++ entries kind? back, e.1 ≠ Document.blocksKey := by
    rw [entries_eq, entries_eq, ← List.map_append, List.forall_mem_map]
    exact h
  simp only [nodeBy?, entries_eq, List.map_append, List.map_cons] at hnone ⊢
  refine ofEntries?_congr ?_ fun kind _ => ofFields?_noChildren hnone rfl
  rw [under_append, under_append, under_cons_of_ne (by decide)]

/-- In an array the children are the last field. -/
theorem agree_noChildren_array {v : Value} {kind : Kind} {ks : List Text} {vs : List Value}
    (hv : kind? v = some kind) (hkeys : keys kind = ks ++ [Document.blocksKey])
    (hlength : vs.length = ks.length) :
    Agree (.array (v :: (vs ++ [.array []]))) (.array (v :: vs)) := by
  intro tag? htag?
  have hnodup := nodup_keys kind
  rw [hkeys, List.nodup_append] at hnodup
  have hzip : ks.length = (vs.map (reading kind?)).length := by rw [List.length_map, hlength]
  have hlong : (vs ++ [Value.array []]).length ≤ (keys kind).length := by
    rw [hkeys, List.length_append, List.length_append, hlength]
    exact Nat.le_refl _
  have hshort : vs.length ≤ (keys kind).length := by
    rw [hkeys, List.length_append, hlength]
    exact Nat.le_add_right _ _
  have hnone : ∀ e ∈ ks.zip (vs.map (reading kind?)) ++ [], e.1 ≠ Document.blocksKey := by
    rw [List.append_nil]
    intro e he
    exact hnodup.2.2 _ (List.of_mem_zip he).1 _ (List.mem_singleton.mpr rfl)
  have hempty : (keys kind).zip (vs.map (reading kind?)) = ks.zip (vs.map (reading kind?)) ++ [] :=
    calc
      _ = (ks ++ [Document.blocksKey]).zip (vs.map (reading kind?) ++ []) := by
        rw [hkeys, List.append_nil]
      _ = ks.zip (vs.map (reading kind?)) ++ [Document.blocksKey].zip [] := List.zip_append hzip
  rw [nodeBy?_array htag? hv, nodeBy?_array htag? hv, if_pos hlong, if_pos hshort, hempty, hkeys,
    List.map_append, List.zip_append hzip]
  refine Option.bind_congr fun _ _ => ?_
  exact ofFields?_noChildren hnone rfl

end ManPage.Declared
