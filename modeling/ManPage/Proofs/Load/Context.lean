import ManPage.Proofs.Load.TwoPhase
import ManPage.Proofs.Tree.Subtree

/-! # Nodes in their contexts

A node in a text is one of an array of children, and the array stands under a key of an object, or is an
element of an array, which again is a node in a text, up to the document. What is around the node is its
context, with a hole where the node stands. If another node is put into the hole, the document changes
at the path of the hole and nowhere else.
-/
namespace ManPage.Json
open Load

/-- The place of an element in an array. -/
structure ItemFrame where
  inside : Space
  front : List (Padded Spelling)
  before : Space
  behind : Space
  back : List (Padded Spelling)

/-- The place of what stands under a key of an object. -/
structure EntryFrame (key : Text) where
  inside : Space
  front : List (Member Spelling)
  name : Padded (List StringUnit)
  decode_name : StringUnit.decode name.it = .ok key
  before : Space
  behind : Space
  back : List (Member Spelling)

/-- The place of the array of all blocks in a document, or of all children in a node. -/
inductive ListFrame
  | entry (f : EntryFrame Document.blocksKey)
  | item (f : ItemFrame)

/-- The place of a block in a document, or of a child in a node. -/
structure Frame where
  list : ListFrame
  item : ItemFrame

/-- The place of a node in a text; the frames inside that of the document are given from the block
inwards. -/
structure Context where
  before : Space
  document : Frame
  nodes : List Frame
  behind : Space

def ItemFrame.fill (f : ItemFrame) (s : Spelling) : Spelling :=
  .array f.inside (f.front ++ ⟨f.before, s, f.behind⟩ :: f.back)

def EntryFrame.member {key : Text} (f : EntryFrame key) (s : Spelling) : Member Spelling :=
  ⟨f.name, ⟨f.before, s, f.behind⟩⟩

def EntryFrame.fill {key : Text} (f : EntryFrame key) (s : Spelling) : Spelling :=
  .object f.inside (f.front ++ f.member s :: f.back)

def ListFrame.fill : ListFrame → Spelling → Spelling
  | entry f => f.fill
  | item f => f.fill

namespace Frame

def fill (f : Frame) (s : Spelling) : Spelling := f.list.fill (f.item.fill s)

/-- The index of the child. -/
def index (f : Frame) : Nat := f.item.front.length

/-- A spelling in the hole of the frames, outermost first. -/
def fillAll (fs : List Frame) (s : Spelling) : Spelling := fs.foldr fill s

@[simp] theorem fillAll_nil (s : Spelling) : fillAll [] s = s := rfl

@[simp] theorem fillAll_cons (f : Frame) (fs : List Frame) (s : Spelling) :
    fillAll (f :: fs) s = f.fill (fillAll fs s) := rfl

end Frame

namespace Context

def text (c : Context) (s : Spelling) : Text :=
  Padded.text Spelling.text ⟨c.before, c.document.fill (Frame.fillAll c.nodes s), c.behind⟩

/-- The path of the hole in the document. -/
def path (c : Context) : List Nat := c.document.index :: c.nodes.map Frame.index

/-- How many brackets may be opened in the hole. -/
def room (c : Context) : Nat := maxDepth - 2 - 2 * c.nodes.length

end Context
end ManPage.Json

namespace ManPage.Declared
open Json Load

theorem under_append {α : Type} (key : Text) (es fs : List (Text × α)) :
    under key (es ++ fs) = under key es ++ under key fs := by
  simp [under]

theorem exists_append_of_getElem? {α : Type} {l : List α} {i : Nat} {a : α} (h : l[i]? = some a) :
    ∃ front back, l = front ++ a :: back ∧ front.length = i := by
  obtain ⟨hi, rfl⟩ := List.getElem?_eq_some_iff.mp h
  refine ⟨l.take i, l.drop (i + 1), ?_, ?_⟩
  · rw [← List.drop_eq_getElem_cons hi, List.take_append_drop]
  · rw [List.length_take, Nat.min_eq_left (Nat.le_of_lt hi)]

/-! ## Children of declared nodes -/

/-- Tags are read by name, and are no arrays. -/
structure ReadsNames (tag? : Value → Option Kind) : Prop where
  name : ∀ t, tag? (.scalar (.string t)) = some (Kind.ofTag t)
  array : ∀ vs, tag? (.array vs) = none

theorem readsNames_kind? : ReadsNames kind? := ⟨fun _ => rfl, fun _ => rfl⟩

theorem readsNames_namedKind? : ReadsNames namedKind? := ⟨fun _ => rfl, fun _ => rfl⟩

/-- A node whose own tag is read by `tag?`. -/
def nodeBy? (tag? : Value → Option Kind) : Value → Option Node
  | .scalar _ => none
  | .array items => ofItems? tag? (readings kind? items)
  | .object es => ofEntries? tag? (entries kind? es)

theorem node?_eq (v : Value) : node? kind? v = nodeBy? kind? v := by
  cases v with
  | scalar _ => rfl
  | array items => rw [node?, nodeBy?]
  | object es => rw [node?, nodeBy?]

theorem block?_eq (v : Value) : block? kind? v = nodeBy? namedKind? v := by
  cases v <;> rfl

section
variable {front back : List (Text × Reading)} {r r' : Reading} {f : List Node → List Node}
  {kind : Kind} {n : Node}

theorem required?_replace {α : Type} {key other : Text} (h : other ≠ key) (decode : Reading → Option α) :
    required? key decode (front ++ (other, r) :: back) =
      required? key decode (front ++ (other, r') :: back) := by
  simp only [required?, under_append, under_cons_of_ne h]

section
variable (hr : ∀ ns, r.nodes? = some ns → r'.nodes? = some (f ns))
include hr

theorem children?_replace {ns : List Node}
    (h : children? (front ++ (Document.blocksKey, r) :: back) = some ns) :
    children? (front ++ (Document.blocksKey, r') :: back) = some (f ns) := by
  have hkey : "children".toList = Document.blocksKey := rfl
  simp only [children?, optional?, hkey, under_append, under_cons_self] at h ⊢
  cases hfront : under Document.blocksKey front with
  | nil =>
    cases hback : under Document.blocksKey back with
    | nil =>
      rw [hfront, hback] at h
      exact hr ns h
    | cons b bs =>
      rw [hfront, hback] at h
      contradiction
  | cons a as =>
    rw [hfront] at h
    cases as <;> contradiction

/-- Of the fields of a node only its children are changed. -/
theorem ofFields?_replace (h : ofFields? (front ++ (Document.blocksKey, r) :: back) kind = some n) :
    ofFields? (front ++ (Document.blocksKey, r') :: back) kind = some (n.mapChildren f) := by
  have hother {α : Type} {key : Text} (hkey : Document.blocksKey ≠ key) (decode : Reading → Option α) :
      required? key decode (front ++ (Document.blocksKey, r) :: back) =
        required? key decode (front ++ (Document.blocksKey, r') :: back) :=
    required?_replace hkey decode
  cases kind with
  | blank | rule | unknown =>
    cases h
    rfl
  | text | abbreviation | codeBlock | comment | codeSpan =>
    rw [ofFields?, text?, hother (by decide)] at h
    obtain ⟨t, ht, rfl⟩ := Option.map_eq_some_iff.mp h
    rw [ofFields?, text?, ht]
    rfl
  | typographic | quote =>
    rw [ofFields?, hother (by decide)] at h
    obtain ⟨t, ht, rfl⟩ := Option.map_eq_some_iff.mp h
    rw [ofFields?, ht]
    rfl
  | header =>
    simp only [ofFields?, text?, Option.bind_eq_bind, Option.bind_eq_some_iff] at h
    obtain ⟨level, hlevel, rawText, hraw, ns, hns, hn⟩ := h
    cases hn
    rw [hother (by decide)] at hlevel hraw
    rw [ofFields?, text?, hlevel, hraw, children?_replace hr hns]
    rfl
  | link =>
    simp only [ofFields?, text?, Option.bind_eq_bind, Option.bind_eq_some_iff] at h
    obtain ⟨href, hhref, ns, hns, hn⟩ := h
    cases hn
    rw [hother (by decide)] at hhref
    rw [ofFields?, text?, hhref, children?_replace hr hns]
    rfl
  | bulletList | orderedList | listItem | blockQuote | paragraph | emphasis | strong =>
    rw [ofFields?] at h
    obtain ⟨ns, hns, rfl⟩ := Option.map_eq_some_iff.mp h
    rw [ofFields?, children?_replace hr hns]
    rfl

end

theorem decode_of_required? {α : Type} {key : Text} {decode : Reading → Option α} {a : α}
    (h : required? key decode (front ++ (key, r) :: back) = some a) : decode r = some a := by
  rw [required?, under_append, under_cons_self] at h
  cases hfront : under key front with
  | nil =>
    cases hback : under key back with
    | nil => rwa [hfront, hback] at h
    | cons b bs =>
      rw [hfront, hback] at h
      contradiction
  | cons a as =>
    rw [hfront] at h
    cases as <;> contradiction

/-- Only the children of a node are an array. -/
theorem eq_of_ofFields?_array {key : Text} {vs : List Value} (hr : r.value = .array vs)
    (hkey : key ∈ keys kind) (h : ofFields? (front ++ (key, r) :: back) kind = some n) :
    key = Document.blocksKey := by
  have hstring {t : Text} : text? key (front ++ (key, r) :: back) ≠ some t := by
    intro ht
    have hdecode := decode_of_required? ht
    rw [hr] at hdecode
    contradiction
  cases kind with
  | blank | rule | unknown => contradiction
  | text | abbreviation | codeBlock | comment | codeSpan =>
    obtain rfl := List.mem_singleton.mp hkey
    obtain ⟨t, ht, -⟩ := Option.map_eq_some_iff.mp h
    exact absurd ht hstring
  | typographic | quote =>
    obtain rfl := List.mem_singleton.mp hkey
    obtain ⟨t, ht, -⟩ := Option.map_eq_some_iff.mp h
    have hdecode := decode_of_required? ht
    rw [hr] at hdecode
    contradiction
  | header =>
    simp only [ofFields?, Option.bind_eq_bind, Option.bind_eq_some_iff] at h
    obtain ⟨level, hlevel, rawText, hraw, -⟩ := h
    simp only [keys, List.mem_cons, List.not_mem_nil, or_false] at hkey
    rcases hkey with rfl | rfl | rfl
    · have hdecode := decode_of_required? hlevel
      rw [hr] at hdecode
      contradiction
    · exact absurd hraw hstring
    · rfl
  | link =>
    simp only [ofFields?, Option.bind_eq_bind, Option.bind_eq_some_iff] at h
    obtain ⟨href, hhref, -⟩ := h
    simp only [keys, List.mem_cons, List.not_mem_nil, or_false] at hkey
    rcases hkey with rfl | rfl
    · exact absurd hhref hstring
    · rfl
  | bulletList | orderedList | listItem | blockQuote | paragraph | emphasis | strong =>
    exact List.mem_singleton.mp hkey

end

section
variable {tag? : Value → Option Kind} {items items' : List Value} {f : List Node → List Node} {n : Node}
  (hitems : ∀ ns, nodes? kind? items = some ns → nodes? kind? items' = some (f ns))
include hitems

theorem nodeBy?_replace_entry {front back : List (Text × Value)}
    (h : nodeBy? tag? (.object (front ++ (Document.blocksKey, .array items) :: back)) = some n) :
    nodeBy? tag? (.object (front ++ (Document.blocksKey, .array items') :: back)) =
      some (n.mapChildren f) := by
  have hnodes : ∀ ns, (reading kind? (.array items)).nodes? = some ns →
      (reading kind? (.array items')).nodes? = some (f ns) := hitems
  simp only [nodeBy?, ofEntries?, entries_eq, List.map_append, List.map_cons, Option.bind_eq_bind,
    Option.bind_eq_some_iff] at h ⊢
  obtain ⟨kind, hkind, h⟩ := h
  refine ⟨kind, ?_, ofFields?_replace hnodes h⟩
  rwa [required?_replace (by decide)] at hkind

theorem nodeBy?_replace_item (htag : ReadsNames tag?) {front back : List Value}
    (h : nodeBy? tag? (.array (front ++ .array items :: back)) = some n) :
    nodeBy? tag? (.array (front ++ .array items' :: back)) = some (n.mapChildren f) := by
  have hnodes : ∀ ns, (reading kind? (.array items)).nodes? = some ns →
      (reading kind? (.array items')).nodes? = some (f ns) := hitems
  cases front with
  | nil =>
    rw [List.nil_append, nodeBy?, readings_eq, List.map_cons, ofItems?, reading_value, htag.array] at h
    contradiction
  | cons tag front =>
    simp only [nodeBy?, readings_eq, List.cons_append, List.map_cons, List.map_append, ofItems?,
      reading_value, Option.bind_eq_bind, Option.bind_eq_some_iff] at h ⊢
    obtain ⟨kind, hkind, h⟩ := h
    refine ⟨kind, hkind, ?_⟩
    simp only [List.length_append, List.length_cons, List.length_map] at h ⊢
    split at h
    · next hlength =>
      have hlt : front.length < (keys kind).length := by omega
      obtain ⟨ks, ls, hkeys, hks⟩ := exists_append_of_getElem? (List.getElem?_eq_getElem hlt)
      generalize (keys kind)[front.length] = key at hkeys
      have hmem : key ∈ keys kind := by simp [hkeys]
      have hzip : ks.length = (front.map (reading kind?)).length := by rw [hks, List.length_map]
      rw [if_pos hlength]
      rw [hkeys, List.zip_append hzip, List.zip_cons_cons] at h ⊢
      obtain rfl := eq_of_ofFields?_array rfl hmem h
      exact ofFields?_replace hnodes h
    · contradiction

end

/-- Replacing one of the values replaces one of the nodes. -/
theorem nodes?_replace {v v' : Value} {f : Node → Node}
    (hv : ∀ n, node? kind? v = some n → node? kind? v' = some (f n)) (front back : List Value)
    {ns : List Node} (h : nodes? kind? (front ++ v :: back) = some ns) :
    nodes? kind? (front ++ v' :: back) = some (ns.modify front.length f) := by
  induction front generalizing ns with
  | nil =>
    simp only [List.nil_append, nodes?, Option.bind_eq_bind, Option.bind_eq_some_iff] at h ⊢
    obtain ⟨n, hn, ms, hms, hns⟩ := h
    cases hns
    exact ⟨f n, hv n hn, ms, hms, rfl⟩
  | cons w front ih =>
    simp only [List.cons_append, nodes?, Option.bind_eq_bind, Option.bind_eq_some_iff] at h ⊢
    obtain ⟨n, hn, ms, hms, hns⟩ := h
    cases hns
    exact ⟨n, hn, _, ih hms, rfl⟩

end ManPage.Declared
