import Mathlib.Logic.Relation
import ManPage.Proofs.Load.Layout
import ManPage.Proofs.Load.SameNode

/-! # Texts of the same document

One way to write a node may be put in the place of another wherever the node stands in a text, and so may
one layout of the text in the place of another. As long as there is room for the brackets, the document
that is loaded stays the same.
-/
namespace ManPage.Load
open Json Declared Outcome

section
variable {ε α β : Type} {f : α → Except ε β} {l l' : List α} {bs : List β}

theorem mapM_append_eq_ok : (l ++ l').mapM f = .ok bs ↔
    ∃ cs ds, l.mapM f = .ok cs ∧ l'.mapM f = .ok ds ∧ bs = cs ++ ds := by
  rw [List.mapM_append, bind_eq_ok]
  simp only [bind_eq_ok, pure_eq, Except.ok.injEq]
  constructor
  · rintro ⟨cs, hcs, ds, hds, rfl⟩
    exact ⟨cs, ds, hcs, hds, rfl⟩
  · rintro ⟨cs, ds, hcs, hds, rfl⟩
    exact ⟨cs, hcs, ds, hds, rfl⟩

theorem mem_of_mapM {a : α} {b : β} (h : l.mapM f = .ok bs) (ha : a ∈ l) (hb : f a = .ok b) :
    b ∈ bs := by
  obtain ⟨front, back, rfl⟩ := List.append_of_mem ha
  obtain ⟨cs, b', ds, -, hb', -, rfl⟩ := mapM_append_cons_eq_ok.mp h
  obtain rfl := Except.ok.inj (hb.symm.trans hb')
  exact List.mem_append_right cs List.mem_cons_self

theorem exists_mapM_of_perm (hl : l.Perm l') (h : l.mapM f = .ok bs) :
    ∃ cs, l'.mapM f = .ok cs ∧ bs.Perm cs := by
  induction hl generalizing bs with
  | nil => exact ⟨bs, h, .refl bs⟩
  | cons a hl ih =>
    obtain ⟨b, bs, hb, hbs, rfl⟩ := mapM_cons_eq_ok.mp h
    obtain ⟨cs, hcs, hperm⟩ := ih hbs
    exact ⟨b :: cs, mapM_cons_eq_ok.mpr ⟨b, cs, hb, hcs, rfl⟩, hperm.cons b⟩
  | swap a a' l =>
    obtain ⟨b', _, hb', hrest, rfl⟩ := mapM_cons_eq_ok.mp h
    obtain ⟨b, bs, hb, hbs, rfl⟩ := mapM_cons_eq_ok.mp hrest
    refine ⟨b :: b' :: bs, ?_, .swap b b' bs⟩
    exact mapM_cons_eq_ok.mpr ⟨b, _, hb, mapM_cons_eq_ok.mpr ⟨b', bs, hb', hbs, rfl⟩, rfl⟩
  | trans _ _ ih ih' =>
    obtain ⟨cs, hcs, hperm⟩ := ih h
    obtain ⟨ds, hds, hperm'⟩ := ih' hcs
    exact ⟨ds, hds, hperm.trans hperm'⟩

end

/-! ## Nodes -/

/-- The second way to write a node may be put in the place of the first, where `room` more brackets may
be opened. -/
inductive Rewrite : Nat → Spelling → Spelling → Prop
  | order {room : Nat} {inside inside' : Space} {entries entries' : List (Member Spelling)}
    (h : entries.Perm entries') : Rewrite room (.object inside entries) (.object inside' entries')
  | ignored {room : Nat} {inside inside' : Space} {front back : List (Member Spelling)}
    {m tag : Member Spelling} {kind : Kind} {key : Text} {v w : Value} (htag : tag ∈ front ++ back)
    (hv : Spelling.member room tag = .ok (tagKey, v)) (hkind : kind? v = some kind)
    (hm : Spelling.member room m = .ok (key, w)) (hkey : key ≠ tagKey) (hfield : key ∉ keys kind) :
    Rewrite (room + 1) (.object inside (front ++ m :: back)) (.object inside' (front ++ back))
  | form {room : Nat} {inside inside' : Space} {tag : Member Spelling}
    {fields : List (Member Spelling)} {kind : Kind} {v : Value} {names : List Text}
    (hv : Spelling.member room tag = .ok (tagKey, v)) (hkind : kind? v = some kind)
    (hnames : (fields.mapM fun m => StringUnit.decode m.key.it) = .ok names)
    (hfields : names <+: keys kind) :
    Rewrite (room + 1) (.object inside (tag :: fields))
      (.array inside' ((tag :: fields).map Member.value))
  | noChildren {room : Nat} {inside inside' space : Space} {front back : List (Member Spelling)}
    {m : Member Spelling} (hkey : StringUnit.decode m.key.it = .ok Document.blocksKey)
    (hm : m.value.it = .array space [])
    (hnone : ∀ n ∈ front ++ back, StringUnit.decode n.key.it ≠ .ok Document.blocksKey) :
    Rewrite (room + 2) (.object inside (front ++ m :: back)) (.object inside' (front ++ back))
  | noChildrenItem {room : Nat} {inside inside' space : Space} {tag p : Padded Spelling}
    {items : List (Padded Spelling)} {kind : Kind} {v : Value} {ks : List Text}
    (hv : tag.it.value (room + 1) = .ok v) (hkind : kind? v = some kind)
    (hkeys : keys kind = ks ++ [Document.blocksKey]) (hlength : items.length = ks.length)
    (hp : p.it = .array space []) :
    Rewrite (room + 2) (.array inside (tag :: (items ++ [p]))) (.array inside' (tag :: items))

/-- If the first spelling has a value, the second has one that is the same node. -/
def Passes (room : Nat) (s s' : Spelling) : Prop :=
  ∀ v, s.value room = .ok v → ∃ v', s'.value room = .ok v' ∧ Agree v v'

section
variable {room : Nat} {inside : Space}

theorem value_object_eq_ok {entries : List (Member Spelling)} {v : Value} :
    (Spelling.object inside entries).value (room + 1) = .ok v ↔
      ∃ es, entries.mapM (Spelling.member room) = .ok es ∧ .object es = v := by
  rw [Spelling.value_object_succ, map_eq_ok]

theorem value_array_eq_ok {items : List (Padded Spelling)} {v : Value} :
    (Spelling.array inside items).value (room + 1) = .ok v ↔
      ∃ vs, items.mapM (fun p => p.it.value room) = .ok vs ∧ .array vs = v := by
  rw [Spelling.value_array_succ, map_eq_ok]

end

section
variable {room : Nat} {inside inside' space : Space} {front back : List (Member Spelling)}
  {m : Member Spelling}

theorem passes_order {entries entries' : List (Member Spelling)} (h : entries.Perm entries') :
    Passes room (.object inside entries) (.object inside' entries') := by
  intro v hv
  cases room with
  | zero => contradiction
  | succ room =>
    obtain ⟨es, hes, rfl⟩ := value_object_eq_ok.mp hv
    obtain ⟨es', hes', hperm⟩ := exists_mapM_of_perm h hes
    exact ⟨_, value_object_eq_ok.mpr ⟨es', hes', rfl⟩, agree_of_perm hperm⟩

/-- An entry may be taken out or put in if the other entries are the same node without it. -/
theorem passes_entry {e : Text × Value} (hm : Spelling.member room m = .ok e)
    (h : ∀ es ls, front.mapM (Spelling.member room) = .ok es → back.mapM (Spelling.member room) = .ok ls →
      Agree (.object (es ++ e :: ls)) (.object (es ++ ls))) :
    Passes (room + 1) (.object inside (front ++ m :: back)) (.object inside' (front ++ back)) ∧
      Passes (room + 1) (.object inside' (front ++ back)) (.object inside (front ++ m :: back)) := by
  constructor
  · intro v hv
    obtain ⟨_, hall, rfl⟩ := value_object_eq_ok.mp hv
    obtain ⟨es, e', ls, hes, he', hls, rfl⟩ := mapM_append_cons_eq_ok.mp hall
    obtain rfl := Except.ok.inj (hm.symm.trans he')
    exact ⟨_, value_object_eq_ok.mpr ⟨_, mapM_append_eq_ok.mpr ⟨es, ls, hes, hls, rfl⟩, rfl⟩,
      h es ls hes hls⟩
  · intro v hv
    obtain ⟨_, hall, rfl⟩ := value_object_eq_ok.mp hv
    obtain ⟨es, ls, hes, hls, rfl⟩ := mapM_append_eq_ok.mp hall
    exact ⟨_, value_object_eq_ok.mpr ⟨_, mapM_append_cons_eq_ok.mpr ⟨es, e, ls, hes, hm, hls, rfl⟩, rfl⟩,
      (h es ls hes hls).symm⟩

theorem mapM_member_eq_ok {fields : List (Member Spelling)} {es : List (Text × Value)} :
    fields.mapM (Spelling.member room) = .ok es ↔
      (fields.mapM fun m => StringUnit.decode m.key.it) = .ok (es.map Prod.fst) ∧
        (fields.mapM fun m => m.value.it.value room) = .ok (es.map Prod.snd) := by
  induction fields generalizing es with
  | nil =>
    constructor
    · intro h
      cases h
      exact ⟨rfl, rfl⟩
    · rintro ⟨hnames, -⟩
      rw [List.map_eq_nil_iff.mp (Except.ok.inj hnames).symm]
      rfl
  | cons m fields ih =>
    simp only [mapM_cons_eq_ok]
    constructor
    · rintro ⟨e, es, he, hes, rfl⟩
      obtain ⟨hkey, hv⟩ := Spelling.member_eq_ok.mp he
      obtain ⟨hnames, hvs⟩ := ih.mp hes
      exact ⟨⟨e.1, _, hkey, hnames, rfl⟩, ⟨e.2, _, hv, hvs, rfl⟩⟩
    · rintro ⟨⟨key, names, hkey, hnames, hfst⟩, ⟨v, vs, hv, hvs, hsnd⟩⟩
      cases es with
      | nil => contradiction
      | cons e es =>
        obtain ⟨rfl, rfl⟩ := List.cons.inj hfst
        obtain ⟨rfl, rfl⟩ := List.cons.inj hsnd
        exact ⟨e, es, Spelling.member_eq_ok.mpr ⟨hkey, hv⟩, ih.mpr ⟨hnames, hvs⟩, rfl⟩

theorem passes_form {tag : Member Spelling} {fields : List (Member Spelling)} {kind : Kind} {v : Value}
    {names : List Text} (hv : Spelling.member room tag = .ok (tagKey, v)) (hkind : kind? v = some kind)
    (hnames : (fields.mapM fun m => StringUnit.decode m.key.it) = .ok names)
    (hfields : names <+: keys kind) :
    Passes (room + 1) (.object inside (tag :: fields))
        (.array inside' ((tag :: fields).map Member.value)) ∧
      Passes (room + 1) (.array inside' ((tag :: fields).map Member.value))
        (.object inside (tag :: fields)) := by
  have htag := (Spelling.member_eq_ok.mp hv).2
  constructor
  · intro w hw
    obtain ⟨_, hall, rfl⟩ := value_object_eq_ok.mp hw
    obtain ⟨e, es, he, hes, rfl⟩ := mapM_cons_eq_ok.mp hall
    obtain rfl := Except.ok.inj (hv.symm.trans he)
    obtain ⟨hfst, hsnd⟩ := mapM_member_eq_ok.mp hes
    obtain rfl := Except.ok.inj (hnames.symm.trans hfst)
    refine ⟨_, value_array_eq_ok.mpr ⟨v :: es.map Prod.snd, ?_, rfl⟩, agree_form hkind hfields⟩
    rw [List.mapM_map]
    exact mapM_cons_eq_ok.mpr ⟨v, _, htag, hsnd, rfl⟩
  · intro w hw
    obtain ⟨_, hall, rfl⟩ := value_array_eq_ok.mp hw
    rw [List.mapM_map] at hall
    obtain ⟨v', vs, hv', hvs, rfl⟩ := mapM_cons_eq_ok.mp hall
    obtain rfl := Except.ok.inj (htag.symm.trans hv')
    have hlength : names.length = vs.length :=
      (length_of_mapM hnames).trans (length_of_mapM hvs).symm
    have hfst : (names.zip vs).map Prod.fst = names := List.map_fst_zip (Nat.le_of_eq hlength)
    have hsnd : (names.zip vs).map Prod.snd = vs := List.map_snd_zip (Nat.le_of_eq hlength.symm)
    have hes : fields.mapM (Spelling.member room) = .ok (names.zip vs) :=
      mapM_member_eq_ok.mpr ⟨by rw [hfst]; exact hnames, by rw [hsnd]; exact hvs⟩
    rw [← hfst] at hfields
    have hagree := agree_form hkind hfields
    rw [hsnd] at hagree
    exact ⟨_, value_object_eq_ok.mpr ⟨_, mapM_cons_eq_ok.mpr ⟨_, _, hv, hes, rfl⟩, rfl⟩, hagree.symm⟩

theorem passes_noChildrenItem {tag p : Padded Spelling} {items : List (Padded Spelling)} {kind : Kind}
    {v : Value} {ks : List Text} (hv : tag.it.value (room + 1) = .ok v) (hkind : kind? v = some kind)
    (hkeys : keys kind = ks ++ [Document.blocksKey]) (hlength : items.length = ks.length)
    (hp : p.it = .array space []) :
    Passes (room + 2) (.array inside (tag :: (items ++ [p]))) (.array inside' (tag :: items)) ∧
      Passes (room + 2) (.array inside' (tag :: items)) (.array inside (tag :: (items ++ [p]))) := by
  have hempty : p.it.value (room + 1) = .ok (.array []) := by
    rw [hp]
    rfl
  have hagree {vs : List Value} (hvs : (items.mapM fun p => p.it.value (room + 1)) = .ok vs) :
      Agree (.array (v :: (vs ++ [.array []]))) (.array (v :: vs)) :=
    agree_noChildren_array hkind hkeys ((length_of_mapM hvs).trans hlength)
  constructor
  · intro w hw
    obtain ⟨_, hall, rfl⟩ := value_array_eq_ok.mp hw
    obtain ⟨v', _, hv', hlong, rfl⟩ := mapM_cons_eq_ok.mp hall
    obtain rfl := Except.ok.inj (hv.symm.trans hv')
    obtain ⟨vs, last, _, hvs, hlast, hnil, rfl⟩ := mapM_append_cons_eq_ok.mp hlong
    obtain rfl := Except.ok.inj (hempty.symm.trans hlast)
    cases hnil
    exact ⟨_, value_array_eq_ok.mpr ⟨_, mapM_cons_eq_ok.mpr ⟨v, vs, hv, hvs, rfl⟩, rfl⟩, hagree hvs⟩
  · intro w hw
    obtain ⟨_, hall, rfl⟩ := value_array_eq_ok.mp hw
    obtain ⟨v', vs, hv', hvs, rfl⟩ := mapM_cons_eq_ok.mp hall
    obtain rfl := Except.ok.inj (hv.symm.trans hv')
    have hlong : ((items ++ [p]).mapM fun p => p.it.value (room + 1)) = .ok (vs ++ [.array []]) :=
      mapM_append_cons_eq_ok.mpr ⟨vs, _, [], hvs, hempty, rfl, rfl⟩
    exact ⟨_, value_array_eq_ok.mpr ⟨_, mapM_cons_eq_ok.mpr ⟨v, _, hv, hlong, rfl⟩, rfl⟩,
      (hagree hvs).symm⟩

theorem Rewrite.passes {s s' : Spelling} (h : Rewrite room s s') :
    Passes room s s' ∧ Passes room s' s := by
  cases h with
  | order h => exact ⟨passes_order h, passes_order h.symm⟩
  | ignored htag hv hkind hm hkey hfield =>
    refine passes_entry hm fun es ls hes hls => agree_ignored ?_ hkey hfield _
    have hall := mapM_append_eq_ok.mpr ⟨es, ls, hes, hls, rfl⟩
    exact ⟨_, mem_of_mapM hall htag hv, hkind⟩
  | form hv hkind hnames hfields => exact passes_form hv hkind hnames hfields
  | @noChildren room _ _ space front back m hkey hm hnone =>
    have hmember : Spelling.member (room + 1) m = .ok (Document.blocksKey, .array []) :=
      Spelling.member_eq_ok.mpr ⟨hkey, by rw [hm]; rfl⟩
    refine passes_entry hmember fun es ls hes hls => agree_noChildren ?_
    have hall := mapM_append_eq_ok.mpr ⟨es, ls, hes, hls, rfl⟩
    intro e he hblocks
    obtain ⟨n, hn, hne⟩ := exists_of_mem_mapM hall e he
    have hdecode := (Spelling.member_eq_ok.mp hne).1
    rw [hblocks] at hdecode
    exact hnone n hn hdecode
  | noChildrenItem hv hkind hkeys hlength hp => exact passes_noChildrenItem hv hkind hkeys hlength hp

end

/-! ## Texts -/

/-- One node of a text is rewritten, or the layout of the text. -/
inductive Respells : Text → Text → Prop
  | node (c : Context) {s s' : Spelling} (h : Rewrite c.room s s') : Respells (c.text s) (c.text s')
  | layout {p p' : Padded Spelling} (h : p.it.Alike p'.it) :
    Respells (p.text Spelling.text) (p'.text Spelling.text)

theorem ofText_of_passes {c : Context} {s s' : Spelling} (hs : Passes c.room s s') {d : Document}
    (h : Document.ofText (c.text s) = .ok d) : Document.ofText (c.text s') = .ok d := by
  obtain ⟨v, hv, hfill⟩ := Document.ofText_alter (fun _ h => ReadsTags.toReadsNames h) readsTags_kind?
    readsTags_namedKind? h
  obtain ⟨v', hv', hagree⟩ := hs v hv
  have hsame : ∀ tag?, ReadsTags tag? → Turns tag? id v v' := by
    intro tag? htag n hn
    rw [← hagree tag? htag]
    exact hn
  have hload := hfill s' v' id hv' hsame
  rwa [Document.alterAt_id] at hload

theorem ofText_iff_of_respells {t t' : Text} (h : Respells t t') (d : Document) :
    Document.ofText t = .ok d ↔ Document.ofText t' = .ok d := by
  cases h with
  | node c h => exact ⟨ofText_of_passes h.passes.1, ofText_of_passes h.passes.2⟩
  | layout h => rw [Document.ofText_eq_of_alike h]

/-- What one step keeps is kept by any number of them, forth and back. -/
theorem ofText_iff_of_eqvGen {t t' : Text} (h : Relation.EqvGen Respells t t') (d : Document) :
    Document.ofText t = .ok d ↔ Document.ofText t' = .ok d := by
  induction h with
  | rel t t' hstep => exact ofText_iff_of_respells hstep d
  | refl t => exact Iff.rfl
  | symm t t' _ ih => exact ih.symm
  | trans t u t' _ _ ih ih' => exact ih.trans ih'

end ManPage.Load

namespace ManPage
open Json Load

/-- Every node of a document that is loaded has its context in the text, and the text may be rewritten
again and again, there or in its layout, without a change of the document. -/
theorem Document.ofText_respelled {t : Text} {d : Document} (h : Document.ofText t = .ok d) :
    (∀ path n, d.at? path = some n →
      ∃ (c : Context) (s : Spelling), c.text s = t ∧ c.path = path ∧ IsText c.room n s) ∧
    ∀ t', Relation.EqvGen Respells t t' → Document.ofText t' = .ok d := by
  constructor
  · intro path n hn
    exact exists_context h hn
  · intro t' hrespelled
    exact (ofText_iff_of_eqvGen hrespelled d).mp h

/-- An entry without space. -/
def bareEntry (key : List StringUnit) (s : Spelling) : Member Spelling :=
  ⟨⟨noSpace, key, noSpace⟩, ⟨noSpace, s, noSpace⟩⟩

/-- The place of the only block of a document. -/
def onlyBlock (key : List StringUnit) (h : StringUnit.decode key = .ok Document.blocksKey) : Context :=
  ⟨noSpace, ⟨.entry ⟨noSpace, [], ⟨noSpace, key, noSpace⟩, h, noSpace, noSpace, []⟩,
    ⟨noSpace, [], noSpace, noSpace, []⟩⟩, [], noSpace⟩

/-- The empty children of a list and a remark are left out, and the list is then written as an array. -/
theorem respelled_list {list note key ul : List StringUnit}
    (hlist : StringUnit.decode list = .ok Document.blocksKey)
    (hnote : StringUnit.decode note = .ok "note".toList) (hkey : StringUnit.decode key = .ok tagKey)
    (hul : StringUnit.decode ul = .ok "ul".toList) : Relation.EqvGen Respells
      ((onlyBlock list hlist).text (.object noSpace [bareEntry list (.array noSpace []),
        bareEntry note (.scalar .null), bareEntry key (.scalar (.string ul))]))
      ((onlyBlock list hlist).text (.array noSpace [⟨noSpace, .scalar (.string ul), noSpace⟩])) := by
  have hvalue : (Spelling.scalar (.string ul)).value 124 = .ok (.scalar (.string "ul".toList)) := by
    rw [Spelling.value, ScalarSpelling.scalar, hul]
    rfl
  have htag : Spelling.member 124 (bareEntry key (.scalar (.string ul))) =
      .ok (tagKey, .scalar (.string "ul".toList)) := Spelling.member_eq_ok.mpr ⟨hkey, hvalue⟩
  have hremark : Spelling.member 124 (bareEntry note (.scalar .null)) =
      .ok ("note".toList, .scalar .null) := Spelling.member_eq_ok.mpr ⟨hnote, rfl⟩
  have hkind : Declared.kind? (.scalar (.string "ul".toList)) = some .bulletList := by decide
  have hchildren : Rewrite 125
      (.object noSpace ([] ++ bareEntry list (.array noSpace []) ::
        [bareEntry note (.scalar .null), bareEntry key (.scalar (.string ul))]))
      (.object noSpace ([] ++ [bareEntry note (.scalar .null), bareEntry key (.scalar (.string ul))])) := by
    refine .noChildren hlist rfl ?_
    intro n hn hblocks
    rcases List.mem_pair.mp hn with rfl | rfl
    · exact absurd (hnote.symm.trans hblocks) (by decide)
    · exact absurd (hkey.symm.trans hblocks) (by decide)
  have hrest : Rewrite 125
      (.object noSpace ([] ++ bareEntry note (.scalar .null) :: [bareEntry key (.scalar (.string ul))]))
      (.object noSpace ([] ++ [bareEntry key (.scalar (.string ul))])) :=
    .ignored List.mem_cons_self htag hkind hremark (by decide) (by decide)
  have hnames : (([] : List (Member Spelling)).mapM fun m => StringUnit.decode m.key.it) = .ok [] := rfl
  have hform : Rewrite 125 (.object noSpace [bareEntry key (.scalar (.string ul))])
      (.array noSpace [⟨noSpace, .scalar (.string ul), noSpace⟩]) :=
    .form htag hkind hnames List.nil_prefix
  have hstep {s s' : Spelling} (h : Rewrite 125 s s') : Relation.EqvGen Respells
      ((onlyBlock list hlist).text s) ((onlyBlock list hlist).text s') := .rel _ _ (.node _ h)
  exact .trans _ _ _ (hstep hchildren) (.trans _ _ _ (hstep hrest) (hstep hform))

/-- A list whose empty children and a remark are left out, and that is written as an array then. -/
theorem Document.ofText_respelled_list : ∃ t t' : Text,
    t = "\x7b\"children\":[\x7b\"children\":[],\"note\":null,\"type\":\"ul\"\x7d]\x7d".toList ∧
    t' = "\x7b\"children\":[[\"ul\"]]\x7d".toList ∧
    Document.ofText t = .ok ⟨[.bulletList []]⟩ ∧ Relation.EqvGen Respells t t' ∧
    Document.ofText t' = .ok ⟨[.bulletList []]⟩ := by
  obtain ⟨list, hlistText, hlist⟩ := exists_units Document.blocksKey
  obtain ⟨note, hnoteText, hnote⟩ := exists_units "note".toList
  obtain ⟨key, hkeyText, hkey⟩ := exists_units tagKey
  obtain ⟨ul, hulText, hul⟩ := exists_units "ul".toList
  have hload : Document.ofText
      "\x7b\"children\":[\x7b\"children\":[],\"note\":null,\"type\":\"ul\"\x7d]\x7d".toList =
        .ok ⟨[.bulletList []]⟩ := by decide +kernel
  have hsteps := respelled_list hlist hnote hkey hul
  simp only [Context.text, onlyBlock, Frame.fillAll_nil, Frame.fill, ListFrame.fill, EntryFrame.fill,
    EntryFrame.member, ItemFrame.fill, bareEntry, Padded.text, Spelling.text, Spelling.itemTexts,
    Spelling.entryTexts, ScalarSpelling.text, StringUnit.literal, withCommas, behindCommas_cons,
    behindCommas_nil, hlistText, hnoteText, hkeyText, hulText, List.nil_append] at hsteps
  exact ⟨_, _, rfl, rfl, hload, hsteps, (Document.ofText_respelled hload).2 _ hsteps⟩

end ManPage
