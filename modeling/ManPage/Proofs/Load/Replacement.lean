import ManPage.Proofs.Load.Context

/-! # Nodes replaced in a text

A value is kept with whatever node stands in it, and what is declared of it depends on that node only at
its path. So a node in a text that is loaded may be replaced by the text of any other node for which there
is room, and the document that is loaded then is the same but for the node at that path. A node with a
tag of no kind, whatever else is in it, is such a text for the unknown node.
-/
namespace ManPage.Load
open Json Declared Outcome

/-! ## Values -/

/-- Where the value `v` is a node, `w` is what `f` makes of it. -/
def Turns (tag? : Value → Option Kind) (f : Node → Node) (v w : Value) : Prop :=
  ∀ n, nodeBy? tag? v = some n → nodeBy? tag? w = some (f n)

theorem Turns.node? {f : Node → Node} {v w : Value} (h : Turns kind? f v w) :
    ∀ n, node? kind? v = some n → node? kind? w = some (f n) := by
  intro n hn
  rw [node?_eq] at hn ⊢
  exact h n hn

variable {room : Nat} {s : Spelling} {w : Value}

theorem ItemFrame.value_fill {f : ItemFrame} (h : (f.fill s).value room = .ok w) :
    ∃ r front v back, room = r + 1 ∧ s.value r = .ok v ∧ front.length = f.front.length ∧
      w = .array (front ++ v :: back) ∧
      ∀ s' v', s'.value r = .ok v' → (f.fill s').value room = .ok (.array (front ++ v' :: back)) := by
  cases room with
  | zero => contradiction
  | succ r =>
    rw [ItemFrame.fill, Spelling.value_array_succ] at h
    obtain ⟨vs, hvs, rfl⟩ := map_eq_ok.mp h
    obtain ⟨front, v, back, hfront, hv, hback, rfl⟩ := mapM_append_cons_eq_ok.mp hvs
    refine ⟨r, front, v, back, rfl, hv, length_of_mapM hfront, rfl, ?_⟩
    intro s' v' hv'
    rw [ItemFrame.fill, Spelling.value_array_succ,
      mapM_append_cons_eq_ok.mpr ⟨front, v', back, hfront, hv', hback, rfl⟩, map_ok]

theorem EntryFrame.value_fill {key : Text} {f : EntryFrame key} (h : (f.fill s).value room = .ok w) :
    ∃ r front v back, room = r + 1 ∧ s.value r = .ok v ∧ w = .object (front ++ (key, v) :: back) ∧
      ∀ s' v', s'.value r = .ok v' →
        (f.fill s').value room = .ok (.object (front ++ (key, v') :: back)) := by
  cases room with
  | zero => contradiction
  | succ r =>
    rw [EntryFrame.fill, Spelling.value_object_succ] at h
    obtain ⟨es, hes, rfl⟩ := map_eq_ok.mp h
    obtain ⟨front, ⟨name, v⟩, back, hfront, he, hback, rfl⟩ := mapM_append_cons_eq_ok.mp hes
    obtain ⟨hname, hv⟩ := Spelling.member_eq_ok.mp he
    obtain rfl : key = name := Except.ok.inj (f.decode_name.symm.trans hname)
    refine ⟨r, front, v, back, rfl, hv, rfl, ?_⟩
    intro s' v' hv'
    have he' : Spelling.member r (f.member s') = .ok (key, v') := Spelling.member_eq_ok.mpr ⟨hname, hv'⟩
    rw [EntryFrame.fill, Spelling.value_object_succ,
      mapM_append_cons_eq_ok.mpr ⟨front, (key, v'), back, hfront, he', hback, rfl⟩, map_ok]

/-- A child that turns into another one turns its parent. -/
theorem Frame.value_fill {f : Frame} (h : (f.fill s).value room = .ok w) :
    ∃ r v, room = r + 2 ∧ s.value r = .ok v ∧ ∀ s' v', s'.value r = .ok v' →
      ∃ w', (f.fill s').value room = .ok w' ∧ ∀ tag?, ReadsNames tag? → ∀ g, Turns kind? g v v' →
        Turns tag? (·.mapChildren (·.modify f.index g)) w w' := by
  obtain ⟨list, item⟩ := f
  cases list with
  | entry list =>
    obtain ⟨room, front, _, back, rfl, hlist, rfl, hfill⟩ := EntryFrame.value_fill h
    obtain ⟨r, before, v, behind, rfl, hv, hindex, rfl, hitem⟩ := ItemFrame.value_fill hlist
    refine ⟨r, v, rfl, hv, ?_⟩
    intro s' v' hv'
    refine ⟨_, hfill _ _ (hitem s' v' hv'), ?_⟩
    intro tag? _ g hg n hn
    refine nodeBy?_replace_entry ?_ hn
    intro ns hns
    rw [Frame.index, ← hindex]
    exact nodes?_replace hg.node? before behind hns
  | item list =>
    obtain ⟨room, front, _, back, rfl, hlist, -, rfl, hfill⟩ := ItemFrame.value_fill h
    obtain ⟨r, before, v, behind, rfl, hv, hindex, rfl, hitem⟩ := ItemFrame.value_fill hlist
    refine ⟨r, v, rfl, hv, ?_⟩
    intro s' v' hv'
    refine ⟨_, hfill _ _ (hitem s' v' hv'), ?_⟩
    intro tag? htag g hg n hn
    refine nodeBy?_replace_item ?_ htag hn
    intro ns hns
    rw [Frame.index, ← hindex]
    exact nodes?_replace hg.node? before behind hns

section
-- The tags of the nodes around the hole may be read in any of these ways.
variable {T : (Value → Option Kind) → Prop} (hT : ∀ tag?, T tag? → ReadsNames tag?) (hkind : T kind?)
include hT hkind

theorem value_fillAll {fs : List Frame} (h : (Frame.fillAll fs s).value room = .ok w) :
    ∃ r v, room = r + 2 * fs.length ∧ s.value r = .ok v ∧ ∀ s' v' g, s'.value r = .ok v' →
      (∀ tag?, T tag? → Turns tag? g v v') → ∃ w', (Frame.fillAll fs s').value room = .ok w' ∧
        ∀ tag?, T tag? → Turns tag? (Node.alterAt g (fs.map Frame.index)) w w' := by
  induction fs generalizing room w with
  | nil =>
    refine ⟨room, w, rfl, h, ?_⟩
    intro s' v' g hv' hg
    exact ⟨v', hv', hg⟩
  | cons f fs ih =>
    obtain ⟨room, u, rfl, hu, hfill⟩ := Frame.value_fill h
    obtain ⟨r, v, rfl, hv, hall⟩ := ih hu
    refine ⟨r, v, ?_, hv, ?_⟩
    · rw [List.length_cons]
      omega
    · intro s' v' g hv' hg
      obtain ⟨u', hu', hturns⟩ := hall s' v' g hv' hg
      obtain ⟨w', hw', hfill⟩ := hfill _ u' hu'
      exact ⟨w', hw', fun tag? htag => hfill tag? (hT tag? htag) _ (hturns kind? hkind)⟩

end

/-! ## Blocks -/

theorem exists_value_of_tag {kind : Kind} (h : s.tag = .ok kind) (room : Nat) :
    ∃ v, s.value room = .ok v := by
  cases s with
  | scalar s =>
    obtain ⟨x, hx, -⟩ := bind_eq_ok.mp h
    exact ⟨.scalar x, by rw [Spelling.value, ofFault_eq_ok.mp hx, map_ok]⟩
  | array _ _ | object _ _ => exact absurd h expected_ne_ok

theorem exists_member_of_nodeEntry {found found' : Option Kind × List (Text × Value)}
    {m : Member Spelling} (h : Spelling.nodeEntry room found m = .ok found') :
    ∃ e, Spelling.member room m = .ok e := by
  obtain ⟨key, hkey, h⟩ := bind_eq_ok.mp h
  have hkey := ofFault_eq_ok.mp hkey
  obtain ⟨v, hv⟩ : ∃ v, m.value.it.value room = .ok v := by
    split at h
    · split at h
      · contradiction
      · obtain ⟨kind, hkind, -⟩ := map_eq_ok.mp h
        exact exists_value_of_tag hkind room
    · obtain ⟨v, hv, -⟩ := map_eq_ok.mp h
      exact ⟨v, ofFault_eq_ok.mp hv⟩
  exact ⟨(key, v), Spelling.member_eq_ok.mpr ⟨hkey, hv⟩⟩

theorem exists_members_of_nodeEntries {entries : List (Member Spelling)}
    {found found' : Option Kind × List (Text × Value)}
    (h : entries.foldlM (Spelling.nodeEntry room) found = .ok found') :
    ∃ es, entries.mapM (Spelling.member room) = .ok es := by
  induction entries generalizing found with
  | nil => exact ⟨[], rfl⟩
  | cons m entries ih =>
    rw [List.foldlM_cons] at h
    obtain ⟨_, hm, h⟩ := bind_eq_ok.mp h
    obtain ⟨e, he⟩ := exists_member_of_nodeEntry hm
    obtain ⟨es, hes⟩ := ih h
    exact ⟨e :: es, mapM_cons_eq_ok.mpr ⟨e, es, he, hes, rfl⟩⟩

/-- A block that is loaded has a value. -/
theorem exists_value_of_node {n : Node} (h : s.node room = .ok n) : ∃ v, s.value room = .ok v := by
  cases s with
  | scalar s =>
    obtain ⟨x, -, hx⟩ := bind_eq_ok.mp h
    exact absurd hx expected_ne_ok
  | array inside items =>
    rcases room with _ | room
    · contradiction
    rcases items with _ | ⟨tag, items⟩
    · contradiction
    obtain ⟨kind, hkind, h⟩ := bind_eq_ok.mp h
    obtain ⟨vs, hvs, -⟩ := bind_eq_ok.mp h
    obtain ⟨v, hv⟩ := exists_value_of_tag hkind room
    have hitems : (tag :: items).mapM (fun p => p.it.value room) = .ok (v :: vs) :=
      mapM_cons_eq_ok.mpr ⟨v, vs, hv, ofFault_eq_ok.mp hvs, rfl⟩
    exact ⟨.array (v :: vs), by rw [Spelling.value_array_succ, hitems, map_ok]⟩
  | object inside entries =>
    rcases room with _ | room
    · contradiction
    obtain ⟨found, hfound, -⟩ := bind_eq_ok.mp h
    obtain ⟨es, hes⟩ := exists_members_of_nodeEntries hfound
    exact ⟨.object es, by rw [Spelling.value_object_succ, hes, map_ok]⟩

theorem node_eq_ok {n : Node} : s.node room = .ok n ↔
    ∃ v, s.value room = .ok v ∧ nodeBy? namedKind? v = some n := by
  constructor
  · intro h
    obtain ⟨v, hv⟩ := exists_value_of_node h
    refine ⟨v, hv, ?_⟩
    rw [← block?_eq, ← toOption_node hv, h, toOption_ok]
  · rintro ⟨v, hv, hn⟩
    rw [← block?_eq, ← toOption_node hv] at hn
    exact toOption_eq_some.mp hn

/-- A node inside a block, or the block itself, turns into another one. -/
theorem node_fillAll {T : (Value → Option Kind) → Prop} (hT : ∀ tag?, T tag? → ReadsNames tag?)
    (hkind : T kind?) (hnamed : T namedKind?) {fs : List Frame} {n : Node}
    (h : (Frame.fillAll fs s).node room = .ok n) :
    ∃ v, s.value (room - 2 * fs.length) = .ok v ∧ ∀ s' v' g,
      s'.value (room - 2 * fs.length) = .ok v' → (∀ tag?, T tag? → Turns tag? g v v') →
        (Frame.fillAll fs s').node room = .ok (Node.alterAt g (fs.map Frame.index) n) := by
  obtain ⟨w, hw, hn⟩ := node_eq_ok.mp h
  obtain ⟨r, v, rfl, hv, hfill⟩ := value_fillAll hT hkind hw
  rw [Nat.add_sub_cancel]
  refine ⟨v, hv, ?_⟩
  intro s' v' g hv' hg
  obtain ⟨w', hw', hturns⟩ := hfill s' v' g hv' hg
  exact node_eq_ok.mpr ⟨w', hw', hturns namedKind? hnamed n hn⟩

/-! ## Documents -/

theorem modify_append_cons {α : Type} (g : α → α) (front back : List α) (a : α) :
    (front ++ a :: back).modify front.length g = front ++ g a :: back := by
  induction front with
  | nil => rfl
  | cons b front ih => rw [List.cons_append, List.length_cons, List.modify_succ_cons, ih, List.cons_append]

theorem ItemFrame.blocks_fill {f : ItemFrame} {bs : List Node} (h : (f.fill s).blocks = .ok bs) :
    ∃ n, s.node (maxDepth - 2) = .ok n ∧ ∀ s' g, s'.node (maxDepth - 2) = .ok (g n) →
      (f.fill s').blocks = .ok (bs.modify f.front.length g) := by
  obtain ⟨front, n, back, hfront, hn, hback, rfl⟩ := mapM_append_cons_eq_ok.mp h
  refine ⟨n, hn, ?_⟩
  intro s' g hg
  rw [← length_of_mapM hfront, modify_append_cons]
  exact mapM_append_cons_eq_ok.mpr ⟨front, g n, back, hfront, hg, hback, rfl⟩

/-- Behind the blocks of a document nothing depends on them. -/
theorem documentEntries_of_found {entries : List (Member Spelling)} {bs : List Node}
    {found : Option (List Node)}
    (h : entries.foldlM Spelling.documentEntry (some bs) = .ok found) (cs : List Node) :
    entries.foldlM Spelling.documentEntry (some cs) = .ok (some cs) := by
  induction entries with
  | nil => rfl
  | cons m entries ih =>
    rw [List.foldlM_cons] at h ⊢
    obtain ⟨found', hm, h⟩ := bind_eq_ok.mp h
    obtain ⟨key, hkey, -⟩ := bind_eq_ok.mp hm
    have hkey := ofFault_eq_ok.mp hkey
    by_cases hblocks : key = Document.blocksKey
    · subst hblocks
      rw [Spelling.documentEntry_secondBlocks hkey] at hm
      contradiction
    · rw [Spelling.documentEntry_other hkey hblocks] at hm ⊢
      cases hm
      exact ih h

theorem Frame.document_fill {f : Frame} {d : Document} (h : (f.fill s).document = .ok d) :
    ∃ n, s.node (maxDepth - 2) = .ok n ∧ ∀ s' g, s'.node (maxDepth - 2) = .ok (g n) →
      (f.fill s').document = .ok ⟨d.blocks.modify f.index g⟩ := by
  obtain ⟨list, item⟩ := f
  cases list with
  | entry list =>
    obtain ⟨found, hfound, rfl⟩ := map_eq_ok.mp h
    rw [List.foldlM_append] at hfound
    obtain ⟨first, hfirst, hfound⟩ := bind_eq_ok.mp hfound
    rw [List.foldlM_cons] at hfound
    obtain ⟨second, hsecond, hback⟩ := bind_eq_ok.mp hfound
    cases first with
    | some bs =>
      rw [Spelling.documentEntry_secondBlocks list.decode_name] at hsecond
      contradiction
    | none =>
      rw [Spelling.documentEntry_blocks list.decode_name] at hsecond
      obtain ⟨bs, hbs, rfl⟩ := map_eq_ok.mp hsecond
      obtain rfl : some bs = found := by
        rw [documentEntries_of_found hback bs] at hback
        exact Except.ok.inj hback
      obtain ⟨n, hn, hfill⟩ := ItemFrame.blocks_fill hbs
      refine ⟨n, hn, ?_⟩
      intro s' g hg
      have hmember : Spelling.documentEntry none (list.member (item.fill s')) =
          .ok (some (bs.modify item.front.length g)) := by
        rw [Spelling.documentEntry_blocks list.decode_name]
        exact map_eq_ok.mpr ⟨_, hfill s' g hg, rfl⟩
      refine map_eq_ok.mpr ⟨some (bs.modify item.front.length g), ?_, rfl⟩
      rw [List.foldlM_append, hfirst, ok_bind, List.foldlM_cons, hmember, ok_bind]
      exact documentEntries_of_found hback _
  | item list =>
    obtain ⟨inside, front, before, behind, back⟩ := list
    rcases front with _ | ⟨p, _ | ⟨q, front⟩⟩
    · cases back with
      | nil =>
        obtain ⟨bs, hbs, rfl⟩ := map_eq_ok.mp h
        obtain ⟨n, hn, hfill⟩ := ItemFrame.blocks_fill hbs
        exact ⟨n, hn, fun s' g hg => map_eq_ok.mpr ⟨_, hfill s' g hg, rfl⟩⟩
      | cons p back =>
        obtain ⟨_, -, h⟩ := bind_eq_ok.mp h
        contradiction
    · obtain ⟨_, -, h⟩ := bind_eq_ok.mp h
      contradiction
    · obtain ⟨_, -, h⟩ := bind_eq_ok.mp h
      contradiction

/-- The value is the node, whichever way its own tag is read. -/
def IsNode (new : Node) (v : Value) : Prop := ∀ tag?, ReadsNames tag? → nodeBy? tag? v = some new

end ManPage.Load

namespace ManPage
open Json Load

/-- In a text that is loaded any node may be turned into another one for which there is room. -/
theorem Document.ofText_alter {T : (Value → Option Kind) → Prop}
    (hT : ∀ tag?, T tag? → Declared.ReadsNames tag?) (hkind : T Declared.kind?)
    (hnamed : T Declared.namedKind?) {c : Context} {s : Spelling} {d : Document}
    (h : Document.ofText (c.text s) = .ok d) :
    ∃ v, s.value c.room = .ok v ∧ ∀ s' v' g, s'.value c.room = .ok v' →
      (∀ tag?, T tag? → Turns tag? g v v') →
        Document.ofText (c.text s') = .ok (d.alterAt g c.path) := by
  rw [Context.text, Document.ofText_text] at h
  obtain ⟨n, hn, hfill⟩ := Frame.document_fill h
  obtain ⟨v, hv, hnode⟩ := node_fillAll hT hkind hnamed hn
  refine ⟨v, hv, ?_⟩
  intro s' v' g hv' hg
  rw [Context.text, Document.ofText_text]
  exact hfill _ _ (hnode s' v' g hv' hg)

/-- In a text that is loaded any node may be replaced by another one for which there is room. -/
theorem Document.ofText_replace {c : Context} {s : Spelling} {d : Document}
    (h : Document.ofText (c.text s) = .ok d) {s' : Spelling} {v' : Value} {new : Node}
    (hs' : s'.value c.room = .ok v') (hnew : IsNode new v') :
    Document.ofText (c.text s') = .ok (d.replaceAt new c.path) := by
  obtain ⟨v, -, hfill⟩ := Document.ofText_alter (fun _ => id) Declared.readsNames_kind?
    Declared.readsNames_namedKind? h
  rw [← Document.alterAt_const]
  exact hfill s' v' _ hs' fun tag? htag n _ => hnew tag? htag

end ManPage
