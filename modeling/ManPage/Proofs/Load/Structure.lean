import ManPage.Proofs.Load.Kept

/-! # Documents and nodes by their spellings

What is loaded from a text is said by its spelling alone: a document, its blocks and the entries of
each block are taken in their order, and the answer is the first error among them. The room for more
brackets inside a block is what the document leaves of it.
-/
namespace ManPage.Json.Spelling
open Load

/-- The kind that the tag of a node names, where the tag is read as what it is. -/
def tag : Spelling → Except Error Kind
  | scalar s => do
    match ← ofFault s.scalar with
    | .string t => .ok (Kind.ofTag t)
    | x => expected (.scalar x) .tag
  | array _ _ => expected .sequence .tag
  | object _ _ => expected .map .tag

/-- An entry of a node gives its kind, or is kept in front of the entries before it. -/
def nodeEntry (room : Nat) (found : Option Kind × List (Text × Value)) (m : Member Spelling) :
    Except Error (Option Kind × List (Text × Value)) := do
  let key ← ofFault (StringUnit.decode m.key.it)
  if key = tagKey then
    match found.1 with
    | some _ => .error (.mismatch (.duplicate tagKey))
    | none => (some ·, found.2) <$> m.value.it.tag
  else (fun v => (found.1, (key, v) :: found.2)) <$> ofFault (m.value.it.value room)

def closeNode : Option Kind × List (Text × Value) → Except Error Node
  | (none, _) => .error (.mismatch (.missing tagKey))
  | (some kind, entries) => ofMismatch (ofEntries kind entries.reverse)

/-- The node of a spelling where `room` more brackets may be opened. -/
def node (room : Nat) : Spelling → Except Error Node
  | scalar s => ofFault s.scalar >>= fun x => expected (.scalar x) .node
  | array _ items =>
    match room, items with
    | 0, _ => .error (.fault .tooDeep)
    | _ + 1, [] => .error (.mismatch (.missing tagKey))
    | room + 1, tag :: items => do
      let kind ← tag.it.tag
      let vs ← ofFault (items.mapM fun p => p.it.value room)
      ofMismatch (ofItems kind vs)
  | object _ entries =>
    match room with
    | 0 => .error (.fault .tooDeep)
    | room + 1 => entries.foldlM (nodeEntry room) (none, []) >>= closeNode

/-- The blocks of a document stand in two brackets. -/
def blocks : Spelling → Except Error (List Node)
  | scalar s => ofFault s.scalar >>= fun x => expected (.scalar x) .sequence
  | array _ items => items.mapM fun p => p.it.node (maxDepth - 2)
  | object _ _ => expected .map .sequence

/-- An entry of a document gives its blocks, or is skipped. -/
def documentEntry (found : Option (List Node)) (m : Member Spelling) :
    Except Error (Option (List Node)) := do
  let key ← ofFault (StringUnit.decode m.key.it)
  if key = Document.blocksKey then
    match found with
    | some _ => .error (.mismatch (.duplicate Document.blocksKey))
    | none => some <$> m.value.it.blocks
  else .ok found

def document : Spelling → Except Error Document
  | scalar s => ofFault s.scalar >>= fun x => expected (.scalar x) .document
  | array _ [] => .ok ⟨[]⟩
  | array _ [p] => Document.mk <$> p.it.blocks
  | array _ (p :: _ :: _) => p.it.blocks >>= fun _ => fault .trailingCharacters
  | object _ entries => (fun found => ⟨found.getD []⟩) <$> entries.foldlM documentEntry none

section
variable {room : Nat} {m : Member Spelling} {key : Text}

theorem nodeEntry_tag (h : StringUnit.decode m.key.it = .ok tagKey) (done : List (Text × Value)) :
    nodeEntry room (none, done) m = (some ·, done) <$> m.value.it.tag := by
  rw [nodeEntry, h]
  rfl

theorem nodeEntry_secondTag (h : StringUnit.decode m.key.it = .ok tagKey) (kind : Kind)
    (done : List (Text × Value)) :
    nodeEntry room (some kind, done) m = .error (.mismatch (.duplicate tagKey)) := by
  rw [nodeEntry, h]
  rfl

theorem nodeEntry_other (h : StringUnit.decode m.key.it = .ok key) (hkey : key ≠ tagKey)
    (found : Option Kind × List (Text × Value)) : nodeEntry room found m =
      (fun v => (found.1, (key, v) :: found.2)) <$> ofFault (m.value.it.value room) := by
  rw [nodeEntry, h]
  exact if_neg hkey

theorem documentEntry_blocks (h : StringUnit.decode m.key.it = .ok Document.blocksKey) :
    documentEntry none m = some <$> m.value.it.blocks := by
  unfold documentEntry
  rw [h]
  rfl

theorem documentEntry_secondBlocks (h : StringUnit.decode m.key.it = .ok Document.blocksKey)
    (bs : List Node) :
    documentEntry (some bs) m = .error (.mismatch (.duplicate Document.blocksKey)) := by
  unfold documentEntry
  rw [h]
  rfl

theorem documentEntry_other (h : StringUnit.decode m.key.it = .ok key) (hkey : key ≠ Document.blocksKey)
    (found : Option (List Node)) : documentEntry found m = .ok found := by
  unfold documentEntry
  rw [h]
  exact if_neg hkey

end

end ManPage.Json.Spelling

namespace ManPage.Load
open Json Outcome Reader
open Text (Piece toPieces toPieces_nil toPieces_cons toPieces_append)

variable {g : Goal}

/-- A place that refuses brackets and reads a scalar as what it is. -/
theorem read_tag (slot : Slot g) (place : Kind → Between g) (hstrict : slot.strict)
    (hscalar : ∀ x, slot.scalar x = match x with
      | .string t => .ok (place (Kind.ofTag t))
      | x => expected (.scalar x) .tag)
    (harray : slot.openArray = expected .sequence .tag)
    (hobject : slot.openObject = expected .map .tag)
    (p : Padded Spelling) {ps : List Piece} (hd : Delimited ps) :
    (Reader.between (.value slot)).read ((p.text Spelling.text).toPieces ++ ps) =
      p.it.tag >>= fun kind => (Reader.between (place kind)).read ps := by
  simp only [Padded.text, toPieces_append, List.append_assoc]
  rw [read_space _ p.before.property]
  cases p.it with
  | scalar s =>
    rw [Spelling.text, read_scalar hstrict s (delimited_space p.behind.property hd), Spelling.tag,
      bind_assoc]
    cases ofFault s.scalar with
    | error e => rfl
    | ok x =>
      rw [ok_bind, ok_bind, hscalar]
      cases x with
      | string t => exact read_space _ p.behind.property ps
      | null | bool _ | number _ => rfl
  | array inside items =>
    rw [Spelling.text_array, toPieces_cons, List.cons_append, read_openArray, harray]
    rfl
  | object inside entries =>
    rw [Spelling.text_object, toPieces_cons, List.cons_append, read_openObject, hobject]
    rfl

theorem readsEntry_node (place : NodePlace g) {room : Nat} (hroom : maxDepth - (place.depth + 1) = room)
    (m : Member Spelling) :
    ReadsEntry (fun found : Option Kind × List (Text × Value) => .node place found.1 found.2)
      (Spelling.nodeEntry room) m := by
  rintro ⟨kind, entries⟩ start hstart ps hd
  rw [Member.text, toPieces_append, List.append_assoc, toPieces_cons, List.cons_append,
    read_memberKey hstart m.key rfl, Spelling.nodeEntry, bind_assoc]
  cases ofFault (StringUnit.decode m.key.it) with
  | error e => rfl
  | ok key =>
    dsimp only [ok_bind]
    by_cases hkey : key = tagKey
    · simp only [OpenObject.slot, if_pos hkey]
      cases kind with
      | some kind => rfl
      | none =>
        have htag := read_tag (.tagEntry place entries)
          (fun kind => .afterEntry (.node place (some kind) entries)) rfl
          (fun x => by cases x <;> rfl) rfl rfl m.value hd
        simp only [ok_bind, htag]
        cases m.value.it.tag <;> rfl
    · have hvalue := (kept m.value.it).read_padded (.nodeEntry place kind entries key) hd
      simp only [OpenObject.slot, if_neg hkey, ok_bind, hvalue, ValuePlace.depth, hroom]
      cases m.value.it.value room <;> rfl

theorem read_closeNode (place : NodePlace g) (found : Option Kind × List (Text × Value)) (ps : List Piece) :
    ((OpenObject.node place found.1 found.2).close >>= fun b => (Reader.between b).read ps) =
      Spelling.closeNode found >>= fun n => (Reader.between (place.deliver n)).read ps := by
  obtain ⟨kind, entries⟩ := found
  cases kind with
  | none => rfl
  | some kind =>
    rw [OpenObject.close, Spelling.closeNode]
    cases ofMismatch (ofEntries kind entries.reverse) <;> rfl

/-- The elements of an array that is a node: the tag, and what is kept behind it. -/
theorem read_nodeItems (place : NodePlace g) {room : Nat} (hroom : maxDepth - (place.depth + 1) = room)
    (p : Padded Spelling) (items : List (Padded Spelling)) (ps : List Piece) :
    (Reader.between (.firstItem (.node place))).read
      ((withCommas ((p :: items).map (Padded.text Spelling.text))).toPieces ++ .char ']' :: ps) =
    (do
      let kind ← p.it.tag
      let vs ← ofFault (items.mapM fun p => p.it.value room)
      ofMismatch (ofItems kind vs)) >>= fun n => (Reader.between (place.deliver n)).read ps := by
  have hitems (kind : Kind) : ∀ p ∈ items, ReadsItem (fun done => .nodeItems place kind done)
      (fun done p => (· :: done) <$> ofFault (p.it.value room)) p := fun p _ =>
    (kept p.it).readsItem (fun _ => rfl) (fun _ _ => rfl) (fun _ => hroom)
  have hcommas := delimited_behindCommas (items.map (Padded.text Spelling.text))
    (delimited_closeArray ps)
  have htag := read_tag (.tagItem place) (fun kind => .afterItem (.nodeItems place kind [])) rfl
    (fun x => by cases x <;> rfl) rfl rfl p hcommas
  rw [List.map_cons, withCommas, toPieces_append, List.append_assoc, read_item _ _ (Or.inl rfl),
    OpenArray.slot, htag]
  cases p.it.tag with
  | error e => rfl
  | ok kind =>
    rw [ok_bind, ok_bind, read_moreItems (hitems kind), foldlM_cons_eq, ofFault_mapM]
    cases items.mapM fun p => p.it.value room with
    | error f => rfl
    | ok vs =>
      simp only [ofFault_ok, map_ok, ok_bind, OpenArray.close, List.append_nil, List.reverse_reverse]
      cases ofMismatch (ofItems kind vs) <;> rfl

/-- A node that is read up to its tag is read as it is spelled. -/
theorem read_node (s : Spelling) (place : NodePlace g) {ps : List Piece} (hd : Delimited ps) :
    (Reader.between (.value (.node place))).read (s.text.toPieces ++ ps) =
      s.node (maxDepth - place.depth) >>= fun n => (Reader.between (place.deliver n)).read ps := by
  cases s with
  | scalar s =>
    rw [Spelling.text, read_scalar rfl s hd, Spelling.node, bind_assoc]
    cases ofFault s.scalar <;> rfl
  | array inside items =>
    rw [Spelling.text_array, toPieces_cons, List.cons_append, read_openArray, Slot.openArray]
    cases hroom : maxDepth - place.depth with
    | zero =>
      rw [enter_of_noRoom hroom]
      rfl
    | succ room =>
      have hdepth : maxDepth - (place.depth + 1) = room := by omega
      rw [enter_of_room hroom, ok_bind, toPieces_append, List.append_assoc,
        read_space _ inside.property, toPieces_append, List.append_assoc]
      cases items with
      | nil => exact read_closeArray (.node place) (Or.inl rfl) ps
      | cons p items => exact read_nodeItems place hdepth p items ps
  | object inside entries =>
    rw [Spelling.text_object, toPieces_cons, List.cons_append, read_openObject, Slot.openObject]
    cases hroom : maxDepth - place.depth with
    | zero =>
      rw [enter_of_noRoom hroom]
      rfl
    | succ room =>
      have hdepth : maxDepth - (place.depth + 1) = room := by omega
      have hentries := read_entries (fun m (_ : m ∈ entries) => readsEntry_node place hdepth m)
        inside (none, []) ps
      rw [enter_of_room hroom, ok_bind, hentries, Spelling.node, bind_assoc]
      simp only [read_closeNode]

theorem readsItem_block (form : Bracket) (p : Padded Spelling) :
    ReadsItem (OpenArray.blockList form)
      (fun done p => (· :: done) <$> p.it.node (maxDepth - 2)) p := by
  intro done ps hd
  have hnode := read_node p.it (.block form done) (delimited_space p.behind.property hd)
  dsimp only
  rw [OpenArray.slot, Padded.text, toPieces_append, toPieces_append, List.append_assoc,
    List.append_assoc, read_space _ p.before.property, hnode]
  simp only [NodePlace.depth, NodePlace.deliver, read_space _ p.behind.property]
  cases p.it.node (maxDepth - 2) <;> rfl

/-- The blocks of a document are read as they are spelled. -/
theorem read_blocks (form : Bracket) (p : Padded Spelling) {ps : List Piece} (hd : Delimited ps) :
    (Reader.between (.value (.blockList form))).read ((p.text Spelling.text).toPieces ++ ps) =
      p.it.blocks >>= fun bs => (Reader.between (deliverBlocks form bs)).read ps := by
  simp only [Padded.text, toPieces_append, List.append_assoc]
  rw [read_space _ p.before.property]
  have hbehind (bs : List Node) : (Reader.between (deliverBlocks form bs)).read
      (p.behind.val.toPieces ++ ps) = (Reader.between (deliverBlocks form bs)).read ps :=
    read_space _ p.behind.property ps
  cases p.it with
  | scalar s =>
    rw [Spelling.text, read_scalar rfl s (delimited_space p.behind.property hd), Spelling.blocks,
      bind_assoc]
    cases ofFault s.scalar <;> rfl
  | object inside entries =>
    rw [Spelling.text_object, toPieces_cons, List.cons_append, read_openObject]
    rfl
  | array inside items =>
    have hitems := read_items (fun p (_ : p ∈ items) => readsItem_block form p) inside []
      (p.behind.val.toPieces ++ ps)
    rw [Spelling.text_array, toPieces_cons, List.cons_append, read_openArray, Slot.openArray, ok_bind,
      hitems, foldlM_cons_eq, Spelling.blocks]
    cases items.mapM fun p => p.it.node (maxDepth - 2) with
    | error e => rfl
    | ok bs => simp [OpenArray.close, hbehind]

theorem readsEntry_document (m : Member Spelling) :
    ReadsEntry OpenObject.document Spelling.documentEntry m := by
  intro found start hstart ps hd
  rw [Member.text, toPieces_append, List.append_assoc, toPieces_cons, List.cons_append,
    read_memberKey hstart m.key rfl]
  unfold Spelling.documentEntry
  rw [bind_assoc]
  cases ofFault (StringUnit.decode m.key.it) with
  | error e => rfl
  | ok key =>
    dsimp only [ok_bind]
    by_cases hkey : key = Document.blocksKey
    · simp only [OpenObject.slot, if_pos hkey]
      cases found with
      | some bs => rfl
      | none =>
        simp only [ok_bind, read_blocks .object m.value hd]
        cases m.value.it.blocks <;> rfl
    · simp only [OpenObject.slot, if_neg hkey, ok_bind,
        (skipped m.value.it).read_padded found [] hd]
      rfl

/-- Only space may stand behind a document or a node. -/
theorem read_finished (result : g.Result) {ws : Text} (h : ws.all isBlank) :
    (Reader.between (.finished result)).read ws.toPieces = .ok result := by
  have hread := read_space (.finished result) h []
  rw [List.append_nil] at hread
  rw [hread]
  rfl

theorem delimited_blank {ws : Text} (h : ws.all isBlank) : Delimited ws.toPieces := by
  have hnil : Delimited [] := nofun
  have hd := delimited_space h hnil
  rwa [List.append_nil] at hd

/-- Behind the one element of an array that is a document no other element is read. -/
theorem read_afterOnly (bs : List Node) (p : Padded Spelling) (ps : List Piece) :
    (Reader.between (.afterOnly bs)).read (.char ',' :: ((p.text Spelling.text).toPieces ++ ps)) =
      fault .trailingCharacters := by
  obtain ⟨c, t, hs, hspace, hclose⟩ := exists_text_cons p.it
  have hcomma : (Reader.between (.afterOnly bs)).step (.char ',') = .ok (.between .afterOnlyComma) :=
    rfl
  simp only [read_of_step hcomma, Padded.text, toPieces_append, List.append_assoc]
  rw [read_space _ p.before.property, hs, toPieces_cons, List.cons_append, read_token _ hspace,
    Between.token, if_neg (by simpa using hclose)]
  rfl

end ManPage.Load

namespace ManPage
open Json Load Outcome Reader
open Text (toPieces_nil toPieces_cons toPieces_append)

/-- A document is read as it is spelled. -/
theorem Document.ofText_text (p : Padded Spelling) :
    Document.ofText (p.text Spelling.text) = p.it.document := by
  have hd := delimited_blank p.behind.property
  rw [Document.ofText, Document.ofPieces, Padded.text, toPieces_append, toPieces_append,
    read_space _ p.before.property]
  cases p.it with
  | scalar s =>
    rw [Spelling.text, read_scalar rfl s hd, Spelling.document]
    cases ofFault s.scalar <;> rfl
  | object inside entries =>
    have hentries := read_entries (fun m (_ : m ∈ entries) => readsEntry_document m) inside none
      p.behind.val.toPieces
    rw [Spelling.text_object, toPieces_cons, List.cons_append, read_openObject, Slot.openObject,
      ok_bind, hentries, Spelling.document]
    cases entries.foldlM Spelling.documentEntry none with
    | error e => rfl
    | ok found => exact read_finished _ p.behind.property
  | array inside items =>
    rw [Spelling.text_array, toPieces_cons, List.cons_append, read_openArray, Slot.openArray, ok_bind,
      toPieces_append, List.append_assoc, read_space _ inside.property]
    rcases items with _ | ⟨q, _ | ⟨r, items⟩⟩
    · rw [Spelling.document]
      exact (read_closeArray .document (Or.inl rfl) _).trans (read_finished _ p.behind.property)
    · simp only [List.map_cons, List.map_nil, withCommas, behindCommas_nil, List.append_nil,
        toPieces_append, toPieces_cons, toPieces_nil, List.append_assoc, List.cons_append,
        List.nil_append]
      rw [read_item _ _ (Or.inl rfl), OpenArray.slot, read_blocks .array q (delimited_closeArray _),
        Spelling.document]
      cases q.it.blocks with
      | error e => rfl
      | ok bs => exact read_finished (g := .document) ⟨bs⟩ p.behind.property
    · simp only [List.map_cons, withCommas, behindCommas_cons, toPieces_append, toPieces_cons,
        List.append_assoc, List.cons_append]
      rw [read_item _ _ (Or.inl rfl), OpenArray.slot,
        read_blocks .array q (delimited_cons (Or.inr (Or.inl rfl)) _), Spelling.document]
      cases q.it.blocks with
      | error e => rfl
      | ok bs => exact read_afterOnly bs r _

/-- A single node is read as it is spelled. -/
theorem Node.ofText_text (p : Padded Spelling) :
    Node.ofText (p.text Spelling.text) = p.it.node maxDepth := by
  have hd := delimited_blank p.behind.property
  rw [Node.ofText, Padded.text, toPieces_append, toPieces_append, read_space _ p.before.property,
    read_node p.it .alone hd, NodePlace.depth, Nat.sub_zero]
  cases p.it.node maxDepth with
  | error e => rfl
  | ok n => exact read_finished (g := .node) n p.behind.property

end ManPage
