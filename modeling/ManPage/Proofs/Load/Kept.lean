import ManPage.Proofs.Load.Skipped

/-! # Kept and skipped values

A value in a place where values are kept is read as its spelling says, up to the first fault; the
room for brackets is what the brackets around the place leave. In a place where values are skipped
every spelling is passed over.
-/
namespace ManPage.Load
open Json Outcome Reader
open Text (Piece toPieces toPieces_cons toPieces_append)

/-- Going through a list and keeping every result in front of the ones before it. -/
theorem foldlM_cons_eq {ε α β : Type} (f : α → Except ε β) (l : List α) (done : List β) :
    l.foldlM (fun done a => (· :: done) <$> f a) done =
      (fun bs => bs.reverse ++ done) <$> l.mapM f := by
  induction l generalizing done with
  | nil => rfl
  | cons a l ih =>
    rw [List.foldlM_cons, List.mapM_cons]
    cases f a with
    | error e => rfl
    | ok b =>
      simp only [map_ok, ok_bind, ih]
      cases l.mapM f <;> simp

theorem ofFault_mapM {α β : Type} (f : α → Except Fault β) (l : List α) :
    l.mapM (fun a => ofFault (f a)) = ofFault (l.mapM f) := by
  induction l with
  | nil => rfl
  | cons a l ih => simp [List.mapM_cons, ih]

/-- In every place where values are kept the value is read as it is spelled. -/
def Kept (s : Spelling) : Prop :=
  ∀ (g : Goal) (place : ValuePlace g) (ps : List Piece), Delimited ps →
    (Reader.between (.value (.value place))).read (s.text.toPieces ++ ps) =
      ofFault (s.value (maxDepth - place.depth)) >>= fun v =>
        (Reader.between (place.deliver v)).read ps

variable {g : Goal}

theorem Kept.read_padded {p : Padded Spelling} (h : Kept p.it) (place : ValuePlace g) {ps : List Piece}
    (hd : Delimited ps) :
    (Reader.between (.value (.value place))).read ((p.text Spelling.text).toPieces ++ ps) =
      ofFault (p.it.value (maxDepth - place.depth)) >>= fun v =>
        (Reader.between (place.deliver v)).read ps := by
  simp only [Padded.text, toPieces_append, List.append_assoc]
  rw [read_space _ p.before.property, h g place _ (delimited_space p.behind.property hd)]
  simp only [read_space _ p.behind.property]

/-- An element that is kept is put in front of the ones before it. -/
theorem Kept.readsItem {p : Padded Spelling} (h : Kept p.it) {array : List Value → OpenArray g}
    {place : List Value → ValuePlace g} {room : Nat}
    (hslot : ∀ done, (array done).slot = .value (place done))
    (hdeliver : ∀ done v, (place done).deliver v = .afterItem (array (v :: done)))
    (hroom : ∀ done, maxDepth - (place done).depth = room) :
    ReadsItem array (fun done p => (· :: done) <$> ofFault (p.it.value room)) p := by
  intro done ps hd
  rw [hslot, h.read_padded (place done) hd, hroom]
  dsimp only
  cases p.it.value room with
  | error f => rfl
  | ok v => simp [hdeliver]

theorem Kept.readsEntry {m : Member Spelling} (h : Kept m.value.it) (place : ValuePlace g) {room : Nat}
    (hroom : maxDepth - (place.depth + 1) = room) :
    ReadsEntry (fun done => .value done place)
      (fun done m => (· :: done) <$> ofFault (Spelling.member room m)) m := by
  intro done start hstart ps hd
  rw [Member.text, toPieces_append, List.append_assoc, toPieces_cons, List.cons_append,
    read_memberKey hstart m.key rfl]
  dsimp only
  rw [Spelling.member]
  cases StringUnit.decode m.key.it with
  | error f => rfl
  | ok key =>
    have hread := h.read_padded (.entry done key place) hd
    simp only [OpenObject.slot, ofFault_ok, ok_bind, hread, ValuePlace.depth, hroom]
    cases m.value.it.value room <;> rfl

theorem enter_of_room {α : Type} {depth room : Nat} (h : maxDepth - depth = room + 1) (a : α) :
    enter depth a = .ok a := if_pos (by omega)

theorem enter_of_noRoom {α : Type} {depth : Nat} (h : maxDepth - depth = 0) (a : α) :
    enter depth a = .error (.fault .tooDeep) := if_neg (by omega)

/-- Every value is read as it is spelled. -/
theorem kept (s : Spelling) : Kept s := by
  induction s using Spelling.induct with
  | scalar s =>
    intro g place ps hd
    rw [Spelling.text, read_scalar rfl s hd, Spelling.value, ofFault_map]
    cases ofFault s.scalar <;> rfl
  | array inside items ih =>
    intro g place ps hd
    rw [Spelling.text_array, toPieces_cons, List.cons_append, read_openArray, Slot.openArray]
    cases hroom : maxDepth - place.depth with
    | zero =>
      rw [enter_of_noRoom hroom]
      rfl
    | succ room =>
      have hdepth : maxDepth - (place.depth + 1) = room := by omega
      have hitems : ∀ p ∈ items, ReadsItem (fun done => .value done place)
          (fun done p => (· :: done) <$> ofFault (p.it.value room)) p := fun p hp =>
        (ih p hp).readsItem (fun _ => rfl) (fun _ _ => rfl) (fun _ => hdepth)
      rw [enter_of_room hroom, Spelling.value_array_succ, ok_bind, read_items hitems,
        foldlM_cons_eq, ofFault_mapM]
      cases items.mapM fun p => p.it.value room with
      | error f => rfl
      | ok vs => simp [OpenArray.close]
  | object inside entries ih =>
    intro g place ps hd
    rw [Spelling.text_object, toPieces_cons, List.cons_append, read_openObject, Slot.openObject]
    cases hroom : maxDepth - place.depth with
    | zero =>
      rw [enter_of_noRoom hroom]
      rfl
    | succ room =>
      have hdepth : maxDepth - (place.depth + 1) = room := by omega
      have hentries : ∀ m ∈ entries, ReadsEntry (fun done => .value done place)
          (fun done m => (· :: done) <$> ofFault (Spelling.member room m)) m := fun m hm =>
        (ih m hm).readsEntry place hdepth
      rw [enter_of_room hroom, Spelling.value_object_succ, ok_bind, read_entries hentries,
        foldlM_cons_eq, ofFault_mapM]
      cases entries.mapM (Spelling.member room) with
      | error f => rfl
      | ok es => simp [OpenObject.close]

/-- A value in a place where values are skipped is passed over. -/
def Skipped (s : Spelling) : Prop :=
  ∀ (blocks : Option (List Node)) (around : List Bracket) (ps : List Piece), Delimited ps →
    (Reader.between (.value (.skipped blocks around))).read (s.text.toPieces ++ ps) =
      (Reader.between (deliverSkipped blocks around)).read ps

theorem Skipped.read_padded {p : Padded Spelling} (h : Skipped p.it) (blocks : Option (List Node))
    (around : List Bracket) {ps : List Piece} (hd : Delimited ps) :
    (Reader.between (.value (.skipped blocks around))).read
        ((p.text Spelling.text).toPieces ++ ps) =
      (Reader.between (deliverSkipped blocks around)).read ps := by
  simp only [Padded.text, toPieces_append, List.append_assoc]
  rw [read_space _ p.before.property, h blocks around _ (delimited_space p.behind.property hd),
    read_space _ p.behind.property]

/-- Every value is passed over where values are skipped. -/
theorem skipped (s : Spelling) : Skipped s := by
  obtain ⟨l, hl⟩ := exists_loose s
  intro blocks around ps hd
  rw [← hl]
  exact passedOver l blocks around ps hd

end ManPage.Load
