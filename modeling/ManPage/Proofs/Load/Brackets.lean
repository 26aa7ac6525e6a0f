import ManPage.Proofs.Json.Loose
import ManPage.Proofs.Load.Token

/-! # Reading between brackets

What is read between two brackets is read element by element. If each element takes the open bracket
from one state to the next, all of them take it through the states in their order, and then it is
closed; which values are kept, decoded or skipped on the way is left to the elements.
-/
namespace ManPage.Load
open Json Outcome Reader
open Text (Piece toPieces toPieces_cons toPieces_append)

theorem delimited_cons {p : Piece} (h : isSpace p ∨ p = .char ',' ∨ p = .char ']' ∨ p = .char '}')
    (ps : List Piece) : Delimited (p :: ps) := by
  intro q hq
  cases hq
  exact h

theorem delimited_space {ws : Text} (h : ws.all isBlank) {ps : List Piece} (hp : Delimited ps) :
    Delimited (ws.toPieces ++ ps) := by
  cases ws with
  | nil => exact hp
  | cons c ws =>
    rw [List.all_cons, Bool.and_eq_true] at h
    have hc : isSpace (.char c) := h.1
    exact delimited_cons (Or.inl hc) _

theorem delimited_behindCommas (ts : List Text) {ps : List Piece} (hp : Delimited ps) :
    Delimited ((behindCommas ts).toPieces ++ ps) := by
  cases ts with
  | nil => exact hp
  | cons t ts => exact delimited_cons (Or.inr (Or.inl rfl)) _

theorem delimited_closeArray (ps : List Piece) : Delimited (.char ']' :: ps) :=
  delimited_cons (Or.inr (Or.inr (Or.inl rfl))) ps

theorem delimited_closeObject (ps : List Piece) : Delimited (.char '}' :: ps) :=
  delimited_cons (Or.inr (Or.inr (Or.inr rfl))) ps

/-- The text of a value starts with a piece that is no space and closes no array. -/
theorem exists_text_cons (s : Spelling) :
    ∃ c t, s.text = c :: t ∧ isSpace (.char c) = false ∧ c ≠ ']' := by
  cases s with
  | array inside items => exact ⟨'[', _, rfl, rfl, by decide⟩
  | object inside entries => exact ⟨'{', _, rfl, rfl, by decide⟩
  | scalar s =>
    rw [Spelling.text]
    cases s with
    | null => exact ⟨'n', _, rfl, rfl, by decide⟩
    | bool b => cases b <;> exact ⟨_, _, rfl, rfl, by decide⟩
    | string us => exact ⟨'"', _, rfl, rfl, by decide⟩
    | numeral t ht =>
      cases t with
      | nil => exact absurd rfl ht.ne_nil
      | cons c t =>
        obtain ⟨phase, last, hstart, -, -⟩ := isNumeral_cons.mp ht
        refine ⟨c, t, rfl, isSpace_of_start? hstart, ?_⟩
        rintro rfl
        contradiction

variable {g : Goal}

theorem read_openArray (slot : Slot g) (ps : List Piece) :
    (Reader.between (.value slot)).read (.char '[' :: ps) =
      slot.openArray >>= fun a => (Reader.between (.firstItem a)).read ps := by
  rw [read_token _ rfl]
  simp [Between.token, Slot.start]

theorem read_openObject (slot : Slot g) (ps : List Piece) :
    (Reader.between (.value slot)).read (.char '{' :: ps) =
      slot.openObject >>= fun o => (Reader.between (.firstKey o)).read ps := by
  rw [read_token _ rfl]
  simp [Between.token, Slot.start]

theorem read_closeArray (array : OpenArray g) {place : Between g}
    (h : place = .firstItem array ∨ place = .afterItem array) (ps : List Piece) :
    (Reader.between place).read (.char ']' :: ps) =
      array.close >>= fun b => (Reader.between b).read ps := by
  rw [read_token _ rfl]
  rcases h with rfl | rfl <;> simp [Between.token]

theorem read_closeObject (object : OpenObject g) {place : Between g}
    (h : place = .firstKey object ∨ place = .afterEntry object) (ps : List Piece) :
    (Reader.between place).read (.char '}' :: ps) =
      object.close >>= fun b => (Reader.between b).read ps := by
  rw [read_token _ rfl]
  rcases h with rfl | rfl <;> simp [Between.token]

/-- A value is read in the same way at the start of an array, behind a comma and in its place. -/
theorem read_item (array : OpenArray g) (p : Padded Spelling) {start : Between g}
    (hstart : start = .firstItem array ∨ start = .nextItem array) (ps : List Piece) :
    (Reader.between start).read ((p.text Spelling.text).toPieces ++ ps) =
      (Reader.between (.value array.slot)).read ((p.text Spelling.text).toPieces ++ ps) := by
  obtain ⟨c, t, hs, hspace, hclose⟩ := exists_text_cons p.it
  simp only [Padded.text, toPieces_append, List.append_assoc, read_space _ p.before.property]
  rw [hs, toPieces_cons, List.cons_append, read_token _ hspace, read_token _ hspace]
  rcases hstart with rfl | rfl <;> simp [Between.token, hclose]

theorem read_colon (slot : Slot g) {ws : Text} (h : ws.all isBlank) (ps : List Piece) :
    (Reader.between (.colon slot)).read (ws.toPieces ++ .char ':' :: ps) =
      (Reader.between (.value slot)).read ps := by
  rw [read_space _ h]
  rfl

section Key
variable {object : OpenObject g} {start : Between g}
  (hstart : start = .firstKey object ∨ start = .nextKey object) (key : Padded (List StringUnit))
include hstart

theorem read_keyUnits (ps : List Piece) :
    (Reader.between start).read ((key.text StringUnit.literal).toPieces ++ .char ':' :: ps) =
      ofFault (Quotation.scan object.strict {} ((StringUnit.texts key.it).toPieces ++
        .char '"' :: (key.behind.val.toPieces ++ .char ':' :: ps))) >>= fun
      | none => .error (.unfinished .string)
      | some (t, rest) =>
        object.slot t >>= fun slot => (Reader.between (.colon slot)).read rest := by
  have hquote : (Reader.between start).step (.char '"') = .ok (.key object {}) := by
    rcases hstart with rfl | rfl <;> rfl
  simp only [Padded.text, StringUnit.literal, toPieces_append, toPieces_cons, List.append_assoc,
    List.cons_append]
  rw [read_space _ key.before.property, read_of_step hquote, read_key]
  rfl

/-- The key of an entry and its colon, where keys are checked in full. -/
theorem read_memberKey (hs : object.strict) (ps : List Piece) :
    (Reader.between start).read ((key.text StringUnit.literal).toPieces ++ .char ':' :: ps) =
      ofFault (StringUnit.decode key.it) >>= fun t =>
        object.slot t >>= fun slot => (Reader.between (.value slot)).read ps := by
  rw [read_keyUnits hstart, hs, Quotation.scan_strict {} _ key.it rfl rfl]
  cases StringUnit.decode key.it with
  | error f => rfl
  | ok t => simp [read_colon _ key.behind.property]

end Key

/-! ## Elements in any form -/

theorem delimited_sequel (pss : List (List Piece)) {ps : List Piece} (hp : Delimited ps) :
    Delimited (sequel pss ++ ps) := by
  cases pss with
  | nil => exact hp
  | cons qs pss => exact delimited_cons (Or.inr (Or.inl rfl)) _

theorem toPieces_behindCommas (ts : List Text) :
    (behindCommas ts).toPieces = sequel (ts.map toPieces) := by
  induction ts with
  | nil => rfl
  | cons t ts ih => simp [ih]

theorem toPieces_withCommas (ts : List Text) : (withCommas ts).toPieces = separated (ts.map toPieces) := by
  cases ts with
  | nil => rfl
  | cons t ts => rw [withCommas, toPieces_append, toPieces_behindCommas, List.map_cons, separated]

section Items
variable {σ α : Type} (array : σ → OpenArray g) (item : σ → α → Except Error σ) (pieces : α → List Piece)

/-- The pieces of the element take the array from one state to the next. -/
def TakesItem (a : α) : Prop :=
  ∀ (s : σ) (start : Between g), start = .firstItem (array s) ∨ start = .nextItem (array s) →
    ∀ ps, Delimited ps → (Reader.between start).read (pieces a ++ ps) =
      item s a >>= fun s => (Reader.between (.afterItem (array s))).read ps

variable {array item pieces}

theorem read_sequelItems {as : List α} (h : ∀ a ∈ as, TakesItem array item pieces a) (s : σ)
    (ps : List Piece) :
    (Reader.between (.afterItem (array s))).read (sequel (as.map pieces) ++ .char ']' :: ps) =
      as.foldlM item s >>= fun s => (array s).close >>= fun b => (Reader.between b).read ps := by
  induction as generalizing s with
  | nil => exact read_closeArray (array s) (Or.inr rfl) ps
  | cons a as ih =>
    have hcomma : (Reader.between (.afterItem (array s))).step (.char ',') =
        .ok (.between (.nextItem (array s))) := rfl
    have hd := delimited_sequel (as.map pieces) (delimited_closeArray ps)
    rw [List.map_cons, sequel_cons, List.cons_append, read_of_step hcomma, List.append_assoc,
      h a List.mem_cons_self s _ (Or.inr rfl) _ hd, List.foldlM_cons, bind_assoc]
    simp only [ih fun b hb => h b (List.mem_cons_of_mem a hb)]

theorem read_separatedItems {as : List α} (h : ∀ a ∈ as, TakesItem array item pieces a)
    (inside : Space) (s : σ) (ps : List Piece) :
    (Reader.between (.firstItem (array s))).read
        (inside.val.toPieces ++ (separated (as.map pieces) ++ .char ']' :: ps)) =
      as.foldlM item s >>= fun s => (array s).close >>= fun b => (Reader.between b).read ps := by
  rw [read_space _ inside.property]
  cases as with
  | nil => exact read_closeArray (array s) (Or.inl rfl) ps
  | cons a as =>
    have hd := delimited_sequel (as.map pieces) (delimited_closeArray ps)
    rw [List.map_cons, separated, List.append_assoc, h a List.mem_cons_self s _ (Or.inl rfl) _ hd,
      List.foldlM_cons, bind_assoc]
    simp only [read_sequelItems fun b hb => h b (List.mem_cons_of_mem a hb)]

end Items

section Entries
variable {σ α : Type} (object : σ → OpenObject g) (entry : σ → α → Except Error σ)
  (pieces : α → List Piece)

/-- The pieces of the entry take the object from one state to the next. -/
def TakesEntry (a : α) : Prop :=
  ∀ (s : σ) (start : Between g), start = .firstKey (object s) ∨ start = .nextKey (object s) →
    ∀ ps, Delimited ps → (Reader.between start).read (pieces a ++ ps) =
      entry s a >>= fun s => (Reader.between (.afterEntry (object s))).read ps

variable {object entry pieces}

theorem read_sequelEntries {as : List α} (h : ∀ a ∈ as, TakesEntry object entry pieces a) (s : σ)
    (ps : List Piece) :
    (Reader.between (.afterEntry (object s))).read (sequel (as.map pieces) ++ .char '}' :: ps) =
      as.foldlM entry s >>= fun s => (object s).close >>= fun b => (Reader.between b).read ps := by
  induction as generalizing s with
  | nil => exact read_closeObject (object s) (Or.inr rfl) ps
  | cons a as ih =>
    have hcomma : (Reader.between (.afterEntry (object s))).step (.char ',') =
        .ok (.between (.nextKey (object s))) := rfl
    have hd := delimited_sequel (as.map pieces) (delimited_closeObject ps)
    rw [List.map_cons, sequel_cons, List.cons_append, read_of_step hcomma, List.append_assoc,
      h a List.mem_cons_self s _ (Or.inr rfl) _ hd, List.foldlM_cons, bind_assoc]
    simp only [ih fun b hb => h b (List.mem_cons_of_mem a hb)]

theorem read_separatedEntries {as : List α} (h : ∀ a ∈ as, TakesEntry object entry pieces a)
    (inside : Space) (s : σ) (ps : List Piece) :
    (Reader.between (.firstKey (object s))).read
        (inside.val.toPieces ++ (separated (as.map pieces) ++ .char '}' :: ps)) =
      as.foldlM entry s >>= fun s => (object s).close >>= fun b => (Reader.between b).read ps := by
  rw [read_space _ inside.property]
  cases as with
  | nil => exact read_closeObject (object s) (Or.inl rfl) ps
  | cons a as =>
    have hd := delimited_sequel (as.map pieces) (delimited_closeObject ps)
    rw [List.map_cons, separated, List.append_assoc, h a List.mem_cons_self s _ (Or.inl rfl) _ hd,
      List.foldlM_cons, bind_assoc]
    simp only [read_sequelEntries fun b hb => h b (List.mem_cons_of_mem a hb)]

end Entries

/-! ## Elements as they are spelled -/

section Array
variable {σ : Type} (array : σ → OpenArray g) (item : σ → Padded Spelling → Except Error σ)

/-- The element takes the array from one state to the next. -/
def ReadsItem (p : Padded Spelling) : Prop :=
  ∀ (s : σ) (ps : List Piece), Delimited ps →
    (Reader.between (.value (array s).slot)).read ((p.text Spelling.text).toPieces ++ ps) =
      item s p >>= fun s => (Reader.between (.afterItem (array s))).read ps

variable {array item}

theorem ReadsItem.takesItem {p : Padded Spelling} (h : ReadsItem array item p) :
    TakesItem array item (fun p => (p.text Spelling.text).toPieces) p := by
  intro s start hstart ps hd
  rw [read_item _ _ hstart, h s ps hd]

/-- The elements behind the first one, and the closing bracket. -/
theorem read_moreItems {items : List (Padded Spelling)} (h : ∀ p ∈ items, ReadsItem array item p)
    (s : σ) (ps : List Piece) :
    (Reader.between (.afterItem (array s))).read
        ((behindCommas (items.map (Padded.text Spelling.text))).toPieces ++ .char ']' :: ps) =
      items.foldlM item s >>= fun s =>
        (array s).close >>= fun b => (Reader.between b).read ps := by
  rw [toPieces_behindCommas, List.map_map]
  exact read_sequelItems (fun p hp => (h p hp).takesItem) s ps

/-- The elements of an array up to its closing bracket. -/
theorem read_items {items : List (Padded Spelling)} (h : ∀ p ∈ items, ReadsItem array item p)
    (inside : Space) (s : σ) (ps : List Piece) :
    (Reader.between (.firstItem (array s))).read ((inside.val ++
        (withCommas (items.map (Padded.text Spelling.text)) ++ [']'])).toPieces ++ ps) =
      items.foldlM item s >>= fun s =>
        (array s).close >>= fun b => (Reader.between b).read ps := by
  simp only [toPieces_append, List.append_assoc]
  rw [toPieces_withCommas, List.map_map]
  exact read_separatedItems (fun p hp => (h p hp).takesItem) inside s ps

end Array

section Object
variable {σ : Type} (object : σ → OpenObject g) (entry : σ → Member Spelling → Except Error σ)

/-- The entry takes the object from one state to the next. -/
def ReadsEntry (m : Member Spelling) : Prop :=
  ∀ (s : σ) (start : Between g), start = .firstKey (object s) ∨ start = .nextKey (object s) →
    ∀ ps, Delimited ps → (Reader.between start).read ((m.text Spelling.text).toPieces ++ ps) =
      entry s m >>= fun s => (Reader.between (.afterEntry (object s))).read ps

variable {object entry}

/-- The entries of an object up to its closing bracket. -/
theorem read_entries {entries : List (Member Spelling)}
    (h : ∀ m ∈ entries, ReadsEntry object entry m) (inside : Space) (s : σ) (ps : List Piece) :
    (Reader.between (.firstKey (object s))).read ((inside.val ++
        (withCommas (entries.map (Member.text Spelling.text)) ++ ['}'])).toPieces ++ ps) =
      entries.foldlM entry s >>= fun s =>
        (object s).close >>= fun b => (Reader.between b).read ps := by
  simp only [toPieces_append, List.append_assoc]
  rw [toPieces_withCommas, List.map_map]
  have htakes : ∀ m ∈ entries,
      TakesEntry object entry (fun m => (Member.text Spelling.text m).toPieces) m := h
  exact read_separatedEntries htakes inside s ps

end Object

end ManPage.Load
