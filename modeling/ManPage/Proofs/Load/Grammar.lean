import ManPage.Proofs.Load.Token

/-! # Accepted texts are JSON texts

Every state of the reader has a language: what may stand behind it in a text of the grammar. It
depends on the open brackets alone, whichever way of reading is in use. A step leads from the language
of a state to that of the next one, so that a text that is read to its end is a text of the grammar.
-/
namespace ManPage.Load
open Json Outcome
open Text (Piece toPieces toPieces_nil toPieces_cons toPieces_append)

/-! ## Open brackets -/

variable {g : Goal}

def NodePlace.brackets : NodePlace g → List Bracket
  | alone => []
  | block form _ => [.array, form]

def ValuePlace.brackets : ValuePlace g → List Bracket
  | nodeItem node _ _ => .array :: node.brackets
  | nodeEntry node _ _ _ => .object :: node.brackets
  | item _ around => .array :: around.brackets
  | entry _ _ around => .object :: around.brackets

def Slot.brackets : Slot g → List Bracket
  | document => []
  | blockList form => [form]
  | node place => place.brackets
  | tagItem place => .array :: place.brackets
  | tagEntry place _ => .object :: place.brackets
  | value place => place.brackets
  | skipped _ around => around ++ [.object]

/-- The brackets around the open array. -/
def OpenArray.around : OpenArray g → List Bracket
  | document => []
  | blockList form _ => [form]
  | node place => place.brackets
  | nodeItems place _ _ => place.brackets
  | value _ place => place.brackets
  | skipped _ around => around ++ [.object]

/-- The brackets around the open object. -/
def OpenObject.around : OpenObject g → List Bracket
  | document _ => []
  | node place _ _ => place.brackets
  | value _ place => place.brackets
  | skipped _ around => around ++ [.object]

/-! ## Languages -/

/-- What may stand behind a value inside the brackets, innermost first. -/
def Closes : List Bracket → Text → Prop
  | [], t => t.all isBlank
  | .array :: bs, t => ∃ (behind : Space) (items : List (Padded Spelling)) (rest : Text),
    t = behind.val ++ (behindCommas (items.map (Padded.text Spelling.text)) ++ ']' :: rest) ∧
      Closes bs rest
  | .object :: bs, t => ∃ (behind : Space) (entries : List (Member Spelling)) (rest : Text),
    t = behind.val ++ (behindCommas (entries.map (Member.text Spelling.text)) ++ '}' :: rest) ∧
      Closes bs rest

/-- A value is due inside the brackets. -/
def Due (bs : List Bracket) (t : Text) : Prop :=
  ∃ (before : Space) (s : Spelling) (rest : Text),
    t = before.val ++ (s.text ++ rest) ∧ Closes bs rest

/-- A colon and a value are due in an object. -/
def DueColon (bs : List Bracket) (t : Text) : Prop :=
  ∃ (ws : Space) (rest : Text), t = ws.val ++ ':' :: rest ∧ Due bs rest

/-- An entry is due in an object inside the brackets. -/
def DueKey (bs : List Bracket) (t : Text) : Prop :=
  ∃ (before : Space) (us : List StringUnit) (rest : Text),
    t = before.val ++ (StringUnit.literal us ++ rest) ∧ DueColon (.object :: bs) rest

/-- The bracket is closed, and what stands behind it closes the brackets around it. -/
def Ends (bracket : Char) (bs : List Bracket) (t : Text) : Prop :=
  ∃ (inside : Space) (rest : Text), t = inside.val ++ bracket :: rest ∧ Closes bs rest

def Between.Lang : Between g → Text → Prop
  | value slot, t => Due slot.brackets t
  | firstItem array, t => Ends ']' array.around t ∨ Due (.array :: array.around) t
  | nextItem array, t => Due (.array :: array.around) t
  | afterItem array, t => Closes (.array :: array.around) t
  | firstKey object, t => Ends '}' object.around t ∨ DueKey object.around t
  | nextKey object, t => DueKey object.around t
  | colon slot, t => DueColon slot.brackets t
  | afterEntry object, t => Closes (.object :: object.around) t
  | afterOnly _, t => Closes [.array] t
  | afterOnlyComma, _ => False
  | finished _, t => Closes [] t

def Reader.Lang : Reader g → Text → Prop
  | between place, t => place.Lang t
  | string slot q, t => ∃ us rest,
    Quotation.pending q.phase ++ t.toPieces = toPieces (StringUnit.texts us ++ '"' :: rest) ∧
      Closes slot.brackets rest
  | key object q, t => ∃ us rest,
    Quotation.pending q.phase ++ t.toPieces = toPieces (StringUnit.texts us ++ '"' :: rest) ∧
      DueColon (.object :: object.around) rest
  | numeral slot phase _, t => ∃ ds rest,
    t = ds ++ rest ∧ NumeralPhase.Follows phase ds ∧ Closes slot.brackets rest
  | literal slot _ next ds, t => ∃ rest, t = next :: ds ++ rest ∧ Closes slot.brackets rest

/-! ## Space in front -/

variable {bs : List Bracket} {c : Char} {t : Text}

def Space.cons (c : Char) (h : isBlank c) (ws : Space) : Space :=
  ⟨c :: ws.val, by rw [List.all_cons, h, ws.property]; rfl⟩

theorem Closes.space (hc : isBlank c) (h : Closes bs t) : Closes bs (c :: t) := by
  match bs, h with
  | [], h =>
    rw [Closes] at h ⊢
    rw [List.all_cons, hc, h]
    rfl
  | .array :: bs, ⟨behind, items, rest, ht, h⟩ =>
    exact ⟨Space.cons c hc behind, items, rest, congrArg (c :: ·) ht, h⟩
  | .object :: bs, ⟨behind, entries, rest, ht, h⟩ =>
    exact ⟨Space.cons c hc behind, entries, rest, congrArg (c :: ·) ht, h⟩

theorem Due.space (hc : isBlank c) : Due bs t → Due bs (c :: t) := by
  rintro ⟨before, s, rest, ht, h⟩
  exact ⟨Space.cons c hc before, s, rest, congrArg (c :: ·) ht, h⟩

theorem DueColon.space (hc : isBlank c) : DueColon bs t → DueColon bs (c :: t) := by
  rintro ⟨ws, rest, ht, h⟩
  exact ⟨Space.cons c hc ws, rest, congrArg (c :: ·) ht, h⟩

theorem DueKey.space (hc : isBlank c) : DueKey bs t → DueKey bs (c :: t) := by
  rintro ⟨before, us, rest, ht, h⟩
  exact ⟨Space.cons c hc before, us, rest, congrArg (c :: ·) ht, h⟩

theorem Ends.space {bracket : Char} (hc : isBlank c) : Ends bracket bs t → Ends bracket bs (c :: t) := by
  rintro ⟨inside, rest, ht, h⟩
  exact ⟨Space.cons c hc inside, rest, congrArg (c :: ·) ht, h⟩

/-- Space may stand between any two tokens. -/
theorem Between.Lang.space {place : Between g} (hc : isBlank c) (h : place.Lang t) :
    place.Lang (c :: t) := by
  cases place with
  | value _ => exact Due.space hc h
  | firstItem _ => exact h.imp (Ends.space hc) (Due.space hc)
  | nextItem _ => exact Due.space hc h
  | afterItem _ => exact Closes.space hc h
  | firstKey _ => exact h.imp (Ends.space hc) (DueKey.space hc)
  | nextKey _ => exact DueKey.space hc h
  | colon _ => exact DueColon.space hc h
  | afterEntry _ => exact Closes.space hc h
  | afterOnly _ => exact Closes.space hc h
  | afterOnlyComma => exact h
  | finished _ => exact Closes.space hc h

/-! ## Values and brackets -/

/-- A value stands where it is due. -/
theorem Due.of_text (s : Spelling) (h : Closes bs t) : Due bs (s.text ++ t) := ⟨noSpace, s, t, rfl, h⟩

/-- The array is closed behind its first bracket or goes on with its first element. -/
theorem Due.of_array (h : Ends ']' bs t ∨ Due (.array :: bs) t) : Due bs ('[' :: t) := by
  rcases h with ⟨inside, rest, rfl, h⟩ | ⟨before, s, _, rfl, behind, items, rest, rfl, h⟩
  · have hs := Due.of_text (.array inside []) h
    rw [Spelling.text_array] at hs
    simpa [withCommas] using hs
  · have hs := Due.of_text (.array noSpace (⟨before, s, behind⟩ :: items)) h
    rw [Spelling.text_array] at hs
    simpa [withCommas, Padded.text] using hs

theorem Due.of_object (h : Ends '}' bs t ∨ DueKey bs t) : Due bs ('{' :: t) := by
  rcases h with ⟨inside, rest, rfl, h⟩ |
    ⟨before, us, _, rfl, ws, _, rfl, before', s, _, rfl, behind, entries, rest, rfl, h⟩
  · have hs := Due.of_text (.object inside []) h
    rw [Spelling.text_object] at hs
    simpa [withCommas] using hs
  · have hs := Due.of_text
      (.object noSpace (⟨⟨before, us, ws⟩, ⟨before', s, behind⟩⟩ :: entries)) h
    rw [Spelling.text_object] at hs
    simpa [withCommas, Member.text, Padded.text] using hs

/-- Behind a comma the array goes on with its next element. -/
theorem Closes.of_nextItem (h : Due (.array :: bs) t) : Closes (.array :: bs) (',' :: t) := by
  obtain ⟨before, s, _, rfl, behind, items, rest, rfl, h⟩ := h
  refine ⟨noSpace, ⟨before, s, behind⟩ :: items, rest, ?_, h⟩
  simp [Padded.text]

theorem Closes.of_nextKey (h : DueKey bs t) : Closes (.object :: bs) (',' :: t) := by
  obtain ⟨before, us, _, rfl, ws, _, rfl, before', s, _, rfl, behind, entries, rest, rfl, h⟩ := h
  refine ⟨noSpace, ⟨⟨before, us, ws⟩, ⟨before', s, behind⟩⟩ :: entries, rest, ?_, h⟩
  simp [Member.text, Padded.text]

theorem Closes.of_closeArray (h : Closes bs t) : Closes (.array :: bs) (']' :: t) :=
  ⟨noSpace, [], t, rfl, h⟩

theorem Closes.of_closeObject (h : Closes bs t) : Closes (.object :: bs) ('}' :: t) :=
  ⟨noSpace, [], t, rfl, h⟩

/-! ## Places -/

theorem NodePlace.lang_deliver {place : NodePlace g} {n : Node} (h : (place.deliver n).Lang t) :
    Closes place.brackets t := by
  cases place with
  | alone => exact h
  | block form done => exact h

theorem ValuePlace.lang_deliver {place : ValuePlace g} {v : Value} (h : (place.deliver v).Lang t) :
    Closes place.brackets t := by
  cases place <;> exact h

theorem lang_deliverBlocks {form : Bracket} {blocks : List Node}
    (h : (deliverBlocks form blocks).Lang t) : Closes [form] t := by
  cases form <;> exact h

theorem lang_deliverSkipped {blocks : Option (List Node)} {around : List Bracket}
    (h : (deliverSkipped blocks around).Lang t) : Closes (around ++ [.object]) t := by
  cases around with
  | nil => exact h
  | cons b around => cases b <;> exact h

theorem expected_ne_ok {α : Type} {found : Found} {e : Expected} {a : α} :
    expected found e ≠ .ok a := nofun

theorem enter_eq_ok {α : Type} {depth : Nat} {a b : α} (h : enter depth a = .ok b) : a = b := by
  rw [enter] at h
  split at h
  · exact Except.ok.inj h
  · contradiction

/-- Behind a scalar stands what closes the brackets around its place. -/
theorem Slot.lang_scalar {slot : Slot g} {x : Scalar} {place : Between g}
    (h : slot.scalar x = .ok place) (ht : place.Lang t) : Closes slot.brackets t := by
  cases slot with
  | document => exact absurd h expected_ne_ok
  | blockList form => exact absurd h expected_ne_ok
  | node place => exact absurd h expected_ne_ok
  | tagItem place =>
    cases x with
    | string t =>
      cases h
      exact ht
    | null | bool _ | number _ => exact absurd h expected_ne_ok
  | tagEntry place entries =>
    cases x with
    | string t =>
      cases h
      exact ht
    | null | bool _ | number _ => exact absurd h expected_ne_ok
  | value place =>
    cases h
    exact ValuePlace.lang_deliver ht
  | skipped blocks around =>
    cases h
    exact lang_deliverSkipped ht

theorem Slot.lang_numeral {slot : Slot g} {spelling : List Char} {place : Between g}
    (h : slot.numeral spelling = .ok place) (ht : place.Lang t) : Closes slot.brackets t := by
  rw [Slot.numeral] at h
  split at h
  · split at h
    · exact Slot.lang_scalar h ht
    · contradiction
  · exact Slot.lang_scalar h ht

theorem Slot.around_openArray {slot : Slot g} {array : OpenArray g}
    (h : slot.openArray = .ok array) : array.around = slot.brackets := by
  cases slot with
  | document | blockList _ | skipped _ _ =>
    cases h
    rfl
  | node place | value place =>
    cases enter_eq_ok h
    rfl
  | tagItem _ | tagEntry _ _ => exact absurd h expected_ne_ok

theorem Slot.around_openObject {slot : Slot g} {object : OpenObject g}
    (h : slot.openObject = .ok object) : object.around = slot.brackets := by
  cases slot with
  | document | skipped _ _ =>
    cases h
    rfl
  | node place | value place =>
    cases enter_eq_ok h
    rfl
  | blockList _ | tagItem _ | tagEntry _ _ => exact absurd h expected_ne_ok

theorem OpenArray.brackets_slot (array : OpenArray g) :
    array.slot.brackets = .array :: array.around := by
  cases array <;> rfl

theorem OpenArray.lang_close {array : OpenArray g} {place : Between g} (h : array.close = .ok place)
    (ht : place.Lang t) : Closes array.around t := by
  cases array with
  | document =>
    cases h
    exact ht
  | blockList form done =>
    cases h
    exact lang_deliverBlocks ht
  | node place => contradiction
  | nodeItems place kind items =>
    obtain ⟨n, -, hn⟩ := bind_eq_ok.mp h
    cases hn
    exact NodePlace.lang_deliver ht
  | value items place =>
    cases h
    exact ValuePlace.lang_deliver ht
  | skipped blocks around =>
    cases h
    exact lang_deliverSkipped ht

theorem OpenObject.lang_close {object : OpenObject g} {place : Between g}
    (h : object.close = .ok place) (ht : place.Lang t) : Closes object.around t := by
  cases object with
  | document blocks =>
    cases h
    exact ht
  | node place kind entries =>
    cases kind with
    | none => contradiction
    | some kind =>
      obtain ⟨n, -, hn⟩ := bind_eq_ok.mp h
      cases hn
      exact NodePlace.lang_deliver ht
  | value entries place =>
    cases h
    exact ValuePlace.lang_deliver ht
  | skipped blocks around =>
    cases h
    exact lang_deliverSkipped ht

theorem OpenObject.brackets_slot {object : OpenObject g} {key : Text} {slot : Slot g}
    (h : object.slot key = .ok slot) : slot.brackets = .object :: object.around := by
  cases object with
  | document blocks =>
    simp only [OpenObject.slot] at h
    split at h
    · cases blocks with
      | some _ => contradiction
      | none =>
        cases h
        rfl
    · cases h
      rfl
  | node place kind entries =>
    simp only [OpenObject.slot] at h
    split at h
    · cases kind with
      | some _ => contradiction
      | none =>
        cases h
        rfl
    · cases h
      rfl
  | value entries place =>
    cases h
    rfl
  | skipped blocks around =>
    cases h
    rfl

/-! ## Steps -/

theorem eq_of_toPieces_eq {s t : Text} (h : s.toPieces = t.toPieces) : s = t :=
  (List.map_inj_right fun _ _ h => Piece.char.inj h).mp h

theorem Slot.lang_start {slot : Slot g} {r : Reader g} (h : slot.start (.char c) = .ok r)
    (ht : r.Lang t) : Due slot.brackets (c :: t) := by
  unfold Slot.start at h
  split at h
  · next hc =>
    cases hc
    obtain ⟨array, harray, hr⟩ := bind_eq_ok.mp h
    cases hr
    rw [← Slot.around_openArray harray]
    exact Due.of_array ht
  · next hc =>
    cases hc
    obtain ⟨object, hobject, hr⟩ := bind_eq_ok.mp h
    cases hr
    rw [← Slot.around_openObject hobject]
    exact Due.of_object ht
  · next hc =>
    cases hc
    cases h
    obtain ⟨us, rest, hus, hrest⟩ := ht
    rw [eq_of_toPieces_eq hus]
    simpa [Spelling.text, ScalarSpelling.text, StringUnit.literal] using
      Due.of_text (.scalar (.string us)) hrest
  · next hc =>
    cases hc
    cases h
    obtain ⟨rest, rfl, hrest⟩ := ht
    exact Due.of_text (.scalar (.bool true)) hrest
  · next hc =>
    cases hc
    cases h
    obtain ⟨rest, rfl, hrest⟩ := ht
    exact Due.of_text (.scalar (.bool false)) hrest
  · next hc =>
    cases hc
    cases h
    obtain ⟨rest, rfl, hrest⟩ := ht
    exact Due.of_text (.scalar .null) hrest
  · next hc =>
    cases hc
    split at h
    · next phase hphase =>
      cases h
      obtain ⟨ds, rest, rfl, hds, hrest⟩ := ht
      obtain ⟨last, hlast⟩ := (NumeralPhase.run_complete_iff phase ds).mpr hds
      have hnumeral : IsNumeral (c :: ds) := isNumeral_cons.mpr ⟨phase, last, hphase, hlast⟩
      exact Due.of_text (.scalar (.numeral (c :: ds) hnumeral)) hrest
    · contradiction
  · contradiction

theorem OpenArray.lang_start {array : OpenArray g} {r : Reader g}
    (h : array.slot.start (.char c) = .ok r) (ht : r.Lang t) :
    Due (.array :: array.around) (c :: t) := by
  rw [← OpenArray.brackets_slot]
  exact Slot.lang_start h ht

theorem OpenArray.lang_closed {array : OpenArray g} {r : Reader g}
    (h : (do return Reader.between (← array.close)) = .ok r) (ht : r.Lang t) : Closes array.around t := by
  obtain ⟨place, hplace, hr⟩ := bind_eq_ok.mp h
  cases hr
  exact OpenArray.lang_close hplace ht

theorem OpenObject.lang_closed {object : OpenObject g} {r : Reader g}
    (h : (do return Reader.between (← object.close)) = .ok r) (ht : r.Lang t) : Closes object.around t := by
  obtain ⟨place, hplace, hr⟩ := bind_eq_ok.mp h
  cases hr
  exact OpenObject.lang_close hplace ht

theorem OpenObject.lang_quote {object : OpenObject g} (ht : (Reader.key object {}).Lang t) :
    DueKey object.around ('"' :: t) := by
  obtain ⟨us, rest, hus, hrest⟩ := ht
  refine ⟨noSpace, us, rest, ?_, hrest⟩
  rw [eq_of_toPieces_eq hus]
  simp [StringUnit.literal]

/-- A token leads from the language of a place to that of the state behind it. -/
theorem Between.lang_token {place : Between g} {r : Reader g} (h : place.token (.char c) = .ok r)
    (ht : r.Lang t) : place.Lang (c :: t) := by
  cases place with
  | value slot => exact Slot.lang_start h ht
  | firstItem array =>
    simp only [token] at h
    split at h
    · next hc =>
      cases hc
      exact Or.inl ⟨noSpace, t, rfl, OpenArray.lang_closed h ht⟩
    · exact Or.inr (OpenArray.lang_start h ht)
  | nextItem array =>
    simp only [token] at h
    split at h
    · contradiction
    · exact OpenArray.lang_start h ht
  | afterItem array =>
    simp only [token] at h
    split at h
    · next hc =>
      cases hc
      cases h
      exact Closes.of_nextItem ht
    split at h
    · next hc =>
      cases hc
      exact Closes.of_closeArray (OpenArray.lang_closed h ht)
    · contradiction
  | firstKey object =>
    simp only [token] at h
    split at h
    · next hc =>
      cases hc
      exact Or.inl ⟨noSpace, t, rfl, OpenObject.lang_closed h ht⟩
    split at h
    · next hc =>
      cases hc
      cases h
      exact Or.inr (OpenObject.lang_quote ht)
    · contradiction
  | nextKey object =>
    simp only [token] at h
    split at h
    · next hc =>
      cases hc
      cases h
      exact OpenObject.lang_quote ht
    split at h <;> contradiction
  | colon slot =>
    simp only [token] at h
    split at h
    · next hc =>
      cases hc
      cases h
      exact ⟨noSpace, t, rfl, ht⟩
    · contradiction
  | afterEntry object =>
    simp only [token] at h
    split at h
    · next hc =>
      cases hc
      cases h
      exact Closes.of_nextKey ht
    split at h
    · next hc =>
      cases hc
      exact Closes.of_closeObject (OpenObject.lang_closed h ht)
    · contradiction
  | afterOnly blocks =>
    simp only [token] at h
    split at h
    · next hc =>
      cases hc
      cases h
      exact Closes.of_closeArray ht
    split at h
    · cases h
      exact absurd ht id
    · contradiction
  | afterOnlyComma =>
    simp only [token] at h
    split at h <;> contradiction
  | finished result => contradiction

theorem Between.lang_step {place : Between g} {r : Reader g} (h : place.step (.char c) = .ok r)
    (ht : r.Lang t) : place.Lang (c :: t) := by
  rw [Between.step] at h
  split at h
  · next hc =>
    cases h
    exact Between.Lang.space hc ht
  · exact Between.lang_token h ht

/-- A step inside a string literal, with the unit that it completes. -/
theorem lang_quotation {q : Quotation} {s : Quotation.Step} {strict : Bool} {P : Text → Prop}
    (h : q.step strict (.char c) = .ok s)
    (hclosed : ∀ v, s = .closed v → P t)
    (hnext : ∀ r, s = .next r → ∃ us rest,
      Quotation.pending r.phase ++ t.toPieces = toPieces (StringUnit.texts us ++ '"' :: rest) ∧ P rest) :
    ∃ us rest, Quotation.pending q.phase ++ toPieces (c :: t) =
      toPieces (StringUnit.texts us ++ '"' :: rest) ∧ P rest := by
  rcases Quotation.step_char strict h with ⟨v, hv, hpending, rfl⟩ | ⟨r, hr, hpending⟩
  · exact ⟨[], t, by rw [hpending]; rfl, hclosed v hv⟩
  · obtain ⟨us, rest, hus, hrest⟩ := hnext r hr
    rcases hpending with hpending | ⟨hpending, u, hu⟩
    · refine ⟨us, rest, ?_, hrest⟩
      rw [← hus, hpending, toPieces_cons, List.append_assoc]
      rfl
    · refine ⟨u :: us, rest, ?_, hrest⟩
      rw [hpending, List.nil_append] at hus
      rw [StringUnit.texts_cons, List.append_assoc, toPieces_append, ← hus, hu, toPieces_cons,
        List.append_assoc]
      rfl

section
variable {s : Reader g} (ht : s.Lang t)
include ht

theorem Reader.lang_string {slot : Slot g} {q : Quotation}
    (h : (Reader.string slot q).step (.char c) = .ok s) : (Reader.string slot q).Lang (c :: t) := by
  simp only [step] at h
  cases hq : q.step slot.strict (.char c) with
  | error f =>
    rw [hq] at h
    contradiction
  | ok next =>
    rw [hq] at h
    refine lang_quotation hq ?_ ?_
    · rintro v rfl
      obtain ⟨place, hplace, hs⟩ := bind_eq_ok.mp h
      cases hs
      exact Slot.lang_scalar hplace ht
    · rintro q rfl
      cases h
      exact ht

theorem Reader.lang_key {object : OpenObject g} {q : Quotation}
    (h : (Reader.key object q).step (.char c) = .ok s) : (Reader.key object q).Lang (c :: t) := by
  simp only [step] at h
  cases hq : q.step object.strict (.char c) with
  | error f =>
    rw [hq] at h
    contradiction
  | ok next =>
    rw [hq] at h
    refine lang_quotation hq ?_ ?_
    · rintro v rfl
      obtain ⟨slot, hslot, hs⟩ := bind_eq_ok.mp h
      cases hs
      rw [← OpenObject.brackets_slot hslot]
      exact ht
    · rintro q rfl
      cases h
      exact ht

/-- A numeral goes on with the character, or it is complete and the character stands behind it. -/
theorem Reader.lang_numeral {slot : Slot g} {phase : NumeralPhase} {spelling : List Char}
    (h : (Reader.numeral slot phase spelling).step (.char c) = .ok s) :
    (Reader.numeral slot phase spelling).Lang (c :: t) := by
  simp only [step, NumeralPhase.stepPiece] at h
  cases hphase : phase.step c with
  | next phase' =>
    rw [hphase] at h
    cases h
    obtain ⟨ds, rest, rfl, hds, hrest⟩ := ht
    have hfollows := (NumeralPhase.follows_cons phase c ds).mpr ⟨_, hphase, hds⟩
    exact ⟨c :: ds, rest, rfl, hfollows, hrest⟩
  | ended =>
    rw [hphase] at h
    obtain ⟨place, hplace, hs⟩ := bind_eq_ok.mp h
    have hplace' := Between.lang_step hs ht
    have hfollows := (NumeralPhase.follows_nil phase).mpr (NumeralPhase.complete_of_ended hphase)
    exact ⟨[], c :: t, rfl, hfollows, Slot.lang_numeral hplace hplace'⟩
  | invalid =>
    rw [hphase] at h
    contradiction

theorem Reader.lang_literal {slot : Slot g} {x : Scalar} {next : Char} {ds : Text}
    (h : (Reader.literal slot x next ds).step (.char c) = .ok s) :
    (Reader.literal slot x next ds).Lang (c :: t) := by
  simp only [step] at h
  split at h
  · next hc =>
    cases hc
    cases ds with
    | nil =>
      obtain ⟨place, hplace, hs⟩ := bind_eq_ok.mp h
      cases hs
      exact ⟨t, rfl, Slot.lang_scalar hplace ht⟩
    | cons d ds =>
      cases h
      obtain ⟨rest, rfl, hrest⟩ := ht
      exact ⟨rest, rfl, hrest⟩
  · contradiction

theorem Reader.lang_step {r : Reader g} (h : r.step (.char c) = .ok s) : r.Lang (c :: t) := by
  cases r with
  | between place => exact Between.lang_step h ht
  | string slot q => exact Reader.lang_string ht h
  | key object q => exact Reader.lang_key ht h
  | numeral slot phase spelling => exact Reader.lang_numeral ht h
  | literal slot x next ds => exact Reader.lang_literal ht h

end

theorem Between.lang_nil {place : Between g} {result : g.Result} (h : place.finish = .ok result) :
    place.Lang [] := by
  cases place with
  | finished _ => rfl
  | value _ | firstItem _ | nextItem _ | afterItem _ | firstKey _ | nextKey _ | colon _
  | afterEntry _ | afterOnly _ | afterOnlyComma => contradiction

theorem Reader.lang_nil {r : Reader g} {result : g.Result} (h : r.finish = .ok result) :
    r.Lang [] := by
  cases r with
  | between place => exact Between.lang_nil h
  | numeral slot phase spelling =>
    simp only [finish] at h
    split at h
    · next hphase =>
      obtain ⟨place, hplace, hfinish⟩ := bind_eq_ok.mp h
      have hfollows := (NumeralPhase.follows_nil phase).mpr hphase
      exact ⟨[], [], rfl, hfollows, Slot.lang_numeral hplace (Between.lang_nil hfinish)⟩
    · split at h <;> contradiction
  | string _ _ | key _ _ | literal _ _ _ _ => contradiction

/-- What is read to its end is a text of the language of the state. -/
theorem Reader.lang_of_read {r : Reader g} {t : Text} {result : g.Result}
    (h : r.read t.toPieces = .ok result) : r.Lang t := by
  induction t generalizing r with
  | nil => exact Reader.lang_nil h
  | cons c t ih =>
    rw [toPieces_cons, read_cons] at h
    obtain ⟨s, hs, hread⟩ := bind_eq_ok.mp h
    exact Reader.lang_step (ih hread) hs

/-- A value with space around it, as the grammar has it. -/
theorem exists_padded_of_due (h : Due [] t) : ∃ p : Padded Spelling, p.text Spelling.text = t := by
  obtain ⟨before, s, rest, rfl, hrest⟩ := h
  exact ⟨⟨before, s, ⟨rest, hrest⟩⟩, rfl⟩

end ManPage.Load

namespace ManPage
open Json Load

/-- A text from which a document is loaded is a JSON text. -/
theorem Document.exists_padded_of_ofText {t : Text} {d : Document} (h : Document.ofText t = .ok d) :
    ∃ p : Padded Spelling, p.text Spelling.text = t :=
  exists_padded_of_due (Reader.lang_of_read h)

end ManPage
