import Mathlib.Data.List.Induction
import ManPage.Proofs.Load.Brackets
import ManPage.Proofs.Load.Grammar
import ManPage.Proofs.Text.Utf8

/-! # Cut texts

A document is never read from a part of its text. Wherever an accepted text is cut, the reader stands
inside a token or between two tokens of the document, and the end of the text is an error there. It is
the end of an unfinished text, unless a numeral is cut: one that is skipped need not be a numeral up to
the cut, and one that is kept may be too large up to there, as its exponent is missing.
-/
namespace ManPage.Load
open Json Outcome
open Text (Piece toPieces toPieces_nil toPieces_cons toPieces_append)

variable {g : Goal}

/-- The place of the value that is due, if a value may come next. -/
def Between.due? : Between g → Option (Slot g)
  | value slot => some slot
  | firstItem array => some array.slot
  | nextItem array => some array.slot
  | _ => none

/-- Behind the text `t` a value of the document is due in the slot. -/
def DueBehind (t : Text) (slot : Slot .document) : Prop :=
  ∃ place, (Reader.between (.value .document)).feed t.toPieces = .ok (.between place) ∧
    place.due? = some slot

/-- The text `u ++ v` is cut inside a numeral in the slot, of which `n` stands before the cut. -/
def CutsNumeral (slot : Slot .document) (n u v : Text) : Prop :=
  ∃ before m behind, u = before ++ n ∧ v = m ++ behind ∧ n ≠ [] ∧ m ≠ [] ∧ IsNumeral (n ++ m) ∧
    DueBehind before slot

/-! ## The part of a numeral that has been read -/

/-- The text starts a numeral and leads to the phase. -/
def NumeralStart (phase : NumeralPhase) (n : Text) : Prop :=
  ∃ c ds first, n = c :: ds ∧ NumeralPhase.start? c = some first ∧ first.run ds = some phase

theorem NumeralStart.snoc {phase next : NumeralPhase} {n : Text} {c : Char} (h : NumeralStart phase n)
    (hc : phase.step c = .next next) : NumeralStart next (n ++ [c]) := by
  obtain ⟨d, ds, first, rfl, hfirst, hds⟩ := h
  refine ⟨d, ds ++ [c], first, rfl, hfirst, ?_⟩
  rw [NumeralPhase.run_append, hds, Option.bind_some, NumeralPhase.run, hc]
  rfl

theorem NumeralStart.isNumeral {phase : NumeralPhase} {n m : Text} (h : NumeralStart phase n)
    (hm : phase.Follows m) : IsNumeral (n ++ m) := by
  obtain ⟨d, ds, first, rfl, hfirst, hds⟩ := h
  obtain ⟨last, hlast, hcomplete⟩ := (NumeralPhase.run_complete_iff phase m).mpr hm
  have hrun : first.run (ds ++ m) = some last := by
    rw [NumeralPhase.run_append, hds, Option.bind_some, hlast]
  exact isNumeral_cons.mpr ⟨first, last, hfirst, hrun, hcomplete⟩

/-- Behind a value the next value is not due before a comma. -/
theorem Slot.due?_scalar {slot : Slot g} {x : Scalar} {place : Between g}
    (h : slot.scalar x = .ok place) : place.due? = none := by
  cases slot with
  | document | blockList _ | node _ => exact absurd h expected_ne_ok
  | tagItem _ | tagEntry _ _ =>
    cases x with
    | string t =>
      cases h
      rfl
    | null | bool _ | number _ => exact absurd h expected_ne_ok
  | value place =>
    cases h
    cases place <;> rfl
  | skipped blocks around =>
    cases h
    rcases around with _ | ⟨_ | _, around⟩ <;> rfl

theorem Slot.due?_numeral {slot : Slot g} {t : Text} {place : Between g}
    (h : slot.numeral t = .ok place) : place.due? = none := by
  rw [Slot.numeral] at h
  split at h
  · split at h
    · exact Slot.due?_scalar h
    · contradiction
  · exact Slot.due?_scalar h

/-- What the first character of a value leads to. -/
inductive Slot.Starts (slot : Slot g) (c : Char) : Reader g → Prop
  | bracket (place : Between g) : Starts slot c (.between place)
  | quote : Starts slot c (.string slot {})
  | letter (x : Scalar) (next : Char) (rest : List Char) : Starts slot c (.literal slot x next rest)
  | numeral {phase : NumeralPhase} (h : NumeralPhase.start? c = some phase) :
    Starts slot c (.numeral slot phase [c])

theorem Slot.start_cases {slot : Slot g} {c : Char} {r : Reader g} (h : slot.start (.char c) = .ok r) :
    slot.Starts c r := by
  unfold Slot.start at h
  split at h
  · obtain ⟨_, -, h⟩ := bind_eq_ok.mp h
    cases h
    exact .bracket _
  · obtain ⟨_, -, h⟩ := bind_eq_ok.mp h
    cases h
    exact .bracket _
  · cases h
    exact .quote
  · cases h
    exact .letter _ _ _
  · cases h
    exact .letter _ _ _
  · cases h
    exact .letter _ _ _
  · next hc =>
    cases hc
    split at h
    · next hphase =>
      cases h
      exact .numeral hphase
    · cases h
  · cases h

theorem exists_of_return {x : Except Error (Between g)} {r : Reader g}
    (h : (do return Reader.between (← x)) = .ok r) : ∃ b, r = .between b := by
  obtain ⟨b, -, h⟩ := bind_eq_ok.mp h
  cases h
  exact ⟨b, rfl⟩

/-- Where a value is due a character ends the array, or starts the value. -/
theorem Between.token_of_due {place : Between g} {slot : Slot g} {p : Piece} {r : Reader g}
    (hdue : place.due? = some slot) (h : place.token p = .ok r) :
    (∃ b, r = .between b) ∨ slot.start p = .ok r := by
  cases place with
  | value _ =>
    cases hdue
    exact Or.inr h
  | firstItem _ =>
    cases hdue
    simp only [token] at h
    split at h
    · exact Or.inl (exists_of_return h)
    · exact Or.inr h
  | nextItem _ =>
    cases hdue
    simp only [token] at h
    split at h
    · cases h
    · exact Or.inr h
  | afterItem _ | firstKey _ | nextKey _ | colon _ | afterEntry _ | afterOnly _ | afterOnlyComma
  | finished _ => contradiction

/-- Where no value is due a character leads to a place behind it, or starts a key. -/
theorem Between.token_of_not_due {place : Between g} {p : Piece} {r : Reader g}
    (hdue : place.due? = none) (h : place.token p = .ok r) :
    (∃ b, r = .between b) ∨ ∃ object, r = .key object {} := by
  cases place with
  | value _ | firstItem _ | nextItem _ => contradiction
  | afterItem _ | afterEntry _ =>
    simp only [token] at h
    split at h
    · cases h
      exact Or.inl ⟨_, rfl⟩
    split at h
    · exact Or.inl (exists_of_return h)
    · cases h
  | firstKey object =>
    simp only [token] at h
    split at h
    · exact Or.inl (exists_of_return h)
    split at h
    · cases h
      exact Or.inr ⟨object, rfl⟩
    · cases h
  | nextKey object =>
    simp only [token] at h
    split at h
    · cases h
      exact Or.inr ⟨object, rfl⟩
    split at h <;> cases h
  | colon _ =>
    simp only [token] at h
    split at h
    · cases h
      exact Or.inl ⟨_, rfl⟩
    · cases h
  | afterOnly _ =>
    simp only [token] at h
    split at h
    · cases h
      exact Or.inl ⟨_, rfl⟩
    split at h
    · cases h
      exact Or.inl ⟨_, rfl⟩
    · cases h
  | afterOnlyComma =>
    simp only [token] at h
    split at h <;> cases h
  | finished _ => cases h

/-- A character between two tokens leads to a place behind it, starts a key, or starts the value that is
due. -/
theorem Between.step_cases {place : Between g} {c : Char} {r : Reader g}
    (h : place.step (.char c) = .ok r) :
    (∃ b, r = .between b) ∨ (∃ object, r = .key object {}) ∨
      ∃ slot, place.due? = some slot ∧ slot.Starts c r := by
  rw [Between.step] at h
  split at h
  · cases h
    exact Or.inl ⟨place, rfl⟩
  · cases hdue : place.due? with
    | none => exact (Between.token_of_not_due hdue h).imp_right Or.inl
    | some slot =>
      rcases Between.token_of_due hdue h with hplace | hstart
      · exact Or.inl hplace
      · exact Or.inr (Or.inr ⟨slot, rfl, Slot.start_cases hstart⟩)

section
variable {slot : Slot g} {phase : NumeralPhase} {spelling : List Char} {c : Char}

/-- A numeral starts only where a value is due. -/
theorem Between.step_eq_numeral {place : Between g}
    (h : place.step (.char c) = .ok (.numeral slot phase spelling)) :
    place.due? = some slot ∧ NumeralPhase.start? c = some phase ∧ spelling = [c] := by
  rcases Between.step_cases h with ⟨_, h⟩ | ⟨_, h⟩ | ⟨_, hdue, hstarts⟩
  · cases h
  · cases h
  · cases hstarts with
    | numeral hphase => exact ⟨hdue, hphase, rfl⟩

/-- A reader inside a numeral has just started it or was inside it before. -/
theorem Reader.step_eq_numeral {r : Reader g} (h : r.step (.char c) = .ok (.numeral slot phase spelling)) :
    (∃ place, r = .between place ∧ place.due? = some slot ∧ NumeralPhase.start? c = some phase ∧
      spelling = [c]) ∨
    ∃ earlier read, r = .numeral slot earlier read ∧ earlier.step c = .next phase ∧
      spelling = c :: read := by
  cases r with
  | between place => exact Or.inl ⟨place, rfl, Between.step_eq_numeral h⟩
  | string _ _ | key _ _ =>
    simp only [step] at h
    split at h
    · cases h
    · cases h
    · obtain ⟨_, -, h⟩ := bind_eq_ok.mp h
      cases h
  | literal _ _ _ rest =>
    simp only [step] at h
    split at h
    · split at h
      · obtain ⟨_, -, h⟩ := bind_eq_ok.mp h
        cases h
      · cases h
    · cases h
  | numeral at' earlier read =>
    simp only [step, NumeralPhase.stepPiece] at h
    cases hstep : earlier.step c with
    | next next =>
      rw [hstep] at h
      cases h
      exact Or.inr ⟨earlier, read, rfl, hstep, rfl⟩
    | ended =>
      rw [hstep] at h
      obtain ⟨place, hplace, h⟩ := bind_eq_ok.mp h
      have hdue := (Between.step_eq_numeral h).1
      rw [Slot.due?_numeral hplace] at hdue
      cases hdue
    | invalid =>
      rw [hstep] at h
      cases h

end

/-- Where the numeral started that the reader is in. -/
theorem exists_numeralStart {u : Text} {slot : Slot .document} {phase : NumeralPhase}
    {spelling : List Char}
    (h : (Reader.between (.value .document)).feed u.toPieces = .ok (.numeral slot phase spelling)) :
    ∃ before, u = before ++ spelling.reverse ∧ NumeralStart phase spelling.reverse ∧
      DueBehind before slot := by
  induction u using List.reverseRecOn generalizing phase spelling with
  | nil =>
    rw [toPieces_nil, Reader.feed_nil] at h
    cases h
  | append_singleton u c ih =>
    rw [toPieces_append, toPieces_cons, toPieces_nil, Reader.feed_snoc] at h
    obtain ⟨r, hr, hstep⟩ := bind_eq_ok.mp h
    rcases Reader.step_eq_numeral hstep with ⟨place, rfl, hdue, hphase, rfl⟩ |
      ⟨earlier, read, rfl, hphase, rfl⟩
    · exact ⟨u, rfl, ⟨c, [], phase, rfl, hphase, rfl⟩, place, hr, hdue⟩
    · obtain ⟨before, hu, hstart, hdue⟩ := ih hr
      refine ⟨before, ?_, ?_, hdue⟩
      · rw [hu, List.reverse_cons, List.append_assoc]
      · rw [List.reverse_cons]
        exact hstart.snoc hphase

/-! ## The end of the text inside a document -/

theorem Closes.delimited {bs : List Bracket} {t : Text} (h : Closes bs t) : Delimited t.toPieces := by
  match bs, h with
  | [], h =>
    have hnil : Delimited [] := nofun
    have hd := delimited_space h hnil
    rwa [List.append_nil] at hd
  | .array :: bs, ⟨behind, items, rest, ht, _⟩ =>
    rw [ht, toPieces_append, toPieces_append]
    exact delimited_space behind.property (delimited_behindCommas _ (delimited_closeArray _))
  | .object :: bs, ⟨behind, entries, rest, ht, _⟩ =>
    rw [ht, toPieces_append, toPieces_append]
    exact delimited_space behind.property (delimited_behindCommas _ (delimited_closeObject _))

/-- What stands in the slot is skipped. -/
def Slot.IsSkipped (slot : Slot g) : Prop := slot.strict = false

/-- A number is taken where values are kept or skipped. -/
theorem Slot.eq_of_numeral {slot : Slot g} {t : Text} {place : Between g}
    (h : slot.numeral t = .ok place) :
    (∃ place x, slot = .value place ∧ Numeral.number? t = some x) ∨ slot.IsSkipped := by
  rw [Slot.numeral] at h
  split at h
  · split at h
    · next x hx =>
      cases slot with
      | value place => exact Or.inl ⟨place, x, rfl, hx⟩
      | skipped _ _ => contradiction
      | document | blockList _ | node _ | tagItem _ | tagEntry _ _ => exact absurd h expected_ne_ok
    · contradiction
  · next hstrict => exact Or.inr (eq_false_of_ne_true hstrict)

theorem ValuePlace.finish_deliver (place : ValuePlace g) (v : Value) :
    ∃ u, (place.deliver v).finish = .error (.unfinished u) := by
  cases place with
  | nodeItem _ _ _ | item _ _ => exact ⟨.list, rfl⟩
  | nodeEntry _ _ _ _ | entry _ _ _ => exact ⟨.object, rfl⟩

theorem finish_deliverSkipped (blocks : Option (List Node)) (around : List Bracket) :
    ∃ u, (deliverSkipped blocks around).finish = .error (.unfinished u) := by
  rcases around with _ | ⟨_ | _, around⟩
  · exact ⟨.object, rfl⟩
  · exact ⟨.list, rfl⟩
  · exact ⟨.object, rfl⟩

/-- The text ends between two tokens, and what stands behind it is not only space. -/
theorem Between.finish_of_lang {place : Between g} {v : Text} (h : place.Lang v)
    (hv : ¬ v.all isBlank) : ∃ u, place.finish = .error (.unfinished u) := by
  cases place with
  | value _ | firstItem _ | nextItem _ | afterItem _ | firstKey _ | nextKey _ | colon _
  | afterEntry _ | afterOnly _ => exact ⟨_, rfl⟩
  | afterOnlyComma => exact absurd h id
  | finished _ => exact absurd h hv

/-- What the end of the text inside a numeral means, if the numeral is accepted with `m` behind it. -/
theorem Reader.finish_numeral {slot : Slot g} {phase : NumeralPhase} {spelling : List Char} {m : Text}
    (hm : phase.Follows m) {place : Between g} (h : slot.numeral (spelling.reverse ++ m) = .ok place) :
    (∃ u, (Reader.numeral slot phase spelling).finish = .error (.unfinished u)) ∨
    m ≠ [] ∧ (slot.IsSkipped ∧
        (Reader.numeral slot phase spelling).finish = .error (.fault .invalidNumeral) ∨
      (∃ place, slot = .value place) ∧ Numeral.number? spelling.reverse = none ∧
        (Reader.numeral slot phase spelling).finish = .error (.fault .numberTooLarge)) := by
  have hslot := Slot.eq_of_numeral h
  rw [finish]
  by_cases hcomplete : phase.complete = true
  · rw [if_pos hcomplete]
    rcases hslot with ⟨place, x, rfl, hx⟩ | hskipped
    · cases hnumber : Numeral.number? spelling.reverse with
      | some y =>
        left
        rw [Slot.numeral, hnumber]
        exact place.finish_deliver _
      | none =>
        refine Or.inr ⟨?_, Or.inr ⟨⟨place, rfl⟩, rfl, ?_⟩⟩
        · rintro rfl
          rw [List.append_nil, hnumber] at hx
          contradiction
        · rw [Slot.numeral, hnumber]
          rfl
    · cases slot with
      | skipped blocks around => exact Or.inl (finish_deliverSkipped blocks around)
      | document | blockList _ | node _ | tagItem _ | tagEntry _ _ | value _ => contradiction
  · have hne : m ≠ [] := by
      rintro rfl
      exact hcomplete ((NumeralPhase.follows_nil phase).mp hm)
    rw [if_neg hcomplete]
    rcases hslot with ⟨place, x, rfl, hx⟩ | hskipped
    · exact Or.inl ⟨.value, rfl⟩
    · have hstrict : ¬ slot.strict = true := by
        rw [hskipped]
        exact Bool.false_ne_true
      rw [if_neg hstrict]
      exact Or.inr ⟨hne, Or.inl ⟨hskipped, rfl⟩⟩

/-- The end of the text behind `u` is an error if more than space is missing. -/
theorem finish_of_cut {u v : Text} {r : Reader .document} {d : Document}
    (hu : (Reader.between (.value .document)).feed u.toPieces = .ok r) (hv : ¬ v.all isBlank)
    (h : r.read v.toPieces = .ok d) :
    (∃ x, r.finish = .error (.unfinished x)) ∨
    (∃ slot n, slot.IsSkipped ∧ CutsNumeral slot n u v ∧
      r.finish = .error (.fault .invalidNumeral)) ∨
    ∃ place n, CutsNumeral (.value place) n u v ∧ Numeral.number? n = none ∧
      r.finish = .error (.fault .numberTooLarge) := by
  have hlang := Reader.lang_of_read h
  cases r with
  | between place => exact Or.inl (Between.finish_of_lang hlang hv)
  | string _ _ | key _ _ => exact Or.inl ⟨.string, rfl⟩
  | literal _ _ _ _ => exact Or.inl ⟨.value, rfl⟩
  | numeral slot phase spelling =>
    obtain ⟨m, behind, rfl, hm, hbehind⟩ := hlang
    obtain ⟨before, rfl, hstart, hdue⟩ := exists_numeralStart hu
    obtain ⟨last, hlast, hcomplete⟩ := (NumeralPhase.run_complete_iff phase m).mpr hm
    rw [toPieces_append, Reader.read_numeral_run slot spelling hlast,
      Reader.read_numeral_end slot hcomplete _ hbehind.delimited, List.reverse_append,
      List.reverse_reverse] at h
    obtain ⟨place, hplace, -⟩ := bind_eq_ok.mp h
    have hnumeral := hstart.isNumeral hm
    have hne : spelling.reverse ≠ [] := by
      obtain ⟨c, ds, -, hn, -, -⟩ := hstart
      rw [hn]
      exact List.cons_ne_nil c ds
    rcases Reader.finish_numeral hm hplace with hended |
      ⟨hrest, ⟨hskipped, hfinish⟩ | ⟨⟨place, rfl⟩, hnumber, hfinish⟩⟩
    · exact Or.inl hended
    · exact Or.inr (Or.inl ⟨slot, spelling.reverse, hskipped,
        ⟨before, m, behind, rfl, rfl, hne, hrest, hnumeral, hdue⟩, hfinish⟩)
    · exact Or.inr (Or.inr ⟨place, spelling.reverse,
        ⟨before, m, behind, rfl, rfl, hne, hrest, hnumeral, hdue⟩, hnumber, hfinish⟩)

end ManPage.Load

namespace ManPage
open Json Load Outcome

/-- A document is read from its bytes as from its text. -/
theorem Document.ofBytes_encode (t : Text) : Document.ofBytes (Text.encode t) = Document.ofText t := by
  rw [ofBytes, Text.Utf8.pieces_encode, ofText]

/-- Of an accepted text that does not end with space no shorter part from the start is accepted. It is
unfinished, or it is cut inside a numeral of a skipped value and ends with a faulty one, or inside one
of a kept value of which the part before the cut is too large. -/
theorem Document.error_of_cut {u v : Text} {d : Document}
    (h : Document.ofText (u ++ v) = .ok d ∨ Document.ofBytes (Text.encode (u ++ v)) = .ok d)
    (hne : v ≠ []) (hlast : ∀ c ∈ (u ++ v).getLast?, isBlank c = false) :
    ∃ e, Document.ofText u = .error e ∧ Document.ofBytes (Text.encode u) = .error e ∧
      (e.category = .ended ∨
      (∃ slot n, slot.IsSkipped ∧ CutsNumeral slot n u v ∧ e = .fault .invalidNumeral) ∨
      ∃ place n, CutsNumeral (.value place) n u v ∧ Numeral.number? n = none ∧
        e = .fault .numberTooLarge) := by
  have hread : Document.ofText (u ++ v) = .ok d := by simpa [ofBytes_encode] using h
  have hv : ¬ v.all isBlank := by
    intro hblank
    have hmem : v.getLast hne ∈ (u ++ v).getLast? := by
      rw [List.getLast?_append, List.getLast?_eq_some_getLast hne]
      rfl
    have hno := hlast _ hmem
    rw [List.all_eq_true.mp hblank _ (List.getLast_mem hne)] at hno
    contradiction
  rw [ofText, ofPieces, Text.toPieces_append, Reader.read_append] at hread
  obtain ⟨r, hr, hread⟩ := bind_eq_ok.mp hread
  have hcut : Document.ofText u = r.finish := by
    rw [ofText, ofPieces, Reader.read, hr, ok_bind]
  rcases finish_of_cut hr hv hread with ⟨x, hx⟩ | ⟨slot, n, hslot, hn, hx⟩ | ⟨place, n, hn, hnumber, hx⟩
  · rw [ofBytes_encode, hcut, hx]
    exact ⟨_, rfl, rfl, Or.inl rfl⟩
  · rw [ofBytes_encode, hcut, hx]
    exact ⟨_, rfl, rfl, Or.inr (Or.inl ⟨slot, n, hslot, hn, rfl⟩)⟩
  · rw [ofBytes_encode, hcut, hx]
    exact ⟨_, rfl, rfl, Or.inr (Or.inr ⟨place, n, hn, hnumber, rfl⟩)⟩

/-- A document that is cut inside a pair of surrogates. -/
def Document.cutPair : Text := "\x7b\"children\":[[\"text\",\"\\ud83d".toList

def Document.cutPairRest : Text := "\\ude00\"]]\x7d".toList

theorem Document.error_of_cut_pair :
    Document.ofText (cutPair ++ cutPairRest) = .ok ⟨[.text [Char.ofNat 0x1F600]]⟩ ∧
    ∃ e, Document.ofText cutPair = .error e ∧ Document.ofBytes (Text.encode cutPair) = .error e ∧
      (e.category = .ended ∨
      (∃ slot n, slot.IsSkipped ∧ CutsNumeral slot n cutPair cutPairRest ∧
        e = .fault .invalidNumeral) ∨
      ∃ place n, CutsNumeral (.value place) n cutPair cutPairRest ∧ Numeral.number? n = none ∧
        e = .fault .numberTooLarge) := by
  have hload : Document.ofText (cutPair ++ cutPairRest) = .ok ⟨[.text [Char.ofNat 0x1F600]]⟩ := by
    decide +kernel
  have hlast : ∀ c ∈ (cutPair ++ cutPairRest).getLast?, isBlank c = false := by
    rintro c ⟨⟩
    rfl
  exact ⟨hload, error_of_cut (Or.inl hload) (by decide) hlast⟩

/-- The start of a document with a great number, whose exponent makes it small enough. -/
def Document.cutNumber : Text :=
  "\x7b\"children\":[[\"hr\"],\x7b\"type\":\"hr\",\"n\":1".toList ++ List.replicate 309 '0'

/-- Not every cut leaves a text that is only unfinished, or a skipped numeral that is faulty. -/
theorem Document.not_ended_of_cut : ¬ ∀ (u v : Text) (d : Document),
    Document.ofText (u ++ v) = .ok d → v ≠ [] → (∀ c ∈ (u ++ v).getLast?, isBlank c = false) →
    ∃ e, Document.ofText u = .error e ∧ (e.category = .ended ∨
      ∃ slot n, slot.IsSkipped ∧ CutsNumeral slot n u v ∧ e = .fault .invalidNumeral) := by
  intro h
  have hload : Document.ofText (cutNumber ++ "e-5\x7d]\x7d".toList) = .ok ⟨[.rule, .rule]⟩ := by
    decide +kernel
  have hcut : Document.ofText cutNumber = .error (.fault .numberTooLarge) := by decide +kernel
  have hlast : ∀ c ∈ (cutNumber ++ "e-5\x7d]\x7d".toList).getLast?, isBlank c = false := by
    intro c hc
    rw [List.getLast?_append] at hc
    cases hc
    rfl
  obtain ⟨e, he, hended | ⟨_, _, _, _, hinvalid⟩⟩ :=
    h cutNumber "e-5\x7d]\x7d".toList _ hload (by decide) hlast
  · rw [← Except.error.inj (hcut.symm.trans he)] at hended
    cases hended
  · have hsame := Except.error.inj (hcut.symm.trans he)
    rw [hinvalid] at hsame
    cases hsame

end ManPage
