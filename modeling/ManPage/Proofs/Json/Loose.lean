import ManPage.Proofs.Json.NumeralGrammar
import ManPage.Proofs.Json.StringScan

/-! # Values with stray bytes

A value that is only checked for its extent is a JSON value, except that stray bytes may stand in its
strings. Mending puts a text in the place of each of them, so that a JSON value is left. As a question
mark has no part in any token but in strings, the value can be found again in what is mended with it.
-/
namespace ManPage.Json
open Text

/-- A part of a string literal that is not decoded. -/
inductive LooseUnit
  | unit (u : StringUnit)
  | stray (byte : UInt8)

namespace LooseUnit

def pieces : LooseUnit → List Piece
  | unit u => u.text.toPieces
  | stray byte => [.stray byte]

/-- The pieces of a string literal, with its quotes. -/
def literal (us : List LooseUnit) : List Piece := .char '"' :: (us.flatMap pieces ++ [.char '"'])

/-- The units with the filler in the place of a stray byte. -/
def mend (filler : List StringUnit) : LooseUnit → List StringUnit
  | unit u => [u]
  | stray _ => filler

end LooseUnit

def Padded.pieces {α : Type} (f : α → List Piece) (p : Padded α) : List Piece :=
  p.before.val.toPieces ++ (f p.it ++ p.behind.val.toPieces)

def Padded.map {α β : Type} (f : α → β) (p : Padded α) : Padded β := ⟨p.before, f p.it, p.behind⟩

structure LooseMember (α : Type) where
  key : Padded (List LooseUnit)
  value : Padded α

namespace LooseMember
variable {α : Type}

def pieces (f : α → List Piece) (m : LooseMember α) : List Piece :=
  m.key.pieces LooseUnit.literal ++ .char ':' :: m.value.pieces f

def mend (filler : List StringUnit) (f : α → Spelling) (m : LooseMember α) : Member Spelling :=
  ⟨m.key.map (·.flatMap (LooseUnit.mend filler)), m.value.map f⟩

end LooseMember

/-- The pieces with a comma before each of them. -/
def sequel (pss : List (List Piece)) : List Piece := pss.flatMap (.char ',' :: ·)

@[simp] theorem sequel_nil : sequel [] = [] := rfl

@[simp] theorem sequel_cons (ps : List Piece) (pss : List (List Piece)) :
    sequel (ps :: pss) = .char ',' :: (ps ++ sequel pss) := rfl

/-- The pieces with commas between them. -/
def separated : List (List Piece) → List Piece
  | [] => []
  | ps :: pss => ps ++ sequel pss

/-- A value with stray bytes in its strings; `scalar` is one that has none. -/
inductive Loose
  | scalar (s : ScalarSpelling)
  | string (us : List LooseUnit)
  | array (inside : Space) (items : List (Padded Loose))
  | object (inside : Space) (entries : List (LooseMember Loose))

namespace Loose

mutual

def pieces : Loose → List Piece
  | scalar s => s.text.toPieces
  | string us => LooseUnit.literal us
  | array inside items =>
    .char '[' :: (inside.val.toPieces ++ (separated (itemPieces items) ++ [.char ']']))
  | object inside entries =>
    .char '{' :: (inside.val.toPieces ++ (separated (entryPieces entries) ++ [.char '}']))

def itemPieces : List (Padded Loose) → List (List Piece)
  | [] => []
  | ⟨before, l, behind⟩ :: r =>
    (before.val.toPieces ++ (pieces l ++ behind.val.toPieces)) :: itemPieces r

def entryPieces : List (LooseMember Loose) → List (List Piece)
  | [] => []
  | ⟨key, ⟨before, l, behind⟩⟩ :: r =>
    (key.pieces LooseUnit.literal ++
      .char ':' :: (before.val.toPieces ++ (pieces l ++ behind.val.toPieces))) :: entryPieces r

end

mutual

/-- The value with the filler in the place of each stray byte. -/
def mend (filler : List StringUnit) : Loose → Spelling
  | scalar s => .scalar s
  | string us => .scalar (.string (us.flatMap (LooseUnit.mend filler)))
  | array inside items => .array inside (mendItems filler items)
  | object inside entries => .object inside (mendEntries filler entries)

def mendItems (filler : List StringUnit) : List (Padded Loose) → List (Padded Spelling)
  | [] => []
  | ⟨before, l, behind⟩ :: r => ⟨before, mend filler l, behind⟩ :: mendItems filler r

def mendEntries (filler : List StringUnit) : List (LooseMember Loose) → List (Member Spelling)
  | [] => []
  | ⟨key, ⟨before, l, behind⟩⟩ :: r =>
    ⟨key.map (·.flatMap (LooseUnit.mend filler)), ⟨before, mend filler l, behind⟩⟩ ::
      mendEntries filler r

end

section Induction
set_option linter.unusedSectionVars false
variable {P : Loose → Prop} (scalar : ∀ s, P (.scalar s)) (string : ∀ us, P (.string us))
  (array : ∀ inside items, (∀ p ∈ items, P p.it) → P (.array inside items))
  (object : ∀ inside entries, (∀ m ∈ entries, P m.value.it) → P (.object inside entries))
include scalar string array object

mutual

theorem induct : ∀ l, P l
  | .scalar s => scalar s
  | .string us => string us
  | .array inside items => array inside items (forall_items items)
  | .object inside entries => object inside entries (forall_entries entries)

theorem forall_items : ∀ items : List (Padded Loose), ∀ p ∈ items, P p.it
  | [] => fun _ h => nomatch h
  | ⟨before, l, behind⟩ :: r => by
    have hl := induct l
    have hr := forall_items r
    intro p hp
    rcases List.mem_cons.mp hp with rfl | hp
    · exact hl
    · exact hr p hp

theorem forall_entries : ∀ entries : List (LooseMember Loose), ∀ m ∈ entries, P m.value.it
  | [] => fun _ h => nomatch h
  | ⟨key, ⟨before, l, behind⟩⟩ :: r => by
    have hl := induct l
    have hr := forall_entries r
    intro m hm
    rcases List.mem_cons.mp hm with rfl | hm
    · exact hl
    · exact hr m hm

end

end Induction

theorem pieces_array (inside : Space) (items : List (Padded Loose)) : (array inside items).pieces =
    .char '[' :: (inside.val.toPieces ++
      (separated (items.map (Padded.pieces pieces)) ++ [.char ']'])) := by
  have hitems : itemPieces items = items.map (Padded.pieces pieces) := by
    induction items with
    | nil => rfl
    | cons p r ih => rw [itemPieces, ih]; rfl
  rw [pieces, hitems]

theorem pieces_object (inside : Space) (entries : List (LooseMember Loose)) :
    (object inside entries).pieces = .char '{' :: (inside.val.toPieces ++
      (separated (entries.map (LooseMember.pieces pieces)) ++ [.char '}'])) := by
  have hentries : entryPieces entries = entries.map (LooseMember.pieces pieces) := by
    induction entries with
    | nil => rfl
    | cons m r ih => rw [entryPieces, ih]; rfl
  rw [pieces, hentries]

theorem mend_array (filler : List StringUnit) (inside : Space) (items : List (Padded Loose)) :
    (array inside items).mend filler = .array inside (items.map (Padded.map (mend filler))) := by
  have hitems : mendItems filler items = items.map (Padded.map (mend filler)) := by
    induction items with
    | nil => rfl
    | cons p r ih => rw [mendItems, ih]; rfl
  rw [mend, hitems]

theorem mend_object (filler : List StringUnit) (inside : Space) (entries : List (LooseMember Loose)) :
    (object inside entries).mend filler =
      .object inside (entries.map (LooseMember.mend filler (mend filler))) := by
  have hentries : mendEntries filler entries = entries.map (LooseMember.mend filler (mend filler)) := by
    induction entries with
    | nil => rfl
    | cons m r ih => rw [mendEntries, ih]; rfl
  rw [mend, hentries]

end Loose

/-! ## Mending -/

/-- The text with the filler in the place of each stray byte. -/
def mended (filler : Text) (ps : List Piece) : Text :=
  ps.flatMap fun
    | .char c => [c]
    | .stray _ => filler

section
variable (filler : Text)

@[simp] theorem mended_nil : mended filler [] = [] := rfl

@[simp] theorem mended_char (c : Char) (ps : List Piece) :
    mended filler (.char c :: ps) = c :: mended filler ps := rfl

@[simp] theorem mended_stray (byte : UInt8) (ps : List Piece) :
    mended filler (.stray byte :: ps) = filler ++ mended filler ps := rfl

@[simp] theorem mended_append (ps qs : List Piece) :
    mended filler (ps ++ qs) = mended filler ps ++ mended filler qs := List.flatMap_append

@[simp] theorem mended_toPieces (t : Text) : mended filler t.toPieces = t := by
  induction t with
  | nil => rfl
  | cons c t ih => rw [toPieces_cons, mended_char, ih]

@[simp] theorem mended_sequel (pss : List (List Piece)) :
    mended filler (sequel pss) = behindCommas (pss.map (mended filler)) := by
  induction pss with
  | nil => rfl
  | cons ps pss ih => simp [ih]

@[simp] theorem mended_separated (pss : List (List Piece)) :
    mended filler (separated pss) = withCommas (pss.map (mended filler)) := by
  cases pss with
  | nil => rfl
  | cons ps pss => simp [separated, withCommas]

end

section
variable (filler : List StringUnit)

theorem mended_units (us : List LooseUnit) :
    mended (StringUnit.texts filler) (us.flatMap LooseUnit.pieces) =
      StringUnit.texts (us.flatMap (LooseUnit.mend filler)) := by
  induction us with
  | nil => rfl
  | cons u us ih =>
    have happend (vs ws : List StringUnit) :
        StringUnit.texts (vs ++ ws) = StringUnit.texts vs ++ StringUnit.texts ws := List.flatMap_append
    rw [List.flatMap_cons, List.flatMap_cons, mended_append, ih, happend]
    congr 1
    cases u with
    | unit u => simp [LooseUnit.pieces, LooseUnit.mend]
    | stray byte => exact List.append_nil _

theorem mended_literal (us : List LooseUnit) :
    mended (StringUnit.texts filler) (LooseUnit.literal us) =
      StringUnit.literal (us.flatMap (LooseUnit.mend filler)) := by
  simp [LooseUnit.literal, StringUnit.literal, mended_units]

theorem mended_padded {α β : Type} {f : α → List Piece} {g : β → Text} {h : α → β} {p : Padded α}
    (hp : mended (StringUnit.texts filler) (f p.it) = g (h p.it)) :
    mended (StringUnit.texts filler) (p.pieces f) = (p.map h).text g := by
  simp [Padded.pieces, Padded.text, Padded.map, hp]

/-- The mended value is spelled with the mended text. -/
theorem Loose.text_mend (l : Loose) :
    mended (StringUnit.texts filler) l.pieces = (l.mend filler).text := by
  induction l using Loose.induct with
  | scalar s => exact mended_toPieces _ _
  | string us => exact mended_literal filler us
  | array inside items ih =>
    have hitems : (items.map (Padded.pieces pieces)).map (mended (StringUnit.texts filler)) =
        (items.map (Padded.map (mend filler))).map (Padded.text Spelling.text) := by
      rw [List.map_map, List.map_map, List.map_inj_left]
      exact fun p hp => mended_padded filler (ih p hp)
    rw [pieces_array, mend_array, Spelling.text_array, ← hitems]
    simp
  | object inside entries ih =>
    have hentries : (entries.map (LooseMember.pieces pieces)).map (mended (StringUnit.texts filler)) =
        (entries.map (LooseMember.mend filler (mend filler))).map (Member.text Spelling.text) := by
      rw [List.map_map, List.map_map, List.map_inj_left]
      intro m hm
      have hkey := mended_padded filler (p := m.key) (mended_literal filler m.key.it)
      have hvalue := mended_padded filler (p := m.value) (ih m hm)
      simp only [Function.comp_apply, LooseMember.pieces, Member.text, LooseMember.mend, mended_append,
        mended_char, hkey, hvalue]
    rw [pieces_object, mend_object, Spelling.text_object, ← hentries]
    simp

end

/-! ## What has been mended -/

section
variable {filler c : Char} {ps : List Piece} {s t : Text}

theorem mended_eq_map (filler : Char) (ps : List Piece) : mended [filler] ps = ps.map fun
    | .char c => c
    | .stray _ => filler := by
  induction ps with
  | nil => rfl
  | cons p ps ih => cases p <;> simp [ih]

theorem exists_append_of_mended (h : mended [filler] ps = s ++ t) :
    ∃ qs rs, ps = qs ++ rs ∧ mended [filler] qs = s ∧ mended [filler] rs = t := by
  simp only [mended_eq_map] at h ⊢
  exact List.map_eq_append_iff.mp h

theorem exists_cons_of_mended (h : mended [filler] ps = c :: t) (hc : c ≠ filler) :
    ∃ qs, ps = .char c :: qs ∧ mended [filler] qs = t := by
  cases ps with
  | nil => contradiction
  | cons p ps =>
    cases p with
    | char d =>
      obtain ⟨rfl, htail⟩ := List.cons.inj h
      exact ⟨ps, rfl, htail⟩
    | stray byte => exact absurd (List.cons.inj h).1.symm hc

theorem eq_toPieces_of_mended (h : mended [filler] ps = t) (ht : filler ∉ t) : ps = t.toPieces := by
  induction t generalizing ps with
  | nil =>
    rw [mended_eq_map, List.map_eq_nil_iff] at h
    exact h
  | cons c t ih =>
    rw [List.mem_cons, not_or] at ht
    obtain ⟨qs, rfl, hqs⟩ := exists_cons_of_mended h (Ne.symm ht.1)
    rw [toPieces_cons, ih hqs ht.2]

end

section Tokens

theorem not_mem_of_blank {ws : Text} (h : ws.all isBlank) : '?' ∉ ws := by
  intro hmem
  have hblank := List.all_eq_true.mp h _ hmem
  contradiction

theorem not_mem_of_run {phase last : NumeralPhase} {t : Text} (h : phase.run t = some last) : '?' ∉ t := by
  induction t generalizing phase with
  | nil => exact List.not_mem_nil
  | cons c t ih =>
    rw [NumeralPhase.run] at h
    split at h
    · next next hnext =>
      intro hmem
      rcases List.mem_cons.mp hmem with rfl | hmem
      · cases phase <;> contradiction
      · exact ih h hmem
    · contradiction

theorem IsNumeral.not_mem {t : Text} (h : IsNumeral t) : '?' ∉ t := by
  cases t with
  | nil => exact List.not_mem_nil
  | cons c t =>
    obtain ⟨phase, last, hstart, hrun, -⟩ := isNumeral_cons.mp h
    intro hmem
    rcases List.mem_cons.mp hmem with rfl | hmem
    · contradiction
    · exact not_mem_of_run hrun hmem

theorem not_mem_of_hex? {digits : Text} {n : Nat} (h : Quotation.hex? digits.toPieces = some n) :
    '?' ∉ digits := by
  intro hmem
  have hpiece : Piece.char '?' ∈ digits.toPieces := List.mem_map_of_mem hmem
  obtain ⟨a, b, c, d, w, x, y, z, hds, ha, hb, hc, hd⟩ := Quotation.hex?_eq_some h
  rw [hds] at hpiece
  simp only [List.mem_cons, Piece.char.injEq, List.not_mem_nil, or_false] at hpiece
  rcases hpiece with rfl | rfl | rfl | rfl <;> contradiction

end Tokens

/-- What is mended to the text of `a` is written by some `b` with stray bytes. -/
def Recovers {α β : Type} (text : α → Text) (pieces : β → List Piece) (a : α) : Prop :=
  ∀ ps, mended ['?'] ps = text a → ∃ b, ps = pieces b

theorem recovers_unit (u : StringUnit) : Recovers StringUnit.text LooseUnit.pieces u := by
  intro ps h
  cases u with
  | plain c hc =>
    match ps, h with
    | [.char d], h =>
      cases h
      exact ⟨.unit (.plain c hc), rfl⟩
    | [.stray byte], _ => exact ⟨.stray byte, rfl⟩
  | short letter c hc =>
    have hletter : '?' ≠ letter := by
      rintro rfl
      contradiction
    have hmem : '?' ∉ StringUnit.text (.short letter c hc) := by
      simp [StringUnit.text, hletter]
    exact ⟨.unit (.short letter c hc), eq_toPieces_of_mended h hmem⟩
  | code digits n hn =>
    have hmem : '?' ∉ StringUnit.text (.code digits n hn) := by
      simp [StringUnit.text, not_mem_of_hex? hn]
    exact ⟨.unit (.code digits n hn), eq_toPieces_of_mended h hmem⟩

theorem recovers_units {us : List StringUnit} {ps : List Piece}
    (h : mended ['?'] ps = StringUnit.texts us) :
    ∃ vs : List LooseUnit, ps = vs.flatMap LooseUnit.pieces := by
  induction us generalizing ps with
  | nil => exact ⟨[], eq_toPieces_of_mended h List.not_mem_nil⟩
  | cons u us ih =>
    obtain ⟨qs, rs, rfl, hqs, hrs⟩ := exists_append_of_mended h
    obtain ⟨v, rfl⟩ := recovers_unit u qs hqs
    obtain ⟨vs, rfl⟩ := ih hrs
    exact ⟨v :: vs, rfl⟩

theorem recovers_literal (us : List StringUnit) :
    Recovers StringUnit.literal LooseUnit.literal us := by
  intro ps h
  obtain ⟨_, rfl, hopen⟩ := exists_cons_of_mended h (by decide)
  obtain ⟨inside, _, rfl, hinside, hquote⟩ := exists_append_of_mended hopen
  obtain rfl := eq_toPieces_of_mended hquote (by decide)
  obtain ⟨vs, rfl⟩ := recovers_units hinside
  exact ⟨vs, rfl⟩

section
variable {α β : Type} {text : α → Text} {pieces : β → List Piece}

theorem recovers_padded {p : Padded α} (h : Recovers text pieces p.it) :
    Recovers (Padded.text text) (Padded.pieces pieces) p := by
  intro ps hps
  obtain ⟨before, _, rfl, hbefore, hrest⟩ := exists_append_of_mended hps
  obtain ⟨it, behind, rfl, hit, hbehind⟩ := exists_append_of_mended hrest
  obtain ⟨b, rfl⟩ := h it hit
  obtain rfl := eq_toPieces_of_mended hbefore (not_mem_of_blank p.before.property)
  obtain rfl := eq_toPieces_of_mended hbehind (not_mem_of_blank p.behind.property)
  exact ⟨⟨p.before, b, p.behind⟩, rfl⟩

theorem recovers_member {m : Member α} (h : Recovers text pieces m.value.it) :
    Recovers (Member.text text) (LooseMember.pieces pieces) m := by
  intro ps hps
  obtain ⟨_, _, rfl, hkey, hrest⟩ := exists_append_of_mended hps
  obtain ⟨_, rfl, hvalue⟩ := exists_cons_of_mended hrest (by decide)
  obtain ⟨key, rfl⟩ := recovers_padded (recovers_literal m.key.it) _ hkey
  obtain ⟨value, rfl⟩ := recovers_padded h _ hvalue
  exact ⟨⟨key, value⟩, rfl⟩

theorem recovers_sequel {as : List α} (h : ∀ a ∈ as, Recovers text pieces a) {ps : List Piece}
    (hps : mended ['?'] ps = behindCommas (as.map text)) :
    ∃ bs : List β, ps = sequel (bs.map pieces) := by
  induction as generalizing ps with
  | nil => exact ⟨[], eq_toPieces_of_mended hps List.not_mem_nil⟩
  | cons a as ih =>
    obtain ⟨_, rfl, hrest⟩ := exists_cons_of_mended hps (by decide)
    obtain ⟨qs, rs, rfl, hqs, hrs⟩ := exists_append_of_mended hrest
    obtain ⟨b, rfl⟩ := h a List.mem_cons_self qs hqs
    obtain ⟨bs, rfl⟩ := ih (fun a ha => h a (List.mem_cons_of_mem _ ha)) hrs
    exact ⟨b :: bs, rfl⟩

theorem recovers_separated {as : List α} (h : ∀ a ∈ as, Recovers text pieces a) {ps : List Piece}
    (hps : mended ['?'] ps = withCommas (as.map text)) :
    ∃ bs : List β, ps = separated (bs.map pieces) := by
  cases as with
  | nil => exact ⟨[], eq_toPieces_of_mended hps List.not_mem_nil⟩
  | cons a as =>
    obtain ⟨qs, rs, rfl, hqs, hrs⟩ := exists_append_of_mended hps
    obtain ⟨b, rfl⟩ := h a List.mem_cons_self qs hqs
    obtain ⟨bs, rfl⟩ := recovers_sequel (fun a ha => h a (List.mem_cons_of_mem _ ha)) hrs
    exact ⟨b :: bs, rfl⟩

end

theorem recovers_scalar (s : ScalarSpelling) : Recovers Spelling.text Loose.pieces (.scalar s) := by
  intro ps h
  cases s with
  | string us =>
    obtain ⟨vs, rfl⟩ := recovers_literal us ps h
    exact ⟨.string vs, rfl⟩
  | null => exact ⟨.scalar .null, eq_toPieces_of_mended h (by decide)⟩
  | bool b =>
    refine ⟨.scalar (.bool b), eq_toPieces_of_mended h ?_⟩
    cases b <;> decide
  | numeral t ht => exact ⟨.scalar (.numeral t ht), eq_toPieces_of_mended h ht.not_mem⟩

/-- What is mended to a JSON value is a value with stray bytes in its strings. -/
theorem recovers (s : Spelling) : Recovers Spelling.text Loose.pieces s := by
  induction s using Spelling.induct with
  | scalar s => exact recovers_scalar s
  | array inside items ih =>
    intro ps h
    rw [Spelling.text_array] at h
    obtain ⟨_, rfl, hopen⟩ := exists_cons_of_mended h (by decide)
    obtain ⟨space, _, rfl, hspace, hrest⟩ := exists_append_of_mended hopen
    obtain ⟨_, close, rfl, hitems, hclose⟩ := exists_append_of_mended hrest
    obtain rfl := eq_toPieces_of_mended hspace (not_mem_of_blank inside.property)
    obtain rfl := eq_toPieces_of_mended hclose (by decide)
    obtain ⟨ls, rfl⟩ := recovers_separated (fun p hp => recovers_padded (ih p hp)) hitems
    exact ⟨.array inside ls, (Loose.pieces_array inside ls).symm⟩
  | object inside entries ih =>
    intro ps h
    rw [Spelling.text_object] at h
    obtain ⟨_, rfl, hopen⟩ := exists_cons_of_mended h (by decide)
    obtain ⟨space, _, rfl, hspace, hrest⟩ := exists_append_of_mended hopen
    obtain ⟨_, close, rfl, hentries, hclose⟩ := exists_append_of_mended hrest
    obtain rfl := eq_toPieces_of_mended hspace (not_mem_of_blank inside.property)
    obtain rfl := eq_toPieces_of_mended hclose (by decide)
    obtain ⟨ls, rfl⟩ := recovers_separated (fun m hm => recovers_member (ih m hm)) hentries
    exact ⟨.object inside ls, (Loose.pieces_object inside ls).symm⟩

end ManPage.Json
