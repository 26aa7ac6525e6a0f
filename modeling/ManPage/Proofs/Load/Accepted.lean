import ManPage.Proofs.Load.Draft
import ManPage.Proofs.Load.Replacement
import ManPage.Proofs.Load.Strays
import ManPage.Proofs.Text.Boundary

/-! # Accepted bytes

All bytes from which a document is loaded are written as a draft. Any units may stand in the place of their
stray bytes, also those of a surrogate without its partner. Strings that are decoded cannot hold these, so
that no stray byte stood there. The bytes of a skipped value can then be cut out and replaced by those of
any other one.
-/
namespace ManPage.Load
open Json Outcome
open Text (Piece toPieces toPieces_append)

/-! ## Strings that are decoded -/

/-- A leading surrogate without its partner. -/
def spoiler : List StringUnit :=
  [.code "d800".toList 0xD800 (by decide), .plain '?' (by decide)]

theorem decode_spoiler (us vs : List StringUnit) (t : Text) :
    StringUnit.decode (us ++ (spoiler ++ vs)) ≠ .ok t := by
  fun_induction StringUnit.decode us generalizing t with
  | case1 =>
    intro h
    injection h
  | case2 c hc us ih =>
    intro h
    obtain ⟨t, ht, -⟩ := map_eq_ok.mp h
    exact ih t ht
  | case3 letter c hc us ih =>
    intro h
    obtain ⟨t, ht, -⟩ := map_eq_ok.mp h
    exact ih t ht
  | case4 digits n hn us htrail =>
    rw [List.cons_append, StringUnit.decode.eq_def]
    simp [htrail]
  | case5 lead n hn hno hlead digits m hm us htrail ih =>
    intro h
    simp only [List.cons_append, StringUnit.decode, hno, hlead, htrail, if_true] at h
    obtain ⟨t, ht, -⟩ := map_eq_ok.mp h
    exact ih t ht
  | case6 lead n hn hno hlead digits m hm us htrail =>
    simp [StringUnit.decode, hno, hlead, htrail]
  | case7 lead n hn us hno hlead hother =>
    cases us with
    | nil => simp [StringUnit.decode, hlead, spoiler, Quotation.isTrail]
    | cons u us =>
      cases u with
      | plain c hc => simp [StringUnit.decode, hno, hlead]
      | short letter c hc => simp [StringUnit.decode, hno, hlead]
      | code digits m hm => exact absurd rfl (hother digits m hm us)
  | case8 digits n hn us hno hlead ih =>
    intro h
    rw [List.cons_append, StringUnit.decode.eq_def] at h
    simp only [hno, hlead] at h
    obtain ⟨t, ht, -⟩ := map_eq_ok.mp h
    exact ih t ht

theorem exists_units_of_decode {front : List StringUnit} {us : List LooseUnit} {t : Text}
    (h : StringUnit.decode (front ++ us.flatMap (LooseUnit.mend spoiler)) = .ok t) :
    ∃ vs : List StringUnit, us = vs.map .unit := by
  induction us generalizing front with
  | nil => exact ⟨[], rfl⟩
  | cons u us ih =>
    rw [List.flatMap_cons] at h
    cases u with
    | stray byte => exact absurd h (decode_spoiler front _ t)
    | unit u =>
      rw [LooseUnit.mend, ← List.append_assoc] at h
      obtain ⟨vs, rfl⟩ := ih h
      exact ⟨u :: vs, rfl⟩

/-- A literal that is decoded has no stray bytes. -/
theorem exists_literal_of_decode {us : List LooseUnit} {t : Text}
    (h : StringUnit.decode (us.flatMap (LooseUnit.mend spoiler)) = .ok t) :
    ∃ vs : List StringUnit, LooseUnit.literal us = toPieces (StringUnit.literal vs) ∧
      StringUnit.decode vs = .ok t := by
  rw [← List.nil_append (us.flatMap _)] at h
  obtain ⟨vs, rfl⟩ := exists_units_of_decode h
  have hunits : (vs.map LooseUnit.unit).flatMap (LooseUnit.mend spoiler) = vs := by
    simp [List.flatMap_map, LooseUnit.mend]
  have hpieces : (vs.map LooseUnit.unit).flatMap LooseUnit.pieces = toPieces (StringUnit.texts vs) := by
    clear h hunits
    induction vs with
    | nil => rfl
    | cons v vs ih => simp [ih, LooseUnit.pieces]
  rw [List.nil_append, hunits] at h
  exact ⟨vs, by simp [LooseUnit.literal, StringUnit.literal, hpieces], h⟩

/-! ## Values that are decoded -/

/-- No stray bytes are in the pieces: they are those of a text. -/
def IsClean {α β : Type} (text : α → Text) (pieces : β → List Piece) (b : β) : Prop :=
  ∃ a, pieces b = toPieces (text a)

section
variable {α β : Type} {text : α → Text} {pieces : β → List Piece}

theorem IsClean.padded {p : Padded β} (h : IsClean text pieces p.it) :
    IsClean (Padded.text text) (Padded.pieces pieces) p := by
  obtain ⟨a, ha⟩ := h
  exact ⟨⟨p.before, a, p.behind⟩, by simp [Padded.pieces, Padded.text, ha]⟩

theorem exists_map_eq {γ : Type} {f : α → γ} {g : β → γ} {bs : List β}
    (h : ∀ b ∈ bs, ∃ a, g b = f a) : ∃ as : List α, bs.map g = as.map f := by
  induction bs with
  | nil => exact ⟨[], rfl⟩
  | cons b bs ih =>
    rw [List.forall_mem_cons] at h
    obtain ⟨⟨a, ha⟩, hbs⟩ := h
    obtain ⟨as, has⟩ := ih hbs
    exact ⟨a :: as, by rw [List.map_cons, List.map_cons, ha, has]⟩

theorem exists_separated_of_isClean {bs : List β} (h : ∀ b ∈ bs, IsClean text pieces b) :
    ∃ as : List α, separated (bs.map pieces) = toPieces (withCommas (as.map text)) := by
  obtain ⟨as, has⟩ := exists_map_eq h
  refine ⟨as, ?_⟩
  rw [has, toPieces_withCommas, List.map_map]
  rfl

end

section
variable {l : Loose} {room : Nat}

theorem isClean_member {m : LooseMember Loose} {t : Text}
    (hkey : StringUnit.decode (m.key.it.flatMap (LooseUnit.mend spoiler)) = .ok t)
    (hvalue : IsClean Spelling.text Loose.pieces m.value.it) :
    ∃ m' : Member Spelling, m.pieces Loose.pieces = toPieces (m'.text Spelling.text) ∧
      StringUnit.decode m'.key.it = .ok t := by
  obtain ⟨vs, hvs, hdecode⟩ := exists_literal_of_decode hkey
  obtain ⟨v, hv⟩ := hvalue.padded
  refine ⟨⟨⟨m.key.before, vs, m.key.behind⟩, v⟩, ?_, hdecode⟩
  rw [LooseMember.pieces, hv]
  simp [Member.text, Padded.pieces, Padded.text, hvs]

/-- A value that is kept has no stray bytes. -/
theorem isClean_of_value {v : Value} (h : (l.mend spoiler).value room = .ok v) :
    IsClean Spelling.text Loose.pieces l := by
  induction l using Loose.induct generalizing room v with
  | scalar s => exact ⟨.scalar s, rfl⟩
  | string us =>
    obtain ⟨x, hx, -⟩ := map_eq_ok.mp h
    obtain ⟨t, ht, -⟩ := map_eq_ok.mp hx
    obtain ⟨vs, hvs, -⟩ := exists_literal_of_decode ht
    exact ⟨.scalar (.string vs), hvs⟩
  | array inside items ih =>
    rw [Loose.mend_array] at h
    cases room with
    | zero => contradiction
    | succ room =>
      rw [Spelling.value_array_succ, List.mapM_map] at h
      obtain ⟨vs, hvs, -⟩ := map_eq_ok.mp h
      have hitems : ∀ p ∈ items,
          IsClean (Padded.text Spelling.text) (Padded.pieces Loose.pieces) p := by
        intro p hp
        obtain ⟨v, hv⟩ := exists_ok_of_mapM hvs p hp
        exact (ih p hp hv).padded
      obtain ⟨as, has⟩ := exists_separated_of_isClean hitems
      refine ⟨.array inside as, ?_⟩
      rw [Loose.pieces_array, has, Spelling.text_array]
      simp
  | object inside entries ih =>
    rw [Loose.mend_object] at h
    cases room with
    | zero => contradiction
    | succ room =>
      rw [Spelling.value_object_succ, List.mapM_map] at h
      obtain ⟨es, hes, -⟩ := map_eq_ok.mp h
      have hentries : ∀ m ∈ entries,
          IsClean (Member.text Spelling.text) (LooseMember.pieces Loose.pieces) m := by
        intro m hm
        obtain ⟨e, he⟩ := exists_ok_of_mapM hes m hm
        obtain ⟨hkey, hv⟩ := Spelling.member_eq_ok.mp he
        obtain ⟨m', hm', -⟩ := isClean_member hkey (ih m hm hv)
        exact ⟨m', hm'⟩
      obtain ⟨as, has⟩ := exists_separated_of_isClean hentries
      refine ⟨.object inside as, ?_⟩
      rw [Loose.pieces_object, has, Spelling.text_object]
      simp

theorem isClean_of_blocks {bs : List Node} (h : (l.mend spoiler).blocks = .ok bs) :
    IsClean Spelling.text Loose.pieces l := by
  cases l with
  | scalar s => exact ⟨.scalar s, rfl⟩
  | string us =>
    obtain ⟨_, -, herror⟩ := bind_eq_ok.mp h
    exact absurd herror expected_ne_ok
  | object inside entries =>
    rw [Loose.mend_object] at h
    exact absurd h expected_ne_ok
  | array inside items =>
    rw [Loose.mend_array, Spelling.blocks, List.mapM_map] at h
    have hitems : ∀ p ∈ items,
        IsClean (Padded.text Spelling.text) (Padded.pieces Loose.pieces) p := by
      intro p hp
      obtain ⟨n, hn⟩ := exists_ok_of_mapM h p hp
      obtain ⟨v, hv⟩ := exists_value_of_node hn
      exact (isClean_of_value hv).padded
    obtain ⟨as, has⟩ := exists_separated_of_isClean hitems
    refine ⟨.array inside as, ?_⟩
    rw [Loose.pieces_array, has, Spelling.text_array]
    simp

/-- An entry of a document that is loaded is its blocks or is skipped. -/
theorem exists_draftEntry {m : LooseMember Loose} {found found' : Option (List Node)}
    (h : Spelling.documentEntry found (m.mend spoiler (Loose.mend spoiler)) = .ok found') :
    ∃ e : DraftEntry, m.pieces Loose.pieces = e.pieces := by
  unfold Spelling.documentEntry at h
  obtain ⟨t, ht, hentry⟩ := bind_eq_ok.mp h
  have hkey := ofFault_eq_ok.mp ht
  split at hentry
  · next hblocks =>
    cases found with
    | some _ => contradiction
    | none =>
      obtain ⟨bs, hbs, -⟩ := map_eq_ok.mp hentry
      obtain ⟨m', hm', hdecode⟩ := isClean_member hkey (isClean_of_blocks hbs)
      rw [hblocks] at hdecode
      exact ⟨.blocks m' hdecode, hm'⟩
  · next hother =>
    obtain ⟨vs, hvs, hdecode⟩ := exists_literal_of_decode hkey
    refine ⟨.skipped ⟨⟨m.key.before, vs, m.key.behind⟩, t, hdecode, hother⟩ m.value, ?_⟩
    simp [LooseMember.pieces, DraftEntry.pieces, Padded.pieces, Padded.text, hvs]

/-- A document that is loaded has stray bytes only where a draft has them. -/
theorem exists_draft_of_document {d : Document} (h : (l.mend spoiler).document = .ok d) :
    ∃ draft : Draft, l.pieces = draft.pieces := by
  cases l with
  | scalar s =>
    obtain ⟨_, -, herror⟩ := bind_eq_ok.mp h
    exact absurd herror expected_ne_ok
  | string us =>
    obtain ⟨_, -, herror⟩ := bind_eq_ok.mp h
    exact absurd herror expected_ne_ok
  | object inside entries =>
    rw [Loose.mend_object] at h
    obtain ⟨found, hfound, -⟩ := map_eq_ok.mp h
    rw [List.foldlM_map] at hfound
    have hentries : ∀ m ∈ entries, ∃ e : DraftEntry, m.pieces Loose.pieces = e.pieces := by
      intro m hm
      obtain ⟨_, _, hentry⟩ := exists_ok_of_foldlM hfound m hm
      exact exists_draftEntry hentry
    obtain ⟨es, hes⟩ := exists_map_eq hentries
    exact ⟨.object inside es, by rw [Loose.pieces_object, hes, Draft.pieces]⟩
  | array inside items =>
    rw [Loose.mend_array] at h
    have hitems : ∀ p ∈ items,
        IsClean (Padded.text Spelling.text) (Padded.pieces Loose.pieces) p := by
      rcases items with _ | ⟨p, _ | ⟨q, items⟩⟩
      · intro p hp
        cases hp
      · obtain ⟨bs, hbs, -⟩ := map_eq_ok.mp h
        exact List.forall_mem_singleton.mpr (isClean_of_blocks hbs).padded
      · obtain ⟨_, -, herror⟩ := bind_eq_ok.mp h
        contradiction
    obtain ⟨as, has⟩ := exists_separated_of_isClean hitems
    refine ⟨.array inside as, ?_⟩
    rw [Loose.pieces_array, has, Draft.pieces, Spelling.text_array]
    simp

end

/-- What is loaded is written as a draft. -/
theorem exists_draft {ps : List Piece} {d : Document} (h : Document.ofPieces ps = .ok d) :
    ∃ p : Padded Draft, ps = p.pieces Draft.pieces := by
  have hmarked := Document.ofText_mended h [.plain '?' (by decide)]
  obtain ⟨p, hp⟩ := Document.exists_padded_of_ofText hmarked
  obtain ⟨q, rfl⟩ := recovers_padded (recovers p.it) ps hp.symm
  have hspoiled := Document.ofText_mended h spoiler
  rw [mended_padded spoiler (Loose.text_mend spoiler q.it), Document.ofText_text] at hspoiled
  obtain ⟨draft, hdraft⟩ := exists_draft_of_document hspoiled
  exact ⟨⟨q.before, draft, q.behind⟩, by rw [Padded.pieces, Padded.pieces, hdraft]⟩

end ManPage.Load

namespace ManPage
open Json Load
open Text.Utf8 (pieces)

/-- The UTF-8 form of a text is read as that text. Accepted bytes are written as a draft, in which stray
bytes stand only in strings of values that are skipped; and the bytes of each such value may be replaced
by those of any other value. -/
theorem Document.ofBytes_draft :
    (∀ t, Document.ofBytes (Text.encode t) = Document.ofText t) ∧
    (∀ b d, Document.ofBytes b = .ok d → ∃ p : Padded Draft, pieces b = p.pieces Draft.pieces) ∧
    ∀ b d (f : SkippedPlace) (l : Loose), Document.ofBytes b = .ok d →
      pieces b = (f.fill l).pieces Draft.pieces →
        ∃ x v y, b = x ++ (v ++ y) ∧ pieces x = f.opening ∧ pieces v = l.pieces ∧ pieces y = f.closing ∧
          ∀ w (l' : Loose), pieces w = l'.pieces → Document.ofBytes (x ++ (w ++ y)) = .ok d := by
  refine ⟨Document.ofBytes_encode, fun b d h => exists_draft h, ?_⟩
  intro b d f l h hb
  have hload : (f.fill l).it.document = .ok d := by
    rw [← Document.ofPieces_draft, ← hb]
    exact h
  rw [f.pieces_fill] at hb
  obtain ⟨x, _, rfl, hx, hrest⟩ := Text.Utf8.exists_of_pieces_append hb
  obtain ⟨v, y, rfl, hv, hy⟩ := Text.Utf8.exists_of_pieces_append hrest
  refine ⟨x, v, y, rfl, hx, hv, hy, ?_⟩
  intro w l' hw
  obtain ⟨ps, c, hopening, hc⟩ := f.exists_last_opening
  obtain ⟨c', qs, hclosing, hc'⟩ := f.exists_head_closing
  have hpieces : pieces (x ++ (w ++ y)) = (f.fill l').pieces Draft.pieces := by
    rw [Text.Utf8.pieces_append_of_last hc (hx.trans hopening),
      Text.Utf8.pieces_append_of_head hc' (hy.trans hclosing), hx, hw, hy, f.pieces_fill]
  rw [Document.ofBytes, hpieces, Document.ofPieces_draft, f.document_fill l' l]
  exact hload

def plainUnits (t : Text) : List StringUnit :=
  t.filterMap fun c =>
    if h : c ≠ '"' ∧ c ≠ '\\' ∧ 0x20 ≤ c.toNat then some (.plain c h) else none

/-- A remark in front of the blocks of a document. -/
def remarkPlace : SkippedPlace where
  before := noSpace
  inside := noSpace
  front := []
  key := ⟨⟨noSpace, plainUnits "x".toList, noSpace⟩, "x".toList, rfl, by decide⟩
  ahead := noSpace
  after := noSpace
  back := [.blocks ⟨⟨noSpace, plainUnits Document.blocksKey, noSpace⟩, ⟨noSpace,
    .array noSpace [⟨noSpace, .array noSpace [
      ⟨noSpace, .scalar (.string (plainUnits "text".toList)), noSpace⟩,
      ⟨noSpace, .scalar (.string (plainUnits "a".toList)), noSpace⟩], noSpace⟩], noSpace⟩⟩ rfl]
  behind := noSpace

def strayDocument : List UInt8 :=
  Text.encode "\x7b\"x\":\"".toList ++
    0xFF :: Text.encode "\",\"children\":[[\"text\",\"a\"]]\x7d".toList

/-- A number that is too large, and a surrogate without its partner in front of a stray byte. -/
def wildValue : Loose :=
  .array noSpace [⟨noSpace, .scalar (.numeral "1e999".toList (isNumeral_cons.mpr
      ⟨.integer, .exponent, rfl, rfl, rfl⟩)), noSpace⟩,
    ⟨noSpace, .string [.unit (.code "d800".toList 0xD800 (by decide)), .stray 0xFF], noSpace⟩]

def wildBytes : List UInt8 :=
  Text.encode "[1e999,\"\\ud800".toList ++ 0xFF :: Text.encode "\"]".toList

theorem Document.ofBytes_draft_stray :
    Document.ofBytes strayDocument = .ok ⟨[.text "a".toList]⟩ ∧
    pieces strayDocument = (remarkPlace.fill (.string [.stray 0xFF])).pieces Draft.pieces ∧
    pieces wildBytes = wildValue.pieces ∧
    ∃ x v y, strayDocument = x ++ (v ++ y) ∧ pieces v = LooseUnit.literal [.stray 0xFF] ∧
      Document.ofBytes (x ++ (wildBytes ++ y)) = .ok ⟨[.text "a".toList]⟩ := by
  have hstray : pieces strayDocument =
      (remarkPlace.fill (.string [.stray 0xFF])).pieces Draft.pieces := by
    rw [strayDocument, Text.Utf8.pieces_encode_append, Text.Utf8.pieces_stray (by decide +kernel),
      Text.Utf8.pieces_encode]
    decide +kernel
  have hwild : pieces wildBytes = wildValue.pieces := by
    rw [wildBytes, Text.Utf8.pieces_encode_append, Text.Utf8.pieces_stray (by decide +kernel),
      Text.Utf8.pieces_encode]
    decide +kernel
  have hload : Document.ofBytes strayDocument = .ok ⟨[.text "a".toList]⟩ := by
    rw [Document.ofBytes, hstray]
    decide +kernel
  obtain ⟨x, v, y, hsplit, -, hv, -, hreplace⟩ := Document.ofBytes_draft.2.2 _ _ _ _ hload hstray
  exact ⟨hload, hstray, hwild, x, v, y, hsplit, hv, hreplace wildBytes wildValue hwild⟩

end ManPage
