import ManPage.Json.Printer
import ManPage.Proofs.Json.Nesting

/-! # Written values

What is written for a value is a spelling of it: the escapes of a string stand for its characters, the
digits of a number for the number, and the lines of the pretty form are space between the tokens.
-/
namespace ManPage.Json
open Text Outcome

/-! ## Strings -/

theorem hex?_digitChars : ∀ n < 0x20, Quotation.hex?
    (toPieces ['0', '0', Nat.digitChar (n / 16), Nat.digitChar (n % 16)]) = some n := by decide

theorem not_surrogate_of_lt {n : Nat} (h : n < 0x20) :
    Quotation.isTrail n = false ∧ Quotation.isLead n = false := by
  have htrail : ¬ 0xDC00 ≤ n := by omega
  have hlead : ¬ 0xD800 ≤ n := by omega
  simp [Quotation.isTrail, Quotation.isLead, htrail, hlead]

/-- What is written for a character is a unit that stands for it. -/
theorem exists_unit (c : Char) : ∃ u : StringUnit, u.text = escapedChar c ∧
    ∀ us, StringUnit.decode (u :: us) = (c :: ·) <$> StringUnit.decode us := by
  have hshort (letter c : Char) (h : Quotation.unescape? letter = some c)
      (htext : escapedChar c = ['\\', letter]) : ∃ u : StringUnit, u.text = escapedChar c ∧
        ∀ us, StringUnit.decode (u :: us) = (c :: ·) <$> StringUnit.decode us :=
    ⟨.short letter c h, htext.symm, fun us => by rw [StringUnit.decode]⟩
  unfold escapedChar
  split
  · exact hshort '"' '"' rfl rfl
  · exact hshort '\\' '\\' rfl rfl
  · exact hshort 'b' '\x08' rfl rfl
  · exact hshort 'f' '\x0C' rfl rfl
  · exact hshort 'n' '\n' rfl rfl
  · exact hshort 'r' '\r' rfl rfl
  · exact hshort 't' '\t' rfl rfl
  · next hquote hslash _ _ _ _ _ =>
    by_cases hc : c.toNat < 0x20
    · rw [if_pos hc]
      refine ⟨.code _ c.toNat (hex?_digitChars c.toNat hc), rfl, fun us => ?_⟩
      obtain ⟨htrail, hlead⟩ := not_surrogate_of_lt hc
      have hchar : Char.ofNat c.toNat = c := Char.ofNat_toNat c
      rw [StringUnit.decode.eq_def]
      dsimp only
      rw [htrail, hlead, hchar]
      rfl
    · rw [if_neg hc]
      refine ⟨.plain c ⟨hquote, hslash, by omega⟩, rfl, fun us => ?_⟩
      rw [StringUnit.decode]

theorem exists_units (t : Text) : ∃ us, StringUnit.texts us = t.flatMap escapedChar ∧
    StringUnit.decode us = .ok t := by
  induction t with
  | nil => exact ⟨[], rfl, rfl⟩
  | cons c t ih =>
    obtain ⟨us, htext, hdecode⟩ := ih
    obtain ⟨u, hu, hcons⟩ := exists_unit c
    refine ⟨u :: us, ?_, ?_⟩
    · rw [StringUnit.texts_cons, hu, htext, List.flatMap_cons]
    · rw [hcons, hdecode]
      rfl

theorem writeString_eq {us : List StringUnit} {t : Text}
    (h : StringUnit.texts us = t.flatMap escapedChar) (rest : Text) :
    writeString t rest = StringUnit.literal us ++ rest := by
  simp [writeString, StringUnit.literal, h]

/-! ## Numbers -/

theorem all_isDigit_decimal (n : Nat) : (decimal n).all Char.isDigit :=
  List.all_eq_true.mpr fun _ hc => Nat.isDigit_of_mem_toDigits (by decide) (by decide) hc

/-- A number starts with the digit zero only if it is zero. -/
theorem head?_decimal {n : Nat} (h : 0 < n) : (decimal n).head? ≠ some '0' := by
  induction n using Nat.strongRecOn with
  | ind n ih =>
    by_cases hn : n < 10
    · rw [decimal, Nat.toDigits_of_lt_base hn, List.head?_cons, Ne, Option.some.injEq,
        Nat.digitChar_eq_zero]
      omega
    · have hrest := ih (n / 10) (by omega) (by omega)
      obtain ⟨c, cs, hcons⟩ := List.exists_cons_of_ne_nil (@Nat.toDigits_ne_nil (n / 10) 10)
      rw [decimal, hcons] at hrest
      rw [decimal, Nat.toDigits_of_base_le (by decide) (by omega), hcons]
      exact hrest

theorem isNumeral_decimal (n : Nat) : IsNumeral (decimal n) := by
  have hwhole : IsWhole (decimal n) := by
    by_cases hn : n = 0
    · exact Or.inl (by rw [hn, decimal, Nat.toDigits_zero])
    · exact Or.inr ⟨⟨Nat.toDigits_ne_nil, all_isDigit_decimal n⟩, head?_decimal (by omega)⟩
  refine ⟨[], decimal n, [], [], Or.inl rfl, hwhole, Or.inl rfl, Or.inl rfl, ?_⟩
  simp

theorem ofSpelling_digits {t : Text} (h : t.all Char.isDigit) :
    Numeral.Parts.ofSpelling t = ⟨false, t, [], true, 0⟩ := by
  have htake := @List.takeWhile_append_of_pos _ Char.isDigit t [] (List.all_eq_true.mp h)
  have hdrop := @List.dropWhile_append_of_pos _ Char.isDigit t [] (List.all_eq_true.mp h)
  rw [List.takeWhile_nil, List.append_nil] at htake
  rw [List.dropWhile_nil, List.append_nil] at hdrop
  unfold Numeral.Parts.ofSpelling
  split
  next negative t' heq =>
  split at heq
  · next r =>
    rw [List.all_cons] at h
    contradiction
  · cases heq
    rw [htake, hdrop]

theorem number?_decimal {n : Nat} (h : n < UInt64.size) :
    Numeral.number? (decimal n) = some (.integer n) := by
  have hnatural : Numeral.natural (decimal n) = n := Nat.ofDigitChars_ten_toDigits
  rw [Numeral.number?, ofSpelling_digits (all_isDigit_decimal n), Numeral.Parts.number?]
  dsimp only
  rw [hnatural, if_pos ⟨rfl, nofun, h⟩]

/-! ## Values -/

/-- The scalars that are written so that they are read back as they are. -/
def Scalar.IsPlain : Scalar → Prop
  | number (.integer n) => 0 ≤ n ∧ n < UInt64.size
  | number (.float _ _) => False
  | _ => True

inductive Value.IsPlain : Value → Prop
  | scalar {s : Scalar} (h : s.IsPlain) : IsPlain (.scalar s)
  | array {items : List Value} (h : ∀ v ∈ items, IsPlain v) : IsPlain (.array items)
  | object {entries : List (Text × Value)} (h : ∀ e ∈ entries, IsPlain e.2) :
    IsPlain (.object entries)

theorem exists_scalar {x : Scalar} (h : x.IsPlain) : ∃ s : ScalarSpelling,
    (∀ rest, writeScalar x rest = s.text ++ rest) ∧ s.scalar = .ok x := by
  cases x with
  | null => exact ⟨.null, fun _ => rfl, rfl⟩
  | bool b => exact ⟨.bool b, fun _ => rfl, rfl⟩
  | string t =>
    obtain ⟨us, htext, hdecode⟩ := exists_units t
    refine ⟨.string us, writeString_eq htext, ?_⟩
    rw [ScalarSpelling.scalar, hdecode]
    rfl
  | number n =>
    cases n with
    | float negative m => exact absurd h id
    | integer n =>
      obtain ⟨hn, hmax⟩ := h
      obtain ⟨k, rfl⟩ := Int.eq_ofNat_of_zero_le hn
      have hk : k < UInt64.size := by omega
      refine ⟨.numeral (decimal k) (isNumeral_decimal k), fun rest => ?_, ?_⟩
      · rw [writeScalar, signedDecimal, if_neg (by omega)]
        rfl
      · rw [ScalarSpelling.scalar, number?_decimal hk]

section
variable {α β : Type} (place : α → Space → β) (last : Space)

/-- The elements with nothing behind each of them and the space `last` behind all. -/
def spread : α → List α → List β
  | a, [] => [place a last]
  | a, b :: r => place a noSpace :: spread b r

theorem text_spread (text : β → Text) (head : α → Text)
    (h : ∀ a ws, text (place a ws) = head a ++ ws.val) (a : α) (r : List α) :
    withCommas ((spread place last a r).map text) =
      head a ++ (behindCommas (r.map head) ++ last.val) := by
  have hbehind : ∀ a r, behindCommas ((spread place last a r).map text) =
      ',' :: (head a ++ (behindCommas (r.map head) ++ last.val)) := by
    intro a r
    induction r generalizing a with
    | nil => simp [spread, h]
    | cons b r ih => simp [spread, h, ih]
  cases r with
  | nil => simp [spread, withCommas, h]
  | cons b r => simp [spread, withCommas, h, hbehind]

theorem mapM_spread {ε γ : Type} (f : β → Except ε γ) (g : α → Except ε γ)
    (h : ∀ a ws, f (place a ws) = g a) (a : α) (r : List α) :
    (spread place last a r).mapM f = (a :: r).mapM g := by
  induction r generalizing a with
  | nil => rw [spread, List.mapM_cons, List.mapM_cons, h, List.mapM_nil, List.mapM_nil]
  | cons b r ih => rw [spread, List.mapM_cons, List.mapM_cons, h, ih]

end

namespace Form

/-- The space at the start of a line. -/
def lineSpace : Form → Nat → Space
  | compact, _ => noSpace
  | pretty, depth => ⟨'\n' :: List.replicate (2 * depth) ' ', by
      rw [List.all_cons, List.all_replicate]
      simp [isBlank]⟩

def colonSpace : Form → Space
  | compact => noSpace
  | pretty => ⟨[' '], rfl⟩

theorem line_eq (form : Form) (depth : Nat) (rest : Text) :
    form.line depth rest = (form.lineSpace depth).val ++ rest := by
  cases form <;> rfl

theorem colon_eq (form : Form) (rest : Text) :
    form.colon rest = ':' :: (form.colonSpace.val ++ rest) := by
  cases form <;> rfl

end Form

/-- The spelling is what is written for the value inside so many brackets. -/
def IsWritten (form : Form) (depth : Nat) (v : Value) (s : Spelling) : Prop :=
  (∀ rest, form.write depth v rest = s.text ++ rest) ∧ s.value v.depth = .ok v

section
variable {form : Form} {depth : Nat}

theorem IsWritten.value {v : Value} {s : Spelling} (h : IsWritten form depth v s) {room : Nat}
    (hroom : v.depth ≤ room) : s.value room = .ok v := by
  rw [s.value_within h.2, if_pos hroom]

variable (form depth)

def itemText (s : Spelling) : Text := (form.lineSpace depth).val ++ s.text

def itemPlace (s : Spelling) (ws : Space) : Padded Spelling := ⟨form.lineSpace depth, s, ws⟩

theorem text_itemPlace (s : Spelling) (ws : Space) :
    (itemPlace form depth s ws).text Spelling.text = itemText form depth s ++ ws.val :=
  (List.append_assoc _ _ _).symm

def entryText (m : List StringUnit × Spelling) : Text :=
  (form.lineSpace depth).val ++ (StringUnit.literal m.1 ++ ':' :: (form.colonSpace.val ++ m.2.text))

def entryPlace (m : List StringUnit × Spelling) (ws : Space) : Member Spelling :=
  ⟨⟨form.lineSpace depth, m.1, noSpace⟩, ⟨form.colonSpace, m.2, ws⟩⟩

theorem text_entryPlace (m : List StringUnit × Spelling) (ws : Space) :
    (entryPlace form depth m ws).text Spelling.text = entryText form depth m ++ ws.val := by
  simp [entryPlace, entryText, Member.text, Padded.text]

variable {form depth}

/-- Elements behind the first one, each on its own line. -/
theorem exists_items {vs : List Value} (h : ∀ v ∈ vs, ∃ s, IsWritten form depth v s) :
    ∃ ss : List Spelling,
      (∀ rest, form.writeItems depth vs rest =
        behindCommas (ss.map (itemText form depth)) ++ rest) ∧
      ∀ room, (∀ v ∈ vs, v.depth ≤ room) → ss.mapM (Spelling.value room) = .ok vs := by
  induction vs with
  | nil => exact ⟨[], fun _ => rfl, fun _ _ => rfl⟩
  | cons v vs ih =>
    obtain ⟨s, hs⟩ := h v List.mem_cons_self
    obtain ⟨ss, htext, hvalue⟩ := ih fun w hw => h w (List.mem_cons_of_mem v hw)
    refine ⟨s :: ss, fun rest => ?_, fun room hroom => ?_⟩
    · simp [Form.writeItems, form.line_eq, hs.1, htext, itemText]
    · rw [List.forall_mem_cons] at hroom
      rw [List.mapM_cons, hs.value hroom.1, hvalue room hroom.2]
      rfl

/-- The key and the value of an entry. -/
def entryValue (room : Nat) (m : List StringUnit × Spelling) : Except Fault (Text × Value) := do
  let key ← StringUnit.decode m.1
  let v ← m.2.value room
  return (key, v)

theorem exists_entry {e : Text × Value} (h : ∃ s, IsWritten form depth e.2 s) :
    ∃ m : List StringUnit × Spelling,
      (∀ rest, writeString e.1 (form.colon (form.write depth e.2 rest)) =
        StringUnit.literal m.1 ++ ':' :: (form.colonSpace.val ++ (m.2.text ++ rest))) ∧
      ∀ room, e.2.depth ≤ room → entryValue room m = .ok e := by
  obtain ⟨s, hs⟩ := h
  obtain ⟨us, hkey, hdecode⟩ := exists_units e.1
  refine ⟨(us, s), fun rest => ?_, fun room hroom => ?_⟩
  · rw [hs.1, form.colon_eq, writeString_eq hkey]
  · rw [entryValue, hdecode, hs.value hroom]
    rfl

theorem exists_entries {es : List (Text × Value)} (h : ∀ e ∈ es, ∃ s, IsWritten form depth e.2 s) :
    ∃ ms : List (List StringUnit × Spelling),
      (∀ rest, form.writeEntries depth es rest =
        behindCommas (ms.map (entryText form depth)) ++ rest) ∧
      ∀ room, (∀ e ∈ es, e.2.depth ≤ room) → ms.mapM (entryValue room) = .ok es := by
  induction es with
  | nil => exact ⟨[], fun _ => rfl, fun _ _ => rfl⟩
  | cons e es ih =>
    obtain ⟨m, hm, hentry⟩ := exists_entry (h e List.mem_cons_self)
    obtain ⟨ms, htext, hvalue⟩ := ih fun d hd => h d (List.mem_cons_of_mem e hd)
    refine ⟨m :: ms, fun rest => ?_, fun room hroom => ?_⟩
    · simp [Form.writeEntries, form.line_eq, hm, htext, entryText]
    · rw [List.forall_mem_cons] at hroom
      rw [List.mapM_cons, hentry room hroom.1, hvalue room hroom.2]
      rfl

end

/-- Every plain value has a spelling that is what is written for it. -/
theorem exists_isWritten (form : Form) {v : Value} (h : v.IsPlain) (depth : Nat) :
    ∃ s, IsWritten form depth v s := by
  induction h generalizing depth with
  | scalar h =>
    obtain ⟨s, htext, hscalar⟩ := exists_scalar h
    refine ⟨.scalar s, htext, ?_⟩
    rw [Spelling.value, hscalar]
    rfl
  | @array items h ih =>
    cases items with
    | nil => exact ⟨.array noSpace [], fun _ => rfl, rfl⟩
    | cons v vs =>
      obtain ⟨s, hs⟩ := ih v List.mem_cons_self (depth + 1)
      obtain ⟨ss, htext, hvalue⟩ := exists_items fun w hw =>
        ih w (List.mem_cons_of_mem v hw) (depth + 1)
      have hroom := Value.itemsDepth_le.mp (Nat.le_refl (Value.itemsDepth (v :: vs)))
      have hspread := text_spread (itemPlace form (depth + 1)) (form.lineSpace depth) _ _
        (text_itemPlace form (depth + 1)) s ss
      have hmapM := mapM_spread (itemPlace form (depth + 1)) (form.lineSpace depth)
        (fun p => p.it.value (Value.itemsDepth (v :: vs))) (Spelling.value _) (fun _ _ => rfl) s ss
      rw [List.forall_mem_cons] at hroom
      refine ⟨.array noSpace (spread (itemPlace form (depth + 1)) (form.lineSpace depth) s ss),
        fun rest => ?_, ?_⟩
      · rw [Spelling.text_array, hspread]
        simp [Form.write, form.line_eq, hs.1, htext, itemText]
      · rw [Value.depth, Spelling.value_array_succ, hmapM, List.mapM_cons, hs.value hroom.1,
          hvalue _ hroom.2]
        rfl
  | @object entries h ih =>
    cases entries with
    | nil => exact ⟨.object noSpace [], fun _ => rfl, rfl⟩
    | cons e es =>
      obtain ⟨m, hm, hentry⟩ := exists_entry (ih e List.mem_cons_self (depth + 1))
      obtain ⟨ms, htext, hvalue⟩ := exists_entries fun d hd =>
        ih d (List.mem_cons_of_mem e hd) (depth + 1)
      have hroom := Value.entriesDepth_le.mp (Nat.le_refl (Value.entriesDepth (e :: es)))
      have hspread := text_spread (entryPlace form (depth + 1)) (form.lineSpace depth) _ _
        (text_entryPlace form (depth + 1)) m ms
      have hmapM := mapM_spread (entryPlace form (depth + 1)) (form.lineSpace depth)
        (Spelling.member (Value.entriesDepth (e :: es))) (entryValue _) (fun _ _ => rfl) m ms
      rw [List.forall_mem_cons] at hroom
      refine ⟨.object noSpace (spread (entryPlace form (depth + 1)) (form.lineSpace depth) m ms),
        fun rest => ?_, ?_⟩
      · rw [Spelling.text_object, hspread]
        simp [Form.write, form.line_eq, hm, htext, entryText]
      · rw [Value.depth, Spelling.value_object_succ, hmapM, List.mapM_cons, hentry _ hroom.1,
          hvalue _ hroom.2]
        rfl

/-- The whole of what is written for a plain value is a text of the grammar. -/
theorem exists_text_eq (form : Form) {v : Value} (h : v.IsPlain) : ∃ p : Padded Spelling,
    p.text Spelling.text = form.write 0 v [] ∧ p.it.value v.depth = .ok v := by
  obtain ⟨s, htext, hvalue⟩ := exists_isWritten form h 0
  refine ⟨⟨noSpace, s, noSpace⟩, ?_, hvalue⟩
  rw [htext]
  rfl

end ManPage.Json
