import ManPage.Proofs.Json.Spelling
import ManPage.Proofs.Outcome

/-! # Strings piece by piece

Scanning a string from behind its opening quote, the units of a literal are read one after the
other. A strict scan answers what they stand for or the fault of the first surrogate without its
partner; a lax scan always comes to the closing quote. Taken one by one, the characters of a string
close it, go on with a unit or complete one.
-/
namespace ManPage.Json
open Text Outcome

namespace Quotation

/-- Reads to the closing quote: the string, and the pieces behind it. -/
def scan (strict : Bool) (q : Quotation) : List Piece → Except Fault (Option (Text × List Piece))
  | [] => .ok none
  | p :: ps =>
    match q.step strict p with
    | .error f => .error f
    | .ok (.closed t) => .ok (some (t, ps))
    | .ok (.next q) => scan strict q ps

variable (strict : Bool) (q : Quotation) (ps : List Piece)

theorem scan_quote (hp : q.phase = .plain) (hs : q.stray = false) :
    q.scan strict (.char '"' :: ps) = .ok (some (q.chars.reverse, ps)) := by
  simp [scan, step, hp, hs]

theorem scan_plain (hp : q.phase = .plain) {c : Char} (h) (us : List StringUnit) :
    q.scan strict ((StringUnit.texts (.plain c h :: us)).toPieces ++ ps) =
      (q.push c).scan strict ((StringUnit.texts us).toPieces ++ ps) := by
  obtain ⟨hquote, hslash, hc⟩ := h
  simp [StringUnit.text, scan, step, hp, Nat.not_lt.mpr hc]

theorem scan_slash (hp : q.phase = .plain) :
    q.scan strict (.char '\\' :: ps) = { q with phase := .escape }.scan strict ps := by
  simp [scan, step, hp]

theorem scan_short (hp : q.phase = .plain) {letter c : Char} (h) (us : List StringUnit) :
    q.scan strict ((StringUnit.texts (.short letter c h :: us)).toPieces ++ ps) =
      (q.push c).scan strict ((StringUnit.texts us).toPieces ++ ps) := by
  have hu : letter ≠ 'u' := by
    rintro rfl
    simp [unescape?] at h
  simp [StringUnit.text, scan_slash strict q _ hp, scan, step, h, push]

theorem utf8Size_of_hexDigit? {c : Char} {n : Nat} (h : hexDigit? c = some n) : c.utf8Size = 1 := by
  have hc : c.val ≤ 0x7F := by
    rw [hexDigit?] at h
    split at h
    · next hd =>
      simp only [Char.isDigit, ge_iff_le, Bool.and_eq_true, decide_eq_true_eq] at hd
      exact UInt32.le_trans hd.2 (by decide)
    split at h
    · next hd => exact UInt32.le_trans hd.2 (by decide)
    split at h
    · next hd => exact UInt32.le_trans hd.2 (by decide)
    · contradiction
  simp [Char.utf8Size, hc]

theorem hex?_eq_some {ps : List Piece} {n : Nat} (h : hex? ps = some n) :
    ∃ a b c d w x y z, ps = [.char a, .char b, .char c, .char d] ∧ hexDigit? a = some w ∧
      hexDigit? b = some x ∧ hexDigit? c = some y ∧ hexDigit? d = some z := by
  match ps, h with
  | [p, q, r, s], h =>
    simp only [hex?, Option.bind_eq_bind, Option.bind_eq_some_iff] at h
    obtain ⟨w, hw, x, hx, y, hy, z, hz, -⟩ := h
    cases p with
    | stray _ => contradiction
    | char a =>
      cases q with
      | stray _ => contradiction
      | char b =>
        cases r with
        | stray _ => contradiction
        | char c =>
          cases s with
          | stray _ => contradiction
          | char d => exact ⟨a, b, c, d, w, x, y, z, rfl, hw, hx, hy, hz⟩

@[simp] theorem pushEscaped_phase (phase : QuotationPhase) (lead : Option Nat) (n : Nat) :
    pushEscaped strict { q with phase := phase } lead n = pushEscaped strict q lead n := by
  cases lead <;> rfl

theorem scan_hex_next {lead : Option Nat} {seen : List Piece} (hp : q.phase = .hex lead seen)
    {p : Piece} (h : (p :: seen).foldl (fun n p => n + p.width) 0 < 4) :
    q.scan strict (p :: ps) = { q with phase := .hex lead (p :: seen) }.scan strict ps := by
  have hstep : q.step strict p = .ok (.next { q with phase := .hex lead (p :: seen) }) := by
    simp only [step, hp, if_pos h]
  rw [scan, hstep]

theorem scan_hex_last {lead : Option Nat} {seen : List Piece} (hp : q.phase = .hex lead seen)
    {p : Piece} (h : ¬ (p :: seen).foldl (fun n p => n + p.width) 0 < 4) {n : Nat}
    (hn : hex? (p :: seen).reverse = some n) :
    q.scan strict (p :: ps) =
      q.pushEscaped strict lead n >>= fun q => q.scan strict ps := by
  have hstep : q.step strict p = .next <$> pushEscaped strict q lead n := by
    simp only [step, hp, if_neg h, hn]
    rfl
  rw [scan, hstep]
  cases pushEscaped strict q lead n <;> rfl

/-- Four hexadecimal digits are read as one number. -/
theorem scan_hex {lead : Option Nat} (hp : q.phase = .hex lead []) {digits : Text} {n : Nat}
    (h : hex? digits.toPieces = some n) : q.scan strict (digits.toPieces ++ ps) =
      q.pushEscaped strict lead n >>= fun q => q.scan strict ps := by
  obtain ⟨a, b, c, d, w, x, y, z, hds, ha, hb, hc, hd⟩ := hex?_eq_some h
  rw [hds] at h ⊢
  have hn : hex? [Piece.char d, .char c, .char b, .char a].reverse = some n := h
  have wa : (Piece.char a).width = 1 := utf8Size_of_hexDigit? ha
  have wb : (Piece.char b).width = 1 := utf8Size_of_hexDigit? hb
  have wc : (Piece.char c).width = 1 := utf8Size_of_hexDigit? hc
  have wd : (Piece.char d).width = 1 := utf8Size_of_hexDigit? hd
  simp only [List.cons_append, List.nil_append]
  rw [scan_hex_next strict q _ hp (by simp [wa]),
    scan_hex_next strict _ _ rfl (by simp [wa, wb]),
    scan_hex_next strict _ _ rfl (by simp [wa, wb, wc]),
    scan_hex_last strict _ _ rfl (by simp [wa, wb, wc, wd]) hn]
  simp only [pushEscaped_phase]

@[simp] theorem push_phase (c : Char) : (q.push c).phase = .plain := rfl

@[simp] theorem push_chars (c : Char) : (q.push c).chars = c :: q.chars := rfl

@[simp] theorem push_stray (c : Char) : (q.push c).stray = q.stray := rfl

@[simp] theorem push_withPhase (phase : QuotationPhase) (c : Char) :
    push { q with phase := phase } c = q.push c := rfl

theorem scan_code (hp : q.phase = .plain) {digits : Text} {n : Nat} (h) (us : List StringUnit) :
    q.scan strict ((StringUnit.texts (.code digits n h :: us)).toPieces ++ ps) =
      q.pushEscaped strict none n >>= fun q =>
        q.scan strict ((StringUnit.texts us).toPieces ++ ps) := by
  have hdigits : q.scan strict ((StringUnit.texts (.code digits n h :: us)).toPieces ++ ps) =
      { q with phase := .hex none [] }.scan strict
        (digits.toPieces ++ ((StringUnit.texts us).toPieces ++ ps)) := by
    simp [StringUnit.text, scan_slash strict q _ hp, scan, step]
  rw [hdigits, scan_hex strict _ _ rfl h]
  simp only [pushEscaped_phase]

theorem scan_pair {lead : Nat} (hp : q.phase = .pair lead) {digits : Text} {n : Nat} (h)
    (us : List StringUnit) :
    q.scan strict ((StringUnit.texts (.code digits n h :: us)).toPieces ++ ps) =
      q.pushEscaped strict (some lead) n >>= fun q =>
        q.scan strict ((StringUnit.texts us).toPieces ++ ps) := by
  have hdigits : q.scan strict ((StringUnit.texts (.code digits n h :: us)).toPieces ++ ps) =
      { q with phase := .hex (some lead) [] }.scan strict
        (digits.toPieces ++ ((StringUnit.texts us).toPieces ++ ps)) := by
    simp [StringUnit.text, scan, step, hp]
  rw [hdigits, scan_hex strict _ _ rfl h]
  simp only [pushEscaped_phase]

/-- A lead that no code unit follows is left without its trail. -/
theorem scan_pair_other {lead : Nat} (hp : q.phase = .pair lead) {us : List StringUnit}
    (h : ∀ digits n hn r, us ≠ .code digits n hn :: r) :
    q.scan strict ((StringUnit.texts us).toPieces ++ .char '"' :: ps) =
      .error .unpairedSurrogate := by
  cases us with
  | nil => simp [scan, step, hp]
  | cons u us =>
    cases u with
    | plain c hc => simp [StringUnit.text, scan, step, hp, hc.2.1]
    | short letter c hc =>
      have hu : letter ≠ 'u' := by
        rintro rfl
        simp [unescape?] at hc
      simp [StringUnit.text, scan, step, hp, hu]
    | code digits n hn => exact absurd rfl (h digits n hn us)

theorem pushEscaped_loneTrail {n : Nat} (h : isTrail n) :
    q.pushEscaped true none n = .error .loneSurrogate := by
  simp [pushEscaped, h]

theorem pushEscaped_lead {n : Nat} (ht : ¬ isTrail n) (hl : isLead n) :
    q.pushEscaped true none n = .ok { q with phase := .pair n } := by
  simp [pushEscaped, ht, hl]

theorem pushEscaped_single {n : Nat} (ht : ¬ isTrail n) (hl : ¬ isLead n) :
    q.pushEscaped true none n = .ok (q.push (Char.ofNat n)) := by
  simp [pushEscaped, ht, hl]

theorem pushEscaped_trail (lead : Nat) {n : Nat} (h : isTrail n) :
    q.pushEscaped strict (some lead) n = .ok (q.push (StringUnit.paired lead n)) := by
  simp [pushEscaped, h, StringUnit.paired]

theorem pushEscaped_noTrail (lead : Nat) {n : Nat} (h : ¬ isTrail n) :
    q.pushEscaped strict (some lead) n = .error .loneSurrogate := by
  simp [pushEscaped, h]

/-- A strict scan of a literal decodes it. -/
theorem scan_strict (us : List StringUnit) (hp : q.phase = .plain) (hs : q.stray = false) :
    q.scan true ((StringUnit.texts us).toPieces ++ .char '"' :: ps) =
      (fun t => some (q.chars.reverse ++ t, ps)) <$> StringUnit.decode us := by
  fun_induction StringUnit.decode us generalizing q with
  | case1 => simp [scan_quote true q ps hp hs]
  | case2 c hc us ih =>
    rw [scan_plain true q _ hp hc, ih (q.push c) rfl hs]
    simp
  | case3 letter c hc us ih =>
    rw [scan_short true q _ hp hc, ih (q.push c) rfl hs]
    simp
  | case4 digits n hn us htrail =>
    rw [scan_code true q _ hp hn, pushEscaped_loneTrail q htrail]
    rfl
  | case5 lead n hn hno hlead digits m hm us htrail ih =>
    rw [scan_code true q _ hp hn, pushEscaped_lead q hno hlead, ok_bind, scan_pair true _ _ rfl hm,
      pushEscaped_trail true _ n htrail, ok_bind, push_withPhase, ih (push _ _) rfl hs]
    simp
  | case6 lead n hn hno hlead digits m hm us htrail =>
    rw [scan_code true q _ hp hn, pushEscaped_lead q hno hlead, ok_bind, scan_pair true _ _ rfl hm,
      pushEscaped_noTrail true _ n htrail]
    rfl
  | case7 lead n hn us hno hlead hother =>
    rw [scan_code true q _ hp hn, pushEscaped_lead q hno hlead, ok_bind,
      scan_pair_other true _ _ rfl hother]
    rfl
  | case8 digits n hn us hno hlead ih =>
    rw [scan_code true q _ hp hn, pushEscaped_single q hno hlead, ok_bind, ih (push _ _) rfl hs]
    simp

/-- A lax scan goes through all units. -/
theorem scan_units_lax (us : List StringUnit) (hp : q.phase = .plain) : ∃ r : Quotation, r.phase = .plain ∧
    ∀ ps, q.scan false ((StringUnit.texts us).toPieces ++ ps) = r.scan false ps := by
  induction us generalizing q with
  | nil => exact ⟨q, hp, fun _ => rfl⟩
  | cons u us ih =>
    cases u with
    | plain c hc =>
      obtain ⟨r, hr, hscan⟩ := ih (q := q.push c) rfl
      exact ⟨r, hr, fun ps => (scan_plain false q ps hp hc us).trans (hscan ps)⟩
    | short letter c hc =>
      obtain ⟨r, hr, hscan⟩ := ih (q := q.push c) rfl
      exact ⟨r, hr, fun ps => (scan_short false q ps hp hc us).trans (hscan ps)⟩
    | code digits n hn =>
      obtain ⟨r, hr, hscan⟩ := ih (q := q.push (Char.ofNat n)) rfl
      exact ⟨r, hr, fun ps => (scan_code false q ps hp hn us).trans (hscan ps)⟩

/-- A lax scan comes to the closing quote of every literal. -/
theorem scan_lax (us : List StringUnit) (hp : q.phase = .plain) :
    ∃ t, q.scan false ((StringUnit.texts us).toPieces ++ .char '"' :: ps) = .ok (some (t, ps)) := by
  obtain ⟨r, hr, hscan⟩ := scan_units_lax q us hp
  exact ⟨r.chars.reverse, by simp [hscan, scan, step, hr]⟩

/-- The pieces of the unit that is being read. -/
def pending : QuotationPhase → List Piece
  | .plain => []
  | .escape => [.char '\\']
  | .hex _ seen => .char '\\' :: .char 'u' :: seen.reverse
  | .pair _ => []
  | .pairEscape _ => [.char '\\']

theorem pending_pushEscaped {q r : Quotation} {lead : Option Nat} {n : Nat}
    (h : q.pushEscaped strict lead n = .ok r) : pending r.phase = [] := by
  cases lead with
  | some lead =>
    by_cases ht : isTrail n = true
    · rw [pushEscaped_trail strict q lead ht] at h
      cases h
      rfl
    · rw [pushEscaped_noTrail strict q lead ht] at h
      contradiction
  | none =>
    simp only [pushEscaped] at h
    split at h
    · contradiction
    split at h <;> (cases h; rfl)

/-- A character closes the string, goes on with a unit or completes one. -/
theorem step_char {q : Quotation} {c : Char} {s : Step} (h : q.step strict (.char c) = .ok s) :
    (∃ t, s = .closed t ∧ pending q.phase = [] ∧ c = '"') ∨
    ∃ r, s = .next r ∧ (pending r.phase = pending q.phase ++ [.char c] ∨
      pending r.phase = [] ∧ ∃ u : StringUnit, u.text.toPieces = pending q.phase ++ [.char c]) := by
  cases hp : q.phase with
  | plain =>
    simp only [step, hp] at h
    split at h
    · next hc =>
      cases hc
      split at h
      · contradiction
      · cases h
        exact Or.inl ⟨_, rfl, rfl, rfl⟩
    · next hc =>
      cases hc
      cases h
      exact Or.inr ⟨_, rfl, Or.inl rfl⟩
    · next d hquote hslash hc =>
      cases hc
      split at h
      · contradiction
      · next hlow =>
        cases h
        have hd : c ≠ '"' ∧ c ≠ '\\' ∧ 0x20 ≤ c.toNat :=
          ⟨fun h => hquote (by rw [h]), fun h => hslash (by rw [h]), by omega⟩
        exact Or.inr ⟨_, rfl, Or.inr ⟨rfl, .plain c hd, rfl⟩⟩
    · contradiction
  | escape =>
    simp only [step, hp] at h
    split at h
    · next hc =>
      cases hc
      cases h
      exact Or.inr ⟨_, rfl, Or.inl rfl⟩
    · next d hu hc =>
      cases hc
      split at h
      · next e he =>
        cases h
        exact Or.inr ⟨_, rfl, Or.inr ⟨rfl, .short c e he, rfl⟩⟩
      · contradiction
    · contradiction
  | hex lead seen =>
    simp only [step, hp] at h
    split at h
    · cases h
      exact Or.inr ⟨_, rfl, Or.inl (by simp [pending])⟩
    · split at h
      · next n hn =>
        obtain ⟨r, hr, rfl⟩ := map_eq_ok.mp h
        obtain ⟨a, b, d, e, _, _, _, _, hds, -⟩ := hex?_eq_some hn
        have hdigits : hex? (toPieces [a, b, d, e]) = some n := by rw [← hn, hds]; rfl
        refine Or.inr ⟨r, rfl, Or.inr ⟨pending_pushEscaped strict hr, .code _ n hdigits, ?_⟩⟩
        rw [List.reverse_cons] at hds
        simp [StringUnit.text, pending, hds]
      · contradiction
  | pair lead =>
    simp only [step, hp] at h
    split at h
    · next hc =>
      cases hc
      cases h
      exact Or.inr ⟨_, rfl, Or.inl rfl⟩
    · contradiction
  | pairEscape lead =>
    simp only [step, hp] at h
    split at h
    · next hc =>
      cases hc
      cases h
      exact Or.inr ⟨_, rfl, Or.inl rfl⟩
    · contradiction

end Quotation
end ManPage.Json
