import Mathlib.Data.Set.Function
import ManPage.Proofs.Text.Escape
import ManPage.Text.Utf8

/-! # Undoing escapes

A text is safe if it can be cut, from left to right, into escaped characters and characters that need no
escape. Every text is escaped to a safe one and had back from it, and every safe text is the escaped form of
exactly one text. Whether a text is left as it is shows in its bytes, and nothing but the two escaped
characters has a byte that looks like one of them.
-/
namespace ManPage.Text
open String (utf8EncodeChar)

/-- Drops the backslash of each escape. A backslash at the very end escapes nothing. -/
def unescape : Text → Text
  | '\\' :: c :: t => c :: unescape t
  | c :: t => c :: unescape t
  | [] => []

/-- The text is made of escaped characters and of characters that need no escape. -/
inductive Safe : Text → Prop
  | nil : Safe []
  | plain {c : Char} {t : Text} (hc : ¬ needsEscape c) (h : Safe t) : Safe (c :: t)
  | escaped {c : Char} {t : Text} (hc : needsEscape c) (h : Safe t) : Safe ('\\' :: c :: t)

theorem ne_of_not_needsEscape {c : Char} (h : ¬ needsEscape c) : c ≠ '\\' ∧ c ≠ '-' := by
  rwa [needsEscape_iff, not_or] at h

theorem unescape_plain {c : Char} (h : c ≠ '\\') (t : Text) : unescape (c :: t) = c :: unescape t := by
  rw [unescape]
  intro d r hc
  exact absurd hc h

theorem safe_escapeEach (t : Text) : Safe (escapeEach t) := by
  induction t with
  | nil => exact .nil
  | cons c t ih =>
    rw [escapeEach]
    split
    · exact .escaped ‹_› ih
    · exact .plain ‹_› ih

theorem unescape_escapeEach (t : Text) : unescape (escapeEach t) = t := by
  induction t with
  | nil => rfl
  | cons c t ih =>
    rw [escapeEach]
    split
    · rw [unescape, ih]
    · rename_i hc
      rw [unescape_plain (ne_of_not_needsEscape hc).1, ih]

theorem Safe.escapeEach_unescape {t : Text} (h : Safe t) : escapeEach (unescape t) = t := by
  induction h with
  | nil => rfl
  | plain hc h ih => rw [unescape_plain (ne_of_not_needsEscape hc).1, escapeEach, if_neg hc, ih]
  | escaped hc h ih => rw [unescape, escapeEach, if_pos hc, ih]

theorem safe_escape (t : Text) : Safe (escape t) := by
  rw [escape_eq]
  exact safe_escapeEach t

@[simp] theorem unescape_escape (t : Text) : unescape (escape t) = t := by
  rw [escape_eq, unescape_escapeEach]

theorem Safe.escape_unescape {t : Text} (h : Safe t) : escape (unescape t) = t := by
  rw [escape_eq, h.escapeEach_unescape]

/-- Safe texts are those that are had back from what they stand for. -/
theorem safe_iff {t : Text} : Safe t ↔ escape (unescape t) = t := by
  constructor
  · exact Safe.escape_unescape
  · intro h
    rw [← h]
    exact safe_escape _

instance : DecidablePred Safe := fun _ => decidable_of_iff _ safe_iff.symm

/-! ## Runs of backslashes -/

/-- The number of backslashes at the end of a text. -/
def backslashes (t : Text) : Nat := (t.reverse.takeWhile (· == '\\')).length

theorem backslashes_concat (t : Text) : backslashes (t ++ ['\\']) = backslashes t + 1 := by
  simp [backslashes]

theorem backslashes_of_ne {c : Char} (h : c ≠ '\\') (t : Text) : backslashes (t ++ [c]) = 0 := by
  simp [backslashes, h]

/-- Every hyphen, and of the characters that are no backslash only the hyphen, has an odd run of
backslashes in front of it. -/
def HyphensOnly (t : Text) : Prop :=
  ∀ a c b, t = a ++ c :: b → c ≠ '\\' → (backslashes a % 2 = 1 ↔ c = '-')

section
variable {t : Text} {c : Char}

theorem HyphensOnly.concat (h : HyphensOnly t)
    (hc : c ≠ '\\' → (backslashes t % 2 = 1 ↔ c = '-')) : HyphensOnly (t ++ [c]) := by
  intro a d b hcut
  rcases List.eq_nil_or_concat' b with rfl | ⟨r, e, rfl⟩
  · obtain ⟨rfl, hlast⟩ := List.append_inj' hcut rfl
    obtain rfl := (List.cons.inj hlast).1
    exact hc
  · rw [← List.cons_append, ← List.append_assoc] at hcut
    exact h a d r (List.append_inj' hcut rfl).1

/-- A backslash is only written in front of an escaped character, and with it the run is even again. -/
theorem hyphensOnly_escapeEach (t : Text) :
    HyphensOnly (escapeEach t) ∧ backslashes (escapeEach t) % 2 = 0 := by
  induction t using List.reverseRecOn with
  | nil =>
    refine ⟨fun a c b hcut => ?_, rfl⟩
    cases a <;> contradiction
  | append_singleton t c ih =>
    obtain ⟨hyphens, heven⟩ := ih
    rw [escapeEach_append, escapeEach]
    split
    · rename_i hc
      have hback := hyphens.concat (c := '\\') (absurd rfl)
      have hpair : escapeEach t ++ '\\' :: c :: escapeEach [] = escapeEach t ++ ['\\'] ++ [c] := by
        rw [List.append_assoc]
        rfl
      rw [hpair]
      rcases needsEscape_iff.mp hc with rfl | rfl
      · refine ⟨hback.concat (absurd rfl), ?_⟩
        rw [backslashes_concat, backslashes_concat]
        omega
      · refine ⟨hback.concat fun _ => ?_, ?_⟩
        · rw [backslashes_concat]
          exact iff_of_true (by omega) rfl
        · rw [backslashes_of_ne (by decide)]
    · rename_i hc
      obtain ⟨hback, hyphen⟩ := ne_of_not_needsEscape hc
      refine ⟨hyphens.concat fun _ => iff_of_false (by omega) hyphen, ?_⟩
      exact congrArg (· % 2) (backslashes_of_ne hback _)

end

/-! ## Lengths -/

theorem length_escapeEach (t : Text) :
    (escapeEach t).length = t.length + t.countP needsEscape := by
  induction t with
  | nil => rfl
  | cons c t ih =>
    rw [escapeEach, List.length_cons, List.countP_cons]
    split
    · rw [List.length_cons, List.length_cons, ih]
      omega
    · rw [List.length_cons, ih]
      omega

/-- A backslash is one byte. -/
theorem length_encode_escapeEach (t : Text) :
    (encode (escapeEach t)).length = (encode t).length + t.countP needsEscape := by
  have hbackslash : (utf8EncodeChar '\\').length = 1 := rfl
  unfold encode
  induction t with
  | nil => rfl
  | cons c t ih =>
    rw [escapeEach, List.flatMap_cons, List.countP_cons, List.length_append]
    split
    · rw [List.flatMap_cons, List.flatMap_cons, List.length_append, List.length_append, ih, hbackslash]
      omega
    · rw [List.flatMap_cons, List.length_append, ih]
      omega

/-! ## Bytes -/

/-- A byte below 128 is a character of its own. -/
theorem toNat_of_mem_encodeChar {c : Char} {b : UInt8} (hb : b.toNat < 128) (h : b ∈ utf8EncodeChar c) :
    c.toNat = b.toNat := by
  have hval : c.toNat = c.val.toNat := rfl
  rw [hval]
  rw [String.utf8EncodeChar.eq_1] at h
  generalize c.val.toNat = v at h ⊢
  by_cases h1 : v ≤ 127
  · simp only [h1, if_true, List.mem_singleton] at h
    rw [h, UInt8.toNat_ofNat']
    omega
  by_cases h2 : v ≤ 2047
  · simp only [h1, h2, if_true, if_false, List.mem_cons, List.not_mem_nil, or_false] at h
    rcases h with rfl | rfl <;> rw [UInt8.toNat_ofNat'] at hb <;> omega
  by_cases h3 : v ≤ 65535
  · simp only [h1, h2, h3, if_true, if_false, List.mem_cons, List.not_mem_nil, or_false] at h
    rcases h with rfl | rfl | rfl <;> rw [UInt8.toNat_ofNat'] at hb <;> omega
  · simp only [h1, h2, h3, if_false, List.mem_cons, List.not_mem_nil, or_false] at h
    rcases h with rfl | rfl | rfl | rfl <;> rw [UInt8.toNat_ofNat'] at hb <;> omega

theorem mem_encode_iff {d : Char} {b : UInt8} (hb : b.toNat < 128) (hd : utf8EncodeChar d = [b]) (t : Text) :
    b ∈ encode t ↔ d ∈ t := by
  have hself : b ∈ utf8EncodeChar d := by
    rw [hd]
    exact List.mem_singleton_self b
  rw [encode, List.mem_flatMap]
  constructor
  · rintro ⟨c, hc, hmem⟩
    have hsame := (toNat_of_mem_encodeChar hb hmem).trans (toNat_of_mem_encodeChar hb hself).symm
    rwa [← Char.toNat_inj.mp hsame]
  · intro hmem
    exact ⟨d, hmem, hself⟩

theorem isPlain_iff_bytes {t : Text} : isPlain t ↔ 0x5C ∉ encode t ∧ 0x2D ∉ encode t := by
  rw [isPlain, encode, List.all_eq_true]
  simp only [Bool.and_eq_true, bne_iff_ne]
  constructor
  · intro h
    exact ⟨fun hmem => (h _ hmem).1 rfl, fun hmem => (h _ hmem).2 rfl⟩
  · rintro ⟨hback, hyphen⟩ b hb
    refine ⟨?_, ?_⟩
    · rintro rfl
      exact hback hb
    · rintro rfl
      exact hyphen hb

/-- The bytes tell whether there is anything to escape. -/
theorem isPlain_iff {t : Text} : isPlain t ↔ '\\' ∉ t ∧ '-' ∉ t := by
  have hback : utf8EncodeChar '\\' = [0x5C] := rfl
  have hyphen : utf8EncodeChar '-' = [0x2D] := rfl
  rw [isPlain_iff_bytes, mem_encode_iff (by decide) hback, mem_encode_iff (by decide) hyphen]

/-! ## Texts with nothing to be escaped -/

theorem escape_eq_self_iff {t : Text} : escape t = t ↔ '\\' ∉ t ∧ '-' ∉ t := by
  constructor
  · intro h
    have hlength := length_escapeEach t
    rw [← escape_eq, h, Nat.left_eq_add, List.countP_eq_zero] at hlength
    simp only [needsEscape_iff, not_or] at hlength
    exact ⟨fun hback => (hlength _ hback).1 rfl, fun hyphen => (hlength _ hyphen).2 rfl⟩
  · intro h
    exact if_pos (isPlain_iff.mpr h)

/-- What becomes longer by its escapes and shorter at its ends is never what it was. -/
theorem escape_trim_eq_self_iff {t : Text} : escape (trim t) = t ↔ escape t = t ∧ trim t = t := by
  constructor
  · intro h
    have htrim : trim t = t := by
      calc trim t = trim (escape (trim t)) := by rw [h]
        _ = escape (trim (trim t)) := trim_escape _
        _ = escape (trim t) := by rw [trim_trim]
        _ = t := h
    rw [htrim] at h
    exact ⟨h, htrim⟩
  · rintro ⟨hescape, htrim⟩
    rw [htrim, hescape]

/-! ## All texts and all safe texts -/

/-- Escaping is a bijection between the texts and the safe ones, and its inverse drops the backslash of each
escape. No hyphen stands alone in an escaped text and no backslash escapes anything else; there is one
character, and one byte, more for each escaped one; pieces may be escaped one by one; and a text is left
as it is if none of its bytes is a backslash or a hyphen, which is what escaping it character by character
would give. -/
theorem escape_bijOn :
    Set.BijOn escape Set.univ {t | Safe t} ∧ Function.Injective escape ∧
    (∀ s, Safe (escape s) ∧ unescape (escape s) = s) ∧
    (∀ t, Safe t → escape (unescape t) = t) ∧
    (∀ s, HyphensOnly (escape s) ∧ backslashes (escape s) % 2 = 0) ∧
    (∀ s, (escape s).length = s.length + s.countP needsEscape ∧
      (encode (escape s)).length = (encode s).length + s.countP needsEscape) ∧
    (∀ s t, escape (s ++ t) = escape s ++ escape t) ∧
    ∀ s, (isPlain s ↔ 0x5C ∉ encode s ∧ 0x2D ∉ encode s) ∧ (isPlain s ↔ '\\' ∉ s ∧ '-' ∉ s) ∧
      (isPlain s → escape s = s) ∧ escape s = escapeEach s := by
  have hinjective : Function.Injective escape := Function.LeftInverse.injective unescape_escape
  have hbijection : Set.BijOn escape Set.univ {t | Safe t} := by
    refine ⟨fun s _ => safe_escape s, hinjective.injOn, ?_⟩
    intro t ht
    exact ⟨unescape t, trivial, ht.escape_unescape⟩
  refine ⟨hbijection, hinjective, fun s => ⟨safe_escape s, unescape_escape s⟩,
    fun t => Safe.escape_unescape, ?_, ?_, escape_append, ?_⟩
  · intro s
    rw [escape_eq]
    exact hyphensOnly_escapeEach s
  · intro s
    rw [escape_eq]
    exact ⟨length_escapeEach s, length_encode_escapeEach s⟩
  · intro s
    exact ⟨isPlain_iff_bytes, isPlain_iff, fun h => if_pos h, escape_eq s⟩

/-- A backslash and a hyphen are two pairs; a hyphen behind a pair of backslashes stands alone. -/
example : Safe "\\\\\\-".toList ∧ ¬ Safe "\\\\-".toList ∧ ¬ Safe "\\n".toList := by decide

end ManPage.Text
