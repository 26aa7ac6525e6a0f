import ManPage.Text.Utf8

/-! # The bytes of a text

The UTF-8 form of a text is read as that text. No encoded character is the start of another one, so that
the first piece of the bytes is found only where the first character ends.
-/
namespace ManPage.Text
namespace Utf8
open String (utf8EncodeChar length_utf8EncodeChar)

/-- The bytes of a character are not the start of those of another one. -/
theorem eq_of_encodeChar_append {c d : Char} {r s : List UInt8}
    (h : utf8EncodeChar c ++ r = utf8EncodeChar d ++ s) : c = d := by
  have hdecode (e : Char) (t : List UInt8) :
      (utf8EncodeChar e ++ t).toByteArray.utf8DecodeChar? 0 = some e := by
    rw [List.toByteArray_append]
    exact ByteArray.utf8DecodeChar?_utf8EncodeChar_append
  have hc := hdecode c r
  rw [h, hdecode d s] at hc
  exact (Option.some.inj hc).symm

section CodePoint
variable (a b c d : UInt8)

theorem codePoint_one : codePoint [a] = a.toNat := rfl

theorem codePoint_two : codePoint [a, b] = (a.toNat - 192) * 64 + (b.toNat - 128) := rfl

theorem codePoint_three :
    codePoint [a, b, c] = (a.toNat - 224) * 4096 + (b.toNat - 128) * 64 + (c.toNat - 128) := rfl

theorem codePoint_four : codePoint [a, b, c, d] =
    (a.toNat - 240) * 262144 + (b.toNat - 128) * 4096 + (c.toNat - 128) * 64 + (d.toNat - 128) := by
  delta codePoint
  simp only

end CodePoint

theorem codePoint_encodeChar (c : Char) : codePoint (utf8EncodeChar c) = c.toNat := by
  have hc : c.val.toNat < 0x110000 := by
    have hvalid := c.valid
    simp only [UInt32.isValidChar, Nat.isValidChar] at hvalid
    omega
  have hval : c.toNat = c.val.toNat := rfl
  rw [hval, String.utf8EncodeChar.eq_1]
  generalize c.val.toNat = v at hc ⊢
  by_cases h1 : v ≤ 127
  · simp only [h1, if_true, codePoint_one, UInt8.toNat_ofNat']
    omega
  by_cases h2 : v ≤ 2047
  · simp only [h1, h2, if_true, if_false, codePoint_two, UInt8.toNat_ofNat']
    omega
  by_cases h3 : v ≤ 65535
  · simp only [h1, h2, h3, if_true, if_false, codePoint_three, UInt8.toNat_ofNat']
    omega
  · simp only [h1, h2, h3, if_false, codePoint_four, UInt8.toNat_ofNat']
    omega

theorem encodeChar_eq_take {n : Nat} {bytes : List UInt8} {d : Char} (h : charOf? n bytes = some d) :
    utf8EncodeChar d = bytes.take n := by
  simp only [charOf?] at h
  split at h
  · cases h
    assumption
  · contradiction

theorem charOf?_encodeChar (c : Char) (r : List UInt8) :
    charOf? c.utf8Size (utf8EncodeChar c ++ r) = some c := by
  have htake : (utf8EncodeChar c ++ r).take c.utf8Size = utf8EncodeChar c :=
    List.take_left' (length_utf8EncodeChar c)
  simp only [charOf?, htake, codePoint_encodeChar, Char.ofNat_toNat, if_true]

theorem charOf?_of_lt {c : Char} {n : Nat} (h : n < c.utf8Size) (r : List UInt8) :
    charOf? n (utf8EncodeChar c ++ r) = none := by
  rw [Option.eq_none_iff_forall_ne_some]
  intro d hd
  have htake := encodeChar_eq_take hd
  have hsame : utf8EncodeChar d ++ (utf8EncodeChar c ++ r).drop n = utf8EncodeChar c ++ r := by
    rw [htake, List.take_append_drop]
  have hlength := congrArg List.length htake
  rw [eq_of_encodeChar_append hsame, List.length_take, List.length_append, length_utf8EncodeChar]
    at hlength
  omega

theorem first?_encodeChar (c : Char) (r : List UInt8) :
    first? (utf8EncodeChar c ++ r) = some (c, c.utf8Size) := by
  have hfound := charOf?_encodeChar c r
  have hbefore := fun n (h : n < c.utf8Size) => charOf?_of_lt h r
  have hsize : c.utf8Size = 1 ∨ c.utf8Size = 2 ∨ c.utf8Size = 3 ∨ c.utf8Size = 4 := by
    have hpos := c.utf8Size_pos
    have hle := c.utf8Size_le_four
    omega
  rcases hsize with h | h | h | h <;> rw [h] at hfound hbefore <;>
    simp [first?, List.findSome?, hfound, hbefore, h]

theorem pieces_encodeChar (c : Char) (r : List UInt8) :
    pieces (utf8EncodeChar c ++ r) = .char c :: pieces r := by
  cases hbytes : utf8EncodeChar c with
  | nil =>
    have hlength := length_utf8EncodeChar c
    rw [hbytes] at hlength
    exact absurd hlength.symm (Nat.pos_iff_ne_zero.mp c.utf8Size_pos)
  | cons b bs =>
    have hfirst := first?_encodeChar c r
    have hlength := length_utf8EncodeChar c
    rw [hbytes] at hfirst hlength
    have hrest : (bs ++ r).drop (c.utf8Size - 1) = r := by
      rw [← hlength, List.length_cons, Nat.add_sub_cancel, List.drop_left]
    rw [List.cons_append] at hfirst ⊢
    rw [pieces, hfirst]
    simp only [hrest]

/-- The pieces of an encoded text are its characters. -/
theorem pieces_encode (t : Text) : pieces (encode t) = t.toPieces := by
  induction t with
  | nil => rw [encode, List.flatMap_nil, pieces, toPieces_nil]
  | cons c t ih => rw [encode, List.flatMap_cons, pieces_encodeChar, ← encode, ih, toPieces_cons]

end Utf8
end ManPage.Text
