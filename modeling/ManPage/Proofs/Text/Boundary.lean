import ManPage.Proofs.Text.Utf8

/-! # Cutting bytes

Where bytes are cut between two of their pieces, each part has its own pieces. When two byte strings are
put together a character may arise from the end of the one and the start of the other, but not if one of
them has an ASCII character there.
-/
namespace ManPage.Text
namespace Utf8
open String (utf8EncodeChar length_utf8EncodeChar)

/-! ## The first piece -/

section
variable {n : Nat} {x y bytes : List UInt8} {c : Char}

theorem charOf?_congr {m : Nat} (h : x.take n = y.take m) : charOf? n x = charOf? m y := by
  rw [charOf?, charOf?, h]

theorem charOf?_append (h : n ≤ x.length) (y : List UInt8) : charOf? n (x ++ y) = charOf? n x :=
  charOf?_congr (List.take_append_of_le_length h)

theorem first?_eq_none : first? bytes = none ↔ ∀ n ∈ [1, 2, 3, 4], charOf? n bytes = none := by
  simp only [first?, List.findSome?_eq_none_iff, Option.map_eq_none_iff]

theorem first?_eq_some (h : first? bytes = some (c, n)) : charOf? n bytes = some c ∧ n ∈ [1, 2, 3, 4] := by
  obtain ⟨m, hm, hfound⟩ := List.exists_of_findSome?_eq_some h
  obtain ⟨d, hd, heq⟩ := Option.map_eq_some_iff.mp hfound
  cases heq
  exact ⟨hd, hm⟩

/-- The bytes of the first character, and those behind it. -/
theorem eq_append_of_first? {b : UInt8} {r : List UInt8} (h : first? (b :: r) = some (c, n)) :
    b :: r = utf8EncodeChar c ++ r.drop (n - 1) := by
  obtain ⟨hc, hn⟩ := first?_eq_some h
  have hpos : n ≠ 0 := by
    rintro rfl
    simp at hn
  obtain ⟨k, rfl⟩ := Nat.exists_eq_succ_of_ne_zero hpos
  rw [encodeChar_eq_take hc, Nat.succ_sub_one, List.take_succ_cons, List.cons_append,
    List.take_append_drop]

/-- A byte that starts no character starts none either if the bytes behind it are cut. -/
theorem first?_of_append (hx : x ≠ []) (h : first? (x ++ y) = none) : first? x = none := by
  rw [first?_eq_none] at h ⊢
  intro n hn
  by_cases hle : n ≤ x.length
  · rw [← charOf?_append hle y, h n hn]
  · have hpos := List.length_pos_iff.mpr hx
    have hmem : x.length ∈ [1, 2, 3, 4] := by
      simp only [List.mem_cons, List.not_mem_nil, or_false] at hn ⊢
      omega
    have hall : x.take n = x.take x.length := by
      rw [List.take_length, List.take_of_length_le (Nat.le_of_not_le hle)]
    rw [charOf?_congr hall, ← charOf?_append (Nat.le_refl _) y, h _ hmem]

/-- The bytes behind the first one of a character are no ASCII characters. -/
theorem le_of_mem_tail_encodeChar {b : UInt8} (h : b ∈ (utf8EncodeChar c).tail) : 128 ≤ b.toNat := by
  rw [String.utf8EncodeChar.eq_1] at h
  generalize c.val.toNat = v at h
  by_cases h1 : v ≤ 127
  · simp [h1] at h
  by_cases h2 : v ≤ 2047
  · simp only [h1, h2, if_true, if_false, List.tail_cons, List.mem_cons, List.not_mem_nil, or_false] at h
    rcases h with rfl
    rw [UInt8.toNat_ofNat']
    omega
  by_cases h3 : v ≤ 65535
  · simp only [h1, h2, h3, if_true, if_false, List.tail_cons, List.mem_cons, List.not_mem_nil,
      or_false] at h
    rcases h with rfl | rfl <;> rw [UInt8.toNat_ofNat'] <;> omega
  · simp only [h1, h2, h3, if_false, List.tail_cons, List.mem_cons, List.not_mem_nil, or_false] at h
    rcases h with rfl | rfl | rfl <;> rw [UInt8.toNat_ofNat'] <;> omega

/-- A byte that starts no character starts none with an ASCII character behind it. -/
theorem first?_append_ascii {b : UInt8} (hb : b.toNat < 128) (hx : x ≠ []) (h : first? x = none)
    (y : List UInt8) : first? (x ++ b :: y) = none := by
  rw [first?_eq_none] at h ⊢
  intro n hn
  by_cases hle : n ≤ x.length
  · rw [charOf?_append hle, h n hn]
  rw [Option.eq_none_iff_forall_ne_some]
  intro d hd
  have htake := encodeChar_eq_take hd
  cases x with
  | nil => exact hx rfl
  | cons a x =>
    obtain ⟨k, rfl⟩ : ∃ k, n = x.length + (k + 1) + 1 := by
      rw [List.length_cons] at hle
      exact ⟨n - x.length - 2, by omega⟩
    have hmem : b ∈ (utf8EncodeChar d).tail := by
      rw [htake, List.cons_append, List.take_succ_cons, List.tail_cons, List.take_length_add_append,
        List.take_succ_cons]
      exact List.mem_append_right _ List.mem_cons_self
    have hle := le_of_mem_tail_encodeChar hmem
    omega

end

/-! ## Parts and their pieces -/

section
variable {c : Char} {b x y : List UInt8} {ps qs : List Piece}

theorem pieces_stray {a : UInt8} (h : first? (a :: x) = none) : pieces (a :: x) = .stray a :: pieces x := by
  rw [pieces, h]

theorem pieces_encode_append (t : Text) (x : List UInt8) :
    pieces (encode t ++ x) = t.toPieces ++ pieces x := by
  induction t with
  | nil => rfl
  | cons c t ih =>
    rw [encode, List.flatMap_cons, List.append_assoc, pieces_encodeChar, ← encode, ih, toPieces_cons,
      List.cons_append]

/-- Bytes can be cut between any two of their pieces. -/
theorem exists_of_pieces_append (h : pieces b = ps ++ qs) :
    ∃ x y, b = x ++ y ∧ pieces x = ps ∧ pieces y = qs := by
  induction ps generalizing b with
  | nil => exact ⟨[], b, rfl, by rw [pieces], h⟩
  | cons p ps ih =>
    rw [List.cons_append] at h
    cases b with
    | nil =>
      rw [pieces] at h
      contradiction
    | cons a r =>
      cases hfirst : first? (a :: r) with
      | some found =>
        obtain ⟨c, n⟩ := found
        have hsplit := eq_append_of_first? hfirst
        rw [hsplit, pieces_encodeChar] at h
        obtain ⟨rfl, htail⟩ := List.cons.inj h
        obtain ⟨x, y, hrest, rfl, rfl⟩ := ih htail
        exact ⟨utf8EncodeChar c ++ x, y, by rw [hsplit, hrest, List.append_assoc],
          pieces_encodeChar c x, rfl⟩
      | none =>
        rw [pieces_stray hfirst] at h
        obtain ⟨rfl, htail⟩ := List.cons.inj h
        obtain ⟨x, y, rfl, rfl, rfl⟩ := ih htail
        exact ⟨a :: x, y, rfl,
          pieces_stray (first?_of_append (List.cons_ne_nil a x) hfirst), rfl⟩

theorem encodeChar_of_pieces (h : pieces b = .char c :: qs) :
    ∃ y, b = utf8EncodeChar c ++ y ∧ pieces y = qs := by
  cases b with
  | nil =>
    rw [pieces] at h
    contradiction
  | cons a r =>
    cases hfirst : first? (a :: r) with
    | some found =>
      obtain ⟨d, n⟩ := found
      have hsplit := eq_append_of_first? hfirst
      rw [hsplit, pieces_encodeChar] at h
      obtain ⟨hd, htail⟩ := List.cons.inj h
      cases hd
      exact ⟨_, hsplit, htail⟩
    | none =>
      rw [pieces_stray hfirst] at h
      injection (List.cons.inj h).1

theorem exists_ascii (hc : c.toNat < 128) : ∃ a : UInt8, a.toNat < 128 ∧ utf8EncodeChar c = [a] := by
  have hval : c.val.toNat ≤ 127 := Nat.le_of_lt_succ hc
  refine ⟨UInt8.ofNat c.val.toNat, ?_, ?_⟩
  · rw [UInt8.toNat_ofNat']
    omega
  · rw [String.utf8EncodeChar.eq_1]
    simp only [hval, if_true]

/-- In front of an ASCII character no other one begins. -/
theorem pieces_append_ascii (hc : c.toNat < 128) (x y : List UInt8) :
    pieces (x ++ (utf8EncodeChar c ++ y)) = pieces x ++ .char c :: pieces y := by
  fun_induction pieces x with
  | case1 => rw [List.nil_append, pieces_encodeChar, List.nil_append]
  | case2 a r d n hfirst ih =>
    rw [eq_append_of_first? hfirst, List.append_assoc, pieces_encodeChar, ih, List.cons_append]
  | case3 a r hfirst ih =>
    obtain ⟨b, hb, hencode⟩ := exists_ascii hc
    have hnone := first?_append_ascii hb (List.cons_ne_nil a r) hfirst y
    rw [hencode] at ih ⊢
    rw [List.cons_append] at hnone ⊢
    exact (pieces_stray hnone).trans (congrArg _ ih)

theorem pieces_append_of_head (hc : c.toNat < 128) (h : pieces y = .char c :: qs) (x : List UInt8) :
    pieces (x ++ y) = pieces x ++ pieces y := by
  obtain ⟨z, rfl, rfl⟩ := encodeChar_of_pieces h
  rw [pieces_append_ascii hc, pieces_encodeChar]

theorem pieces_append_of_last (hc : c.toNat < 128) (h : pieces x = ps ++ [.char c]) (y : List UInt8) :
    pieces (x ++ y) = pieces x ++ pieces y := by
  obtain ⟨front, last, rfl, rfl, hlast⟩ := exists_of_pieces_append h
  obtain ⟨z, rfl, hz⟩ := encodeChar_of_pieces hlast
  rw [h, List.append_assoc, List.append_assoc, pieces_append_ascii hc, List.append_assoc]
  cases z with
  | nil => rfl
  | cons a z =>
    cases hfirst : first? (a :: z) with
    | some found =>
      obtain ⟨d, n⟩ := found
      rw [eq_append_of_first? hfirst, pieces_encodeChar] at hz
      contradiction
    | none =>
      rw [pieces_stray hfirst] at hz
      contradiction

end

end Utf8
end ManPage.Text
