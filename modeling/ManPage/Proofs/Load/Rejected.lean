import ManPage.Proofs.Load.SideBySide
import ManPage.Proofs.Load.Truncated

/-! # Rejected blocks

A block of a document that is rejected is rejected by its own text. Its brackets say where it ends, and
by then a reader that goes through it has failed, and nothing that follows matters any more. A fault of
the text is found where it is found in any JSON value, unless the tag of the block is wrong before that.
One thing only is still open at the end: an escape without its digits takes four bytes, wherever they
come from.
-/
namespace ManPage.Load
open Json Outcome
open Text (Piece encode toPieces toPieces_nil toPieces_cons toPieces_append)

variable {g g' : Goal}

/-! ## Escapes that can only fail -/

/-- The reader is in an escape of which the pieces have been read, latest first. -/
inductive Reader.InEscape (seen : List Piece) : Reader g → Prop
  | string (slot : Slot g) {q : Quotation} {lead : Option Nat} (h : q.phase = .hex lead seen) :
    InEscape seen (.string slot q)
  | key (object : OpenObject g) {q : Quotation} {lead : Option Nat} (h : q.phase = .hex lead seen) :
    InEscape seen (.key object q)

theorem Reader.IsDoomed.inEscape {r : Reader g} (h : r.IsDoomed) : ∃ seen, r.InEscape seen ∧
    Quotation.width seen < 4 ∧ ∃ p ∈ seen, Quotation.pieceDigit? p = none := by
  cases r with
  | between _ | numeral _ _ _ | literal _ _ _ _ => exact absurd h id
  | string slot q =>
    cases hphase : q.phase with
    | hex lead seen =>
      rw [IsDoomed, hphase] at h
      exact ⟨seen, .string slot hphase, h⟩
    | plain | escape | pair _ | pairEscape _ =>
      rw [IsDoomed, hphase] at h
      exact absurd h id
  | key object q =>
    cases hphase : q.phase with
    | hex lead seen =>
      rw [IsDoomed, hphase] at h
      exact ⟨seen, .key object hphase, h⟩
    | plain | escape | pair _ | pairEscape _ =>
      rw [IsDoomed, hphase] at h
      exact absurd h id

/-- An escape with a piece that is no digit goes on to its fourth byte, and fails. -/
theorem Reader.InEscape.step {r : Reader g} {seen : List Piece} (h : r.InEscape seen)
    (hdigit : ∃ p ∈ seen, Quotation.pieceDigit? p = none) (p : Piece) :
    ∃ s : Reader g, s.InEscape (p :: seen) ∧ r.step p =
      if Quotation.width (p :: seen) < 4 then .ok s else fault .invalidEscape := by
  obtain ⟨d, hd, hnone⟩ := hdigit
  cases h with
  | @string slot q lead hphase =>
    refine ⟨.string slot { q with phase := .hex lead (p :: seen) }, .string slot rfl, ?_⟩
    rw [Reader.step, Quotation.step_of_doomed hphase hd hnone p]
    by_cases hwidth : Quotation.width (p :: seen) < 4 <;> simp only [hwidth, if_true, if_false]
  | @key object q lead hphase =>
    refine ⟨.key object { q with phase := .hex lead (p :: seen) }, .key object rfl, ?_⟩
    rw [Reader.step, Quotation.step_of_doomed hphase hd hnone p]
    by_cases hwidth : Quotation.width (p :: seen) < 4 <;> simp only [hwidth, if_true, if_false]

theorem Reader.InEscape.isDoomed {r : Reader g} {seen : List Piece} (h : r.InEscape seen)
    (hwidth : Quotation.width seen < 4) (hdigit : ∃ p ∈ seen, Quotation.pieceDigit? p = none) :
    r.IsDoomed := by
  cases h with
  | string slot hphase | key object hphase =>
    rw [IsDoomed, hphase]
    exact ⟨hwidth, hdigit⟩

theorem Reader.IsDoomed.step {r : Reader g} (h : r.IsDoomed) (p : Piece) :
    (∃ s, r.step p = .ok s ∧ s.IsDoomed) ∨ r.step p = .error (.fault .invalidEscape) := by
  obtain ⟨seen, hseen, -, hdigit⟩ := h.inEscape
  obtain ⟨s, hs, hstep⟩ := hseen.step hdigit p
  rw [hstep]
  split
  · next hwidth =>
    obtain ⟨d, hd, hnone⟩ := hdigit
    exact Or.inl ⟨s, rfl, hs.isDoomed hwidth ⟨d, List.mem_cons_of_mem p hd, hnone⟩⟩
  · exact Or.inr rfl

theorem Reader.not_isDoomed_of_ok {r s : Reader g} {p : Piece} (h : r.step p = .ok s)
    (hs : ¬ s.IsDoomed) : ¬ r.IsDoomed := by
  intro hr
  rcases hr.step p with ⟨x, hx, hdoomed⟩ | hx
  · rw [h] at hx
    cases hx
    exact hs hdoomed
  · rw [h] at hx
    contradiction

theorem Reader.not_isDoomed_of_mismatch {r : Reader g} {p : Piece} {m : Mismatch}
    (h : r.step p = .error (.mismatch m)) : ¬ r.IsDoomed := by
  intro hr
  rcases hr.step p with ⟨x, hx, -⟩ | hx
  · rw [h] at hx
    contradiction
  · rw [h] at hx
    cases hx

/-- The bytes of an escape, by the text of its pieces. -/
theorem width_reverse (w : Text) : Quotation.width w.toPieces.reverse = (encode w).length := by
  have hsum (n : Nat) (ps : List Piece) :
      ps.foldl (fun n p => n + p.width) n = n + (ps.map Piece.width).sum := by
    induction ps generalizing n with
    | nil => rfl
    | cons p ps ih => rw [List.foldl_cons, ih, List.map_cons, List.sum_cons, Nat.add_assoc]
  rw [Quotation.width, hsum, Nat.zero_add, List.map_reverse, List.sum_reverse]
  induction w with
  | nil => rfl
  | cons c w ih =>
    rw [toPieces_cons, List.map_cons, List.sum_cons, ih, encode, encode, List.flatMap_cons,
      List.length_append, String.length_utf8EncodeChar]
    rfl

/-- The escape fails at its fourth byte, or the text ends before that. -/
theorem Reader.InEscape.read {r : Reader g} {w : Text} (h : r.InEscape w.toPieces.reverse)
    (hwidth : (encode w).length < 4)
    (hdigit : ∃ p ∈ w.toPieces.reverse, Quotation.pieceDigit? p = none) (t : Text) :
    r.read t.toPieces = .error (if (encode (w ++ t)).length < 4 then .unfinished .string
      else .fault .invalidEscape) := by
  induction t generalizing r w with
  | nil =>
    rw [List.append_nil, if_pos hwidth]
    cases h <;> rfl
  | cons c t ih =>
    obtain ⟨s, hs, hstep⟩ := h.step hdigit (.char c)
    have hsnoc : Piece.char c :: w.toPieces.reverse = (w ++ [c]).toPieces.reverse := by
      rw [toPieces_append, List.reverse_append]
      rfl
    have hwhole : w ++ c :: t = w ++ [c] ++ t := by
      rw [List.append_assoc, List.singleton_append]
    rw [hsnoc, width_reverse] at hstep
    rw [hsnoc] at hs
    rw [toPieces_cons, read_cons, hstep, hwhole]
    by_cases hnext : (encode (w ++ [c])).length < 4
    · obtain ⟨d, hd, hnone⟩ := hdigit
      rw [if_pos hnext, ok_bind]
      refine ih hs hnext ⟨d, ?_, hnone⟩
      rw [← hsnoc]
      exact List.mem_cons_of_mem _ hd
    · have hlong : ¬ (encode (w ++ [c] ++ t)).length < 4 := by
        rw [encode, List.flatMap_append, List.length_append]
        rw [encode] at hnext
        omega
      rw [if_neg hnext, if_neg hlong]
      rfl

/-- The pieces of the escape that is being read. -/
def Reader.pending : Reader g → List Piece
  | string _ q | key _ q => Quotation.pending q.phase
  | between _ | numeral _ _ _ | literal _ _ _ _ => []

theorem Reader.InEscape.pending {r : Reader g} {seen : List Piece} (h : r.InEscape seen) :
    r.pending = .char '\\' :: .char 'u' :: seen.reverse := by
  cases h with
  | string slot hphase | key object hphase => rw [Reader.pending, hphase, Quotation.pending]

theorem Between.pending_of_step {place : Between g} {c : Char} {r : Reader g}
    (h : place.step (.char c) = .ok r) : r.pending = [] := by
  rcases Between.step_cases h with ⟨b, rfl⟩ | ⟨object, rfl⟩ | ⟨slot, -, hstarts⟩
  · rfl
  · rfl
  · cases hstarts <;> rfl

/-- Inside a string each character completes a unit, or is added to an escape. -/
theorem pending_of_next {q next : Quotation} {strict : Bool} {c : Char}
    (h : q.step strict (.char c) = .ok (.next next)) : Quotation.pending next.phase = [] ∨
      Quotation.pending next.phase = Quotation.pending q.phase ++ [.char c] := by
  rcases Quotation.step_char _ h with ⟨_, hclosed, -⟩ | ⟨_, hnext, hpending⟩
  · cases hclosed
  · cases hnext
    exact hpending.symm.imp_left And.left

/-- Each character completes what is being read, or is added to it. -/
theorem Reader.pending_of_step {r s : Reader g} {c : Char} (h : r.step (.char c) = .ok s) :
    s.pending = [] ∨ s.pending = r.pending ++ [.char c] := by
  cases r with
  | between place => exact Or.inl (Between.pending_of_step h)
  | string _ _ | key _ _ =>
    simp only [step] at h
    split at h
    · cases h
    · next hq =>
      cases h
      exact pending_of_next hq
    · obtain ⟨_, -, h⟩ := bind_eq_ok.mp h
      cases h
      exact Or.inl rfl
  | numeral slot phase spelling =>
    simp only [step, NumeralPhase.stepPiece] at h
    cases hphase : phase.step c with
    | next next =>
      rw [hphase] at h
      cases h
      exact Or.inl rfl
    | ended =>
      rw [hphase] at h
      obtain ⟨place, -, h⟩ := bind_eq_ok.mp h
      exact Or.inl (Between.pending_of_step h)
    | invalid =>
      rw [hphase] at h
      cases h
  | literal slot x next rest =>
    simp only [step] at h
    split at h
    · split at h
      · obtain ⟨_, -, h⟩ := bind_eq_ok.mp h
        cases h
        exact Or.inl rfl
      · cases h
        exact Or.inl rfl
    · cases h

/-- What is being read stands at the end of the text. -/
theorem exists_append_pending {place : Between g} {e : Text} {r : Reader g}
    (h : (Reader.between place).feed e.toPieces = .ok r) : ∃ ps, e.toPieces = ps ++ r.pending := by
  induction e using List.reverseRecOn generalizing r with
  | nil =>
    rw [toPieces_nil, Reader.feed_nil] at h
    cases h
    exact ⟨[], rfl⟩
  | append_singleton e c ih =>
    rw [toPieces_append, toPieces_cons, toPieces_nil, Reader.feed_snoc] at h
    obtain ⟨s, hs, hstep⟩ := bind_eq_ok.mp h
    rcases Reader.pending_of_step hstep with hr | hr
    · exact ⟨_, by rw [hr, List.append_nil]⟩
    · obtain ⟨ps, hps⟩ := ih hs
      refine ⟨ps, ?_⟩
      rw [toPieces_append, hps, hr, List.append_assoc]
      rfl

/-! ## The whole text of a node -/

/-- Where a value is due an opening bracket is its first character. -/
theorem Between.step_open {place : Between g} {slot : Slot g} {c : Char} (h : place.due? = some slot)
    (hc : c = '[' ∨ c = '{') : place.step (.char c) = slot.start (.char c) := by
  have hspace : isSpace (.char c) = false := by
    rcases hc with rfl | rfl <;> rfl
  have hclose : c ≠ ']' := by
    rcases hc with rfl | rfl <;> decide
  rw [step, hspace, if_neg Bool.false_ne_true]
  cases place with
  | value _ =>
    cases h
    rfl
  | firstItem array | nextItem array =>
    cases h
    simp only [token, Piece.char.injEq, hclose, false_and, if_false]
  | afterItem _ | firstKey _ | nextKey _ | colon _ | afterEntry _ | afterOnly _ | afterOnlyComma
  | finished _ => contradiction

theorem Between.step_array {place : Between g} {slot : Slot g} (h : place.due? = some slot)
    {array : OpenArray g} (harray : slot.openArray = .ok array) :
    place.step (.char '[') = .ok (.between (.firstItem array)) := by
  rw [step_open h (Or.inl rfl), Slot.start, harray]
  rfl

theorem Between.step_object {place : Between g} {slot : Slot g} (h : place.due? = some slot)
    {object : OpenObject g} (hobject : slot.openObject = .ok object) :
    place.step (.char '{') = .ok (.between (.firstKey object)) := by
  rw [step_open h (Or.inr rfl), Slot.start, hobject]
  rfl

section
variable (node : NodePlace g) (base : ValuePlace g')

/-- How two readers that are side by side have got to the end of the text: the node and the value are
closed; the node is refused when it is closed; both find a fault; the first one finds a wrong tag, where
the other one finds nothing; or both are in an escape that can only fail. -/
inductive Reached (r : Reader g) (r' : Reader g') (t : Text) : Prop
  | closed (n : Node) (v : Value) (h : r.feed t.toPieces = .ok (.between (node.deliver n)))
    (h' : r'.feed t.toPieces = .ok (.between (base.deliver v)))
  | refused (m : Mismatch) (v : Value) (h : r.feed t.toPieces = .error (.mismatch m))
    (h' : r'.feed t.toPieces = .ok (.between (base.deliver v)))
  | fault (f : Fault) (h : r.feed t.toPieces = .error (.fault f))
    (h' : r'.feed t.toPieces = .error (.fault f))
  | tag (m : Mismatch) (hm : IsTagMismatch m) (h : r.feed t.toPieces = .error (.mismatch m))
    (u v : Text) (ht : t = u ++ v) (hu : r.feed (u ++ [' ']).toPieces = .error (.mismatch m))
    (hu' : ∃ s, r'.feed (u ++ [' ']).toPieces = .ok s)
  | cut (s : Reader g) (s' : Reader g') (hs : s.IsDoomed) (h : r.feed t.toPieces = .ok s)
    (h' : r'.feed t.toPieces = .ok s')

variable {node base} {r s : Reader g} {r' s' : Reader g'} {c : Char} {t : Text}

theorem Reached.step (hr : r.step (.char c) = .ok s) (hr' : r'.step (.char c) = .ok s')
    (h : Reached node base s s' t) : Reached node base r r' (c :: t) := by
  have hfeed (u : Text) : r.feed (toPieces (c :: u)) = s.feed u.toPieces := by
    rw [toPieces_cons, Reader.feed_cons, hr, ok_bind]
  have hfeed' (u : Text) : r'.feed (toPieces (c :: u)) = s'.feed u.toPieces := by
    rw [toPieces_cons, Reader.feed_cons, hr', ok_bind]
  cases h with
  | closed n v h h' => exact .closed n v (by rwa [hfeed]) (by rwa [hfeed'])
  | refused m v h h' => exact .refused m v (by rwa [hfeed]) (by rwa [hfeed'])
  | fault f h h' => exact .fault f (by rwa [hfeed]) (by rwa [hfeed'])
  | cut x x' hx h h' => exact .cut x x' hx (by rwa [hfeed]) (by rwa [hfeed'])
  | tag m hm h u v ht hu hu' =>
    refine .tag m hm (by rwa [hfeed]) (c :: u) v (by rw [ht, List.cons_append]) ?_ ?_
    · rwa [List.cons_append, hfeed]
    · rwa [List.cons_append, hfeed']

theorem Reader.feed_of_error {e : Error} (h : r.step (.char c) = .error e) (t : Text) :
    r.feed (toPieces (c :: t)) = .error e := by
  rw [toPieces_cons, Reader.feed_cons, h, error_bind]

theorem Reader.Pairs.ne_zero {k : Nat} (h : r.Pairs node base k r') : k ≠ 0 := by
  have hplace {k : Nat} {p : ValuePlace g} {p' : ValuePlace g'}
      (h : ValuePlace.Pairs node base k p p') : k ≠ 0 := by
    cases h <;> exact Nat.succ_ne_zero _
  have hslot {k : Nat} {x : Slot g} {x' : Slot g'} (h : x.Pairs node base k x') : k ≠ 0 := by
    cases h with
    | value h => exact hplace h
    | tagItem _ | tagEntry _ _ _ => exact Nat.succ_ne_zero _
  have harray {k : Nat} {x : OpenArray g} {x' : OpenArray g'} (h : x.Pairs node base k x') : k ≠ 0 := by
    cases h <;> exact Nat.succ_ne_zero _
  have hobject {k : Nat} {x : OpenObject g} {x' : OpenObject g'} (h : x.Pairs node base k x') :
      k ≠ 0 := by
    cases h <;> exact Nat.succ_ne_zero _
  cases h with
  | between h =>
    cases h with
    | value h | colon h => exact hslot h
    | firstItem h | nextItem h | afterItem h => exact harray h
    | firstKey h | nextKey h | afterEntry h => exact hobject h
  | string h _ | numeral h _ _ | literal h _ _ _ _ => exact hslot h
  | key h _ => exact hobject h

variable (hdepth : node.depth = base.depth) (hroom : base.depth + 1 < maxDepth)
include hdepth hroom

/-- A text that ends with the bracket that closes the node is read to one of these ends. -/
theorem reached {k : Nat} (h : r.Pairs node base k r')
    (ht : r.IsDoomed ∨ ¬ r.IsDoomed ∧ closesLast k r.mode t) : Reached node base r r' t := by
  induction t generalizing k r r' with
  | nil =>
    rcases ht with hdoomed | ⟨-, ht⟩
    · exact .cut r r' hdoomed rfl rfl
    · contradiction
  | cons c t ih =>
    have hlast (hcount : r.mode.count k c = 0) (hsound : ¬ r.IsDoomed) : t = [] := by
      obtain ⟨-, ht⟩ := ht.resolve_left hsound
      rw [closesLast, if_pos hcount] at ht
      exact List.isEmpty_iff.mp ht
    rcases h.step (c := c) hdepth hroom with hadvances | ⟨m, hm, hc, hspace, b, hb⟩
    · generalize hx : r.step (.char c) = x at hadvances
      generalize hx' : r'.step (.char c) = x' at hadvances
      cases hadvances with
      | both hpairs hmode =>
        refine .step hx hx' (ih hpairs ?_)
        rcases hmode with hdoomed | ⟨hmode, hnext⟩
        · exact Or.inl hdoomed
        · obtain ⟨-, ht⟩ := ht.resolve_left (Reader.not_isDoomed_of_ok hx hmode)
          rw [closesLast, if_neg hpairs.ne_zero, ← hnext] at ht
          exact Or.inr ⟨hmode, ht⟩
      | fault f => exact .fault f (Reader.feed_of_error hx t) (Reader.feed_of_error hx' t)
      | tag hm b =>
        refine .tag _ hm (Reader.feed_of_error hx t) [c] t rfl (Reader.feed_of_error hx [' ']) ?_
        exact ⟨.between b, by rw [List.singleton_append, toPieces_cons, Reader.feed_cons, hx']; rfl⟩
      | closed hcount n v =>
        obtain rfl := hlast hcount (Reader.not_isDoomed_of_ok hx id)
        exact .closed n v (by rw [toPieces_cons, Reader.feed_cons, hx]; rfl)
          (by rw [toPieces_cons, Reader.feed_cons, hx']; rfl)
      | refused hcount m v =>
        obtain rfl := hlast hcount (Reader.not_isDoomed_of_mismatch hx)
        exact .refused m v (Reader.feed_of_error hx [])
          (by rw [toPieces_cons, Reader.feed_cons, hx']; rfl)
    · refine .tag m hm (Reader.feed_of_error hc t) [] (c :: t) rfl (Reader.feed_of_error hspace []) ?_
      exact ⟨.between b, by rw [List.nil_append, toPieces_cons, Reader.feed_cons, hb]; rfl⟩

/-- Where a node is due its opening bracket is read as that of a value. -/
theorem reached_of_due {place : Between g} {e : Text} (hdue : place.due? = some (.node node))
    (he : isBracketed e) :
    Reached node base (.between place) (.between (.value (.value base))) e := by
  match e, he with
  | c :: t, he =>
    simp only [isBracketed, Bool.and_eq_true, Bool.or_eq_true, beq_iff_eq] at he
    obtain ⟨hc, ht⟩ := he
    have hmax : base.depth < maxDepth := by omega
    have hmaxNode : node.depth < maxDepth := by omega
    have hvalue : (Between.value (.value base)).due? = some (.value base) := rfl
    rcases hc with rfl | rfl
    · have harray : Reader.Pairs node base 1 (.between (.firstItem (.node node)))
          (.between (.firstItem (.value [] base))) := .between (.firstItem (.node []))
      refine .step ?_ ?_ (reached hdepth hroom harray (Or.inr ⟨id, ht⟩))
      · exact Between.step_array hdue (if_pos hmaxNode)
      · exact Between.step_array hvalue (if_pos hmax)
    · have hobject : Reader.Pairs node base 1 (.between (.firstKey (.node node none [])))
          (.between (.firstKey (.value [] base))) := .between (.firstKey (.node none [] []))
      refine .step ?_ ?_ (reached hdepth hroom hobject (Or.inr ⟨id, ht⟩))
      · exact Between.step_object hdue (if_pos hmaxNode)
      · exact Between.step_object hvalue (if_pos hmax)

end

/-! ## Rejected blocks -/

/-- A value that stands as deep as a block of a document. -/
def blockValue : ValuePlace .node := .item [] (.nodeItem .alone .unknown [])

/-- The first fault of the text if it is read as any JSON value in the place of a block. -/
def FirstFault (e : Text) (f : Fault) : Prop :=
  (Reader.between (.value (.value blockValue))).feed e.toPieces = .error (.fault f)

/-- Behind `q` the tag of the block `e` is wrong before there is any fault in it. The space ends a tag
that is a number. -/
def TagFirst (q e : Text) (m : Mismatch) : Prop :=
  IsTagMismatch m ∧ ∃ u v, e = u ++ v ∧
    (Reader.between (.value .document)).feed (q ++ (u ++ [' '])).toPieces = .error (.mismatch m) ∧
    ∃ r, (Reader.between (.value (.value blockValue))).feed (u ++ [' ']).toPieces = .ok r

/-- The text ends inside the four bytes of an escape, of which `w` is there. -/
def BreaksOff (e w : Text) : Prop := (∃ u, e = u ++ '\\' :: 'u' :: w) ∧ (encode w).length < 4

/-- Behind `q` the block `e` is not read as a node. -/
def Rejects (q e : Text) (form : Bracket) (done : List Node) : Prop :=
  ∀ n, (Reader.between (.value .document)).feed (q ++ e).toPieces ≠
    .ok (.between ((NodePlace.block form done).deliver n))

/-- A reader that is in an escape that can only fail fails with it, or at the end of the text. -/
theorem Reader.IsDoomed.read {place : Between g} {e : Text} {r : Reader g} (h : r.IsDoomed)
    (he : (Reader.between place).feed e.toPieces = .ok r) :
    ∃ w, BreaksOff e w ∧ ∀ t : Text, r.read t.toPieces = .error
      (if (encode (w ++ t)).length < 4 then .unfinished .string else .fault .invalidEscape) := by
  obtain ⟨seen, hseen, hwidth, hdigit⟩ := h.inEscape
  obtain ⟨ps, hps⟩ := exists_append_pending he
  rw [hseen.pending] at hps
  obtain ⟨u, v, rfl, -, hv⟩ := List.map_eq_append_iff.mp hps
  obtain ⟨_, _, rfl, hslash, hv⟩ := List.map_eq_cons_iff.mp hv
  obtain ⟨_, w, rfl, hletter, hw⟩ := List.map_eq_cons_iff.mp hv
  cases hslash
  cases hletter
  obtain rfl : (toPieces w).reverse = seen := List.reverse_eq_iff.mpr hw
  rw [width_reverse] at hwidth
  exact ⟨w, ⟨⟨u, rfl⟩, hwidth⟩, hseen.read hwidth hdigit⟩

end ManPage.Load

namespace ManPage
open Json Load Outcome

/-- A block that is rejected fixes the error, whatever follows it, unless it breaks off an escape: that
is faulty as soon as it has four bytes. A fault of the text of the block is that error, but for a tag of
the block that is wrong before it. -/
theorem Document.error_of_block {q e : Text} {form : Bracket} {done : List Node}
    (hq : DueBehind q (.node (.block form done))) (he : isBracketed e) (hreject : Rejects q e form done) :
    ((∃ x, ∀ t, Document.ofText (q ++ (e ++ t)) = .error x) ∨
      ∃ w, BreaksOff e w ∧ ∀ t, Document.ofText (q ++ (e ++ t)) = .error
        (if (Text.encode (w ++ t)).length < 4 then .unfinished .string else .fault .invalidEscape)) ∧
    ∀ f, FirstFault e f → (∀ t, Document.ofText (q ++ (e ++ t)) = .error (.fault f)) ∨
      ∃ m, TagFirst q e m ∧ ∀ t, Document.ofText (q ++ (e ++ t)) = .error (.mismatch m) := by
  obtain ⟨place, hplace, hdue⟩ := hq
  have hfeed (u : Text) : (Reader.between (.value .document)).feed (q ++ u).toPieces =
      (Reader.between place).feed u.toPieces := by
    rw [Text.toPieces_append, Reader.feed_append, hplace, ok_bind]
  have hread (t : Text) : Document.ofText (q ++ (e ++ t)) =
      (Reader.between place).feed e.toPieces >>= fun r => r.read t.toPieces := by
    rw [ofText, ofPieces, Reader.read, hfeed, Text.toPieces_append, Reader.feed_append]
    cases (Reader.between place).feed e.toPieces <;> rfl
  have hreached : Reached (NodePlace.block form done) blockValue (.between place)
      (.between (.value (.value blockValue))) e :=
    reached_of_due rfl (by decide) hdue he
  have hclean {r : Reader .node}
      (h : (Reader.between (.value (.value blockValue))).feed e.toPieces = .ok r) {f : Fault} :
      ¬ FirstFault e f := by
    intro hf
    rw [FirstFault, h] at hf
    contradiction
  have hfixed {x : Error} (h : (Reader.between place).feed e.toPieces = .error x) (t : Text) :
      Document.ofText (q ++ (e ++ t)) = .error x := by
    rw [hread, h, error_bind]
  cases hreached with
  | closed n v h h' => exact absurd ((hfeed e).trans h) (hreject n)
  | refused m v h h' => exact ⟨Or.inl ⟨_, hfixed h⟩, fun f hf => absurd hf (hclean h')⟩
  | fault f h h' =>
    refine ⟨Or.inl ⟨_, hfixed h⟩, fun f' hf => Or.inl ?_⟩
    rw [FirstFault, h'] at hf
    cases hf
    exact hfixed h
  | tag m hm h u v hsplit hu hu' =>
    exact ⟨Or.inl ⟨_, hfixed h⟩,
      fun f hf => Or.inr ⟨m, ⟨hm, u, v, hsplit, (hfeed _).trans hu, hu'⟩, hfixed h⟩⟩
  | cut s s' hs h h' =>
    obtain ⟨w, hw, hend⟩ := hs.read h
    refine ⟨Or.inr ⟨w, hw, fun t => ?_⟩, fun f hf => absurd hf (hclean h')⟩
    rw [hread, h, ok_bind, hend]

/-- The start of a document. -/
def Document.blocksOpen : Text := "\x7b\"children\":[".toList

/-- A header whose level and child are ill-typed and of which a comma is misplaced. -/
def Document.manyFaults : Text :=
  "\x7b\"level\":\"x\",\"type\":\"h\",\"children\":[\x7b\"type\":null\x7d,],\"level\":2\x7d".toList

theorem Document.due_blocksOpen : DueBehind blocksOpen (.node (.block .object [])) :=
  ⟨.firstItem (.blockList .object []), rfl, rfl⟩

theorem Document.error_of_block_manyFaults :
    Rejects blocksOpen manyFaults .object [] ∧ FirstFault manyFaults .trailingComma ∧
    ∀ t, Document.ofText (blocksOpen ++ (manyFaults ++ t)) = .error (.fault .trailingComma) := by
  have hfault : FirstFault manyFaults .trailingComma := rfl
  have hreject : Rejects blocksOpen manyFaults .object [] := by
    intro n hn
    cases hn
  obtain ⟨-, hfirst⟩ := error_of_block due_blocksOpen rfl hreject
  refine ⟨hreject, hfault, ?_⟩
  rcases hfirst _ hfault with hanswer | ⟨m, -, hanswer⟩
  · exact hanswer
  · have htag := hanswer []
    cases htag

/-- A node that ends inside an escape. -/
def Document.shortEscape : Text := "\x7b\"type\":\"\\u\"\x7d".toList

/-- Not every rejected block fixes the error: what follows may complete an escape in it. -/
theorem Document.not_error_of_block : ¬ ∀ (q e : Text) (form : Bracket) (done : List Node),
    DueBehind q (.node (.block form done)) → isBracketed e → Rejects q e form done →
    ∃ category message, ∀ t, ∃ x, Document.ofText (q ++ (e ++ t)) = .error x ∧
      x.category = category ∧ x.message = message := by
  intro h
  have hreject : Rejects blocksOpen shortEscape .object [] := by
    intro n hn
    cases hn
  obtain ⟨category, message, hsame⟩ :=
    h blocksOpen shortEscape .object [] due_blocksOpen rfl hreject
  obtain ⟨x, hx, hcategory, -⟩ := hsame []
  obtain ⟨y, hy, hcategory', -⟩ := hsame "]\x7d".toList
  have hended : Document.ofText (blocksOpen ++ (shortEscape ++ [])) = .error (.unfinished .string) := by
    decide +kernel
  have hinvalid : Document.ofText (blocksOpen ++ (shortEscape ++ "]\x7d".toList)) =
      .error (.fault .invalidEscape) := by
    decide +kernel
  rw [hended] at hx
  rw [hinvalid] at hy
  cases hx
  cases hy
  rw [← hcategory'] at hcategory
  contradiction

end ManPage
