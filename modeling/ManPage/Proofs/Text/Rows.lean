import ManPage.Proofs.Text.Escape
import ManPage.Text.Basic

/-! # Rows

The rows of a text are what stands between its line feeds. Where two texts are put together, the last
row of one and the first row of the other become one row; a trim takes away rows, or white space from
the ends of one. What is true of every row is kept by both if it is kept of a row by as much.
-/
namespace ManPage.Text

def rows (t : Text) : List Text := t.splitOn '\n'

theorem rows_nil : rows [] = [[]] := List.splitOn_nil '\n'

theorem rows_of_not_mem {t : Text} (h : '\n' ∉ t) : rows t = [t] := List.splitOn_eq_singleton h

theorem rows_lineFeed (s t : Text) : rows (s ++ '\n' :: t) = rows s ++ rows t :=
  List.splitOn_append_cons_self s t

/-- A text between two lines keeps its rows. -/
theorem rows_between {first last : Text} (hfirst : '\n' ∉ first) (hlast : '\n' ∉ last) (t : Text) :
    rows (first ++ '\n' :: (t ++ '\n' :: last)) = first :: (rows t ++ [last]) := by
  rw [rows_lineFeed, rows_lineFeed, rows_of_not_mem hfirst, rows_of_not_mem hlast, List.singleton_append]

theorem rows_cons_lineFeed (t : Text) : rows ('\n' :: t) = [] :: rows t := rows_lineFeed [] t

theorem exists_rows_cons (t : Text) : ∃ first rest, rows t = first :: rest :=
  List.exists_cons_of_ne_nil (List.splitOn_ne_nil '\n' t)

theorem rows_cons_of_ne {c : Char} (h : c ≠ '\n') (t : Text) :
    rows (c :: t) = (rows t).modifyHead (c :: ·) := by
  rw [rows, List.splitOn_cons_eq_if_modifyHead, if_neg]
  · rfl
  · intro heq
    exact h (beq_iff_eq.mp heq)

theorem exists_rows_append (s t : Text) : ∃ above last first below, rows s = above ++ [last] ∧
    rows t = first :: below ∧ rows (s ++ t) = above ++ (last ++ first) :: below := by
  obtain ⟨first, below, ht⟩ := exists_rows_cons t
  suffices ∃ above last, rows s = above ++ [last] ∧
      rows (s ++ t) = above ++ (last ++ first) :: below by
    obtain ⟨above, last, hs, hst⟩ := this
    exact ⟨above, last, first, below, hs, ht, hst⟩
  induction s with
  | nil => exact ⟨[], [], rows_nil, ht⟩
  | cons c s ih =>
    obtain ⟨above, last, hs, hst⟩ := ih
    by_cases hc : c = '\n'
    · subst hc
      rw [List.cons_append, rows_cons_lineFeed, rows_cons_lineFeed, hs, hst]
      exact ⟨[] :: above, last, rfl, rfl⟩
    · rw [List.cons_append, rows_cons_of_ne hc, rows_cons_of_ne hc, hs, hst]
      cases above with
      | nil => exact ⟨[], c :: last, rfl, rfl⟩
      | cons l above => exact ⟨(c :: l) :: above, last, rfl, rfl⟩

/-- What has no line feed in it only makes the first row longer. -/
theorem exists_rows_of_not_mem {m : Text} (hm : '\n' ∉ m) (t : Text) :
    ∃ first below, rows t = first :: below ∧ rows (m ++ t) = (m ++ first) :: below := by
  obtain ⟨above, last, first, below, hrows, hrowt, happend⟩ := exists_rows_append m t
  rw [rows_of_not_mem hm, ← List.nil_append [m]] at hrows
  obtain ⟨rfl, hlast⟩ := List.append_inj' hrows rfl
  rw [← List.singleton_inj.mp hlast] at happend
  exact ⟨first, below, hrowt, happend⟩

theorem mem_of_mem_rows {l t : Text} (h : l ∈ rows t) : ∀ c ∈ l, c ∈ t := by
  induction t generalizing l with
  | nil =>
    rw [rows_nil, List.mem_singleton] at h
    subst h
    nofun
  | cons d t ih =>
    intro c hc
    by_cases hd : d = '\n'
    · subst hd
      rw [rows_cons_lineFeed, List.mem_cons] at h
      rcases h with rfl | h
      · contradiction
      · exact List.mem_cons_of_mem _ (ih h c hc)
    · obtain ⟨first, below, ht⟩ := exists_rows_cons t
      rw [rows_cons_of_ne hd, ht, List.modifyHead_cons, List.mem_cons] at h
      rw [ht] at ih
      rw [List.mem_cons]
      rcases h with rfl | h
      · exact (List.mem_cons.mp hc).imp_right (ih List.mem_cons_self c)
      · exact Or.inr (ih (List.mem_cons_of_mem _ h) c hc)

theorem not_mem_of_mem_lines {l t : Text} (h : l ∈ lines t) : '\n' ∉ l := by
  induction t using lines.induct generalizing l with
  | case1 => contradiction
  | case2 r ih | case3 r ih =>
    rw [lines, List.mem_cons] at h
    rcases h with rfl | h
    · exact List.not_mem_nil
    · exact ih h
  | case4 c r hc hreturn hrest ih =>
    rw [lines, hrest, List.mem_singleton] at h
    · subst h
      exact fun hmem => hc (List.mem_singleton.mp hmem).symm
    · exact hc
    · exact hreturn
  | case5 c r hc hreturn first more hrest ih =>
    rw [hrest] at ih
    rw [lines, hrest, List.mem_cons] at h
    · rcases h with rfl | h
      · intro hmem
        rcases List.mem_cons.mp hmem with heq | hmem
        · exact hc heq.symm
        · exact ih List.mem_cons_self hmem
      · exact ih (List.mem_cons_of_mem first h)
    · exact hc
    · exact hreturn

theorem rows_joinLines (p : Text) (ps : List Text) :
    rows (joinLines (p :: ps)) = (p :: ps).flatMap rows := by
  induction ps generalizing p with
  | nil => rw [joinLines_singleton, List.flatMap_singleton]
  | cons q ps ih =>
    rw [joinLines_cons_cons, rows_lineFeed, ih]
    exact List.flatMap_cons.symm

theorem rows_joinLines_of_ne {ps : List Text} (h : ps ≠ []) : rows (joinLines ps) = ps.flatMap rows := by
  obtain ⟨p, ps, rfl⟩ := List.exists_cons_of_ne_nil h
  exact rows_joinLines p ps

/-- Lines are the rows of what they are joined to. -/
theorem rows_joinLines_of_not_mem {ls : List Text} (h : ∀ l ∈ ls, '\n' ∉ l) (hne : ls ≠ []) :
    rows (joinLines ls) = ls :=
  List.splitOn_intercalate '\n' h hne

theorem rows_escapeEach (t : Text) : rows (escapeEach t) = (rows t).map escapeEach := by
  induction t with
  | nil => rfl
  | cons c t ih =>
    by_cases hc : c = '\n'
    · subst hc
      rw [escapeEach, if_neg (by decide), rows_cons_lineFeed, rows_cons_lineFeed, ih]
      rfl
    · obtain ⟨first, below, ht⟩ := exists_rows_cons t
      rw [ht, List.map_cons] at ih
      rw [rows_cons_of_ne hc, ht, escapeEach]
      split
      · rw [rows_cons_of_ne (by decide), rows_cons_of_ne hc, ih, List.modifyHead_cons,
          List.modifyHead_cons, List.modifyHead_cons, List.map_cons, escapeEach, if_pos ‹_›]
      · rw [rows_cons_of_ne hc, ih, List.modifyHead_cons, List.modifyHead_cons, List.map_cons,
          escapeEach, if_neg ‹_›]

theorem rows_escape (t : Text) : rows (escape t) = (rows t).map escape := by
  have hescape : escape = escapeEach := funext escape_eq
  rw [hescape, rows_escapeEach]

/-! ## Every row -/

def EachRow (P : Text → Prop) (t : Text) : Prop := ∀ l ∈ rows t, P l

/-- What holds of rows holds of them put together, and of what a trim leaves of them. -/
structure RowLaw (P : Text → Prop) : Prop where
  nil : P []
  append {s t : Text} : P s → P t → P (s ++ t)
  of_white_append {a t : Text} : a.all isWhite → P (a ++ t) → P t
  of_append_white {t b : Text} : b.all isWhite → P (t ++ b) → P t

theorem RowLaw.and {P Q : Text → Prop} (hP : RowLaw P) (hQ : RowLaw Q) :
    RowLaw fun t => P t ∧ Q t where
  nil := ⟨hP.nil, hQ.nil⟩
  append hs ht := ⟨hP.append hs.1 ht.1, hQ.append hs.2 ht.2⟩
  of_white_append ha h := ⟨hP.of_white_append ha h.1, hQ.of_white_append ha h.2⟩
  of_append_white hb h := ⟨hP.of_append_white hb h.1, hQ.of_append_white hb h.2⟩

section
variable {P : Text → Prop} {s t : Text}

theorem eachRow_of_not_mem (hrow : '\n' ∉ t) : EachRow P t ↔ P t := by
  rw [EachRow, rows_of_not_mem hrow, List.forall_mem_singleton]

theorem eachRow_lineFeed : EachRow P (s ++ '\n' :: t) ↔ EachRow P s ∧ EachRow P t := by
  rw [EachRow, rows_lineFeed, List.forall_mem_append]
  rfl

variable (law : RowLaw P)
include law

theorem eachRow_nil : EachRow P [] := by
  rw [EachRow, rows_nil, List.forall_mem_singleton]
  exact law.nil

theorem EachRow.append (hs : EachRow P s) (ht : EachRow P t) : EachRow P (s ++ t) := by
  obtain ⟨above, last, first, below, hrows, hrowt, happend⟩ := exists_rows_append s t
  rw [EachRow, hrows, List.forall_mem_append, List.forall_mem_singleton] at hs
  rw [EachRow, hrowt, List.forall_mem_cons] at ht
  rw [EachRow, happend, List.forall_mem_append, List.forall_mem_cons]
  exact ⟨hs.1, law.append hs.2 ht.1, ht.2⟩

theorem eachRow_flatten {ps : List Text} (h : ∀ p ∈ ps, EachRow P p) : EachRow P ps.flatten := by
  induction ps with
  | nil => exact eachRow_nil law
  | cons p ps ih =>
    rw [List.forall_mem_cons] at h
    rw [List.flatten_cons]
    exact h.1.append law (ih h.2)

theorem eachRow_joinLines {ps : List Text} (h : ∀ p ∈ ps, EachRow P p) :
    EachRow P (joinLines ps) := by
  cases ps with
  | nil => exact eachRow_nil law
  | cons p ps =>
    rw [EachRow, rows_joinLines, List.forall_mem_flatMap]
    exact h

theorem EachRow.of_white_append {a : Text} (ha : a.all isWhite) (h : EachRow P (a ++ t)) :
    EachRow P t := by
  obtain ⟨above, last, first, below, hrows, hrowt, happend⟩ := exists_rows_append a t
  have hlast : last.all isWhite := by
    have hmem : last ∈ rows a := by
      rw [hrows]
      exact List.mem_append_right _ List.mem_cons_self
    exact List.all_eq_true.mpr fun c hc => List.all_eq_true.mp ha c (mem_of_mem_rows hmem c hc)
  rw [EachRow, happend, List.forall_mem_append, List.forall_mem_cons] at h
  rw [EachRow, hrowt, List.forall_mem_cons]
  exact ⟨law.of_white_append hlast h.2.1, h.2.2⟩

theorem EachRow.of_append_white {b : Text} (hb : b.all isWhite) (h : EachRow P (t ++ b)) :
    EachRow P t := by
  obtain ⟨above, last, first, below, hrowt, hrows, happend⟩ := exists_rows_append t b
  have hfirst : first.all isWhite := by
    have hmem : first ∈ rows b := by
      rw [hrows]
      exact List.mem_cons_self
    exact List.all_eq_true.mpr fun c hc => List.all_eq_true.mp hb c (mem_of_mem_rows hmem c hc)
  rw [EachRow, happend, List.forall_mem_append, List.forall_mem_cons] at h
  rw [EachRow, hrowt, List.forall_mem_append, List.forall_mem_singleton]
  exact ⟨h.1, law.of_append_white hfirst h.2.1⟩

theorem EachRow.trimStart (h : EachRow P t) : EachRow P (trimStart t) := by
  obtain ⟨a, ha, ht⟩ := exists_trimStart t
  rw [ht] at h
  exact h.of_white_append law ha

theorem EachRow.trimEnd (h : EachRow P t) : EachRow P (trimEnd t) := by
  obtain ⟨b, hb, ht⟩ := exists_trimEnd t
  rw [ht] at h
  exact h.of_append_white law hb

theorem EachRow.trim (h : EachRow P t) : EachRow P (trim t) := (h.trimStart law).trimEnd law

end

end ManPage.Text
