import ManPage.Proofs.Render.Outline
import ManPage.Proofs.Text.Trim

/-! # Rows of running text

If no line of a string starts with a dot, a row of running text with a dot in front of it is one of a few
macros that neither open nor close anything and count nothing, and so are the rows of headers, rules and
comments.
-/
namespace ManPage
open Text Fragment

namespace Node

/-- The strings of a node that are written without escapes. -/
def rawStrings : Node → List Text
  | header _ raw _ | codeSpan raw | link raw _ => [raw]
  | _ => []

/-- The strings of a node that are written to the page, apart from comments. -/
def strings : Node → List Text
  | text value | abbreviation value | codeBlock value => [value]
  | n => n.rawStrings

/-- Running text has running text in it, and no line of a string starts with a dot. -/
structure Orderly (n : Node) : Prop where
  spans : n.KeepsInline
  undotted : ∀ s ∈ n.strings, ∀ l ∈ rows s, (trimStart l).head? ≠ some '.'

instance (n : Node) : Decidable n.KeepsInline :=
  inferInstanceAs (Decidable (n.kind.isSpan → ∀ c ∈ n.children, c.kind.isInline ∨ c.kind.isDropped))

instance (n : Node) : Decidable n.Orderly :=
  decidable_of_iff (n.KeepsInline ∧ ∀ s ∈ n.strings, ∀ l ∈ rows s, (trimStart l).head? ≠ some '.')
    ⟨fun h => ⟨h.1, h.2⟩, fun h => ⟨h.spans, h.undotted⟩⟩

end Node

/-! ## What a link writes -/

/-- The characters of the name and the section of a page. -/
def isPageChar (c : Char) : Bool :=
  LinkTarget.isNameChar c || isDecimalDigit c || LinkTarget.isLower c || " ()".toList.contains c

theorem LinkTarget.of_section?_eq_some {t sec : Text} (h : section? t = some sec) :
    ∀ c ∈ sec, isPageChar c := by
  unfold section? at h
  split at h
  · rename_i d _
    obtain ⟨hd, hsec⟩ := Option.ite_none_right_eq_some.mp h
    obtain rfl := Option.some.inj hsec
    simp [isPageChar, hd]
  · rename_i d l _ _
    obtain ⟨hdl, hsec⟩ := Option.ite_none_right_eq_some.mp h
    obtain rfl := Option.some.inj hsec
    rw [Bool.and_eq_true] at hdl
    simp [isPageChar, hdl]
  · contradiction

theorem LinkTarget.of_page?_eq_some {t : Text} {target : LinkTarget} (h : page? t = some target) :
    ∃ name sec, target = .manPage name sec ∧ (∀ c ∈ name, isPageChar c) ∧
      ∀ s, sec = some s → ∀ c ∈ s, isPageChar c := by
  unfold page? at h
  split at h
  · contradiction
  · refine ⟨_, _, (Option.some.inj h).symm, ?_, fun s => of_section?_eq_some⟩
    intro c hc
    have hname := List.all_eq_true.mp List.all_takeWhile c hc
    rw [isPageChar, hname]
    rfl

/-- A link with nothing to show writes its target on rows of its own. -/
theorem link_nil_cases (href : Text) :
    (∃ address, href = "mailto:".toList ++ address ∧
      link href [] = '\n' :: (".MT ".toList ++ address ++ '\n' :: ".ME".toList)) ∨
    (∃ page, (∀ c ∈ page, isPageChar c) ∧ link href [] = '\n' :: (".BR ".toList ++ page)) ∨
    link href [] = '\n' :: (".UR ".toList ++ href ++ '\n' :: ".UE".toList) := by
  rw [link, LinkTarget.ofHref]
  cases hmail : LinkTarget.afterMail? href with
  | some address =>
    obtain rfl := List.isPrefixOf?_eq_some_iff_append_eq.mp hmail
    refine Or.inl ⟨address, rfl, ?_⟩
    dsimp only
    rw [ite_self]
    rfl
  | none =>
    right
    cases hpage : (LinkTarget.afterMan? href).bind LinkTarget.page? with
    | none => exact Or.inr rfl
    | some target =>
      obtain ⟨t, -, htarget⟩ := Option.bind_eq_some_iff.mp hpage
      obtain ⟨name, sec, rfl, hname, hsec⟩ := LinkTarget.of_page?_eq_some htarget
      left
      cases sec with
      | none => exact ⟨name, hname, rfl⟩
      | some sec =>
        refine ⟨name ++ (" (".toList ++ (sec ++ ")".toList)), ?_, ?_⟩
        · have hsec := hsec sec rfl
          have hopen : " (".toList.all isPageChar := by decide
          have hclose : ")".toList.all isPageChar := by decide
          rw [List.all_eq_true] at hopen hclose
          simp only [List.forall_mem_append]
          exact ⟨hname, hopen, hsec, hclose⟩
        · simp only [Option.getD_some, List.append_assoc]
          rfl

/-! ## Rows that start with a dot -/

/-- Macros that neither open nor close anything and count nothing. -/
def harmless : List Text :=
  [".MT".toList, ".ME".toList, ".BR".toList, ".UR".toList, ".UE".toList, ".TH".toList, ".SH".toList,
   ".SS".toList, ".LP".toList, ".PP".toList, ".TP".toList, ".ti".toList, ".\\\"".toList]

/-- With a dot in front of it the row is one of the harmless macros. -/
def Inert (l : Text) : Prop := (trimStart l).head? = some '.' → (trimStart l).take 3 ∈ harmless

instance : DecidablePred Inert := fun l =>
  inferInstanceAs (Decidable ((trimStart l).head? = some '.' → (trimStart l).take 3 ∈ harmless))

theorem length_of_mem_harmless {m : Text} (h : m ∈ harmless) : m.length = 3 := by
  have hall : ∀ m ∈ harmless, m.length = 3 := by decide
  exact hall m h

/-- What starts with a harmless macro is inert, whatever follows. -/
theorem inert_of_harmless {m : Text} (h : m ∈ harmless) (t : Text) : Inert (m ++ t) := by
  have hblack : ∀ m ∈ harmless, trimStart m = m ∧ ¬ m.all isWhite := by decide
  intro _
  rw [trimStart_append_of_not_all (hblack m h).2, (hblack m h).1, List.take_append_of_le_length]
  · rwa [List.take_of_length_le]
    exact Nat.le_of_eq (length_of_mem_harmless h)
  · exact Nat.le_of_eq (length_of_mem_harmless h).symm

/-- A harmless macro has no white space in it, so that nothing of it is trimmed away. -/
theorem take_mem_harmless_of_append_white {t b : Text} (hb : b.all isWhite)
    (h : (t ++ b).take 3 ∈ harmless) : t.take 3 ∈ harmless := by
  have hlength : 3 ≤ t.length := by
    apply Nat.le_of_not_lt
    intro hlt
    have htake := length_of_mem_harmless h
    rw [List.take_append, List.take_of_length_le (by omega)] at h htake
    rw [List.length_append] at htake
    obtain ⟨c, r, hc⟩ := List.exists_cons_of_length_pos (l := b.take (3 - t.length)) (by omega)
    have hcb : c ∈ b := List.mem_of_mem_take (hc ▸ List.mem_cons_self)
    have hblack : ∀ m ∈ harmless, m.all (!isWhite ·) := by decide
    have hcm := List.all_eq_true.mp (hblack _ h) c
      (List.mem_append_right _ (hc ▸ List.mem_cons_self))
    rw [List.all_eq_true.mp hb c hcb] at hcm
    cases hcm
  rwa [List.take_append_of_le_length hlength] at h

theorem rowLaw_inert : RowLaw Inert where
  nil := nofun
  append {s t} hs ht := by
    intro hdot
    by_cases hwhite : s.all isWhite
    · rw [trimStart_append_of_all hwhite] at hdot ⊢
      exact ht hdot
    · rw [trimStart_append_of_not_all hwhite] at hdot ⊢
      have hs : (trimStart s).take 3 ∈ harmless := by
        apply hs
        cases hstart : trimStart s with
        | nil => exact absurd (all_of_trimStart hstart) hwhite
        | cons c r =>
          rw [hstart] at hdot
          exact hdot
      have hlength := length_of_mem_harmless hs
      rw [List.length_take] at hlength
      rwa [List.take_append_of_le_length (by omega)]
  of_white_append ha h := by
    rwa [Inert, trimStart_append_of_all ha] at h
  of_append_white {t b} hb h := by
    intro hdot
    have hblack : ¬ t.all isWhite := by
      intro hwhite
      rw [trimStart_of_all hwhite] at hdot
      contradiction
    rw [Inert, trimStart_append_of_not_all hblack] at h
    apply take_mem_harmless_of_append_white hb
    apply h
    rw [List.head?_append, hdot]
    rfl

theorem inert_plainMacros : ∀ t ∈ plainMacros, Inert t := by
  decide

/-! ### The rows of a node -/

/-- Escapes put no dot in front of a row. -/
theorem inert_escapeEach {l : Text} (h : (trimStart l).head? ≠ some '.') : Inert (escapeEach l) := by
  intro hdot
  refine absurd ?_ h
  rw [trimStart_escapeEach] at hdot
  cases hstart : trimStart l with
  | nil =>
    rw [hstart] at hdot
    contradiction
  | cons c r =>
    rw [hstart, escapeEach] at hdot
    split at hdot
    · exact absurd (Option.some.inj hdot) (by decide)
    · exact hdot

/-- A macro that starts the first row of a text decides what that row is. -/
theorem eachRow_macro {P : Text → Prop} {m t : Text} (hm : '\n' ∉ m) (hfirst : ∀ l, P (m ++ l))
    (h : ∀ l ∈ (rows t).tail, P l) : EachRow P (m ++ t) := by
  obtain ⟨first, below, hrows, happend⟩ := exists_rows_of_not_mem hm t
  rw [hrows] at h
  rw [EachRow, happend]
  exact List.forall_mem_cons.mpr ⟨hfirst first, h⟩

theorem eachRow_comment {P : Text → Prop} (law : RowLaw P)
    (hP : ∀ t, P (".\\\"".toList ++ t)) (value : Text) : EachRow P (comment value) := by
  refine eachRow_joinLines law ?_
  rw [List.forall_mem_map]
  intro l hl
  refine (eachRow_of_not_mem ?_).mpr (hP (' ' :: l))
  rw [List.mem_append]
  rintro (hmem | hmem)
  · exact absurd hmem (by decide)
  · exact not_mem_of_mem_lines hl hmem

theorem inert_link {href : Text} (h : EachRow Inert href) : EachRow Inert (link href []) := by
  have hnil : EachRow Inert [] := eachRow_nil rowLaw_inert
  rcases link_nil_cases href with ⟨address, rfl, hlink⟩ | ⟨page, hpage, hlink⟩ | hlink
  · obtain ⟨first, below, hrows, happend⟩ :=
      exists_rows_of_not_mem (m := "mailto:".toList) (by decide) address
    have hbelow : ∀ l ∈ (rows address).tail, Inert l := by
      rw [EachRow, happend] at h
      rw [hrows]
      exact (List.forall_mem_cons.mp h).2
    have hword : EachRow Inert (".MT ".toList ++ address) :=
      eachRow_macro (by decide) (fun l => inert_of_harmless (m := ".MT".toList) (by decide) (' ' :: l))
        hbelow
    have hend : EachRow Inert ".ME".toList := (eachRow_of_not_mem (by decide)).mpr (by decide)
    rw [hlink]
    exact eachRow_lineFeed.mpr ⟨hnil, eachRow_lineFeed.mpr ⟨hword, hend⟩⟩
  · have hline : '\n' ∉ ".BR ".toList ++ page := by
      rw [List.mem_append]
      rintro (hmem | hmem)
      · exact absurd hmem (by decide)
      · exact absurd (hpage _ hmem) (by decide)
    have hword : Inert (".BR ".toList ++ page) :=
      inert_of_harmless (m := ".BR".toList) (by decide) (' ' :: page)
    rw [hlink]
    exact eachRow_lineFeed.mpr ⟨hnil, (eachRow_of_not_mem hline).mpr hword⟩
  · have hbelow : ∀ l ∈ (rows href).tail, Inert l := fun l hl => h l (List.mem_of_mem_tail hl)
    have hword : EachRow Inert (".UR ".toList ++ href) :=
      eachRow_macro (by decide) (fun l => inert_of_harmless (m := ".UR".toList) (by decide) (' ' :: l))
        hbelow
    have hend : EachRow Inert ".UE".toList := (eachRow_of_not_mem (by decide)).mpr (by decide)
    rw [hlink]
    exact eachRow_lineFeed.mpr ⟨hnil, eachRow_lineFeed.mpr ⟨hword, hend⟩⟩

theorem inert_own {n : Node}
    (h : ∀ s ∈ n.strings, ∀ l ∈ rows s, (trimStart l).head? ≠ some '.') :
    EachRow Inert (own n) := by
  have hrow {t : Text} (ht : '\n' ∉ t ∧ Inert t) : EachRow Inert t := (eachRow_of_not_mem ht.1).mpr ht.2
  have hraw : ∀ s ∈ n.strings, EachRow Inert s := fun s hs l hl hdot => absurd hdot (h s hs l hl)
  have hescape : ∀ s ∈ n.strings, EachRow Inert (escape s) := by
    intro s hs
    rw [escape_eq, EachRow, rows_escapeEach, List.forall_mem_map]
    exact fun l hl => inert_escapeEach (h s hs l hl)
  cases n with
  | blank => exact hrow (by decide)
  | text value | abbreviation value | codeBlock value => exact hescape value List.mem_cons_self
  | typographic symbol =>
    apply hrow
    cases symbol <;> decide
  | quote symbol =>
    apply hrow
    cases symbol <;> decide
  | header level rawText _ =>
    have hword : headerMacro level ∈ harmless ∧ '\n' ∉ headerMacro level ++ [' '] := by
      unfold headerMacro
      split
      · decide
      · split <;> decide
    have hbelow : ∀ l ∈ (rows rawText).tail, Inert l := fun l hl =>
      hraw rawText List.mem_cons_self l (List.mem_of_mem_tail hl)
    have hheader := eachRow_macro hword.2 (fun l => by
      rw [List.append_assoc]
      exact inert_of_harmless hword.1 _) hbelow
    rw [List.append_assoc] at hheader
    exact hheader
  | rule => exact eachRow_lineFeed.mpr ⟨hrow (t := ".ti 0".toList) (by decide), hrow (by decide)⟩
  | comment value => exact eachRow_comment rowLaw_inert (inert_of_harmless (by decide)) value
  | codeSpan value =>
    have hopening : EachRow Inert "\\fB\\fC".toList := hrow (by decide)
    have hclosing : EachRow Inert "\\fR".toList := hrow (by decide)
    have hvalue := hraw value List.mem_cons_self
    exact (hopening.append rowLaw_inert hvalue).append rowLaw_inert hclosing
  | link href _ => exact inert_link (hraw href List.mem_cons_self)
  | _ => exact eachRow_nil rowLaw_inert

end ManPage
