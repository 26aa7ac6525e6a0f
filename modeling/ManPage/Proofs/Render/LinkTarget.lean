import ManPage.Proofs.Render.RunningText
import ManPage.Proofs.Text.Pattern

/-! # What a reference names

A reference to a page is `man:` and a page name, and its section stands in parentheses behind the name. The
longest name is the one that is taken. A shorter one would leave a character of a name in front of the
section, so that a section is read wherever the reference can be cut to show one. The same pages are had
from the pattern that references to pages are declared with.
-/
namespace ManPage
open Text

namespace LinkTarget

/-! ## Names and sections -/

def IsName (name : Text) : Prop := name ≠ [] ∧ ∀ c ∈ name, isNameChar c

inductive IsSection : Text → Prop
  | digit {d : Char} (hd : isDecimalDigit d) : IsSection [d]
  | digitLower {d l : Char} (hd : isDecimalDigit d) (hl : isLower l) : IsSection [d, l]

/-- The reference is `man:`, the name, and what is left. -/
structure NamesPage (href name r : Text) : Prop where
  isName : IsName name
  eq : href = "man:".toList ++ (name ++ r)

/-- The name is followed by no character of a name. -/
structure NamesWhole (href name r : Text) : Prop extends NamesPage href name r where
  stops : ∀ c ∈ r.head?, ¬ isNameChar c

/-- The reference is `man:`, the name, the section in parentheses, and what is left. -/
structure NamesSection (href name sec r : Text) : Prop where
  isName : IsName name
  isSection : IsSection sec
  eq : href = "man:".toList ++ (name ++ '(' :: (sec ++ ')' :: r))

variable {href name name' sec sec' r r' : Text}

theorem NamesWhole.prefix_name (h : NamesWhole href name r) (h' : NamesPage href name' r') :
    name' <+: name := by
  have heq : name ++ r = name' ++ r' := List.append_cancel_left (h.eq.symm.trans h'.eq)
  rcases List.append_eq_append_iff.mp heq with ⟨u, hname, hr⟩ | ⟨u, hname, -⟩
  · cases u with
    | nil => exact ⟨[], by rw [List.append_nil, hname, List.append_nil]⟩
    | cons c u =>
      -- a longer name goes on with the first character of what is left
      have hc : isNameChar c := h'.isName.2 c (by simp [hname])
      exact absurd hc (h.stops c (by simp [hr]))
  · exact ⟨u, hname.symm⟩

theorem NamesWhole.unique (h : NamesWhole href name r) (h' : NamesWhole href name' r') :
    name = name' ∧ r = r' := by
  have hle := h'.prefix_name h.toNamesPage
  have hge := h.prefix_name h'.toNamesPage
  obtain rfl := hle.eq_of_length (Nat.le_antisymm hle.length_le hge.length_le)
  exact ⟨rfl, List.append_cancel_left (List.append_cancel_left (h.eq.symm.trans h'.eq))⟩

/-- A name cannot be cut short in front of a section. -/
theorem NamesSection.namesWhole (h : NamesSection href name sec r) :
    NamesWhole href name ('(' :: (sec ++ ')' :: r)) where
  isName := h.isName
  eq := h.eq
  stops := by
    intro c hc
    obtain rfl := Option.some.inj hc
    decide

theorem section?_eq_some_iff {t : Text} : section? t = some sec ↔
    ∃ r, IsSection sec ∧ t = '(' :: (sec ++ ')' :: r) := by
  constructor
  · intro h
    unfold section? at h
    split at h
    · obtain ⟨hd, hsec⟩ := Option.ite_none_right_eq_some.mp h
      obtain rfl := Option.some.inj hsec
      exact ⟨_, .digit hd, rfl⟩
    · obtain ⟨hdl, hsec⟩ := Option.ite_none_right_eq_some.mp h
      obtain rfl := Option.some.inj hsec
      obtain ⟨hd, hl⟩ := Bool.and_eq_true_iff.mp hdl
      exact ⟨_, .digitLower hd hl, rfl⟩
    · contradiction
  · rintro ⟨r, hsec, rfl⟩
    cases hsec with
    | digit hd => simp [section?, hd]
    | @digitLower d l hd hl =>
      -- the letter is not the parenthesis that would close a section without one
      have hclose : l ≠ ')' := by
        rintro rfl
        contradiction
      simp [section?, hd, hl]

theorem NamesWhole.section?_eq_some_iff (h : NamesWhole href name r) : section? r = some sec ↔
    ∃ r', NamesSection href name sec r' := by
  rw [LinkTarget.section?_eq_some_iff]
  constructor
  · rintro ⟨r', hsec, rfl⟩
    exact ⟨r', h.isName, hsec, h.eq⟩
  · rintro ⟨r', h'⟩
    exact ⟨r', h'.isSection, (h.unique h'.namesWhole).2⟩

/-! ## What is read -/

theorem page?_cases (t : Text) :
    (page? t = none ∧ ∀ name r, ¬ NamesPage ("man:".toList ++ t) name r) ∨
    ∃ name r, NamesWhole ("man:".toList ++ t) name r ∧
      page? t = some (.manPage name (section? r)) := by
  have hcut := @List.takeWhile_append_dropWhile _ isNameChar t
  unfold page?
  cases htake : t.takeWhile isNameChar with
  | nil =>
    refine Or.inl ⟨rfl, ?_⟩
    rintro name r ⟨⟨hne, hname⟩, heq⟩
    obtain rfl := List.append_cancel_left heq
    cases name with
    | nil => contradiction
    | cons c name => simp [hname c List.mem_cons_self] at htake
  | cons c name =>
    refine Or.inr ⟨c :: name, t.dropWhile isNameChar, ⟨⟨⟨List.cons_ne_nil c name, ?_⟩, ?_⟩, ?_⟩, rfl⟩
    · rw [← htake]
      exact List.all_eq_true.mp List.all_takeWhile
    · rw [← htake, hcut]
    · intro d hd
      have hstop := List.head?_dropWhile_not isNameChar t
      rw [hd] at hstop
      exact Bool.eq_false_iff.mp hstop

theorem not_namesPage_mail (address name r : Text) :
    ¬ NamesPage ("mailto:".toList ++ address) name r := by
  rintro ⟨-, heq⟩
  simp at heq

theorem ofHref_mail (address : Text) : ofHref ("mailto:".toList ++ address) = .mail address := rfl

theorem ofHref_cases (href : Text) :
    (∃ address, href = "mailto:".toList ++ address) ∨
    (∃ name r, NamesWhole href name r ∧ ofHref href = .manPage name (section? r)) ∨
    (∀ address, href ≠ "mailto:".toList ++ address) ∧ (∀ name r, ¬ NamesPage href name r) ∧
      ofHref href = .url href := by
  rw [ofHref]
  cases hmail : afterMail? href with
  | some address =>
    exact Or.inl ⟨address, (List.isPrefixOf?_eq_some_iff_append_eq.mp hmail).symm⟩
  | none =>
    right
    have hno : ∀ address, href ≠ "mailto:".toList ++ address := by
      rintro address rfl
      contradiction
    cases hman : afterMan? href with
    | none =>
      refine Or.inr ⟨hno, ?_, rfl⟩
      rintro name r ⟨-, rfl⟩
      contradiction
    | some t =>
      obtain rfl := List.isPrefixOf?_eq_some_iff_append_eq.mp hman
      rcases page?_cases t with ⟨hpage, hnone⟩ | ⟨name, r, hwhole, hpage⟩
      · exact Or.inr ⟨hno, hnone, by simp [hpage]⟩
      · exact Or.inl ⟨name, r, hwhole, by simp [hpage]⟩

/-! ## The declared pattern -/

/-- A section in parentheses. The second group is what stands between them. -/
def sectionPattern : Pattern :=
  .andThen (.literal "(".toList)
    (.andThen (.group 2 (.andThen (.one isDecimalDigit) (.optional (.one isLower))))
      (.literal ")".toList))

/-- A reference to a page. The first group is the name. -/
def pagePattern : Pattern :=
  .andThen (.literal "man:".toList)
    (.andThen (.group 1 (.oneOrMore isNameChar)) (.optional sectionPattern))

/-- The page in the groups of a match. -/
def ofWay? (w : Pattern.Way) : Option LinkTarget :=
  (w.group? 1).map fun name => .manPage name (w.group? 2)

/-- The target as the pattern gives it: a page if the first way to match has a name. -/
def byPattern (href : Text) : LinkTarget :=
  (afterMail? href).elim (((pagePattern.firstWay? href).bind ofWay?).getD (.url href)) .mail

open Pattern

theorem mem_ways_section {t : Text} {w : Way} :
    w ∈ (group 2 (andThen (one isDecimalDigit) (optional (one isLower)))).ways t ↔
      ∃ sec r, IsSection sec ∧ t = sec ++ r ∧ w = ⟨sec, [(2, sec)], r⟩ := by
  simp only [mem_ways_group, mem_ways_andThen, mem_ways_optional, mem_ways_one]
  constructor
  · rintro ⟨_, ⟨_, ⟨d, s, hd, rfl, rfl⟩, _, ⟨l, s', hl, rfl, rfl⟩ | rfl, rfl⟩, rfl⟩
    · exact ⟨[d, l], s', .digitLower hd hl, rfl, rfl⟩
    · exact ⟨[d], s, .digit hd, rfl, rfl⟩
  · rintro ⟨sec, r, hsec, rfl, rfl⟩
    cases hsec with
    | @digit d hd => exact ⟨_, ⟨_, ⟨d, r, hd, rfl, rfl⟩, _, Or.inr rfl, rfl⟩, rfl⟩
    | @digitLower d l hd hl =>
      exact ⟨_, ⟨_, ⟨d, l :: r, hd, rfl, rfl⟩, _, Or.inl ⟨l, r, hl, rfl, rfl⟩, rfl⟩, rfl⟩

theorem mem_ways_sectionPattern {t : Text} {w : Way} :
    w ∈ sectionPattern.ways t ↔
      ∃ sec r, IsSection sec ∧ t = '(' :: (sec ++ ')' :: r) ∧
        w = ⟨'(' :: (sec ++ [')']), [(2, sec)], r⟩ := by
  rw [sectionPattern, mem_ways_andThen]
  simp only [mem_ways_andThen, mem_ways_section, mem_ways_literal]
  constructor
  · rintro ⟨_, ⟨s, rfl, rfl⟩, _, ⟨_, ⟨sec, _, hsec, rfl, rfl⟩, _, ⟨r, rfl, rfl⟩, rfl⟩, rfl⟩
    exact ⟨sec, r, hsec, rfl, rfl⟩
  · rintro ⟨sec, r, hsec, rfl, rfl⟩
    exact ⟨_, ⟨_, rfl, rfl⟩, _, ⟨_, ⟨sec, _, hsec, rfl, rfl⟩, _, ⟨r, rfl, rfl⟩, rfl⟩, rfl⟩

theorem group?_sectionPattern (t : Text) :
    ((sectionPattern.firstWay? t).getD ⟨[], [], t⟩).group? 2 = section? t := by
  cases hway : sectionPattern.firstWay? t with
  | none =>
    have hnil := List.head?_eq_none_iff.mp hway
    cases hsec : section? t with
    | none => rfl
    | some sec =>
      obtain ⟨r, hisSec, rfl⟩ := section?_eq_some_iff.mp hsec
      have hmem := mem_ways_sectionPattern.mpr ⟨sec, r, hisSec, rfl, rfl⟩
      rw [hnil] at hmem
      contradiction
  | some w =>
    obtain ⟨sec, r, hsec, rfl, rfl⟩ := mem_ways_sectionPattern.mp (List.mem_of_mem_head? hway)
    exact (section?_eq_some_iff.mpr ⟨r, hsec, rfl⟩).symm

theorem bind_ofWay?_firstWay? (href : Text) :
    (pagePattern.firstWay? href).bind ofWay? = (afterMan? href).bind page? := by
  rw [pagePattern, firstWay?_literal_andThen, afterMan?]
  cases "man:".toList.isPrefixOf? href with
  | none => rfl
  | some t =>
    have hoptional (s : Text) : (optional sectionPattern).firstWay? s ≠ none := by
      rw [firstWay?_optional]
      exact Option.some_ne_none _
    rw [Option.bind_some, Option.bind_some, firstWay?_andThen _ _ hoptional, firstWay?_group,
      firstWay?_oneOrMore]
    unfold page?
    cases htake : t.takeWhile isNameChar with
    | nil => rfl
    | cons c name =>
      rw [if_neg (List.cons_ne_nil c name), Option.map_some, Option.bind_some, firstWay?_optional,
        ← group?_sectionPattern]
      rfl

theorem ofHref_eq_byPattern (href : Text) : ofHref href = byPattern href := by
  rw [ofHref, byPattern, bind_ofWay?_firstWay?]
  cases afterMail? href <;> rfl

/-! ## The target of a reference -/

/-- The target that the rules give the reference. -/
structure Classified (href : Text) (target : LinkTarget) : Prop where
  mail (address : Text) : target = .mail address ↔ href = "mailto:".toList ++ address
  page : (∃ name sec, target = .manPage name sec) ↔ ∃ name r, NamesPage href name r
  name {name : Text} {sec : Option Text} (h : target = .manPage name sec) :
    (∃ r, NamesPage href name r) ∧ ∀ name' r, NamesPage href name' r → name' <+: name
  sec {name sec : Text} {sec? : Option Text} (h : target = .manPage name sec?) :
    sec? = some sec ↔ ∃ name' r, NamesSection href name' sec r
  cut {name sec r : Text} (h : NamesSection href name sec r) : target = .manPage name (some sec)
  unique {name sec r name' sec' r' : Text} (h : NamesSection href name sec r)
    (h' : NamesSection href name' sec' r') : name = name' ∧ sec = sec' ∧ r = r'
  url (rest : Text) : target = .url rest ↔ rest = href ∧
    (∀ address, href ≠ "mailto:".toList ++ address) ∧ ∀ name r, ¬ NamesPage href name r

theorem NamesSection.unique (h : NamesSection href name sec r) (h' : NamesSection href name' sec' r') :
    name = name' ∧ sec = sec' ∧ r = r' := by
  obtain ⟨rfl, hr⟩ := h.namesWhole.unique h'.namesWhole
  have hsec := (h.namesWhole.section?_eq_some_iff).mpr ⟨r, h⟩
  have hsec' := (h'.namesWhole.section?_eq_some_iff).mpr ⟨r', h'⟩
  rw [hr, hsec'] at hsec
  obtain rfl := Option.some.inj hsec
  have hrest := List.append_cancel_left (List.cons.inj hr).2
  exact ⟨rfl, rfl, (List.cons.inj hrest).2⟩

theorem ofHref_eq_mail_iff {address : Text} :
    ofHref href = .mail address ↔ href = "mailto:".toList ++ address := by
  constructor
  · intro h
    rcases ofHref_cases href with ⟨address', rfl⟩ | ⟨name, r, -, htarget⟩ | ⟨-, -, htarget⟩
    · rw [ofHref_mail, mail.injEq] at h
      rw [h]
    · rw [htarget] at h
      contradiction
    · rw [htarget] at h
      contradiction
  · rintro rfl
    exact ofHref_mail address

theorem ofHref_eq_manPage_iff {sec? : Option Text} :
    ofHref href = .manPage name sec? ↔ ∃ r, NamesWhole href name r ∧ sec? = section? r := by
  constructor
  · intro h
    rcases ofHref_cases href with ⟨address, rfl⟩ | ⟨name', r, hwhole, htarget⟩ | ⟨-, -, htarget⟩
    · rw [ofHref_mail] at h
      contradiction
    · rw [htarget, manPage.injEq] at h
      obtain ⟨rfl, rfl⟩ := h
      exact ⟨r, hwhole, rfl⟩
    · rw [htarget] at h
      contradiction
  · rintro ⟨r, hwhole, rfl⟩
    rcases ofHref_cases href with ⟨address, rfl⟩ | ⟨name', r', hwhole', htarget⟩ | ⟨-, hpage, -⟩
    · exact absurd hwhole.toNamesPage (not_namesPage_mail address name r)
    · obtain ⟨rfl, rfl⟩ := hwhole.unique hwhole'
      exact htarget
    · exact absurd hwhole.toNamesPage (hpage name r)

theorem exists_namesWhole (h : NamesPage href name r) : ∃ name r, NamesWhole href name r := by
  rcases ofHref_cases href with ⟨address, rfl⟩ | ⟨name', r', hwhole, -⟩ | ⟨-, hpage, -⟩
  · exact absurd h (not_namesPage_mail address name r)
  · exact ⟨name', r', hwhole⟩
  · exact absurd h (hpage name r)

theorem ofHref_eq_url_iff {rest : Text} :
    ofHref href = .url rest ↔ rest = href ∧
      (∀ address, href ≠ "mailto:".toList ++ address) ∧ ∀ name r, ¬ NamesPage href name r := by
  rcases ofHref_cases href with ⟨address, rfl⟩ | ⟨name, r, hwhole, htarget⟩ | ⟨hmail, hpage, htarget⟩
  · rw [ofHref_mail]
    exact iff_of_false (fun h => by contradiction) (fun h => h.2.1 address rfl)
  · rw [htarget]
    exact iff_of_false (fun h => by contradiction) (fun h => h.2.2 name r hwhole.toNamesPage)
  · rw [htarget, url.injEq]
    exact ⟨fun h => ⟨h.symm, hmail, hpage⟩, fun h => h.1.symm⟩

theorem classified_ofHref (href : Text) : Classified href (ofHref href) where
  mail address := ofHref_eq_mail_iff
  page := by
    simp only [ofHref_eq_manPage_iff]
    constructor
    · rintro ⟨name, -, r, hwhole, -⟩
      exact ⟨name, r, hwhole.toNamesPage⟩
    · rintro ⟨name, r, h⟩
      obtain ⟨name', r', hwhole⟩ := exists_namesWhole h
      exact ⟨name', section? r', r', hwhole, rfl⟩
  name h := by
    obtain ⟨r, hwhole, -⟩ := ofHref_eq_manPage_iff.mp h
    exact ⟨⟨r, hwhole.toNamesPage⟩, fun name' r' => hwhole.prefix_name⟩
  sec h := by
    obtain ⟨r, hwhole, rfl⟩ := ofHref_eq_manPage_iff.mp h
    rw [hwhole.section?_eq_some_iff]
    constructor
    · rintro ⟨r', h'⟩
      exact ⟨_, r', h'⟩
    · rintro ⟨name', r', h'⟩
      obtain ⟨rfl, -⟩ := hwhole.unique h'.namesWhole
      exact ⟨r', h'⟩
  cut h := ofHref_eq_manPage_iff.mpr
    ⟨_, h.namesWhole, (h.namesWhole.section?_eq_some_iff.mpr ⟨_, h⟩).symm⟩
  unique := NamesSection.unique
  url rest := ofHref_eq_url_iff

/-! ## The row of a page -/

def pageRow (name : Text) (sec? : Option Text) : Text :=
  ".BR ".toList ++ (name ++ sec?.elim [] fun sec => " (".toList ++ (sec ++ ")".toList))

theorem link_of_manPage {sec? : Option Text} (h : ofHref href = .manPage name sec?) (body : Text) :
    Fragment.link href body = '\n' :: pageRow name sec? := by
  rw [Fragment.link, h]
  cases sec? with
  | none => simp [pageRow]
  | some sec => simp [pageRow]

def isRowChar (c : Char) : Bool := c == '.' || isPageChar c

theorem isRowChar_of_mem {sec? : Option Text} (h : ofHref href = .manPage name sec?) :
    ∀ c ∈ pageRow name sec?, isRowChar c := by
  obtain ⟨r, hwhole, rfl⟩ := ofHref_eq_manPage_iff.mp h
  have hpage {c : Char} (hc : isPageChar c) : isRowChar c := by rw [isRowChar, hc, Bool.or_true]
  have hstart : ∀ c ∈ ".BR ".toList, isRowChar c := List.all_eq_true.mp (by decide)
  have hopen : ∀ c ∈ " (".toList, isRowChar c := List.all_eq_true.mp (by decide)
  have hclose : ∀ c ∈ ")".toList, isRowChar c := List.all_eq_true.mp (by decide)
  have hname : ∀ c ∈ name, isRowChar c := by
    intro c hc
    apply hpage
    rw [isPageChar, hwhole.isName.2 c hc]
    rfl
  rw [pageRow]
  simp only [List.forall_mem_append]
  refine ⟨hstart, hname, ?_⟩
  cases hsec : section? r with
  | none => exact List.forall_mem_nil _
  | some sec =>
    simp only [Option.elim_some, List.forall_mem_append]
    exact ⟨hopen, fun c hc => hpage (of_section?_eq_some hsec c hc), hclose⟩

/-- A reference is classified by the declared pattern, and the row of a page is one row without an escape. -/
theorem ofHref_follows_pattern (href : Text) :
    Classified href (ofHref href) ∧ ofHref href = byPattern href ∧
    (∀ name sec r, IsName name → IsSection sec →
      ofHref ("man:".toList ++ (name ++ '(' :: (sec ++ ')' :: r))) = .manPage name (some sec)) ∧
    ∀ name sec?, ofHref href = .manPage name sec? →
      '\n' ∉ pageRow name sec? ∧ '\\' ∉ pageRow name sec? ∧
      ∀ body, Fragment.link href body = '\n' :: pageRow name sec? := by
  refine ⟨classified_ofHref href, ofHref_eq_byPattern href, ?_, ?_⟩
  · intro name sec r hname hsec
    exact (classified_ofHref _).cut ⟨hname, hsec, rfl⟩
  · intro name sec? h
    exact ⟨fun hfeed => absurd (isRowChar_of_mem h _ hfeed) (by decide),
      fun hslash => absurd (isRowChar_of_mem h _ hslash) (by decide), link_of_manPage h⟩

/-- After two letters the digit is no section, and the name is kept. -/
example : ofHref "man:ls(1pm)".toList = .manPage "ls".toList none := by decide

end LinkTarget
end ManPage
