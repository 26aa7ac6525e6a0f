import ManPage.Proofs.Render.LinkTarget
import ManPage.Proofs.Text.Unescape

/-! # Mail addresses

A link to a mail address has its text in front of the rows that name the address. A text that says no more than
the address is left out. The two are compared as they are written: the text has been escaped and trimmed, the
address is as it was given. An address that is its own text is therefore found again only if nothing in it is
escaped and nothing at its ends is trimmed; the one makes a text longer and the other makes it shorter, but they
never make up for each other.
-/
namespace ManPage
open Text Fragment

/-- The text of a link, where `k` lists come before it. -/
def linkText (children : List Node) (k : Nat) : Text :=
  Fragment.inline ((convertAll children).run k).result

/-- The rows at the end of a link to the address. -/
def mailRows (address : Text) : Text := "\n.MT ".toList ++ (address ++ "\n.ME".toList)

/-- The fragment of a link to the address has its text in front of the rows, unless the text is left out. -/
structure ShowsMail (address text : Text) (leftOut : Prop) (fragment : Text) : Prop where
  bare : leftOut → fragment = mailRows address
  full : ¬ leftOut → fragment = text ++ mailRows address
  told : text ≠ [] → (fragment = mailRows address ↔ leftOut)

/-- A text that is written as it is: nothing in it is escaped, and there is no white space at its ends. -/
structure Text.Unaltered (t : Text) : Prop where
  noBackslash : '\\' ∉ t
  noHyphen : '-' ∉ t
  starts : ∀ c ∈ t.head?, ¬ isWhite c
  ends : ∀ c ∈ t.getLast?, ¬ isWhite c

theorem Text.escape_trim_eq_self_iff_unaltered {t : Text} : escape (trim t) = t ↔ Unaltered t := by
  rw [escape_trim_eq_self_iff, escape_eq_self_iff, trim_eq_self_iff, trimStart_eq_self_iff,
    trimEnd_eq_self_iff]
  constructor
  · rintro ⟨⟨hback, hyphen⟩, hstart, hend⟩
    exact ⟨hback, hyphen, hstart, hend⟩
  · intro h
    exact ⟨⟨h.noBackslash, h.noHyphen⟩, h.starts, h.ends⟩

/-! ## Fragments -/

theorem link_mail (address body : Text) : link ("mailto:".toList ++ address) body =
    (if body = address then [] else body) ++ mailRows address := by
  have hassoc (s a b c : Text) : s ++ a ++ b ++ c = s ++ (a ++ (b ++ c)) := by
    simp only [List.append_assoc]
  rw [link, LinkTarget.ofHref_mail]
  exact hassoc ..

theorem showsMail_link (address body : Text) :
    ShowsMail address body (body = address) (link ("mailto:".toList ++ address) body) := by
  rw [link_mail]
  refine ⟨?_, ?_, ?_⟩
  · intro h
    rw [if_pos h, List.nil_append]
  · intro h
    rw [if_neg h]
  · intro hbody
    by_cases h : body = address <;> simp [h, hbody]

theorem result_convert_link (href : Text) (children : List Node) (k : Nat) :
    ((convert (.link href children)).run k).result = some (link href (linkText children k)) := by
  rw [convert]
  by_cases h : LinkTarget.isMalformed href <;> simp [h, linkText]

theorem linkText_text (value : Text) (k : Nat) : linkText [.text value] k = escape (trim value) := by
  have hparts : ((convertAll [.text value]).run k).result = [escape value] := rfl
  rw [linkText, hparts, Fragment.inline, List.flatten_singleton, trim_escape]

section
variable (address : Text)

theorem exists_showsMail (children : List Node) (k : Nat) : ∃ fragment,
    ((convert (.link ("mailto:".toList ++ address) children)).run k).result = some fragment ∧
    ShowsMail address (linkText children k) (linkText children k = address) fragment :=
  ⟨_, result_convert_link _ children k, showsMail_link address _⟩

theorem exists_showsMail_text (value : Text) (k : Nat) : ∃ fragment,
    ((convert (.link ("mailto:".toList ++ address) [.text value])).run k).result = some fragment ∧
    ShowsMail address (escape (trim value)) (escape (trim value) = address) fragment := by
  rw [← linkText_text value k]
  exact exists_showsMail address [.text value] k

/-- The text of a link to a mail address is left out where it is the address, character for character, and
only there. A single text is left out where it is the address after it has been trimmed and escaped; and where
it is the address as it was given, it is left out if there is no backslash and no hyphen in it and no white
space at its ends, and only then. -/
theorem convert_mail :
    (∀ children k, ∃ fragment,
      ((convert (.link ("mailto:".toList ++ address) children)).run k).result = some fragment ∧
      ShowsMail address (linkText children k) (linkText children k = address) fragment) ∧
    (∀ value k, ∃ fragment,
      ((convert (.link ("mailto:".toList ++ address) [.text value])).run k).result = some fragment ∧
      ShowsMail address (escape (trim value)) (escape (trim value) = address) fragment) ∧
    ∀ k, ∃ fragment,
      ((convert (.link ("mailto:".toList ++ address) [.text address])).run k).result = some fragment ∧
      ShowsMail address (escape (trim address)) (Unaltered address) fragment := by
  refine ⟨exists_showsMail address, exists_showsMail_text address, fun k => ?_⟩
  obtain ⟨fragment, hfragment, hshows⟩ := exists_showsMail_text address address k
  rw [escape_trim_eq_self_iff_unaltered] at hshows
  exact ⟨fragment, hfragment, hshows⟩

end

/-- The text has lost a space and got a backslash, so that it is as long as the first address and not the same.
It is left out for the second one, which has been given as the text is written. -/
example :
    ((convert (.link "mailto: a-b".toList [.text " a-b".toList])).run 0).result =
      some "a\\-b\n.MT  a-b\n.ME".toList ∧
    ((convert (.link "mailto:a\\-b".toList [.text " a-b".toList])).run 0).result =
      some "\n.MT a\\-b\n.ME".toList := by decide

end ManPage
