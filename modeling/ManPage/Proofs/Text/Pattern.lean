import Mathlib.Data.List.Basic
import ManPage.Text.Basic

/-! # Patterns

A pattern is tried at the start of a text. It may match there in several ways, which are had in order of
preference: a repetition takes as much as it can, an optional part is there if it can be. The match is the
first way, so that a way is given up only when nothing that follows goes with it.
-/
namespace ManPage

inductive Pattern
  | literal (word : Text)
  | one (p : Char → Bool)
  | oneOrMore (p : Char → Bool)
  | optional (q : Pattern)
  | group (i : Nat) (q : Pattern)
  | andThen (q r : Pattern)

namespace Pattern

/-- One way to match: what is taken, what the groups take of it, and what is left. -/
structure Way where
  taken : Text
  groups : List (Nat × Text)
  rest : Text

namespace Way

def prepend (c : Char) (w : Way) : Way := { w with taken := c :: w.taken }

def capture (i : Nat) (w : Way) : Way := { w with groups := (i, w.taken) :: w.groups }

def followedBy (v w : Way) : Way := ⟨v.taken ++ w.taken, v.groups ++ w.groups, w.rest⟩

/-- What the group has taken; none if it has no part in this way. -/
def group? (w : Way) (i : Nat) : Option Text := w.groups.lookup i

end Way

/-- The ways to take one or more characters with the property, the longest first. -/
@[simp] def repeats (p : Char → Bool) : Text → List Way
  | [] => []
  | c :: t => if p c then (repeats p t).map (Way.prepend c) ++ [⟨[c], [], t⟩] else []

@[simp] def ways : Pattern → Text → List Way
  | literal word, t => ((word.isPrefixOf? t).map (Way.mk word [])).toList
  | one p, t => (t.head?.filter p).toList.map fun c => ⟨[c], [], t.tail⟩
  | oneOrMore p, t => repeats p t
  | optional q, t => q.ways t ++ [⟨[], [], t⟩]
  | group i q, t => (q.ways t).map (Way.capture i)
  | andThen q r, t => (q.ways t).flatMap fun v => (r.ways v.rest).map v.followedBy

def firstWay? (q : Pattern) (t : Text) : Option Way := (q.ways t).head?

/-! ## Every way to match -/

section
variable {q r : Pattern} {t : Text} {w : Way}

theorem mem_ways_literal {word : Text} :
    w ∈ (literal word).ways t ↔ ∃ s, t = word ++ s ∧ w = ⟨word, [], s⟩ := by
  rw [ways, Option.mem_toList, Option.map_eq_some_iff]
  simp only [List.isPrefixOf?_eq_some_iff_append_eq, @eq_comm _ t, @eq_comm _ w]

theorem mem_ways_one {p : Char → Bool} :
    w ∈ (one p).ways t ↔ ∃ c s, p c ∧ t = c :: s ∧ w = ⟨[c], [], s⟩ := by
  cases t with
  | nil => simp [ways]
  | cons c s => cases hc : p c <;> simp [ways, Option.filter, hc]

theorem mem_ways_optional : w ∈ (optional q).ways t ↔ w ∈ q.ways t ∨ w = ⟨[], [], t⟩ := by
  rw [ways, List.mem_append, List.mem_singleton]

theorem mem_ways_group {i : Nat} :
    w ∈ (group i q).ways t ↔ ∃ v ∈ q.ways t, w = v.capture i := by
  simp only [ways, List.mem_map, eq_comm]

theorem mem_ways_andThen :
    w ∈ (andThen q r).ways t ↔ ∃ v ∈ q.ways t, ∃ u ∈ r.ways v.rest, w = v.followedBy u := by
  simp only [ways, List.mem_flatMap, List.mem_map, eq_comm]

end

/-! ## The first way to match -/

section
variable (q r : Pattern) (t : Text)

/-- A repetition takes the longest run. -/
theorem firstWay?_oneOrMore (p : Char → Bool) :
    (oneOrMore p).firstWay? t =
      if t.takeWhile p = [] then none else some ⟨t.takeWhile p, [], t.dropWhile p⟩ := by
  rw [firstWay?, ways]
  induction t with
  | nil => rfl
  | cons c t ih =>
    by_cases hc : p c
    · rw [repeats, if_pos hc, List.head?_append, List.head?_map, ih, List.takeWhile_cons_of_pos hc,
        List.dropWhile_cons_of_pos hc, if_neg (List.cons_ne_nil _ _)]
      split
      · rename_i htake
        have hcut := @List.takeWhile_append_dropWhile _ p t
        rw [htake, List.nil_append] at hcut
        rw [htake, hcut]
        rfl
      · rfl
    · simp [repeats, hc]

theorem firstWay?_optional :
    (optional q).firstWay? t = some ((q.firstWay? t).getD ⟨[], [], t⟩) := by
  rw [firstWay?, ways, List.head?_append]
  cases hq : (q.ways t).head? <;> simp [firstWay?, hq]

theorem firstWay?_group (i : Nat) :
    (group i q).firstWay? t = (q.firstWay? t).map (Way.capture i) := List.head?_map

/-- A part with only one way to match is followed by the first way of what comes next. -/
theorem firstWay?_literal_andThen (word : Text) :
    (andThen (literal word) r).firstWay? t =
      (word.isPrefixOf? t).bind fun s => (r.firstWay? s).map (Way.mk word [] s).followedBy := by
  rw [firstWay?, ways, ways]
  cases word.isPrefixOf? t with
  | none => rfl
  | some s => simp [firstWay?]

variable {r} in
/-- If what comes next always has a way to match, the first way of the part in front is kept. -/
theorem firstWay?_andThen (hr : ∀ s, r.firstWay? s ≠ none) :
    (andThen q r).firstWay? t =
      (q.firstWay? t).bind fun v => (r.firstWay? v.rest).map v.followedBy := by
  rw [firstWay?, ways, firstWay?]
  cases q.ways t with
  | nil => rfl
  | cons v vs =>
    obtain ⟨w, hw⟩ := Option.ne_none_iff_exists'.mp (hr v.rest)
    rw [List.flatMap_cons, List.head?_append, List.head?_map]
    rw [firstWay?] at hw
    simp [firstWay?, hw]

end

end Pattern
end ManPage
