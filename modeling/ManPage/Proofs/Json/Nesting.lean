import ManPage.Proofs.Json.Spelling
import ManPage.Proofs.Outcome

/-! # Nested brackets

How deeply the brackets of a value are nested decides whether there is room for its spelling, and that
is all that room decides: a spelling that has a value at all has it wherever the depth of the value
leaves room, and is too deep everywhere else.
-/
namespace ManPage.Json
open Outcome

namespace Value

mutual

/-- The number of nested brackets. -/
def depth : Value → Nat
  | scalar _ => 0
  | array items => itemsDepth items + 1
  | object entries => entriesDepth entries + 1

def itemsDepth : List Value → Nat
  | [] => 0
  | v :: vs => max (depth v) (itemsDepth vs)

def entriesDepth : List (Text × Value) → Nat
  | [] => 0
  | (_, v) :: es => max (depth v) (entriesDepth es)

end

section Induction
set_option linter.unusedSectionVars false
variable {P : Value → Prop} (scalar : ∀ s, P (.scalar s))
  (array : ∀ items, (∀ v ∈ items, P v) → P (.array items))
  (object : ∀ entries, (∀ e ∈ entries, P e.2) → P (.object entries))
include scalar array object

mutual

/-- What holds of a value if it holds of all values in its brackets holds of every value. -/
theorem induct : ∀ v, P v
  | .scalar s => scalar s
  | .array items => array items (forall_items items)
  | .object entries => object entries (forall_entries entries)

theorem forall_items : ∀ items : List Value, ∀ v ∈ items, P v
  | [] => fun _ h => nomatch h
  | v :: vs => by
    have hv := induct v
    have hvs := forall_items vs
    intro w hw
    rcases List.mem_cons.mp hw with rfl | hw
    · exact hv
    · exact hvs w hw

theorem forall_entries : ∀ entries : List (Text × Value), ∀ e ∈ entries, P e.2
  | [] => fun _ h => nomatch h
  | (key, v) :: es => by
    have hv := induct v
    have hes := forall_entries es
    intro e he
    rcases List.mem_cons.mp he with rfl | he
    · exact hv
    · exact hes e he

end

end Induction

variable {n : Nat}

theorem itemsDepth_le {vs : List Value} : itemsDepth vs ≤ n ↔ ∀ v ∈ vs, v.depth ≤ n := by
  induction vs with
  | nil => simp [itemsDepth]
  | cons v vs ih => rw [itemsDepth, Nat.max_le, ih, List.forall_mem_cons]

theorem entriesDepth_le {es : List (Text × Value)} :
    entriesDepth es ≤ n ↔ ∀ e ∈ es, e.2.depth ≤ n := by
  induction es with
  | nil => simp [entriesDepth]
  | cons e es ih => rw [entriesDepth, Nat.max_le, ih, List.forall_mem_cons]

end Value

section
variable {ε α β : Type} {f g : α → Except ε β} {d : β → Nat} {room : Nat} {e : ε}

/-- If every single result is kept where there is room for it and given up elsewhere, then so is the
list of all. -/
theorem mapM_within {l : List α}
    (h : ∀ a ∈ l, ∀ b, f a = .ok b → g a = if d b ≤ room then .ok b else .error e) {bs : List β}
    (hbs : l.mapM f = .ok bs) :
    l.mapM g = if ∀ b ∈ bs, d b ≤ room then .ok bs else .error e := by
  induction l generalizing bs with
  | nil =>
    cases hbs
    rfl
  | cons a l ih =>
    obtain ⟨b, cs, hb, hcs, rfl⟩ := mapM_cons_eq_ok.mp hbs
    have ha := h a List.mem_cons_self b hb
    have hl := ih (fun a ha => h a (List.mem_cons_of_mem _ ha)) hcs
    simp only [List.mapM_cons, ha, hl, List.forall_mem_cons]
    by_cases hroom : d b ≤ room
    · by_cases hrest : ∀ c ∈ cs, d c ≤ room
      · rw [if_pos hroom, if_pos hrest, if_pos ⟨hroom, hrest⟩]
        rfl
      · have hboth : ¬ (d b ≤ room ∧ ∀ c ∈ cs, d c ≤ room) := fun h => hrest h.2
        rw [if_pos hroom, if_neg hrest, if_neg hboth]
        rfl
    · have hboth : ¬ (d b ≤ room ∧ ∀ c ∈ cs, d c ≤ room) := fun h => hroom h.1
      rw [if_neg hroom, if_neg hboth]
      rfl

end

namespace Spelling

theorem member_eq_ok {room : Nat} {m : Member Spelling} {e : Text × Value} :
    member room m = .ok e ↔ StringUnit.decode m.key.it = .ok e.1 ∧ m.value.it.value room = .ok e.2 := by
  simp only [member, bind_eq_ok, pure_eq, Except.ok.injEq]
  constructor
  · rintro ⟨key, hkey, v, hv, rfl⟩
    exact ⟨hkey, hv⟩
  · rintro ⟨hkey, hv⟩
    exact ⟨e.1, hkey, e.2, hv, rfl⟩

theorem member_within {big room : Nat} {m : Member Spelling} {e : Text × Value}
    (h : member big m = .ok e) (hvalue : m.value.it.value big = .ok e.2 →
      m.value.it.value room = if e.2.depth ≤ room then .ok e.2 else .error .tooDeep) :
    member room m = if e.2.depth ≤ room then .ok e else .error .tooDeep := by
  obtain ⟨hkey, hv⟩ := member_eq_ok.mp h
  rw [member, hkey, ok_bind, hvalue hv]
  split <;> rfl

/-- A spelling with a value has it wherever there is room for the brackets of the value. -/
theorem value_within (s : Spelling) {big : Nat} {v : Value} (h : s.value big = .ok v) (room : Nat) :
    s.value room = if v.depth ≤ room then .ok v else .error .tooDeep := by
  induction s using Spelling.induct generalizing big v room with
  | scalar s =>
    rw [value] at h ⊢
    obtain ⟨x, -, rfl⟩ := map_eq_ok.mp h
    have hroom : (Value.scalar x).depth ≤ room := Nat.zero_le room
    rw [h, if_pos hroom]
  | array inside items ih =>
    cases big with
    | zero => contradiction
    | succ big =>
      rw [value_array_succ] at h
      obtain ⟨vs, hvs, rfl⟩ := map_eq_ok.mp h
      cases room with
      | zero => rfl
      | succ room =>
        have hitems := mapM_within (fun p hp v hv => ih p hp hv room) hvs
        rw [value_array_succ, hitems]
        simp only [Value.depth, Nat.add_le_add_iff_right, Value.itemsDepth_le]
        split <;> rfl
  | object inside entries ih =>
    cases big with
    | zero => contradiction
    | succ big =>
      rw [value_object_succ] at h
      obtain ⟨es, hes, rfl⟩ := map_eq_ok.mp h
      cases room with
      | zero => rfl
      | succ room =>
        have hmember := fun m hm e (he : member big m = .ok e) =>
          member_within he fun hv => ih m hm hv room
        rw [value_object_succ, mapM_within hmember hes]
        simp only [Value.depth, Nat.add_le_add_iff_right, Value.entriesDepth_le]
        split <;> rfl

section
variable {s : Spelling} {room : Nat}

/-- A spelling with a value is written as the kind of value that it has. -/
theorem exists_of_value {v : Value} (h : s.value room = .ok v) :
    (∃ sc x, s = .scalar sc ∧ v = .scalar x ∧ sc.scalar = .ok x) ∨
    (∃ r inside items vs, room = r + 1 ∧ s = .array inside items ∧ v = .array vs ∧
      (items.mapM fun p => p.it.value r) = .ok vs) ∨
    ∃ r inside entries es, room = r + 1 ∧ s = .object inside entries ∧ v = .object es ∧
      entries.mapM (member r) = .ok es := by
  cases s with
  | scalar sc =>
    rw [value] at h
    obtain ⟨x, hx, rfl⟩ := map_eq_ok.mp h
    exact Or.inl ⟨sc, x, rfl, rfl, hx⟩
  | array inside items =>
    cases room with
    | zero => contradiction
    | succ room =>
      rw [value_array_succ] at h
      obtain ⟨vs, hvs, rfl⟩ := map_eq_ok.mp h
      exact Or.inr (Or.inl ⟨room, inside, items, vs, rfl, rfl, rfl, hvs⟩)
  | object inside entries =>
    cases room with
    | zero => contradiction
    | succ room =>
      rw [value_object_succ] at h
      obtain ⟨es, hes, rfl⟩ := map_eq_ok.mp h
      exact Or.inr (Or.inr ⟨room, inside, entries, es, rfl, rfl, rfl, hes⟩)

theorem exists_scalar_of_value {x : Scalar} (h : s.value room = .ok (.scalar x)) :
    ∃ sc, s = .scalar sc ∧ sc.scalar = .ok x := by
  rcases exists_of_value h with ⟨sc, _, rfl, ⟨⟩, hx⟩ | ⟨_, _, _, _, _, _, heq, _⟩ |
    ⟨_, _, _, _, _, _, heq, _⟩
  · exact ⟨sc, rfl, hx⟩
  · contradiction
  · contradiction

theorem exists_array_of_value {vs : List Value} (h : s.value room = .ok (.array vs)) :
    ∃ r inside items, room = r + 1 ∧ s = .array inside items ∧
      (items.mapM fun p => p.it.value r) = .ok vs := by
  rcases exists_of_value h with ⟨_, _, _, heq, _⟩ | ⟨r, inside, items, _, rfl, rfl, ⟨⟩, hvs⟩ |
    ⟨_, _, _, _, _, _, heq, _⟩
  · contradiction
  · exact ⟨r, inside, items, rfl, rfl, hvs⟩
  · contradiction

theorem exists_object_of_value {es : List (Text × Value)} (h : s.value room = .ok (.object es)) :
    ∃ r inside entries, room = r + 1 ∧ s = .object inside entries ∧
      entries.mapM (member r) = .ok es := by
  rcases exists_of_value h with ⟨_, _, _, heq, _⟩ | ⟨_, _, _, _, _, _, heq, _⟩ |
    ⟨r, inside, entries, _, rfl, rfl, ⟨⟩, hes⟩
  · contradiction
  · contradiction
  · exact ⟨r, inside, entries, rfl, rfl, hes⟩

end

end Spelling
end ManPage.Json
