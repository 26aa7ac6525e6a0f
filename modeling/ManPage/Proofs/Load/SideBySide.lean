import ManPage.Proofs.Json.Brackets
import ManPage.Proofs.Load.Grammar

/-! # Reading a node and reading a value

A node of a document is read in the same steps as any JSON value that stands as deep. Only its own tag
is read as what it is, and only when it is closed its fields are looked at. Two readers that go through
the same text, one in a node and one in a value, stay side by side up to then: at each step both go on,
or both find the same fault, or the first one finds that the tag is repeated or no string.
-/
namespace ManPage.Load
open Json Outcome
open Text (Piece)

variable {g g' : Goal}

/-- The tag of a node is repeated, or it is no string. -/
def IsTagMismatch (m : Mismatch) : Prop := m = .duplicate tagKey ∨ ∃ found, m = .invalidType found .tag

/-- Both readings succeed, or both find the same fault, or the first one finds a wrong tag. -/
inductive Together {α β : Type} (P : α → β → Prop) : Except Error α → Except Error β → Prop
  | ok {a : α} {b : β} (h : P a b) : Together P (.ok a) (.ok b)
  | fault (f : Fault) : Together P (.error (.fault f)) (.error (.fault f))
  | tag {m : Mismatch} (h : IsTagMismatch m) (b : β) : Together P (.error (.mismatch m)) (.ok b)

namespace Together
variable {α β : Type} {P : α → β → Prop}

theorem enter (depth : Nat) {a : α} {b : β} (h : P a b) :
    Together P (Load.enter depth a) (Load.enter depth b) := by
  rw [Load.enter, Load.enter]
  split
  · exact ok h
  · exact fault .tooDeep

theorem wrongTag (found : Found) (b : β) : Together P (expected found .tag) (.ok b) :=
  tag (Or.inr ⟨found, rfl⟩) b

end Together

/-! ## Places side by side -/

section
variable (node : NodePlace g) (base : ValuePlace g')

/-- Two places with `k` open brackets from the node and from the value inwards. -/
inductive ValuePlace.Pairs : Nat → ValuePlace g → ValuePlace g' → Prop
  | nodeItem (kind : Kind) (items items' : List Value) :
    Pairs 1 (.nodeItem node kind items) (.item items' base)
  | nodeEntry (kind : Option Kind) (entries entries' : List (Text × Value)) (key key' : Text) :
    Pairs 1 (.nodeEntry node kind entries key) (.entry entries' key' base)
  | item {k : Nat} {p : ValuePlace g} {p' : ValuePlace g'} (h : Pairs k p p')
    (items items' : List Value) : Pairs (k + 1) (.item items p) (.item items' p')
  | entry {k : Nat} {p : ValuePlace g} {p' : ValuePlace g'} (h : Pairs k p p')
    (entries entries' : List (Text × Value)) (key key' : Text) :
    Pairs (k + 1) (.entry entries key p) (.entry entries' key' p')

inductive Slot.Pairs : Nat → Slot g → Slot g' → Prop
  | value {k : Nat} {p : ValuePlace g} {p' : ValuePlace g'} (h : ValuePlace.Pairs node base k p p') :
    Pairs k (.value p) (.value p')
  | tagItem (items' : List Value) : Pairs 1 (.tagItem node) (.value (.item items' base))
  | tagEntry (entries entries' : List (Text × Value)) (key' : Text) :
    Pairs 1 (.tagEntry node entries) (.value (.entry entries' key' base))

inductive OpenArray.Pairs : Nat → OpenArray g → OpenArray g' → Prop
  | node (items' : List Value) : Pairs 1 (.node node) (.value items' base)
  | nodeItems (kind : Kind) (items items' : List Value) :
    Pairs 1 (.nodeItems node kind items) (.value items' base)
  | value {k : Nat} {p : ValuePlace g} {p' : ValuePlace g'} (h : ValuePlace.Pairs node base k p p')
    (items items' : List Value) : Pairs (k + 1) (.value items p) (.value items' p')

inductive OpenObject.Pairs : Nat → OpenObject g → OpenObject g' → Prop
  | node (kind : Option Kind) (entries entries' : List (Text × Value)) :
    Pairs 1 (.node node kind entries) (.value entries' base)
  | value {k : Nat} {p : ValuePlace g} {p' : ValuePlace g'} (h : ValuePlace.Pairs node base k p p')
    (entries entries' : List (Text × Value)) :
    Pairs (k + 1) (.value entries p) (.value entries' p')

inductive Between.Pairs : Nat → Between g → Between g' → Prop
  | value {k : Nat} {s : Slot g} {s' : Slot g'} (h : s.Pairs node base k s') :
    Pairs k (.value s) (.value s')
  | firstItem {k : Nat} {a : OpenArray g} {a' : OpenArray g'} (h : a.Pairs node base k a') :
    Pairs k (.firstItem a) (.firstItem a')
  | nextItem {k : Nat} {a : OpenArray g} {a' : OpenArray g'} (h : a.Pairs node base k a') :
    Pairs k (.nextItem a) (.nextItem a')
  | afterItem {k : Nat} {a : OpenArray g} {a' : OpenArray g'} (h : a.Pairs node base k a') :
    Pairs k (.afterItem a) (.afterItem a')
  | firstKey {k : Nat} {o : OpenObject g} {o' : OpenObject g'} (h : o.Pairs node base k o') :
    Pairs k (.firstKey o) (.firstKey o')
  | nextKey {k : Nat} {o : OpenObject g} {o' : OpenObject g'} (h : o.Pairs node base k o') :
    Pairs k (.nextKey o) (.nextKey o')
  | colon {k : Nat} {s : Slot g} {s' : Slot g'} (h : s.Pairs node base k s') :
    Pairs k (.colon s) (.colon s')
  | afterEntry {k : Nat} {o : OpenObject g} {o' : OpenObject g'} (h : o.Pairs node base k o') :
    Pairs k (.afterEntry o) (.afterEntry o')

inductive Reader.Pairs : Nat → Reader g → Reader g' → Prop
  | between {k : Nat} {b : Between g} {b' : Between g'} (h : b.Pairs node base k b') :
    Pairs k (.between b) (.between b')
  | string {k : Nat} {s : Slot g} {s' : Slot g'} (h : s.Pairs node base k s') (q : Quotation) :
    Pairs k (.string s q) (.string s' q)
  | key {k : Nat} {o : OpenObject g} {o' : OpenObject g'} (h : o.Pairs node base k o')
    (q : Quotation) : Pairs k (.key o q) (.key o' q)
  | numeral {k : Nat} {s : Slot g} {s' : Slot g'} (h : s.Pairs node base k s')
    (phase : NumeralPhase) (spelling : List Char) :
    Pairs k (.numeral s phase spelling) (.numeral s' phase spelling)
  | literal {k : Nat} {s : Slot g} {s' : Slot g'} (h : s.Pairs node base k s') (x : Scalar)
    (next : Char) (rest : List Char) (hplain : ∀ d ∈ next :: rest, ¬ IsStructural d) :
    Pairs k (.literal s x next rest) (.literal s' x next rest)

end

def Reader.mode : Reader g → LexMode
  | string _ q | key _ q => q.phase.mode
  | between _ | numeral _ _ _ | literal _ _ _ _ => .token

/-- The reader is in an escape that can only fail. -/
def Reader.IsDoomed : Reader g → Prop
  | string _ q | key _ q => q.phase.IsDoomed
  | between _ | numeral _ _ _ | literal _ _ _ _ => False

section
variable {node : NodePlace g} {base : ValuePlace g'} {k : Nat}

theorem ValuePlace.Pairs.depth {p : ValuePlace g} {p' : ValuePlace g'}
    (h : ValuePlace.Pairs node base k p p') :
    p.depth = node.depth + k ∧ p'.depth = base.depth + k := by
  induction h with
  | nodeItem _ _ _ | nodeEntry _ _ _ _ _ => exact ⟨rfl, rfl⟩
  | item _ _ _ ih | entry _ _ _ _ _ ih =>
    obtain ⟨hp, hp'⟩ := ih
    simp only [ValuePlace.depth, hp, hp']
    omega

theorem ValuePlace.Pairs.deliver {p : ValuePlace g} {p' : ValuePlace g'}
    (h : ValuePlace.Pairs node base k p p')
    (v v' : Value) : (p.deliver v).Pairs node base k (p'.deliver v') := by
  cases h with
  | nodeItem kind items items' => exact .afterItem (.nodeItems kind (v :: items) (v' :: items'))
  | nodeEntry kind entries entries' key key' =>
    exact .afterEntry (.node kind ((key, v) :: entries) ((key', v') :: entries'))
  | item h items items' => exact .afterItem (.value h (v :: items) (v' :: items'))
  | entry h entries entries' key key' =>
    exact .afterEntry (.value h ((key, v) :: entries) ((key', v') :: entries'))

theorem OpenArray.Pairs.slot {a : OpenArray g} {a' : OpenArray g'} (h : a.Pairs node base k a') :
    a.slot.Pairs node base k a'.slot := by
  cases h with
  | node items' => exact .tagItem items'
  | nodeItems kind items items' => exact .value (.nodeItem kind items items')
  | value h items items' => exact .value (.item h items items')

theorem OpenObject.Pairs.slot {o : OpenObject g} {o' : OpenObject g'} (h : o.Pairs node base k o')
    (key : Text) : Together (Slot.Pairs node base k) (o.slot key) (o'.slot key) := by
  cases h with
  | node kind entries entries' =>
    by_cases hkey : key = tagKey
    · simp only [OpenObject.slot, if_pos hkey]
      cases kind with
      | some kind => exact .tag (Or.inl rfl) _
      | none => exact .ok (.tagEntry entries entries' key)
    · simp only [OpenObject.slot, if_neg hkey]
      exact .ok (.value (.nodeEntry kind entries entries' key key))
  | value h entries entries' => exact .ok (.value (.entry h entries entries' key key))

theorem OpenArray.Pairs.strict {a : OpenArray g} {a' : OpenArray g'} (h : a.Pairs node base k a') :
    a.strict = true ∧ a'.strict = true := by
  cases h <;> exact ⟨rfl, rfl⟩

theorem OpenObject.Pairs.strict {o : OpenObject g} {o' : OpenObject g'} (h : o.Pairs node base k o') :
    o.strict = true ∧ o'.strict = true := by
  cases h <;> exact ⟨rfl, rfl⟩

/-- An array or object is closed: the outermost one, or one inside it. -/
def Closing (node : NodePlace g) (base : ValuePlace g') (k : Nat) (x : Except Error (Between g))
    (y : Except Error (Between g')) : Prop :=
  (k = 1 ∧ (∃ v, y = .ok (base.deliver v)) ∧
    ((∃ n, x = .ok (node.deliver n)) ∨ ∃ m, x = .error (.mismatch m))) ∨
  ∃ b b', x = .ok b ∧ y = .ok b' ∧ k ≠ 1 ∧ b.Pairs node base (k - 1) b'

theorem closing_ofMismatch (x : Except Mismatch Node) (v : Value) :
    Closing node base 1 (ofMismatch x >>= fun n => pure (node.deliver n)) (.ok (base.deliver v)) := by
  refine Or.inl ⟨rfl, ⟨v, rfl⟩, ?_⟩
  cases x with
  | ok n => exact Or.inl ⟨n, rfl⟩
  | error m => exact Or.inr ⟨m, rfl⟩

theorem ValuePlace.Pairs.closing {p : ValuePlace g} {p' : ValuePlace g'}
    (h : ValuePlace.Pairs node base k p p')
    (v v' : Value) : Closing node base (k + 1) (.ok (p.deliver v)) (.ok (p'.deliver v')) := by
  have hk : k ≠ 0 := by
    cases h <;> exact Nat.succ_ne_zero _
  refine Or.inr ⟨_, _, rfl, rfl, by omega, ?_⟩
  exact h.deliver v v'

theorem OpenArray.Pairs.close {a : OpenArray g} {a' : OpenArray g'} (h : a.Pairs node base k a') :
    Closing node base k a.close a'.close := by
  cases h with
  | node items' => exact Or.inl ⟨rfl, ⟨_, rfl⟩, Or.inr ⟨_, rfl⟩⟩
  | nodeItems kind items items' => exact closing_ofMismatch _ _
  | value h items items' => exact h.closing _ _

theorem OpenObject.Pairs.close {o : OpenObject g} {o' : OpenObject g'} (h : o.Pairs node base k o') :
    Closing node base k o.close o'.close := by
  cases h with
  | node kind entries entries' =>
    cases kind with
    | none => exact Or.inl ⟨rfl, ⟨_, rfl⟩, Or.inr ⟨_, rfl⟩⟩
    | some kind => exact closing_ofMismatch _ _
  | value h entries entries' => exact h.closing _ _

/-! ## Values side by side -/

theorem Slot.Pairs.scalar {s : Slot g} {s' : Slot g'} (h : s.Pairs node base k s') (x : Scalar) :
    Together (Between.Pairs node base k) (s.scalar x) (s'.scalar x) := by
  cases h with
  | value h => exact .ok (h.deliver _ _)
  | tagItem items' =>
    cases x with
    | string t => exact .ok (.afterItem (.nodeItems _ _ _))
    | null | bool _ | number _ => exact .wrongTag _ _
  | tagEntry entries entries' key' =>
    cases x with
    | string t => exact .ok (.afterEntry (.node _ _ _))
    | null | bool _ | number _ => exact .wrongTag _ _

theorem Slot.Pairs.strict {s : Slot g} {s' : Slot g'} (h : s.Pairs node base k s') :
    s.strict = true ∧ s'.strict = true := by
  cases h <;> exact ⟨rfl, rfl⟩

theorem Slot.Pairs.readNumeral {s : Slot g} {s' : Slot g'} (h : s.Pairs node base k s')
    (spelling : List Char) :
    Together (Between.Pairs node base k) (s.numeral spelling) (s'.numeral spelling) := by
  rw [Slot.numeral, Slot.numeral, if_pos h.strict.1, if_pos h.strict.2]
  cases Numeral.number? spelling with
  | none => exact .fault .numberTooLarge
  | some n => exact h.scalar (.number n)

section
variable (hdepth : node.depth = base.depth) (hroom : base.depth + 1 < maxDepth)
include hdepth hroom

theorem Slot.Pairs.openArray {s : Slot g} {s' : Slot g'} (h : s.Pairs node base k s') :
    Together (OpenArray.Pairs node base (k + 1)) s.openArray s'.openArray := by
  cases h with
  | value h =>
    rw [Slot.openArray, Slot.openArray, h.depth.1, h.depth.2, hdepth]
    exact .enter _ (.value h [] [])
  | tagItem items' | tagEntry entries entries' key' =>
    rw [Slot.openArray, Slot.openArray, enter, ValuePlace.depth, if_pos hroom]
    exact .wrongTag _ _

theorem Slot.Pairs.openObject {s : Slot g} {s' : Slot g'} (h : s.Pairs node base k s') :
    Together (OpenObject.Pairs node base (k + 1)) s.openObject s'.openObject := by
  cases h with
  | value h =>
    rw [Slot.openObject, Slot.openObject, h.depth.1, h.depth.2, hdepth]
    exact .enter _ (.value h [] [])
  | tagItem items' | tagEntry entries entries' key' =>
    rw [Slot.openObject, Slot.openObject, enter, ValuePlace.depth, if_pos hroom]
    exact .wrongTag _ _

end

end

/-! ## Steps side by side -/

section
variable (node : NodePlace g) (base : ValuePlace g')

/-- What a character leads to, with `k` open brackets before it: both readers go on where brackets and
quotes put them, or in an escape that can only fail; both find the same fault; the first one finds a
wrong tag; or the node and the value are closed. -/
inductive Advances (mode : LexMode) (k : Nat) (c : Char) :
    Except Error (Reader g) → Except Error (Reader g') → Prop
  | both {r : Reader g} {r' : Reader g'} (h : r.Pairs node base (mode.count k c) r')
    (hmode : r.IsDoomed ∨ ¬ r.IsDoomed ∧ r.mode = mode.next c) : Advances mode k c (.ok r) (.ok r')
  | fault (f : Fault) : Advances mode k c (.error (.fault f)) (.error (.fault f))
  | tag {m : Mismatch} (h : IsTagMismatch m) (b : Between g') :
    Advances mode k c (.error (.mismatch m)) (.ok (.between b))
  | closed (h : mode.count k c = 0) (n : Node) (v : Value) :
    Advances mode k c (.ok (.between (node.deliver n))) (.ok (.between (base.deliver v)))
  | refused (h : mode.count k c = 0) (m : Mismatch) (v : Value) :
    Advances mode k c (.error (.mismatch m)) (.ok (.between (base.deliver v)))

end

section
variable {node : NodePlace g} {base : ValuePlace g'} {k : Nat} {c : Char}

/-- Outside of strings nothing but quotes and brackets changes the mode and the brackets. -/
theorem Advances.plain {r : Reader g} {r' : Reader g'} (hc : ¬ IsStructural c)
    (h : r.Pairs node base k r') (hsound : ¬ r.IsDoomed) (hmode : r.mode = .token) :
    Advances node base .token k c (.ok r) (.ok r') := by
  refine .both ?_ (Or.inr ⟨hsound, ?_⟩)
  · rwa [LexMode.count_token hc]
  · rw [hmode, LexMode.next_token hc]

theorem Advances.between {b : Between g} {b' : Between g'} (hc : ¬ IsStructural c)
    (h : b.Pairs node base k b') :
    Advances node base .token k c (.ok (.between b)) (.ok (.between b')) :=
  .plain hc (.between h) id rfl

theorem Together.advances {α β : Type} {P : α → β → Prop} {x : Except Error α} {y : Except Error β}
    (h : Together P x y) {f : α → Between g} {f' : β → Between g'} {mode : LexMode}
    (hmode : mode.next c = .token) (hf : ∀ a b, P a b → (f a).Pairs node base (mode.count k c) (f' b)) :
    Advances node base mode k c (x >>= fun a => pure (Reader.between (f a)))
      (y >>= fun b => pure (Reader.between (f' b))) := by
  cases h with
  | ok h => exact .both (.between (hf _ _ h)) (Or.inr ⟨id, hmode.symm⟩)
  | fault f => exact .fault f
  | tag h b => exact .tag h (f' b)

theorem Closing.advances {x : Except Error (Between g)} {y : Except Error (Between g')}
    (h : Closing node base k x y) (hc : c = ']' ∨ c = '}') :
    Advances node base .token k c (x >>= fun b => pure (Reader.between b))
      (y >>= fun b => pure (Reader.between b)) := by
  have hcount : LexMode.token.count k c = k - 1 := by
    rcases hc with rfl | rfl <;> rfl
  have hmode : LexMode.token.next c = .token := by
    rcases hc with rfl | rfl <;> rfl
  rcases h with ⟨rfl, ⟨v, rfl⟩, ⟨n, rfl⟩ | ⟨m, rfl⟩⟩ | ⟨b, b', rfl, rfl, -, hpairs⟩
  · exact .closed hcount n v
  · exact .refused hcount m v
  · refine .both (.between ?_) (Or.inr ⟨id, hmode.symm⟩)
    rwa [hcount]

theorem Slot.start_char (slot : Slot g) (c : Char) : slot.start (.char c) =
    if c = '[' then (do return .between (.firstItem (← slot.openArray)))
    else if c = '{' then (do return .between (.firstKey (← slot.openObject)))
    else if c = '"' then .ok (.string slot {})
    else if c = 't' then .ok (.literal slot (.bool true) 'r' ['u', 'e'])
    else if c = 'f' then .ok (.literal slot (.bool false) 'a' ['l', 's', 'e'])
    else if c = 'n' then .ok (.literal slot .null 'u' ['l', 'l'])
    else match NumeralPhase.start? c with
      | some phase => .ok (.numeral slot phase [c])
      | none => Load.fault .expectedValue := by
  unfold Slot.start
  split
  case h_7 hArray hObject hString hTrue hFalse hNull hc =>
    cases hc
    cases NumeralPhase.start? c <;>
      simp only [if_neg hArray, if_neg hObject, if_neg hString, if_neg hTrue, if_neg hFalse, if_neg hNull]
  case h_8 => contradiction
  all_goals
    next hc =>
      cases hc
      rfl

section
variable (hdepth : node.depth = base.depth) (hroom : base.depth + 1 < maxDepth)
include hdepth hroom

theorem Slot.Pairs.start {s : Slot g} {s' : Slot g'} (h : s.Pairs node base k s') :
    Advances node base .token k c (s.start (.char c)) (s'.start (.char c)) := by
  have hliteral (x : Scalar) (next : Char) (rest : List Char) (hc : ¬ IsStructural c)
      (hplain : ∀ d ∈ next :: rest, ¬ IsStructural d) :
      Advances node base .token k c (.ok (.literal s x next rest)) (.ok (.literal s' x next rest)) :=
    .plain hc (.literal h x next rest hplain) id rfl
  rw [Slot.start_char, Slot.start_char]
  by_cases hArray : c = '['
  · subst hArray
    exact (h.openArray hdepth hroom).advances rfl fun a b hab => .firstItem hab
  by_cases hObject : c = '{'
  · subst hObject
    exact (h.openObject hdepth hroom).advances rfl fun a b hab => .firstKey hab
  by_cases hString : c = '"'
  · subst hString
    exact .both (.string h {}) (Or.inr ⟨id, rfl⟩)
  by_cases hTrue : c = 't'
  · subst hTrue
    exact hliteral _ _ _ (by decide) (by simp [IsStructural])
  by_cases hFalse : c = 'f'
  · subst hFalse
    exact hliteral _ _ _ (by decide) (by simp [IsStructural])
  by_cases hNull : c = 'n'
  · subst hNull
    exact hliteral _ _ _ (by decide) (by simp [IsStructural])
  simp only [hArray, hObject, hString, hTrue, hFalse, hNull, if_false]
  cases hphase : NumeralPhase.start? c with
  | none => exact .fault .expectedValue
  | some phase => exact .plain (not_isStructural_of_start? hphase) (.numeral h phase [c]) id rfl

theorem Between.Pairs.token {b : Between g} {b' : Between g'} (h : b.Pairs node base k b') :
    Advances node base .token k c (b.token (.char c)) (b'.token (.char c)) := by
  cases h with
  | value h => exact h.start hdepth hroom
  | firstItem h =>
    simp only [Between.token, Piece.char.injEq]
    split
    · next hc => exact h.close.advances (Or.inl hc)
    · exact h.slot.start hdepth hroom
  | nextItem h =>
    simp only [Between.token, Piece.char.injEq, h.strict, and_true]
    split
    · exact .fault .trailingComma
    · exact h.slot.start hdepth hroom
  | afterItem h =>
    simp only [Between.token, Piece.char.injEq]
    split
    · next hc =>
      subst hc
      exact .between (by decide) (.nextItem h)
    split
    · next hc => exact h.close.advances (Or.inl hc)
    · exact .fault .expectedItemEnd
  | firstKey h =>
    simp only [Between.token, Piece.char.injEq]
    split
    · next hc => exact h.close.advances (Or.inr hc)
    split
    · next hc =>
      subst hc
      exact .both (.key h {}) (Or.inr ⟨id, rfl⟩)
    · exact .fault .expectedKey
  | nextKey h =>
    simp only [Between.token, Piece.char.injEq, h.strict, and_true]
    split
    · next hc =>
      subst hc
      exact .both (.key h {}) (Or.inr ⟨id, rfl⟩)
    split
    · exact .fault .trailingComma
    · exact .fault .expectedKey
  | colon h =>
    simp only [Between.token, Piece.char.injEq]
    split
    · next hc =>
      subst hc
      exact .between (by decide) (.value h)
    · exact .fault .expectedColon
  | afterEntry h =>
    simp only [Between.token, Piece.char.injEq]
    split
    · next hc =>
      subst hc
      exact .between (by decide) (.nextKey h)
    split
    · next hc => exact h.close.advances (Or.inr hc)
    · exact .fault .expectedEntryEnd

theorem Between.Pairs.step {b : Between g} {b' : Between g'} (h : b.Pairs node base k b') :
    Advances node base .token k c (b.step (.char c)) (b'.step (.char c)) := by
  rw [Between.step, Between.step]
  split
  · next hspace => exact .between (not_isStructural_of_isBlank hspace) h
  · exact h.token hdepth hroom

end

/-- A step inside a string, with what the closing quote leads to. -/
theorem advances_quotation {q : Quotation} {strict : Bool} {string : Quotation → Reader g}
    {string' : Quotation → Reader g'} {close : Text → Except Error (Reader g)}
    {close' : Text → Except Error (Reader g')} {x : Except Error (Reader g)}
    {x' : Except Error (Reader g')}
    (hx : x = match q.step strict (.char c) with
      | .error f => Load.fault f
      | .ok (.next q) => .ok (string q)
      | .ok (.closed t) => close t)
    (hx' : x' = match q.step strict (.char c) with
      | .error f => Load.fault f
      | .ok (.next q) => .ok (string' q)
      | .ok (.closed t) => close' t)
    (hstring : ∀ q, (string q).Pairs node base k (string' q) ∧ (string q).mode = q.phase.mode ∧
      ((string q).IsDoomed ↔ q.phase.IsDoomed))
    (hclose : ∀ t, c = '"' → q.phase.mode = .string →
      Advances node base q.phase.mode k c (close t) (close' t)) :
    Advances node base q.phase.mode k c x x' := by
  have hcount : q.phase.mode.count k c = k := by
    cases q.phase <;> rfl
  subst hx hx'
  cases hstep : q.step strict (.char c) with
  | error f => exact .fault f
  | ok s =>
    rcases Quotation.step_mode hstep with ⟨t, rfl, hmode, hc⟩ | ⟨r, rfl, hr⟩
    · exact hclose t hc hmode
    · obtain ⟨hpairs, hmode, hdoomed⟩ := hstring r
      refine .both (by rwa [hcount]) ?_
      rcases hr with hr | ⟨hr, hnext⟩
      · exact Or.inl (hdoomed.mpr hr)
      · exact Or.inr ⟨fun h => hr (hdoomed.mp h), hmode.trans hnext⟩

section
variable (hdepth : node.depth = base.depth) (hroom : base.depth + 1 < maxDepth)
include hdepth hroom

/-- A tag that is a number is found to be wrong at the character behind it, whatever that is. -/
theorem Reader.step_numerals {s : Slot g} {s' : Slot g'} (h : s.Pairs node base k s')
    (phase : NumeralPhase) (spelling : List Char) :
    Advances node base .token k c ((Reader.numeral s phase spelling).step (.char c))
      ((Reader.numeral s' phase spelling).step (.char c)) ∨
    ∃ m, IsTagMismatch m ∧ (Reader.numeral s phase spelling).step (.char c) = .error (.mismatch m) ∧
      (Reader.numeral s phase spelling).step (.char ' ') = .error (.mismatch m) ∧
      ∃ b, (Reader.numeral s' phase spelling).step (.char ' ') = .ok (.between b) := by
  simp only [Reader.step, NumeralPhase.stepPiece]
  cases hphase : phase.step c with
  | next next =>
    exact Or.inl (.plain (not_isStructural_of_step hphase) (.numeral h next (c :: spelling)) id rfl)
  | invalid => exact Or.inl (.fault .invalidNumeral)
  | ended =>
    have hspace : phase.step ' ' = .ended := by
      have hcomplete := NumeralPhase.complete_of_ended hphase
      cases phase <;> first | rfl | contradiction
    have htogether := h.readNumeral spelling.reverse
    simp only [hspace]
    generalize s.numeral spelling.reverse = x at htogether ⊢
    generalize s'.numeral spelling.reverse = x' at htogether ⊢
    cases htogether with
    | ok h => exact Or.inl (h.step hdepth hroom)
    | fault f => exact Or.inl (.fault f)
    | tag h b => exact Or.inr ⟨_, h, rfl, rfl, b, rfl⟩

/-- Readers that are side by side stay so at each character, but for a tag that is a number. -/
theorem Reader.Pairs.step {r : Reader g} {r' : Reader g'} (h : r.Pairs node base k r') :
    Advances node base r.mode k c (r.step (.char c)) (r'.step (.char c)) ∨
    ∃ m, IsTagMismatch m ∧ r.step (.char c) = .error (.mismatch m) ∧
      r.step (.char ' ') = .error (.mismatch m) ∧ ∃ b, r'.step (.char ' ') = .ok (.between b) := by
  cases h with
  | between h => exact Or.inl (h.step hdepth hroom)
  | string h q =>
    refine Or.inl (advances_quotation rfl (by rw [h.strict.1, ← h.strict.2]; rfl)
      (fun q => ⟨.string h q, rfl, Iff.rfl⟩) ?_)
    intro t hc hmode
    subst hc
    rw [hmode]
    exact (h.scalar (.string t)).advances rfl fun a b hab => hab
  | key h q =>
    refine Or.inl (advances_quotation rfl (by rw [h.strict.1, ← h.strict.2]; rfl)
      (fun q => ⟨.key h q, rfl, Iff.rfl⟩) ?_)
    intro t hc hmode
    subst hc
    rw [hmode]
    exact (h.slot t).advances rfl fun a b hab => .colon hab
  | literal h x next rest hplain =>
    left
    simp only [Reader.step, Piece.char.injEq]
    split
    · next hc =>
      subst hc
      have hc := hplain c List.mem_cons_self
      cases rest with
      | nil =>
        refine (h.scalar x).advances (LexMode.next_token hc) fun a b hab => ?_
        rwa [Reader.mode, LexMode.count_token hc]
      | cons d rest =>
        have hrest : ∀ e ∈ d :: rest, ¬ IsStructural e := fun e he => hplain e (List.mem_cons_of_mem c he)
        exact .plain hc (.literal h x d rest hrest) id rfl
    · exact .fault .expectedLiteral
  | numeral h phase spelling => exact Reader.step_numerals hdepth hroom h phase spelling

end

end
end ManPage.Load
