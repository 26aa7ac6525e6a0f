/-! # Outcomes

How computations that may fail are taken apart: what a sequence of steps does after a success and
after a failure, and what must have succeeded if the whole did.
-/
namespace ManPage.Outcome
variable {ε α β : Type}

instance decEqExcept [DecidableEq ε] [DecidableEq α] : DecidableEq (Except ε α)
  | .ok a, .ok b => decidable_of_iff (a = b) (by simp)
  | .error d, .error e => decidable_of_iff (d = e) (by simp)
  | .ok _, .error _ => isFalse nofun
  | .error _, .ok _ => isFalse nofun

@[simp] theorem pure_eq (a : α) : (pure a : Except ε α) = .ok a := rfl

@[simp] theorem ok_bind (a : α) (f : α → Except ε β) : (Except.ok a >>= f) = f a := rfl

@[simp] theorem error_bind (e : ε) (f : α → Except ε β) : (Except.error e >>= f) = .error e := rfl

@[simp] theorem map_ok (f : α → β) (a : α) : (f <$> Except.ok a : Except ε β) = .ok (f a) := rfl

@[simp] theorem map_error (f : α → β) (e : ε) : (f <$> Except.error e : Except ε β) = .error e := rfl

theorem bind_eq_ok {x : Except ε α} {f : α → Except ε β} {b : β} :
    x >>= f = .ok b ↔ ∃ a, x = .ok a ∧ f a = .ok b := by
  cases x with
  | ok a => simp
  | error e => simp

theorem map_eq_ok {x : Except ε α} {f : α → β} {b : β} :
    f <$> x = .ok b ↔ ∃ a, x = .ok a ∧ f a = b := by
  cases x with
  | ok a => simp
  | error e => simp

theorem mapError_eq_ok {δ : Type} {x : Except ε α} {f : ε → δ} {a : α} :
    x.mapError f = .ok a ↔ x = .ok a := by
  cases x with
  | ok b =>
    have hmap : (Except.ok b : Except ε α).mapError f = .ok b := rfl
    rw [hmap, Except.ok.injEq, Except.ok.injEq]
  | error e =>
    have hmap : (Except.error e : Except ε α).mapError f = .error (f e) := rfl
    rw [hmap]
    simp

@[simp] theorem toOption_ok (a : α) : (Except.ok a : Except ε α).toOption = some a := rfl

@[simp] theorem toOption_error (e : ε) : (Except.error e : Except ε α).toOption = none := rfl

theorem toOption_eq_some {x : Except ε α} {a : α} : x.toOption = some a ↔ x = .ok a := by
  cases x with
  | error e => simp
  | ok b => simp

@[simp] theorem toOption_bind (x : Except ε α) (f : α → Except ε β) :
    (x >>= f).toOption = x.toOption >>= fun a => (f a).toOption := by
  cases x <;> rfl

@[simp] theorem toOption_map (x : Except ε α) (f : α → β) :
    (f <$> x).toOption = f <$> x.toOption := by
  cases x <;> rfl

theorem mapM_cons_eq_ok {f : α → Except ε β} {a : α} {l : List α} {bs : List β} :
    (a :: l).mapM f = .ok bs ↔ ∃ b cs, f a = .ok b ∧ l.mapM f = .ok cs ∧ bs = b :: cs := by
  simp only [List.mapM_cons, bind_eq_ok, pure_eq, Except.ok.injEq]
  constructor
  · rintro ⟨b, hb, cs, hcs, rfl⟩
    exact ⟨b, cs, hb, hcs, rfl⟩
  · rintro ⟨b, cs, hb, hcs, rfl⟩
    exact ⟨b, hb, cs, hcs, rfl⟩

theorem mapM_eq_ok_nil {f : α → Except ε β} {l : List α} : l.mapM f = .ok [] ↔ l = [] := by
  cases l with
  | nil => exact iff_of_true rfl rfl
  | cons a l =>
    rw [mapM_cons_eq_ok]
    simp

theorem mapM_eq_ok_cons {f : α → Except ε β} {l : List α} {b : β} {bs : List β} :
    l.mapM f = .ok (b :: bs) ↔ ∃ a r, l = a :: r ∧ f a = .ok b ∧ r.mapM f = .ok bs := by
  cases l with
  | nil => simp
  | cons a l =>
    rw [mapM_cons_eq_ok]
    constructor
    · rintro ⟨_, _, hb, hbs, heq⟩
      cases heq
      exact ⟨a, l, rfl, hb, hbs⟩
    · rintro ⟨_, _, heq, hb, hbs⟩
      cases heq
      exact ⟨b, bs, hb, hbs, rfl⟩

theorem mapM_append_cons_eq_ok {f : α → Except ε β} {front back : List α} {a : α} {bs : List β} :
    (front ++ a :: back).mapM f = .ok bs ↔ ∃ cs b ds, front.mapM f = .ok cs ∧ f a = .ok b ∧
      back.mapM f = .ok ds ∧ bs = cs ++ b :: ds := by
  induction front generalizing bs with
  | nil =>
    rw [List.nil_append, mapM_cons_eq_ok]
    constructor
    · rintro ⟨b, ds, hb, hds, rfl⟩
      exact ⟨[], b, ds, rfl, hb, hds, rfl⟩
    · rintro ⟨cs, b, ds, hcs, hb, hds, rfl⟩
      cases hcs
      exact ⟨b, ds, hb, hds, rfl⟩
  | cons c front ih =>
    rw [List.cons_append, mapM_cons_eq_ok]
    constructor
    · rintro ⟨d, es, hd, hes, rfl⟩
      obtain ⟨cs, b, ds, hcs, hb, hds, rfl⟩ := ih.mp hes
      exact ⟨d :: cs, b, ds, mapM_cons_eq_ok.mpr ⟨d, cs, hd, hcs, rfl⟩, hb, hds, rfl⟩
    · rintro ⟨_, b, ds, hfront, hb, hds, rfl⟩
      obtain ⟨d, cs, hd, hcs, rfl⟩ := mapM_cons_eq_ok.mp hfront
      exact ⟨d, _, hd, ih.mpr ⟨cs, b, ds, hcs, hb, hds, rfl⟩, rfl⟩

theorem mapM_eq_ok_append_cons {f : α → Except ε β} {l : List α} {cs ds : List β} {b : β} :
    l.mapM f = .ok (cs ++ b :: ds) ↔ ∃ front a back, l = front ++ a :: back ∧
      front.mapM f = .ok cs ∧ f a = .ok b ∧ back.mapM f = .ok ds := by
  constructor
  · intro h
    induction cs generalizing l with
    | nil =>
      obtain ⟨a, back, rfl, hb, hds⟩ := mapM_eq_ok_cons.mp h
      exact ⟨[], a, back, rfl, rfl, hb, hds⟩
    | cons c cs ih =>
      obtain ⟨d, r, rfl, hd, hr⟩ := mapM_eq_ok_cons.mp h
      obtain ⟨front, a, back, rfl, hcs, hb, hds⟩ := ih hr
      exact ⟨d :: front, a, back, rfl, mapM_cons_eq_ok.mpr ⟨c, cs, hd, hcs, rfl⟩, hb, hds⟩
  · rintro ⟨front, a, back, rfl, hcs, hb, hds⟩
    exact mapM_append_cons_eq_ok.mpr ⟨cs, b, ds, hcs, hb, hds, rfl⟩

theorem exists_mapM {f : α → Except ε β} {P : β → Prop} {l : List α}
    (h : ∀ a ∈ l, ∃ b, f a = .ok b ∧ P b) : ∃ bs, l.mapM f = .ok bs ∧ ∀ b ∈ bs, P b := by
  induction l with
  | nil => exact ⟨[], rfl, nofun⟩
  | cons a l ih =>
    obtain ⟨b, hb, hP⟩ := h a List.mem_cons_self
    obtain ⟨bs, hbs, hPs⟩ := ih fun a ha => h a (List.mem_cons_of_mem _ ha)
    exact ⟨b :: bs, mapM_cons_eq_ok.mpr ⟨b, bs, hb, hbs, rfl⟩, List.forall_mem_cons.mpr ⟨hP, hPs⟩⟩

theorem length_of_mapM {f : α → Except ε β} {l : List α} {bs : List β} (h : l.mapM f = .ok bs) :
    bs.length = l.length := by
  induction l generalizing bs with
  | nil =>
    cases h
    rfl
  | cons a l ih =>
    obtain ⟨b, cs, -, hcs, rfl⟩ := mapM_cons_eq_ok.mp h
    rw [List.length_cons, List.length_cons, ih hcs]

/-- Each result of a list of computations is the result of one of them. -/
theorem exists_of_mem_mapM {f : α → Except ε β} {l : List α} {bs : List β} (h : l.mapM f = .ok bs) :
    ∀ b ∈ bs, ∃ a ∈ l, f a = .ok b := by
  induction l generalizing bs with
  | nil =>
    cases h
    nofun
  | cons a l ih =>
    obtain ⟨b, cs, hb, hcs, rfl⟩ := mapM_cons_eq_ok.mp h
    refine List.forall_mem_cons.mpr ⟨⟨a, List.mem_cons_self, hb⟩, ?_⟩
    intro c hc
    obtain ⟨a', ha', hc⟩ := ih hcs c hc
    exact ⟨a', List.mem_cons_of_mem a ha', hc⟩

/-- Where a list of computations succeeds each of them does. -/
theorem exists_ok_of_mapM {f : α → Except ε β} {l : List α} {bs : List β} (h : l.mapM f = .ok bs) :
    ∀ a ∈ l, ∃ b, f a = .ok b := by
  induction l generalizing bs with
  | nil => exact nofun
  | cons a l ih =>
    obtain ⟨b, cs, hb, hcs, rfl⟩ := mapM_cons_eq_ok.mp h
    exact List.forall_mem_cons.mpr ⟨⟨b, hb⟩, ih hcs⟩

/-- Where a run through a list succeeds each step does. -/
theorem exists_ok_of_foldlM {f : β → α → Except ε β} {l : List α} {b c : β}
    (h : l.foldlM f b = .ok c) : ∀ a ∈ l, ∃ d e, f d a = .ok e := by
  induction l generalizing b with
  | nil => exact nofun
  | cons a l ih =>
    rw [List.foldlM_cons] at h
    obtain ⟨d, hd, hrest⟩ := bind_eq_ok.mp h
    exact List.forall_mem_cons.mpr ⟨⟨b, d, hd⟩, ih hrest⟩

/-- What every step keeps is kept by a run through a list. -/
theorem foldlM_invariant {f : β → α → Except ε β} {P : β → Prop}
    (hstep : ∀ b a c, P b → f b a = .ok c → P c) {l : List α} {b c : β} (hb : P b)
    (h : l.foldlM f b = .ok c) : P c := by
  induction l generalizing b with
  | nil =>
    cases h
    exact hb
  | cons a l ih =>
    rw [List.foldlM_cons] at h
    obtain ⟨d, hd, h⟩ := bind_eq_ok.mp h
    exact ih (hstep b a d hb hd) h

end ManPage.Outcome
