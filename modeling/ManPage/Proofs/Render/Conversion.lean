import ManPage.Render.Conversion

/-! # Laws of conversions

What a conversion gives and how many lists it counts, put together from its parts; and when two
conversions differ in no more than what they report.
-/
namespace ManPage

instance : LawfulMonad Conversion := LawfulMonad.mk' Conversion
  (fun c => Conversion.ext fun lists => by simp)
  (fun a f => Conversion.ext fun lists => by simp)
  (fun c f g => Conversion.ext fun lists => by simp)

/-- The conversion gives the result, and counts so many lists on the way. -/
def Gives {α : Type} (c : Conversion α) (k : Nat) (a : α) (count : Nat) : Prop :=
  (c.run k).result = a ∧ (c.run k).lists = k + count

section
variable {α β : Type} {k count more total : Nat} {a : α} {b : β}

theorem gives_pure (a : α) (k : Nat) : Gives (pure a) k a 0 := ⟨rfl, rfl⟩

theorem Gives.bind {c : Conversion α} {f : α → Conversion β} (h : Gives c k a count)
    (hf : Gives (f a) (k + count) b more) (htotal : count + more = total) :
    Gives (c >>= f) k b total := by
  obtain ⟨ha, hcount⟩ := h
  obtain ⟨hb, hmore⟩ := hf
  rw [← ha, ← hcount] at hb hmore
  refine ⟨hb, ?_⟩
  rw [Conversion.run_bind]
  dsimp only
  rw [hmore, hcount, Nat.add_assoc, htotal]

/-- A conversion whose result is only put into a form. -/
theorem Gives.form {c : Conversion α} (h : Gives c k a count) (f : α → β) :
    Gives (c >>= fun a => pure (f a)) k (f a) count :=
  h.bind (gives_pure (f a) _) (Nat.add_zero count)

theorem gives_report (e : Event) (k : Nat) : Gives (Conversion.report e) k () 0 := ⟨rfl, rfl⟩

theorem gives_nextList (k : Nat) : Gives Conversion.nextList k (k + 1) 1 := ⟨rfl, rfl⟩

end

namespace Conversion
variable {α β : Type}

/-- The conversions give the same result and count the same lists, whatever they report. -/
def Agrees (c d : Conversion α) : Prop :=
  ∀ k, (c.run k).result = (d.run k).result ∧ (c.run k).lists = (d.run k).lists

theorem Agrees.refl (c : Conversion α) : c.Agrees c := fun _ => ⟨rfl, rfl⟩

theorem Agrees.symm {c d : Conversion α} (h : c.Agrees d) : d.Agrees c :=
  fun k => ⟨(h k).1.symm, (h k).2.symm⟩

theorem Agrees.trans {c d e : Conversion α} (hcd : c.Agrees d) (hde : d.Agrees e) : c.Agrees e :=
  fun k => ⟨(hcd k).1.trans (hde k).1, (hcd k).2.trans (hde k).2⟩

theorem Agrees.bind {c d : Conversion α} {f g : α → Conversion β} (h : c.Agrees d)
    (hfg : ∀ a, (f a).Agrees (g a)) : (c >>= f).Agrees (d >>= g) := by
  intro k
  obtain ⟨hresult, hlists⟩ := h k
  have hnext := hfg (d.run k).result (d.run k).lists
  rw [run_bind, run_bind, hresult, hlists]
  exact hnext

/-- Agreement of conversions whose results are only put into a form. -/
theorem Agrees.form {c d : Conversion α} (h : c.Agrees d) (f : α → β) :
    (c >>= fun a => pure (f a)).Agrees (d >>= fun a => pure (f a)) :=
  h.bind fun a => .refl (pure (f a))

theorem agrees_report (e : Event) (c : Conversion α) :
    (Conversion.report e >>= fun _ => c).Agrees c := fun _ => ⟨rfl, rfl⟩

/-- The results of the conversions are related, and they count the same lists. -/
def Related (R : α → β → Prop) (c : Conversion α) (d : Conversion β) : Prop :=
  ∀ k, R (c.run k).result (d.run k).result ∧ (c.run k).lists = (d.run k).lists

section
variable {γ δ : Type} {R : α → β → Prop} {S : γ → δ → Prop} {c : Conversion α} {d : Conversion β}

theorem related_pure {a : α} {b : β} (h : R a b) : Related R (pure a) (pure b) := fun _ => ⟨h, rfl⟩

theorem Related.bind {f : α → Conversion γ} {g : β → Conversion δ} (h : c.Related R d)
    (hfg : ∀ a b, R a b → (f a).Related S (g b)) : (c >>= f).Related S (d >>= g) := by
  intro k
  obtain ⟨hresult, hlists⟩ := h k
  have hnext := hfg _ _ hresult (d.run k).lists
  rw [run_bind, run_bind, hlists]
  exact hnext

/-- Related conversions whose results are only put into a form. -/
theorem Related.form {f : α → γ} {g : β → δ} (h : c.Related R d)
    (hfg : ∀ a b, R a b → S (f a) (g b)) :
    (c >>= fun a => pure (f a)).Related S (d >>= fun b => pure (g b)) :=
  h.bind fun a b hab => related_pure (hfg a b hab)

theorem Related.of_report (h : c.Related R d) (e : Event) :
    (Conversion.report e >>= fun _ => c).Related R d := h

/-- What follows on the same conversion. -/
theorem related_bind (c : Conversion α) {f : α → Conversion γ} {g : α → Conversion δ}
    (h : ∀ a, (f a).Related S (g a)) : (c >>= f).Related S (c >>= g) :=
  fun k => h (c.run k).result (c.run k).lists

end

end Conversion

end ManPage
