import ManPage.Load.Schema
import ManPage.Proofs.Outcome

/-! # Fields one by one

The fields of a node are read in the order in which they are written. Whether that succeeds, and with
what, can be said field by field: it depends on what stands under the key of each field alone.
-/
namespace ManPage.Load
open Json Outcome

namespace Field

abbrev Content : Field → Type
  | value | rawText | href => Text
  | typographic => Typographic
  | quote => Quote
  | level => UInt8
  | children => List Node

/-- What a value is in the place of the field. -/
def read : (f : Field) → Value → Except Mismatch f.Content
  | value, v => readString v
  | typographic, v => readSymbol Typographic.ofName? .unknownTypographic v
  | quote, v => readSymbol Quote.ofName? .unknownQuote v
  | level, v => readLevel v
  | rawText, v => readString v
  | href, v => readString v
  | children, .array items => readNodes items
  | children, v => .error (.invalidType (.ofValue v) .sequence)

/-- The tag is no field. -/
theorem key_ne_tagKey (f : Field) : f.key ≠ tagKey := by
  cases f <;> decide

end Field

namespace Slots

def get (s : Slots) : (f : Field) → Option f.Content
  | .value => s.value
  | .typographic => s.typographic
  | .quote => s.quote
  | .level => s.level
  | .rawText => s.rawText
  | .href => s.href
  | .children => s.children

def put (s : Slots) : (f : Field) → Option f.Content → Slots
  | .value, o => { s with value := o }
  | .typographic, o => { s with typographic := o }
  | .quote, o => { s with quote := o }
  | .level, o => { s with level := o }
  | .rawText, o => { s with rawText := o }
  | .href, o => { s with href := o }
  | .children, o => { s with children := o }

variable (s t : Slots) (f : Field)

@[simp] theorem get_empty : ({} : Slots).get f = none := by
  cases f <;> rfl

@[simp] theorem get_put (o : Option f.Content) : (s.put f o).get f = o := by
  cases f <;> rfl

theorem get_put_of_ne {f k : Field} (h : k ≠ f) (o : Option f.Content) :
    (s.put f o).get k = s.get k := by
  cases f <;> cases k <;> first | rfl | contradiction

theorem has_eq : s.has f = (s.get f).isSome := by
  cases f <;> rfl

variable {s t}

theorem eq_of_get (h : ∀ f, s.get f = t.get f) : s = t := by
  obtain ⟨value, typographic, quote, level, rawText, href, children⟩ := s
  obtain ⟨value', typographic', quote', level', rawText', href', children'⟩ := t
  have hvalue : value = value' := h .value
  have htypographic : typographic = typographic' := h .typographic
  have hquote : quote = quote' := h .quote
  have hlevel : level = level' := h .level
  have hrawText : rawText = rawText' := h .rawText
  have hhref : href = href' := h .href
  have hchildren : children = children' := h .children
  rw [hvalue, htypographic, hquote, hlevel, hrawText, hhref, hchildren]

end Slots

theorem readField_eq (s : Slots) (f : Field) (v : Value) :
    readField s f v = (fun a => s.put f (some a)) <$> f.read v := by
  cases f with
  | children =>
    cases v with
    | scalar _ | object _ => rfl
    | array items =>
      rw [readField, Field.read]
      cases readNodes items <;> rfl
  | value | rawText | href =>
    rw [readField, Field.read]
    cases readString v <;> rfl
  | level =>
    rw [readField, Field.read]
    cases readLevel v <;> rfl
  | typographic =>
    rw [readField, Field.read]
    cases readSymbol Typographic.ofName? .unknownTypographic v <;> rfl
  | quote =>
    rw [readField, Field.read]
    cases readSymbol Quote.ofName? .unknownQuote v <;> rfl

/-- What stands under a key. -/
def under {α : Type} (key : Text) (es : List (Text × α)) : List α :=
  (es.filter fun e => e.1 == key).map Prod.snd

section
variable {α : Type} {key : Text}

@[simp] theorem under_nil : under key ([] : List (Text × α)) = [] := rfl

theorem under_cons_self (a : α) (es : List (Text × α)) :
    under key ((key, a) :: es) = a :: under key es := by
  simp [under]

theorem under_cons_of_ne {other : Text} (h : other ≠ key) (a : α) (es : List (Text × α)) :
    under key ((other, a) :: es) = under key es := by
  simp [under, h]

end

namespace Field

/-- The content of a field from what stands under its key; a field must not be given twice. -/
def gather (f : Field) : List Value → Option f.Content → Option (Option f.Content)
  | [], o => some o
  | v :: vs, none => (f.read v).toOption >>= fun a => gather f vs (some a)
  | _ :: _, some _ => none

end Field

/-- Each field is gathered from what stands under its key. -/
def gatherAll (fs : List Field) (es : List (Text × Value)) (s : Slots) : Option Slots :=
  fs.foldlM (fun s f => s.put f <$> f.gather (under f.key es) (s.get f)) s

/-- No two fields have the same key. -/
def DistinctKeys (fs : List Field) : Prop := (fs.map Field.key).Nodup

theorem distinctKeys_fields (kind : Kind) : DistinctKeys (fields kind) := by
  cases kind <;> (rw [DistinctKeys, fields]; decide)

variable {fs : List Field} {es : List (Text × Value)} {s t : Slots}

theorem DistinctKeys.of_cons {f : Field} (h : DistinctKeys (f :: fs)) :
    (∀ k ∈ fs, k.key ≠ f.key) ∧ DistinctKeys fs := by
  rw [DistinctKeys, List.map_cons, List.nodup_cons] at h
  refine ⟨?_, h.2⟩
  intro k hk hkey
  exact h.1 (hkey ▸ List.mem_map_of_mem hk)

theorem DistinctKeys.eq_of_key_eq (h : DistinctKeys fs) {f k : Field} (hf : f ∈ fs) (hk : k ∈ fs)
    (hkey : f.key = k.key) : f = k := by
  induction fs with
  | nil => contradiction
  | cons d fs ih =>
    obtain ⟨hd, hfs⟩ := h.of_cons
    rcases List.mem_cons.mp hf with rfl | hf'
    · rcases List.mem_cons.mp hk with rfl | hk'
      · rfl
      · exact absurd hkey.symm (hd k hk')
    · rcases List.mem_cons.mp hk with rfl | hk'
      · exact absurd hkey (hd f hf')
      · exact ih hfs hf' hk'

/-- The fields that are gathered have what stands under their keys, all others are as before. -/
def Gathered (fs : List Field) (es : List (Text × Value)) (s t : Slots) : Prop :=
  (∀ f ∈ fs, f.gather (under f.key es) (s.get f) = some (t.get f)) ∧ ∀ f, f ∉ fs → t.get f = s.get f

theorem gatherAll_cons (f : Field) (fs : List Field) (es : List (Text × Value)) (s : Slots) :
    gatherAll (f :: fs) es s =
      f.gather (under f.key es) (s.get f) >>= fun o => gatherAll fs es (s.put f o) := by
  rw [gatherAll, List.foldlM_cons]
  cases f.gather (under f.key es) (s.get f) <;> rfl

theorem gatherAll_eq_some (h : DistinctKeys fs) : gatherAll fs es s = some t ↔ Gathered fs es s t := by
  induction fs generalizing s with
  | nil =>
    simp only [gatherAll, List.foldlM_nil, Gathered]
    constructor
    · rintro ⟨⟩
      exact ⟨nofun, fun _ _ => rfl⟩
    · rintro ⟨-, ht⟩
      rw [Slots.eq_of_get fun f => (ht f (List.not_mem_nil)).symm]
      rfl
  | cons f fs ih =>
    obtain ⟨hf, hfs⟩ := h.of_cons
    have hnot : f ∉ fs := fun hmem => hf f hmem rfl
    have hget (o : Option f.Content) : ∀ k ∈ fs, (s.put f o).get k = s.get k := by
      intro k hk
      exact Slots.get_put_of_ne s (fun hkf : k = f => hnot (hkf ▸ hk)) o
    rw [gatherAll_cons, Option.bind_eq_bind, Option.bind_eq_some_iff]
    constructor
    · rintro ⟨o, ho, hrest⟩
      obtain ⟨hin, hout⟩ := (ih hfs).mp hrest
      have hto : t.get f = o := by rw [hout f hnot, Slots.get_put]
      refine ⟨?_, ?_⟩
      · intro k hk
        rcases List.mem_cons.mp hk with rfl | hk
        · rw [ho, hto]
        · rw [← hget o k hk]
          exact hin k hk
      · intro k hk
        rw [hout k (List.not_mem_of_not_mem_cons hk),
          Slots.get_put_of_ne s (List.ne_of_not_mem_cons hk)]
    · rintro ⟨hin, hout⟩
      refine ⟨t.get f, hin f List.mem_cons_self, (ih hfs).mpr ⟨?_, ?_⟩⟩
      · intro k hk
        rw [hget _ k hk]
        exact hin k (List.mem_cons_of_mem f hk)
      · intro k hk
        by_cases hkf : k = f
        · rw [hkf, Slots.get_put]
        · rw [Slots.get_put_of_ne s hkf]
          exact hout k (List.not_mem_cons_of_ne_of_not_mem hkf hk)

/-- An entry under the key of a field is the next one that is gathered for it. -/
theorem gathered_cons_of_find {key : Text} {v : Value} {f : Field} (h : DistinctKeys fs) (hf : f ∈ fs)
    (hkey : f.key = key) : Gathered fs ((key, v) :: es) s t ↔
      s.has f = false ∧ ∃ a, f.read v = .ok a ∧ Gathered fs es (s.put f (some a)) t := by
  subst hkey
  have hother : ∀ k ∈ fs, k ≠ f → under k.key ((f.key, v) :: es) = under k.key es := by
    intro k hk hkf
    exact under_cons_of_ne (fun hkey => hkf (h.eq_of_key_eq hf hk hkey).symm) v es
  constructor
  · rintro ⟨hin, hout⟩
    have hfirst := hin f hf
    rw [under_cons_self] at hfirst
    cases hget : s.get f with
    | some a =>
      rw [hget] at hfirst
      contradiction
    | none =>
      rw [hget, Field.gather, Option.bind_eq_bind, Option.bind_eq_some_iff] at hfirst
      obtain ⟨a, ha, hfirst⟩ := hfirst
      refine ⟨by rw [Slots.has_eq, hget]; rfl, a, toOption_eq_some.mp ha, ?_, ?_⟩
      · intro k hk
        by_cases hkf : k = f
        · subst hkf
          rwa [Slots.get_put]
        · rw [Slots.get_put_of_ne s hkf, ← hother k hk hkf]
          exact hin k hk
      · intro k hk
        rw [hout k hk, Slots.get_put_of_ne s fun hkf : k = f => hk (hkf ▸ hf)]
  · rintro ⟨hnew, a, ha, hin, hout⟩
    rw [Slots.has_eq, Option.isSome_eq_false_iff, Option.isNone_iff_eq_none] at hnew
    refine ⟨?_, ?_⟩
    · intro k hk
      by_cases hkf : k = f
      · subst hkf
        have hfirst := hin k hk
        rw [Slots.get_put] at hfirst
        rw [under_cons_self, hnew, Field.gather, ha]
        exact hfirst
      · rw [hother k hk hkf, ← Slots.get_put_of_ne s hkf]
        exact hin k hk
    · intro k hk
      rw [hout k hk, Slots.get_put_of_ne s fun hkf : k = f => hk (hkf ▸ hf)]

/-- Where nothing is given every field is left as it is. -/
theorem gathered_nil : Gathered fs [] s t ↔ s = t := by
  constructor
  · rintro ⟨hin, hout⟩
    refine Slots.eq_of_get fun f => ?_
    by_cases hf : f ∈ fs
    · exact Option.some.inj (hin f hf)
    · exact (hout f hf).symm
  · rintro rfl
    exact ⟨fun _ _ => rfl, fun _ _ => rfl⟩

/-- The entries of an object give each field what stands under its key. -/
theorem readEntries_eq_ok (h : DistinctKeys fs) :
    readEntries fs es s = .ok t ↔ Gathered fs es s t := by
  induction es generalizing s with
  | nil =>
    rw [readEntries, Except.ok.injEq, gathered_nil]
  | cons e es ih =>
    obtain ⟨key, v⟩ := e
    rw [readEntries]
    split
    · next hfind =>
      have hkeys : ∀ f ∈ fs, under f.key ((key, v) :: es) = under f.key es := by
        intro f hf
        have hne : ¬ (f.key == key) = true := List.find?_eq_none.mp hfind f hf
        exact under_cons_of_ne (fun hkey => hne (by simp [hkey])) v es
      rw [ih]
      refine and_congr_left fun _ => ?_
      constructor
      · intro hin f hf
        rw [hkeys f hf]
        exact hin f hf
      · intro hin f hf
        rw [← hkeys f hf]
        exact hin f hf
    · next f hfind =>
      have hf : f ∈ fs := List.mem_of_find?_eq_some hfind
      have hkey : f.key = key := by simpa using List.find?_some hfind
      rw [gathered_cons_of_find h hf hkey, readField_eq]
      split
      · next hhas => simp [hhas]
      · next hhas =>
        simp only [bind_eq_ok, map_eq_ok, ih]
        constructor
        · rintro ⟨s', ⟨a, ha, rfl⟩, hrest⟩
          exact ⟨by simpa using hhas, a, ha, hrest⟩
        · rintro ⟨-, a, ha, hrest⟩
          exact ⟨_, ⟨a, ha, rfl⟩, hrest⟩

theorem toOption_readEntries (h : DistinctKeys fs) :
    (readEntries fs es s).toOption = gatherAll fs es s := by
  refine Option.ext fun t => ?_
  rw [toOption_eq_some, readEntries_eq_ok h, gatherAll_eq_some h]

theorem under_zip_of_not_mem {α : Type} {key : Text} {keys : List Text} (h : key ∉ keys) (as : List α) :
    under key (keys.zip as) = [] := by
  induction keys generalizing as with
  | nil => rfl
  | cons k keys ih =>
    cases as with
    | nil => rfl
    | cons a as =>
      rw [List.zip_cons_cons, under_cons_of_ne (List.ne_of_not_mem_cons h).symm]
      exact ih (List.not_mem_of_not_mem_cons h) as

/-- A field with nothing under its key is left as it is. -/
theorem gathered_cons_of_under_nil {f : Field} (h : under f.key es = []) :
    Gathered (f :: fs) es s t ↔ Gathered fs es s t := by
  have hleave : f.gather (under f.key es) (s.get f) = some (t.get f) ↔ t.get f = s.get f := by
    rw [h, Field.gather, Option.some.injEq, eq_comm]
  constructor
  · rintro ⟨hin, hout⟩
    refine ⟨fun k hk => hin k (List.mem_cons_of_mem f hk), ?_⟩
    intro k hk
    by_cases hkf : k = f
    · subst hkf
      exact hleave.mp (hin k List.mem_cons_self)
    · exact hout k (List.not_mem_cons_of_ne_of_not_mem hkf hk)
  · rintro ⟨hin, hout⟩
    refine ⟨?_, fun k hk => hout k (List.not_mem_of_not_mem_cons hk)⟩
    intro k hk
    by_cases hfs : k ∈ fs
    · exact hin k hfs
    · rcases List.mem_cons.mp hk with rfl | hk'
      · exact hleave.mpr (hout k hfs)
      · exact absurd hk' hfs

/-- The elements of an array are given to the fields in their order. -/
theorem readItems_eq_ok (h : DistinctKeys fs) (hs : ∀ f ∈ fs, s.get f = none) (vs : List Value) :
    readItems fs vs s = .ok t ↔ Gathered fs ((fs.map Field.key).zip vs) s t := by
  induction fs generalizing s vs with
  | nil =>
    rw [readItems]
    · rw [Except.ok.injEq, List.map_nil, List.zip_nil_left, gathered_nil]
    · nofun
  | cons f fs ih =>
    cases vs with
    | nil =>
      rw [readItems]
      · rw [Except.ok.injEq, List.zip_nil_right, gathered_nil]
      · nofun
    | cons v vs =>
      obtain ⟨hf, hfs⟩ := h.of_cons
      have hfresh : f.key ∉ fs.map Field.key := by
        intro hmem
        obtain ⟨k, hk, hkey⟩ := List.mem_map.mp hmem
        exact hf k hk hkey
      have hunder := under_zip_of_not_mem hfresh vs
      have hnone : s.has f = false := by
        rw [Slots.has_eq, hs f List.mem_cons_self]
        rfl
      rw [readItems, readField_eq, List.map_cons, List.zip_cons_cons,
        gathered_cons_of_find h List.mem_cons_self rfl]
      simp only [gathered_cons_of_under_nil hunder, bind_eq_ok, map_eq_ok, hnone, true_and]
      have hrest (a : f.Content) : readItems fs vs (s.put f (some a)) = .ok t ↔
          Gathered fs ((fs.map Field.key).zip vs) (s.put f (some a)) t := by
        refine ih hfs ?_ vs
        intro k hk
        rw [Slots.get_put_of_ne s fun hkf : k = f => hf k hk (by rw [hkf])]
        exact hs k (List.mem_cons_of_mem f hk)
      constructor
      · rintro ⟨_, ⟨a, ha, rfl⟩, ht⟩
        exact ⟨a, ha, (hrest a).mp ht⟩
      · rintro ⟨a, ha, ht⟩
        exact ⟨_, ⟨a, ha, rfl⟩, (hrest a).mpr ht⟩

theorem toOption_readItems (h : DistinctKeys fs) (vs : List Value) :
    (readItems fs vs {}).toOption = gatherAll fs ((fs.map Field.key).zip vs) {} := by
  refine Option.ext fun t => ?_
  rw [toOption_eq_some, readItems_eq_ok h (fun f _ => Slots.get_empty f), gatherAll_eq_some h]

end ManPage.Load
