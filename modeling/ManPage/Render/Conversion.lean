import ManPage.Tree.Kind

/-! # Conversions

A conversion is told how many ordered lists came before it. It answers a result, how many there are
after it, and the events on the way, each with its level.
-/
namespace ManPage

/-! ## Events -/

inductive Level
  | trace | debug | info | warn | error
deriving DecidableEq, Repr, Inhabited

namespace Level

def rank : Level → Nat
  | trace => 0
  | debug => 1
  | info => 2
  | warn => 3
  | error => 4

def name : Level → Text
  | trace => "TRACE".toList
  | debug => "DEBUG".toList
  | info => "INFO".toList
  | warn => "WARN".toList
  | error => "ERROR".toList

end Level

inductive Event
  | dropped (kind : Kind)
  | skipped (kind : Kind)
  | register (index : Nat)
  | malformedLink (href : Text)
deriving DecidableEq, Repr, Inhabited

namespace Event

def level : Event → Level
  | dropped _ | skipped _ => .debug
  | register _ => .trace
  | malformedLink _ => .warn

def message : Event → Text
  | dropped _ => "dropping node with no conversion rule".toList
  | skipped _ => "skipping non-item child of list".toList
  | register _ => "allocated ordered list register".toList
  | malformedLink _ => "malformed man: link, rendering as a plain URL".toList

end Event

/-! ## Walks -/

structure Walk (α : Type) where
  result : α
  lists : Nat
  events : List Event
deriving DecidableEq, Repr

def Conversion (α : Type) := Nat → Walk α

namespace Conversion

def run {α : Type} (c : Conversion α) (lists : Nat) : Walk α := c lists

instance : Monad Conversion where
  pure a := fun lists => ⟨a, lists, []⟩
  bind c f := fun lists =>
    let w := c lists
    let v := f w.result w.lists
    ⟨v.result, v.lists, w.events ++ v.events⟩

def report (e : Event) : Conversion Unit := fun lists => ⟨(), lists, [e]⟩

/-- Takes the next number for an ordered list. -/
def nextList : Conversion Nat := fun lists => ⟨lists + 1, lists + 1, [.register (lists + 1)]⟩

variable {α β : Type} (lists : Nat)

@[ext] theorem ext {c d : Conversion α} (h : ∀ lists, c.run lists = d.run lists) : c = d :=
  funext h

@[simp] theorem run_pure (a : α) : (pure a : Conversion α).run lists = ⟨a, lists, []⟩ := rfl

@[simp] theorem run_bind (c : Conversion α) (f : α → Conversion β) :
    (c >>= f).run lists =
      ⟨((f (c.run lists).result).run (c.run lists).lists).result,
       ((f (c.run lists).result).run (c.run lists).lists).lists,
       (c.run lists).events ++ ((f (c.run lists).result).run (c.run lists).lists).events⟩ := rfl

@[simp] theorem run_map (f : α → β) (c : Conversion α) :
    (f <$> c).run lists = ⟨f (c.run lists).result, (c.run lists).lists, (c.run lists).events⟩ := by
  show Walk.mk _ _ ((c.run lists).events ++ []) = _
  rw [List.append_nil]
  rfl

@[simp] theorem run_report (e : Event) : (report e).run lists = ⟨(), lists, [e]⟩ := rfl

@[simp] theorem run_nextList :
    nextList.run lists = ⟨lists + 1, lists + 1, [.register (lists + 1)]⟩ := rfl

end Conversion
end ManPage
