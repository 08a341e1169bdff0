import Stylebook.Configuration
import Stylebook.Rule
import Stylebook.Trigger

/-! # Style programs

A style is declared by a sequence of calls. Some of them inherit a mixin, a named sequence of
calls of its own; each name is inherited once at most. All other calls are steps. The sequence is
fixed, so what a program calls does not depend on what its earlier calls have done.
-/

namespace Stylebook

inductive Step
  | field (key : String) (kind : FieldKind)
  | trait (reference : String) (edits : List TraitEdit)
  | duplicate (reference : String) (edits : List TraitEdit)
  | text (content : String) (edits : List TextEdit)
  | constrain (c : Constraint)
  | display (key : String) (on : Bool)
  | set (key : String) (edits : List TraitEdit)
  | upon (t : Trigger)
deriving Repr

/-- Mixins are called by their place in a list. -/
inductive Call
  | step (s : Step)
  | inherit (mixin : Nat)
deriving Repr

structure Mixin where
  name : String
  program : List Call
deriving Repr

namespace Call

theorem countP_lt_of_mem {α : Type} {p q : α → Bool} (hpq : ∀ x, p x = true → q x = true)
    {a : α} (hq : q a = true) (hp : p a = false) {xs : List α} (h : a ∈ xs) :
    xs.countP p < xs.countP q := by
  induction xs with
  | nil => cases h
  | cons x xs ih =>
    rw [List.countP_cons, List.countP_cons]
    rcases List.mem_cons.mp h with rfl | h
    · have := List.countP_mono_left (l := xs) fun x _ => hpq x
      simp [hp, hq]
      omega
    · have := ih h
      have := hpq x
      split <;> split <;> first | omega | simp_all

/-- How many mixins have a name that has not been seen. -/
def unseen (mixins : List Mixin) (seen : List String) : Nat :=
  mixins.countP fun m => m.name ∉ seen

theorem unseen_append_lt {mixins : List Mixin} {seen : List String} {m : Mixin}
    (hm : m ∈ mixins) (hs : m.name ∉ seen) :
    unseen mixins (seen ++ [m.name]) < unseen mixins seen :=
  countP_lt_of_mem (by simp; exact fun _ h _ => h) (by simpa using hs) (by simp) hm

/-- The mixin that is called, if its name has not been seen. -/
def fresh? (mixins : List Mixin) (seen : List String) (i : Nat) : Option Mixin :=
  mixins[i]?.filter (·.name ∉ seen)

theorem fresh?_eq_some_iff {mixins : List Mixin} {seen : List String} {i : Nat} {m : Mixin} :
    fresh? mixins seen i = some m ↔ mixins[i]? = some m ∧ m.name ∉ seen := by
  simp [fresh?, Option.filter_eq_some_iff]

theorem unseen_lt_of_fresh? {mixins : List Mixin} {seen : List String} {i : Nat} {m : Mixin}
    (h : fresh? mixins seen i = some m) :
    unseen mixins (seen ++ [m.name]) < unseen mixins seen := by
  obtain ⟨hm, hs⟩ := fresh?_eq_some_iff.mp h
  exact unseen_append_lt (List.mem_of_getElem? hm) hs

/-- The first call that inherits each name, in order; steps are left out. -/
def inherits (mixins : List Mixin) (seen : List String) : List Call → List Call
  | [] => []
  | step _ :: cs => inherits mixins seen cs
  | inherit i :: cs =>
    match fresh? mixins seen i with
    | none => inherits mixins seen cs
    | some m => inherit i :: inherits mixins (seen ++ [m.name]) cs

end Call

/-- What a style is made from. -/
structure Definition where
  id : String
  title : String
  description : Option String
  mixins : List Mixin
  program : List Call
deriving Repr

/-- Mixins run first, wherever they are inherited. -/
def Definition.calls (d : Definition) : List Call :=
  Call.inherits d.mixins [] d.program ++ d.program

end Stylebook
