/-! # Enumerations

A list of choices, each shown as a text of its own.
-/

namespace Stylebook

/-- A choice matches its selector where it has one, and its value otherwise. -/
structure Choice where
  index : Nat
  value : String
  display : String
  selector : Option String
deriving DecidableEq, Repr

structure Enumeration where
  choices : List Choice
deriving DecidableEq, Repr

inductive ChoiceEdit
  | add (value display : String)
  | addSelected (value display selector : String)
  | relabel (index : Nat) (display : String)
deriving DecidableEq, Repr

def Choice.needle (c : Choice) : String := c.selector.getD c.value

namespace Enumeration

def empty : Enumeration := ⟨[]⟩

def push (e : Enumeration) (value display : String) (selector : Option String) : Enumeration :=
  ⟨e.choices ++ [⟨e.choices.length, value, display, selector⟩]⟩

/-- Change what the choice at a position is shown as. A position out of range changes nothing. -/
def relabel (e : Enumeration) (index : Nat) (display : String) : Enumeration :=
  ⟨e.choices.modify index fun c => { c with display := display }⟩

def apply (e : Enumeration) : ChoiceEdit → Enumeration
  | .add v d => e.push v d none
  | .addSelected v d s => e.push v d (some s)
  | .relabel i d => e.relabel i d

def applyAll (e : Enumeration) (edits : List ChoiceEdit) : Enumeration := edits.foldl apply e

def usesSelectors (e : Enumeration) : Bool := e.choices.any (·.selector.isSome)

/-- The first choice that matches. If any choice has a selector, the record's selector decides
where there is one, and the raw value elsewhere. -/
def choose? (e : Enumeration) (raw selector : Option String) : Option Choice :=
  if e.usesSelectors then do
    let needle ← selector.or raw
    e.choices.find? (·.needle = needle)
  else do
    let needle ← raw
    e.choices.find? (·.value = needle)

end Enumeration

end Stylebook
