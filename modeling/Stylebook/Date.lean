import Stylebook.Text.Blank
import Stylebook.Number

/-! # Partial dates

Any of year, month and day may be missing. Each part is kept as it was written.
-/

namespace Stylebook

structure Date where
  year : Option String
  month : Option String
  day : Option String
deriving DecidableEq, Repr

namespace Date

def empty : Date := ⟨none, none, none⟩

instance : Inhabited Date := ⟨empty⟩

def isEmpty (d : Date) : Bool := d.year.isNone && d.month.isNone && d.day.isNone

/-- Digits with an optional plus sign, for a number below `2 ^ 32`. -/
def unsigned? (cs : List Char) : Option Nat :=
  let ds := match cs with
    | '+' :: ds => ds
    | ds => ds
  let n := Number.ofDigits ds
  if ds ≠ [] ∧ ds.all Char.isDigit ∧ n < Nat.pow 2 32 then some n else none

/-- The number that a part stands for, if it is between 1 and `last`. -/
def number? (last : Nat) (part : Option String) : Option Nat := do
  let s ← part
  let n ← unsigned? (Text.trim s.toList)
  if 1 ≤ n ∧ n ≤ last then some n else none

def monthNumber? (d : Date) : Option Nat := number? 12 d.month

def dayNumber? (d : Date) : Option Nat := number? 31 d.day

def monthNames : List String :=
  ["January", "February", "March", "April", "May", "June", "July", "August", "September",
    "October", "November", "December"]

/-- Months are counted from 1. -/
def monthName? : Nat → Option String
  | 0 => none
  | n + 1 => monthNames[n]?

end Date

end Stylebook
