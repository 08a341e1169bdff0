import Stylebook.Record.Format
import Stylebook.Yaml.Value

/-! # Records in YAML

Keys and selectors are the text of scalars, however they are written; fields are read from their
values. A document is sound when it has a value at all.
-/

namespace Stylebook

open Yaml (Node Value)

namespace Contributor

/-- A name is known by its key, or by its place: zero for the first name, one for the last. No
place is written with a minus sign, not even zero. -/
def memberName? (k : Node) : Option String := do
  match ← k.value? with
  | .str s => some s
  | .num (.int n) =>
    if (← k.text?).toList.head? = some '-' then none
    else some (if n = 0 then "first" else if n = 1 then "last" else "")
  | _ => none

def nameOfNode? (n : Node) : Option String := n.value? >>= Value.text?

def ofNode? : Node → Option Contributor
  | .map ms => do
    ofMembers? nameOfNode? (← ms.mapM fun (m : Node × Node) => (memberName? m.1).map (·, m.2))
  | .seq xs => ofPair? nameOfNode? xs
  | _ => none

def listOfNode? : Node → Option (List Contributor)
  | .seq xs => xs.mapM ofNode?
  | _ => none

end Contributor

namespace Date

def partOfValue? : Value → Option (Option String)
  | .null => some none
  | .str s => some (some s)
  | .num n => integerPart? n
  | _ => none

def ofMapping? (ms : List (Value × Value)) : Option Date := do
  ofMembers? partOfValue? (← Value.textMembers? ms)

end Date

namespace Field

/-- A value of a shape of its own, or one that is kept as it is if its keys are all text. -/
def ofValue? : Value → Option Field
  | .null => some null
  | .str s => some (text s)
  | .num n => some (number n.toFloat)
  | .bool b => some (other (.bool b))
  | .seq xs => (Value.seq xs).toJson?.map fun v => other v.sorted
  | .map ms => match Date.ofMapping? ms with
    | some d => some (date d)
    | none => (Value.map ms).toJson?.map fun v => other v.sorted

/-- The first shape that fits. -/
def ofNode? (n : Node) : Option Field := do
  let v ← n.value?
  match Contributor.listOfNode? n with
  | some cs => pure (contributors cs)
  | none => ofValue? v

end Field

namespace Record

def selectorsOfNode? : Node → Option (Table String)
  | .map ms => (ms.mapM fun (m : Node × Node) => do
      pure (← m.1.text?, ← m.2.text?)).map Table.ofList
  | n => if n.isMissing then some .empty else none

def ofNode? : Node → Option Record
  | .map ms => do
    let ms ← Node.textMembers? ms
    let selectors ← match ← Member.optional? reserved ms with
      | none => some .empty
      | some n => selectorsOfNode? n
    let fields ← (ms.filter (·.1 ≠ reserved)).mapM fun m => do
      pure (m.1, ← Field.ofNode? m.2)
    pure ⟨selectors, Table.ofList fields⟩
  | n => if n.isMissing then some empty else none

/-- Where nothing is written, there are no records. -/
def itemsOfNode? : Node → Option (List Record)
  | .seq xs => xs.mapM ofNode?
  | n => if n.isMissing then some [] else none

def listOfNode? (n : Node) : Option (List Record) :=
  if n.value?.isNone then none else batch? itemsOfNode? ofNode? n

end Record

end Stylebook
