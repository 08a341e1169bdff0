import Stylebook.Yaml.Node
import Stylebook.Yaml.Plain

/-! # Values

The value of a node. The keys of a mapping are values too, and no two of them are the same.
-/

namespace Stylebook.Yaml

inductive Value
  | null
  | bool (b : Bool)
  | num (n : Numeral)
  | str (s : String)
  | seq (xs : List Value)
  | map (ms : List (Value × Value))
deriving BEq, Repr

namespace Value

def isWord (n : Int) : Bool := -Nat.pow 2 63 ≤ n && n < Nat.pow 2 64

/-- Integers of more than 64 and at most 128 bits have no value. -/
def isTooWide (n : Int) : Bool := !isWord n && -Nat.pow 2 127 ≤ n && n < Nat.pow 2 128

def ofText (s : String) : Value :=
  match if Plain.isPadded s.toList then none else Plain.float? s with
  | some x => num (.float x)
  | none => str s

def ofPlain? (s : String) : Option Value :=
  if Plain.isNull s then some null
  else match Plain.bool? s with
    | some b => some (bool b)
    | none => match Plain.integer? s.toList with
      | some n =>
        if isWord n then some (num (.int n)) else if isTooWide n then none else some (ofText s)
      | none => some (ofText s)

def isNaN : Value → Bool
  | num (.float x) => x.isNaN
  | _ => false

def same (a b : Value) : Bool := a == b || a.isNaN && b.isNaN

def distinct : List Value → Bool
  | [] => true
  | k :: ks => !ks.any (same k) && distinct ks

/-- The value, if at most `depth` collections stand inside one another. -/
def ofNode? : Nat → Node → Option Value
  | _, .scalar true s => ofPlain? s
  | _, .scalar false s => some (str s)
  | 0, .seq _ => none
  | 0, .map _ => none
  | _, .endless => none
  | depth + 1, .seq xs => (xs.mapM (ofNode? depth)).map seq
  | depth + 1, .map ms => do
    let ms ← ms.mapM fun m => do pure (← ofNode? depth m.1, ← ofNode? depth m.2)
    if distinct (ms.map Prod.fst) then pure (map ms) else none

mutual

/-- The same value where all keys are text. Numbers that are not finite turn into null. -/
def toJson? : Value → Option Json
  | null => some .null
  | bool b => some (.bool b)
  | num (.int n) => some (.num (.int n))
  | num (.float x) => some (if Number.isFinite x then .num (.float x) else .null)
  | str s => some (.str s)
  | seq xs => (allToJson? xs).map .arr
  | map ms => (membersToJson? ms).map .obj

def allToJson? : List Value → Option (List Json)
  | [] => some []
  | x :: xs => do pure ((← toJson? x) :: (← allToJson? xs))

def membersToJson? : List (Value × Value) → Option (List (String × Json))
  | [] => some []
  | (str k, v) :: ms => do pure ((k, ← toJson? v) :: (← membersToJson? ms))
  | _ => none

end

def text? : Value → Option String
  | str s => some s
  | _ => none

/-- The members of a mapping whose keys are all text. -/
def textMembers? (ms : List (Value × Value)) : Option (List (String × Value)) :=
  ms.mapM fun m => m.1.text?.map (·, m.2)

end Value

/-- Collections nested deeper than this are refused. -/
def maxDepth : Nat := 128

namespace Node

def value? (n : Node) : Option Value := Value.ofNode? maxDepth n

/-- The text of a scalar, whatever it stands for. -/
def text? : Node → Option String
  | scalar _ s => some s
  | _ => none

/-- The text of a scalar, or nothing where null is written. -/
def optionalText? : Node → Option (Option String)
  | scalar true s => some (if Plain.isNull s then none else some s)
  | scalar false s => some (some s)
  | _ => none

def textMembers? (ms : List (Node × Node)) : Option (List (String × Node)) :=
  ms.mapM fun m => m.1.text?.map (·, m.2)

end Node

end Stylebook.Yaml
