import Stylebook.Number

/-! # JSON values

Objects keep their members as written, in order and with repeats.
-/

namespace Stylebook

/-- Integers of 64 bits, signed or unsigned, stay integers; every other number is a float. -/
inductive Numeral
  | int (n : Int)
  | float (x : Float)
deriving BEq, DecidableEq, Repr

namespace Numeral

def toFloat : Numeral → Float
  | int n => Float.ofInt n
  | float x => x

def plain : Numeral → String
  | int n => toString n
  | float x => Number.plain x

def written : Numeral → String
  | int n => toString n
  | float x => Number.written x

end Numeral

inductive Json
  | null
  | bool (b : Bool)
  | num (n : Numeral)
  | str (s : String)
  | arr (xs : List Json)
  | obj (ms : List (String × Json))
deriving BEq, Repr

namespace Json

instance : Inhabited Json := ⟨null⟩

def asString? : Json → Option String
  | str s => some s
  | _ => none

def ofNat (n : Nat) : Json := num (.int n)

def ofOption : Option String → Json
  | none => null
  | some s => str s

def ofStrings (ss : List String) : Json := arr (ss.map str)

/-- A member that is left out where there is no value. -/
def optionalMember (k : String) : Option String → List (String × Json)
  | none => []
  | some s => [(k, str s)]

/-- Insert a member into a list in key order, replacing the member of the same key. -/
def place (k : String) (v : Json) : List (String × Json) → List (String × Json)
  | [] => [(k, v)]
  | e :: es =>
    if k < e.1 then (k, v) :: e :: es
    else if k = e.1 then (k, v) :: es
    else e :: place k v es

mutual

/-- The same value with members in key order, the last of repeated keys winning. -/
def sorted : Json → Json
  | arr xs => arr (sortedAll xs)
  | obj ms => obj ((sortedMembers ms).foldl (fun es e => place e.1 e.2 es) [])
  | v => v

def sortedAll : List Json → List Json
  | [] => []
  | x :: xs => sorted x :: sortedAll xs

def sortedMembers : List (String × Json) → List (String × Json)
  | [] => []
  | (k, v) :: ms => (k, sorted v) :: sortedMembers ms

end

end Json

end Stylebook
