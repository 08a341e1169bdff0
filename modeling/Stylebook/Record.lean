import Stylebook.Table
import Stylebook.Json
import Stylebook.Date
import Stylebook.Contributor

/-! # Records

A record is the data of one work: a value for each field, and selectors for fields whose value
is chosen from a list. A null field counts as missing.
-/

namespace Stylebook

inductive Field
  | null
  | text (s : String)
  | number (x : Float)
  | contributors (cs : List Contributor)
  | date (d : Date)
  | other (v : Json)
deriving BEq, Repr

namespace Field

def isNull : Field → Bool
  | null => true
  | _ => false

/-- Texts and numbers have a plain form. -/
def plain? : Field → Option String
  | text s => some s
  | number x => some (Number.plain x)
  | _ => none

def date? : Field → Option Date
  | date d => some d
  | _ => none

def contributors? : Field → Option (List Contributor)
  | contributors cs => some cs
  | _ => none

end Field

structure Record where
  selectors : Table String
  fields : Table Field
deriving BEq, Repr

namespace Record

def empty : Record := ⟨.empty, .empty⟩

instance : Inhabited Record := ⟨empty⟩

def get? (r : Record) (key : String) : Option Field := (r.fields.get? key).filter (!·.isNull)

def isPresent (r : Record) (key : String) : Bool := (r.get? key).isSome

def plain? (r : Record) (key : String) : Option String := r.get? key >>= Field.plain?

def selector? (r : Record) (key : String) : Option String := r.selectors.get? key

def set (r : Record) (key : String) (v : Field) : Record :=
  { r with fields := r.fields.insert key v }

def select (r : Record) (key selector : String) : Record :=
  { r with selectors := r.selectors.insert key selector }

end Record

end Stylebook
