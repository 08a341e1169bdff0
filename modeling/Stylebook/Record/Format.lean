import Stylebook.Member
import Stylebook.Record
import Stylebook.Json.Outline
import Stylebook.Json.Layout

/-! # Records as JSON

A record is written as one object: its selectors under a reserved key, then its fields. Each
field is read as the first shape that its value fits, and a value that fits none is kept as it is.
-/

namespace Stylebook

open Json (Outline)

namespace Contributor

/-- A last name and perhaps a first name; other members are not looked at. -/
def ofMembers? {α : Type} (text? : α → Option String) (ms : List (String × α)) :
    Option Contributor := do
  let last ← Member.single? "last" ms >>= text?
  let first ← match ← Member.optional? "first" ms with
    | none => some ""
    | some v => text? v
  pure ⟨first, last⟩

/-- The two names in a list, first name first. -/
def ofPair? {α : Type} (text? : α → Option String) : List α → Option Contributor
  | [first, last] => do pure ⟨← text? first, ← text? last⟩
  | _ => none

def ofJson? : Json → Option Contributor
  | .obj ms => ofMembers? Json.asString? ms
  | .arr xs => ofPair? Json.asString? xs
  | _ => none

def toJson (c : Contributor) : Json :=
  .obj ((if c.first.isEmpty then [] else [("first", .str c.first)]) ++ [("last", .str c.last)])

end Contributor

namespace Date

/-- An integer of 64 bits is kept as its digits. -/
def integerPart? : Numeral → Option (Option String)
  | .int n => if -Nat.pow 2 63 ≤ n ∧ n < Nat.pow 2 63 then some (some (toString n)) else none
  | .float _ => none

/-- A part is missing, a string, or an integer. -/
def part? : Json → Option (Option String)
  | .null => some none
  | .str s => some (some s)
  | .num n => integerPart? n
  | _ => none

def setPart? (d : Date) (k : String) (v : Option String) : Option Date :=
  match k with
  | "year" => some { d with year := v }
  | "month" => some { d with month := v }
  | "day" => some { d with day := v }
  | _ => none

/-- Parts and nothing else. A repeated part takes its last value. -/
def ofMembers? {α : Type} (part? : α → Option (Option String)) (ms : List (String × α)) :
    Option Date :=
  ms.foldlM (fun d m => part? m.2 >>= setPart? d m.1) empty

def ofJson? : Json → Option Date
  | .obj ms => ofMembers? part? ms
  | _ => none

def toJson (d : Date) : Json :=
  .obj (Json.optionalMember "year" d.year ++ Json.optionalMember "month" d.month ++
    Json.optionalMember "day" d.day)

/-- A date that stands by itself: no part may be repeated, and the parts may come as a list. -/
def ofValue? : Json → Option Date
  | .obj ms => if (ms.map Prod.fst).Nodup then ofJson? (.obj ms) else none
  | .arr vs => do
    let parts ← vs.mapM part?
    match parts with
    | [] => pure empty
    | [y] => pure ⟨y, none, none⟩
    | [y, m] => pure ⟨y, m, none⟩
    | [y, m, d] => pure ⟨y, m, d⟩
    | _ => none
  | _ => none

end Date

namespace Field

/-- The first shape that fits. -/
def ofJson : Json → Field
  | .null => null
  | .str s => text s
  | .num n => number n.toFloat
  | .bool b => other (.bool b)
  | .arr xs => match xs.mapM Contributor.ofJson? with
    | some cs => contributors cs
    | none => other (Json.arr xs).sorted
  | .obj ms => match Date.ofJson? (.obj ms) with
    | some d => date d
    | none => other (Json.obj ms).sorted

/-- Only finite numbers can be written. -/
def toJson : Field → Json
  | null => .null
  | text s => .str s
  | number x => if Number.isFinite x then .num (.float x) else .null
  | contributors cs => .arr (cs.map Contributor.toJson)
  | date d => d.toJson
  | other v => v

end Field

namespace Record

def reserved : String := "selectors"

def selectors? (ms : List (String × Json)) : Option (Table String) :=
  match ms.filter (·.1 = reserved) with
  | [] => some .empty
  | [(_, .obj ss)] => (ss.mapM fun (m : String × Json) => m.2.asString?.map (m.1, ·)).map Table.ofList
  | _ => none

def ofJson? : Json → Option Record
  | .obj ms => (selectors? ms).map fun ss =>
    ⟨ss, Table.ofList ((ms.filter (·.1 ≠ reserved)).map fun m => (m.1, Field.ofJson m.2))⟩
  | _ => none

def toJson (r : Record) : Json :=
  .obj ((if r.selectors.isEmpty then []
      else [(reserved, .obj (r.selectors.entries.map fun e => (e.1, .str e.2)))]) ++
    r.fields.entries.map fun e => (e.1, e.2.toJson))

def read? (s : String) : Option Record := Json.read? s >>= ofJson?

def written (r : Record) : String := r.toJson.compact

/-- A document is read as a list of records or, failing that, as one record. -/
def batch? {α : Type} (items? : α → Option (List Record)) (one? : α → Option Record) (x : α) :
    Option (List Record) :=
  items? x <|> (one? x).map ([·])

def itemsOfJson? : Json → Option (List Record)
  | .arr xs => xs.mapM ofJson?
  | _ => none

def listOfJson? : Json → Option (List Record) := batch? itemsOfJson? ofJson?

end Record

namespace Contributor

/-- A contributor that stands by itself. Members other than the names need not even be valid. -/
def ofOutline? : Outline → Option Contributor
  | .obj ms => do
    let ms ← ms.mapM fun (m : List Json.Piece × Outline) => (Json.string? m.1).map (·, m.2)
    ofMembers? Outline.asString? ms
  | .arr xs => ofPair? Outline.asString? xs
  | _ => none

def read? (s : String) : Option Contributor := Outline.read? (s.toList.map some) >>= ofOutline?

end Contributor

def Date.read? (s : String) : Option Date := Json.read? s >>= Date.ofValue?

end Stylebook
