import Stylebook.Table

/-! # Field vocabularies

A schema lists the fields that a style may refer to, each with the shape of its data.
-/

namespace Stylebook

inductive FieldKind
  | text
  | number
  | date
  | contributors
deriving DecidableEq, Repr

namespace FieldKind

def name : FieldKind → String
  | text => "text"
  | number => "number"
  | date => "date"
  | contributors => "contributors"

def ofName? : String → Option FieldKind
  | "text" => some text
  | "number" => some number
  | "date" => some date
  | "contributors" => some contributors
  | _ => none

theorem ofName?_name (k : FieldKind) : ofName? k.name = some k := by cases k <;> rfl

end FieldKind

abbrev Schema := Table FieldKind

namespace Schema

def ofKind (k : FieldKind) (names : List String) : List (String × FieldKind) :=
  names.map (·, k)

/-- The fields of works cited in a reference list. -/
def bibliographic : Schema := Table.ofList <|
  ofKind .contributors ["author", "editor", "translator"] ++
  ofKind .text ["title", "subtitle", "containerTitle", "journal", "publisher", "place", "url",
    "doi", "isbn", "genre"] ++
  ofKind .number ["volume", "issue", "edition"] ++
  ofKind .text ["pages"] ++
  ofKind .date ["datePublished", "dateAccessed", "dateModified"]

end Schema

end Stylebook
