import Stylebook.Member
import Stylebook.Guide
import Stylebook.Json.Outline
import Stylebook.Yaml.Value

/-! # Guide configurations as documents

A mapping with an id, a title and perhaps a version. In JSON the three may come as a list. Members
of other names are not looked at.
-/

namespace Stylebook.GuideConfig

open Json (Outline)
open Yaml (Node)

def ofMembers? {α : Type} (text? : α → Option String) (optional? : α → Option (Option String))
    (ms : List (String × α)) : Option GuideConfig := do
  let version ← match ← Member.optional? "version" ms with
    | none => some none
    | some v => optional? v
  pure ⟨← Member.single? "id" ms >>= text?, ← Member.single? "title" ms >>= text?, version⟩

def optionalString? : Outline → Option (Option String)
  | .null => some none
  | v => v.asString?.map some

def ofItems? : List Outline → Option GuideConfig
  | [id, title] => do pure ⟨← id.asString?, ← title.asString?, none⟩
  | [id, title, version] => do pure ⟨← id.asString?, ← title.asString?, ← optionalString? version⟩
  | _ => none

def ofOutline? : Outline → Option GuideConfig
  | .obj ms => do
    let ms ← ms.mapM fun (m : List Json.Piece × Outline) => (Json.string? m.1).map (·, m.2)
    ofMembers? Outline.asString? optionalString? ms
  | .arr xs => ofItems? xs
  | _ => none

def ofNode? : Node → Option GuideConfig
  | .map ms => do ofMembers? Node.text? Node.optionalText? (← Node.textMembers? ms)
  | _ => none

def toJson (c : GuideConfig) : Json :=
  .obj ([("id", .str c.id), ("title", .str c.title)] ++ Json.optionalMember "version" c.version)

end Stylebook.GuideConfig
