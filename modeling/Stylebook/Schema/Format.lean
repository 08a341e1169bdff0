import Stylebook.Schema
import Stylebook.Json.Outline
import Stylebook.Yaml.Value

/-! # Schemas as documents

A mapping from keys to kinds. In JSON a kind may also be written as a member with a null value.
-/

namespace Stylebook

open Yaml (Node)

namespace FieldKind

def ofJson? : Json → Option FieldKind
  | .str s => ofName? s
  | .obj [(s, .null)] => ofName? s
  | _ => none

end FieldKind

namespace Schema

def ofJson? : Json → Option Schema
  | .obj ms => (ms.mapM fun (m : String × Json) =>
      (FieldKind.ofJson? m.2).map (m.1, ·)).map Table.ofList
  | _ => none

def ofNode? : Node → Option Schema
  | .map ms => (ms.mapM fun (m : Node × Node) => do
      pure (← m.1.text?, ← m.2.text? >>= FieldKind.ofName?)).map Table.ofList
  | n => if n.isMissing then some Table.empty else none

end Schema

end Stylebook
