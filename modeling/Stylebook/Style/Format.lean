import Stylebook.Guide
import Stylebook.Json.Layout

/-! # Styles and results as JSON -/

namespace Stylebook

def Choice.toJson (c : Choice) : Json :=
  .obj ([("index", Json.ofNat c.index), ("value", .str c.value), ("display", .str c.display)] ++
    Json.optionalMember "selector" c.selector)

def Enumeration.toJson (e : Enumeration) : Json := .arr (e.choices.map Choice.toJson)

def TraitKind.toJson (k : TraitKind) : Json :=
  let config := match k with
    | text | number => []
    | date p => [("config", Json.obj [("pattern", .str p)])]
    | contributors f => [("config", .obj [("pattern", .str f.pattern),
        ("separator", .str f.separator), ("final_separator", .str f.finalSeparator)])]
    | enumeration e => [("config", e.toJson)]
  .obj (("kind", .str k.name) :: config)

def Markup.toJson (m : Markup) : Json :=
  .obj [("bold", .str m.bold.written), ("italics", .str m.italics.written)]

def Item.toJson : Item → Json
  | trait t => .obj [("item", .str "trait"), ("key", .str t.key), ("prefix", .str t.before),
      ("suffix", .str t.after), ("kind", t.kind.toJson), ("visibility", .str t.visibility.name),
      ("stub", Json.ofOption t.stub), ("markup", t.markup.toJson), ("order", Json.ofNat t.order)]
  | text t => .obj [("item", .str "text"), ("key", .str t.key), ("content", .str t.content),
      ("visibility", .str t.visibility.name), ("order", Json.ofNat t.order)]

def Rule.toJson (r : Rule) : Json :=
  let of (name : String) (ms : List (String × Json)) : Json := .obj (("rule", .str name) :: ms)
  match r with
  | required k => of "required" [("key", .str k)]
  | stated (.optional k) => of "optional" [("key", .str k)]
  | stated (.either a b lax) =>
    of "either-of" [("first", .str a), ("second", .str b), ("optional", .bool lax)]
  | stated (.all ks lax) => of "all-of" [("keys", Json.ofStrings ks), ("optional", .bool lax)]
  | stated (.atLeastOne ks) => of "at-least-one-of" [("keys", Json.ofStrings ks)]

def Problem.toJson (p : Problem) : Json :=
  .obj [("message", .str p.kind), ("traits", Json.ofStrings p.keys)]

def Rendering.toJson (r : Rendering) : Json :=
  .obj [("string", .str r.text), ("errors", .arr (r.problems.map Problem.toJson))]

def Entry.toJson (e : Entry) : Json :=
  .obj ([("id", .str e.id), ("title", .str e.title)] ++ Json.optionalMember "description" e.description ++
    [("sourceType", .str e.source)])

/-- Members are in key order at every level. -/
def Style.toJson (s : Style) : Json :=
  (Json.obj [("id", .str s.id), ("title", .str s.title), ("items", .arr (s.items.map Item.toJson)),
    ("rules", .arr (s.rules.map Rule.toJson)), ("inherited", Json.ofStrings s.inherited)]).sorted

end Stylebook
