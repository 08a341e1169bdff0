import Stylebook.Contributor
import Stylebook.Enumeration
import Stylebook.Markup
import Stylebook.Schema

/-! # Items

A style is a sequence of items: traits, which show a field of the record, and text blocks.
-/

namespace Stylebook

inductive Visibility
  | normal
  | shown
  | hidden
deriving DecidableEq, Repr

namespace Visibility

def isVisible (v : Visibility) : Bool := v != hidden

/-- What an explicit call asks for. -/
def chosen (on : Bool) : Visibility := if on then shown else hidden

def name : Visibility → String
  | normal => "default"
  | shown => "shown"
  | hidden => "hidden"

def ofName? : String → Option Visibility
  | "default" => some normal
  | "shown" => some shown
  | "hidden" => some hidden
  | _ => none

end Visibility

inductive TraitKind
  | text
  | number
  | date (pattern : String)
  | contributors (format : NameFormat)
  | enumeration (e : Enumeration)
deriving DecidableEq, Repr

namespace TraitKind

def ofField : FieldKind → TraitKind
  | .text => text
  | .number => number
  | .date => date "YYYY"
  | .contributors => contributors .usual

def name : TraitKind → String
  | text => "text"
  | number => "number"
  | date _ => "date"
  | contributors _ => "contributors"
  | enumeration _ => "enum"

end TraitKind

/-- `stub` stands in for missing data. -/
structure Trait where
  key : String
  before : String
  after : String
  kind : TraitKind
  visibility : Visibility
  stub : Option String
  markup : Markup
  order : Nat
deriving DecidableEq, Repr

structure TextBlock where
  key : String
  content : String
  visibility : Visibility
  order : Nat
deriving DecidableEq, Repr

inductive Item
  | trait (t : Trait)
  | text (t : TextBlock)
deriving DecidableEq, Repr

namespace Item

def key : Item → String
  | trait t => t.key
  | text t => t.key

def order : Item → Nat
  | trait t => t.order
  | text t => t.order

def visibility : Item → Visibility
  | trait t => t.visibility
  | text t => t.visibility

def setVisibility (v : Visibility) : Item → Item
  | trait t => trait { t with visibility := v }
  | text t => text { t with visibility := v }

def trait? : Item → Option Trait
  | trait t => some t
  | text _ => none

def isText : Item → Bool
  | trait _ => false
  | text _ => true

/-- Whether this is a trait of that key. -/
def isTrait (k : String) : Item → Bool
  | trait t => t.key = k
  | text _ => false

/-- Change the items of one key. -/
def edit (k : String) (f : Item → Item) (items : List Item) : List Item :=
  items.map fun i => if i.key = k then f i else i

def onTrait (f : Trait → Trait) : Item → Item
  | trait t => trait (f t)
  | text t => text t

end Item

end Stylebook
