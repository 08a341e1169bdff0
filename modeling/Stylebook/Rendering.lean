import Stylebook.Output
import Stylebook.Resolution
import Stylebook.Style

/-! # Rendering

Triggers edit the items for the record, the rules are checked, and the visible items are written
one after the other. A record with problems renders to nothing.
-/

namespace Stylebook

def Trait.chunks? (t : Trait) (r : Record) : Option (List Chunk) :=
  (t.resolve? r).map fun f => t.markup.compose f.before f.value f.after

namespace Item

def chunks (r : Record) : Item → List Chunk
  | trait t => (t.chunks? r).getD []
  | text t => [.unstyled t.content]

end Item

structure Rendering where
  text : String
  problems : List Problem
deriving DecidableEq, Repr

def Rendering.isOk (r : Rendering) : Bool := r.problems.isEmpty

namespace Style

def itemsFor (s : Style) (r : Record) : List Item := Trigger.run s.triggers r s.items

def problems (s : Style) (r : Record) : List Problem :=
  Rule.checkAll s.rules (s.itemsFor r) r

def chunks (s : Style) (r : Record) : List Chunk :=
  ((s.itemsFor r).filter (·.visibility.isVisible)).flatMap (·.chunks r)

def render (s : Style) (f : Format) (r : Record) : Rendering :=
  let ps := s.problems r
  ⟨if ps.isEmpty then Chunk.writeAll f (s.chunks r) else "", ps⟩

end Style

end Stylebook
