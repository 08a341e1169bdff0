import Stylebook.Contributor.Pattern
import Stylebook.Date.Pattern
import Stylebook.Item
import Stylebook.Record

/-! # Resolving traits

A trait takes its value from the record. A stub stands in for data that is missing, and never for
data that cannot be rendered.
-/

namespace Stylebook

inductive Resolved
  | value (s : String)
  | absent
  | unresolved
deriving DecidableEq, Repr

namespace Resolved

def ofPlain : Option Field → Resolved
  | none => absent
  | some f => f.plain?.elim unresolved value

def ofDate (pattern : String) : Option Field → Resolved
  | none => absent
  | some (.date d) => if d.isEmpty then absent else (d.format? pattern).elim unresolved value
  | some _ => unresolved

def ofNames (f : NameFormat) : Option Field → Resolved
  | none => absent
  | some (.contributors []) => absent
  | some (.contributors cs) => value (Contributor.formatAll f cs)
  | some _ => unresolved

end Resolved

def Enumeration.select? (e : Enumeration) (key : String) (r : Record) : Option Choice :=
  e.choose? (r.plain? key) (r.selector? key)

def TraitKind.resolve (key : String) (r : Record) : TraitKind → Resolved
  | text | number => .ofPlain (r.get? key)
  | date p => .ofDate p (r.get? key)
  | contributors f => .ofNames f (r.get? key)
  | enumeration e => (e.select? key r).elim .absent fun c => .value c.display

/-- A value with the text around it. -/
structure Fragment where
  before : String
  value : String
  after : String
deriving DecidableEq, Repr

def Trait.resolve? (t : Trait) (r : Record) : Option Fragment :=
  match t.kind.resolve t.key r with
  | .value s => some ⟨t.before, s, t.after⟩
  | .absent => t.stub.map fun s => ⟨t.before, s, t.after⟩
  | .unresolved => none

end Stylebook
