import Stylebook.Item
import Stylebook.Record

/-! # Requirements

A rule says which fields a record has to have. Every trait is required unless a constraint names
its key, and even then if the trait is explicitly shown. A stub answers a requirement.
-/

namespace Stylebook

/-- Constraints that a style states. The lax form also accepts that none of the keys is there. -/
inductive Constraint
  | optional (key : String)
  | either (first second : String) (lax : Bool)
  | all (keys : List String) (lax : Bool)
  | atLeastOne (keys : List String)
deriving DecidableEq, Repr

def Constraint.keys : Constraint → List String
  | optional k => [k]
  | either a b _ => [a, b]
  | all ks _ => ks
  | atLeastOne ks => ks

inductive Rule
  | required (key : String)
  | stated (c : Constraint)
deriving DecidableEq, Repr

namespace Rule

/-- A constraint takes over the requirement of its keys. -/
def exempts : Rule → List String
  | required _ => []
  | stated c => c.keys

def isExempt (rules : List Rule) (key : String) : Bool := rules.any (key ∈ ·.exempts)

end Rule

inductive Problem
  | requires (keys : List String)
  | either (first second : String)
deriving DecidableEq, Repr

namespace Problem

def kind : Problem → String
  | requires _ => "requires"
  | either .. => "either"

def keys : Problem → List String
  | requires ks => ks
  | either a b => [a, b]

def message (p : Problem) : String := p.kind ++ ": " ++ ", ".intercalate p.keys

end Problem

/-- The visible traits of a key. -/
def Item.visibleTraits (key : String) (items : List Item) : List Trait :=
  (items.filterMap Item.trait?).filter fun t => t.key = key && t.visibility.isVisible

namespace Constraint

def check (r : Record) : Constraint → Option Problem
  | optional _ => none
  | either a b lax =>
    match r.isPresent a, r.isPresent b with
    | true, true => some (.either a b)
    | true, false | false, true => none
    | false, false => if lax then none else some (.requires [a, b])
  | all ks lax =>
    let missing := ks.filter (!r.isPresent ·)
    if missing.isEmpty || lax && missing.length = ks.length then none else some (.requires missing)
  | atLeastOne ks => if ks.any r.isPresent then none else some (.requires ks)

end Constraint

namespace Rule

def check (exempt : Bool) (items : List Item) (r : Record) : Rule → Option Problem
  | required k =>
    let ts := Item.visibleTraits k items
    if ts.isEmpty || exempt && !ts.any (·.visibility = .shown) then none
    else if r.isPresent k || ts.any (·.stub.isSome) then none
    else some (.requires [k])
  | stated c => c.check r

/-- Exemption is decided by all rules, wherever they stand. -/
def checkAll (rules : List Rule) (items : List Item) (r : Record) : List Problem :=
  rules.filterMap fun rule =>
    let exempt := match rule with
      | required k => isExempt rules k
      | stated _ => false
    rule.check exempt items r

end Rule

end Stylebook
