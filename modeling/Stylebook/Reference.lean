import Stylebook.Schema

/-! # Trait references

A reference such as `(title).` names a field and the literal text around it. The field is the
longest known key at the leftmost place where any known key stands.
-/

namespace Stylebook

structure Reference where
  before : String
  key : String
  after : String
deriving DecidableEq, Repr

namespace Reference

def toText (r : Reference) : String := r.before ++ r.key ++ r.after

/-- The longest of the non-empty keys that begin `cs`. -/
def longest? (keys : List (List Char)) (cs : List Char) : Option (List Char) :=
  match keys with
  | [] => none
  | k :: ks =>
    match longest? ks cs with
    | none => if k ≠ [] ∧ k.isPrefixOf cs then some k else none
    | some b => if b.length < k.length ∧ k.isPrefixOf cs then some k else some b

/-- What stands before the leftmost key, the key, and what stands after it. -/
def split? (keys : List (List Char)) (cs : List Char) :
    Option (List Char × List Char × List Char) :=
  match longest? keys cs with
  | some k => some ([], k, cs.drop k.length)
  | none => match cs with
    | [] => none
    | c :: r => (split? keys r).map fun (p, k, s) => (c :: p, k, s)

end Reference

/-- The field that a reference names, among the fields of the schema. -/
def Schema.parse? (s : Schema) (text : String) : Option Reference :=
  (Reference.split? (s.keys.map String.toList) text.toList).map fun (p, k, r) =>
    ⟨String.ofList p, String.ofList k, String.ofList r⟩

end Stylebook
