import Stylebook.Configuration
import Stylebook.Record

/-! # Triggers

A trigger fires for a record that has its gate field, and then edits the items for that record.
What it does may depend on other fields too; the edits that are left once the record is known
are carried out one after the other.
-/

namespace Stylebook

/-- New texts for a trait, and new content for a text block. -/
structure Patch where
  before : Option String
  after : Option String
  stub : Option String
  content : Option String
deriving DecidableEq, Repr

inductive Part
  | before
  | after
  | stub
  | content
deriving DecidableEq, Repr

namespace Patch

def empty : Patch := ⟨none, none, none, none⟩

def single (p : Part) (s : String) : Patch :=
  match p with
  | .before => { empty with before := some s }
  | .after => { empty with after := some s }
  | .stub => { empty with stub := some s }
  | .content => { empty with content := some s }

def merge (p : Patch) : Item → Item
  | .trait t => .trait { t with
      before := p.before.getD t.before
      after := p.after.getD t.after
      stub := p.stub.or t.stub }
  | .text t => .text { t with content := p.content.getD t.content }

end Patch

inductive Edit
  | patch (key : String) (p : Patch)
  | configure (key : String) (edits : List TraitEdit)
  | display (key : String) (on : Bool)
  | extendAfter (key : String) (s : String)
deriving DecidableEq, Repr

namespace Edit

def key : Edit → String
  | patch k _ => k
  | configure k _ => k
  | display k _ => k
  | extendAfter k _ => k

/-- Text is appended to what follows the first item of the key, if that is a trait; every trait of
the key then gets the result. -/
def extended? (items : List Item) (k s : String) : Option Patch :=
  match items.find? (·.key = k) with
  | some (.trait t) => some (.single .after (t.after ++ s))
  | _ => none

def apply (items : List Item) : Edit → List Item
  | patch k p => Item.edit k p.merge items
  | configure k es => Item.edit k (.onTrait (·.applyAll es)) items
  | display k on => Item.edit k (.setVisibility (.chosen on)) items
  | extendAfter k s => match extended? items k s with
    | some p => Item.edit k p.merge items
    | none => items

/-- Whether the edit finds an item to work on. -/
def reaches (items : List Item) : Edit → Bool
  | patch k _ => items.any (·.key = k)
  | configure k _ => items.any (·.isTrait k)
  | display k _ => items.any (·.key = k)
  | extendAfter k s => (extended? items k s).isSome

end Edit

/-- What a trigger can do, which is no function of the record and the items either. Of the record
an action sees which fields are present and their plain forms, and of the items it sees what
`Edit.extendAfter` looks for. None asks whether an item has been changed before, or reads the items
by their places, a selector, or what else a trait holds. -/
inductive Action
  | edit (e : Edit)
  | copy (key : String) (part : Part) (field : String)
  | ifPresent (field : String) (actions : List Action)
  | unlessContains (field s : String) (actions : List Action)
deriving Repr

namespace Action

def containsText (s t : List Char) : Bool :=
  match s with
  | [] => t.isEmpty
  | _ :: r => t.isPrefixOf s || containsText r t

mutual

/-- The edits that an action comes to for a record. -/
def edits (r : Record) : Action → List Edit
  | edit e => [e]
  | copy k part field => match r.plain? field with
    | some s => [.patch k (.single part s)]
    | none => []
  | ifPresent field as => if r.isPresent field then editsAll r as else []
  | unlessContains field s as => match r.plain? field with
    | some v => if containsText v.toList s.toList then [] else editsAll r as
    | none => []

def editsAll (r : Record) : List Action → List Edit
  | [] => []
  | a :: as => edits r a ++ editsAll r as

end

end Action

structure Trigger where
  gate : String
  actions : List Action
deriving Repr

namespace Trigger

def fires (t : Trigger) (r : Record) : Bool := r.isPresent t.gate

/-- All edits of the triggers that fire, in order. -/
def edits (ts : List Trigger) (r : Record) : List Edit :=
  ts.flatMap fun t => if t.fires r then Action.editsAll r t.actions else []

def run (ts : List Trigger) (r : Record) (items : List Item) : List Item :=
  (edits ts r).foldl Edit.apply items

/-- The items after one trigger more, and whether any edit so far found an item. -/
structure Stage where
  gate : String
  fired : Bool
  modified : Bool
  items : List Item
deriving Repr

def Stage.apply (s : Stage) (e : Edit) : Stage :=
  { s with modified := s.modified || e.reaches s.items, items := e.apply s.items }

def Stage.next (s : Stage) (t : Trigger) (r : Record) : Stage :=
  (edits [t] r).foldl Stage.apply { s with gate := t.gate, fired := t.fires r }

/-- What each trigger in turn leaves behind. -/
def stages (ts : List Trigger) (r : Record) (items : List Item) : List Stage :=
  (ts.foldl (fun (acc : Stage × List Stage) t =>
    let s := acc.1.next t r
    (s, acc.2 ++ [s])) (⟨"", false, false, items⟩, [])).2

end Trigger

end Stylebook
