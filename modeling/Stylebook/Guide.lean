import Stylebook.Rendering

/-! # Style guides

A guide registers compiled styles under their ids, in the order of registration. Each style is
compiled against the schema that the guide has at that moment.
-/

namespace Stylebook

structure GuideConfig where
  id : String
  title : String
  version : Option String
deriving DecidableEq, Repr

/-- `source` is the kind of source that the style is for. -/
structure Entry where
  id : String
  title : String
  description : Option String
  source : String
  style : Style
deriving Repr

/-- The entry of a definition and of what it compiles to. -/
def Entry.ofStyle (d : Definition) (source : String) (s : Style) : Entry :=
  ⟨d.id, d.title, d.description, source, s⟩

structure Guide where
  config : GuideConfig
  schema : Schema
  entries : Table Entry

inductive GuideError
  | missingId (title : String)
  | duplicateId (id source : String)
  | compile (e : CompileError)
  | unknownStyle (id : String)
deriving DecidableEq, Repr

def GuideError.message : GuideError → String
  | missingId t => "style `" ++ t ++ "` has no id"
  | duplicateId i s => "style " ++ i ++ " is already registered (adding " ++ s ++ ")"
  | compile e => e.message
  | unknownStyle i => "style " ++ i ++ " not found"

namespace Guide

def new (c : GuideConfig) : Guide := ⟨c, Schema.bibliographic, .empty⟩

def empty : Guide := new ⟨"", "", none⟩

instance : Inhabited Guide := ⟨empty⟩

def withSchema (g : Guide) (s : Schema) : Guide := { g with schema := s }

def setConfig (g : Guide) (c : GuideConfig) : Guide := { g with config := c }

/-- Work on a guide that may fail. What was changed before a failure stays changed. -/
abbrev Work := ExceptT GuideError (StateM Guide)

/-- The answer to some work, and the guide that it leaves. -/
def perform {α : Type} (g : Guide) (w : Work α) : Except GuideError α × Guide := w.run.run g

/-- One entry more for those that are to be entered together. Its id has to be new among them too. -/
def stage (E : Engine) (source : String) (staged : Table Entry) (d : Definition) :
    Work (Table Entry) := do
  let g ← get
  if Text.allBlank d.id then throw (.missingId d.title)
  else if g.entries.contains d.id || staged.contains d.id then throw (.duplicateId d.id source)
  else match d.compile E g.schema with
    | .error e => throw (.compile e)
    | .ok s => pure (staged.insert d.id (.ofStyle d source s))

/-- Definitions are registered together: none is entered before all have been staged. -/
def register (E : Engine) (source : String) (ds : List Definition) : Work Unit := do
  let staged ← ds.foldlM (stage E source) .empty
  staged.entries.forM fun e => modify fun g => { g with entries := g.entries.insert e.1 e.2 }

def add (g : Guide) (E : Engine) (source : String) (ds : List Definition) :
    Except GuideError Guide :=
  match g.perform (register E source ds) with
  | (.ok _, g') => .ok g'
  | (.error e, _) => .error e

inductive Request
  | add (source : String) (ds : List Definition)
  | withSchema (s : Schema)
  | setConfig (c : GuideConfig)

def serve (E : Engine) : Request → Work Unit
  | .add source ds => register E source ds
  | .withSchema s => modify (·.withSchema s)
  | .setConfig c => modify (·.setConfig c)

/-- The guide that is left when requests have been served, whether they failed or not. -/
def after (g : Guide) (E : Engine) (requests : List Request) : Guide :=
  requests.foldl (fun g q => (g.perform (serve E q)).2) g

def list (g : Guide) : List Entry := g.entries.entries.map Prod.snd

def find (g : Guide) (id : String) : Except GuideError Entry :=
  match g.entries.get? id with
  | some e => .ok e
  | none => .error (.unknownStyle id)

def run (g : Guide) (id : String) (r : Record) : Except GuideError Rendering :=
  (g.find id).map (·.style.render .html r)

def bySource (g : Guide) (source : String) : List Entry := g.list.filter (·.source = source)

end Guide

end Stylebook
