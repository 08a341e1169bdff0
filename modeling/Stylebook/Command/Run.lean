import Stylebook.Command.Help
import Stylebook.File
import Stylebook.Guide.BuiltIn
import Stylebook.Style.Format
import Stylebook.Text.Lines

/-! # Running commands

A command works on the built-in guide. It writes text and ends with a code: zero, one where
something cannot be found, read or rendered, and two where the command line makes no sense.
-/

namespace Stylebook

structure Outcome where
  code : Nat
  out : String
  err : String
deriving DecidableEq, Repr

namespace Outcome

def done (out : String) : Outcome := ⟨0, out, ""⟩

def failed (err : String) : Outcome := ⟨1, "", err ++ "\n"⟩

def misused : Outcome := ⟨2, "", "Usage: " ++ Topic.program.usage ++ "\n"⟩

end Outcome

open Text (unlines padLeft padRight)

namespace Guide

def listing (g : Guide) : String :=
  unlines ((g.config.title ++ " (" ++ g.config.id ++ ")") :: g.list.map fun e =>
    "  " ++ padRight 12 e.id ++ " " ++ padRight 16 e.source ++ " " ++ e.title)

end Guide

def Visibility.label : Visibility → String
  | normal => "Default"
  | shown => "Shown"
  | hidden => "Hidden"

namespace Item

def line (i : Item) : String :=
  let cells := match i with
    | trait t => ["trait", padRight 14 t.key, padRight 12 t.kind.name, Json.quoted t.before,
        Json.quoted t.after]
    | text t => ["text ", padRight 14 t.key, padRight 12 "", Json.quoted t.content]
  "  " ++ " ".intercalate (padLeft 2 (toString i.order) :: cells ++ [i.visibility.label])

end Item

namespace Style

/-- A heading with names, where there are any. -/
def named (heading : String) (names : List String) : List String :=
  if names.isEmpty then [] else [heading ++ ", ".intercalate names]

def listing (s : Style) : String :=
  unlines ((s.title ++ " (" ++ s.id ++ ")") :: named "inherits: " s.inherited ++
    "items:" :: s.items.map Item.line ++
    "rules:" :: s.rules.map (fun r => "  " ++ r.toJson.compact) ++
    named "triggers: " (s.triggers.map (·.gate)))

end Style

def Rendering.line (r : Rendering) : String :=
  if r.isOk then r.text else "error: " ++ "; ".intercalate (r.problems.map Problem.message)

namespace Command

/-- The files that a command may read. -/
abbrev Files := String → Contents

def run (g : Guide) (files : Files) : Command → Outcome
  | list json =>
    .done (if json then unlines [(Json.arr (g.list.map Entry.toJson)).pretty] else g.listing)
  | render style records format json => match g.find style with
    | .error e => .failed e.message
    | .ok entry => match Record.load records (files records) with
      | .error e => .failed ("Error loading records: " ++ e.message)
      | .ok rs =>
        let results := rs.map (entry.style.render format)
        ⟨if results.all Rendering.isOk then 0 else 1,
          if json then unlines [(Json.arr (results.map Rendering.toJson)).pretty]
          else unlines (results.map Rendering.line), ""⟩
  | describe style json => match g.find style with
    | .error e => .failed e.message
    | .ok entry =>
      .done (if json then unlines [entry.style.toJson.pretty] else entry.style.listing)

end Command

namespace Invocation

/-- The guide that a command works on: the built-in one, with the configuration that is given. -/
def guide (i : Invocation) (E : Engine) (files : Command.Files) : Except String Guide := do
  let g ← match Guide.BuiltIn.guide E with
    | .error e => .error ("Error compiling built-in styles: " ++ e.message)
    | .ok g => .ok g
  match i.config with
  | none => pure g
  | some path => match GuideConfig.load path (files path) with
    | .error e => .error ("Error loading guide config: " ++ e.message)
    | .ok c => pure (g.setConfig c)

/-- The files that are read, if it comes to that. -/
def paths (i : Invocation) : List String :=
  i.config.toList ++ match i.command with
    | .render _ records _ _ => [records]
    | _ => []

def run (i : Invocation) (E : Engine) (files : Command.Files) : Outcome :=
  match i.guide E files with
  | .error e => .failed e
  | .ok g => i.command.run g files

end Invocation

namespace Command

def runArgs (E : Engine) (args : List String) (files : Files) : Outcome :=
  match Invocation.ofArgs args with
  | .ok i => i.run E files
  | .error (.help t) => .done t.helpText
  | .error .version => .done Topic.versionText
  | .error .misuse => .misused

end Command

end Stylebook
