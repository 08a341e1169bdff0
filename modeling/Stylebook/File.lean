import Stylebook.Text.Utf8
import Stylebook.Guide.Format
import Stylebook.Record.Document
import Stylebook.Schema.Format

/-! # Data files

A file is read as JSON or as YAML, as its name says. What a file does not hold as a whole is not
read in part.
-/

namespace Stylebook

inductive DataFormat
  | json
  | yaml
deriving DecidableEq, Repr

/-- Why a file has no contents to read. -/
inductive FileError
  | missing
  | forbidden
  | directory
deriving DecidableEq, Repr

inductive LoadError
  | unreadable (e : FileError)
  | malformed (f : DataFormat)
deriving DecidableEq, Repr

def FileError.message : FileError → String
  | missing => "No such file or directory (os error 2)"
  | forbidden => "Permission denied (os error 13)"
  | directory => "Is a directory (os error 21)"

namespace DataFormat

def name : DataFormat → String
  | json => "JSON"
  | yaml => "YAML"

/-- What stands behind the last point of a file name, unless that point comes first. -/
def extension? (path : String) : Option (List Char) :=
  let file := (path.toList.reverse.takeWhile (· ≠ '/')).reverse
  let ending := (file.reverse.takeWhile (· ≠ '.')).reverse
  if file.length ≤ ending.length + 1 then none else some ending

/-- Only the exact extension stands for JSON. -/
def ofPath (path : String) : DataFormat :=
  if extension? path = some ['j', 's', 'o', 'n'] then json else yaml

end DataFormat

def LoadError.message : LoadError → String
  | unreadable e => "IO error: " ++ e.message
  | malformed f => f.name ++ " parse error: unexpected content"

/-- The contents of a file, or why there are none. -/
abbrev Contents := Except FileError (List UInt8)

namespace Contents

/-- Read a file with the reader for its format. -/
def read {α : Type} (json? yaml? : List UInt8 → Option α) (path : String) (c : Contents) :
    Except LoadError α :=
  match c with
  | .error e => .error (.unreadable e)
  | .ok bytes =>
    let f := DataFormat.ofPath path
    match (match f with | .json => json? bytes | .yaml => yaml? bytes) with
    | some v => .ok v
    | none => .error (.malformed f)

def json? (bytes : List UInt8) : Option Json := Json.ofUnits? (Utf8.units none bytes)

def outline? (bytes : List UInt8) : Option Json.Outline :=
  Json.Outline.read? (Utf8.units none bytes)

def node? (bytes : List UInt8) : Option Yaml.Node := Utf8.decode? bytes >>= Yaml.Node.read?

end Contents

def Record.load (path : String) (c : Contents) : Except LoadError (List Record) :=
  c.read (fun bs => Contents.json? bs >>= listOfJson?)
    (fun bs => Yaml.Node.read? (Utf8.decodeLossy bs) >>= listOfNode?) path

def Schema.load (path : String) (c : Contents) : Except LoadError Schema :=
  c.read (fun bs => Contents.json? bs >>= ofJson?) (fun bs => Contents.node? bs >>= ofNode?) path

def GuideConfig.load (path : String) (c : Contents) : Except LoadError GuideConfig :=
  c.read (fun bs => Contents.outline? bs >>= ofOutline?)
    (fun bs => Contents.node? bs >>= ofNode?) path

end Stylebook
