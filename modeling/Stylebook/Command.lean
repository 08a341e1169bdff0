import Stylebook.Output

/-! # Command lines

Arguments are read from left to right. A switch may stand before the command or behind it; a
configuration behind the command takes the place of one before it.
-/

namespace Stylebook

/-- What a command line is about: the program as a whole, or one command. -/
inductive Topic
  | program
  | list
  | render
  | describe
  | help
deriving DecidableEq, Repr

inductive Command
  | list (json : Bool)
  | render (style records : String) (format : Format) (json : Bool)
  | describe (style : String) (json : Bool)
deriving DecidableEq, Repr

structure Invocation where
  config : Option String
  command : Command
deriving DecidableEq, Repr

/-- Why a command line ends without a command to run. -/
inductive Stop
  | help (t : Topic)
  | version
  | misuse
deriving DecidableEq, Repr

inductive Switch
  | config
  | format
  | json
  | help
  | version
deriving DecidableEq, Repr

namespace Topic

def ofName? (s : String) : Option Topic :=
  match s with
  | "list" => some list
  | "render" => some render
  | "show" => some describe
  | "help" => some help
  | _ => none

/-- How many words may follow. -/
def arity : Topic → Nat
  | render => 2
  | describe => 1
  | _ => 0

def long? (t : Topic) (name : String) : Option Switch :=
  match name with
  | "config" => some .config
  | "help" => some .help
  | "version" => if t = program then some .version else none
  | "json" => if t = program then none else some .json
  | "format" => if t = render then some .format else none
  | _ => none

def short? (t : Topic) (c : Char) : Option Switch :=
  if c = 'h' then some .help
  else if c = 'V' ∧ t = program then some .version
  else if c = 'f' ∧ t = render then some .format
  else none

end Topic

namespace Format

def ofName? (s : String) : Option Format :=
  match s with
  | "html" => some html
  | "plain" => some plain
  | _ => none

end Format

namespace Switch

def takesValue : Switch → Bool
  | config | format => true
  | _ => false

end Switch

/-- What has been read so far. `outer` is the configuration given before the command. If it is
`spoiled` there is nothing to run, but help for the command may still be had. -/
structure Reading where
  topic : Topic
  outer : Option String
  spoiled : Bool
  config : Option String
  format : Option Format
  json : Bool
  words : List String
deriving DecidableEq, Repr

namespace Reading

def start (t : Topic) (outer : Option String) (spoiled : Bool) : Reading :=
  ⟨t, outer, spoiled, none, none, false, []⟩

/-- A switch without a value. -/
def turnOn (r : Reading) : Switch → Except Stop Reading
  | .help => .error (.help r.topic)
  | .version => .error .version
  | .json => if r.json then .error .misuse else .ok { r with json := true }
  | _ => .error .misuse

/-- A switch with a value. No switch is given twice on one side of the command. -/
def assign (r : Reading) (s : Switch) (v : String) : Except Stop Reading :=
  match s with
  | .config =>
    if r.config.isSome ∨ v.isEmpty then .error .misuse else .ok { r with config := some v }
  | .format => match Format.ofName? v with
    | some f => if r.format.isSome then .error .misuse else .ok { r with format := some f }
    | none => .error .misuse
  | _ => .error .misuse

/-- The name of a style may be empty, the path of a file may not. -/
def word (r : Reading) (w : String) : Except Stop Reading :=
  if r.words.length < r.topic.arity ∧ ¬ (r.words.length = 1 ∧ w.isEmpty) then
    .ok { r with words := r.words ++ [w] }
  else .error .misuse

/-- A switch before the command, whose value is looked at behind the word after it. -/
def assignLate (r : Reading) (s : Switch) (v : String) : Reading :=
  match r.assign s v with
  | .ok r => r
  | .error _ => { r with spoiled := true }

/-- Values do not look like switches. A single dash does not. -/
def isValue (w : String) : Bool :=
  match w.toList with
  | '-' :: _ :: _ => false
  | _ => true

def helpFor : List String → Stop
  | [] => .help .program
  | [w] => match Topic.ofName? w with
    | some t => .help t
    | none => .misuse
  | _ => .misuse

/-- Whether a switch has a value attached, and which. -/
def attached : List Char → Option String
  | [] => none
  | '=' :: v => some (String.ofList v)
  | v => some (String.ofList v)

def read (r : Reading) : List String → Except Stop Reading
  | [] => .ok r
  | w :: ws =>
    let switch (s? : Option Switch) (value? : Option String) : Except Stop Reading :=
      match s? with
      | none => .error .misuse
      | some s =>
        if r.topic = .program ∧ r.spoiled then .error .misuse
        else match s.takesValue, value?, ws with
          | true, some v, ws => do read (← r.assign s v) ws
          | true, none, v :: ws =>
            if !isValue v then .error .misuse
            else if r.topic = .program then read (r.assignLate s v) ws
            else do read (← r.assign s v) ws
          | false, none, ws => do read (← r.turnOn s) ws
          | _, _, _ => .error .misuse
    match w.toList with
    | ['-', '-'] => ws.foldlM word r
    | '-' :: '-' :: cs =>
      switch (r.topic.long? (String.ofList (cs.takeWhile (· ≠ '='))))
        (attached (cs.dropWhile (· ≠ '=')))
    | '-' :: c :: cs =>
      switch (r.topic.short? c) (attached (if c = 'f' then cs else []))
    | _ =>
      if r.topic = .program then
        match Topic.ofName? w with
        | some .help => .error (helpFor ws)
        | some t => read (start t r.config r.spoiled) ws
        | none => .error .misuse
      else do read (← r.word w) ws

def invocation (r : Reading) : Except Stop Invocation :=
  let finish (c : Command) : Except Stop Invocation := .ok ⟨r.config <|> r.outer, c⟩
  if r.spoiled then .error .misuse
  else match r.topic, r.words with
  | .list, [] => finish (.list r.json)
  | .render, [style, records] => finish (.render style records (r.format.getD .html) r.json)
  | .describe, [style] => finish (.describe style r.json)
  | _, _ => .error .misuse

end Reading

def Invocation.ofArgs (ws : List String) : Except Stop Invocation := do
  (← Reading.read (.start .program none false) ws).invocation

end Stylebook
