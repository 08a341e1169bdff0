import Stylebook.Json

/-! # Writing JSON

On one line without blanks, or indented by two blanks for each level.
-/

namespace Stylebook.Json

def hexDigit (n : Nat) : Char := Char.ofNat (if n < 10 then 48 + n else 87 + n)

def escape (c : Char) : List Char :=
  match c with
  | '"' => ['\\', '"']
  | '\\' => ['\\', '\\']
  | '\n' => ['\\', 'n']
  | '\r' => ['\\', 'r']
  | '\t' => ['\\', 't']
  | '\x08' => ['\\', 'b']
  | '\x0c' => ['\\', 'f']
  | c =>
    if c.toNat < 0x20 then ['\\', 'u', '0', '0', hexDigit (c.toNat / 16), hexDigit (c.toNat % 16)]
    else [c]

def quoted (s : String) : String := String.ofList ('"' :: s.toList.flatMap escape ++ ['"'])

def boolText (b : Bool) : String := if b then "true" else "false"

mutual

def compact : Json → String
  | null => "null"
  | bool b => boolText b
  | num n => n.written
  | str s => quoted s
  | arr xs => "[" ++ ",".intercalate (compactAll xs) ++ "]"
  | obj ms => "\x7b" ++ ",".intercalate (compactMembers ms) ++ "\x7d"

def compactAll : List Json → List String
  | [] => []
  | x :: xs => compact x :: compactAll xs

def compactMembers : List (String × Json) → List String
  | [] => []
  | (k, v) :: ms => (quoted k ++ ":" ++ compact v) :: compactMembers ms

end

def newline (level : Nat) : String := "\n" ++ String.ofList (List.replicate (2 * level) ' ')

/-- Items between brackets, one a line. -/
def block (level : Nat) (start stop : String) (items : List String) : String :=
  if items.isEmpty then start ++ stop
  else start ++ newline (level + 1) ++ ("," ++ newline (level + 1)).intercalate items
    ++ newline level ++ stop

mutual

def indented (level : Nat) : Json → String
  | null => "null"
  | bool b => boolText b
  | num n => n.written
  | str s => quoted s
  | arr xs => block level "[" "]" (indentedAll (level + 1) xs)
  | obj ms => block level "\x7b" "\x7d" (indentedMembers (level + 1) ms)

def indentedAll (level : Nat) : List Json → List String
  | [] => []
  | x :: xs => indented level x :: indentedAll level xs

def indentedMembers (level : Nat) : List (String × Json) → List String
  | [] => []
  | (k, v) :: ms => (quoted k ++ ": " ++ indented level v) :: indentedMembers level ms

end

def pretty (v : Json) : String := indented 0 v

end Stylebook.Json
