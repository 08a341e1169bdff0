import Stylebook.Contributor

/-! # Name patterns

A pattern says where the last name, the first name and the initial go. A list of names is
joined by separators, the last one by a separator of its own.
-/

namespace Stylebook.Contributor

inductive Token
  | last
  | first
  | initial
  | literal (s : String)
deriving DecidableEq, Repr

def isLiteral (c : Char) : Bool := c ≠ 'L' && c ≠ 'F'

def tokens : List Char → List Token
  | [] => []
  | 'L' :: 'a' :: 's' :: 't' :: r => .last :: tokens r
  | 'F' :: 'i' :: 'r' :: 's' :: 't' :: r => .first :: tokens r
  | 'F' :: r => .initial :: tokens r
  | 'L' :: r => .literal "L" :: tokens r
  | c :: r =>
    .literal (String.ofList (c :: r.takeWhile isLiteral)) :: tokens (r.dropWhile isLiteral)
termination_by cs => cs.length
decreasing_by
  all_goals simp only [List.length_cons]
  all_goals first
    | omega
    | exact Nat.lt_succ_of_le (List.dropWhile_sublist _).length_le

def Token.spelling : Token → String
  | last => "Last"
  | first => "First"
  | initial => "F"
  | literal s => s

def Token.render (c : Contributor) : Token → String
  | last => c.last
  | first => c.first
  | initial => String.ofList (c.first.toList.take 1)
  | literal s => s

/-- Somebody without a first name goes by the last name, whatever the pattern. -/
def format (c : Contributor) (pattern : String) : String :=
  if c.first.isEmpty then c.last
  else String.join ((tokens pattern.toList).map (Token.render c))

/-- Put `finalSep` before the last of several names, and `sep` before the others. -/
def join (sep finalSep : String) : List String → String
  | [] => ""
  | [n] => n
  | [m, n] => m ++ finalSep ++ n
  | m :: ns => m ++ sep ++ join sep finalSep ns

def formatAll (f : NameFormat) (cs : List Contributor) : String :=
  join f.separator f.finalSeparator (cs.map (format · f.pattern))

end Stylebook.Contributor
