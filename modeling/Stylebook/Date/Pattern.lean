import Stylebook.Date

/-! # Date patterns

A pattern is a sequence of tokens and literal text. A date renders when it has every part that
the tokens ask for.
-/

namespace Stylebook.Date

inductive Token
  | year
  | shortYear
  | monthName
  | monthAbbrev
  | paddedMonth
  | month
  | paddedDay
  | day
  | literal (s : String)
deriving DecidableEq, Repr

/-- Characters that never begin a token. -/
def isLiteral (c : Char) : Bool := c ≠ 'Y' && c ≠ 'M' && c ≠ 'D'

/-- Longer spellings go first; a single `Y` left over is literal. -/
def tokens : List Char → List Token
  | [] => []
  | 'Y' :: 'Y' :: 'Y' :: 'Y' :: r => .year :: tokens r
  | 'Y' :: 'Y' :: r => .shortYear :: tokens r
  | 'Y' :: r => .literal "Y" :: tokens r
  | 'M' :: 'M' :: 'M' :: 'M' :: r => .monthName :: tokens r
  | 'M' :: 'M' :: 'M' :: r => .monthAbbrev :: tokens r
  | 'M' :: 'M' :: r => .paddedMonth :: tokens r
  | 'M' :: r => .month :: tokens r
  | 'D' :: 'D' :: r => .paddedDay :: tokens r
  | 'D' :: r => .day :: tokens r
  | c :: r =>
    .literal (String.ofList (c :: r.takeWhile isLiteral)) :: tokens (r.dropWhile isLiteral)
termination_by cs => cs.length
decreasing_by
  all_goals simp only [List.length_cons]
  all_goals first
    | omega
    | exact Nat.lt_succ_of_le (List.dropWhile_sublist _).length_le

def Token.spelling : Token → String
  | year => "YYYY"
  | shortYear => "YY"
  | monthName => "MMMM"
  | monthAbbrev => "MMM"
  | paddedMonth => "MM"
  | month => "M"
  | paddedDay => "DD"
  | day => "D"
  | literal s => s

def lastTwo (s : String) : String := String.ofList (s.toList.drop (s.toList.length - 2))

def twoDigits (n : Nat) : String := if n < 10 then "0" ++ toString n else toString n

/-- What a token stands for in `d`. -/
def Token.render? (d : Date) : Token → Option String
  | year => d.year
  | shortYear => d.year.map lastTwo
  | monthName => d.monthNumber? >>= monthName?
  | monthAbbrev => (d.monthNumber? >>= monthName?).map fun s => String.ofList (s.toList.take 3)
  | paddedMonth => d.monthNumber?.map twoDigits
  | month => d.monthNumber?.map toString
  | paddedDay => d.dayNumber?.map twoDigits
  | day => d.dayNumber?.map toString
  | literal s => some s

def format? (d : Date) (pattern : String) : Option String :=
  ((tokens pattern.toList).mapM (Token.render? d)).map String.join

end Stylebook.Date
