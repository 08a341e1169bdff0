import Stylebook.Json

/-! # Lexemes of JSON

Characters are read one at a time. Strings and numbers are checked for their form only: what
they stand for is decided later, and not at all where nobody asks for the value.
-/

namespace Stylebook.Json

/-- A string is made of characters, of 16-bit units written as escapes, and of bytes that are no
character. -/
inductive Piece
  | char (c : Char)
  | unit (n : Nat)
  | broken
deriving DecidableEq, Repr

/-- The parts of a number: sign, digits before the point, after it, and the exponent. -/
structure NumberText where
  negative : Bool
  whole : List Char
  fraction : Option (List Char)
  exponent : Option (Bool × List Char)
deriving DecidableEq, Repr

inductive Lexeme
  | objectStart
  | objectEnd
  | arrayStart
  | arrayEnd
  | comma
  | colon
  | null
  | bool (b : Bool)
  | number (n : NumberText)
  | string (ps : List Piece)
deriving DecidableEq, Repr

def hexValue? (c : Char) : Option Nat :=
  if '0' ≤ c ∧ c ≤ '9' then some (c.toNat - 48)
  else if 'a' ≤ c ∧ c ≤ 'f' then some (c.toNat - 87)
  else if 'A' ≤ c ∧ c ≤ 'F' then some (c.toNat - 55)
  else none

namespace NumberText

/-- Optional exponent, to the end of the text. -/
def exponent? : List Char → Option (Option (Bool × List Char))
  | [] => some none
  | e :: r =>
    if e = 'e' ∨ e = 'E' then
      let (negative, ds) := match r with
        | '-' :: ds => (true, ds)
        | '+' :: ds => (false, ds)
        | ds => (false, ds)
      if ds ≠ [] ∧ ds.all Char.isDigit then some (some (negative, ds)) else none
    else none

def unsigned? (negative : Bool) (cs : List Char) : Option NumberText :=
  let whole := cs.takeWhile Char.isDigit
  if whole = [] ∨ (whole.head? = some '0' ∧ whole.length ≠ 1) then none
  else match cs.dropWhile Char.isDigit with
    | '.' :: r =>
      let fraction := r.takeWhile Char.isDigit
      if fraction = [] then none
      else (exponent? (r.dropWhile Char.isDigit)).map fun e => ⟨negative, whole, some fraction, e⟩
    | r => (exponent? r).map fun e => ⟨negative, whole, none, e⟩

def ofChars? : List Char → Option NumberText
  | '-' :: cs => unsigned? true cs
  | cs => unsigned? false cs

end NumberText

/-- What the characters read so far belong to; pieces and characters are kept in reverse. -/
inductive Mode
  | between
  | word (cs : List Char)
  | number (cs : List Char)
  | string (ps : List Piece)
  | escape (ps : List Piece)
  | unit (ps : List Piece) (digits : Nat) (n : Nat)
deriving Repr

/-- The mode, and the lexemes before it in reverse. -/
structure Lexing where
  mode : Mode
  done : List Lexeme

namespace Lexing

def wordLexeme? : List Char → Option Lexeme
  | ['n', 'u', 'l', 'l'] => some .null
  | ['t', 'r', 'u', 'e'] => some (.bool true)
  | ['f', 'a', 'l', 's', 'e'] => some (.bool false)
  | _ => none

def inNumber (c : Char) : Bool := c.isDigit || c ∈ ['-', '+', '.', 'e', 'E']

def inWord (c : Char) : Bool := 'a' ≤ c && c ≤ 'z'

/-- A character outside strings, words and numbers. -/
def start? (c : Char) (done : List Lexeme) : Option Lexing :=
  match c with
  | ' ' | '\t' | '\n' | '\r' => some ⟨.between, done⟩
  | '\x7b' => some ⟨.between, .objectStart :: done⟩
  | '\x7d' => some ⟨.between, .objectEnd :: done⟩
  | '[' => some ⟨.between, .arrayStart :: done⟩
  | ']' => some ⟨.between, .arrayEnd :: done⟩
  | ',' => some ⟨.between, .comma :: done⟩
  | ':' => some ⟨.between, .colon :: done⟩
  | '"' => some ⟨.string [], done⟩
  | c =>
    if c = '-' ∨ c.isDigit then some ⟨.number [c], done⟩
    else if inWord c then some ⟨.word [c], done⟩
    else none

def escaped? (c : Char) : Option Char :=
  match c with
  | '"' => some '"'
  | '\\' => some '\\'
  | '/' => some '/'
  | 'b' => some '\x08'
  | 'f' => some '\x0c'
  | 'n' => some '\n'
  | 'r' => some '\r'
  | 't' => some '\t'
  | _ => none

/-- Close the word or number that has been read. -/
def flush? : Lexing → Option (List Lexeme)
  | ⟨.between, done⟩ => some done
  | ⟨.word cs, done⟩ => (wordLexeme? cs.reverse).map (· :: done)
  | ⟨.number cs, done⟩ => (NumberText.ofChars? cs.reverse).map fun n => .number n :: done
  | _ => none

def step? (l : Lexing) (c : Char) : Option Lexing :=
  match l.mode with
  | .between => start? c l.done
  | .word cs => if inWord c then some ⟨.word (c :: cs), l.done⟩ else l.flush? >>= start? c
  | .number cs => if inNumber c then some ⟨.number (c :: cs), l.done⟩ else l.flush? >>= start? c
  | .string ps =>
    if c = '"' then some ⟨.between, .string ps.reverse :: l.done⟩
    else if c = '\\' then some ⟨.escape ps, l.done⟩
    else if c.toNat < 0x20 then none
    else some ⟨.string (.char c :: ps), l.done⟩
  | .escape ps =>
    if c = 'u' then some ⟨.unit ps 0 0, l.done⟩
    else (escaped? c).map fun e => ⟨.string (.char e :: ps), l.done⟩
  | .unit ps digits n => (hexValue? c).map fun h =>
    if digits = 3 then ⟨.string (.unit (16 * n + h) :: ps), l.done⟩
    else ⟨.unit ps (digits + 1) (16 * n + h), l.done⟩

/-- Broken bytes may stand in strings only. -/
def stepUnit? (l : Lexing) : Option Char → Option Lexing
  | some c => l.step? c
  | none => match l.mode with
    | .string ps => some ⟨.string (.broken :: ps), l.done⟩
    | _ => none

end Lexing

def lexemes? (us : List (Option Char)) : Option (List Lexeme) :=
  ((us.foldlM Lexing.stepUnit? ⟨.between, []⟩) >>= Lexing.flush?).map List.reverse

/-! What strings and numbers stand for. -/

/-- Escaped surrogates have to come in pairs. -/
def text? : List Piece → Option (List Char)
  | [] => some []
  | .char c :: ps => (text? ps).map (c :: ·)
  | .unit n :: ps =>
    if n < 0xD800 ∨ 0xE000 ≤ n then (text? ps).map (Char.ofNat n :: ·)
    else if n < 0xDC00 then
      match ps with
      | .unit m :: ps =>
        if 0xDC00 ≤ m ∧ m < 0xE000 then
          (text? ps).map (Char.ofNat (0x10000 + 0x400 * (n - 0xD800) + (m - 0xDC00)) :: ·)
        else none
      | _ => none
    else none
  | .broken :: _ => none

def string? (ps : List Piece) : Option String := (text? ps).map String.ofList

namespace NumberText

def maxWord : Nat := Nat.pow 2 64 - 1

/-- Digits are collected as long as they fit 64 bits; the rest are counted. -/
def collect (n : Nat) : List Char → Nat × List Char
  | [] => (n, [])
  | c :: cs =>
    let m := 10 * n + (c.toNat - 48)
    if maxWord < m then (n, c :: cs) else collect m cs

def maxExponent : Nat := Nat.pow 2 31 - 1

/-- The value before its sign. -/
def magnitude? (t : NumberText) : Option Float :=
  let (n, dropped) := collect 0 t.whole
  let (m, left) := collect n (t.fraction.getD [])
  let used := (t.fraction.getD []).length - left.length
  let places : Int := dropped.length - used
  match t.exponent with
  | none => Number.scaled? m places
  | some (negative, ds) =>
    let e := Number.ofDigits ds
    if maxExponent < e then if m = 0 ∨ negative then some 0 else none
    else Number.scaled? m (if negative then places - e else places + e)

def signed (t : NumberText) (x : Float) : Float := if t.negative then -x else x

/-- Numbers without point and exponent are integers if 64 bits hold them. A negative zero is a
float. -/
def value? (t : NumberText) : Option Numeral :=
  let n := Number.ofDigits t.whole
  if t.fraction.isNone ∧ t.exponent.isNone ∧ !t.negative ∧ n ≤ maxWord then some (.int n)
  else if t.fraction.isNone ∧ t.exponent.isNone ∧ t.negative ∧ 0 < n ∧ n ≤ Nat.pow 2 63 then
    some (.int (-n))
  else t.magnitude?.map fun x => .float (t.signed x)

end NumberText

end Stylebook.Json
