import Stylebook.Json
import Stylebook.Yaml.Scalar

/-! # What plain scalars stand for

A plain scalar is null, a truth value or a number if it is spelled like one, and text otherwise.
-/

namespace Stylebook.Yaml

namespace Plain

def isNull (s : String) : Bool := s.isEmpty || s ∈ ["~", "null", "Null", "NULL"]

def bool? (s : String) : Option Bool :=
  if s ∈ ["true", "True", "TRUE"] then some true
  else if s ∈ ["false", "False", "FALSE"] then some false
  else none

def digits? (base : Nat) (cs : List Char) : Option Nat :=
  if cs.isEmpty then none
  else cs.foldlM (fun n c => do
    let d ← hexDigit? c
    if d < base then some (base * n + d) else none) 0

/-- Decimal digits do not begin with a needless zero. -/
def natural? : List Char → Option Nat
  | '0' :: 'x' :: r => digits? 16 r
  | '0' :: 'o' :: r => digits? 8 r
  | '0' :: 'b' :: r => digits? 2 r
  | '0' :: _ :: _ => none
  | cs => digits? 10 cs

def integer? : List Char → Option Int
  | '-' :: r => (natural? r).map fun n => -(n : Int)
  | '+' :: r => (natural? r).map fun n => (n : Int)
  | cs => (natural? cs).map fun n => (n : Int)

/-- Several digits that begin with a zero are text. -/
def isPadded (cs : List Char) : Bool :=
  let cs := match cs with
    | '-' :: r | '+' :: r => r
    | cs => cs
  1 < cs.length && cs.head? = some '0' && cs.all Char.isDigit

def exponent? : List Char → Option Int
  | [] => some 0
  | 'e' :: r | 'E' :: r => match r with
    | '-' :: ds => (digits? 10 ds).map fun n => -(n : Int)
    | '+' :: ds | ds => (digits? 10 ds).map fun n => (n : Int)
  | _ => none

/-- Digits with a point anywhere among them, and an exponent perhaps. -/
def magnitude? (cs : List Char) : Option Float :=
  let whole := cs.takeWhile Char.isDigit
  let (fraction, r) := match cs.dropWhile Char.isDigit with
    | '.' :: r => (r.takeWhile Char.isDigit, r.dropWhile Char.isDigit)
    | r => ([], r)
  if whole.isEmpty && fraction.isEmpty then none
  else (exponent? r).map fun e =>
    Number.nearest (Number.ofDigits (whole ++ fraction)) (e - fraction.length)

def signedMagnitude? : List Char → Option Float
  | '-' :: r => (magnitude? r).map fun x => -x
  | '+' :: r => magnitude? r
  | cs => magnitude? cs

def infinity : Float := 1 / 0

/-- Floats beyond the range of finite numbers are spelled as words only. -/
def float? (s : String) : Option Float :=
  if s ∈ [".inf", ".Inf", ".INF", "+.inf", "+.Inf", "+.INF"] then some infinity
  else if s ∈ ["-.inf", "-.Inf", "-.INF"] then some (-infinity)
  else if s ∈ [".nan", ".NaN", ".NAN"] then some (0 / 0)
  else (signedMagnitude? s.toList).filter Number.isFinite

end Plain

end Stylebook.Yaml
