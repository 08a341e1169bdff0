import Stylebook.Number.Shortest

/-! # The text of numbers

Record numbers are 64-bit floats. Their plain form is positional, with the fewest digits that
read back; written as data they take an exponent outside `1e-5` to `1e16`. Of two decimals that
are equally near the plain form takes the upper one, and the written form the even one.
-/

namespace Stylebook

namespace Number

inductive Shape
  | nan
  | infinite
  | finite (magnitude : Binary)

def isNegative (x : Float) : Bool := x.toBits.toNat / Nat.pow 2 63 = 1

def shape (x : Float) : Shape :=
  let bits := x.toBits.toNat
  if bits / Nat.pow 2 52 % 2048 = 2047 then
    if bits % Nat.pow 2 52 = 0 then .infinite else .nan
  else .finite (.ofBits bits)

def isFinite (x : Float) : Bool := match shape x with
  | .finite _ => true
  | _ => false

def zeros (n : Nat) : List Char := List.replicate n '0'

def digitsOf (d : Decimal) : List Char := Nat.toDigits 10 d.digits

def positional (d : Decimal) : List Char :=
  let ds := digitsOf d
  let point := ds.length + d.exponent
  if 0 ≤ d.exponent then ds ++ zeros d.exponent.toNat
  else if 0 < point then ds.take point.toNat ++ '.' :: ds.drop point.toNat
  else '0' :: '.' :: zeros (-point).toNat ++ ds

def scientific (d : Decimal) : List Char :=
  let ds := digitsOf d
  let power := (toString (ds.length + d.exponent - 1)).toList
  match ds with
  | c :: r@(_ :: _) => c :: '.' :: r ++ 'e' :: power
  | ds => ds ++ 'e' :: power

def signed (x : Float) (cs : List Char) : String :=
  String.ofList (if isNegative x then '-' :: cs else cs)

/-- The plain form: no exponent, and no fraction where there is none. -/
def plain (x : Float) : String := match shape x with
  | .nan => "NaN"
  | .infinite => signed x "inf".toList
  | .finite m => signed x (positional (.shortest .up m))

/-- The form in a data file, where a float always shows a point or an exponent. -/
def written (x : Float) : String := match shape x with
  | .nan | .infinite => "null"
  | .finite m =>
    let d := Decimal.shortest .even m
    let point := (digitsOf d).length + d.exponent
    if -5 < point ∧ point ≤ 16 then
      signed x (if 0 ≤ d.exponent then positional d ++ ['.', '0'] else positional d)
    else signed x (scientific d)

/-! Reading decimals. -/

def powerOfTen (n : Nat) : Float := Float.ofScientific 1 false n

/-- Divide by a power of ten, in steps that a float can hold. -/
def scaleDown (x : Float) (n : Nat) : Float :=
  if n ≤ 308 then x / powerOfTen n
  else if x == 0 then x
  else scaleDown (x / powerOfTen 308) (n - 308)
termination_by n

/-- The significand is rounded to a float first, and rounded again when it is scaled. Numbers
beyond the float range have no value. -/
def scaled? (significand : Nat) (exponent : Int) : Option Float :=
  let x := Float.ofNat significand
  if exponent < 0 then some (scaleDown x (-exponent).toNat)
  else if 308 < exponent then if x == 0 then some x else none
  else
    let y := x * powerOfTen exponent.toNat
    if isFinite y then some y else none

/-- The float nearest to `digits · 10 ^ exponent`. -/
def nearest (digits : Nat) (exponent : Int) : Float :=
  let point := Decimal.digitCount digits + exponent
  if digits = 0 ∨ point < -400 then 0
  else if 400 < point then 1 / 0
  else if exponent < 0 then Float.ofScientific digits true (-exponent).toNat
  else Float.ofScientific digits false exponent.toNat

/-- An integer written in decimal. -/
def ofDigits (cs : List Char) : Nat := cs.foldl (fun n c => 10 * n + (c.toNat - 48)) 0

end Number

end Stylebook
