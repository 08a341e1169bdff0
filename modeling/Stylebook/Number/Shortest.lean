/-! # Shortest decimals

The fewest decimal digits that read back to the same 64-bit float, and the nearest such decimal.
Where two are equally near, a rule says which one is taken. All of it is exact arithmetic on
natural numbers.
-/

namespace Stylebook

/-- The decimal `digits · 10 ^ exponent`. -/
structure Decimal where
  digits : Nat
  exponent : Int
deriving DecidableEq, Repr

/-- What becomes of two decimals that are equally near. -/
inductive Tie
  | up
  | even
deriving DecidableEq, Repr

/-- A finite magnitude `mantissa · 2 ^ exponent`, as a 64-bit float stores it. -/
structure Binary where
  mantissa : Nat
  exponent : Int
deriving DecidableEq, Repr

namespace Binary

/-- The magnitude in the low 63 bits of a finite float. -/
def ofBits (bits : Nat) : Binary :=
  let fraction := bits % Nat.pow 2 52
  match bits / Nat.pow 2 52 % 2048 with
  | 0 => ⟨fraction, -1074⟩
  | e => ⟨fraction + Nat.pow 2 52, (e : Int) - 1075⟩

/-- The gap to the float below is half the gap above. -/
def atPowerOfTwo (b : Binary) : Bool := b.mantissa = Nat.pow 2 52 && b.exponent > -1074

/-- The value and the two ends of the interval that rounds to it, over one denominator. -/
structure Neighbourhood where
  low : Nat
  value : Nat
  high : Nat
  unit : Nat
  closed : Bool

def neighbourhood (b : Binary) : Neighbourhood :=
  let up := Nat.pow 2 b.exponent.toNat
  { low := (4 * b.mantissa - if b.atPowerOfTwo then 1 else 2) * up
    value := 4 * b.mantissa * up
    high := (4 * b.mantissa + 2) * up
    unit := 4 * Nat.pow 2 (-b.exponent).toNat
    closed := b.mantissa % 2 = 0 }

end Binary

namespace Decimal

def digitCount (n : Nat) : Nat := (Nat.toDigits 10 n).length

/-- The `k` with `10 ^ (k - 1) ≤ num / den < 10 ^ k`, for a positive quotient of at least `1e-400`. -/
def magnitude (num den : Nat) : Int :=
  if den ≤ num then digitCount (num / den)
  else 1 - (((List.range 400).find? fun j => den ≤ num * Nat.pow 10 j).getD 0 : Nat)

def dropZeros (d : Nat) (k : Int) : Decimal :=
  if h : d ≠ 0 ∧ d % 10 = 0 then dropZeros (d / 10) (k + 1) else ⟨d, k⟩
termination_by d
decreasing_by omega

open Binary in
/-- The multiples of `10 ^ k` on the two sides of the value that lie in its interval. The nearer
one is taken. -/
def onGrid? (t : Tie) (n : Neighbourhood) (k : Int) : Option Nat :=
  let num := Nat.pow 10 k.toNat * n.unit
  let scale := Nat.pow 10 (-k).toNat
  let below := n.value * scale / num
  let within (d : Nat) : Bool :=
    if n.closed then n.low * scale ≤ d * num && d * num ≤ n.high * scale
    else n.low * scale < d * num && d * num < n.high * scale
  match within below, within (below + 1) with
  | true, true =>
    match compare (2 * (n.value * scale)) ((2 * below + 1) * num) with
    | .lt => some below
    | .eq => if t = .even && below % 2 = 0 then some below else some (below + 1)
    | .gt => some (below + 1)
  | true, false => some below
  | false, true => some (below + 1)
  | false, false => none

/-- Try one digit, then two, up to seventeen. -/
def shortest (t : Tie) (b : Binary) : Decimal :=
  if b.mantissa = 0 then ⟨0, 0⟩
  else
    let n := b.neighbourhood
    let top := magnitude n.value n.unit
    let found := (List.range 17).findSome? fun i =>
      let k := top - (i + 1 : Nat)
      (onGrid? t n k).map fun d => dropZeros d k
    found.getD ⟨0, 0⟩

end Decimal

end Stylebook
