/-! # UTF-8

Bytes are decoded one at a time. Each longest run of bytes that begins a character but does not
end one counts as one error.
-/

namespace Stylebook.Utf8

/-- A character that still wants `left` bytes, the next of them between `low` and `high`. -/
structure Pending where
  left : Nat
  low : Nat
  high : Nat
  value : Nat
deriving DecidableEq, Repr

/-- The first byte of a character: a character by itself, a beginning, or an error. -/
def first (b : Nat) : List (Option Char) × Option Pending :=
  if b < 0x80 then ([some (Char.ofNat b)], none)
  else if b < 0xC2 then ([none], none)
  else if b < 0xE0 then ([], some ⟨1, 0x80, 0xBF, b - 0xC0⟩)
  else if b = 0xE0 then ([], some ⟨2, 0xA0, 0xBF, 0⟩)
  else if b = 0xED then ([], some ⟨2, 0x80, 0x9F, 0xD⟩)
  else if b < 0xF0 then ([], some ⟨2, 0x80, 0xBF, b - 0xE0⟩)
  else if b = 0xF0 then ([], some ⟨3, 0x90, 0xBF, 0⟩)
  else if b < 0xF4 then ([], some ⟨3, 0x80, 0xBF, b - 0xF0⟩)
  else if b = 0xF4 then ([], some ⟨3, 0x80, 0x8F, 4⟩)
  else ([none], none)

def next (p : Option Pending) (b : Nat) : List (Option Char) × Option Pending :=
  match p with
  | none => first b
  | some p =>
    if p.low ≤ b ∧ b ≤ p.high then
      let v := 0x40 * p.value + (b - 0x80)
      if p.left = 1 then ([some (Char.ofNat v)], none) else ([], some ⟨p.left - 1, 0x80, 0xBF, v⟩)
    else
      let r := first b
      (none :: r.1, r.2)

/-- The characters, with a gap for each error. -/
def units (p : Option Pending) : List UInt8 → List (Option Char)
  | [] => if p.isSome then [none] else []
  | b :: bs =>
    let r := next p b.toNat
    r.1 ++ units r.2 bs

def decode? (bs : List UInt8) : Option (List Char) := (units none bs).mapM id

/-- Each error becomes a replacement character. -/
def decodeLossy (bs : List UInt8) : List Char := (units none bs).map (·.getD '\ufffd')

end Stylebook.Utf8
