/-! # Blank characters

The Unicode property `White_Space`, trimming, and splitting at blanks.
-/

namespace Stylebook

/-- First and last code points of the ranges that have the property. -/
def blankRanges : List (Nat × Nat) :=
  [(0x09, 0x0D), (0x20, 0x20), (0x85, 0x85), (0xA0, 0xA0), (0x1680, 0x1680), (0x2000, 0x200A),
    (0x2028, 0x2029), (0x202F, 0x202F), (0x205F, 0x205F), (0x3000, 0x3000)]

def isBlank (c : Char) : Bool :=
  blankRanges.any fun r => r.1 ≤ c.toNat && c.toNat ≤ r.2

namespace Text

def trimStart (cs : List Char) : List Char := cs.dropWhile isBlank

def trim (cs : List Char) : List Char := (trimStart (trimStart cs).reverse).reverse

/-- Whether nothing is left after trimming. -/
def allBlank (s : String) : Bool := s.toList.all isBlank

/-- The maximal runs without a blank. -/
def words (cs : List Char) : List (List Char) :=
  match _h : trimStart cs with
  | [] => []
  | c :: r =>
    (c :: r.takeWhile (!isBlank ·)) :: words (r.dropWhile (!isBlank ·))
termination_by cs.length
decreasing_by
  have h₁ : (trimStart cs).length ≤ cs.length := (List.dropWhile_sublist _).length_le
  have h₂ : (r.dropWhile (!isBlank ·)).length ≤ r.length := (List.dropWhile_sublist _).length_le
  simp [_h] at h₁
  omega

end Text

end Stylebook
