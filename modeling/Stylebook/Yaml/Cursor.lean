/-! # A place in a text

Line breaks are uniform once a text is prepared, so that a place is the text that is left with
its line and column, and with the octets before it.
-/

namespace Stylebook.Yaml

def isSpace (c : Char) : Bool := c = ' ' || c = '\t'

def isBreak (c : Char) : Bool := c = '\n' || c = '\u2028' || c = '\u2029'

/-- Characters that a document may hold. -/
def isPrintable (c : Char) : Bool :=
  let n := c.toNat
  n = 0x09 || n = 0x0A || n = 0x0D || 0x20 ≤ n && n ≤ 0x7E || n = 0x85 ||
    0xA0 ≤ n && n ≤ 0xFFFD || 0x10000 ≤ n

/-- One newline for each line break of the usual kinds. -/
def uniform : List Char → List Char
  | '\r' :: '\n' :: r => '\n' :: uniform r
  | '\r' :: r => '\n' :: uniform r
  | '\u0085' :: r => '\n' :: uniform r
  | c :: r => c :: uniform r
  | [] => []

structure Cursor where
  rest : List Char
  index : Nat
  line : Nat
  column : Nat

namespace Cursor

def start (cs : List Char) : Cursor := ⟨cs, 0, 0, 0⟩

def peek (c : Cursor) (n : Nat) : Option Char := c.rest[n]?

def at? (c : Cursor) (n : Nat) (p : Char → Bool) : Bool := (c.peek n).any p

/-- Whether a space, a line break or the end stands `n` characters on. -/
def endsWord (c : Cursor) (n : Nat) : Bool :=
  (c.peek n).all fun a => isSpace a || isBreak a

def next (c : Cursor) : Cursor :=
  match c.rest with
  | [] => c
  | a :: r =>
    let index := c.index + a.utf8Size
    if isBreak a then ⟨r, index, c.line + 1, 0⟩ else ⟨r, index, c.line, c.column + 1⟩

theorem length_next (c : Cursor) : c.next.rest.length = c.rest.length - 1 := by
  unfold next
  split
  · simp_all
  · dsimp only; split <;> simp_all

theorem length_next_lt {c : Cursor} (h : c.rest ≠ []) : c.next.rest.length < c.rest.length := by
  have := List.length_pos_iff.mpr h
  rw [length_next]
  omega

def skip (c : Cursor) : Nat → Cursor
  | 0 => c
  | n + 1 => c.next.skip n

def dropWhile (p : Char → Bool) (c : Cursor) : Cursor :=
  if _h : c.rest ≠ [] ∧ c.at? 0 p then dropWhile p c.next else c
termination_by c.rest.length
decreasing_by exact length_next_lt _h.1

/-- A line that begins with a document mark. -/
def atMark (c : Cursor) (mark : List Char) : Bool :=
  c.column = 0 && mark.isPrefixOf c.rest && c.endsWord 3

def atDocument (c : Cursor) : Bool := c.atMark ['-', '-', '-'] || c.atMark ['.', '.', '.']

end Cursor

end Stylebook.Yaml
