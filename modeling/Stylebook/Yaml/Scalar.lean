import Stylebook.Yaml.Cursor

/-! # The text of scalars

Line breaks inside plain and quoted scalars fold into blanks; block scalars keep them or fold
them, and say what becomes of the breaks at the end.
-/

namespace Stylebook.Yaml

/-- Blanks and line breaks between two words: the blanks before the first break, and the breaks. -/
structure Gap where
  blanks : List Char
  breaks : List Char
deriving Repr

/-- What is left of breaks: a single newline turns into a blank, several lose the first. -/
def foldBreaks : List Char → List Char
  | [] => []
  | b :: bs => if b = '\n' then (if bs.isEmpty then [' '] else bs) else b :: bs

def Gap.text (g : Gap) : List Char := if g.breaks.isEmpty then g.blanks else foldBreaks g.breaks

/-- Read blanks and breaks. Inside the indentation, which ends at `tabLimit`, no tab may stand. -/
def readGap (tabLimit : Nat) (c : Cursor) (broken : Bool) (g : Gap) : Option (Gap × Cursor) :=
  match _h : c.rest with
  | [] => some (g, c)
  | a :: _ =>
    if isBreak a then readGap tabLimit c.next true { g with breaks := g.breaks ++ [a] }
    else if isSpace a then
      if broken then
        if a = '\t' ∧ c.column < tabLimit then none else readGap tabLimit c.next true g
      else readGap tabLimit c.next false { g with blanks := g.blanks ++ [a] }
    else some (g, c)
termination_by c.rest.length
decreasing_by all_goals exact Cursor.length_next_lt (by simp [_h])

/-! Plain scalars. -/

/-- Read to the next blank, break or indicator. Between brackets a colon may not touch one. -/
def readWord (flow : Bool) (c : Cursor) (done : List Char) : Option (List Char × Cursor) :=
  match _h : c.rest with
  | [] => some (done, c)
  | a :: _ =>
    if isSpace a || isBreak a then some (done, c)
    else if flow && a = ':' && c.at? 1 (· ∈ [',', '?', '[', ']', '\x7b', '\x7d']) then none
    else if a = ':' && c.endsWord 1 then some (done, c)
    else if flow && a ∈ [',', '[', ']', '\x7b', '\x7d'] then some (done, c)
    else readWord flow c.next (a :: done)
termination_by c.rest.length
decreasing_by exact Cursor.length_next_lt (by simp [_h])

/-- The text, where it ends, and whether a line break stands before that place. Lines that are
indented by less than `indent` do not belong to the scalar. -/
def readPlain (flow : Bool) (indent : Nat) (c : Cursor) (done before : List Char) (broken : Bool) :
    Option (List Char × Cursor × Bool) :=
  if c.atDocument || c.at? 0 (· = '#') then some (done.reverse, c, broken)
  else do
    let (word, c₁) ← readWord flow c []
    let done := if word.isEmpty then done else word ++ before.reverse ++ done
    let broken := broken && word.isEmpty
    if !(c₁.at? 0 fun a => isSpace a || isBreak a) then some (done.reverse, c₁, broken)
    else
      let (g, c₂) ← readGap indent c₁ false ⟨[], []⟩
      let broken := !g.breaks.isEmpty
      if !flow && c₂.column < indent then some (done.reverse, c₂, broken)
      else if _h : c₂.rest.length < c.rest.length then
        readPlain flow indent c₂ done g.text broken
      else none
termination_by c.rest.length

/-! Quoted scalars. -/

def hexDigit? (c : Char) : Option Nat :=
  if '0' ≤ c ∧ c ≤ '9' then some (c.toNat - 48)
  else if 'a' ≤ c ∧ c ≤ 'f' then some (c.toNat - 87)
  else if 'A' ≤ c ∧ c ≤ 'F' then some (c.toNat - 55)
  else none

/-- A code point of `n` hexadecimal digits. -/
def hexEscape? (n : Nat) (cs : List Char) : Option Char :=
  if cs.length < n then none
  else do
    let ds ← (cs.take n).mapM hexDigit?
    let v := ds.foldl (fun v d => 16 * v + d) 0
    if 0xD800 ≤ v ∧ v ≤ 0xDFFF ∨ 0x10FFFF < v then none else some (Char.ofNat v)

/-- What an escape stands for and how many characters it takes after the backslash. -/
def escape? : List Char → Option (Char × Nat)
  | [] => none
  | a :: r => match a with
    | '0' => some (Char.ofNat 0, 1)
    | 'a' => some ('\x07', 1)
    | 'b' => some ('\x08', 1)
    | 't' | '\t' => some ('\t', 1)
    | 'n' => some ('\n', 1)
    | 'v' => some ('\x0b', 1)
    | 'f' => some ('\x0c', 1)
    | 'r' => some ('\r', 1)
    | 'e' => some ('\x1b', 1)
    | ' ' => some (' ', 1)
    | '"' => some ('"', 1)
    | '/' => some ('/', 1)
    | '\\' => some ('\\', 1)
    | 'N' => some ('\u0085', 1)
    | '_' => some ('\u00a0', 1)
    | 'L' => some ('\u2028', 1)
    | 'P' => some ('\u2029', 1)
    | 'x' => (hexEscape? 2 r).map (·, 3)
    | 'u' => (hexEscape? 4 r).map (·, 5)
    | 'U' => (hexEscape? 8 r).map (·, 9)
    | _ => none

/-- Read behind the opening quote, to behind the closing one. -/
def readQuoted (single : Bool) (c : Cursor) (done : List Char) : Option (List Char × Cursor) :=
  let quote := if single then '\'' else '"'
  let go (c' : Cursor) (done : List Char) : Option (List Char × Cursor) :=
    if _h : c'.rest.length < c.rest.length then readQuoted single c' done else none
  if c.atDocument then none
  else match c.rest with
    | [] => none
    | a :: r =>
      if a = quote then
        if single && c.at? 1 (· = quote) then go (c.skip 2) (quote :: done)
        else some (done.reverse, c.next)
      else if isSpace a || isBreak a then do
        let (g, c₁) ← readGap 0 c false ⟨[], []⟩
        go c₁ (g.text.reverse ++ done)
      else if !single && a = '\\' then
        if c.at? 1 isBreak then do
          let (g, c₁) ← readGap 0 (c.skip 2) true ⟨[], []⟩
          go c₁ (g.breaks.reverse ++ done)
        else do
          let (e, n) ← escape? r
          go (c.skip (n + 1)) (e :: done)
      else go c.next (a :: done)
termination_by c.rest.length

/-! Block scalars. -/

/-- What becomes of the line breaks at the end. -/
inductive Chomping
  | strip
  | clip
  | keep
deriving DecidableEq, Repr

structure BlockHeader where
  chomping : Chomping
  /-- Indentation beyond that of the parent, where it is given. -/
  indent : Option Nat
deriving Repr

def chomping? (a : Char) : Option Chomping :=
  if a = '+' then some .keep else if a = '-' then some .strip else none

def blockIndent? (a : Char) : Option Nat :=
  if '1' ≤ a ∧ a ≤ '9' then some (a.toNat - 48) else none

/-- The two marks may come in either order. A zero is no indentation. -/
def readHeader (c : Cursor) : Option (BlockHeader × Cursor) :=
  let here (c : Cursor) : Option Char := c.peek 0
  match here c >>= chomping? with
  | some ch =>
    let c := c.next
    match here c >>= blockIndent? with
    | some n => some (⟨ch, some n⟩, c.next)
    | none => if here c = some '0' then none else some (⟨ch, none⟩, c)
  | none => match here c >>= blockIndent? with
    | some n =>
      let c := c.next
      match here c >>= chomping? with
      | some ch => some (⟨ch, some n⟩, c.next)
      | none => some (⟨.clip, some n⟩, c)
    | none => if here c = some '0' then none else some (⟨.clip, none⟩, c)

/-- Read indentation and empty lines: the breaks, the widest indentation, and where content
begins. An `indent` of zero is still to be found. -/
def readIndent (indent : Nat) (c : Cursor) (breaks : List Char) (widest : Nat) :
    Option (List Char × Nat × Cursor) :=
  match _h : c.rest with
  | [] => some (breaks, max widest c.column, c)
  | a :: _ =>
    if (indent = 0 ∨ c.column < indent) ∧ a = ' ' then readIndent indent c.next breaks widest
    else if (indent = 0 ∨ c.column < indent) ∧ a = '\t' then none
    else if isBreak a then readIndent indent c.next (breaks ++ [a]) (max widest c.column)
    else some (breaks, max widest c.column, c)
termination_by c.rest.length
decreasing_by all_goals exact Cursor.length_next_lt (by simp [_h])

/-- Read the lines of a block. `last` is the break of the line before, `breaks` those of empty
lines after it, and `indented` tells whether that line began with a blank. -/
def readLines (literal : Bool) (indent : Nat) (c : Cursor) (done last breaks : List Char)
    (indented : Bool) : Option (List Char × List Char × List Char × Cursor) :=
  if c.column ≠ indent ∨ c.rest.isEmpty then some (done, last, breaks, c)
  else do
    let blank := c.at? 0 isSpace
    let join := if !literal && last.head? = some '\n' && !indented && !blank then
        (if breaks.isEmpty then [' '] else []) else last
    let line := c.rest.takeWhile (!isBreak ·)
    let c₁ := c.dropWhile (!isBreak ·)
    let last := (c₁.peek 0).toList
    let (breaks', _, c₂) ← readIndent indent (if c₁.rest.isEmpty then c₁ else c₁.next) [] 0
    if _h : c₂.rest.length < c.rest.length then
      readLines literal indent c₂ (done ++ join ++ breaks ++ line) last breaks' blank
    else none
termination_by c.rest.length

/-- Read a block scalar behind its indicator, inside a block that is indented by `parent`. -/
def readBlock (literal : Bool) (parent : Int) (c : Cursor) : Option (List Char × Cursor) := do
  let (h, c) ← readHeader c
  let c := c.dropWhile isSpace
  let c := if c.at? 0 (· = '#') then c.dropWhile (!isBreak ·) else c
  if !(c.peek 0).all isBreak then none
  else
    let c := c.next
    let given : Nat := match h.indent with
      | some n => (if 0 ≤ parent then parent.toNat + n else n)
      | none => 0
    let (breaks, widest, c) ← readIndent given c [] 0
    let indent : Nat := if given = 0 then max (max widest (parent + 1).toNat) 1 else given
    let (done, last, breaks, c) ← readLines literal indent c [] [] breaks false
    pure (match h.chomping with
      | .strip => (done, c)
      | .clip => (done ++ last, c)
      | .keep => (done ++ last ++ breaks, c))

end Stylebook.Yaml
