import Stylebook.Yaml.Scalar

/-! # Tokens

A document is cut into scalars, indicators and marks for the begin and end of blocks. Blocks
follow from indentation. That a scalar is a key is known only at the colon after it, so that the
tokens of a key are put into the list behind the fact.
-/

namespace Stylebook.Yaml

inductive Token
  | documentStart
  | documentEnd
  | blockSequenceStart
  | blockMappingStart
  | blockEnd
  | flowSequenceStart
  | flowSequenceEnd
  | flowMappingStart
  | flowMappingEnd
  | blockEntry
  | flowEntry
  | key
  | value
  | alias (name : List Char)
  | anchor (name : List Char)
  | scalar (plain : Bool) (text : List Char)
deriving DecidableEq, Repr

/-- A place where a key may have begun: which token it would be, and where it stands. A required
one has to turn out to be a key. -/
structure KeyStart where
  token : Nat
  required : Bool
  index : Nat
  line : Nat
  column : Nat

/-- `keys` holds the possible key of each open bracket and of the block around them, and
`keyAllowed` tells whether a key may begin here. -/
structure Scanner where
  cursor : Cursor
  tokens : List Token
  indent : Int
  outer : List Int
  keys : List (Option KeyStart)
  keyAllowed : Bool

namespace Scanner

def start (cs : List Char) : Scanner := ⟨.start cs, [], -1, [], [none], true⟩

def flow (s : Scanner) : Bool := 1 < s.keys.length

def push (s : Scanner) (t : Token) : Scanner := { s with tokens := s.tokens ++ [t] }

def advance (s : Scanner) (n : Nat) : Scanner := { s with cursor := s.cursor.skip n }

def allowKey (s : Scanner) (b : Bool) : Scanner := { s with keyAllowed := b }

/-- Skip blanks, comments and line breaks. A tab may not stand where a key may begin. -/
def skipGaps (flow keyAllowed : Bool) (c : Cursor) : Cursor × Bool :=
  let c₁ := if c.column = 0 && c.at? 0 (· = '\ufeff') then c.next else c
  let c₂ := c₁.dropWhile fun a => a = ' ' || a = '\t' && (flow || !keyAllowed)
  let c₃ := if c₂.at? 0 (· = '#') then c₂.dropWhile (!isBreak ·) else c₂
  if _h : c₃.at? 0 isBreak ∧ c₃.next.rest.length < c.rest.length then
    skipGaps flow (keyAllowed || !flow) c₃.next
  else (c₃, keyAllowed)
termination_by c.rest.length
decreasing_by exact _h.2

/-- A possible key is given up at the end of its line, and after 1024 octets. -/
def dropStale (s : Scanner) : Option Scanner := do
  let keys ← s.keys.mapM fun k? => match k? with
    | none => some none
    | some k =>
      if k.line < s.cursor.line ∨ k.index + 1024 < s.cursor.index then
        if k.required then none else some none
      else some (some k)
  pure { s with keys := keys }

def dropKey (s : Scanner) : Option Scanner :=
  match s.keys with
  | some k :: ks => if k.required then none else some { s with keys := none :: ks }
  | _ => some s

/-- A key may begin here. -/
def markKey (s : Scanner) : Option Scanner :=
  if !s.keyAllowed then some s
  else do
    let s ← s.dropKey
    let c := s.cursor
    let k : KeyStart := ⟨s.tokens.length, !s.flow && s.indent = c.column, c.index, c.line, c.column⟩
    pure { s with keys := some k :: s.keys.drop 1 }

def insertAt (s : Scanner) (n : Nat) (t : Token) : Scanner :=
  { s with tokens := s.tokens.take n ++ t :: s.tokens.drop n }

/-- Begin a block at a column that lies deeper than the block around it. -/
def openBlock (s : Scanner) (column place : Nat) (t : Token) : Scanner :=
  if !s.flow && s.indent < column then
    { s.insertAt place t with indent := column, outer := s.indent :: s.outer }
  else s

def closeAll (column : Int) : List Int → Int → List Token → List Token × Int × List Int
  | [], i, ts => (ts, i, [])
  | o :: os, i, ts =>
    if column < i then closeAll column os o (ts ++ [.blockEnd]) else (ts, i, o :: os)

/-- End the blocks that lie deeper than a column. -/
def closeBlocks (s : Scanner) (column : Int) : Scanner :=
  if s.flow then s
  else
    let r := closeAll column s.outer s.indent s.tokens
    { s with tokens := r.1, indent := r.2.1, outer := r.2.2 }

def documentMark (s : Scanner) (t : Token) : Option Scanner := do
  let s ← (s.closeBlocks (-1)).dropKey
  pure (((s.allowKey false).advance 3).push t)

def flowStart (s : Scanner) (t : Token) : Option Scanner := do
  let s ← s.markKey
  pure ((({ s with keys := none :: s.keys }.allowKey true).advance 1).push t)

def flowEnd (s : Scanner) (t : Token) : Option Scanner := do
  let s ← s.dropKey
  let keys := if s.flow then s.keys.drop 1 else s.keys
  pure ((({ s with keys := keys }.allowKey false).advance 1).push t)

def flowEntry (s : Scanner) : Option Scanner := do
  let s ← s.dropKey
  pure (((s.allowKey true).advance 1).push .flowEntry)

def blockEntry (s : Scanner) : Option Scanner :=
  if !s.flow && !s.keyAllowed then none
  else do
    let s ← (s.openBlock s.cursor.column s.tokens.length .blockSequenceStart).dropKey
    pure (((s.allowKey true).advance 1).push .blockEntry)

def explicitKey (s : Scanner) : Option Scanner :=
  if !s.flow && !s.keyAllowed then none
  else do
    let s ← (s.openBlock s.cursor.column s.tokens.length .blockMappingStart).dropKey
    pure (((s.allowKey !s.flow).advance 1).push .key)

def value (s : Scanner) : Option Scanner :=
  match s.keys with
  | some k :: ks =>
    let s := { s.insertAt k.token .key with keys := none :: ks }
    let s := s.openBlock k.column k.token .blockMappingStart
    some (((s.allowKey false).advance 1).push .value)
  | _ =>
    if !s.flow && !s.keyAllowed then none
    else
      let s := s.openBlock s.cursor.column s.tokens.length .blockMappingStart
      some (((s.allowKey !s.flow).advance 1).push .value)

def isNameChar (c : Char) : Bool := c.isAlphanum || c = '_' || c = '-'

/-- The name of an anchor or alias, behind its indicator. -/
def name (s : Scanner) (t : List Char → Token) : Option Scanner := do
  let s ← s.markKey
  let c := s.cursor.next
  let word := c.rest.takeWhile isNameChar
  let c := c.skip word.length
  if word.isEmpty then none
  else if c.endsWord 0 || c.at? 0 (· ∈ ['?', ':', ',', ']', '\x7d', '%', '@', '\x60']) then
    some (({ s with cursor := c }.allowKey false).push (t word))
  else none

def block (s : Scanner) (literal : Bool) : Option Scanner := do
  let s ← s.dropKey
  let (text, c) ← readBlock literal s.indent s.cursor.next
  pure (({ s with cursor := c }.allowKey true).push (.scalar false text))

def quoted (s : Scanner) (single : Bool) : Option Scanner := do
  let s ← s.markKey
  let (text, c) ← readQuoted single s.cursor.next []
  pure (({ s with cursor := c }.allowKey false).push (.scalar false text))

def plain (s : Scanner) : Option Scanner := do
  let s ← s.markKey
  let (text, c, broken) ← readPlain s.flow (s.indent + 1).toNat s.cursor [] [] false
  pure (({ s with cursor := c }.allowKey broken).push (.scalar true text))

def indicators : List Char :=
  ['-', '?', ':', ',', '[', ']', '\x7b', '\x7d', '#', '&', '*', '!', '|', '>', '\'', '"', '%', '@',
    '\x60']

/-- Whether a plain scalar may begin at the cursor. -/
def startsPlain (s : Scanner) (a : Char) : Bool :=
  let c := s.cursor
  !(isSpace a || isBreak a || a ∈ indicators) || a = '-' && !c.at? 1 isSpace ||
    !s.flow && (a = '?' || a = ':') && !c.endsWord 1

/-- The next token, at a character that is no blank. Tags and directives are refused. -/
def token (s : Scanner) (a : Char) : Option Scanner :=
  let c := s.cursor
  if c.atMark ['-', '-', '-'] then s.documentMark .documentStart
  else if c.atMark ['.', '.', '.'] then s.documentMark .documentEnd
  else if a = '[' then s.flowStart .flowSequenceStart
  else if a = '\x7b' then s.flowStart .flowMappingStart
  else if a = ']' then s.flowEnd .flowSequenceEnd
  else if a = '\x7d' then s.flowEnd .flowMappingEnd
  else if a = ',' then s.flowEntry
  else if a = '-' && c.endsWord 1 then s.blockEntry
  else if a = '?' && (s.flow || c.endsWord 1) then s.explicitKey
  else if a = ':' && (s.flow || c.endsWord 1) then s.value
  else if a = '*' then s.name .alias
  else if a = '&' then s.name .anchor
  else if a = '|' && !s.flow then s.block true
  else if a = '>' && !s.flow then s.block false
  else if a = '\'' then s.quoted true
  else if a = '"' then s.quoted false
  else if s.startsPlain a then s.plain
  else none

/-- Cut up the whole text. -/
def run (s : Scanner) : Option (List Token) := do
  let (c, allowed) := skipGaps s.flow s.keyAllowed s.cursor
  let s₁ ← { s with cursor := c, keyAllowed := allowed }.dropStale
  match c.rest with
  | [] =>
    let s₂ ← (s₁.closeBlocks (-1)).dropKey
    pure s₂.tokens
  | a :: _ =>
    let s₂ ← (s₁.closeBlocks c.column).token a
    if _h : s₂.cursor.rest.length < s.cursor.rest.length then run s₂ else none
termination_by s.cursor.rest.length

end Scanner

def tokens? (cs : List Char) : Option (List Token) :=
  if cs.all isPrintable then (Scanner.start (uniform cs)).run else none

end Stylebook.Yaml
