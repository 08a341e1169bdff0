import Stylebook.Markup

/-! # Output formats

A render is a list of chunks, each a piece of text with its styles. A format decides how a
chunk is written.
-/

namespace Stylebook

inductive Format
  | html
  | plain
deriving DecidableEq, Repr

namespace Format

/-- Put content between tags. Empty content stays empty. -/
def wrap (tag content : String) : String :=
  if content.isEmpty then content else "<" ++ tag ++ ">" ++ content ++ "</" ++ tag ++ ">"

def emph : Format → String → String
  | html, s => wrap "i" s
  | plain, s => s

def strong : Format → String → String
  | html, s => wrap "b" s
  | plain, s => s

end Format

structure Chunk where
  bold : Bool
  italics : Bool
  text : String
deriving DecidableEq, Repr

namespace Chunk

def unstyled (s : String) : Chunk := ⟨false, false, s⟩

/-- Bold goes outside italics. -/
def write (f : Format) (c : Chunk) : String :=
  let inner := if c.italics then f.emph c.text else c.text
  if c.bold then f.strong inner else inner

def writeAll (f : Format) (cs : List Chunk) : String := String.join (cs.map (write f))

end Chunk

namespace Markup

/-- A segment with its styles. An empty segment gives no chunk. -/
def chunk? (m : Markup) (g : Segment) (s : String) : Option Chunk :=
  if s.isEmpty then none else some ⟨m.bold.has g, m.italics.has g, s⟩

def compose (m : Markup) (before value after : String) : List Chunk :=
  [m.chunk? .before before, m.chunk? .main value, m.chunk? .after after].reduceOption

end Markup

end Stylebook
