import Stylebook.Text.Blank

/-! # Markup

A rendered trait has three segments: the text before the value, the value, and the text after
it. Each text style is switched on for a set of segments, independently of the other style.
-/

namespace Stylebook

inductive Segment
  | before
  | main
  | after
deriving DecidableEq, Repr

/-- A set of segments. -/
structure Segments where
  before : Bool
  main : Bool
  after : Bool
deriving DecidableEq, Repr

structure UnknownSegment where
  word : String
deriving DecidableEq, Repr

def UnknownSegment.message (e : UnknownSegment) : String :=
  "unknown segment `" ++ e.word ++ "` (expected prefix, main, or suffix)"

namespace Segments

def none : Segments := ⟨false, false, false⟩

def all : Segments := ⟨true, true, true⟩

instance : Inhabited Segments := ⟨none⟩

def single : Segment → Segments
  | .before => ⟨true, false, false⟩
  | .main => ⟨false, true, false⟩
  | .after => ⟨false, false, true⟩

def union (s t : Segments) : Segments :=
  ⟨s.before || t.before, s.main || t.main, s.after || t.after⟩

def contains (s t : Segments) : Bool :=
  (s.before || !t.before) && (s.main || !t.main) && (s.after || !t.after)

def has (s : Segments) : Segment → Bool
  | .before => s.before
  | .main => s.main
  | .after => s.after

theorem has_eq_contains (s : Segments) (g : Segment) : s.has g = s.contains (single g) := by
  cases g <;> simp [has, contains, single]

def isEmpty (s : Segments) : Bool := s == none

/-- One bit a segment, the lowest for the text before the value. -/
def bits (s : Segments) : Nat := s.before.toNat + 2 * s.main.toNat + 4 * s.after.toNat

def ofBits (n : Nat) : Segments := ⟨n.testBit 0, n.testBit 1, n.testBit 2⟩

theorem ofBits_bits (s : Segments) : ofBits s.bits = s := by
  obtain ⟨a, b, c⟩ := s
  cases a <;> cases b <;> cases c <;> rfl

def written (s : Segments) : String :=
  " | ".intercalate <| (if s.before then ["PREFIX"] else []) ++
    (if s.main then ["MAIN"] else []) ++ (if s.after then ["SUFFIX"] else [])

def ofWord (w : String) : Except UnknownSegment Segments :=
  match w with
  | "prefix" => .ok (single .before)
  | "main" => .ok (single .main)
  | "suffix" => .ok (single .after)
  | w => .error ⟨w⟩

/-- The union of the named segments; no name at all stands for every segment. -/
def parseList (list : String) : Except UnknownSegment Segments := do
  let named ← (Text.words list.toList).foldlM
    (fun s w => (ofWord (String.ofList w)).map s.union) none
  pure (if named.isEmpty then all else named)

end Segments

inductive TextStyle
  | bold
  | italics
deriving DecidableEq, Repr

namespace TextStyle

def name : TextStyle → String
  | bold => "bold"
  | italics => "italics"

def ofName? : String → Option TextStyle
  | "bold" => some bold
  | "italics" => some italics
  | _ => none

end TextStyle

structure Markup where
  bold : Segments
  italics : Segments
deriving DecidableEq, Repr

namespace Markup

def plain : Markup := ⟨.none, .none⟩

instance : Inhabited Markup := ⟨plain⟩

/-- Switch a style on for exactly these segments. -/
def set (m : Markup) (style : TextStyle) (s : Segments) : Markup :=
  match style with
  | .bold => { m with bold := s }
  | .italics => { m with italics := s }

def segments (m : Markup) : TextStyle → Segments
  | .bold => m.bold
  | .italics => m.italics

/-- The styles that cover all of `s`, outermost first. -/
def stylesFor (m : Markup) (s : Segments) : List TextStyle :=
  [TextStyle.bold, .italics].filter fun t => (m.segments t).contains s

def isPlain (m : Markup) : Bool := m == plain

theorem segments_set (m : Markup) (t u : TextStyle) (s : Segments) :
    (m.set t s).segments u = if u = t then s else m.segments u := by
  cases t <;> cases u <;> rfl

end Markup

end Stylebook
