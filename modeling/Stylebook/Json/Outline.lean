import Stylebook.Json.Lexeme

/-! # Reading JSON

The outline of a document is its tree, with strings and numbers not yet interpreted. A value of
an outline is read only if its strings are well-formed, its numbers in range, and its nesting
within a limit.
-/

namespace Stylebook.Json

inductive Outline
  | null
  | bool (b : Bool)
  | number (n : NumberText)
  | string (ps : List Piece)
  | arr (xs : List Outline)
  | obj (ms : List (List Piece × Outline))
deriving Repr

namespace Outline

/-- A container that is still open, its finished part in reverse. -/
inductive Frame
  | arr (done : List Outline)
  | obj (done : List (List Piece × Outline)) (key : List Piece)

/-- What may come next, inside the open containers. -/
inductive State
  | value (outer : List Frame)
  | firstItem (outer : List Frame)
  | firstKey (outer : List Frame)
  | key (outer : List Frame) (done : List (List Piece × Outline))
  | colon (outer : List Frame) (done : List (List Piece × Outline)) (key : List Piece)
  | after (outer : List Frame) (v : Outline)

namespace State

/-- A value starts here. -/
def begin? (fs : List Frame) : Lexeme → Option State
  | .objectStart => some (.firstKey fs)
  | .arrayStart => some (.firstItem fs)
  | .null => some (.after fs .null)
  | .bool b => some (.after fs (.bool b))
  | .number n => some (.after fs (.number n))
  | .string ps => some (.after fs (.string ps))
  | _ => none

def step? : State → Lexeme → Option State
  | .value fs, l => begin? fs l
  | .firstItem fs, .arrayEnd => some (.after fs (.arr []))
  | .firstItem fs, l => begin? (.arr [] :: fs) l
  | .firstKey fs, .objectEnd => some (.after fs (.obj []))
  | .firstKey fs, .string k => some (.colon fs [] k)
  | .key fs ms, .string k => some (.colon fs ms k)
  | .colon fs ms k, .colon => some (.value (.obj ms k :: fs))
  | .after (.arr xs :: fs) v, .comma => some (.value (.arr (v :: xs) :: fs))
  | .after (.arr xs :: fs) v, .arrayEnd => some (.after fs (.arr (v :: xs).reverse))
  | .after (.obj ms k :: fs) v, .comma => some (.key fs ((k, v) :: ms))
  | .after (.obj ms k :: fs) v, .objectEnd => some (.after fs (.obj ((k, v) :: ms).reverse))
  | _, _ => none

def finish? : State → Option Outline
  | .after [] v => some v
  | _ => none

end State

def ofLexemes? (ls : List Lexeme) : Option Outline :=
  ls.foldlM State.step? (.value []) >>= State.finish?

/-- Read characters, with a gap for each error in their encoding. -/
def read? (us : List (Option Char)) : Option Outline := lexemes? us >>= ofLexemes?

def asString? : Outline → Option String
  | .string ps => string? ps
  | _ => none

/-- The value, if at most `depth` containers stand inside one another. -/
def value? : Nat → Outline → Option Json
  | _, .null => some .null
  | _, .bool b => some (.bool b)
  | _, .number n => n.value?.map .num
  | _, .string ps => (string? ps).map .str
  | 0, .arr _ => none
  | 0, .obj _ => none
  | depth + 1, .arr xs => (xs.mapM (value? depth)).map .arr
  | depth + 1, .obj ms => (ms.mapM fun (m : List Piece × Outline) => do
      pure (← string? m.1, ← value? depth m.2)).map .obj

end Outline

/-- Containers nested deeper than this are refused. -/
def maxDepth : Nat := 127

def ofUnits? (us : List (Option Char)) : Option Json :=
  Outline.read? us >>= Outline.value? maxDepth

def read? (s : String) : Option Json := ofUnits? (s.toList.map some)

end Stylebook.Json
