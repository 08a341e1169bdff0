import Stylebook.Reference

/-! # Matchers

A reference is read with a matcher, which tries the known keys in a fixed order, longer ones first.
An engine builds it when a reference is read, or refuses to do so where it would become too big. It
is kept for the next reference, until another key is declared.
-/

namespace Stylebook

structure Matcher where
  words : List String
deriving DecidableEq, Repr

namespace Matcher

/-- Words of more octets come first, and words of equally many in alphabetical order. -/
def precedes (v w : String) : Bool :=
  w.utf8ByteSize < v.utf8ByteSize || (v.utf8ByteSize == w.utf8ByteSize && v ≤ w)

/-- A word is put before the first one that it precedes. -/
def insert (w : String) : List String → List String
  | [] => [w]
  | v :: vs => match precedes w v with
    | true => w :: v :: vs
    | false => v :: insert w vs

def sort (ws : List String) : List String := ws.foldr insert []

/-- Nothing is built where there is nothing to look for. -/
def ofKeys? (keys : List String) : Option Matcher :=
  match keys.filter (· ≠ "") with
  | [] => none
  | k :: ks => some ⟨sort (k :: ks)⟩

/-- The first word in order that begins `cs`. -/
def word? (m : Matcher) (cs : List Char) : Option String :=
  m.words.find? (·.toList.isPrefixOf cs)

/-- Places are tried from left to right, and at each place the words in order. -/
def split? (m : Matcher) (cs : List Char) : Option (List Char × List Char × List Char) :=
  match m.word? cs with
  | some w => some ([], w.toList, cs.drop w.toList.length)
  | none => match cs with
    | [] => none
    | c :: r => (split? m r).map fun (p, k, s) => (c :: p, k, s)

def parse? (m : Matcher) (text : String) : Option Reference :=
  (m.split? text.toList).map fun (p, k, r) => ⟨String.ofList p, String.ofList k, String.ofList r⟩

end Matcher

/-- What matchers are built with. `fits` says whether the matcher of the words, in their order, has
room in so many bytes; what room it takes is up to the engine. -/
structure Engine where
  fits : List String → Nat → Bool

namespace Engine

def octets (words : List String) : Nat := words.foldr (fun w n => w.utf8ByteSize + n) 0

/-- A stand-in that counts 24 bytes for each octet of a word. Nothing is proved from the number but
of runs with this engine. -/
def usual : Engine where
  fits words limit := 24 * octets words ≤ limit

end Engine

/-- A schema whose keys are known, and the size that their matcher may have. -/
structure KeySet where
  engine : Engine
  schema : Schema
  limit : Nat

structure KeySet.TooBig where
  limit : Nat
deriving DecidableEq, Repr

def KeySet.TooBig.message (e : TooBig) : String :=
  "Compiled regex exceeds size limit of " ++ toString e.limit ++ " bytes."

namespace KeySet

def defaultLimit : Nat := 10 * 1024 * 1024

def ofSchema (E : Engine) (s : Schema) : KeySet := ⟨E, s, defaultLimit⟩

def declare (s : KeySet) (key : String) (kind : FieldKind) : KeySet :=
  { s with schema := s.schema.insert key kind }

/-- The matcher of the known keys, if there is any key to look for. -/
def matcher? (s : KeySet) : Except TooBig (Option Matcher) :=
  match Matcher.ofKeys? s.schema.keys with
  | none => .ok none
  | some m => if s.engine.fits m.words s.limit then .ok (some m) else .error ⟨s.limit⟩

def parse (s : KeySet) (text : String) : Except TooBig (Option Reference) :=
  s.matcher?.map fun m => m.bind (·.parse? text)

end KeySet

/-- A key set and the matcher that has been built for it, if any. -/
structure KeyReader where
  keys : KeySet
  matcher : Option Matcher
  current : matcher = none ∨ keys.matcher? = .ok matcher

namespace KeyReader

def ofKeySet (s : KeySet) : KeyReader := ⟨s, none, .inl rfl⟩

def ofSchema (E : Engine) (s : Schema) : KeyReader := ofKeySet (.ofSchema E s)

def declare (r : KeyReader) (key : String) (kind : FieldKind) : KeyReader :=
  ofKeySet (r.keys.declare key kind)

def withLimit (r : KeyReader) (limit : Nat) : KeyReader := ofKeySet { r.keys with limit }

/-- A matcher is built where there is none. -/
def prepare (r : KeyReader) : Except KeySet.TooBig KeyReader :=
  match r.matcher with
  | some _ => .ok r
  | none => match h : r.keys.matcher? with
    | .error e => .error e
    | .ok m => .ok ⟨r.keys, m, .inr h⟩

def parse (r : KeyReader) (text : String) :
    Except KeySet.TooBig (Option Reference) × KeyReader :=
  match r.prepare with
  | .error e => (.error e, r)
  | .ok r => (.ok (r.matcher.bind (·.parse? text)), r)

inductive Request
  | declare (key : String) (kind : FieldKind)
  | parse (text : String)
deriving DecidableEq, Repr

def next (r : KeyReader) : Request → KeyReader
  | .declare k kind => r.declare k kind
  | .parse text => (r.parse text).2

def run (r : KeyReader) (requests : List Request) : KeyReader := requests.foldl next r

end KeyReader

end Stylebook
