import Stylebook.Yaml.Token

/-! # Nodes

The tree of a document. A scalar keeps its text, and whether it was written plain; an alias
stands for the node that its anchor was set on. Inside that node it stands for something endless,
which nobody can read, though it may be passed over.
-/

namespace Stylebook.Yaml

inductive Node
  | scalar (plain : Bool) (text : String)
  | seq (xs : List Node)
  | map (ms : List (Node × Node))
  | endless
deriving BEq, Repr

namespace Node

/-- Where no node is written, an empty scalar stands. -/
def missing : Node := scalar true ""

def isMissing : Node → Bool
  | scalar true s => s.isEmpty
  | _ => false

/-- Nodes by anchor. The one that began last comes first. -/
abbrev Anchors := List (List Char × Node)

structure Parsed (α : Type) where
  value : α
  anchors : Anchors
  rest : List Token

def Parsed.map {α β : Type} (f : α → β) (p : Parsed α) : Parsed β := ⟨f p.value, p.anchors, p.rest⟩

def headIs (ts : List Token) (stops : List Token) : Bool := ts.head?.any (· ∈ stops)

/-- Whether a node other than an alias begins here. -/
def begins (block unindented : Bool) (ts : List Token) : Bool :=
  match ts with
  | .scalar .. :: _ | .flowSequenceStart :: _ | .flowMappingStart :: _ => true
  | .blockSequenceStart :: _ | .blockMappingStart :: _ => block
  | .blockEntry :: _ => unindented
  | _ => false

mutual

/-- A node. Sequences without indentation of their own stand in mappings only. -/
def parse (block unindented : Bool) (env : Anchors) (ts : List Token) : Option (Parsed Node) :=
  match ts with
  | .alias n :: r => (env.lookup n).map fun v => ⟨v, env, r⟩
  | .anchor n :: r =>
    let inner := (n, endless) :: env
    let content := if begins block unindented r then parse block unindented inner r
      else some ⟨missing, inner, r⟩
    content.map fun p =>
      ⟨p.value, p.anchors.set (p.anchors.length - inner.length) (n, p.value), p.rest⟩
  | .scalar plain text :: r => some ⟨scalar plain (String.ofList text), env, r⟩
  | .flowSequenceStart :: r => (flowItems env r []).map (.map seq)
  | .flowMappingStart :: r => (flowMembers env r []).map (.map map)
  | .blockSequenceStart :: r => if block then (blockItems env r []).map (.map seq) else none
  | .blockMappingStart :: r => if block then (blockMembers env r []).map (.map map) else none
  | .blockEntry :: r =>
    if unindented then (unindentedItems env (.blockEntry :: r) []).map (.map seq) else none
  | _ => none
termination_by (ts.length, 1)

/-- A node, or nothing before one of the tokens that may follow it. -/
def slot (block unindented : Bool) (stops : List Token) (env : Anchors) (ts : List Token) :
    Option (Parsed Node) :=
  if headIs ts stops then some ⟨missing, env, ts⟩ else parse block unindented env ts
termination_by (ts.length, 2)

def blockItems (env : Anchors) (ts : List Token) (done : List Node) :
    Option (Parsed (List Node)) :=
  match ts with
  | .blockEntry :: r => do
    let p ← slot true false [.blockEntry, .blockEnd] env r
    if _h : p.rest.length < r.length + 1 then blockItems p.anchors p.rest (done ++ [p.value])
    else none
  | .blockEnd :: r => some ⟨done, env, r⟩
  | _ => none
termination_by (ts.length, 0)

def unindentedItems (env : Anchors) (ts : List Token) (done : List Node) :
    Option (Parsed (List Node)) :=
  match ts with
  | .blockEntry :: r => do
    let p ← slot true false [.blockEntry, .key, .value, .blockEnd] env r
    if _h : p.rest.length < r.length + 1 then unindentedItems p.anchors p.rest (done ++ [p.value])
    else none
  | ts => some ⟨done, env, ts⟩
termination_by (ts.length, 0)

def blockMembers (env : Anchors) (ts : List Token) (done : List (Node × Node)) :
    Option (Parsed (List (Node × Node))) :=
  match ts with
  | .key :: r => do
    let k ← slot true true [.key, .value, .blockEnd] env r
    match _hk : k.rest with
    | .value :: r' =>
      if _h : r'.length < r.length + 1 then do
        let v ← slot true true [.key, .value, .blockEnd] k.anchors r'
        if _h' : v.rest.length < r.length + 1 then
          blockMembers v.anchors v.rest (done ++ [(k.value, v.value)])
        else none
      else none
    | r' =>
      if _h : r'.length < r.length + 1 then
        blockMembers k.anchors r' (done ++ [(k.value, missing)])
      else none
  | .blockEnd :: r => some ⟨done, env, r⟩
  | _ => none
termination_by (ts.length, 0)

/-- The value of a pair between brackets, if there is one. -/
def flowValue (stop : Token) (env : Anchors) (ts : List Token) : Option (Parsed Node) :=
  match ts with
  | .value :: r => slot false false [.flowEntry, stop] env r
  | ts => some ⟨missing, env, ts⟩
termination_by (ts.length, 3)

/-- Items of a bracketed list. A pair among them makes a mapping of its own; the token behind a
missing key is passed over. -/
def flowItems (env : Anchors) (ts : List Token) (done : List Node) : Option (Parsed (List Node)) :=
  match ts with
  | .flowSequenceEnd :: r => some ⟨done, env, r⟩
  | .key :: r => do
    let k ← if headIs r [.value, .flowEntry, .flowSequenceEnd] then some ⟨missing, env, r.drop 1⟩
      else parse false false env r
    if _hk : k.rest.length < r.length + 1 then do
      let v ← flowValue .flowSequenceEnd k.anchors k.rest
      if _hv : v.rest.length < r.length + 1 then
        afterItem v.anchors v.rest (done ++ [map [(k.value, v.value)]])
      else none
    else none
  | ts => do
    let p ← parse false false env ts
    if _hp : p.rest.length < ts.length then afterItem p.anchors p.rest (done ++ [p.value]) else none
termination_by (ts.length, 4)

def afterItem (env : Anchors) (ts : List Token) (done : List Node) : Option (Parsed (List Node)) :=
  match ts with
  | .flowSequenceEnd :: r => some ⟨done, env, r⟩
  | .flowEntry :: r => flowItems env r done
  | _ => none
termination_by (ts.length, 0)

/-- Members of a bracketed mapping. -/
def flowMembers (env : Anchors) (ts : List Token) (done : List (Node × Node)) :
    Option (Parsed (List (Node × Node))) :=
  match ts with
  | .flowMappingEnd :: r => some ⟨done, env, r⟩
  | .key :: r => do
    let k ← slot false false [.value, .flowEntry, .flowMappingEnd] env r
    if _hk : k.rest.length < r.length + 1 then do
      let v ← flowValue .flowMappingEnd k.anchors k.rest
      if _hv : v.rest.length < r.length + 1 then
        afterMember v.anchors v.rest (done ++ [(k.value, v.value)])
      else none
    else none
  | ts => do
    let p ← parse false false env ts
    if _hp : p.rest.length < ts.length then
      afterMember p.anchors p.rest (done ++ [(p.value, missing)])
    else none
termination_by (ts.length, 4)

def afterMember (env : Anchors) (ts : List Token) (done : List (Node × Node)) :
    Option (Parsed (List (Node × Node))) :=
  match ts with
  | .flowMappingEnd :: r => some ⟨done, env, r⟩
  | .flowEntry :: r => flowMembers env r done
  | _ => none
termination_by (ts.length, 0)

end

def isDocumentEdge (ts : List Token) : Bool :=
  ts.isEmpty || headIs ts [.documentStart, .documentEnd]

/-- The one document of a text. An empty text holds a missing node. -/
def ofTokens? (ts : List Token) : Option Node := do
  let p ← match ts with
    | [] => some ⟨missing, [], []⟩
    | .documentStart :: r =>
      if isDocumentEdge r then some ⟨missing, [], r⟩ else parse true false [] r
    | ts => parse true false [] ts
  if (p.rest.dropWhile (· = .documentEnd)).isEmpty then some p.value else none

def read? (cs : List Char) : Option Node := tokens? cs >>= ofTokens?

end Node

end Stylebook.Yaml
