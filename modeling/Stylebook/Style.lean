import Stylebook.Program
import Stylebook.Reference.Matcher

/-! # Compiling a style

The steps of a program are carried out on a draft. The first faulty step ends the work.
-/

namespace Stylebook

inductive Fault
  | untitled
  | unsearchable (e : KeySet.TooBig)
  | malformed (reference : String)
  | duplicate (key reference : String)
  | unmatched (key : String) (on : Bool)
deriving DecidableEq, Repr

structure CompileError where
  style : String
  fault : Fault
deriving DecidableEq, Repr

namespace Fault

def displayCall (key : String) (on : Bool) : String :=
  (if on then "show(" else "hide(") ++ key ++ ")"

def message : Fault → String
  | untitled => "a style must have a title"
  | unsearchable e => "cannot build the field key matcher: " ++ e.message
  | malformed r => "`" ++ r ++ "` does not contain a known field key"
  | duplicate k r => "trait `" ++ k ++ "` is declared twice (at `" ++ r ++ "`)"
  | unmatched k on => "`" ++ displayCall k on ++ "` names no trait or text `" ++ k ++ "`"

end Fault

def CompileError.message (e : CompileError) : String :=
  "style " ++ e.style ++ ": " ++ e.fault.message

/-- `displays` holds the last call that shows or hides a key, and `settings` the edits that later
traits of a key start with. -/
structure Draft where
  engine : Engine
  schema : Schema
  items : List Item
  triggers : List Trigger
  rules : List Rule
  settings : List (String × List TraitEdit)
  displays : Table Bool

namespace Draft

def start (E : Engine) (s : Schema) : Draft := ⟨E, s, [], [], [], [], .empty⟩

/-- The keys that references are read with. -/
def keys (d : Draft) : KeySet := .ofSchema d.engine d.schema

def visibility (d : Draft) (key : String) : Visibility :=
  (d.displays.get? key).elim .normal .chosen

def hasTrait (d : Draft) (key : String) : Bool := d.items.any (·.isTrait key)

/-- The settings for a key, in the order in which they were made. -/
def settingsFor (d : Draft) (key : String) : List TraitEdit :=
  (d.settings.filter (·.1 = key)).flatMap Prod.snd

def newTrait (d : Draft) (r : Reference) : Trait where
  key := r.key
  before := r.before
  after := r.after
  kind := ((d.schema.get? r.key).map TraitKind.ofField).getD .text
  visibility := d.visibility r.key
  stub := none
  markup := .plain
  order := d.items.length

/-- The first trait of a key makes the key required. -/
def addTrait (d : Draft) (r : Reference) (edits : List TraitEdit) : Draft :=
  { d with
    items := d.items ++ [.trait ((d.newTrait r).applyAll (d.settingsFor r.key ++ edits))]
    rules := if d.hasTrait r.key then d.rules else d.rules ++ [.required r.key] }

/-- Text blocks are named `text`, `text1`, `text2` and so on. -/
def textKey (n : Nat) : String := if n = 0 then "text" else "text" ++ toString n

def newText (d : Draft) (content : String) : TextBlock :=
  let key := textKey (d.items.countP (·.isText))
  ⟨key, content, d.visibility key, d.items.length⟩

def declare (d : Draft) (unique : Bool) (reference : String) (edits : List TraitEdit) :
    Except Fault Draft :=
  match d.keys.parse reference with
  | .error e => .error (.unsearchable e)
  | .ok none => .error (.malformed reference)
  | .ok (some r) =>
    if unique && d.hasTrait r.key then .error (.duplicate r.key reference)
    else .ok (d.addTrait r edits)

def run (d : Draft) : Step → Except Fault Draft
  | .field k kind => .ok { d with schema := d.schema.insert k kind }
  | .trait reference edits => d.declare true reference edits
  | .duplicate reference edits => d.declare false reference edits
  | .text content edits => .ok { d with
      items := d.items ++ [.text ((d.newText content).applyAll edits)] }
  | .constrain c => .ok { d with rules := d.rules ++ [.stated c] }
  | .display k on => .ok { d with
      items := Item.edit k (.setVisibility (.chosen on)) d.items
      displays := d.displays.insert k on }
  | .set k edits => .ok { d with
      items := Item.edit k (.onTrait (·.applyAll edits)) d.items
      settings := d.settings ++ [(k, edits)] }
  | .upon t => .ok { d with triggers := d.triggers ++ [t] }

def runAll (d : Draft) (steps : List Step) : Except Fault Draft := steps.foldlM run d

/-- Every key that was shown or hidden has to name an item. -/
def finish (d : Draft) : Except Fault Draft :=
  match d.displays.entries.find? fun e => d.items.all (·.key ≠ e.1) with
  | some (k, on) => .error (.unmatched k on)
  | none => .ok d

end Draft

structure Style where
  id : String
  title : String
  items : List Item
  rules : List Rule
  triggers : List Trigger
  inherited : List String
deriving Repr

namespace Style

def traits (s : Style) : List Trait := s.items.filterMap Item.trait?

def isExempt (s : Style) (key : String) : Bool := Rule.isExempt s.rules key

/-- The first item of a key. -/
def find? (s : Style) (key : String) : Option Item := s.items.find? (·.key = key)

end Style

/-- A draft, or the fault that ended it, and the mixins that were inherited so far. -/
structure Builder where
  inherited : List String
  draft : Except Fault Draft

namespace Builder

def start (E : Engine) (s : Schema) : Builder := ⟨[], .ok (.start E s)⟩

/-- Nothing is done once a fault has been met. -/
def step (b : Builder) (s : Step) : Builder := { b with draft := b.draft >>= (·.run s) }

/-- The mixin that is run where it is inherited: each name once, and none after a fault. -/
def enters? (mixins : List Mixin) (b : Builder) (i : Nat) : Option Mixin :=
  match b.draft with
  | .error _ => none
  | .ok _ => Call.fresh? mixins b.inherited i

def enter (b : Builder) (m : Mixin) : Builder := { b with inherited := b.inherited ++ [m.name] }

theorem unseen_enter_lt {mixins : List Mixin} {b : Builder} {i : Nat} {m : Mixin}
    (h : b.enters? mixins i = some m) :
    Call.unseen mixins (b.enter m).inherited < Call.unseen mixins b.inherited := by
  unfold enters? at h
  split at h
  · cases h
  · exact Call.unseen_lt_of_fresh? h

/-- The calls of a mixin that is entered come before the calls that are left. -/
def run (mixins : List Mixin) (b : Builder) : List Call → Builder
  | [] => b
  | .step s :: cs => run mixins (b.step s) cs
  | .inherit i :: cs =>
    match _h : b.enters? mixins i with
    | none => run mixins b cs
    | some m => run mixins (b.enter m) (m.program ++ cs)
termination_by cs => (Call.unseen mixins b.inherited, cs.length)
decreasing_by
  · exact Prod.Lex.right _ (by simp)
  · exact Prod.Lex.right _ (by simp)
  · exact Prod.Lex.left _ _ (unseen_enter_lt _h)

def fault? (b : Builder) : Option Fault := match b.draft with
  | .error f => some f
  | .ok _ => none

def finish (b : Builder) (id title : String) : Except CompileError Style :=
  match b.draft >>= Draft.finish with
  | .error f => .error ⟨id, f⟩
  | .ok d => .ok ⟨id, title, d.items, d.rules, d.triggers, b.inherited⟩

/-- The fault after each call, and the builder at the end. -/
def history (mixins : List Mixin) : Builder → List Call → List (Option Fault) × Builder
  | b, [] => ([], b)
  | b, c :: cs =>
    let b := b.run mixins [c]
    let r := history mixins b cs
    (b.fault? :: r.1, r.2)

end Builder

def Definition.compile (d : Definition) (E : Engine) (s : Schema) : Except CompileError Style :=
  if Text.allBlank d.title then .error ⟨d.id, .untitled⟩
  else ((Builder.start E s).run d.mixins d.calls).finish d.id d.title

end Stylebook
