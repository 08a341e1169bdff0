import Stylebook.Item

/-! # Configuring items

The same edits serve where a trait is declared, where defaults for a field are set, and where a
trigger changes a trait for one record.
-/

namespace Stylebook

/-- A call that configures a trait. Calls are all that a program can do with a trait, so a
configuration is a list of them and no function of the trait. Of what the trait holds, a call sees
the key (`beforeKey`) and the text after it (`extendAfter`); none reads the kind, the markup, the
visibility, the stub or the choices. -/
inductive TraitEdit
  | before (s : String)
  | after (s : String)
  | stub (s : String)
  | pattern (s : String)
  | separators (sep finalSep : String)
  | style (style : TextStyle) (segments : Segments)
  | display (on : Bool)
  | choices (edits : List ChoiceEdit)
  | beforeKey
  | extendAfter (s : String)
deriving DecidableEq, Repr

/-- A call that configures a text block. Of what the block holds, it sees the key only. -/
inductive TextEdit
  | content (s : String)
  | contentKey
  | display (on : Bool)
deriving DecidableEq, Repr

namespace TraitKind

/-- Only dates and contributors have a pattern. -/
def setPattern (s : String) : TraitKind → TraitKind
  | date _ => date s
  | contributors f => contributors { f with pattern := s }
  | k => k

def setSeparators (sep finalSep : String) : TraitKind → TraitKind
  | contributors f => contributors { f with separator := sep, finalSeparator := finalSep }
  | k => k

/-- The choices of an enumeration; any other kind turns into an empty one first. -/
def choices : TraitKind → Enumeration
  | enumeration e => e
  | _ => .empty

end TraitKind

namespace Trait

def apply (t : Trait) : TraitEdit → Trait
  | .before s => { t with before := s }
  | .after s => { t with after := s }
  | .stub s => { t with stub := some s }
  | .pattern s => { t with kind := t.kind.setPattern s }
  | .separators a b => { t with kind := t.kind.setSeparators a b }
  | .style st s => { t with markup := t.markup.set st s }
  | .display on => { t with visibility := .chosen on }
  | .choices es => { t with kind := .enumeration (t.kind.choices.applyAll es) }
  | .beforeKey => { t with before := t.key }
  | .extendAfter s => { t with after := t.after ++ s }

def applyAll (t : Trait) (edits : List TraitEdit) : Trait := edits.foldl apply t

end Trait

namespace TextBlock

def apply (t : TextBlock) : TextEdit → TextBlock
  | .content s => { t with content := s }
  | .contentKey => { t with content := t.key }
  | .display on => { t with visibility := .chosen on }

def applyAll (t : TextBlock) (edits : List TextEdit) : TextBlock := edits.foldl apply t

end TextBlock

end Stylebook
