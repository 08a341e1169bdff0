import Stylebook.Style
import Stylebook.Proofs.Reference.Matcher
import Stylebook.Proofs.Table

/-! # The effect of a step

A step either ends the work with a fault or has one effect on each part of a draft: it enters
something into the tables, changes items that are there, and adds at most one item and one rule.
-/

namespace Stylebook

theorem filterMap_append_singleton {α β : Type} (f : α → Option β) (xs : List α) (x : α) :
    (xs ++ [x]).filterMap f = xs.filterMap f ++ (f x).toList := by
  cases h : f x <;> simp [h]

namespace Step

def field? : Step → Option (String × FieldKind)
  | field k kind => some (k, kind)
  | _ => none

def display? : Step → Option (String × Bool)
  | display k on => some (k, on)
  | _ => none

def setting? : Step → Option (String × List TraitEdit)
  | set k edits => some (k, edits)
  | _ => none

def trigger? : Step → Option Trigger
  | upon t => some t
  | _ => none

/-- The reference of a trait that is declared. -/
def reference? : Step → Option String
  | trait reference _ => some reference
  | duplicate reference _ => some reference
  | _ => none

def isText : Step → Bool
  | text .. => true
  | _ => false

/-- Whether the step declares an item. -/
def declares (st : Step) : Bool := st.reference?.isSome || st.isText

end Step

/-- What a step does to an item that was declared before it. -/
def Item.obey (i : Item) : Step → Item
  | .set k edits => if i.key = k then i.onTrait (·.applyAll edits) else i
  | .display k on => if i.key = k then i.setVisibility (.chosen on) else i
  | _ => i

namespace Draft

variable {d d' : Draft} {st : Step} {E : Engine} {s : Schema} {steps : List Step}

@[simp] theorem schema_keys (d : Draft) : d.keys.schema = d.schema := rfl

/-- The item that a step adds. -/
def item? (d : Draft) : Step → Option Item
  | .trait reference edits | .duplicate reference edits =>
    (d.schema.parse? reference).map fun r =>
      .trait ((d.newTrait r).applyAll (d.settingsFor r.key ++ edits))
  | .text content edits => some (.text ((d.newText content).applyAll edits))
  | _ => none

/-- The rule that a step adds. -/
def rule? (d : Draft) : Step → Option Rule
  | .trait reference _ | .duplicate reference _ =>
    (d.schema.parse? reference).bind fun r =>
      if d.hasTrait r.key then none else some (.required r.key)
  | .constrain c => some (.stated c)
  | _ => none

/-- The fault that a step is refused for, if references can be read. -/
def objection? (d : Draft) : Step → Option Fault
  | .trait reference _ => match d.schema.parse? reference with
    | none => some (.malformed reference)
    | some r => if d.hasTrait r.key then some (.duplicate r.key reference) else none
  | .duplicate reference _ =>
    if (d.schema.parse? reference).isNone then some (.malformed reference) else none
  | _ => none

/-- The fault that a step is refused for. -/
def fault? (d : Draft) (st : Step) : Option Fault :=
  match st.reference?, d.keys.matcher? with
  | some _, .error e => some (.unsearchable e)
  | _, _ => d.objection? st

/-- The draft after a step that is not refused. -/
def next (d : Draft) (st : Step) : Draft where
  engine := d.engine
  schema := d.schema.insertAll st.field?.toList
  items := d.items.map (·.obey st) ++ (d.item? st).toList
  triggers := d.triggers ++ st.trigger?.toList
  rules := d.rules ++ (d.rule? st).toList
  settings := d.settings ++ st.setting?.toList
  displays := d.displays.insertAll st.display?.toList

/-- Only a declaration needs a matcher. -/
theorem fault?_eq_objection? (h : d.keys.Searchable ∨ st.reference? = none) :
    d.fault? st = d.objection? st := by
  rcases h with ⟨m, hm⟩ | hr
  · simp [fault?, hm]
  · simp [fault?, hr]

/-- Without a matcher no declaration is accepted. -/
theorem fault?_of_not_searchable {reference : String} (h : ¬ d.keys.Searchable)
    (hr : st.reference? = some reference) :
    d.fault? st = some (.unsearchable ⟨KeySet.defaultLimit⟩) := by
  rw [fault?, hr, KeySet.matcher?_eq_error_iff.mpr ⟨h, rfl⟩]
  rfl

/-- A declaration that is not refused names a field. -/
theorem exists_parse?_of_fault? {reference : String} (h : d.fault? st = none)
    (hr : st.reference? = some reference) : ∃ r, d.schema.parse? reference = some r := by
  by_cases hm : d.keys.Searchable
  · rw [fault?_eq_objection? (.inl hm)] at h
    cases hp : d.schema.parse? reference with
    | some r => exact ⟨r, rfl⟩
    | none => cases st <;> cases hr <;> simp [objection?, hp] at h
  · simp [fault?_of_not_searchable hm hr] at h

theorem run_eq (d : Draft) (st : Step) :
    d.run st = match d.fault? st with
      | some f => .error f
      | none => .ok (d.next st) := by
  cases st with
  | trait reference edits | duplicate reference edits =>
    by_cases hm : d.keys.Searchable
    · rw [fault?_eq_objection? (.inl hm)]
      simp only [run, declare, objection?, KeySet.parse_of_searchable hm, schema_keys]
      cases hr : d.schema.parse? reference with
      | none => rfl
      | some r =>
        by_cases hd : d.hasTrait r.key = true <;>
          simp [next, hr, hd, item?, rule?, Item.obey, addTrait, Step.field?, Step.trigger?,
            Step.setting?, Step.display?]
    · rw [fault?_of_not_searchable hm rfl]
      simp only [run, declare, KeySet.parse_of_not_searchable hm]
      rfl
  | _ =>
    rw [fault?_eq_objection? (.inr rfl)]
    simp [run, next, objection?, item?, rule?, Item.obey, Item.edit, Step.field?, Step.trigger?,
      Step.setting?, Step.display?, Table.insertAll]

theorem run_eq_ok_iff : d.run st = .ok d' ↔ d.fault? st = none ∧ d' = d.next st := by
  rw [run_eq]
  cases d.fault? st <;> simp [eq_comm]

theorem runAll_append (d : Draft) (steps steps' : List Step) :
    d.runAll (steps ++ steps') = d.runAll steps >>= (·.runAll steps') := List.foldlM_append

theorem runAll_cons_of_some {f : Fault} (h : d.fault? st = some f) (steps : List Step) :
    d.runAll (st :: steps) = .error f := by
  rw [runAll, List.foldlM_cons, run_eq, h]
  rfl

theorem runAll_cons_of_none (h : d.fault? st = none) (steps : List Step) :
    d.runAll (st :: steps) = (d.next st).runAll steps := by
  rw [runAll, List.foldlM_cons, run_eq, h]
  rfl

/-- What holds of an empty draft and is kept by every step holds of every draft that is reached. -/
theorem runAll_induction {P : List Step → Draft → Prop} (h₀ : P [] (start E s))
    (hs : ∀ steps d st, P steps d → d.fault? st = none → P (steps ++ [st]) (d.next st))
    (h : (start E s).runAll steps = .ok d) : P steps d := by
  induction steps using List.reverseRecOn generalizing d with
  | nil =>
    cases h
    exact h₀
  | append_singleton steps st ih =>
    rw [runAll_append] at h
    cases h' : (start E s).runAll steps with
    | error f =>
      rw [h'] at h
      cases h
    | ok d' =>
      rw [h'] at h
      have hr : d'.run st = .ok d := by
        cases hd : d'.run st with
        | error f => simp [runAll, bind, Except.bind, hd] at h
        | ok d'' => simpa [runAll, bind, Except.bind, pure, Except.pure, hd] using h
      obtain ⟨hf, rfl⟩ := run_eq_ok_iff.mp hr
      exact hs steps d' st (ih h') hf

end Draft

end Stylebook
