import Stylebook.Proofs.Compile.Effect

/-! # Sites

The steps of a program are read where they stand, with the steps before and after them. A draft
holds one item for each site that declares one, and what that item is can be read off the site.
-/

namespace Stylebook

/-- A step in a sequence, with the steps on either side. -/
@[ext] structure Site where
  before : List Step
  step : Step
  after : List Step

namespace Site

def allFrom (before : List Step) : List Step → List Site
  | [] => []
  | st :: after => ⟨before, st, after⟩ :: allFrom (before ++ [st]) after

/-- The sites of a sequence, in order. -/
def all (steps : List Step) : List Site := allFrom [] steps

/-- The site when the sequence goes on. -/
def extend (x : Site) (st : Step) : Site := { x with after := x.after ++ [st] }

theorem mem_allFrom_iff {before steps : List Step} {x : Site} :
    x ∈ allFrom before steps ↔
      ∃ between, x.before = before ++ between ∧ between ++ x.step :: x.after = steps := by
  induction steps generalizing before with
  | nil => simp [allFrom]
  | cons st steps ih =>
    rw [allFrom, List.mem_cons, ih]
    constructor
    · rintro (rfl | ⟨between, hb, rfl⟩)
      · exact ⟨[], by simp, rfl⟩
      · exact ⟨st :: between, by simpa using hb, rfl⟩
    · rintro ⟨_ | ⟨st', between⟩, hb, he⟩
      · obtain ⟨rfl, rfl⟩ := List.cons.inj he
        exact Or.inl (by simpa [Site.ext_iff] using hb)
      · obtain ⟨rfl, rfl⟩ := List.cons.inj he
        exact Or.inr ⟨between, by simpa using hb, rfl⟩

theorem mem_all_iff {steps : List Step} {x : Site} :
    x ∈ all steps ↔ x.before ++ x.step :: x.after = steps := by
  simp [all, mem_allFrom_iff]

theorem allFrom_append_singleton (before steps : List Step) (st : Step) :
    allFrom before (steps ++ [st]) =
      (allFrom before steps).map (·.extend st) ++ [⟨before ++ steps, st, []⟩] := by
  induction steps generalizing before with
  | nil => simp [allFrom]
  | cons st' steps ih => simp [allFrom, ih, extend]

theorem all_append_singleton (steps : List Step) (st : Step) :
    all (steps ++ [st]) = (all steps).map (·.extend st) ++ [⟨steps, st, []⟩] :=
  allFrom_append_singleton [] steps st

theorem filterMap_all_append_singleton {α : Type} {f : Site → Option α}
    (hf : ∀ x st, f (x.extend st) = f x) (steps : List Step) (st : Step) :
    (all (steps ++ [st])).filterMap f = (all steps).filterMap f ++ (f ⟨steps, st, []⟩).toList := by
  have hc : f ∘ (·.extend st) = f := funext fun x => hf x st
  rw [all_append_singleton, filterMap_append_singleton, List.filterMap_map, hc]

/-- The site when other steps come after all. -/
def followed (steps : List Step) (x : Site) : Site := { x with after := x.after ++ steps }

/-- The site when other steps come before all. -/
def preceded (steps : List Step) (x : Site) : Site := { x with before := steps ++ x.before }

theorem allFrom_append (before steps steps' : List Step) :
    allFrom before (steps ++ steps') =
      (allFrom before steps).map (followed steps') ++ allFrom (before ++ steps) steps' := by
  induction steps generalizing before with
  | nil => simp [allFrom]
  | cons st steps ih => simp [allFrom, ih, followed]

theorem allFrom_eq_map (before steps : List Step) :
    allFrom before steps = (all steps).map (preceded before) := by
  induction steps using List.reverseRecOn with
  | nil => rfl
  | append_singleton steps st ih =>
    rw [allFrom_append_singleton, all_append_singleton, ih]
    simp [Function.comp_def, preceded, extend]

theorem all_append (steps steps' : List Step) :
    all (steps ++ steps') = (all steps).map (followed steps') ++ (all steps').map (preceded steps) := by
  refine (allFrom_append [] steps steps').trans ?_
  rw [List.nil_append, allFrom_eq_map steps]
  rfl

/-! What a site declares. -/

variable (s : Schema) (x : Site)

/-- The fields that are known at the site. -/
def schema : Schema := s.insertAll (x.before.filterMap Step.field?)

/-- The reference of the trait that is declared. -/
def reference? : Option Reference := x.step.reference? >>= (x.schema s).parse?

/-- The key of the trait that is declared. -/
def key? : Option String := (x.reference? s).map Reference.key

/-- The kind of a field as it was declared last. -/
def kind (k : String) : TraitKind :=
  (((Table.lastFor k (x.before.filterMap Step.field?)).or (s.get? k)).map TraitKind.ofField).getD
    .text

/-- What the last call before the site asks for that shows or hides the key. -/
def visibility (k : String) : Visibility :=
  (Table.lastFor k (x.before.filterMap Step.display?)).elim .normal .chosen

/-- All settings for the key before the site, in order. -/
def settings (k : String) : List TraitEdit :=
  ((x.before.filterMap Step.setting?).filter (·.1 = k)).flatMap Prod.snd

def order : Nat := x.before.countP Step.declares

/-- The trait of a reference before anything is configured. -/
def trait (r : Reference) : Trait :=
  ⟨r.key, r.before, r.after, x.kind s r.key, x.visibility r.key, none, .plain, x.order⟩

/-- The text block of a content before anything is configured. -/
def text (content : String) : TextBlock :=
  let key := Draft.textKey (x.before.countP Step.isText)
  ⟨key, content, x.visibility key, x.order⟩

/-- The item that is declared, when it is declared. -/
def declared? : Option Item :=
  match x.step with
  | .trait _ edits | .duplicate _ edits =>
    (x.reference? s).map fun r =>
      .trait (((x.trait s r).applyAll (x.settings r.key)).applyAll edits)
  | .text content edits => some (.text ((x.text content).applyAll edits))
  | _ => none

/-- The item that is declared, when all steps have been carried out. -/
def item? : Option Item := (x.declared? s).map fun i => x.after.foldl Item.obey i

/-- The rule that is stated, or made by the first trait of a key. -/
def rule? : Option Rule :=
  match x.step with
  | .trait .. | .duplicate .. => (x.key? s).bind fun k =>
      if k ∈ (all x.before).filterMap (key? s) then none else some (.required k)
  | .constrain c => some (.stated c)
  | _ => none

end Site

end Stylebook
