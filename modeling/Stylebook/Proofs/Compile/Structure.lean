import Mathlib
import Stylebook.Proofs.Compile.Keys
import Stylebook.Proofs.Requirements

/-! # The structure of a compiled style

Items are numbered by their places, and text blocks among themselves. The rules follow the steps:
each constraint stands where it is stated, and the requirement of a key where a trait of the key is
declared first.
-/

namespace Stylebook

theorem Trait.order_applyAll (t : Trait) (edits : List TraitEdit) :
    (t.applyAll edits).order = t.order := by
  induction edits generalizing t with
  | nil => rfl
  | cons e edits ih =>
    refine (ih (t.apply e)).trans ?_
    cases e <;> rfl

theorem TextBlock.order_applyAll (t : TextBlock) (edits : List TextEdit) :
    (t.applyAll edits).order = t.order := by
  induction edits generalizing t with
  | nil => rfl
  | cons e edits ih =>
    refine (ih (t.apply e)).trans ?_
    cases e <;> rfl

theorem Item.order_obey (i : Item) (st : Step) : (i.obey st).order = i.order := by
  unfold obey
  split
  · split
    · cases i with
      | trait t => exact t.order_applyAll _
      | text t => rfl
    · rfl
  · split
    · cases i <;> rfl
    · rfl
  · rfl

namespace Draft

variable {E : Engine} {s : Schema} {steps : List Step} {d : Draft} {st : Step}

/-- A new item takes the next number. -/
theorem order_item? {i : Item} (h : d.item? st = some i) : i.order = d.items.length := by
  cases st with
  | trait reference edits | duplicate reference edits =>
    obtain ⟨r, -, rfl⟩ := Option.map_eq_some_iff.mp h
    exact Trait.order_applyAll _ _
  | text content edits =>
    cases h
    exact TextBlock.order_applyAll _ _
  | _ => cases h

theorem map_order_items (h : (start E s).runAll steps = .ok d) :
    d.items.map Item.order = List.range d.items.length := by
  refine runAll_induction (P := fun _ d => d.items.map Item.order = List.range d.items.length)
    rfl (fun _ d st ih _ => ?_) h
  have ho : (d.items.map (·.obey st)).map Item.order = d.items.map Item.order := by
    simp [Function.comp_def, Item.order_obey]
  simp only [next, List.map_append, ho, ih, List.length_append, List.length_map]
  cases hi : d.item? st with
  | none => simp
  | some i => simp [List.range_succ, order_item? hi]

theorem map_isText_item? (h : d.fault? st = none) :
    (d.item? st).toList.map Item.isText = ([st].filter Step.declares).map Step.isText := by
  cases st with
  | trait reference edits | duplicate reference edits =>
    obtain ⟨r, hr⟩ := exists_parse?_of_fault? h rfl
    simp [item?, hr, Step.declares, Step.reference?, Step.isText]
  | _ => rfl

/-- Text blocks stand among the items where they are declared among the traits. -/
theorem map_isText_items (h : (start E s).runAll steps = .ok d) :
    d.items.map Item.isText = (steps.filter Step.declares).map Step.isText := by
  refine runAll_induction
    (P := fun steps d => d.items.map Item.isText = (steps.filter Step.declares).map Step.isText)
    rfl (fun steps d st ih hf => ?_) h
  have ho : (d.items.map (·.obey st)).map Item.isText = d.items.map Item.isText := by
    simp [Function.comp_def]
  simp only [next, List.map_append, ho, ih, map_isText_item? hf, List.filter_append]

end Draft

def Rule.constraint? : Rule → Option Constraint
  | required _ => none
  | stated c => some c

namespace Site

variable {E : Engine} {s : Schema} {steps : List Step} {x : Site} {k : String}

theorem map_step_all (steps : List Step) : (all steps).map step = steps := by
  induction steps using List.reverseRecOn with
  | nil => rfl
  | append_singleton steps st ih =>
    rw [all_append_singleton, List.map_append, List.map_map]
    exact congrArg (· ++ [st]) ih

theorem constraint?_rule? (x : Site) :
    (x.rule? s).bind Rule.constraint? = x.step.constraint? := by
  cases hx : x.step with
  | trait reference edits | duplicate reference edits =>
    cases hk : x.key? s with
    | none => simp [rule?, hx, hk, Step.constraint?]
    | some k =>
      simp only [rule?, hx, hk, Option.bind_some, Step.constraint?]
      split <;> rfl
  | _ => simp [rule?, hx, Step.constraint?, Rule.constraint?]

theorem filterMap_constraint?_rules (xs : List Site) :
    (xs.filterMap (rule? s)).filterMap Rule.constraint? =
      (xs.map step).filterMap Step.constraint? := by
  rw [List.filterMap_filterMap, List.filterMap_map]
  exact congrArg (List.filterMap · xs) (funext constraint?_rule?)

theorem rule?_eq_required_iff : x.rule? s = some (.required k) ↔
    x.key? s = some k ∧ k ∉ (all x.before).filterMap (key? s) := by
  cases hx : x.step with
  | trait reference edits | duplicate reference edits =>
    simp only [rule?, hx, Option.bind_eq_some_iff]
    constructor
    · rintro ⟨j, hj, hi⟩
      split at hi
      · cases hi
      · next hn =>
        cases hi
        exact ⟨hj, hn⟩
    · rintro ⟨hk, hn⟩
      exact ⟨k, hk, if_neg hn⟩
  | _ => simp [rule?, key?, reference?, hx, Step.reference?]

/-- A key is required once if a trait of it is declared, however often, and else not at all. -/
theorem count_required (s : Schema) (steps : List Step) (k : String) :
    ((all steps).filterMap (rule? s)).count (.required k) =
      if k ∈ (all steps).filterMap (key? s) then 1 else 0 := by
  induction steps using List.reverseRecOn with
  | nil => rfl
  | append_singleton steps st ih =>
    -- The last step requires the key if it declares a trait of it and no step before does.
    have hc (o : Option Rule) :
        o.toList.count (.required k) = if o = some (.required k) then 1 else 0 := by
      cases o <;> simp [List.count_singleton]
    rw [filterMap_all_append_singleton (f := rule? s) fun _ _ => rfl,
      filterMap_all_append_singleton (f := key? s) fun _ _ => rfl, List.count_append, ih, hc]
    simp only [rule?_eq_required_iff, List.mem_append, Option.mem_toList]
    by_cases hm : k ∈ (all steps).filterMap (key? s)
    · rw [if_pos hm, if_neg fun h => h.2 hm, if_pos (.inl hm)]
    · simp only [hm, not_false_eq_true, and_true, false_or, if_false, Nat.zero_add]

/-- The requirement of a key stands where a trait of the key is declared first: the constraints
that are stated before stand before it, and the others after it. -/
theorem rules_eq_of_first (hx : x ∈ all steps) (hk : x.key? s = some k)
    (hf : k ∉ (all x.before).filterMap (key? s)) :
    ∃ after, (all steps).filterMap (rule? s) =
        (all x.before).filterMap (rule? s) ++ .required k :: after ∧
      after.filterMap Rule.constraint? = x.after.filterMap Step.constraint? := by
  have hr : x.rule? s = some (.required k) := rule?_eq_required_iff.mpr ⟨hk, hf⟩
  have ha : all steps = (all x.before).map (followed (x.step :: x.after)) ++
      x :: allFrom (x.before ++ [x.step]) x.after := by
    rw [← mem_all_iff.mp hx, all, allFrom_append, List.nil_append]
    rfl
  refine ⟨(allFrom (x.before ++ [x.step]) x.after).filterMap (rule? s), ?_, ?_⟩
  · rw [ha, List.filterMap_append, List.filterMap_map, List.filterMap_cons_some hr]
    rfl
  · rw [filterMap_constraint?_rules, allFrom_eq_map, List.map_map]
    exact congrArg (List.filterMap Step.constraint?) (map_step_all x.after)

/-- A trait is named by a key that was known where it was declared. -/
theorem known_of_key? (hk : x.key? s = some k) : k ≠ "" ∧ k ∈ (x.schema s).keys := by
  obtain ⟨r, hr, rfl⟩ := Option.map_eq_some_iff.mp hk
  obtain ⟨reference, -, hp⟩ := Option.bind_eq_some_iff.mp hr
  have hl := Schema.parse?_eq_some_iff.mp hp
  exact ⟨hl.ne_empty, hl.known⟩

end Site

/-- How a style is made up from the steps that it was compiled from. -/
structure Style.Structured (st : Style) (s : Schema) (steps : List Step) : Prop where
  orders : st.items.map Item.order = List.range st.items.length
  texts : st.items.map Item.isText = (steps.filter Step.declares).map Step.isText
  textKeys : (st.items.filter Item.isText).map Item.key =
    (List.range (steps.countP Step.isText)).map Draft.textKey
  rules : st.rules = (Site.all steps).filterMap (Site.rule? s)
  constraints : st.rules.filterMap Rule.constraint? = steps.filterMap Step.constraint?
  required : ∀ k, st.rules.count (.required k) = if k ∈ st.traits.map Trait.key then 1 else 0
  first : ∀ x ∈ Site.all steps, ∀ k, x.key? s = some k →
    k ∉ (Site.all x.before).filterMap (Site.key? s) →
    ∃ before after, st.rules = before ++ .required k :: after ∧
      before.filterMap Rule.constraint? = x.before.filterMap Step.constraint? ∧
      after.filterMap Rule.constraint? = x.after.filterMap Step.constraint?
  exempt : ∀ k, st.isExempt k = true ↔ Exempted steps k
  known : ∀ t ∈ st.traits, ∃ x ∈ Site.all steps, x.item? s = some (.trait t) ∧
    x.key? s = some t.key ∧ t.key ≠ "" ∧ t.key ∈ (x.schema s).keys

theorem Draft.exists_site {E : Engine} {s : Schema} {steps : List Step} {d : Draft} {t : Trait}
    (h : Reflects E s steps d) (ht : .trait t ∈ d.items) :
    ∃ x ∈ Site.all steps, x.item? s = some (.trait t) ∧ x.key? s = some t.key := by
  rw [h.items] at ht
  obtain ⟨x, hx, hi⟩ := List.mem_filterMap.mp ht
  exact ⟨x, hx, hi, Site.key?_eq_some_iff.mpr ⟨_, hi, by simp⟩⟩

/-- Every style that is compiled is structured by its steps, mixins included: items are numbered in
order, text blocks are called by their number, each trait key is required once where it is declared
first, constraints stand where they are stated and exempt the keys that they name, and traits have
keys that were known. -/
theorem compile_structured {d : Definition} {E : Engine} {s : Schema} {st : Style}
    (h : d.compile E s = .ok st) :
    st.Structured s d.steps := by
  obtain ⟨-, dr, hd, -, rfl⟩ := Definition.compile_eq_ok_iff.mp h
  have hr := Draft.Reflects.of_runAll hd
  have hc : dr.rules.filterMap Rule.constraint? = d.steps.filterMap Step.constraint? := by
    rw [hr.rules, Site.filterMap_constraint?_rules, Site.map_step_all]
  refine ⟨Draft.map_order_items hd, Draft.map_isText_items hd, hr.textKeys_eq, hr.rules, hc,
    fun k => ?_, fun x hx k hk hf => ?_, fun k => ?_, fun t ht => ?_⟩
  · simp only [Definition.styleOf, Style.traits, hr.traitKeys_eq, hr.rules]
    exact Site.count_required s d.steps k
  · obtain ⟨after, he, ha⟩ := Site.rules_eq_of_first hx hk hf
    refine ⟨_, after, hr.rules.trans he, ?_, ha⟩
    rw [Site.filterMap_constraint?_rules, Site.map_step_all]
  · simp only [Definition.styleOf, Style.isExempt, hr.rules]
    exact isExempt_iff
  · obtain ⟨i, hi, ht⟩ := List.mem_filterMap.mp ht
    cases i with
    | text b => cases ht
    | trait t' =>
      cases ht
      obtain ⟨x, hx, hxi, hk⟩ := Draft.exists_site hr hi
      exact ⟨x, hx, hxi, hk, Site.known_of_key? hk⟩

/-- A volume that is declared as a duplicate before and after a constraint, text on both sides, and
a mixin that makes its own trait optional before it is declared. -/
def Definition.quarterly : Definition where
  id := "quarterly"
  title := "Quarterly"
  description := none
  mixins := [⟨"numbering", [.step (.constrain (.optional "issue")), .step (.text "no. " []),
    .step (.duplicate "issue" [])]⟩]
  program := [.step (.duplicate "volume:" []), .step (.constrain (.either "volume" "title" true)),
    .inherit 0, .step (.duplicate "(volume)" []), .step (.trait "title" []), .step (.text "." [])]

def Style.quarterly : Style where
  id := "quarterly"
  title := "Quarterly"
  items := [.text ⟨"text", "no. ", .normal, 0⟩,
    .trait ⟨"issue", "", "", .number, .normal, none, .plain, 1⟩,
    .trait ⟨"volume", "", ":", .number, .normal, none, .plain, 2⟩,
    .trait ⟨"volume", "(", ")", .number, .normal, none, .plain, 3⟩,
    .trait ⟨"title", "", "", .text, .normal, none, .plain, 4⟩,
    .text ⟨"text1", ".", .normal, 5⟩]
  rules := [.stated (.optional "issue"), .required "issue", .required "volume",
    .stated (.either "volume" "title" true), .required "title"]
  triggers := []
  inherited := ["numbering"]

def Schema.quarterly : Schema :=
  Table.ofList [("title", .text), ("volume", .number), ("issue", .number)]

theorem compile_structured_quarterly :
    Definition.quarterly.compile .usual .quarterly = .ok .quarterly ∧
      Style.quarterly.items.map Item.order = List.range 6 ∧
      Style.quarterly.rules.count (.required "volume") = 1 ∧
      Exempted Definition.quarterly.steps "issue" := by
  have h : Definition.quarterly.compile .usual .quarterly = .ok .quarterly :=
    (Definition.compile_of_titled (by decide) _ _).trans (by cbv)
  have hs := compile_structured h
  exact ⟨h, hs.orders, hs.required "volume", (hs.exempt "issue").mp (by decide)⟩

end Stylebook
