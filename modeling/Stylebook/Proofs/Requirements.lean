import Mathlib
import Stylebook.Proofs.Compile.Reflection
import Stylebook.Proofs.Mixins.Expansion
import Stylebook.Rendering

/-! # Which problems a render reports

The problems of a record can be read off the steps of a style, one site after the other: the first
declaration of each key, and each constraint. Which constraints there are decides about all
declarations, before and after.
-/

namespace Stylebook

def Step.constraint? : Step → Option Constraint
  | constrain c => some c
  | _ => none

/-- The record has a value for the field that is not null. -/
def Record.Has (r : Record) (k : String) : Prop := ∃ v, r.fields.get? k = some v ∧ v.isNull = false

/-- Some constraint among the steps names the key. -/
def Exempted (steps : List Step) (k : String) : Prop :=
  ∃ c ∈ steps.filterMap Step.constraint?, k ∈ c.keys

/-- The visible traits of a key ask for a value that the record does not have. -/
structure Owes (steps : List Step) (items : List Item) (r : Record) (k : String) : Prop where
  visible : ∃ t ∈ items.filterMap Item.trait?, t.key = k ∧ t.visibility ≠ .hidden
  missing : ¬ r.Has k
  unstubbed : ∀ t ∈ items.filterMap Item.trait?, t.key = k → t.visibility ≠ .hidden → t.stub = none
  claimed : ¬ Exempted steps k ∨
    ∃ t ∈ items.filterMap Item.trait?, t.key = k ∧ t.visibility = .shown

section Decidable

variable (steps : List Step) (items : List Item) (r : Record) (k : String)

theorem Record.isPresent_iff {r : Record} {k : String} : r.isPresent k = true ↔ r.Has k := by
  cases h : r.fields.get? k <;> simp [isPresent, get?, Has, h]

instance : Decidable (r.Has k) := decidable_of_iff _ Record.isPresent_iff

instance : Decidable (Exempted steps k) := by unfold Exempted; infer_instance

theorem owes_iff_and : Owes steps items r k ↔
    (∃ t ∈ items.filterMap Item.trait?, t.key = k ∧ t.visibility ≠ .hidden) ∧ ¬ r.Has k ∧
      (∀ t ∈ items.filterMap Item.trait?, t.key = k → t.visibility ≠ .hidden → t.stub = none) ∧
      (¬ Exempted steps k ∨
        ∃ t ∈ items.filterMap Item.trait?, t.key = k ∧ t.visibility = .shown) :=
  ⟨fun h => ⟨h.visible, h.missing, h.unstubbed, h.claimed⟩, fun ⟨h, h', h'', h'''⟩ =>
    ⟨h, h', h'', h'''⟩⟩

instance : Decidable (Owes steps items r k) := decidable_of_iff' _ (owes_iff_and steps items r k)

end Decidable

/-- The problem that a site gives rise to. -/
def Site.problem? (s : Schema) (steps : List Step) (items : List Item) (r : Record) (x : Site) :
    Option Problem :=
  match x.step with
  | .trait .. | .duplicate .. => (x.key? s).bind fun k =>
      if k ∉ (all x.before).filterMap (key? s) ∧ Owes steps items r k then some (.requires [k])
      else none
  | .constrain (.either a b lax) =>
      if r.Has a ∧ r.Has b then some (.either a b)
      else if ¬ r.Has a ∧ ¬ r.Has b ∧ lax = false then some (.requires [a, b])
      else none
  | .constrain (.all ks lax) =>
      if (∀ k ∈ ks, r.Has k) ∨ (lax = true ∧ ∀ k ∈ ks, ¬ r.Has k) then none
      else some (.requires (ks.filter fun k => ¬ r.Has k))
  | .constrain (.atLeastOne ks) => if ∃ k ∈ ks, r.Has k then none else some (.requires ks)
  | _ => none

variable {steps : List Step} {items : List Item} {r : Record} {k : String} {E : Engine} {s : Schema}

theorem stated_mem_iff {c : Constraint} :
    .stated c ∈ (Site.all steps).filterMap (Site.rule? s) ↔
      c ∈ steps.filterMap Step.constraint? := by
  rw [List.mem_filterMap, List.mem_filterMap]
  constructor
  · rintro ⟨x, hx, hc⟩
    refine ⟨x.step, by simp [← Site.mem_all_iff.mp hx], ?_⟩
    unfold Site.rule? at hc
    cases hs : x.step <;> simp_all [Option.bind_eq_some_iff, Step.constraint?]
  · rintro ⟨st, hst, hc⟩
    obtain ⟨before, after, rfl⟩ := List.append_of_mem hst
    cases st <;> cases hc
    exact ⟨⟨before, _, after⟩, Site.mem_all_iff.mpr rfl, rfl⟩

theorem isExempt_iff :
    Rule.isExempt ((Site.all steps).filterMap (Site.rule? s)) k = true ↔ Exempted steps k := by
  rw [Rule.isExempt, List.any_eq_true]
  constructor
  · rintro ⟨rule, hr, hk⟩
    cases rule with
    | required j => simp [Rule.exempts] at hk
    | stated c => exact ⟨c, stated_mem_iff.mp hr, of_decide_eq_true hk⟩
  · rintro ⟨c, hc, hk⟩
    exact ⟨.stated c, stated_mem_iff.mpr hc, decide_eq_true hk⟩

theorem mem_visibleTraits_iff {t : Trait} :
    t ∈ Item.visibleTraits k items ↔
      t ∈ items.filterMap Item.trait? ∧ t.key = k ∧ t.visibility ≠ .hidden := by
  rw [Item.visibleTraits, List.mem_filter]
  simp [Visibility.isVisible]

theorem visibleTraits_isEmpty_iff : (Item.visibleTraits k items).isEmpty = false ↔
    ∃ t ∈ items.filterMap Item.trait?, t.key = k ∧ t.visibility ≠ .hidden := by
  rw [List.isEmpty_eq_false_iff_exists_mem]
  exact exists_congr fun t => mem_visibleTraits_iff

theorem visibleTraits_any_shown_iff :
    (Item.visibleTraits k items).any (·.visibility = .shown) = true ↔
      ∃ t ∈ items.filterMap Item.trait?, t.key = k ∧ t.visibility = .shown := by
  rw [List.any_eq_true]
  constructor
  · rintro ⟨t, ht, hs⟩
    obtain ⟨hm, hk, -⟩ := mem_visibleTraits_iff.mp ht
    exact ⟨t, hm, hk, of_decide_eq_true hs⟩
  · rintro ⟨t, hm, hk, hs⟩
    exact ⟨t, mem_visibleTraits_iff.mpr ⟨hm, hk, by simp [hs]⟩, decide_eq_true hs⟩

theorem visibleTraits_any_stub_iff : (Item.visibleTraits k items).any (·.stub.isSome) = false ↔
    ∀ t ∈ items.filterMap Item.trait?, t.key = k → t.visibility ≠ .hidden → t.stub = none := by
  rw [List.any_eq_false]
  constructor
  · intro h t hm hk hv
    simpa using h t (mem_visibleTraits_iff.mpr ⟨hm, hk, hv⟩)
  · intro h t ht
    obtain ⟨hm, hk, hv⟩ := mem_visibleTraits_iff.mp ht
    simp [h t hm hk hv]

theorem check_required_eq {exempt : Bool} (he : exempt = true ↔ Exempted steps k) :
    Rule.check exempt items r (.required k) =
      if Owes steps items r k then some (.requires [k]) else none := by
  have ho : Owes steps items r k ↔ (Item.visibleTraits k items).isEmpty = false ∧
      ¬ r.isPresent k = true ∧ (Item.visibleTraits k items).any (·.stub.isSome) = false ∧
      (¬ exempt = true ∨ (Item.visibleTraits k items).any (·.visibility = .shown) = true) := by
    rw [owes_iff_and, visibleTraits_isEmpty_iff, visibleTraits_any_stub_iff,
      visibleTraits_any_shown_iff, he, Record.isPresent_iff]
  by_cases h : Owes steps items r k
  · obtain ⟨h₁, h₂, h₃, h₄⟩ := ho.mp h
    rw [if_pos h]
    rcases h₄ with h₄ | h₄ <;> simp [Rule.check, h₁, h₂, h₃, h₄]
  · rw [if_neg h]
    rw [ho] at h
    simp only [Rule.check]
    grind

theorem check_stated_eq (c : Constraint) (x : Site) (hx : x.step = .constrain c) :
    c.check r = x.problem? s steps items r := by
  rw [Site.problem?, hx]
  cases c with
  | optional k => rfl
  | either a b lax =>
    simp only [Constraint.check, ← Record.isPresent_iff]
    cases r.isPresent a <;> cases r.isPresent b <;> cases lax <;> rfl
  | all ks lax =>
    have hf : (ks.filter fun k => ¬ r.Has k) = ks.filter (!r.isPresent ·) := by
      simp only [← Record.isPresent_iff, Bool.not_eq_true, ← Bool.not_eq_true', Bool.decide_eq_true]
    have hc : ((ks.filter (!r.isPresent ·)).isEmpty ||
        lax && (ks.filter (!r.isPresent ·)).length = ks.length) = true ↔
        (∀ k ∈ ks, r.Has k) ∨ (lax = true ∧ ∀ k ∈ ks, ¬ r.Has k) := by
      simp [← Record.isPresent_iff, List.length_filter_eq_length_iff]
    simp only [Constraint.check, hf, hc]
  | atLeastOne ks =>
    have hc : ks.any r.isPresent = true ↔ ∃ k ∈ ks, r.Has k := by
      simp [← Record.isPresent_iff]
    simp only [Constraint.check, hc]

theorem rule_problem_eq (x : Site) :
    ((x.rule? s).bind fun rule =>
      let exempt := match rule with
        | .required k => Rule.isExempt ((Site.all steps).filterMap (Site.rule? s)) k
        | .stated _ => false
      rule.check exempt items r) = x.problem? s steps items r := by
  cases hx : x.step with
  | trait reference edits | duplicate reference edits =>
    simp only [Site.rule?, Site.problem?, hx, Option.bind_assoc]
    congr 1
    funext k
    by_cases hk : k ∈ (Site.all x.before).filterMap (Site.key? s)
    · simp [hk]
    · simp [hk, check_required_eq isExempt_iff]
  | constrain c =>
    simp only [Site.rule?, hx, Option.bind_some, Rule.check]
    exact check_stated_eq c x hx
  | _ => simp [Site.rule?, Site.problem?, hx]

/-- A render reports the problems of the sites of a style, in order, for the items that the triggers
leave. -/
theorem problems_render {d : Definition} {st : Style} (h : d.compile E s = .ok st) (f : Format)
    (r : Record) :
    (st.render f r).problems =
      (Site.all d.steps).filterMap (Site.problem? s d.steps (st.itemsFor r) r) := by
  obtain ⟨-, dr, hd, -, rfl⟩ := Definition.compile_eq_ok_iff.mp h
  have hr := Draft.Reflects.of_runAll hd
  rw [Style.render, Style.problems, Rule.checkAll]
  simp only [Definition.styleOf, hr.rules, List.filterMap_filterMap]
  congr 1
  funext x
  exact rule_problem_eq x

/-- A title that is hidden where it stands first, made optional later on, and shown by a trigger. -/
def Definition.serial : Definition where
  id := "serial"
  title := "Serial"
  description := none
  mixins := [⟨"numbering", [.step (.trait "volume, " [.stub "n.v."])]⟩]
  program := [.step (.trait "title" [.display false]), .step (.duplicate "(title)" []),
    .step (.constrain (.optional "title")), .inherit 0,
    .step (.upon ⟨"issue", [.edit (.display "title" true)]⟩),
    .step (.constrain (.either "doi" "url" true))]

def Schema.serial : Schema :=
  Table.ofList [("title", .text), ("volume", .number), ("issue", .number)]

def Style.serial : Style where
  id := "serial"
  title := "Serial"
  items := [.trait ⟨"volume", "", ", ", .number, .normal, some "n.v.", .plain, 0⟩,
    .trait ⟨"title", "", "", .text, .hidden, none, .plain, 1⟩,
    .trait ⟨"title", "(", ")", .text, .normal, none, .plain, 2⟩]
  rules := [.required "volume", .required "title", .stated (.optional "title"),
    .stated (.either "doi" "url" true)]
  triggers := [⟨"issue", [.edit (.display "title" true)]⟩]
  inherited := ["numbering"]

theorem problems_render_serial :
    Definition.serial.compile .usual .serial = .ok .serial ∧
      (Style.serial.render .html (Record.empty.set "issue" (.text "1"))).problems =
        [.requires ["title"]] := by
  have h : Definition.serial.compile .usual .serial = .ok .serial :=
    (Definition.compile_of_titled (by decide) _ _).trans (by cbv)
  exact ⟨h, (problems_render h .html (Record.empty.set "issue" (.text "1"))).trans (by cbv)⟩

end Stylebook
