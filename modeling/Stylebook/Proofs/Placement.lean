import Mathlib
import Stylebook.Proofs.Compile.Structure
import Stylebook.Proofs.Mixins.Shuffling
import Stylebook.Proofs.Overrides

/-! # Where constraints stand

Constraints are looked at when a record is rendered, all of them together. So it makes no difference
where a program states them, but for the order in which problems are reported.
-/

namespace Stylebook

namespace Draft

variable {E : Engine} {s : Schema} {d d' : Draft} {steps steps' : List Step}

/-- The draft without its rules. -/
def unruled (d : Draft) : Draft := { d with rules := [] }

theorem items_eq_of_unruled (h : d.unruled = d'.unruled) : d.items = d'.items := by
  have hi : d.unruled.items = d'.unruled.items := congrArg items h
  exact hi

theorem triggers_eq_of_unruled (h : d.unruled = d'.unruled) : d.triggers = d'.triggers := by
  have ht : d.unruled.triggers = d'.unruled.triggers := congrArg triggers h
  exact ht

theorem forgets_unruled : Forgets unruled fun st => st.constraint?.isSome where
  fault? _ st := by cases st <;> rfl
  next d st := by
    have hi : d.unruled.item? st = d.item? st := by cases st <;> rfl
    rw [next, hi]
    rfl
  finish d := d.finish_map unruled rfl
  skips := by
    intro st hst d
    obtain ⟨c, hc⟩ := Option.isSome_iff_exists.mp hst
    obtain rfl : st = .constrain c := by cases st <;> cases hc; rfl
    exact ⟨rfl, by simp [next, unruled, item?, Item.obey, Step.field?, Step.trigger?,
      Step.setting?, Step.display?, Table.insertAll]⟩

/-- Shuffled steps end with the same fault, or with drafts that differ in their rules only. -/
theorem build_shuffled_cases (h : Shuffled Step.constraint? steps steps') :
    (∃ f, build E s steps = .error f ∧ build E s steps' = .error f) ∨
      ∃ d d', build E s steps = .ok d ∧ build E s steps' = .ok d' ∧ d.unruled = d'.unruled :=
  forgets_unruled.build_cases (by simpa using h.others) E s

theorem reflects_of_build (h : build E s steps = .ok d) : Reflects E s steps d := by
  rw [build] at h
  cases hr : (start E s).runAll steps with
  | error f =>
    rw [hr] at h
    cases h
  | ok d' =>
    rw [hr] at h
    obtain rfl := d'.finish_eq_ok h
    exact .of_runAll hr

end Draft

namespace Rule

variable {rules rules' : List Rule}

theorem count_stated (rules : List Rule) (c : Constraint) :
    rules.count (.stated c) = (rules.filterMap constraint?).count c := by
  induction rules with
  | nil => rfl
  | cons rule rules ih =>
    cases rule with
    | required k =>
      rw [List.count_cons_of_ne (by simp), List.filterMap_cons_none rfl, ih]
    | stated c' =>
      have hf : (stated c' :: rules).filterMap constraint? = c' :: rules.filterMap constraint? :=
        rfl
      rw [hf, List.count_cons, List.count_cons, ih]
      simp

theorem isExempt_perm (h : rules.Perm rules') (k : String) :
    isExempt rules k = isExempt rules' k := by
  rw [isExempt, isExempt, Bool.eq_iff_iff, List.any_eq_true, List.any_eq_true]
  exact exists_congr fun rule => and_congr_left fun _ => h.mem_iff

/-- Rules in another order report the same problems in another order. -/
theorem checkAll_perm (h : rules.Perm rules') (items : List Item) (r : Record) :
    (checkAll rules items r).Perm (checkAll rules' items r) := by
  have he : isExempt rules = isExempt rules' := funext (isExempt_perm h)
  rw [checkAll, checkAll, he]
  exact h.filterMap _

end Rule

/-- The same constraints, and the same requirements for the same traits, make the same rules. -/
theorem Draft.Reflects.rules_perm {E : Engine} {s : Schema} {steps steps' : List Step} {d d' : Draft}
    (h : Reflects E s steps d) (h' : Reflects E s steps' d') (hi : d.items = d'.items)
    (hc : (steps.filterMap Step.constraint?).Perm (steps'.filterMap Step.constraint?)) :
    d.rules.Perm d'.rules := by
  rw [List.perm_iff_count]
  intro rule
  cases rule with
  | required k =>
    rw [h.rules, h'.rules, Site.count_required, Site.count_required, ← h.traitKeys_eq,
      ← h'.traitKeys_eq, hi]
  | stated c =>
    rw [Rule.count_stated, Rule.count_stated, h.rules, h'.rules, Site.filterMap_constraint?_rules,
      Site.filterMap_constraint?_rules, Site.map_step_all, Site.map_step_all]
    exact hc.count_eq c

/-- Two styles that differ in the order of their rules only. -/
structure Style.Reordered (st st' : Style) : Prop where
  items : st.items = st'.items
  triggers : st.triggers = st'.triggers
  inherited : st.inherited = st'.inherited
  rules : st.rules.Perm st'.rules

namespace Style.Reordered

variable {st st' : Style} (h : st.Reordered st')
include h

theorem itemsFor_eq (r : Record) : st.itemsFor r = st'.itemsFor r := by
  rw [itemsFor, itemsFor, h.items, h.triggers]

theorem problems_perm (r : Record) : (st.problems r).Perm (st'.problems r) := by
  rw [problems, problems, h.itemsFor_eq]
  exact Rule.checkAll_perm h.rules _ r

theorem text_eq (f : Format) (r : Record) : (st.render f r).text = (st'.render f r).text := by
  have hp : (st.problems r).isEmpty = (st'.problems r).isEmpty := by
    rw [Bool.eq_iff_iff, List.isEmpty_iff_length_eq_zero, List.isEmpty_iff_length_eq_zero,
      (h.problems_perm r).length_eq]
  have hc : st.chunks r = st'.chunks r := by rw [chunks, chunks, h.itemsFor_eq]
  simp only [render, hp, hc]

end Style.Reordered

theorem Definition.Shuffled.reordered {E : Engine} {s : Schema} {d d' : Definition} {dr dr' : Draft}
    (h : d.Shuffled d') (hb : Draft.build E s d.steps = .ok dr)
    (hb' : Draft.build E s d'.steps = .ok dr') (hu : dr.unruled = dr'.unruled) :
    (d.styleOf dr).Reordered (d'.styleOf dr') where
  items := Draft.items_eq_of_unruled hu
  triggers := Draft.triggers_eq_of_unruled hu
  inherited := h.steps.1
  rules := (Draft.reflects_of_build hb).rules_perm (Draft.reflects_of_build hb')
    (Draft.items_eq_of_unruled hu) h.steps.2.picked

/-- Where constraints are stated makes no difference, in a program or in a mixin. Either both are
refused for the same reason, or both compile to styles that differ in the order of their rules only,
so that they exempt the same keys, report the same problems in some order and are written alike. -/
theorem compile_shuffled {d d' : Definition} (h : d.Shuffled d') (E : Engine) (s : Schema) :
    (∃ e, d.compile E s = .error e ∧ d'.compile E s = .error e) ∨
    ∃ st st', d.compile E s = .ok st ∧ d'.compile E s = .ok st' ∧
      st.items = st'.items ∧ st.triggers = st'.triggers ∧ st.inherited = st'.inherited ∧
      st.rules.Perm st'.rules ∧ (∀ k, st.isExempt k = st'.isExempt k) ∧
      ∀ f r, (st.render f r).problems.Perm (st'.render f r).problems ∧
        (st.render f r).text = (st'.render f r).text := by
  by_cases ht : Text.trim d.title.toList = []
  · refine .inl ⟨_, Definition.compile_of_untitled ht E s, ?_⟩
    rw [Definition.compile_of_untitled (h.title ▸ ht), h.id]
  have ht' : Text.trim d'.title.toList ≠ [] := h.title ▸ ht
  rcases Draft.build_shuffled_cases (s := s) h.steps.2 with ⟨f, hb, hb'⟩ | ⟨dr, dr', hb, hb', hu⟩
  · refine .inl ⟨⟨d.id, f⟩, ?_, ?_⟩
    · rw [Definition.compile_eq_map ht, hb]
      rfl
    · rw [Definition.compile_eq_map ht', hb', h.id]
      rfl
  · have hr := h.reordered hb hb' hu
    refine .inr ⟨d.styleOf dr, d'.styleOf dr', ?_, ?_, hr.items, hr.triggers, hr.inherited,
      hr.rules, Rule.isExempt_perm hr.rules, fun f r => ⟨hr.problems_perm r, hr.text_eq f r⟩⟩
    · rw [Definition.compile_eq_map ht, hb]
      rfl
    · rw [Definition.compile_eq_map ht', hb']
      rfl

/-- A constraint between the traits that it is about, and another one before all of them. -/
def Definition.gazette : Definition where
  id := "gazette"
  title := "Gazette"
  description := none
  mixins := [⟨"numbering", [.step (.constrain (.optional "issue")), .step (.trait "(issue)" [])]⟩]
  program := [.step (.constrain (.either "doi" "url" true)), .step (.trait "title. " []),
    .step (.constrain (.optional "title")), .inherit 0, .step (.display "volume" true),
    .step (.duplicate "volume" []), .step (.upon ⟨"doi", [.edit (.display "title" true)]⟩)]

/-- The same with its constraints at the end, in the other order. -/
def Definition.reprint : Definition where
  id := "gazette"
  title := "Gazette"
  description := none
  mixins := [⟨"numbering", [.step (.trait "(issue)" []), .step (.constrain (.optional "issue"))]⟩]
  program := [.step (.trait "title. " []), .inherit 0, .step (.display "volume" true),
    .step (.duplicate "volume" []), .step (.upon ⟨"doi", [.edit (.display "title" true)]⟩),
    .step (.constrain (.optional "title")), .step (.constrain (.either "doi" "url" true))]

theorem Definition.gazette_shuffled : Definition.gazette.Shuffled .reprint where
  id := rfl
  title := rfl
  mixins := .cons ⟨rfl, rfl, by decide⟩ .nil
  program := ⟨rfl, by decide⟩

def Style.gazette : Style where
  id := "gazette"
  title := "Gazette"
  items := [.trait ⟨"issue", "(", ")", .number, .normal, none, .plain, 0⟩,
    .trait ⟨"title", "", ". ", .text, .normal, none, .plain, 1⟩,
    .trait ⟨"volume", "", "", .number, .shown, none, .plain, 2⟩]
  rules := [.stated (.optional "issue"), .required "issue", .stated (.either "doi" "url" true),
    .required "title", .stated (.optional "title"), .required "volume"]
  triggers := [⟨"doi", [.edit (.display "title" true)]⟩]
  inherited := ["numbering"]

theorem compile_shuffled_gazette :
    let r := (Record.empty.set "doi" (.text "d")).set "url" (.text "u")
    Definition.gazette.Shuffled .reprint ∧ ∃ st,
      Definition.reprint.compile .usual .bibliographic = .ok st ∧ st.items = Style.gazette.items ∧
      (st.render .html r).problems.Perm [.either "doi" "url", .requires ["title"],
        .requires ["volume"]] := by
  intro r
  have hc : Definition.gazette.compile .usual .bibliographic = .ok .gazette :=
    (Definition.compile_of_titled (by decide) _ _).trans (by cbv)
  have hp : (Style.gazette.render .html r).problems =
      [.either "doi" "url", .requires ["title"], .requires ["volume"]] := by cbv
  refine ⟨Definition.gazette_shuffled, ?_⟩
  rcases compile_shuffled Definition.gazette_shuffled .usual .bibliographic with
    ⟨e, h, -⟩ | ⟨st, st', h, h', hi, -, -, -, -, hr⟩
  · cases hc.symm.trans h
  · cases hc.symm.trans h
    exact ⟨st', h', hi.symm, hp ▸ (hr .html r).1.symm⟩

end Stylebook
