import Mathlib
import Stylebook.Proofs.Compile.Structure
import Stylebook.Proofs.Configuration
import Stylebook.Proofs.Overrides

/-! # Settings that a trigger repeats

A style may set a field, and a trigger may configure the same traits alike. If nothing is done to
them in between, one of the two is enough.
-/

namespace Stylebook

variable {k : String} {es : List TraitEdit}

namespace Edit

variable {calls : List Edit}

theorem apply_configure (items : List Item) (k : String) (es : List TraitEdit) :
    apply items (.configure k es) = Item.edit k (.onTrait (·.applyAll es)) items := rfl

theorem apply_configure_configure (h : ∀ e ∈ es, e.isRepeatable = true) (items : List Item) :
    apply (apply items (.configure k es)) (.configure k es) = apply items (.configure k es) := by
  simp only [apply_configure, Item.edit, List.map_map]
  refine List.map_congr_left fun i _ => ?_
  by_cases hk : i.key = k
  · cases i with
    | trait t => simp [hk, Item.onTrait, Trait.applyAll_applyAll h, show t.key = k from hk]
    | text t => simp [hk, Item.onTrait]
  · simp [hk]

/-- A call can be made before others that are for other keys. -/
theorem run_cons_of_ne {e : Edit} (h : ∀ c ∈ calls, c.key ≠ e.key) (calls' : List Edit)
    (items : List Item) :
    (calls ++ e :: calls').foldl apply items = (e :: (calls ++ calls')).foldl apply items := by
  refine run_eq_run items fun j => ?_
  by_cases hj : e.key = j
  · have hn : naming j calls = [] :=
      List.filter_eq_nil_iff.mpr fun c hc => by simpa [hj] using h c hc
    simp only [naming] at hn
    simp [naming, hj, hn]
  · simp [naming, hj]

/-- What has been done to all items that a call is for, and not been changed since, need not be done
by the call. -/
theorem run_configure_again (h : ∀ e ∈ es, e.isRepeatable = true)
    (hc : ∀ c ∈ calls, c.key ≠ k) (calls' : List Edit) (items : List Item) :
    (calls ++ .configure k es :: calls').foldl apply (apply items (.configure k es)) =
      (calls ++ calls').foldl apply (apply items (.configure k es)) := by
  rw [run_cons_of_ne hc, List.foldl_cons, apply_configure_configure h]

end Edit

/-- The step does nothing to the traits of a key: it does not set, show or hide them, and if it
declares one, that has no edits of its own. -/
def Step.Leaves (s : Schema) (k : String) : Step → Prop
  | set j _ | display j _ => j ≠ k
  | trait reference edits | duplicate reference edits =>
    ∀ r, s.parse? reference = some r → r.key = k → edits = []
  | _ => True

theorem Item.obey_of_leaves {s : Schema} {st : Step} {i : Item} (h : st.Leaves s k)
    (hi : i.key = k) : i.obey st = i := by
  cases st with
  | set j edits => exact if_neg fun e => h (e.symm.trans hi)
  | display j on => exact if_neg fun e => h (e.symm.trans hi)
  | _ => rfl

theorem Step.filter_setting?_of_leaves {s : Schema} {st : Step} (h : st.Leaves s k) :
    st.setting?.toList.filter (·.1 = k) = [] := by
  cases st with
  | set j edits =>
    have hj : j ≠ k := h
    simp [setting?, hj]
  | _ => rfl

namespace Draft

variable {E : Engine} {s : Schema} {d d' : Draft} {st : Step} {before after : List Step}

theorem settingsFor_next (d : Draft) (st : Step) (j : String) :
    (d.next st).settingsFor j =
      d.settingsFor j ++ (st.setting?.toList.filter (·.1 = j)).flatMap Prod.snd := by
  simp [settingsFor, next]

/-- The second draft is the first one with a setting more, after which no edits have come. -/
structure SetLast (k : String) (es : List TraitEdit) (d d' : Draft) : Prop where
  engine : d'.engine = d.engine
  schema : d'.schema = d.schema
  items : d'.items = Edit.apply d.items (.configure k es)
  triggers : d'.triggers = d.triggers
  rules : d'.rules = d.rules
  settings : ∀ j, d'.settingsFor j = d.settingsFor j ++ if j = k then es else []
  displays : d'.displays = d.displays

namespace SetLast

theorem next_set (d : Draft) (k : String) (es : List TraitEdit) :
    SetLast k es d (d.next (.set k es)) where
  engine := rfl
  schema := rfl
  items := (next_of_edit? rfl d).1
  triggers := List.append_nil _
  rules := List.append_nil _
  settings := by
    intro j
    rw [settingsFor_next]
    by_cases hj : j = k <;> simp [Step.setting?, hj, eq_comm]
  displays := rfl

variable (h : SetLast k es d d')

include h

theorem hasTrait_eq (j : String) : d'.hasTrait j = d.hasTrait j := by
  rw [hasTrait, hasTrait, h.items, Edit.apply_configure, Item.edit, List.any_map]
  congr 1
  funext i
  rw [Function.comp, Bool.eq_iff_iff, Item.isTrait_iff, Item.isTrait_iff]
  split <;> simp

theorem fault?_eq (st : Step) : d'.fault? st = d.fault? st := by
  have hk : d'.keys = d.keys := by rw [keys, keys, h.engine, h.schema]
  have ho : d'.objection? st = d.objection? st := by
    cases st <;> simp only [objection?, h.schema, h.hasTrait_eq]
  rw [fault?, fault?, hk, ho]

theorem rule?_eq (st : Step) : d'.rule? st = d.rule? st := by
  cases st <;> simp only [rule?, h.schema, h.hasTrait_eq]

theorem length_items : d'.items.length = d.items.length := by
  rw [h.items, Edit.apply_configure, Item.edit, List.length_map]

theorem newTrait_eq (r : Reference) : d'.newTrait r = d.newTrait r := by
  simp only [newTrait, Draft.visibility, h.schema, h.displays, h.length_items]

theorem newText_eq (content : String) : d'.newText content = d.newText content := by
  have hc : d'.items.countP Item.isText = d.items.countP Item.isText := by
    rw [h.items, Edit.apply_configure, Item.edit, List.countP_map]
    congr 1
    funext i
    rw [Function.comp]
    split <;> simp
  simp only [newText, Draft.visibility, h.displays, h.length_items, hc]

theorem item?_eq (hst : st.Leaves d.schema k) :
    (d'.item? st).toList = Edit.apply (d.item? st).toList (.configure k es) := by
  cases st with
  | trait reference edits | duplicate reference edits =>
    simp only [item?, h.schema, h.newTrait_eq, h.settings]
    cases hr : d.schema.parse? reference with
    | none => rfl
    | some r =>
      have hk : (d.newTrait r).key = r.key := rfl
      by_cases hrk : r.key = k
      · obtain rfl := hst r hr hrk
        simp [Edit.apply_configure, Item.edit, hk, hrk, Item.onTrait, Trait.applyAll_append]
      · simp [Edit.apply_configure, Item.edit, hk, hrk]
  | text content edits =>
    simp [item?, h.newText_eq, Edit.apply_configure, Item.edit, Item.onTrait]
  | _ => rfl

theorem next (hst : st.Leaves d.schema k) : SetLast k es (d.next st) (d'.next st) where
  engine := h.engine
  schema := by rw [Draft.next, Draft.next, h.schema]
  items := by
    have hi : d'.items.map (·.obey st) =
        Edit.apply (d.items.map (·.obey st)) (.configure k es) := by
      rw [h.items]
      simp only [Edit.apply_configure, Item.edit, List.map_map]
      refine List.map_congr_left fun i _ => ?_
      by_cases hk : i.key = k
      · simp [hk, Item.obey_of_leaves hst]
      · simp [hk]
    simp only [Draft.next, hi, h.item?_eq hst]
    exact (List.map_append ..).symm
  triggers := by rw [Draft.next, Draft.next, h.triggers]
  rules := by rw [Draft.next, Draft.next, h.rules, h.rule?_eq]
  settings := by
    intro j
    rw [settingsFor_next, settingsFor_next, h.settings]
    by_cases hj : j = k
    · subst hj
      rw [Step.filter_setting?_of_leaves hst]
      simp
    · simp [hj]
  displays := by rw [Draft.next, Draft.next, h.displays]

theorem finish_cases : (∃ f, d.finish = .error f ∧ d'.finish = .error f) ∨
    d.finish = .ok d ∧ d'.finish = .ok d' := by
  have hk (j : String) : d'.items.all (·.key ≠ j) = d.items.all (·.key ≠ j) := by
    rw [h.items]
    exact all_key_obey d.items (.set k es) j
  simp only [finish, h.displays, hk]
  cases d.displays.entries.find? fun e => d.items.all (·.key ≠ e.1) with
  | some e => exact .inl ⟨_, rfl, rfl⟩
  | none => exact .inr ⟨rfl, rfl⟩

/-- Steps after the setting that do nothing to the traits of the key come to the same with it and
without it. -/
theorem runAll_cases (hs : d.schema = s.insertAll (before.filterMap Step.field?))
    (hl : ∀ x ∈ Site.allFrom before after, x.step.Leaves (x.schema s) k) :
    (∃ f, (d.runAll after >>= finish) = .error f ∧ (d'.runAll after >>= finish) = .error f) ∨
      ∃ e e', (d.runAll after >>= finish) = .ok e ∧ (d'.runAll after >>= finish) = .ok e' ∧
        SetLast k es e e' := by
  induction after generalizing before d d' with
  | nil => exact h.finish_cases.imp id fun ⟨hd, hd'⟩ => ⟨d, d', hd, hd', h⟩
  | cons st after ih =>
    cases hf : d.fault? st with
    | some f =>
      rw [runAll_cons_of_some hf, runAll_cons_of_some ((h.fault?_eq st).trans hf)]
      exact .inl ⟨f, rfl, rfl⟩
    | none =>
      rw [runAll_cons_of_none hf, runAll_cons_of_none ((h.fault?_eq st).trans hf)]
      have hst : st.Leaves d.schema k := by
        rw [hs]
        exact hl ⟨before, st, after⟩ List.mem_cons_self
      have hn : (d.next st).schema =
          s.insertAll ((before ++ [st]).filterMap Step.field?) := by
        rw [filterMap_append_singleton, Table.insertAll_append, ← hs]
        rfl
      exact ih (h.next hst) hn fun x hx => hl x (List.mem_cons_of_mem _ hx)

end SetLast

theorem build_set_cases (hl : ∀ x ∈ Site.allFrom (before ++ [.set k es]) after,
      x.step.Leaves (x.schema s) k) :
    (∃ f, build E s (before ++ after) = .error f ∧
      build E s (before ++ .set k es :: after) = .error f) ∨
    ∃ e e', build E s (before ++ after) = .ok e ∧
      build E s (before ++ .set k es :: after) = .ok e' ∧ SetLast k es e e' := by
  rw [build, build, runAll_append, runAll_append]
  cases hd : (start E s).runAll before with
  | error f => exact .inl ⟨f, rfl, rfl⟩
  | ok d =>
    have hs : d.schema = s.insertAll ((before ++ [Step.set k es]).filterMap Step.field?) := by
      rw [(Reflects.of_runAll hd).schema, filterMap_append_singleton]
      exact congrArg s.insertAll (List.append_nil _).symm
    have hn : d.runAll (Step.set k es :: after) = (d.next (.set k es)).runAll after :=
      runAll_cons_of_none rfl after
    have hc := (SetLast.next_set d k es).runAll_cases hs hl
    rw [← hn] at hc
    exact hc

/-- The draft without its triggers. -/
def untriggered (d : Draft) : Draft := { d with triggers := [] }

theorem items_eq_of_untriggered (h : d.untriggered = d'.untriggered) : d.items = d'.items := by
  have hi : d.untriggered.items = d'.untriggered.items := congrArg items h
  exact hi

theorem forgets_untriggered : Forgets untriggered fun st => st.trigger?.isSome where
  fault? _ st := by cases st <;> rfl
  next d st := by
    have hi : d.untriggered.item? st = d.item? st := by cases st <;> rfl
    have hr : d.untriggered.rule? st = d.rule? st := by cases st <;> rfl
    rw [next, hi, hr]
    rfl
  finish d := d.finish_map untriggered rfl
  skips := by
    intro st hst d
    obtain ⟨t, ht⟩ := Option.isSome_iff_exists.mp hst
    obtain rfl : st = .upon t := by cases st <;> cases ht; rfl
    exact ⟨rfl, by simp [next, untriggered, item?, rule?, Item.obey, Step.field?,
      Step.setting?, Step.display?, Table.insertAll]⟩

end Draft

namespace Definition

variable {E : Engine} {s : Schema} {d d' : Definition}

/-- The definition `d` has a setting that `d'` does without, and no later step does anything to the
traits of its key. -/
structure SetsAlso (s : Schema) (k : String) (es : List TraitEdit) (d d' : Definition) : Prop where
  id : d'.id = d.id
  title : d'.title = d.title
  steps : ∃ before after, d.steps = before ++ .set k es :: after ∧ d'.steps = before ++ after ∧
    ∀ x ∈ Site.allFrom (before ++ [.set k es]) after, x.step.Leaves (x.schema s) k

/-- Two definitions that differ in their triggers only. -/
structure Retriggered (d d' : Definition) : Prop where
  id : d'.id = d.id
  title : d'.title = d.title
  steps : (d.steps.filter fun st => st.trigger?.isNone) =
    d'.steps.filter fun st => st.trigger?.isNone

/-- Definitions of one id and title whose steps come to the same in some way compile to the same in
that way. -/
theorem compile_cases {R : Draft → Draft → Prop} (hi : d'.id = d.id) (ht : d'.title = d.title)
    (hb : (∃ f, Draft.build E s d.steps = .error f ∧ Draft.build E s d'.steps = .error f) ∨
      ∃ e e', Draft.build E s d.steps = .ok e ∧ Draft.build E s d'.steps = .ok e' ∧ R e e') :
    (∃ f, d.compile E s = .error f ∧ d'.compile E s = .error f) ∨
      ∃ e e', d.compile E s = .ok (d.styleOf e) ∧ d'.compile E s = .ok (d'.styleOf e') ∧
        R e e' := by
  by_cases h : Text.trim d.title.toList = []
  · refine .inl ⟨_, compile_of_untitled h E s, ?_⟩
    rw [compile_of_untitled (ht ▸ h), hi]
  · have h' : Text.trim d'.title.toList ≠ [] := ht ▸ h
    rw [compile_eq_map h, compile_eq_map h', hi]
    rcases hb with ⟨f, hf, hf'⟩ | ⟨e, e', he, he', hr⟩
    · exact .inl ⟨⟨d.id, f⟩, by rw [hf]; rfl, by rw [hf']; rfl⟩
    · exact .inr ⟨e, e', by rw [he]; rfl, by rw [he']; rfl, hr⟩

end Definition

/-- Where a trigger configures what a setting has configured alike, and no call before it is for
that key, the setting makes no difference, and nor does the call. -/
theorem Draft.SetLast.run_eq {d d' : Draft} (hd : SetLast k es d d')
    (h : ∀ e ∈ es, e.isRepeatable = true) {calls : List Edit} (hc : ∀ c ∈ calls, c.key ≠ k)
    (calls' : List Edit) :
    (calls ++ .configure k es :: calls').foldl Edit.apply d.items =
        (calls ++ .configure k es :: calls').foldl Edit.apply d'.items ∧
      (calls ++ calls').foldl Edit.apply d'.items =
        (calls ++ .configure k es :: calls').foldl Edit.apply d'.items := by
  have ha := Edit.run_configure_again h hc calls' d.items
  rw [hd.items, ha]
  exact ⟨Edit.run_cons_of_ne hc calls' d.items, rfl⟩

/-- To configure a trait again in the same way changes nothing. So a style that sets a field, where
no later step does anything to its traits, and whose triggers configure the field alike for a
record, has the same items for it without the setting, and also without the call. -/
theorem configure_idempotent (h : ∀ e ∈ es, e.isRepeatable = true) (k : String) :
    (∀ t : Trait, (t.applyAll es).applyAll es = t.applyAll es ∧
      (t.applyAll es).key = t.key ∧ (t.applyAll es).order = t.order) ∧
    ∀ {E : Engine} {s : Schema} {d d₁ d₂ : Definition}, d.SetsAlso s k es d₁ → d.Retriggered d₂ →
      (∃ e, d.compile E s = .error e ∧ d₁.compile E s = .error e ∧ d₂.compile E s = .error e) ∨
      ∃ st st₁ st₂, d.compile E s = .ok st ∧ d₁.compile E s = .ok st₁ ∧ d₂.compile E s = .ok st₂ ∧
        ∀ r calls calls', Trigger.edits st.triggers r = calls ++ .configure k es :: calls' →
          (∀ c ∈ calls, c.key ≠ k) →
          st₁.itemsFor r = st.itemsFor r ∧
          (Trigger.edits st₂.triggers r = calls ++ calls' → st₂.itemsFor r = st.itemsFor r) := by
  refine ⟨fun t => ⟨t.applyAll_applyAll h, t.key_applyAll es, t.order_applyAll es⟩, ?_⟩
  intro E s d d₁ d₂ h₁ h₂
  obtain ⟨before, after, hs, hs₁, hl⟩ := h₁.steps
  have hc₁ := Definition.compile_cases h₁.id.symm h₁.title.symm
    (by simpa only [hs, hs₁] using Draft.build_set_cases (E := E) hl)
  have hc₂ := Definition.compile_cases h₂.id h₂.title
    (Draft.forgets_untriggered.build_cases (by simpa using h₂.steps) E s)
  rcases hc₁ with ⟨e, he₁, he⟩ | ⟨dr₁, dr, hd₁, hd, hset⟩
  · rcases hc₂ with ⟨e', he', he₂⟩ | ⟨dr, dr₂, hd, -, -⟩
    · cases he.symm.trans he'
      exact .inl ⟨e, he, he₁, he₂⟩
    · cases he.symm.trans hd
  · rcases hc₂ with ⟨e', he', -⟩ | ⟨dr', dr₂, hd', hd₂, hu⟩
    · cases hd.symm.trans he'
    · have hi : dr'.items = dr.items :=
        congrArg Style.items (Except.ok.inj (hd'.symm.trans hd))
      have hi₂ : dr'.items = dr₂.items := Draft.items_eq_of_untriggered hu
      refine .inr ⟨_, _, _, hd, hd₁, hd₂, fun r calls calls' hr hc => ?_⟩
      have he : (d.styleOf dr).itemsFor r =
          (calls ++ .configure k es :: calls').foldl Edit.apply dr.items :=
        congrArg (List.foldl Edit.apply dr.items) hr
      have hr₁ : Trigger.edits dr₁.triggers r = calls ++ .configure k es :: calls' := by
        rw [← hset.triggers]
        exact hr
      obtain ⟨hset₁, hset₂⟩ := hset.run_eq h hc calls'
      rw [he]
      constructor
      · exact (congrArg (List.foldl Edit.apply dr₁.items) hr₁).trans hset₁
      · intro hr₂
        refine (congrArg (List.foldl Edit.apply dr₂.items) hr₂).trans ?_
        rw [← hi₂, hi]
        exact hset₂

/-- A pattern, which is lost when a date becomes a choice, and the first choice relabelled. -/
def TraitEdit.agreed : List TraitEdit :=
  [.pattern "MM/YYYY", .choices [.relabel 0 "spring"], .display true, .separators ", " " & ",
    .beforeKey, .after "."]

/-- A date with a choice and one without, which settings are for, and a trigger that hides the title
before it does something to the dates. -/
def Definition.bulletin (settings : List Step) (actions : List Action) : Definition where
  id := "bulletin"
  title := "Bulletin"
  description := none
  mixins := []
  program := [.step (.upon ⟨"genre", .edit (.display "title" false) :: actions⟩),
    .step (.trait "datePublished" [.stub "n.d.", .choices [.add "03" "March"]])] ++
    settings.map Call.step ++
    [.step (.trait "title" []), .step (.duplicate "(datePublished)" [])]

def Style.bulletin : Style where
  id := "bulletin"
  title := "Bulletin"
  items := [.trait ⟨"datePublished", "datePublished", ".",
      .enumeration ⟨[⟨0, "03", "spring", none⟩]⟩, .shown, some "n.d.", .plain, 0⟩,
    .trait ⟨"title", "", "", .text, .normal, none, .plain, 1⟩,
    .trait ⟨"datePublished", "datePublished", ".", .enumeration ⟨[]⟩, .shown, none, .plain, 2⟩]
  rules := [.required "datePublished", .required "title"]
  triggers := [⟨"genre", [.edit (.display "title" false),
    .edit (.configure "datePublished" TraitEdit.agreed)]⟩]
  inherited := []

theorem configure_idempotent_bulletin :
    let es := TraitEdit.agreed
    let call := Action.edit (.configure "datePublished" es)
    let d := Definition.bulletin [.set "datePublished" es] [call]
    let d₁ := Definition.bulletin [] [call]
    let d₂ := Definition.bulletin [.set "datePublished" es] []
    let r := Record.empty.set "genre" (.text "weekly")
    d.compile .usual .bibliographic = .ok .bulletin ∧
      d.SetsAlso .bibliographic "datePublished" es d₁ ∧ d.Retriggered d₂ ∧
      ∃ st₁ st₂, d₁.compile .usual .bibliographic = .ok st₁ ∧
        d₂.compile .usual .bibliographic = .ok st₂ ∧
        st₁.itemsFor r = Style.bulletin.itemsFor r ∧
        st₂.itemsFor r = Style.bulletin.itemsFor r := by
  intro es call d d₁ d₂ r
  have hd : d.steps = [.upon ⟨"genre", [.edit (.display "title" false), call]⟩,
      .trait "datePublished" [.stub "n.d.", .choices [.add "03" "March"]],
      .set "datePublished" es, .trait "title" [], .duplicate "(datePublished)" []] := by cbv
  have hd₁ : d₁.steps = [.upon ⟨"genre", [.edit (.display "title" false), call]⟩,
      .trait "datePublished" [.stub "n.d.", .choices [.add "03" "March"]],
      .trait "title" [], .duplicate "(datePublished)" []] := by cbv
  have hd₂ : d₂.steps = [.upon ⟨"genre", [.edit (.display "title" false)]⟩,
      .trait "datePublished" [.stub "n.d.", .choices [.add "03" "March"]],
      .set "datePublished" es, .trait "title" [], .duplicate "(datePublished)" []] := by cbv
  have hs : d.SetsAlso .bibliographic "datePublished" es d₁ := by
    refine ⟨rfl, rfl, [_, _], _, hd, hd₁, ?_⟩
    simp [Site.allFrom, Step.Leaves]
  have ht : d.Retriggered d₂ := by
    refine ⟨rfl, rfl, ?_⟩
    rw [hd, hd₂]
    rfl
  have hc : d.compile .usual .bibliographic = .ok .bulletin :=
    (Definition.compile_of_titled (by decide) _ _).trans (by cbv)
  have hc₂ : d₂.compile .usual .bibliographic = .ok { Style.bulletin with
      triggers := [⟨"genre", [.edit (.display "title" false)]⟩] } :=
    (Definition.compile_of_titled (by decide) _ _).trans (by cbv)
  have hr : Trigger.edits Style.bulletin.triggers r =
      [.display "title" false] ++ .configure "datePublished" es :: [] := by cbv
  have he : ∀ e ∈ es, e.isRepeatable = true := by decide
  rcases (configure_idempotent he "datePublished").2 hs ht with
    ⟨e, he, -⟩ | ⟨st, st₁, st₂, h, h₁, h₂, hi⟩
  · cases hc.symm.trans he
  · cases hc.symm.trans h
    cases hc₂.symm.trans h₂
    obtain ⟨hi₁, hi₂⟩ := hi r _ _ hr (by decide)
    exact ⟨hc, hs, ht, st₁, _, h₁, h₂, hi₁, hi₂ (by cbv)⟩

end Stylebook
