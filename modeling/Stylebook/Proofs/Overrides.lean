import Mathlib
import Stylebook.Proofs.Compile.Faults
import Stylebook.Proofs.Triggers

/-! # Settings and triggers

A style may be changed by a step after all its other steps, or by a trigger that stands before them.
Both find the items as they were declared, and all other triggers find what they leave, so for the
records that let the trigger fire there is no difference.
-/

namespace Stylebook

namespace Draft

variable {E : Engine} {s : Schema} {d : Draft} {t : Trigger} {st : Step} {steps : List Step}
  {k : String}

/-- The draft with one trigger more, before all others. -/
def behind (t : Trigger) (d : Draft) : Draft := { d with triggers := t :: d.triggers }

theorem fault?_behind (t : Trigger) (d : Draft) (st : Step) :
    (d.behind t).fault? st = d.fault? st := by
  cases st <;> rfl

theorem next_behind (t : Trigger) (d : Draft) (st : Step) :
    (d.behind t).next st = (d.next st).behind t := by
  have hi : (d.behind t).item? st = d.item? st := by cases st <;> rfl
  have hr : (d.behind t).rule? st = d.rule? st := by cases st <;> rfl
  rw [next, hi, hr]
  rfl

/-- No step looks at the triggers. -/
theorem runAll_behind (t : Trigger) (d : Draft) (steps : List Step) :
    (d.behind t).runAll steps = (d.runAll steps).map (behind t) := by
  induction steps generalizing d with
  | nil => rfl
  | cons st steps ih =>
    cases hf : d.fault? st with
    | some f =>
      rw [runAll_cons_of_some ((fault?_behind t d st).trans hf), runAll_cons_of_some hf]
      rfl
    | none =>
      rw [runAll_cons_of_none ((fault?_behind t d st).trans hf), runAll_cons_of_none hf,
        next_behind, ih]

/-- A change to a draft that leaves the same key unmatched, if any. -/
theorem finish_map (g : Draft → Draft)
    (h : (g d).displays.entries.find? (fun e => (g d).items.all (·.key ≠ e.1)) =
      d.displays.entries.find? fun e => d.items.all (·.key ≠ e.1)) :
    (g d).finish = d.finish.map g := by
  rw [finish, finish, h]
  cases d.displays.entries.find? fun e => d.items.all (·.key ≠ e.1) <;> rfl

/-- What the steps of a style come to. -/
def build (E : Engine) (s : Schema) (steps : List Step) : Except Fault Draft :=
  (start E s).runAll steps >>= finish

/-- A trigger that is declared first stands before all others. -/
theorem build_upon_cons (t : Trigger) (steps : List Step) :
    build E s (.upon t :: steps) = (build E s steps).map (behind t) := by
  have hr : (start E s).runAll (.upon t :: steps) = ((start E s).runAll steps).map (behind t) :=
    runAll_behind t (start E s) steps
  rw [build, build, hr]
  cases (start E s).runAll steps with
  | error f => rfl
  | ok d => exact finish_map (behind t) rfl

/-- Steps of a kind `p` change a part that `g` forgets and nothing else, and neither other steps nor
the end look at that part. -/
structure Forgets (g : Draft → Draft) (p : Step → Bool) : Prop where
  fault? : ∀ d st, (g d).fault? st = d.fault? st
  next : ∀ d st, g ((g d).next st) = g (d.next st)
  finish : ∀ d, (g d).finish = d.finish.map g
  skips : ∀ {st}, p st = true → ∀ d, d.fault? st = none ∧ g (d.next st) = g d

namespace Forgets

variable {g : Draft → Draft} {p : Step → Bool} {d d' : Draft} {steps' : List Step}
  (h : Forgets g p)

include h

theorem fault?_eq (hd : g d = g d') (st : Step) : d.fault? st = d'.fault? st := by
  rw [← h.fault? d, hd, h.fault?]

theorem next_eq (hd : g d = g d') (st : Step) : g (d.next st) = g (d'.next st) := by
  rw [← h.next d, hd, h.next]

theorem runAll_filter (hd : g d = g d') (steps : List Step) :
    (d.runAll steps).map g = (d'.runAll (steps.filter (!p ·))).map g := by
  induction steps generalizing d d' with
  | nil => exact congrArg Except.ok hd
  | cons st steps ih =>
    cases hp : p st with
    | true =>
      obtain ⟨hf, hn⟩ := h.skips hp d
      rw [List.filter_cons_of_neg (by simp [hp]), runAll_cons_of_none hf]
      exact ih (hn.trans hd)
    | false =>
      rw [List.filter_cons_of_pos (by simp [hp])]
      cases hf : d'.fault? st with
      | some f =>
        rw [runAll_cons_of_some ((h.fault?_eq hd st).trans hf), runAll_cons_of_some hf]
      | none =>
        rw [runAll_cons_of_none ((h.fault?_eq hd st).trans hf), runAll_cons_of_none hf]
        exact ih (h.next_eq hd st)

theorem build_filter (E : Engine) (s : Schema) (steps : List Step) :
    (build E s steps).map g = (build E s (steps.filter (!p ·))).map g := by
  have hb (steps : List Step) :
      (build E s steps).map g = ((start E s).runAll steps).map g >>= Draft.finish := by
    rw [build]
    cases (start E s).runAll steps with
    | error f => rfl
    | ok d => exact (h.finish d).symm
  rw [hb, hb, h.runAll_filter rfl]

/-- Steps that differ in the forgotten ones end with the same fault, or with drafts that differ in
the forgotten part. -/
theorem build_cases (hs : steps.filter (!p ·) = steps'.filter (!p ·)) (E : Engine) (s : Schema) :
    (∃ f, build E s steps = .error f ∧ build E s steps' = .error f) ∨
      ∃ d d', build E s steps = .ok d ∧ build E s steps' = .ok d' ∧ g d = g d' := by
  have hb : (build E s steps).map g = (build E s steps').map g := by
    rw [h.build_filter, hs, ← h.build_filter]
  cases hs : build E s steps <;> cases hs' : build E s steps' <;> rw [hs, hs'] at hb
  case error.error f f' => exact .inl ⟨f, rfl, congrArg Except.error (Except.error.inj hb).symm⟩
  case ok.ok d d' => exact .inr ⟨d, d', rfl, rfl, Except.ok.inj hb⟩
  all_goals cases hb

end Forgets

/-- A last step that is never refused, and that leaves the same key unmatched, if any. -/
theorem build_append_singleton (hf : ∀ d, fault? d st = none)
    (h : ∀ d, Reflects E s steps d → (d.next st).finish = d.finish.map (·.next st)) :
    build E s (steps ++ [st]) = (build E s steps).map (·.next st) := by
  rw [build, build, runAll_append_singleton]
  cases hd : (start E s).runAll steps with
  | error f => rfl
  | ok d =>
    have hr : d.run st = .ok (d.next st) := run_eq_ok_iff.mpr ⟨hf d, rfl⟩
    calc (d.run st >>= finish)
      _ = (d.next st).finish := by rw [hr]; rfl
      _ = d.finish.map (·.next st) := h d (.of_runAll hd)

theorem all_key_obey (items : List Item) (st : Step) (k : String) :
    (items.map (·.obey st)).all (·.key ≠ k) = items.all (·.key ≠ k) := by
  simp [List.all_map, Function.comp_def]

theorem build_append_set (k : String) (edits : List TraitEdit) (steps : List Step) :
    build E s (steps ++ [.set k edits]) = (build E s steps).map (·.next (.set k edits)) := by
  refine build_append_singleton (fun _ => rfl) fun d _ => finish_map (·.next _) ?_
  simp only [next, item?, Option.toList_none, List.append_nil, all_key_obey]
  rfl

/-- A key that names an item is not unmatched, whatever is made of it. -/
theorem build_append_display (on : Bool) (h : Names s steps k) :
    build E s (steps ++ [.display k on]) = (build E s steps).map (·.next (.display k on)) := by
  refine build_append_singleton (fun _ => rfl) fun d hd => finish_map (·.next _) ?_
  have hk : d.items.all (·.key ≠ k) = false := by
    rw [← Bool.not_eq_true, hd.all_ne_iff]
    exact not_not_intro h
  simp only [next, item?, Option.toList_none, List.append_nil, all_key_obey]
  exact Table.find?_entries_insert (p := fun k => d.items.all (·.key ≠ k)) hk d.displays on

end Draft

/-- The edit that a trigger makes to do what the step does. -/
def Step.edit? : Step → Option Edit
  | set k edits => some (.configure k edits)
  | display k on => some (.display k on)
  | _ => none

/-- Such a step changes the items that there are, and no other part that a style has. -/
theorem Draft.next_of_edit? {st : Step} {e : Edit} (h : st.edit? = some e) (d : Draft) :
    (d.next st).items = Edit.apply d.items e ∧ (d.next st).rules = d.rules ∧
      (d.next st).triggers = d.triggers := by
  cases st with
  | set k edits | display k on =>
    cases h
    exact ⟨List.append_nil _, List.append_nil _, List.append_nil _⟩
  | _ => cases h

/-- What a trigger leaves is what the triggers after it find. -/
theorem Trigger.run_cons (t : Trigger) (ts : List Trigger) (r : Record) (items : List Item) :
    run (t :: ts) r items = run ts r (run [t] r items) := by
  simp [run, edits]

theorem Trigger.run_singleton_of_fires {t : Trigger} {r : Record} (h : t.fires r = true)
    (items : List Item) : run [t] r items = (Action.editsAll r t.actions).foldl Edit.apply items := by
  simp [run, edits, h]

theorem Trigger.run_singleton_of_not_fires {t : Trigger} {r : Record} (h : t.fires r = false)
    (items : List Item) : run [t] r items = items := by
  simp [run, edits, h]

theorem Style.render_eq_of_itemsFor {st st' : Style} {r : Record}
    (hi : st.itemsFor r = st'.itemsFor r) (hr : st.rules = st'.rules) (f : Format) :
    st.render f r = st'.render f r := by
  have hp : st.problems r = st'.problems r := by rw [problems, problems, hi, hr]
  have hc : st.chunks r = st'.chunks r := by rw [chunks, chunks, hi]
  rw [render, render, hp, hc]

namespace Definition

open Draft

variable {d : Definition} {E : Engine} {s : Schema} {r : Record} {k g : String} {st : Step}
  {e : Edit}

/-- What a record is rendered to, or why the definition does not compile. -/
def render (d : Definition) (E : Engine) (s : Schema) (f : Format) (r : Record) :
    Except CompileError Rendering := (d.compile E s).map (·.render f r)

/-- The definition with one step more, after all others. -/
def followedBy (d : Definition) (st : Step) : Definition :=
  { d with program := d.program ++ [.step st] }

/-- The definition with one step more, before all others of its program. -/
def precededBy (d : Definition) (st : Step) : Definition :=
  { d with program := .step st :: d.program }

theorem steps_followedBy (d : Definition) (st : Step) :
    (d.followedBy st).steps = d.steps ++ [st] := by
  simp [steps, followedBy, mixinPart, Call.own, Call.isStep, Call.step?]

theorem mixinPart_eq_nil (h : ∀ c ∈ d.program, c.isStep = true) : d.mixinPart = ⟨[], []⟩ := by
  have hn : (d.program.filter fun c => !c.isStep) = [] :=
    List.filter_eq_nil_iff.mpr fun c hc => by simp [h c hc]
  rw [mixinPart, hn, Call.expand_nil]

theorem steps_precededBy (h : ∀ c ∈ d.program, c.isStep = true) (st : Step) :
    (d.precededBy st).steps = st :: d.steps := by
  have hp : ∀ c ∈ (d.precededBy st).program, c.isStep = true := by
    simpa [precededBy, Call.isStep] using h
  rw [steps, steps, mixinPart_eq_nil h, mixinPart_eq_nil hp]
  rfl

theorem compile_eq_map (ht : Text.trim d.title.toList ≠ []) (E : Engine) (s : Schema) :
    d.compile E s = ((build E s d.steps).mapError (CompileError.mk d.id)).map d.styleOf := by
  rw [compile_eq_build ht, ← build]
  cases build E s d.steps <;> rfl

/-- How a definition with a title renders that is built like `b` but for what `g` changes. -/
theorem render_eq_map {b : Except Fault Draft} {g : Draft → Draft}
    (ht : Text.trim d.title.toList ≠ []) (h : build E s d.steps = b.map g) (f : Format) :
    d.render E s f r =
      (b.mapError (CompileError.mk d.id)).map fun dr => (d.styleOf (g dr)).render f r := by
  rw [render, compile_eq_map ht, h]
  cases b <;> rfl

/-- Two definitions of one title render alike if they are built alike but for a change to the draft,
and the changed drafts render alike. -/
theorem render_eq_render (d₁ d₂ : Definition) {b : Except Fault Draft} {g₁ g₂ : Draft → Draft}
    (hi : d₁.id = d₂.id) (ht : d₁.title = d₂.title)
    (h₁ : build E s d₁.steps = b.map g₁) (h₂ : build E s d₂.steps = b.map g₂) (f : Format)
    (h : ∀ dr, (d₁.styleOf (g₁ dr)).render f r = (d₂.styleOf (g₂ dr)).render f r) :
    d₁.render E s f r = d₂.render E s f r := by
  by_cases ht' : Text.trim d₁.title.toList = []
  · rw [render, render, compile_of_untitled ht', compile_of_untitled (ht ▸ ht'), hi]
  · rw [render_eq_map ht' h₁, render_eq_map (ht ▸ ht') h₂, hi]
    simp only [h]

/-- A step that can be finished like the draft before it does what a trigger before all steps does. -/
theorem render_followedBy (hd : ∀ c ∈ d.program, c.isStep = true) (he : st.edit? = some e)
    (hb : build E s (d.steps ++ [st]) = (build E s d.steps).map (·.next st)) (hg : r.Has g)
    (f : Format) :
    (d.followedBy st).render E s f r = (d.precededBy (.upon ⟨g, [.edit e]⟩)).render E s f r := by
  have h₁ : build E s (d.followedBy st).steps = (build E s d.steps).map (·.next st) := by
    rw [steps_followedBy, hb]
  have h₂ : build E s (d.precededBy (.upon ⟨g, [.edit e]⟩)).steps =
      (build E s d.steps).map (behind ⟨g, [.edit e]⟩) := by
    rw [steps_precededBy hd, build_upon_cons]
  refine render_eq_render (d.followedBy st) (d.precededBy _) rfl rfl h₁ h₂ f fun dr => ?_
  obtain ⟨hi, hr, ht⟩ := next_of_edit? he dr
  refine Style.render_eq_of_itemsFor ?_ hr f
  have hf : Trigger.fires ⟨g, [.edit e]⟩ r = true := Record.isPresent_iff.mpr hg
  have ha : Action.editsAll r [.edit e] = [e] := by simp [Action.editsAll, Action.edits]
  calc Trigger.run (dr.next st).triggers r (dr.next st).items
    _ = Trigger.run dr.triggers r (Edit.apply dr.items e) := by rw [hi, ht]
    _ = Trigger.run (⟨g, [.edit e]⟩ :: dr.triggers) r dr.items := by
      rw [Trigger.run_cons, Trigger.run_singleton_of_fires hf, ha]
      rfl

/-- A trigger that does not fire makes no difference. -/
theorem render_precededBy (hd : ∀ c ∈ d.program, c.isStep = true) (hg : ¬ r.Has g)
    (actions : List Action) (f : Format) :
    (d.precededBy (.upon ⟨g, actions⟩)).render E s f r = d.render E s f r := by
  have h₁ : build E s (d.precededBy (.upon ⟨g, actions⟩)).steps =
      (build E s d.steps).map (behind ⟨g, actions⟩) := by
    rw [steps_precededBy hd, build_upon_cons]
  have h₂ : build E s d.steps = (build E s d.steps).map fun dr => dr := by
    cases build E s d.steps <;> rfl
  have hf : Trigger.fires ⟨g, actions⟩ r = false := by
    rw [← Bool.not_eq_true]
    exact fun h => hg (Record.isPresent_iff.mp h)
  refine render_eq_render (d.precededBy _) d rfl rfl h₁ h₂ f fun dr => ?_
  refine Style.render_eq_of_itemsFor ?_ ?_ f
  · calc Trigger.run (⟨g, actions⟩ :: dr.triggers) r dr.items
      _ = Trigger.run dr.triggers r dr.items := by
        rw [Trigger.run_cons, Trigger.run_singleton_of_not_fires hf]
  · rfl

end Definition

/-- To set a field after all steps, or to show or hide an item, is to do so by a trigger before them,
if the record lets it fire: either both are refused for the same reason or both render alike. Without
the gate the trigger might as well not be there. -/
theorem render_override {d : Definition} (hd : ∀ c ∈ d.program, c.isStep = true) (E : Engine)
    (s : Schema) (g k : String) (r : Record) (f : Format) :
    (r.Has g → ∀ edits, (d.followedBy (.set k edits)).render E s f r =
      (d.precededBy (.upon ⟨g, [.edit (.configure k edits)]⟩)).render E s f r) ∧
    (r.Has g → Draft.Names s d.steps k → ∀ on, (d.followedBy (.display k on)).render E s f r =
      (d.precededBy (.upon ⟨g, [.edit (.display k on)]⟩)).render E s f r) ∧
    (¬ r.Has g → ∀ actions,
      (d.precededBy (.upon ⟨g, actions⟩)).render E s f r = d.render E s f r) := by
  refine ⟨fun hg edits => ?_, fun hg hk on => ?_, fun hg actions => ?_⟩
  · exact Definition.render_followedBy hd rfl (Draft.build_append_set k edits d.steps) hg f
  · exact Definition.render_followedBy hd rfl (Draft.build_append_display on hk) hg f
  · exact Definition.render_precededBy hd hg actions f

/-- A trait and a text block of one key, a second trait of it, and a trigger that reads the first. -/
def Definition.errata : Definition where
  id := "errata"
  title := "Errata"
  description := none
  mixins := []
  program := [.step (.field "text" .text), .step (.trait "(text)" []), .step (.text "; " []),
    .step (.duplicate "text." [.stub "s.n."]), .step (.trait "title" []),
    .step (.upon ⟨"title", [.edit (.extendAfter "text" "!")]⟩)]

theorem render_override_errata :
    let r := Record.empty.set "title" (.text "Foo")
    let edits := [.after "?", .choices [.add "a" "A"], .stub "n.n."]
    ((Definition.errata.followedBy (.set "text" edits)).render .usual .bibliographic .html r =
        .ok ⟨"(n.n.?!; n.n.?!Foo", []⟩ ∧
      (Definition.errata.precededBy (.upon ⟨"title", [.edit (.configure "text" edits)]⟩)).render
        .usual .bibliographic .html r = .ok ⟨"(n.n.?!; n.n.?!Foo", []⟩) ∧
    ((Definition.errata.followedBy (.display "text" false)).render .usual .bibliographic .plain r =
      (Definition.errata.precededBy (.upon ⟨"title", [.edit (.display "text" false)]⟩)).render
        .usual .bibliographic .plain r) ∧
    (Definition.errata.precededBy (.upon ⟨"issue", [.edit (.display "text" false)]⟩)).render
      .usual .bibliographic .html r = Definition.errata.render .usual .bibliographic .html r := by
  intro r edits
  have hd : ∀ c ∈ Definition.errata.program, c.isStep = true := by decide
  have hs : Definition.errata.steps = [.field "text" .text, .trait "(text)" [], .text "; " [],
      .duplicate "text." [.stub "s.n."], .trait "title" [],
      .upon ⟨"title", [.edit (.extendAfter "text" "!")]⟩] := by cbv
  have hk : Draft.Names .bibliographic Definition.errata.steps "text" :=
    ⟨⟨[.field "text" .text, .trait "(text)" []], .text "; " [], [.duplicate "text." [.stub "s.n."],
      .trait "title" [], .upon ⟨"title", [.edit (.extendAfter "text" "!")]⟩]⟩,
      Site.mem_all_iff.mpr hs.symm, .text ⟨"text", "; ", .normal, 1⟩, by cbv, rfl⟩
  have hg : r.Has "title" := by decide
  have hv : (Definition.errata.followedBy (.set "text" edits)).render .usual .bibliographic .html r =
      .ok ⟨"(n.n.?!; n.n.?!Foo", []⟩ :=
    (congrArg (Except.map _) (Definition.compile_of_titled (by decide) _ _)).trans (by cbv)
  obtain ⟨hset, -, -⟩ := render_override hd .usual .bibliographic "title" "text" r .html
  obtain ⟨-, hdisplay, -⟩ := render_override hd .usual .bibliographic "title" "text" r .plain
  obtain ⟨-, -, habsent⟩ := render_override hd .usual .bibliographic "issue" "text" r .html
  exact ⟨⟨hv, (hset hg edits).symm.trans hv⟩, hdisplay hg hk false, habsent (by decide) _⟩

end Stylebook
