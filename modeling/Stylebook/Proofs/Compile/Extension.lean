import Mathlib
import Stylebook.Proofs.Overrides

/-! # Larger schemas

A program finds the same fields in a larger schema as long as no further field occurs in any of its
references. So it compiles to the same style, or is refused for the same reason, in whatever order
the fields stand. Only a matcher may become too big for one of two schemas.
-/

namespace Stylebook

namespace Schema

/-- A schema keeps the fields of another one, and has no other field that occurs in the texts. -/
structure Extends (s t : Schema) (texts : List String) : Prop where
  kept : ∀ k kind, s.get? k = some kind → t.get? k = some kind
  unmentioned : ∀ k ∈ t.keys, k ∉ s.keys → k ≠ "" → ∀ text ∈ texts, ¬ k.toList <:+: text.toList

namespace Extends

variable {E : Engine} {s t : Schema} {texts : List String} {text k : String}

theorem get?_eq (h : s.Extends t texts) (hk : k ∈ s.keys) : t.get? k = s.get? k := by
  cases hg : s.get? k with
  | none => exact absurd hk (Table.get?_eq_none_iff.mp hg)
  | some kind => exact h.kept k kind hg

theorem keys_subset (h : s.Extends t texts) (hk : k ∈ s.keys) : k ∈ t.keys := by
  by_contra hn
  have hg := h.get?_eq hk
  rw [Table.get?_eq_none_iff.mpr hn] at hg
  exact Table.get?_eq_none_iff.mp hg.symm hk

/-- References are read alike. -/
theorem parse?_eq (h : s.Extends t texts) (ht : text ∈ texts) : t.parse? text = s.parse? text := by
  refine (parse?_congr_occurring ?_).symm
  intro k hn hi
  refine ⟨h.keys_subset, ?_⟩
  intro hkt
  by_contra hks
  exact h.unmentioned k hkt hks hn text ht hi

/-- A field that is declared is one of both. -/
theorem insert (h : s.Extends t texts) (k : String) (kind : FieldKind) :
    Extends (Table.insert s k kind) (Table.insert t k kind) texts where
  kept j kind' hj := by
    rw [Table.get?_insert] at hj ⊢
    split at hj
    · next he => rwa [if_pos he]
    · next he =>
      rw [if_neg he]
      exact h.kept j kind' hj
  unmentioned j hjt hjs := by
    rw [Table.mem_keys_insert] at hjt hjs
    obtain ⟨hn, hjs⟩ := not_or.mp hjs
    exact h.unmentioned j (hjt.resolve_left hn) hjs

theorem insertAll (h : s.Extends t texts) (es : List (String × FieldKind)) :
    Extends (Table.insertAll s es) (Table.insertAll t es) texts := by
  induction es generalizing s t with
  | nil => exact h
  | cons e es ih => exact ih (h.insert e.1 e.2)

end Extends

/-- A further field that is not mentioned. -/
theorem extends_insert {s : Schema} {texts : List String} {k : String} (kind : FieldKind)
    (hk : k ∉ s.keys) (ht : ∀ text ∈ texts, ¬ k.toList <:+: text.toList) :
    s.Extends (Table.insert s k kind) texts where
  kept j kind' hj := by
    rw [Table.get?_insert, if_neg]
    · exact hj
    · rintro rfl
      rw [Table.get?_eq_none_iff.mpr hk] at hj
      cases hj
  unmentioned j hjt hjs _ := by
    obtain rfl := (Table.mem_keys_insert.mp hjt).resolve_right hjs
    exact ht

end Schema

namespace Site

variable {E : Engine} {s t : Schema} {x : Site} {st : Step}

/-- A declaration that finds a matcher over one of two schemas only. -/
def Separates (E : Engine) (s t : Schema) (x : Site) : Prop :=
  x.step.reference?.isSome ∧ ¬ ((x.keys E s).Searchable ↔ (x.keys E t).Searchable)

theorem schema_preceded_singleton (s : Schema) (x : Site) (st : Step) :
    (x.preceded [st]).schema s = x.schema (s.insertAll st.field?.toList) := by
  have hf : ([st] ++ x.before).filterMap Step.field? =
      st.field?.toList ++ x.before.filterMap Step.field? := by
    cases hf : st.field? <;> simp [hf]
  rw [schema, preceded, hf, Table.insertAll_append]
  rfl

theorem separates_preceded_singleton_iff : (x.preceded [st]).Separates E s t ↔
    x.Separates E (s.insertAll st.field?.toList) (t.insertAll st.field?.toList) := by
  simp only [Separates, keys, schema_preceded_singleton]
  rfl

theorem all_cons (st : Step) (steps : List Step) :
    all (st :: steps) = ⟨[], st, steps⟩ :: (all steps).map (preceded [st]) := by
  simp [all, allFrom, allFrom_eq_map [st]]

end Site

namespace Draft

variable {E : Engine} {s t : Schema} {d : Draft} {st : Step} {texts : List String}

/-- The draft over another schema. -/
def withSchema (t : Schema) (d : Draft) : Draft := { d with schema := t }

theorem parse?_withSchema (h : d.schema.Extends t texts) {reference : String}
    (hr : reference ∈ texts) :
    (d.withSchema t).schema.parse? reference = d.schema.parse? reference := h.parse?_eq hr

theorem objection?_withSchema (h : d.schema.Extends t texts)
    (hst : ∀ r ∈ st.reference?, r ∈ texts) :
    (d.withSchema t).objection? st = d.objection? st := by
  cases st with
  | trait reference edits =>
    rw [objection?, objection?, parse?_withSchema h (hst reference rfl)]
    rfl
  | duplicate reference edits =>
    rw [objection?, objection?, parse?_withSchema h (hst reference rfl)]
  | _ => rfl

theorem fault?_withSchema (h : d.schema.Extends t texts) (hst : ∀ r ∈ st.reference?, r ∈ texts)
    (hm : st.reference?.isSome → (d.keys.Searchable ↔ (d.withSchema t).keys.Searchable)) :
    (d.withSchema t).fault? st = d.fault? st := by
  cases hr : st.reference? with
  | none =>
    rw [fault?_eq_objection? (.inr hr), fault?_eq_objection? (.inr hr),
      objection?_withSchema h hst]
  | some reference =>
    rw [hr] at hm
    by_cases hk : d.keys.Searchable
    · rw [fault?_eq_objection? (.inl hk), fault?_eq_objection? (.inl ((hm rfl).mp hk)),
        objection?_withSchema h hst]
    · rw [fault?_of_not_searchable hk hr, fault?_of_not_searchable (mt (hm rfl).mpr hk) hr]

theorem rule?_withSchema (h : d.schema.Extends t texts) (hst : ∀ r ∈ st.reference?, r ∈ texts) :
    (d.withSchema t).rule? st = d.rule? st := by
  cases st with
  | trait reference edits | duplicate reference edits =>
    rw [rule?, rule?, parse?_withSchema h (hst reference rfl)]
    rfl
  | _ => rfl

/-- A trait has the kind that its field has in both schemas. -/
theorem newTrait_withSchema (h : d.schema.Extends t texts) {r : Reference}
    (hr : r.key ∈ d.schema.keys) : (d.withSchema t).newTrait r = d.newTrait r := by
  rw [newTrait, newTrait, withSchema, h.get?_eq hr]
  rfl

theorem item?_withSchema (h : d.schema.Extends t texts) (hst : ∀ r ∈ st.reference?, r ∈ texts) :
    (d.withSchema t).item? st = d.item? st := by
  cases st with
  | trait reference edits | duplicate reference edits =>
    rw [item?, item?, parse?_withSchema h (hst reference rfl)]
    refine Option.map_congr fun r hr => ?_
    rw [newTrait_withSchema h (Schema.parse?_eq_some_iff.mp hr).known]
    rfl
  | _ => rfl

theorem next_withSchema (h : d.schema.Extends t texts) (hst : ∀ r ∈ st.reference?, r ∈ texts) :
    (d.withSchema t).next st = (d.next st).withSchema (t.insertAll st.field?.toList) := by
  rw [next, item?_withSchema h hst, rule?_withSchema h hst]
  rfl

/-- Steps do the same over both schemas, and extend both by the same fields, up to a declaration
that separates them. -/
theorem runAll_withSchema (h : d.schema.Extends t texts) (steps : List Step)
    (hs : steps.filterMap Step.reference? ⊆ texts) :
    (d.withSchema t).runAll steps =
        (d.runAll steps).map (withSchema (t.insertAll (steps.filterMap Step.field?))) ∨
      (∃ x ∈ Site.all steps, x.Separates d.engine d.schema t) ∧
        (d.runAll steps = .error (.unsearchable ⟨KeySet.defaultLimit⟩) ∨
          (d.withSchema t).runAll steps = .error (.unsearchable ⟨KeySet.defaultLimit⟩)) := by
  induction steps generalizing d t with
  | nil => exact .inl rfl
  | cons st steps ih =>
    have hst : ∀ r ∈ st.reference?, r ∈ texts := fun r hr =>
      hs (List.mem_filterMap.mpr ⟨st, List.mem_cons_self, hr⟩)
    have hs' : steps.filterMap Step.reference? ⊆ texts := fun r hr => by
      obtain ⟨st', hm, hr⟩ := List.mem_filterMap.mp hr
      exact hs (List.mem_filterMap.mpr ⟨st', List.mem_cons_of_mem _ hm, hr⟩)
    have hf : (st :: steps).filterMap Step.field? =
        st.field?.toList ++ steps.filterMap Step.field? := by
      cases hf : st.field? <;> simp [hf]
    by_cases hx : (⟨[], st, steps⟩ : Site).Separates d.engine d.schema t
    · obtain ⟨reference, hr⟩ := Option.isSome_iff_exists.mp hx.1
      refine .inr ⟨⟨_, by rw [Site.all_cons]; exact List.mem_cons_self, hx⟩, ?_⟩
      by_cases hk : d.keys.Searchable
      · have hk' : ¬ (d.withSchema t).keys.Searchable := fun hk' => hx.2 (iff_of_true hk hk')
        exact .inr (runAll_cons_of_some (fault?_of_not_searchable hk' hr) steps)
      · exact .inl (runAll_cons_of_some (fault?_of_not_searchable hk hr) steps)
    · have hf' : (d.withSchema t).fault? st = d.fault? st :=
        fault?_withSchema h hst fun hr => not_not.mp fun hn => hx ⟨hr, hn⟩
      cases hd : d.fault? st with
      | some f =>
        rw [runAll_cons_of_some (hf'.trans hd), runAll_cons_of_some hd]
        exact .inl rfl
      | none =>
        rw [runAll_cons_of_none (hf'.trans hd), runAll_cons_of_none hd, next_withSchema h hst, hf,
          Table.insertAll_append]
        rcases ih (d := d.next st) (h.insertAll st.field?.toList) hs' with hr | ⟨⟨x, hx, hs⟩, hr⟩
        · exact .inl hr
        · refine .inr ⟨⟨x.preceded [st], ?_, Site.separates_preceded_singleton_iff.mpr hs⟩, hr⟩
          rw [Site.all_cons]
          exact List.mem_cons_of_mem _ (List.mem_map_of_mem hx)

theorem build_withSchema (h : s.Extends t texts) (steps : List Step)
    (hs : steps.filterMap Step.reference? ⊆ texts) :
    build E t steps =
        (build E s steps).map (withSchema (t.insertAll (steps.filterMap Step.field?))) ∨
      (∃ x ∈ Site.all steps, x.Separates E s t) ∧
        (build E s steps = .error (.unsearchable ⟨KeySet.defaultLimit⟩) ∨
          build E t steps = .error (.unsearchable ⟨KeySet.defaultLimit⟩)) := by
  rcases runAll_withSchema (d := start E s) h steps hs with hr | ⟨hx, hr⟩
  · have hr : (start E t).runAll steps = ((start E s).runAll steps).map _ := hr
    left
    rw [build, build, hr]
    cases (start E s).runAll steps with
    | error f => rfl
    | ok d => exact finish_map (withSchema _) rfl
  · refine .inr ⟨hx, hr.imp (fun hr => ?_) fun hr => ?_⟩
    · rw [build, hr]
      rfl
    · have hr : (start E t).runAll steps = _ := hr
      rw [build, hr]
      rfl

end Draft

/-- Further fields make no difference if none of them occurs in a reference of the program or of its
mixins, whatever the order of the fields is and whatever fields the program declares itself. The
exception is that a matcher cannot be built for one of the schemas, at a declaration where it can
for the other. -/
theorem compile_extends {d : Definition} {E : Engine} {s t : Schema}
    (h : s.Extends t (d.steps.filterMap Step.reference?)) :
    (d.compile E t = d.compile E s ∨
      d.compile E s = .error ⟨d.id, .unsearchable ⟨KeySet.defaultLimit⟩⟩ ∨
      d.compile E t = .error ⟨d.id, .unsearchable ⟨KeySet.defaultLimit⟩⟩) ∧
    ((∀ x ∈ Site.all d.steps, ¬ x.Separates E s t) → d.compile E t = d.compile E s) := by
  by_cases ht : Text.trim d.title.toList = []
  · have he : d.compile E t = d.compile E s := by
      rw [Definition.compile_of_untitled ht, Definition.compile_of_untitled ht]
    exact ⟨.inl he, fun _ => he⟩
  simp only [Definition.compile_eq_map ht]
  rcases Draft.build_withSchema (E := E) h d.steps fun _ hr => hr with hb | ⟨⟨x, hx, hs⟩, hb⟩
  · have he : ((Draft.build E t d.steps).mapError (CompileError.mk d.id)).map d.styleOf =
        ((Draft.build E s d.steps).mapError (CompileError.mk d.id)).map d.styleOf := by
      rw [hb]
      cases Draft.build E s d.steps <;> rfl
    exact ⟨.inl he, fun _ => he⟩
  · refine ⟨.inr (hb.imp (fun hb => ?_) fun hb => ?_), fun hn => absurd hs (hn x hx)⟩
    · rw [hb]
      rfl
    · rw [hb]
      rfl

/-- The mixin declares a field, and the program another one again with a kind of its own. -/
def Definition.almanac : Definition where
  id := "almanac"
  title := "Almanac"
  description := none
  mixins := [⟨"parts", [.step (.field "part" .text), .step (.trait "part " [])]⟩]
  program := [.step (.trait "title. " []), .step (.field "volume" .text), .inherit 0,
    .step (.trait "(volume)" [])]

def Schema.titles : Schema := .ofList [("title", .text), ("volume", .number)]

/-- A field that has another one in it, and one that every reference has in it. -/
def Schema.subtitles : Schema :=
  .ofList [("volume", .number), ("subtitle", .text), ("", .date), ("title", .text)]

theorem Schema.titles_extends :
    Schema.titles.Extends .subtitles ["part ", "title. ", "(volume)"] where
  kept k kind h := by
    have hm : ∀ e ∈ Schema.titles.entries, Schema.subtitles.get? e.1 = some e.2 := by decide
    exact hm (k, kind) (Table.get?_eq_some_iff.mp h)
  unmentioned := by decide

theorem compile_extends_subtitles :
    Schema.titles.Extends .subtitles (Definition.almanac.steps.filterMap Step.reference?) ∧
      (∀ x ∈ Site.all Definition.almanac.steps, ¬ x.Separates .usual .titles .subtitles) ∧
      Definition.almanac.compile .usual .subtitles = .ok {
        id := "almanac"
        title := "Almanac"
        items := [.trait ⟨"part", "", " ", .text, .normal, none, .plain, 0⟩,
          .trait ⟨"title", "", ". ", .text, .normal, none, .plain, 1⟩,
          .trait ⟨"volume", "(", ")", .text, .normal, none, .plain, 2⟩]
        rules := [.required "part", .required "title", .required "volume"]
        triggers := []
        inherited := ["parts"] } := by
  have hs : Definition.almanac.steps.filterMap Step.reference? = ["part ", "title. ", "(volume)"] :=
    by cbv
  have h : Schema.titles.Extends .subtitles
      (Definition.almanac.steps.filterMap Step.reference?) := hs ▸ Schema.titles_extends
  have hx : ∀ x ∈ Site.all Definition.almanac.steps,
      ¬ x.Separates .usual .titles .subtitles := by
    have hd : Definition.almanac.steps = [.field "part" .text, .trait "part " [],
        .trait "title. " [], .field "volume" .text, .trait "(volume)" []] := by cbv
    have hk : ∀ x ∈ Site.all Definition.almanac.steps,
        24 * Engine.octets (x.schema .titles).keys ≤ KeySet.defaultLimit ∧
          24 * Engine.octets (x.schema .subtitles).keys ≤ KeySet.defaultLimit := by
      rw [hd]
      decide +kernel
    intro x hx hs
    exact hs.2 (iff_of_true (KeySet.searchable_usual_iff.mpr (hk x hx).1)
      (KeySet.searchable_usual_iff.mpr (hk x hx).2))
  refine ⟨h, hx, ((compile_extends h).2 hx).trans ?_⟩
  exact (Definition.compile_of_titled (by decide) _ _).trans (by cbv)

def Definition.headed : Definition where
  id := "headed"
  title := "Headed"
  description := none
  mixins := []
  program := [.step (.trait "title" [])]

/-- The further field is not mentioned, but its key is too long for a matcher. -/
theorem not_compile_extends_headed :
    let t : Schema := Schema.titles.insert KeySet.endlessKey .text
    Schema.titles.Extends t (Definition.headed.steps.filterMap Step.reference?) ∧
      Definition.headed.compile .usual .titles = .ok {
        id := "headed"
        title := "Headed"
        items := [.trait ⟨"title", "", "", .text, .normal, none, .plain, 0⟩]
        rules := [.required "title"]
        triggers := []
        inherited := [] } ∧
      Definition.headed.compile .usual t =
        .error ⟨"headed", .unsearchable ⟨KeySet.defaultLimit⟩⟩ := by
  intro t
  have hs : Definition.headed.steps = [.trait "title" []] := by cbv
  have hk : KeySet.endlessKey ∉ Schema.titles.keys := fun h => by
    have hl : ∀ k ∈ Schema.titles.keys, k.utf8ByteSize < 600000 := by decide
    exact KeySet.endlessKey_not_infix (hl _ h) List.infix_rfl
  have ht : ¬ KeySet.endlessKey.toList <:+: "title".toList :=
    KeySet.endlessKey_not_infix (by decide)
  have hm : ¬ (KeySet.ofSchema .usual t).Searchable :=
    KeySet.not_searchable_of_endlessKey_mem (Table.mem_keys_insert.mpr (.inl rfl))
  refine ⟨?_, (Definition.compile_of_titled (by decide) _ _).trans (by cbv), ?_⟩
  · rw [hs]
    exact Schema.extends_insert _ hk (List.forall_mem_singleton.mpr ht)
  · have hx : (⟨[], .trait "title" [], []⟩ : Site) ∈ Site.all Definition.headed.steps := by
      rw [hs]
      exact List.mem_singleton_self _
    exact Definition.compile_eq_error_iff.mpr
      ⟨rfl, .refused (by decide) hx (.unsearchable rfl hm) fun _ hy => absurd hy List.not_mem_nil⟩

end Stylebook
