import Mathlib
import Stylebook.Proofs.Compile.Reflection
import Stylebook.Proofs.Mixins.Expansion
import Stylebook.Proofs.Reference.Leftmost

/-! # Which fault is reported

A compilation reports the first declaration that is refused, whatever comes after it. A declaration
is refused first of all where there is no matcher for the keys that are known. If none is refused,
the first key is reported that was shown or hidden and names no item, with the last call for it.
-/

namespace Stylebook

theorem Text.trim_eq_nil_iff {s : String} : trim s.toList = [] ↔ allBlank s = true := by
  have h (cs : List Char) : (∀ c ∈ cs.dropWhile isBlank, isBlank c = true) ↔
      ∀ c ∈ cs, isBlank c = true := by
    refine ⟨fun hd c hc => ?_, fun hc c hd => hc c (List.dropWhile_subset _ hd)⟩
    rw [← List.takeWhile_append_dropWhile (p := isBlank) (l := cs)] at hc
    exact (List.mem_append.mp hc).elim List.mem_takeWhile_imp (hd c)
  simp [trim, trimStart, allBlank, h]

namespace Site

variable {E : Engine} {s : Schema} {x : Site} {f : Fault} {st : Step}

/-- The keys that a reference is read with at the site. -/
def keys (E : Engine) (s : Schema) (x : Site) : KeySet := .ofSchema E (x.schema s)

/-- The fault that a declaration is refused for where it stands. -/
inductive Refused (E : Engine) (s : Schema) (x : Site) : Fault → Prop where

  | unsearchable {reference : String} :
      x.step.reference? = some reference → ¬ (x.keys E s).Searchable →
      Refused E s x (.unsearchable ⟨KeySet.defaultLimit⟩)

  | malformed {reference : String} :
      x.step.reference? = some reference → (x.keys E s).Searchable →
      (∀ p k q, k ∈ (x.schema s).keys → k ≠ "" → p ++ k ++ q ≠ reference) →
      Refused E s x (.malformed reference)

  | duplicate {reference : String} {edits : List TraitEdit} {k : String} :
      x.step = .trait reference edits → (x.keys E s).Searchable → x.key? s = some k →
      (∃ y ∈ all x.before, y.key? s = some k) →
      Refused E s x (.duplicate k reference)

/-- Where a declaration is not refused there is a matcher. -/
theorem searchable_of_not_refused (h : ∀ f, ¬ x.Refused E s f) {reference : String}
    (hr : x.step.reference? = some reference) : (x.keys E s).Searchable :=
  not_not.mp fun hm => h _ (.unsearchable hr hm)

theorem not_refused_of_reference?_eq_none (h : x.step.reference? = none) : ¬ x.Refused E s f := by
  rintro (⟨hr, -⟩ | ⟨hr, -, -⟩ | ⟨hs, -, -, -⟩)
  · cases h.symm.trans hr
  · cases h.symm.trans hr
  · rw [hs] at h
    cases h

/-- No declaration among the steps is refused. -/
def Sound (E : Engine) (s : Schema) (steps : List Step) : Prop :=
  ∀ x ∈ all steps, ∀ f, ¬ x.Refused E s f

theorem refused_extend_iff : (x.extend st).Refused E s f ↔ x.Refused E s f := by
  constructor <;> rintro (⟨hr, hm⟩ | ⟨hr, hm, hk⟩ | ⟨hs, hm, hk, hy⟩)
  · exact .unsearchable hr hm
  · exact .malformed hr hm hk
  · exact .duplicate hs hm hk hy
  · exact .unsearchable hr hm
  · exact .malformed hr hm hk
  · exact .duplicate hs hm hk hy

theorem sound_append_singleton_iff {steps : List Step} :
    Sound E s (steps ++ [st]) ↔
      Sound E s steps ∧ ∀ f, ¬ (⟨steps, st, []⟩ : Site).Refused E s f := by
  simp [Sound, all_append_singleton, or_imp, forall_and, refused_extend_iff]

end Site

namespace Draft

open Site

variable {E : Engine} {s : Schema} {steps : List Step} {d : Draft} {st : Step} {f : Fault}

namespace Reflects

theorem key?_eq (h : Reflects E s steps d) (st : Step) :
    (⟨steps, st, []⟩ : Site).key? s = (st.reference? >>= d.schema.parse?).map Reference.key := by
  rw [h.schema]
  rfl

theorem keys_eq (h : Reflects E s steps d) (st : Step) :
    (⟨steps, st, []⟩ : Site).keys E s = d.keys := by
  rw [Site.keys, Draft.keys, h.engine, h.schema]
  rfl

theorem fault?_of_refused (h : Reflects E s steps d)
    (hf : (⟨steps, st, []⟩ : Site).Refused E s f) : d.fault? st = some f := by
  have hs : (⟨steps, st, []⟩ : Site).schema s = d.schema := h.schema.symm
  cases hf with
  | unsearchable hr hm => exact fault?_of_not_searchable (h.keys_eq st ▸ hm) hr
  | malformed hr hm hk =>
    have hp := Schema.parse?_eq_none_iff.mpr hk
    rw [hs] at hp
    rw [fault?_eq_objection? (.inl (h.keys_eq st ▸ hm))]
    cases st <;> cases hr <;> simp [objection?, hp]
  | duplicate hst hm hk hy =>
    cases hst
    rw [h.key?_eq] at hk
    obtain ⟨r, hr, rfl⟩ := Option.map_eq_some_iff.mp hk
    have hr : d.schema.parse? _ = some r := hr
    have hd := h.hasTrait_iff.mpr (List.mem_filterMap.mpr hy)
    rw [fault?_eq_objection? (.inl (h.keys_eq _ ▸ hm))]
    simp [objection?, hr, hd]

/-- An objection is one where the step stands, if there is a matcher. -/
theorem refused_of_objection? (h : Reflects E s steps d) (hm : d.keys.Searchable)
    (hf : d.objection? st = some f) : (⟨steps, st, []⟩ : Site).Refused E s f := by
  have hs : (⟨steps, st, []⟩ : Site).schema s = d.schema := h.schema.symm
  have hm : ((⟨steps, st, []⟩ : Site).keys E s).Searchable := h.keys_eq st ▸ hm
  have hn {reference : String} (hr : d.schema.parse? reference = none) :
      ∀ p k q, k ∈ ((⟨steps, st, []⟩ : Site).schema s).keys → k ≠ "" → p ++ k ++ q ≠ reference :=
    Schema.parse?_eq_none_iff.mp (hs ▸ hr)
  cases st with
  | trait reference edits =>
    cases hr : d.schema.parse? reference with
    | none =>
      simp only [objection?, hr] at hf
      cases hf
      exact .malformed rfl hm (hn hr)
    | some r =>
      simp only [objection?, hr] at hf
      split at hf
      · next hd =>
        cases hf
        refine .duplicate rfl hm ?_ (List.mem_filterMap.mp (h.hasTrait_iff.mp hd))
        simp [h.key?_eq, Step.reference?, hr]
      · cases hf
  | duplicate reference edits =>
    simp only [objection?] at hf
    split at hf
    · next hr =>
      cases hf
      exact .malformed rfl hm (hn (by simpa using hr))
    · cases hf
  | _ => cases hf

theorem refused_of_fault? (h : Reflects E s steps d) (hf : d.fault? st = some f) :
    (⟨steps, st, []⟩ : Site).Refused E s f := by
  by_cases hm : d.keys.Searchable
  · exact h.refused_of_objection? hm ((fault?_eq_objection? (.inl hm)).symm.trans hf)
  · cases hr : st.reference? with
    | none => cases st <;> cases hr <;> cases hf
    | some reference =>
      rw [fault?_of_not_searchable hm hr] at hf
      cases hf
      exact .unsearchable hr (h.keys_eq st ▸ hm)

theorem fault?_eq_some_iff (h : Reflects E s steps d) :
    d.fault? st = some f ↔ (⟨steps, st, []⟩ : Site).Refused E s f :=
  ⟨h.refused_of_fault?, h.fault?_of_refused⟩

end Reflects

/-- Some item that the steps declare has the key. -/
def Names (s : Schema) (steps : List Step) (k : String) : Prop :=
  ∃ x ∈ all steps, ∃ i, x.item? s = some i ∧ i.key = k

/-- Of the keys that are shown or hidden, `k` is the first that names no item, and it is shown or
hidden last by a call with `on`. -/
structure Unmatched (s : Schema) (steps : List Step) (k : String) (on : Bool) : Prop where
  first : ∃ before on₀ after, steps.filterMap Step.display? = before ++ (k, on₀) :: after ∧
    ∀ e ∈ before, Names s steps e.1
  unnamed : ¬ Names s steps k
  last : Table.lastFor k (steps.filterMap Step.display?) = some on

namespace Reflects

theorem all_ne_iff (h : Reflects E s steps d) (k : String) :
    d.items.all (·.key ≠ k) = true ↔ ¬ Names s steps k := by
  rw [List.all_eq_true, h.items]
  constructor
  · rintro ha ⟨x, hx, i, hi, hk⟩
    exact of_decide_eq_true (ha i (List.mem_filterMap.mpr ⟨x, hx, hi⟩)) hk
  · intro hn i hi
    obtain ⟨x, hx, hxi⟩ := List.mem_filterMap.mp hi
    exact decide_eq_true fun hk => hn ⟨x, hx, i, hxi, hk⟩

theorem find?_displays_eq_some_iff (h : Reflects E s steps d) {k : String} {on : Bool} :
    d.displays.entries.find? (fun e => d.items.all (·.key ≠ e.1)) = some (k, on) ↔
      Unmatched s steps k on := by
  rw [h.displays, Table.find?_entries_insertAll (p := fun k => d.items.all (·.key ≠ k))]
  simp only [← Bool.not_eq_true, h.all_ne_iff, not_not]
  exact ⟨fun ⟨hf, hk, hl⟩ => ⟨hf, hk, hl⟩, fun ⟨hf, hk, hl⟩ => ⟨hf, hk, hl⟩⟩

theorem find?_displays_eq_none_iff (h : Reflects E s steps d) :
    d.displays.entries.find? (fun e => d.items.all (·.key ≠ e.1)) = none ↔
      ∀ e ∈ steps.filterMap Step.display?, Names s steps e.1 := by
  rw [h.displays, Table.find?_entries_insertAll_eq_none (p := fun k => d.items.all (·.key ≠ k))]
  simp only [← Bool.not_eq_true, h.all_ne_iff, not_not]

theorem finish_eq_error_iff (h : Reflects E s steps d) :
    d.finish = .error f ↔ ∃ k on, Unmatched s steps k on ∧ .unmatched k on = f := by
  simp only [← h.find?_displays_eq_some_iff, finish]
  cases d.displays.entries.find? fun e => d.items.all (·.key ≠ e.1) with
  | none => simp
  | some e =>
    obtain ⟨k, on⟩ := e
    simp only [Except.error.injEq, Option.some.injEq, Prod.mk.injEq]
    constructor
    · exact fun hf => ⟨k, on, ⟨rfl, rfl⟩, hf⟩
    · rintro ⟨_, _, ⟨rfl, rfl⟩, hf⟩
      exact hf

theorem finish_eq_ok_iff (h : Reflects E s steps d) :
    d.finish = .ok d ↔ ∀ e ∈ steps.filterMap Step.display?, Names s steps e.1 := by
  rw [← h.find?_displays_eq_none_iff, finish]
  cases d.displays.entries.find? fun e => d.items.all (·.key ≠ e.1) <;> simp

end Reflects

theorem runAll_append_singleton (d : Draft) (steps : List Step) (st : Step) :
    d.runAll (steps ++ [st]) = d.runAll steps >>= (·.run st) := by
  rw [runAll_append]
  congr 1
  funext d'
  simp [runAll]

/-- Steps make a draft if no declaration among them is refused. -/
theorem runAll_eq_ok_iff : (∃ d, (start E s).runAll steps = .ok d) ↔ Sound E s steps := by
  induction steps using List.reverseRecOn with
  | nil => simp [runAll, pure, Except.pure, Sound, all, allFrom]
  | append_singleton steps st ih =>
    rw [runAll_append_singleton, sound_append_singleton_iff, ← ih]
    cases hd : (start E s).runAll steps with
    | error f => simp [bind, Except.bind]
    | ok d =>
      have hr : Reflects E s steps d := .of_runAll hd
      simp only [← hr.fault?_eq_some_iff, bind, Except.bind, run_eq]
      cases d.fault? st <;> simp

/-- Steps end with the fault of the first declaration that is refused. -/
theorem runAll_eq_error_iff : (start E s).runAll steps = .error f ↔
    ∃ x ∈ all steps, x.Refused E s f ∧ Sound E s x.before := by
  induction steps using List.reverseRecOn with
  | nil => simp [runAll, pure, Except.pure, all, allFrom]
  | append_singleton steps st ih =>
    have hx : (∃ x ∈ all (steps ++ [st]), x.Refused E s f ∧ Sound E s x.before) ↔
        (∃ x ∈ all steps, x.Refused E s f ∧ Sound E s x.before) ∨
          (⟨steps, st, []⟩ : Site).Refused E s f ∧ Sound E s steps := by
      simp only [all_append_singleton, List.mem_append, List.mem_map, List.mem_singleton,
        or_and_right, exists_or, exists_eq_left, exists_exists_and_eq_and, refused_extend_iff]
      rfl
    rw [hx, ← ih, ← runAll_eq_ok_iff, runAll_append_singleton]
    cases hd : (start E s).runAll steps with
    | error g => simp [bind, Except.bind]
    | ok d =>
      have hr : Reflects E s steps d := .of_runAll hd
      simp only [← hr.fault?_eq_some_iff, bind, Except.bind, run_eq]
      cases d.fault? st <;> simp

theorem build_eq_error_iff : (start E s).runAll steps >>= finish = .error f ↔
    (∃ x ∈ all steps, x.Refused E s f ∧ Sound E s x.before) ∨
      Sound E s steps ∧ ∃ k on, Unmatched s steps k on ∧ .unmatched k on = f := by
  rw [← runAll_eq_error_iff, ← runAll_eq_ok_iff]
  cases hd : (start E s).runAll steps with
  | error g => simp [bind, Except.bind]
  | ok d =>
    have hr : Reflects E s steps d := .of_runAll hd
    simp only [← hr.finish_eq_error_iff, bind, Except.bind]
    simp

theorem build_eq_ok_iff : (∃ d, (start E s).runAll steps >>= finish = .ok d) ↔
    Sound E s steps ∧ ∀ e ∈ steps.filterMap Step.display?, Names s steps e.1 := by
  rw [← runAll_eq_ok_iff]
  cases hd : (start E s).runAll steps with
  | error g => simp [bind, Except.bind]
  | ok d =>
    have hr : Reflects E s steps d := .of_runAll hd
    simp only [← hr.finish_eq_ok_iff, bind, Except.bind]
    constructor
    · rintro ⟨d', hf⟩
      obtain rfl := d.finish_eq_ok hf
      exact ⟨⟨d, rfl⟩, hf⟩
    · exact fun ⟨_, hf⟩ => ⟨d, hf⟩

end Draft

open Site Draft

namespace Definition

variable {d : Definition} {E : Engine} {s : Schema} {f : Fault} {e : CompileError}

/-- The fault that is to be reported. -/
inductive Blames (d : Definition) (E : Engine) (s : Schema) : Fault → Prop where

  | untitled : Text.trim d.title.toList = [] → Blames d E s .untitled

  | refused {x : Site} {f : Fault} :
      Text.trim d.title.toList ≠ [] → x ∈ all d.steps → x.Refused E s f → Sound E s x.before →
      Blames d E s f

  | unmatched {k : String} {on : Bool} :
      Text.trim d.title.toList ≠ [] → Sound E s d.steps → Unmatched s d.steps k on →
      Blames d E s (.unmatched k on)

theorem blames_of_untitled (h : Text.trim d.title.toList = []) :
    d.Blames E s f ↔ f = .untitled := by
  constructor
  · rintro (_ | ⟨hn, _, _, _⟩ | ⟨hn, _, _⟩)
    · rfl
    · exact absurd h hn
    · exact absurd h hn
  · rintro rfl
    exact .untitled h

theorem blames_of_titled (h : Text.trim d.title.toList ≠ []) :
    d.Blames E s f ↔ (start E s).runAll d.steps >>= finish = .error f := by
  rw [build_eq_error_iff]
  constructor
  · rintro (hn | ⟨_, hx, hr, hb⟩ | ⟨_, hs, hu⟩)
    · exact absurd hn h
    · exact .inl ⟨_, hx, hr, hb⟩
    · exact .inr ⟨hs, _, _, hu, rfl⟩
  · rintro (⟨x, hx, hr, hb⟩ | ⟨hs, k, on, hu, rfl⟩)
    · exact .refused h hx hr hb
    · exact .unmatched h hs hu

theorem compile_of_untitled (h : Text.trim d.title.toList = []) (E : Engine) (s : Schema) :
    d.compile E s = .error ⟨d.id, .untitled⟩ := if_pos (Text.trim_eq_nil_iff.mp h)

theorem compile_eq_build (h : Text.trim d.title.toList ≠ []) (E : Engine) (s : Schema) :
    d.compile E s = match (start E s).runAll d.steps >>= finish with
      | .error f => .error ⟨d.id, f⟩
      | .ok dr => .ok (d.styleOf dr) := by
  have ht : Text.allBlank d.title = false := by simpa [Text.trim_eq_nil_iff] using h
  exact (compile_of_titled ht E s).trans (d.finish_run_calls E s)

theorem compile_eq_error_iff :
    d.compile E s = .error e ↔ e.style = d.id ∧ d.Blames E s e.fault := by
  obtain ⟨id, f⟩ := e
  by_cases h : Text.trim d.title.toList = []
  · simp [compile_of_untitled h, blames_of_untitled h, eq_comm]
  · rw [compile_eq_build h, blames_of_titled h]
    cases (start E s).runAll d.steps >>= finish <;> simp [eq_comm]

theorem exists_compile_iff : (∃ st, d.compile E s = .ok st) ↔
    Text.trim d.title.toList ≠ [] ∧ Sound E s d.steps ∧
      ∀ e ∈ d.steps.filterMap Step.display?, Names s d.steps e.1 := by
  by_cases h : Text.trim d.title.toList = []
  · simp [compile_of_untitled h, h]
  · rw [compile_eq_build h, ← build_eq_ok_iff]
    cases (start E s).runAll d.steps >>= finish <;> simp [h]

end Definition

/-- A definition without a title is refused as such. Any other is refused for its first faulty
declaration, then for the first key that was shown or hidden and names no item, and else compiles.
A builder that has met a fault stays as it is, whatever is called. -/
theorem compile_blames (d : Definition) (E : Engine) (s : Schema) :
    (∀ e, d.compile E s = .error e ↔ e.style = d.id ∧ d.Blames E s e.fault) ∧
    ((∃ st, d.compile E s = .ok st) ↔ Text.trim d.title.toList ≠ [] ∧ Sound E s d.steps ∧
      ∀ e ∈ d.steps.filterMap Step.display?, Names s d.steps e.1) ∧
    ∀ (b : Builder) (f : Fault), b.draft = .error f → ∀ ms cs id title,
      b.run ms cs = b ∧ b.finish id title = .error ⟨id, f⟩ := by
  refine ⟨fun e => Definition.compile_eq_error_iff, Definition.exists_compile_iff, ?_⟩
  intro b f hb ms cs id title
  exact ⟨b.run_of_error hb cs, by rw [Builder.finish, hb]; rfl⟩

/-- Two keys that no item has, the first of them hidden by a mixin and shown later on. -/
def Definition.hasty : Definition where
  id := "hasty"
  title := "Hasty"
  description := none
  mixins := [⟨"house", [.step (.display "volume" false)]⟩]
  program := [.step (.display "issue" true), .step (.trait "(title)" []), .inherit 0,
    .step (.display "title" false), .step (.display "volume" true)]

theorem compile_blames_hasty :
    Definition.hasty.compile .usual .bibliographic = .error ⟨"hasty", .unmatched "volume" true⟩ ∧
      Definition.hasty.Blames .usual .bibliographic (.unmatched "volume" true) ∧
      (⟨[], .error (.malformed "x")⟩ : Builder).run Definition.hasty.mixins
        [.inherit 0, .step (.trait "title" [])] = ⟨[], .error (.malformed "x")⟩ := by
  have h : Definition.hasty.compile .usual .bibliographic =
      .error ⟨"hasty", .unmatched "volume" true⟩ :=
    (Definition.compile_of_titled (by decide) _ _).trans (by cbv)
  obtain ⟨he, -, hl⟩ := compile_blames .hasty .usual .bibliographic
  exact ⟨h, ((he _).mp h).2, (hl _ _ rfl _ _ "" "").1⟩

/-- A trait, and before it a field that it does not need. -/
def Definition.spare (k : String) : Definition where
  id := "spare"
  title := "Spare"
  description := none
  mixins := []
  program := [.step (.field k .text), .step (.trait "title" [])]

theorem Definition.sites_spare (k : String) : all (Definition.spare k).steps =
    [⟨[], .field k .text, [.trait "title" []]⟩, ⟨[.field k .text], .trait "title" [], []⟩] := by
  have hs : (Definition.spare k).steps = [.field k .text, .trait "title" []] := by cbv
  rw [hs]
  rfl

/-- No reference lacks a known key, no trait comes after another one, and no key is shown or hidden,
but the key of the field is too long for a matcher. -/
theorem not_compile_blames_spare :
    let d := Definition.spare KeySet.endlessKey
    Text.trim d.title.toList ≠ [] ∧
      (∀ x ∈ all d.steps, ∀ r, x.step.reference? = some r →
        ∃ p k q, k ∈ (x.schema .bibliographic).keys ∧ k ≠ "" ∧ p ++ k ++ q = r) ∧
      (∀ x ∈ all d.steps, ∀ y ∈ all x.before, y.key? .bibliographic = none) ∧
      (∀ x ∈ all d.steps, x.step.display? = none) ∧
      d.compile .usual .bibliographic =
        .error ⟨"spare", .unsearchable ⟨KeySet.defaultLimit⟩⟩ := by
  intro d
  have ht : Text.trim d.title.toList ≠ [] := by decide
  have hk {k : String} (h : k = KeySet.endlessKey ∨ k ∈ Schema.bibliographic.keys) :
      k ∈ (Schema.bibliographic.insertAll [(KeySet.endlessKey, .text)]).keys :=
    Table.mem_keys_insertAll.mpr (h.imp_left fun h => ⟨.text, by simp [h]⟩)
  have hr : (⟨[.field KeySet.endlessKey .text], .trait "title" [], []⟩ : Site).Refused .usual
      .bibliographic (.unsearchable ⟨KeySet.defaultLimit⟩) :=
    .unsearchable rfl (KeySet.not_searchable_of_endlessKey_mem (hk (.inl rfl)))
  have hs : Sound .usual .bibliographic [.field KeySet.endlessKey .text] := by
    intro x hx f
    obtain rfl := List.mem_singleton.mp hx
    exact not_refused_of_reference?_eq_none rfl
  simp only [d, Definition.sites_spare, List.forall_mem_cons]
  refine ⟨ht, ⟨nofun, ?_, nofun⟩, ⟨nofun, ?_, nofun⟩, ⟨rfl, rfl, nofun⟩, ?_⟩
  · rintro _ ⟨⟩
    exact ⟨"", "title", "", hk (.inr (by decide)), by decide, by decide⟩
  · intro y hy
    obtain rfl := List.mem_singleton.mp hy
    rfl
  · refine Definition.compile_eq_error_iff.mpr ⟨rfl, .refused ht ?_ hr hs⟩
    simp [Definition.sites_spare]

end Stylebook
