import Stylebook.Proofs.Compile.Site

/-! # What a draft reflects

A draft is determined by the steps that led to it. Each of its parts is read off the sites of these
steps, and every step keeps it so.
-/

namespace Stylebook

@[simp] theorem Trait.key_apply (t : Trait) (e : TraitEdit) : (t.apply e).key = t.key := by
  cases e <;> rfl

@[simp] theorem Trait.key_applyAll (t : Trait) (edits : List TraitEdit) :
    (t.applyAll edits).key = t.key := by
  induction edits generalizing t with
  | nil => rfl
  | cons e edits ih => exact (ih (t.apply e)).trans (t.key_apply e)

theorem Trait.applyAll_append (t : Trait) (edits edits' : List TraitEdit) :
    t.applyAll (edits ++ edits') = (t.applyAll edits).applyAll edits' := List.foldl_append

@[simp] theorem TextBlock.key_apply (t : TextBlock) (e : TextEdit) : (t.apply e).key = t.key := by
  cases e <;> rfl

@[simp] theorem TextBlock.key_applyAll (t : TextBlock) (edits : List TextEdit) :
    (t.applyAll edits).key = t.key := by
  induction edits generalizing t with
  | nil => rfl
  | cons e edits ih => exact (ih (t.apply e)).trans (t.key_apply e)

namespace Item

@[simp] theorem key_trait (t : Trait) : (trait t).key = t.key := rfl

@[simp] theorem key_text (t : TextBlock) : (text t).key = t.key := rfl

@[simp] theorem isText_trait (t : Trait) : (trait t).isText = false := rfl

@[simp] theorem isText_text (t : TextBlock) : (text t).isText = true := rfl

@[simp] theorem isTrait_trait (k : String) (t : Trait) :
    (trait t).isTrait k = decide (t.key = k) := rfl

@[simp] theorem isTrait_text (k : String) (t : TextBlock) : (text t).isTrait k = false := rfl

@[simp] theorem key_onTrait (i : Item) (edits : List TraitEdit) :
    (i.onTrait (·.applyAll edits)).key = i.key := by
  cases i <;> simp [onTrait, key]

@[simp] theorem key_setVisibility (i : Item) (v : Visibility) :
    (i.setVisibility v).key = i.key := by
  cases i <;> rfl

@[simp] theorem isText_onTrait (i : Item) (edits : List TraitEdit) :
    (i.onTrait (·.applyAll edits)).isText = i.isText := by
  cases i <;> rfl

@[simp] theorem isText_setVisibility (i : Item) (v : Visibility) :
    (i.setVisibility v).isText = i.isText := by
  cases i <;> rfl

@[simp] theorem key_obey (i : Item) (st : Step) : (i.obey st).key = i.key := by
  unfold obey
  split
  · split <;> simp
  · split <;> simp
  · rfl

@[simp] theorem isText_obey (i : Item) (st : Step) : (i.obey st).isText = i.isText := by
  unfold obey
  split
  · split <;> simp
  · split <;> simp
  · rfl

@[simp] theorem key_foldl_obey (i : Item) (steps : List Step) :
    (steps.foldl obey i).key = i.key := by
  induction steps generalizing i with
  | nil => rfl
  | cons st steps ih => exact (ih (i.obey st)).trans (i.key_obey st)

@[simp] theorem isText_foldl_obey (i : Item) (steps : List Step) :
    (steps.foldl obey i).isText = i.isText := by
  induction steps generalizing i with
  | nil => rfl
  | cons st steps ih => exact (ih (i.obey st)).trans (i.isText_obey st)

theorem isTrait_iff {k : String} {i : Item} :
    i.isTrait k = true ↔ i.isText = false ∧ i.key = k := by
  cases i <;> simp

theorem isTrait_foldl_obey (k : String) (i : Item) (steps : List Step) :
    (steps.foldl obey i).isTrait k = i.isTrait k := by
  rw [Bool.eq_iff_iff, isTrait_iff, isTrait_iff, isText_foldl_obey, key_foldl_obey]

end Item

namespace Site

variable {E : Engine} {s : Schema}

theorem item?_extend (x : Site) (st : Step) :
    (x.extend st).item? s = (x.item? s).map (·.obey st) := by
  have h : (x.extend st).declared? s = x.declared? s := rfl
  simp only [item?, h, Option.map_map]
  congr 1
  funext i
  simp [extend]

theorem isTrait_item? (x : Site) (k : String) :
    (x.item? s).any (Item.isTrait k) = (x.key? s == some k) := by
  have h : (x.item? s).any (Item.isTrait k) = (x.declared? s).any (Item.isTrait k) := by
    simp [item?, Option.any_map, Item.isTrait_foldl_obey]
  rw [h, declared?, key?, reference?]
  cases x.step with
  | trait reference edits | duplicate reference edits =>
    cases hr : (x.schema s).parse? reference with
    | none => simp [Step.reference?, hr]
    | some r =>
      rw [Bool.eq_iff_iff]
      simp [Step.reference?, hr, trait]
  | text content edits => simp [Step.reference?]
  | _ => rfl

theorem key?_eq_some_iff {x : Site} {k : String} :
    x.key? s = some k ↔ ∃ i, x.item? s = some i ∧ i.isTrait k = true := by
  rw [← beq_iff_eq, ← isTrait_item?, Option.any_eq_true]

end Site

namespace Draft

variable {E : Engine} {s : Schema} {steps : List Step} {d : Draft} {st : Step} {k : String}

theorem isSome_item? (h : d.fault? st = none) : (d.item? st).isSome = st.declares := by
  cases st with
  | trait reference edits | duplicate reference edits =>
    obtain ⟨r, hr⟩ := exists_parse?_of_fault? h rfl
    simp [item?, hr, Step.declares, Step.reference?]
  | _ => rfl

theorem countP_isText_item? (d : Draft) (st : Step) :
    (d.item? st).toList.countP Item.isText = [st].countP Step.isText := by
  cases st with
  | trait reference edits | duplicate reference edits =>
    cases hr : d.schema.parse? reference <;> simp [item?, hr, Step.isText]
  | text content edits => simp [item?, Step.isText]
  | _ => rfl

/-- A draft is what the sites of the steps make of an empty draft. -/
structure Reflects (E : Engine) (s : Schema) (steps : List Step) (d : Draft) : Prop where
  engine : d.engine = E
  schema : d.schema = s.insertAll (steps.filterMap Step.field?)
  displays : d.displays = Table.empty.insertAll (steps.filterMap Step.display?)
  settings : d.settings = steps.filterMap Step.setting?
  triggers : d.triggers = steps.filterMap Step.trigger?
  length : d.items.length = steps.countP Step.declares
  texts : d.items.countP Item.isText = steps.countP Step.isText
  items : d.items = (Site.all steps).filterMap (Site.item? s)
  rules : d.rules = (Site.all steps).filterMap (Site.rule? s)
  declared : ∀ x ∈ Site.all steps, x.step.declares = true → (x.item? s).isSome

namespace Reflects

theorem newTrait_eq (h : Reflects E s steps d) (st : Step) (r : Reference) :
    d.newTrait r = (⟨steps, st, []⟩ : Site).trait s r := by
  simp [newTrait, Draft.visibility, Site.trait, Site.kind, Site.visibility, Site.order, h.schema,
    h.displays, h.length, Table.get?_insertAll]

theorem newText_eq (h : Reflects E s steps d) (st : Step) (content : String) :
    d.newText content = (⟨steps, st, []⟩ : Site).text content := by
  simp [newText, Draft.visibility, Site.text, Site.visibility, Site.order, h.displays, h.length,
    h.texts, Table.get?_insertAll]

theorem settingsFor_eq (h : Reflects E s steps d) (st : Step) (k : String) :
    d.settingsFor k = (⟨steps, st, []⟩ : Site).settings k := by
  simp [settingsFor, Site.settings, h.settings]

theorem item?_eq (h : Reflects E s steps d) (st : Step) :
    d.item? st = (⟨steps, st, []⟩ : Site).item? s := by
  simp only [Site.item?, List.foldl_nil, Option.map_id']
  cases st with
  | trait reference edits =>
    have ht := h.newTrait_eq (.trait reference edits)
    have hs := h.settingsFor_eq (.trait reference edits)
    simp [Draft.item?, Site.declared?, Site.reference?, Step.reference?, Site.schema, h.schema,
      ht, hs, Trait.applyAll_append]
  | duplicate reference edits =>
    have ht := h.newTrait_eq (.duplicate reference edits)
    have hs := h.settingsFor_eq (.duplicate reference edits)
    simp [Draft.item?, Site.declared?, Site.reference?, Step.reference?, Site.schema, h.schema,
      ht, hs, Trait.applyAll_append]
  | text content edits =>
    simp [Draft.item?, Site.declared?, h.newText_eq (.text content edits)]
  | _ => rfl

theorem hasTrait_iff (h : Reflects E s steps d) :
    d.hasTrait k = true ↔ k ∈ (Site.all steps).filterMap (Site.key? s) := by
  rw [hasTrait, h.items, List.any_eq_true]
  constructor
  · rintro ⟨i, hi, hk⟩
    obtain ⟨x, hx, hxi⟩ := List.mem_filterMap.mp hi
    exact List.mem_filterMap.mpr ⟨x, hx, Site.key?_eq_some_iff.mpr ⟨i, hxi, hk⟩⟩
  · intro hk
    obtain ⟨x, hx, hxk⟩ := List.mem_filterMap.mp hk
    obtain ⟨i, hxi, hi⟩ := Site.key?_eq_some_iff.mp hxk
    exact ⟨i, List.mem_filterMap.mpr ⟨x, hx, hxi⟩, hi⟩

theorem rule?_eq (h : Reflects E s steps d) (st : Step) :
    d.rule? st = (⟨steps, st, []⟩ : Site).rule? s := by
  have hb (reference : String) : ((d.schema.parse? reference).bind fun r =>
      if d.hasTrait r.key then none else some (Rule.required r.key)) =
      ((Schema.parse? (s.insertAll (steps.filterMap Step.field?)) reference).map Reference.key).bind
        fun k => if k ∈ (Site.all steps).filterMap (Site.key? s) then none
          else some (Rule.required k) := by
    rw [h.schema, Option.bind_map]
    congr 1
    funext r
    simp only [h.hasTrait_iff, Function.comp]
  cases st with
  | trait reference edits => exact hb reference
  | duplicate reference edits => exact hb reference
  | _ => rfl

theorem start (E : Engine) (s : Schema) : Reflects E s [] (start E s) := by
  constructor <;> simp [Draft.start, Site.all, Site.allFrom]

theorem next (h : Reflects E s steps d) (hf : d.fault? st = none) :
    Reflects E s (steps ++ [st]) (d.next st) where
  engine := h.engine
  schema := by
    rw [Draft.next, h.schema, filterMap_append_singleton, Table.insertAll_append]
  displays := by
    rw [Draft.next, h.displays, filterMap_append_singleton, Table.insertAll_append]
  settings := by
    rw [Draft.next, h.settings, filterMap_append_singleton]
  triggers := by
    rw [Draft.next, h.triggers, filterMap_append_singleton]
  length := by
    have hd := isSome_item? hf
    simp only [Draft.next, List.length_append, List.length_map, List.countP_append, h.length]
    cases hi : d.item? st <;> simp_all
  texts := by
    have hm : (d.items.map (·.obey st)).countP Item.isText = d.items.countP Item.isText := by
      simp [List.countP_map, Function.comp_def]
    simp only [Draft.next, List.countP_append, hm, h.texts, countP_isText_item?]
  items := by
    have hx : (Site.all steps).filterMap (fun x => (x.extend st).item? s) =
        d.items.map (·.obey st) := by
      simp only [Site.item?_extend, h.items, List.map_filterMap]
    rw [Site.all_append_singleton, filterMap_append_singleton, List.filterMap_map]
    simp only [Function.comp_def, hx, Draft.next, h.item?_eq st]
  rules := by
    rw [Site.filterMap_all_append_singleton (f := Site.rule? s) fun _ _ => rfl]
    simp only [Draft.next, h.rules, h.rule?_eq st]
  declared := by
    intro x hx hd
    rw [Site.all_append_singleton, List.mem_append, List.mem_map, List.mem_singleton] at hx
    rcases hx with ⟨y, hy, rfl⟩ | rfl
    · rw [Site.item?_extend, Option.isSome_map]
      exact h.declared y hy hd
    · rw [← h.item?_eq st, isSome_item? hf]
      exact hd

theorem of_runAll (h : (Draft.start E s).runAll steps = .ok d) : Reflects E s steps d :=
  runAll_induction (.start E s) (fun _ _ _ h hf => h.next hf) h

end Reflects

end Draft

end Stylebook
