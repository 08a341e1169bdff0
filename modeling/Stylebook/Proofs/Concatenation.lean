import Mathlib
import Stylebook.Proofs.Compile.Append
import Stylebook.Proofs.Compile.Structure
import Stylebook.Proofs.Reads

/-! # Styles one after the other

The steps of two styles that name different keys make one style. It reports the problems of the
first style and then those of the second, and is written as the first and then the second.
-/

namespace Stylebook

open Item (Twin)

namespace Item

variable {xs ys items items' : List Item} {k : String} {c : Prop} {r : Record}

theorem edit_of_ne (h : ∀ i ∈ items, i.key ≠ k) (f : Item → Item) : edit k f items = items :=
  (List.map_congr_left fun i hi => if_neg (h i hi)).trans (List.map_id _)

theorem named_of_ne (h : ∀ i ∈ items, i.key ≠ k) : named k items = [] :=
  List.filter_eq_nil_iff.mpr fun i hi => by simp [h i hi]

theorem visibleTraits_append (k : String) (xs ys : List Item) :
    visibleTraits k (xs ++ ys) = visibleTraits k xs ++ visibleTraits k ys := by
  simp [visibleTraits]

theorem visibleTraits_of_ne (h : ∀ i ∈ items, i.key ≠ k) : visibleTraits k items = [] := by
  refine List.filter_eq_nil_iff.mpr fun t ht => ?_
  obtain ⟨i, hi, hit⟩ := List.mem_filterMap.mp ht
  cases i with
  | trait t' =>
    cases hit
    have hk : t.key ≠ k := h _ hi
    simp [hk]
  | text b => cases hit

/-- The traits of twins are told apart by their numbers alone. -/
theorem any_visibleTraits_twin (h : List.Forall₂ (Twin c) items items') {p : Trait → Bool}
    (hp : ∀ t n, p { t with order := n } = p t) (k : String) :
    (visibleTraits k items').any p = (visibleTraits k items).any p := by
  induction h with
  | nil => rfl
  | @cons i j items items' hij _ ih =>
    cases hij with
    | text hb hb' hv hc => exact ih
    | trait t n =>
      simp only [visibleTraits, trait?, List.filterMap_cons, List.filter_cons] at ih ⊢
      split
      · simp only [List.any_cons, hp, ih]
      · exact ih

theorem chunks_twin (h : List.Forall₂ (Twin c) items items') (hc : c) (r : Record) :
    (items'.filter (·.visibility.isVisible)).flatMap (·.chunks r) =
      (items.filter (·.visibility.isVisible)).flatMap (·.chunks r) := by
  induction h with
  | nil => rfl
  | @cons i j items items' hij _ ih =>
    have hv : j.visibility = i.visibility := by
      cases hij with
      | trait t n => rfl
      | text hb hb' hv hc => exact hv
    have ht : j.chunks r = i.chunks r := by
      cases hij with
      | trait t n => rfl
      | text hb hb' hv hc' => rw [chunks, chunks, hc' hc]
    rw [List.filter_cons, List.filter_cons, hv]
    split
    · rw [List.flatMap_cons, List.flatMap_cons, ht, ih]
    · exact ih

end Item

namespace Item

/-- Twins are traits of one key, or text blocks. -/
theorem key_mem_of_twin {c : Prop} {K : List String} {items items' : List Item}
    (h : List.Forall₂ (Twin c) items items') (hk : ∀ i ∈ items, i.key ∈ K ∨ IsTextKey i.key) :
    ∀ j ∈ items', j.key ∈ K ∨ IsTextKey j.key := by
  induction h with
  | nil => exact fun j hj => absurd hj List.not_mem_nil
  | @cons i j items items' hij _ ih =>
    rw [List.forall_mem_cons] at hk ⊢
    refine ⟨?_, ih hk.2⟩
    cases hij with
    | trait t n => exact hk.1
    | text hb hb' hv hc => exact .inr hb'

end Item

namespace Edit

variable {xs ys items items' : List Item} {e : Edit} {es : List Edit} {c : Prop}

theorem apply_append_of_right (h : ∀ j ∈ ys, j.key ≠ e.key) :
    apply (xs ++ ys) e = apply xs e ++ ys := by
  have hn : Item.named e.key (xs ++ ys) = Item.named e.key xs := by
    rw [Item.named, List.filter_append, ← Item.named, ← Item.named, Item.named_of_ne h,
      List.append_nil]
  rw [apply_eq_edit, apply_eq_edit, ← onItem_named, hn, onItem_named, Item.edit, List.map_append,
    ← Item.edit, ← Item.edit, Item.edit_of_ne h]

theorem apply_append_of_left (h : ∀ i ∈ xs, i.key ≠ e.key) :
    apply (xs ++ ys) e = xs ++ apply ys e := by
  have hn : Item.named e.key (xs ++ ys) = Item.named e.key ys := by
    rw [Item.named, List.filter_append, ← Item.named, ← Item.named, Item.named_of_ne h,
      List.nil_append]
  rw [apply_eq_edit, apply_eq_edit, ← onItem_named, hn, onItem_named, Item.edit, List.map_append,
    ← Item.edit, ← Item.edit, Item.edit_of_ne h]

theorem run_append_of_right (h : ∀ e ∈ es, ∀ j ∈ ys, j.key ≠ e.key) :
    es.foldl apply (xs ++ ys) = es.foldl apply xs ++ ys := by
  induction es generalizing xs with
  | nil => rfl
  | cons e es ih =>
    rw [List.foldl_cons, apply_append_of_right (h e List.mem_cons_self)]
    exact ih fun e' he => h e' (List.mem_cons_of_mem _ he)

theorem run_append_of_left (h : ∀ e ∈ es, ∀ i ∈ xs, i.key ≠ e.key) :
    es.foldl apply (xs ++ ys) = xs ++ es.foldl apply ys := by
  induction es generalizing ys with
  | nil => rfl
  | cons e es ih =>
    rw [List.foldl_cons, apply_append_of_left (h e List.mem_cons_self)]
    exact ih fun e' he => h e' (List.mem_cons_of_mem _ he)

/-- A call does the same to the items of two programs, as it reads no text block. -/
theorem onItem_twin (h : List.Forall₂ (Twin c) items items') (hk : ¬ IsTextKey e.key) :
    e.onItem items' = e.onItem items := by
  cases e with
  | extendAfter k s =>
    have hx : extended? items' k s = extended? items k s := by
      have hf : Option.Rel (Twin c) (items.find? (·.key = k)) (items'.find? (·.key = k)) :=
        Item.twin_find? h hk
      rw [extended?, extended?]
      generalize items.find? (·.key = k) = o, items'.find? (·.key = k) = o' at hf
      cases hf with
      | none => rfl
      | some hij => cases hij <;> rfl
    rw [onItem, onItem, hx]
  | _ => rfl

theorem twin_onItem {i j : Item} (h : Twin c i j) (e : Edit) (items : List Item) :
    Twin c (e.onItem items i) (e.onItem items j) := by
  cases e with
  | patch k p => exact h.merge p
  | configure k edits => exact h.onTrait edits
  | display k on => exact h.setVisibility _
  | extendAfter k s =>
    rw [onItem]
    cases extended? items k s with
    | some p => exact h.merge p
    | none => exact h

theorem forall₂_twin_apply (h : List.Forall₂ (Twin c) items items') (hk : ¬ IsTextKey e.key) :
    List.Forall₂ (Twin c) (apply items e) (apply items' e) := by
  rw [apply_eq_edit, apply_eq_edit, onItem_twin h hk, Item.edit, Item.edit,
    List.forall₂_map_left_iff, List.forall₂_map_right_iff]
  refine h.imp fun i j hij => ?_
  simp only [hij.key_eq_iff hk]
  split
  · exact twin_onItem hij e items
  · exact hij

theorem forall₂_twin_run (h : List.Forall₂ (Twin c) items items')
    (hk : ∀ e ∈ es, ¬ IsTextKey e.key) :
    List.Forall₂ (Twin c) (es.foldl apply items) (es.foldl apply items') := by
  induction es generalizing items items' with
  | nil => exact h
  | cons e es ih =>
    exact ih (forall₂_twin_apply h (hk e List.mem_cons_self)) fun e' he =>
      hk e' (List.mem_cons_of_mem _ he)

end Edit

namespace Rule

variable {xs ys items items' : List Item} {rule : Rule} {rules rules' : List Rule} {r : Record}
  {c : Prop} {exempt : Bool} {k : String}

theorem check_congr_traits (h : ∀ k ∈ rule.keys, ∀ p : Trait → Bool,
      (∀ t n, p { t with order := n } = p t) →
      (Item.visibleTraits k items').any p = (Item.visibleTraits k items).any p) :
    rule.check exempt items' r = rule.check exempt items r := by
  cases rule with
  | stated c => rfl
  | required k =>
    have hk := h k (by simp [keys])
    have hi (ts : List Trait) : ts.isEmpty = !ts.any fun _ => true := by cases ts <;> rfl
    have he : (Item.visibleTraits k items').isEmpty = (Item.visibleTraits k items).isEmpty := by
      rw [hi, hi, hk (fun _ => true) fun _ _ => rfl]
    have hv := hk (·.visibility = .shown) fun _ _ => rfl
    have hs := hk (·.stub.isSome) fun _ _ => rfl
    simp only [check, he, hv, hs]

theorem isExempt_append (rules rules' : List Rule) (k : String) :
    isExempt (rules ++ rules') k = (isExempt rules k || isExempt rules' k) := List.any_append

theorem isExempt_of_not_mem (h : ∀ rule ∈ rules, k ∉ rule.keys) : isExempt rules k = false := by
  refine List.any_eq_false.mpr fun rule hr hk => h rule hr ?_
  cases rule with
  | required j => simp [exempts] at hk
  | stated c => exact of_decide_eq_true hk

theorem check_append_of_right (h : ∀ k ∈ rule.keys, ∀ j ∈ ys, j.key ≠ k) :
    rule.check exempt (xs ++ ys) r = rule.check exempt xs r :=
  check_congr_traits fun k hk _ _ => by
    rw [Item.visibleTraits_append, Item.visibleTraits_of_ne (h k hk), List.append_nil]

theorem check_append_of_left (h : ∀ k ∈ rule.keys, ∀ i ∈ xs, i.key ≠ k) :
    rule.check exempt (xs ++ ys) r = rule.check exempt ys r :=
  check_congr_traits fun k hk _ _ => by
    rw [Item.visibleTraits_append, Item.visibleTraits_of_ne (h k hk), List.nil_append]

/-- Rules for different keys are checked for the items of their keys, whatever other rules and items
there are. -/
theorem checkAll_append (hr : ∀ rule ∈ rules, ∀ k ∈ rule.keys, ∀ rule' ∈ rules', k ∉ rule'.keys)
    (hx : ∀ rule ∈ rules', ∀ k ∈ rule.keys, ∀ i ∈ xs, i.key ≠ k)
    (hy : ∀ rule ∈ rules, ∀ k ∈ rule.keys, ∀ j ∈ ys, j.key ≠ k) :
    checkAll (rules ++ rules') (xs ++ ys) r = checkAll rules xs r ++ checkAll rules' ys r := by
  rw [checkAll, List.filterMap_append]
  congr 1
  · refine List.filterMap_congr fun rule hm => ?_
    simp only [check_append_of_right (hy rule hm)]
    cases rule with
    | stated c => rfl
    | required k =>
      have hk : ∀ rule' ∈ rules', k ∉ rule'.keys := hr _ hm k (by simp [keys])
      simp only [isExempt_append, isExempt_of_not_mem hk, Bool.or_false]
  · refine List.filterMap_congr fun rule hm => ?_
    simp only [check_append_of_left (hx rule hm)]
    cases rule with
    | stated c => rfl
    | required k =>
      have hk : ∀ rule' ∈ rules, k ∉ rule'.keys := fun rule' hm' hk =>
        hr rule' hm' k hk _ hm (by simp [keys])
      simp only [isExempt_append, isExempt_of_not_mem hk, Bool.false_or]

theorem checkAll_twin (h : List.Forall₂ (Twin c) items items') (rules : List Rule) :
    checkAll rules items' r = checkAll rules items r :=
  List.filterMap_congr fun _ _ => check_congr_traits fun k _ _ hp =>
    Item.any_visibleTraits_twin h hp k

end Rule

theorem Chunk.writeAll_append (f : Format) (cs cs' : List Chunk) :
    writeAll f (cs ++ cs') = writeAll f cs ++ writeAll f cs' := by
  rw [writeAll, List.map_append, String.join_append, ← writeAll, ← writeAll]

namespace Style

variable {st : Style} {items : List Item} {r : Record} {c : Prop}

theorem text_render_eq_writeAll (h : st.problems r = []) (f : Format) :
    (st.render f r).text = Chunk.writeAll f (st.chunks r) := by
  simp only [render, h, List.isEmpty_nil, if_true]

/-- A style is written as two styles if it shows the items of the first and twins of the items of
the second. -/
theorem text_render_append (st st₁ st₂ : Style) (hi : st.itemsFor r = st₁.itemsFor r ++ items)
    (ht : List.Forall₂ (Twin c) (st₂.itemsFor r) items) (hc : c)
    (hp : st.problems r = st₁.problems r ++ st₂.problems r) (hn : st.problems r = [])
    (f : Format) : (st.render f r).text = (st₁.render f r).text ++ (st₂.render f r).text := by
  obtain ⟨hn₁, hn₂⟩ := List.append_eq_nil_iff.mp (hp.symm.trans hn)
  have hch : st.chunks r = st₁.chunks r ++ st₂.chunks r := by
    rw [chunks, hi, List.filter_append, List.flatMap_append, Item.chunks_twin ht hc, ← chunks,
      ← chunks]
  calc (st.render f r).text
    _ = Chunk.writeAll f (st.chunks r) := text_render_eq_writeAll hn f
    _ = Chunk.writeAll f (st₁.chunks r) ++ Chunk.writeAll f (st₂.chunks r) := by
      rw [hch, Chunk.writeAll_append]
    _ = (st₁.render f r).text ++ (st₂.render f r).text := by
      rw [text_render_eq_writeAll hn₁, text_render_eq_writeAll hn₂]

end Style

theorem Trigger.edits_append (ts ts' : List Trigger) (r : Record) :
    edits (ts ++ ts') r = edits ts r ++ edits ts' r := List.flatMap_append

namespace Draft.Reflects

variable {E : Engine} {s : Schema} {steps : List Step} {d : Draft} {k : String} {r : Record}

/-- The triggers of a style edit keys that its steps name. -/
theorem key_mem_of_mem_edits (h : Reflects E s steps d) {e : Edit}
    (he : e ∈ Trigger.edits d.triggers r) : e.key ∈ steps.flatMap (Step.names s) := by
  rw [h.triggers] at he
  obtain ⟨t, ht, he⟩ := List.mem_flatMap.mp he
  obtain ⟨st, hst, htr⟩ := List.mem_filterMap.mp ht
  refine List.mem_flatMap.mpr ⟨st, hst, ?_⟩
  cases st <;> cases htr
  split at he
  · exact Action.key_mem_namesAll he
  · cases he

/-- The rules of a style are about keys that its steps name. -/
theorem key_mem_of_mem_rules (h : Reflects E s steps d) (hf : steps.filterMap Step.field? = [])
    {rule : Rule} (hr : rule ∈ d.rules) (hk : k ∈ rule.keys) :
    k ∈ steps.flatMap (Step.names s) := by
  rw [h.rules] at hr
  obtain ⟨x, hx, hr⟩ := List.mem_filterMap.mp hr
  cases rule with
  | required j =>
    obtain rfl := List.mem_singleton.mp hk
    exact Site.key_mem_names hf hx (Site.rule?_eq_required_iff.mp hr).1
  | stated c =>
    refine List.mem_flatMap.mpr ⟨x.step, Site.step_mem hx, ?_⟩
    have hc := Site.constraint?_rule? (s := s) x
    rw [hr] at hc
    cases hst : x.step <;> rw [hst] at hc <;> cases hc
    exact hk

theorem key_mem_of_mem_items (h : Reflects E s steps d) (hf : steps.filterMap Step.field? = [])
    {i : Item} (hi : i ∈ d.items) :
    i.key ∈ steps.flatMap (Step.names s) ∨ IsTextKey i.key := by
  rw [h.items] at hi
  obtain ⟨x, hx, hi⟩ := List.mem_filterMap.mp hi
  exact Site.key_mem_names_or hf hx hi

/-- Triggers leave the keys of items as they are. -/
theorem key_mem_of_mem_run (h : Reflects E s steps d) (hf : steps.filterMap Step.field? = [])
    {i : Item} (hi : i ∈ Trigger.run d.triggers r d.items) :
    i.key ∈ steps.flatMap (Step.names s) ∨ IsTextKey i.key := by
  have hk : i.key ∈ d.items.map Item.key := by
    rw [← Item.Alike.map_key_eq (Edit.forall₂_alike_run d.items (Trigger.edits d.triggers r))]
    exact List.mem_map_of_mem hi
  obtain ⟨j, hj, he⟩ := List.mem_map.mp hk
  rw [← he]
  exact h.key_mem_of_mem_items hf hj

section Append

variable {steps' : List Step} {d₁ d₂ : Draft} (ha : Step.Apart s steps steps')
  (h₁ : Reflects E s steps d₁) (h₂ : Reflects E s steps' d₂) (h : Reflects E s (steps ++ steps') d)
include ha h₁ h₂ h

/-- The triggers of the two programs edit the items of their own. -/
theorem exists_run_append (r : Record) : ∃ items,
    Trigger.run d.triggers r d.items = Trigger.run d₁.triggers r d₁.items ++ items ∧
      List.Forall₂ (Twin (∀ st ∈ steps', st.spellsKey = false))
        (Trigger.run d₂.triggers r d₂.items) items := by
  obtain ⟨items, hi, ht⟩ := Site.exists_filterMap_item?_append ha
  rw [← h.items, ← h₁.items] at hi
  rw [← h₂.items] at ht
  have htr : d.triggers = d₁.triggers ++ d₂.triggers := by
    rw [h.triggers, h₁.triggers, h₂.triggers, List.filterMap_append]
  have hk₁ : ∀ e ∈ Trigger.edits d₁.triggers r, ∀ j ∈ items, j.key ≠ e.key := fun e he j hj hje =>
    ha.not_mem_left_of_item
      (Item.key_mem_of_twin ht (fun i hi => h₂.key_mem_of_mem_items ha.fields_right hi) j hj)
      (hje ▸ h₁.key_mem_of_mem_edits he)
  have hk₂ : ∀ e ∈ Trigger.edits d₂.triggers r, ∀ i ∈ Trigger.run d₁.triggers r d₁.items,
      i.key ≠ e.key := fun e he i hi hie =>
    ha.not_mem_right_of_item (h₁.key_mem_of_mem_run ha.fields_left hi)
      (hie ▸ h₂.key_mem_of_mem_edits he)
  refine ⟨(Trigger.edits d₂.triggers r).foldl Edit.apply items, ?_,
    Edit.forall₂_twin_run ht fun e he => ha.not_isTextKey_right (h₂.key_mem_of_mem_edits he)⟩
  calc Trigger.run d.triggers r d.items
    _ = (Trigger.edits d₂.triggers r).foldl Edit.apply
        ((Trigger.edits d₁.triggers r).foldl Edit.apply (d₁.items ++ items)) := by
      rw [Trigger.run, htr, Trigger.edits_append, List.foldl_append, hi]
    _ = (Trigger.edits d₂.triggers r).foldl Edit.apply
        (Trigger.run d₁.triggers r d₁.items ++ items) := by
      rw [Edit.run_append_of_right hk₁, Trigger.run]
    _ = Trigger.run d₁.triggers r d₁.items ++
        (Trigger.edits d₂.triggers r).foldl Edit.apply items := Edit.run_append_of_left hk₂

theorem checkAll_append {items : List Item}
    (ht : List.Forall₂ (Twin (∀ st ∈ steps', st.spellsKey = false))
      (Trigger.run d₂.triggers r d₂.items) items) :
    Rule.checkAll d.rules (Trigger.run d₁.triggers r d₁.items ++ items) r =
      Rule.checkAll d₁.rules (Trigger.run d₁.triggers r d₁.items) r ++
        Rule.checkAll d₂.rules (Trigger.run d₂.triggers r d₂.items) r := by
  have hr : d.rules = d₁.rules ++ d₂.rules := by
    rw [h.rules, h₁.rules, h₂.rules, Site.filterMap_rule?_append ha]
  have hk₁ {rule : Rule} (hm : rule ∈ d₁.rules) {k : String} (hk : k ∈ rule.keys) :=
    h₁.key_mem_of_mem_rules ha.fields_left hm hk
  have hk₂ {rule : Rule} (hm : rule ∈ d₂.rules) {k : String} (hk : k ∈ rule.keys) :=
    h₂.key_mem_of_mem_rules ha.fields_right hm hk
  rw [hr, Rule.checkAll_append, Rule.checkAll_twin ht]
  · exact fun rule hm k hk rule' hm' hk' => ha.disjoint k (hk₁ hm hk) (hk₂ hm' hk')
  · exact fun rule hm k hk i hi hik => ha.not_mem_right_of_item
      (h₁.key_mem_of_mem_run ha.fields_left hi) (hik ▸ hk₂ hm hk)
  · exact fun rule hm k hk j hj hjk => ha.not_mem_left_of_item
      (Item.key_mem_of_twin ht (fun i hi => h₂.key_mem_of_mem_run ha.fields_right hi) j hj)
      (hjk ▸ hk₁ hm hk)

end Append

end Draft.Reflects

namespace Definition

variable {d : Definition} {E : Engine} {s : Schema} {steps steps' : List Step}

/-- The definition with other steps, and without mixins. -/
def withSteps (d : Definition) (steps : List Step) : Definition :=
  { d with program := steps.map .step }

@[simp] theorem steps_withSteps (d : Definition) (steps : List Step) :
    (d.withSteps steps).steps = steps := by
  have hp : ∀ c ∈ (d.withSteps steps).program, c.isStep = true := by
    simp [withSteps, Call.isStep]
  rw [Definition.steps, mixinPart_eq_nil hp, List.nil_append, Call.own, withSteps,
    List.filterMap_map]
  exact List.filterMap_some

/-- Two programs that compile and name different keys compile together. -/
theorem exists_compile_append (ha : Step.Apart s steps steps')
    (h : ∃ st, (d.withSteps steps).compile E s = .ok st)
    (h' : ∃ st, (d.withSteps steps').compile E s = .ok st) :
    ∃ st, (d.withSteps (steps ++ steps')).compile E s = .ok st := by
  rw [exists_compile_iff, steps_withSteps] at h h' ⊢
  obtain ⟨ht, hs, hd⟩ := h
  obtain ⟨-, hs', hd'⟩ := h'
  exact ⟨ht, Site.sound_append ha hs hs', Draft.names_of_display? ha hd hd'⟩

end Definition

/-- Two programs without fields that name different keys, none of them a key of a text block, can be
joined if both compile. The joined style reports what the first one reports and then what the second
one reports. Where that is nothing, it is written as the first and then the second, if no text block
of the second is left with its own key for content: the key is another one in the joined style. -/
theorem render_append {d : Definition} {E : Engine} {s : Schema} {steps steps' : List Step}
    {st₁ st₂ : Style}
    (ha : Step.Apart s steps steps') (h₁ : (d.withSteps steps).compile E s = .ok st₁)
    (h₂ : (d.withSteps steps').compile E s = .ok st₂) :
    ∃ st, (d.withSteps (steps ++ steps')).compile E s = .ok st ∧ ∀ f r,
      (st.render f r).problems = (st₁.render f r).problems ++ (st₂.render f r).problems ∧
      ((st.render f r).problems = [] → (∀ x ∈ steps', x.spellsKey = false) →
        (st.render f r).text = (st₁.render f r).text ++ (st₂.render f r).text) := by
  obtain ⟨st, h⟩ := Definition.exists_compile_append ha ⟨st₁, h₁⟩ ⟨st₂, h₂⟩
  refine ⟨st, h, fun f r => ?_⟩
  obtain ⟨-, dr₁, hd₁, -, rfl⟩ := Definition.compile_eq_ok_iff.mp h₁
  obtain ⟨-, dr₂, hd₂, -, rfl⟩ := Definition.compile_eq_ok_iff.mp h₂
  obtain ⟨-, dr, hd, -, rfl⟩ := Definition.compile_eq_ok_iff.mp h
  rw [Definition.steps_withSteps] at hd₁ hd₂ hd
  have hr₁ := Draft.Reflects.of_runAll hd₁
  have hr₂ := Draft.Reflects.of_runAll hd₂
  have hr := Draft.Reflects.of_runAll hd
  obtain ⟨items, hi, ht⟩ := hr₁.exists_run_append ha hr₂ hr r
  have hp : Rule.checkAll dr.rules (Trigger.run dr.triggers r dr.items) r =
      Rule.checkAll dr₁.rules (Trigger.run dr₁.triggers r dr₁.items) r ++
        Rule.checkAll dr₂.rules (Trigger.run dr₂.triggers r dr₂.items) r := by
    rw [hi, hr₁.checkAll_append ha hr₂ hr ht]
  refine ⟨hp, fun hn hc => ?_⟩
  exact Style.text_render_append (Definition.styleOf _ dr) (Definition.styleOf _ dr₁)
    (Definition.styleOf _ dr₂) hi ht hc hp hn f

def Definition.leaflet : Definition := ⟨"leaflet", "Leaflet", none, [], []⟩

/-- A title that is settled before it is declared, and then is shown by a trigger. -/
def Step.heading : List Step :=
  [.set "title" [.after "."], .display "title" false, .trait "title" [], .text " " [],
    .constrain (.optional "title"), .upon ⟨"doi", [.edit (.display "title" true)]⟩]

/-- A volume between two texts, with a trigger that reads it. -/
def Step.numbering : List Step :=
  [.text "vol. " [], .duplicate "volume" [], .constrain (.either "issue" "url" true),
    .text "" [.content ";"], .upon ⟨"title", [.edit (.extendAfter "volume" "!")]⟩]

theorem Step.apart_heading : Step.Apart .bibliographic Step.heading Step.numbering where
  fields := by decide
  disjoint := by decide
  texts := by
    have h : ∀ k ∈ (Step.heading ++ Step.numbering).flatMap (Step.names .bibliographic),
        ¬ "text".toList <+: k.toList := by decide
    exact fun k hk ht => h k hk ht.isPrefix

def Style.heading : Style where
  id := "leaflet"
  title := "Leaflet"
  items := [.trait ⟨"title", "", ".", .text, .hidden, none, .plain, 0⟩,
    .text ⟨"text", " ", .normal, 1⟩]
  rules := [.required "title", .stated (.optional "title")]
  triggers := [⟨"doi", [.edit (.display "title" true)]⟩]
  inherited := []

def Style.numbering : Style where
  id := "leaflet"
  title := "Leaflet"
  items := [.text ⟨"text", "vol. ", .normal, 0⟩,
    .trait ⟨"volume", "", "", .number, .normal, none, .plain, 1⟩,
    .text ⟨"text1", ";", .normal, 2⟩]
  rules := [.required "volume", .stated (.either "issue" "url" true)]
  triggers := [⟨"title", [.edit (.extendAfter "volume" "!")]⟩]
  inherited := []

theorem render_append_leaflet :
    let r := (Record.empty.set "title" (.text "Foo")).set "volume" (.text "2")
    ∃ st, (Definition.leaflet.withSteps (Step.heading ++ Step.numbering)).compile .usual
          .bibliographic = .ok st ∧
      (st.render .html (r.set "doi" (.text ""))).text = "Foo. vol. 2!;" ∧
      (st.render .plain (r.set "issue" (.text "") |>.set "url" (.text ""))).problems =
        [.either "issue" "url"] := by
  intro r
  have h₁ : (Definition.leaflet.withSteps Step.heading).compile .usual .bibliographic =
      .ok .heading := (Definition.compile_of_titled (by decide) _ _).trans (by cbv)
  have h₂ : (Definition.leaflet.withSteps Step.numbering).compile .usual .bibliographic =
      .ok .numbering := (Definition.compile_of_titled (by decide) _ _).trans (by cbv)
  obtain ⟨st, h, hr⟩ := render_append Step.apart_heading h₁ h₂
  obtain ⟨hp, ht⟩ := hr .html (r.set "doi" (.text ""))
  refine ⟨st, h, ?_, (hr .plain _).1.trans (by cbv)⟩
  exact (ht (hp.trans (by cbv)) (by decide)).trans (by cbv)

/-- A text block that shows its own key. -/
def Step.caption : List Step := [.text "" [.contentKey]]

/-- The key of a text block is another one after another text block. -/
theorem not_render_append_caption :
    Step.Apart .bibliographic [.text ";" []] Step.caption ∧
      (Definition.leaflet.withSteps [.text ";" []]).render .usual .bibliographic .html .empty =
        .ok ⟨";", []⟩ ∧
      (Definition.leaflet.withSteps Step.caption).render .usual .bibliographic .html .empty =
        .ok ⟨"text", []⟩ ∧
      (Definition.leaflet.withSteps ([.text ";" []] ++ Step.caption)).render .usual .bibliographic
        .html .empty = .ok ⟨";text1", []⟩ ∧
      ";text1" ≠ ";" ++ "text" := by
  refine ⟨⟨by decide, by decide, fun k hk => absurd hk (by decide +revert)⟩, ?_, ?_, ?_, by decide⟩
  · exact (congrArg (Except.map _) (Definition.compile_of_titled (by decide) _ _)).trans (by cbv)
  · exact (congrArg (Except.map _) (Definition.compile_of_titled (by decide) _ _)).trans (by cbv)
  · exact (congrArg (Except.map _) (Definition.compile_of_titled (by decide) _ _)).trans (by cbv)

end Stylebook
