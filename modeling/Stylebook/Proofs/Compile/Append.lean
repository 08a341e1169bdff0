import Mathlib
import Stylebook.Proofs.Compile.Keys
import Stylebook.Proofs.Overrides

/-! # Programs that name different keys

Two programs that name different keys can be carried out one after the other. The second one
declares its items and rules as it does by itself, but for the numbers of its items and the keys of
its text blocks.
-/

namespace Stylebook

namespace Action

mutual

/-- The keys that an action may edit. -/
def names : Action → List String
  | edit e => [e.key]
  | copy k _ _ => [k]
  | ifPresent _ as => namesAll as
  | unlessContains _ _ as => namesAll as

def namesAll : List Action → List String
  | [] => []
  | a :: as => names a ++ namesAll as

end

mutual

theorem key_mem_names {r : Record} {a : Action} {e : Edit} (h : e ∈ edits r a) :
    e.key ∈ a.names := by
  match a with
  | edit e' =>
    rw [edits, List.mem_singleton] at h
    simp [names, h]
  | copy k part field =>
    rw [edits] at h
    split at h
    · obtain rfl := List.mem_singleton.mp h
      simp [names, Edit.key]
    · cases h
  | ifPresent field as =>
    rw [edits] at h
    split at h
    · exact key_mem_namesAll h
    · cases h
  | unlessContains field s as =>
    rw [edits] at h
    split at h
    · split at h
      · cases h
      · exact key_mem_namesAll h
    · cases h

theorem key_mem_namesAll {r : Record} {as : List Action} {e : Edit} (h : e ∈ editsAll r as) :
    e.key ∈ namesAll as := by
  match as with
  | [] => cases h
  | a :: as =>
    rw [editsAll, List.mem_append] at h
    rw [namesAll, List.mem_append]
    exact h.imp key_mem_names key_mem_namesAll

end

end Action

namespace TextEdit

/-- Whether the content is the key after an edit, if it is or is not before. -/
def spells (spelled : Bool) : TextEdit → Bool
  | content _ => false
  | contentKey => true
  | display _ => spelled

/-- Whether the content that a text block is left with is its own key. -/
def spellsKey (edits : List TextEdit) : Bool := edits.foldl spells false

end TextEdit

namespace Step

/-- The keys that a step names, as far as references are read with the fields of `s`. -/
def names (s : Schema) : Step → List String
  | field .. | text .. => []
  | trait reference _ | duplicate reference _ => ((s.parse? reference).map Reference.key).toList
  | constrain c => c.keys
  | display k _ => [k]
  | set k _ => [k]
  | upon t => Action.namesAll t.actions

/-- Whether the step declares a text block with its own key for content. -/
def spellsKey : Step → Bool
  | text _ edits => TextEdit.spellsKey edits
  | _ => false

end Step

/-- The keys that are given to text blocks. -/
def IsTextKey (k : String) : Prop := ∃ n, k = Draft.textKey n

theorem IsTextKey.isPrefix {k : String} (h : IsTextKey k) : "text".toList <+: k.toList := by
  obtain ⟨n, rfl⟩ := h
  rw [Draft.textKey]
  split
  · exact List.prefix_rfl
  · rw [String.toList_append]
    exact List.prefix_append _ _

/-- Two sequences of steps that declare no field and name different keys, none of them a key that is
given to text blocks. -/
structure Step.Apart (s : Schema) (steps steps' : List Step) : Prop where
  fields : ∀ st ∈ steps ++ steps', st.field? = none
  disjoint : ∀ k ∈ steps.flatMap (names s), k ∉ steps'.flatMap (names s)
  texts : ∀ k ∈ (steps ++ steps').flatMap (names s), ¬ IsTextKey k

theorem Trait.applyAll_order (t : Trait) (n : Nat) (edits : List TraitEdit) :
    { t with order := n }.applyAll edits = { t.applyAll edits with order := n } := by
  induction edits generalizing t with
  | nil => rfl
  | cons e edits ih =>
    refine Eq.trans ?_ (ih (t.apply e))
    cases e <;> rfl

namespace Item

/-- The second item is the first one as another program declares it: a trait with another number, or
a text block with another key. The contents of text blocks are compared if `c` holds. -/
inductive Twin (c : Prop) : Item → Item → Prop where

  | trait (t : Trait) (n : Nat) : Twin c (trait t) (trait { t with order := n })

  | text {b b' : TextBlock} : IsTextKey b.key → IsTextKey b'.key → b'.visibility = b.visibility →
      (c → b'.content = b.content) → Twin c (text b) (text b')

variable {c : Prop} {i j : Item} {items items' : List Item} {k : String}

namespace Twin

theorem key_eq_iff (h : Twin c i j) (hk : ¬ IsTextKey k) : j.key = k ↔ i.key = k := by
  cases h with
  | trait t n => exact Iff.rfl
  | text hb hb' _ _ => exact ⟨fun e => absurd (e ▸ hb') hk, fun e => absurd (e ▸ hb) hk⟩

theorem merge (h : Twin c i j) (p : Patch) : Twin c (p.merge i) (p.merge j) := by
  cases h with
  | trait t n => exact .trait (n := n) _
  | text hb hb' hv hc => exact .text hb hb' hv fun h => by rw [hc h]

theorem onTrait (h : Twin c i j) (edits : List TraitEdit) :
    Twin c (i.onTrait (·.applyAll edits)) (j.onTrait (·.applyAll edits)) := by
  cases h with
  | trait t n =>
    simp only [Item.onTrait, Trait.applyAll_order]
    exact .trait _ n
  | text hb hb' hv hc => exact .text hb hb' hv hc

theorem setVisibility (h : Twin c i j) (v : Visibility) :
    Twin c (i.setVisibility v) (j.setVisibility v) := by
  cases h with
  | trait t n => exact .trait _ n
  | text hb hb' hv hc => exact .text hb hb' rfl hc

end Twin

theorem twin_find? (h : List.Forall₂ (Twin c) items items') (hk : ¬ IsTextKey k) :
    Option.Rel (Twin c) (items.find? (·.key = k)) (items'.find? (·.key = k)) := by
  induction h with
  | nil => exact .none
  | @cons i j items items' hij _ ih =>
    rw [List.find?_cons, List.find?_cons]
    by_cases hi : i.key = k
    · simpa [hi, (hij.key_eq_iff hk).mpr hi] using Option.Rel.some hij
    · simpa [hi, mt (hij.key_eq_iff hk).mp hi] using ih

/-- A step does nothing to an item that it does not name. -/
theorem obey_of_not_mem_names {s : Schema} {st : Step} (h : i.key ∉ st.names s) :
    i.obey st = i := by
  cases st with
  | set k edits => exact if_neg fun e => h (by simp [Step.names, e])
  | display k on => exact if_neg fun e => h (by simp [Step.names, e])
  | _ => rfl

theorem foldl_obey_of_not_mem_names {s : Schema} {steps : List Step}
    (h : i.key ∉ steps.flatMap (Step.names s)) : steps.foldl obey i = i := by
  induction steps with
  | nil => rfl
  | cons st steps ih =>
    rw [List.flatMap_cons, List.mem_append, not_or] at h
    rw [List.foldl_cons, obey_of_not_mem_names h.1, ih h.2]

theorem Twin.obey {s : Schema} {st : Step} (h : Twin c i j)
    (hst : ∀ k ∈ st.names s, ¬ IsTextKey k) : Twin c (i.obey st) (j.obey st) := by
  cases st with
  | set k edits =>
    have hk := h.key_eq_iff (hst k (by simp [Step.names]))
    simp only [Item.obey, hk]
    split
    · exact h.onTrait edits
    · exact h
  | display k on =>
    have hk := h.key_eq_iff (hst k (by simp [Step.names]))
    simp only [Item.obey, hk]
    split
    · exact h.setVisibility _
    · exact h
  | _ => exact h

theorem Twin.foldl_obey {s : Schema} {steps : List Step} (h : Twin c i j)
    (hs : ∀ k ∈ steps.flatMap (Step.names s), ¬ IsTextKey k) :
    Twin c (steps.foldl Item.obey i) (steps.foldl Item.obey j) := by
  induction steps generalizing i j with
  | nil => exact h
  | cons st steps ih =>
    rw [List.flatMap_cons] at hs
    exact ih (h.obey fun k hk => hs k (List.mem_append_left _ hk))
      fun k hk => hs k (List.mem_append_right _ hk)

end Item

/-- Text blocks that differ in their keys alone are configured alike, but for one that spells its
key. -/
theorem Item.twin_text {c : Prop} {b b' : TextBlock} (hb : IsTextKey b.key)
    (hb' : IsTextKey b'.key) (hv : b'.visibility = b.visibility) (hc : b'.content = b.content)
    {edits : List TextEdit} (hs : c → TextEdit.spellsKey edits = false) :
    Twin c (text (b.applyAll edits)) (text (b'.applyAll edits)) := by
  -- While the edits are made, the contents are equal unless the key has been taken for content.
  suffices h : ∀ spelled : Bool, (spelled = false → b'.content = b.content) →
      (b'.applyAll edits).visibility = (b.applyAll edits).visibility ∧
      (edits.foldl TextEdit.spells spelled = false →
        (b'.applyAll edits).content = (b.applyAll edits).content) by
    obtain ⟨hv, hc⟩ := h false fun _ => hc
    exact .text (by simpa using hb) (by simpa using hb') hv fun h => hc (hs h)
  clear hc hs
  induction edits generalizing b b' with
  | nil => exact fun spelled hc => ⟨hv, hc⟩
  | cons e edits ih =>
    intro spelled hc
    have hb : IsTextKey (b.apply e).key := by simpa using hb
    have hb' : IsTextKey (b'.apply e).key := by simpa using hb'
    have hv : (b'.apply e).visibility = (b.apply e).visibility := by
      cases e <;> first | exact hv | rfl
    refine ih hb hb' hv (TextEdit.spells spelled e) fun h => ?_
    cases e with
    | content s => rfl
    | contentKey => cases h
    | display on => exact hc h

namespace Step

variable {E : Engine} {s : Schema} {steps : List Step} {k : String}

theorem mem_names_of_subset {steps' : List Step} (hs : steps ⊆ steps')
    (hk : k ∈ steps.flatMap (names s)) : k ∈ steps'.flatMap (names s) := by
  obtain ⟨st, hst, hk⟩ := List.mem_flatMap.mp hk
  exact List.mem_flatMap.mpr ⟨st, hs hst, hk⟩

theorem ne_of_mem_display? (h : k ∉ steps.flatMap (names s)) :
    ∀ e ∈ steps.filterMap display?, e.1 ≠ k := by
  rintro e he rfl
  obtain ⟨st, hst, he⟩ := List.mem_filterMap.mp he
  refine h (List.mem_flatMap.mpr ⟨st, hst, ?_⟩)
  cases st <;> cases he
  exact List.mem_singleton_self _

theorem ne_of_mem_setting? (h : k ∉ steps.flatMap (names s)) :
    ∀ e ∈ steps.filterMap setting?, e.1 ≠ k := by
  rintro e he rfl
  obtain ⟨st, hst, he⟩ := List.mem_filterMap.mp he
  refine h (List.mem_flatMap.mpr ⟨st, hst, ?_⟩)
  cases st <;> cases he
  exact List.mem_singleton_self _

end Step

namespace Site

section Preceded

variable {E : Engine} {s : Schema} {steps : List Step} {k : String} (x : Site)

theorem schema_preceded (hf : steps.filterMap Step.field? = []) :
    (x.preceded steps).schema s = x.schema s := by
  simp only [schema, preceded, List.filterMap_append, hf, List.nil_append]

theorem reference?_preceded (hf : steps.filterMap Step.field? = []) :
    (x.preceded steps).reference? s = x.reference? s := by
  rw [reference?, x.schema_preceded hf]
  rfl

theorem key?_preceded (hf : steps.filterMap Step.field? = []) :
    (x.preceded steps).key? s = x.key? s := by
  rw [key?, x.reference?_preceded hf, key?]

theorem visibility_preceded (h : k ∉ steps.flatMap (Step.names s)) :
    (x.preceded steps).visibility k = x.visibility k := by
  simp only [visibility, preceded, List.filterMap_append,
    Table.lastFor_append_of_ne (Step.ne_of_mem_display? h)]

theorem settings_preceded (h : k ∉ steps.flatMap (Step.names s)) :
    (x.preceded steps).settings k = x.settings k := by
  have hn : (steps.filterMap Step.setting?).filter (·.1 = k) = [] :=
    List.filter_eq_nil_iff.mpr fun e he => by simp [Step.ne_of_mem_setting? h e he]
  simp only [settings, preceded, List.filterMap_append, List.filter_append, hn, List.nil_append]

theorem trait_preceded (hf : steps.filterMap Step.field? = []) {r : Reference}
    (h : r.key ∉ steps.flatMap (Step.names s)) :
    (x.preceded steps).trait s r =
      { x.trait s r with order := steps.countP Step.declares + x.order } := by
  simp only [trait, x.visibility_preceded h, kind]
  simp only [preceded, List.filterMap_append, hf, List.nil_append, order, List.countP_append]

end Preceded

section Fields

variable {E : Engine} {s : Schema} {steps : List Step} {x : Site} {k : String}

/-- Without fields a site knows the fields of the schema. -/
theorem schema_of_mem (hf : steps.filterMap Step.field? = []) (hx : x ∈ all steps) :
    x.schema s = s := by
  rw [← mem_all_iff.mp hx, List.filterMap_append, List.append_eq_nil_iff] at hf
  rw [schema, hf.1, Table.insertAll_nil]

theorem step_mem (hx : x ∈ all steps) : x.step ∈ steps := by
  rw [← mem_all_iff.mp hx]
  simp

theorem before_subset (hx : x ∈ all steps) : x.before ⊆ steps := by
  rw [← mem_all_iff.mp hx]
  exact List.subset_append_left _ _

theorem after_subset (hx : x ∈ all steps) : x.after ⊆ steps := by
  rw [← mem_all_iff.mp hx]
  exact List.subset_append_of_subset_right _ (List.subset_cons_self _ _)

theorem key_mem_names (hf : steps.filterMap Step.field? = []) (hx : x ∈ all steps)
    (hk : x.key? s = some k) : k ∈ steps.flatMap (Step.names s) := by
  refine List.mem_flatMap.mpr ⟨x.step, step_mem hx, ?_⟩
  rw [key?, reference?, schema_of_mem hf hx] at hk
  cases hst : x.step with
  | trait reference edits | duplicate reference edits =>
    rw [hst] at hk
    exact Option.mem_toList.mpr hk
  | _ => simp [hst, Step.reference?] at hk

/-- Items have keys that the steps name, or keys of text blocks. -/
theorem key_mem_names_or (hf : steps.filterMap Step.field? = []) (hx : x ∈ all steps) {i : Item}
    (hi : x.item? s = some i) : i.key ∈ steps.flatMap (Step.names s) ∨ IsTextKey i.key := by
  cases i with
  | trait t => exact .inl (key_mem_names hf hx (key?_eq_some_iff.mpr ⟨_, hi, by simp⟩))
  | text b =>
    have hk := x.key_of_isText (s := s)
    rw [hi] at hk
    simp only [Option.filter_some, Item.isText_text, if_true, Option.map_some, textKey?] at hk
    split at hk
    · exact .inr ⟨_, Option.some.inj hk⟩
    · cases hk

end Fields

end Site

namespace Step.Apart

variable {E : Engine} {s : Schema} {steps steps' : List Step} {k : String} {i : Item}

theorem fields_left (h : Apart s steps steps') : steps.filterMap field? = [] :=
  List.filterMap_eq_nil_iff.mpr fun st hst => h.fields st (List.mem_append_left _ hst)

theorem fields_right (h : Apart s steps steps') : steps'.filterMap field? = [] :=
  List.filterMap_eq_nil_iff.mpr fun st hst => h.fields st (List.mem_append_right _ hst)

theorem not_isTextKey_left (h : Apart s steps steps') (hk : k ∈ steps.flatMap (names s)) :
    ¬ IsTextKey k := by
  refine h.texts k ?_
  rw [List.flatMap_append]
  exact List.mem_append_left _ hk

theorem not_isTextKey_right (h : Apart s steps steps') (hk : k ∈ steps'.flatMap (names s)) :
    ¬ IsTextKey k := by
  refine h.texts k ?_
  rw [List.flatMap_append]
  exact List.mem_append_right _ hk

theorem not_mem_left (h : Apart s steps steps') (hk : k ∈ steps'.flatMap (names s)) :
    k ∉ steps.flatMap (names s) := fun hk' => h.disjoint k hk' hk

/-- The first program names no item of the second one. -/
theorem not_mem_left_of_item (h : Apart s steps steps')
    (hi : i.key ∈ steps'.flatMap (names s) ∨ IsTextKey i.key) :
    i.key ∉ steps.flatMap (names s) :=
  hi.elim h.not_mem_left fun ht hk => h.not_isTextKey_left hk ht

/-- The second program names no item of the first one. -/
theorem not_mem_right_of_item (h : Apart s steps steps')
    (hi : i.key ∈ steps.flatMap (names s) ∨ IsTextKey i.key) :
    i.key ∉ steps'.flatMap (names s) :=
  hi.elim (h.disjoint _) fun ht hk => h.not_isTextKey_right hk ht

end Step.Apart

theorem forall₂_filterMap {α β γ : Type} {R : β → γ → Prop} {f : α → Option β} {g : α → Option γ}
    {xs : List α} (h : ∀ x ∈ xs, Option.Rel R (f x) (g x)) :
    List.Forall₂ R (xs.filterMap f) (xs.filterMap g) := by
  induction xs with
  | nil => exact .nil
  | cons x xs ih =>
    have hx := h x List.mem_cons_self
    have ih := ih fun y hy => h y (List.mem_cons_of_mem _ hy)
    rw [List.filterMap_cons, List.filterMap_cons]
    generalize f x = o, g x = o' at hx
    cases hx with
    | none => exact ih
    | some hx => exact .cons hx ih

namespace Site

open Item (Twin)

variable {E : Engine} {s : Schema} {steps steps' : List Step} {x : Site} {k : String}
  (ha : Step.Apart s steps steps')
include ha

theorem item?_followed (hx : x ∈ all steps) : (x.followed steps').item? s = x.item? s := by
  have hd : (x.followed steps').declared? s = x.declared? s := rfl
  cases hj : x.declared? s with
  | none => rw [item?, item?, hd, hj, Option.map_none, Option.map_none]
  | some j =>
    have hi : x.item? s = some (x.after.foldl Item.obey j) := by rw [item?, hj, Option.map_some]
    have hn := ha.not_mem_right_of_item (key_mem_names_or ha.fields_left hx hi)
    rw [hi, item?, hd, hj, Option.map_some, followed, List.foldl_append,
      Item.foldl_obey_of_not_mem_names hn]

theorem visibility_text (hx : x ∈ all steps') (n : Nat) :
    x.visibility (Draft.textKey n) = .normal ∧
      (x.preceded steps).visibility (Draft.textKey n) = .normal := by
  have hb : Draft.textKey n ∉ x.before.flatMap (Step.names s) := fun hk =>
    ha.not_isTextKey_right (Step.mem_names_of_subset (before_subset hx) hk) ⟨n, rfl⟩
  have hs : Draft.textKey n ∉ steps.flatMap (Step.names s) := fun hk =>
    ha.not_isTextKey_left hk ⟨n, rfl⟩
  have hv : x.visibility (Draft.textKey n) = .normal := by
    have hl := Table.lastFor_append_of_ne (Step.ne_of_mem_display? hb) []
    rw [List.append_nil] at hl
    rw [visibility, hl]
    rfl
  exact ⟨hv, (x.visibility_preceded hs).trans hv⟩

theorem twin_declared? (hx : x ∈ all steps') :
    Option.Rel (Twin (∀ st ∈ steps', st.spellsKey = false)) (x.declared? s)
      ((x.preceded steps).declared? s) := by
  have hst : (x.preceded steps).step = x.step := rfl
  rw [declared?, declared?, hst]
  cases hs : x.step with
  | trait reference edits | duplicate reference edits =>
    simp only [x.reference?_preceded ha.fields_left]
    cases hr : x.reference? s with
    | none => exact .none
    | some r =>
      have hk : r.key ∉ steps.flatMap (Step.names s) :=
        ha.not_mem_left (key_mem_names ha.fields_right hx (by rw [key?, hr, Option.map_some]))
      simp only [Option.map_some, x.trait_preceded ha.fields_left hk, x.settings_preceded hk,
        Trait.applyAll_order]
      exact .some (.trait _ _)
  | text content edits =>
    have hb : IsTextKey (x.text content).key := ⟨_, rfl⟩
    have hb' : IsTextKey ((x.preceded steps).text content).key := ⟨_, rfl⟩
    refine .some (Item.twin_text hb hb' ?_ rfl fun hc => ?_)
    · exact (visibility_text ha hx _).2.trans (visibility_text ha hx _).1.symm
    · have := hc x.step (step_mem hx)
      rwa [hs] at this
  | _ => exact .none

/-- A site of the second program declares the same item after the first program. -/
theorem twin_item? (hx : x ∈ all steps') :
    Option.Rel (Twin (∀ st ∈ steps', st.spellsKey = false)) (x.item? s)
      ((x.preceded steps).item? s) := by
  have h := twin_declared? ha hx
  have hn : ∀ k ∈ x.after.flatMap (Step.names s), ¬ IsTextKey k := fun k hk =>
    ha.not_isTextKey_right (Step.mem_names_of_subset (after_subset hx) hk)
  rw [item?, item?]
  generalize x.declared? s = o, (x.preceded steps).declared? s = o' at h
  cases h with
  | none => exact .none
  | some h => exact .some (h.foldl_obey hn)

omit ha in
theorem filterMap_key?_append (hf : steps.filterMap Step.field? = []) (steps' : List Step) :
    (all (steps ++ steps')).filterMap (key? s) =
      (all steps).filterMap (key? s) ++ (all steps').filterMap (key? s) := by
  rw [all_append, List.filterMap_append, List.filterMap_map, List.filterMap_map]
  congr 2
  funext x
  exact x.key?_preceded hf

/-- A key that the second program declares has not been declared by the first one. -/
theorem key_mem_append_iff (hx : x ∈ all steps') (hk : x.key? s = some k) :
    k ∈ (all (steps ++ x.before)).filterMap (key? s) ↔ k ∈ (all x.before).filterMap (key? s) := by
  have hn : k ∉ (all steps).filterMap (key? s) := fun h => by
    obtain ⟨y, hy, hyk⟩ := List.mem_filterMap.mp h
    exact ha.disjoint k (key_mem_names ha.fields_left hy hyk)
      (key_mem_names ha.fields_right hx hk)
  rw [filterMap_key?_append ha.fields_left, List.mem_append, or_iff_right hn]

theorem rule?_preceded (hx : x ∈ all steps') : (x.preceded steps).rule? s = x.rule? s := by
  have hst : (x.preceded steps).step = x.step := rfl
  rw [rule?, rule?, hst]
  cases hs : x.step with
  | trait reference edits | duplicate reference edits =>
    simp only [x.key?_preceded ha.fields_left]
    cases hk : x.key? s with
    | none => rfl
    | some k =>
      simp only [Option.bind_some]
      exact if_congr (key_mem_append_iff ha hx hk) rfl rfl
  | _ => rfl

theorem filterMap_rule?_append : (all (steps ++ steps')).filterMap (rule? s) =
    (all steps).filterMap (rule? s) ++ (all steps').filterMap (rule? s) := by
  rw [all_append, List.filterMap_append, List.filterMap_map, List.filterMap_map]
  congr 1
  exact List.filterMap_congr fun x hx => rule?_preceded ha hx

theorem exists_filterMap_item?_append :
    ∃ items, (all (steps ++ steps')).filterMap (item? s) =
        (all steps).filterMap (item? s) ++ items ∧
      List.Forall₂ (Twin (∀ st ∈ steps', st.spellsKey = false))
        ((all steps').filterMap (item? s)) items := by
  refine ⟨(all steps').filterMap fun x => (x.preceded steps).item? s, ?_, ?_⟩
  · rw [all_append, List.filterMap_append, List.filterMap_map, List.filterMap_map]
    congr 1
    exact List.filterMap_congr fun x hx => item?_followed ha hx
  · exact forall₂_filterMap fun x hx => twin_item? ha hx

theorem sound_append (h : Sound E s steps) (h' : Sound E s steps') :
    Sound E s (steps ++ steps') := by
  intro x hx f hf
  rw [all_append, List.mem_append, List.mem_map, List.mem_map] at hx
  rcases hx with ⟨y, hy, rfl⟩ | ⟨y, hy, rfl⟩
  · cases hf with
    | unsearchable hr hm => exact h y hy _ (.unsearchable hr hm)
    | malformed hr hm hk => exact h y hy _ (.malformed hr hm hk)
    | duplicate hst hm hk hz => exact h y hy _ (.duplicate hst hm hk hz)
  · have hs : (y.preceded steps).keys E s = y.keys E s := by
      rw [keys, keys, y.schema_preceded ha.fields_left]
    cases hf with
    | unsearchable hr hm => exact h' y hy _ (.unsearchable hr (hs ▸ hm))
    | malformed hr hm hk =>
      rw [y.schema_preceded ha.fields_left] at hk
      exact h' y hy _ (.malformed hr (hs ▸ hm) hk)
    | @duplicate reference edits k hst hm hk hz =>
      rw [y.key?_preceded ha.fields_left] at hk
      have hz := (key_mem_append_iff ha hy hk).mp (List.mem_filterMap.mpr hz)
      exact h' y hy _ (.duplicate hst (hs ▸ hm) hk (List.mem_filterMap.mp hz))

end Site

namespace Draft

open Site

variable {E : Engine} {s : Schema} {steps steps' : List Step} {k : String}
  (ha : Step.Apart s steps steps')
include ha

theorem names_append_left (h : Names s steps k) : Names s (steps ++ steps') k := by
  obtain ⟨x, hx, i, hi, hk⟩ := h
  refine ⟨x.followed steps', ?_, i, (item?_followed ha hx).trans hi, hk⟩
  rw [all_append]
  exact List.mem_append_left _ (List.mem_map_of_mem hx)

theorem names_append_right (ht : ¬ IsTextKey k) (h : Names s steps' k) :
    Names s (steps ++ steps') k := by
  obtain ⟨x, hx, i, hi, hk⟩ := h
  have hr := twin_item? ha hx
  rw [hi] at hr
  generalize ho : (x.preceded steps).item? s = o at hr
  cases hr with
  | @some _ j hij =>
    refine ⟨x.preceded steps, ?_, j, ho, (hij.key_eq_iff ht).mpr hk⟩
    rw [all_append]
    exact List.mem_append_right _ (List.mem_map_of_mem hx)

theorem names_of_display? (h : ∀ e ∈ steps.filterMap Step.display?, Names s steps e.1)
    (h' : ∀ e ∈ steps'.filterMap Step.display?, Names s steps' e.1) :
    ∀ e ∈ (steps ++ steps').filterMap Step.display?, Names s (steps ++ steps') e.1 := by
  intro e he
  rw [List.filterMap_append, List.mem_append] at he
  rcases he with he | he
  · exact names_append_left ha (h e he)
  · refine names_append_right ha (ha.not_isTextKey_right ?_) (h' e he)
    exact not_not.mp fun hn => Step.ne_of_mem_display? hn e he rfl

end Draft

end Stylebook
