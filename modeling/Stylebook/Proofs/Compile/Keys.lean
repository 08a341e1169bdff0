import Mathlib
import Stylebook.Proofs.Compile.Faults

/-! # Keys of items

Without duplicate declarations no two traits share a key, and text blocks are numbered, so that no
two of them do. A trait and a text block share a key only where a field is called like a text block.
-/

namespace Stylebook

theorem Draft.textKey_injective : Function.Injective Draft.textKey := by
  intro m n h
  simp only [textKey, Nat.toString_eq_repr] at h
  split at h <;> split at h
  · next hm hn => rw [hm, hn]
  · exact absurd (String.append_eq_left_iff.mp h.symm) Nat.repr_ne_empty
  · exact absurd (String.append_eq_left_iff.mp h) Nat.repr_ne_empty
  · exact Nat.repr_injective ((String.append_right_inj "text").mp h)

namespace Step

/-- Whether the step may declare a trait of a key that is taken. -/
def allowsDuplicate : Step → Bool
  | duplicate .. => true
  | _ => false

end Step

namespace Site

variable {E : Engine} {s : Schema} {steps : List Step} {x : Site} {k : String}

/-- The key of the text block that is declared. -/
def textKey? (x : Site) : Option String :=
  if x.step.isText then some (Draft.textKey (x.before.countP Step.isText)) else none

theorem filterMap_textKey? (steps : List Step) :
    (all steps).filterMap textKey? = (List.range (steps.countP Step.isText)).map Draft.textKey := by
  induction steps using List.reverseRecOn with
  | nil => rfl
  | append_singleton steps st ih =>
    rw [filterMap_all_append_singleton (f := textKey?) fun _ _ => rfl, ih, List.countP_append]
    cases h : st.isText <;> simp [textKey?, h, List.range_succ]

/-- Declarations that are accepted, and no duplicates, declare traits of different keys. -/
theorem nodup_filterMap_key? (h : Sound E s steps)
    (hd : ∀ st ∈ steps, st.allowsDuplicate = false) : ((all steps).filterMap (key? s)).Nodup := by
  induction steps using List.reverseRecOn with
  | nil => exact List.nodup_nil
  | append_singleton steps st ih =>
    obtain ⟨hs, hr⟩ := sound_append_singleton_iff.mp h
    have hn := ih hs fun st' hst => hd st' (List.mem_append_left _ hst)
    rw [filterMap_all_append_singleton (f := key? s) fun _ _ => rfl]
    cases hk : (⟨steps, st, []⟩ : Site).key? s with
    | none => simpa using hn
    | some k =>
      refine List.nodup_append.mpr ⟨hn, List.nodup_singleton k, fun j hj i hi hji => ?_⟩
      obtain rfl := List.mem_singleton.mp hi
      cases st with
      | trait reference edits =>
        have hm := searchable_of_not_refused hr rfl
        exact hr _ (.duplicate rfl hm hk (List.mem_filterMap.mp (hji ▸ hj)))
      | duplicate reference edits => cases hd (.duplicate reference edits) (by simp)
      | _ => cases hk

theorem key_of_trait? (x : Site) : ((x.item? s).bind Item.trait?).map Trait.key = x.key? s := by
  refine Option.ext fun k => ?_
  rw [key?_eq_some_iff]
  cases x.item? s with
  | none => simp
  | some i => cases i <;> simp [Item.trait?]

theorem key_of_isText (x : Site) : ((x.item? s).filter Item.isText).map Item.key = x.textKey? := by
  cases hx : x.step with
  | trait reference edits | duplicate reference edits =>
    cases hr : x.reference? s <;> simp [item?, declared?, textKey?, hx, hr, Step.isText]
  | text content edits => simp [item?, declared?, textKey?, hx, Step.isText, text]
  | _ => simp [item?, declared?, textKey?, hx, Step.isText]

end Site

namespace Draft.Reflects

variable {E : Engine} {s : Schema} {steps : List Step} {d : Draft}

theorem traitKeys_eq (h : Reflects E s steps d) :
    (d.items.filterMap Item.trait?).map Trait.key = (Site.all steps).filterMap (Site.key? s) := by
  rw [h.items, List.filterMap_filterMap, List.map_filterMap]
  exact congrArg (List.filterMap · _) (funext Site.key_of_trait?)

theorem textKeys_eq (h : Reflects E s steps d) :
    (d.items.filter Item.isText).map Item.key =
      (List.range (steps.countP Step.isText)).map textKey := by
  rw [h.items, List.filter_filterMap, List.map_filterMap, ← Site.filterMap_textKey?]
  exact congrArg (List.filterMap · _) (funext Site.key_of_isText)

end Draft.Reflects

theorem Item.map_key_perm (items : List Item) : (items.map Item.key).Perm
    ((items.filterMap trait?).map Trait.key ++ (items.filter isText).map Item.key) := by
  induction items with
  | nil => exact .refl _
  | cons i items ih =>
    cases i with
    | trait t => exact ih.cons t.key
    | text t => exact (ih.cons t.key).trans List.perm_middle.symm

/-- Keys are different if and only if every call that names a key addresses one item at most. -/
theorem Item.nodup_map_key_iff {items : List Item} :
    (items.map Item.key).Nodup ↔ ∀ k, (items.filter (·.key = k)).length ≤ 1 := by
  have hc (k : String) : (items.map Item.key).count k = (items.filter (·.key = k)).length := by
    rw [List.count, List.countP_map, List.countP_eq_length_filter]
    congr 1
  simp only [List.nodup_iff_count_le_one, hc]

/-- In a style without duplicate declarations traits have different keys, and so have text blocks.
All keys are different, and every call addresses one item at most, if no trait has the key of a text
block. -/
theorem compile_keys {d : Definition} {E : Engine} {s : Schema} {st : Style}
    (h : d.compile E s = .ok st) (hd : ∀ x ∈ d.steps, x.allowsDuplicate = false) :
    (st.traits.map Trait.key).Nodup ∧
    (st.items.filter Item.isText).map Item.key =
      (List.range (d.steps.countP Step.isText)).map Draft.textKey ∧
    ((st.items.map Item.key).Nodup ↔
      ∀ t ∈ st.traits, ∀ n < d.steps.countP Step.isText, t.key ≠ Draft.textKey n) ∧
    ((st.items.map Item.key).Nodup ↔ ∀ k, (st.items.filter (·.key = k)).length ≤ 1) := by
  obtain ⟨-, dr, hr, -, rfl⟩ := Definition.compile_eq_ok_iff.mp h
  have hdr := Draft.Reflects.of_runAll hr
  have hn : ((dr.items.filterMap Item.trait?).map Trait.key).Nodup := by
    rw [hdr.traitKeys_eq]
    exact Site.nodup_filterMap_key? (Draft.runAll_eq_ok_iff.mp ⟨dr, hr⟩) hd
  refine ⟨hn, hdr.textKeys_eq, ?_, Item.nodup_map_key_iff⟩
  have ht : ((List.range (d.steps.countP Step.isText)).map Draft.textKey).Nodup :=
    List.nodup_range.map Draft.textKey_injective
  simp only [Definition.styleOf, Style.traits, (Item.map_key_perm dr.items).nodup_iff,
    List.nodup_append, hdr.textKeys_eq, hn, ht, true_and, List.forall_mem_map, List.mem_range]

/-- Two traits and two text blocks, the first of them in a mixin. -/
def Definition.punctuated : Definition where
  id := "punctuated"
  title := "Punctuated"
  description := none
  mixins := [⟨"opening", [.step (.text "[" [])]⟩]
  program := [.step (.field "text2" .text), .step (.trait "text2, " []), .inherit 0,
    .step (.field "volume" .number), .step (.trait "(volume)" []), .step (.text "]" [])]

def Style.punctuated : Style where
  id := "punctuated"
  title := "Punctuated"
  items := [.text ⟨"text", "[", .normal, 0⟩,
    .trait ⟨"text2", "", ", ", .text, .normal, none, .plain, 1⟩,
    .trait ⟨"volume", "(", ")", .number, .normal, none, .plain, 2⟩,
    .text ⟨"text1", "]", .normal, 3⟩]
  rules := [.required "text2", .required "volume"]
  triggers := []
  inherited := ["opening"]

theorem compile_keys_punctuated :
    Definition.punctuated.compile .usual .empty = .ok .punctuated ∧
      (Style.punctuated.items.map Item.key).Nodup := by
  have h : Definition.punctuated.compile .usual .empty = .ok .punctuated :=
    (Definition.compile_of_titled (by decide) _ _).trans (by cbv)
  have hs : Definition.punctuated.steps = [.text "[" [], .field "text2" .text,
      .trait "text2, " [], .field "volume" .number, .trait "(volume)" [], .text "]" []] := by cbv
  refine ⟨h, (compile_keys h (by rw [hs]; decide)).2.2.1.mpr ?_⟩
  rw [hs]
  decide

/-- A field that is called like a text block, and a call that means one item and hides two. -/
def Definition.ambiguous : Definition where
  id := "ambiguous"
  title := "Ambiguous"
  description := none
  mixins := []
  program := [.step (.field "text" .text), .step (.trait "text" []), .step (.text "; " []),
    .step (.display "text" false)]

def Style.ambiguous : Style where
  id := "ambiguous"
  title := "Ambiguous"
  items := [.trait ⟨"text", "", "", .text, .hidden, none, .plain, 0⟩,
    .text ⟨"text", "; ", .hidden, 1⟩]
  rules := [.required "text"]
  triggers := []
  inherited := []

theorem not_nodup_keys_ambiguous :
    Definition.ambiguous.compile .usual .empty = .ok .ambiguous ∧
      (∀ x ∈ Definition.ambiguous.steps, x.allowsDuplicate = false) ∧
      ¬ (Style.ambiguous.items.map Item.key).Nodup := by
  have hs : Definition.ambiguous.steps = [.field "text" .text, .trait "text" [], .text "; " [],
      .display "text" false] := by cbv
  refine ⟨(Definition.compile_of_titled (by decide) _ _).trans (by cbv), ?_, by decide⟩
  rw [hs]
  decide

end Stylebook
