import Mathlib
import Stylebook.Proofs.Compile.Reflection
import Stylebook.Proofs.Mixins.Expansion

/-! # The items of a compiled style

Every declaration makes one item. What is said about its key before the declaration, in it and
after it configures the item in that order, and what is said about other keys does not matter.
-/

namespace Stylebook

namespace Step

/-- Whether a step may say something about the items of a key. -/
def concerns (k : String) : Step → Bool
  | set k' _ => k' = k
  | display k' _ => k' = k
  | constrain _ | upon _ => false
  | _ => true

theorem concerns_of_declares (st : Step) (h : st.declares = true) (k : String) :
    st.concerns k = true := by
  cases st <;> first | rfl | cases h

end Step

variable {E : Engine} {s : Schema} {k : String} {st : Step} {steps : List Step}

theorem Item.obey_of_not_concerns {i : Item} (h : st.concerns i.key = false) : i.obey st = i := by
  cases st with
  | set k edits => exact if_neg fun e => by simp [Step.concerns, e] at h
  | display k on => exact if_neg fun e => by simp [Step.concerns, e] at h
  | _ => rfl

theorem Item.foldl_obey_filter (i : Item) (steps : List Step) :
    (steps.filter (Step.concerns i.key)).foldl Item.obey i = steps.foldl Item.obey i := by
  induction steps generalizing i with
  | nil => rfl
  | cons st steps ih =>
    cases h : st.concerns i.key with
    | true =>
      rw [List.filter_cons_of_pos h, List.foldl_cons, List.foldl_cons]
      simpa using ih (i.obey st)
    | false =>
      rw [List.filter_cons_of_neg (by simp [h]), List.foldl_cons, Item.obey_of_not_concerns h]
      exact ih i

theorem filter_filterMap_concerns {α : Type} {f : Step → Option (String × α)}
    (hf : ∀ st e, f st = some e → ∀ k, st.concerns k = decide (e.1 = k)) (k : String)
    (steps : List Step) :
    ((steps.filter (Step.concerns k)).filterMap f).filter (·.1 = k) =
      (steps.filterMap f).filter (·.1 = k) := by
  induction steps with
  | nil => rfl
  | cons st steps ih =>
    cases h : st.concerns k with
    | true =>
      rw [List.filter_cons_of_pos h]
      cases hs : f st <;> simp [List.filter_cons, hs, ih]
    | false =>
      rw [List.filter_cons_of_neg (by simp [h]), ih]
      cases hs : f st with
      | none => simp [hs]
      | some e =>
        have he : ¬ e.1 = k := by simpa [hf st e hs] using h
        simp [hs, he]

theorem concerns_of_display? (st : Step) (e : String × Bool) (h : st.display? = some e)
    (k : String) : st.concerns k = decide (e.1 = k) := by
  cases st <;> cases h
  rfl

theorem concerns_of_setting? (st : Step) (e : String × List TraitEdit) (h : st.setting? = some e)
    (k : String) : st.concerns k = decide (e.1 = k) := by
  cases st <;> cases h
  rfl

theorem filterMap_field?_concerns (k : String) (steps : List Step) :
    (steps.filter (Step.concerns k)).filterMap Step.field? = steps.filterMap Step.field? := by
  rw [List.filterMap_filter]
  congr 1
  funext st
  cases st <;> simp [Step.concerns, Step.field?]

theorem countP_filter_concerns {p : Step → Bool} (hp : ∀ st, p st = true → st.concerns k = true)
    (steps : List Step) : (steps.filter (Step.concerns k)).countP p = steps.countP p := by
  rw [List.countP_filter]
  refine List.countP_congr fun st _ => ?_
  simpa using hp st

theorem countP_declares_concerns (k : String) (steps : List Step) :
    (steps.filter (Step.concerns k)).countP Step.declares = steps.countP Step.declares :=
  countP_filter_concerns (fun st h => st.concerns_of_declares h k) steps

theorem countP_isText_concerns (k : String) (steps : List Step) :
    (steps.filter (Step.concerns k)).countP Step.isText = steps.countP Step.isText :=
  countP_filter_concerns (fun st h => st.concerns_of_declares (by simp [Step.declares, h]) k) steps

namespace Site

variable {x : Site} {i : Item}

/-- The site without what is said about other keys. -/
def only (x : Site) (k : String) : Site :=
  ⟨x.before.filter (Step.concerns k), x.step, x.after.filter (Step.concerns k)⟩

theorem visibility_only (x : Site) (k : String) : (x.only k).visibility k = x.visibility k := by
  simp only [visibility, only, Table.lastFor, filter_filterMap_concerns concerns_of_display?]

theorem settings_only (x : Site) (k : String) : (x.only k).settings k = x.settings k := by
  simp only [settings, only, filter_filterMap_concerns concerns_of_setting?]

theorem schema_only (x : Site) (k : String) : (x.only k).schema s = x.schema s := by
  simp only [schema, only, filterMap_field?_concerns]

theorem trait_only (x : Site) (r : Reference) : (x.only r.key).trait s r = x.trait s r := by
  simp only [trait, visibility_only, kind, order]
  simp only [only, filterMap_field?_concerns, countP_declares_concerns]

theorem text_only {content : String} (h : (x.text content).key = k) :
    (x.only k).text content = x.text content := by
  subst h
  simp only [text, order]
  simp only [only, countP_isText_concerns, countP_declares_concerns]
  congr 1
  exact x.visibility_only _

theorem reference?_only (x : Site) (k : String) : (x.only k).reference? s = x.reference? s := by
  simp only [reference?, schema_only]
  rfl

theorem declared?_only (h : x.declared? s = some i) : (x.only i.key).declared? s = some i := by
  have hs (k : String) : (x.only k).step = x.step := rfl
  unfold declared? at h ⊢
  rw [hs, reference?_only]
  cases hx : x.step with
  | trait reference edits | duplicate reference edits =>
    simp only [hx] at h
    obtain ⟨r, hr, rfl⟩ := Option.map_eq_some_iff.mp h
    have hk : (((x.trait s r).applyAll (x.settings r.key)).applyAll edits).key = r.key := by
      simp [trait]
    simp only [hr, Option.map_some, Item.key_trait, hk, trait_only, settings_only]
  | text content edits =>
    simp only [hx, Option.some.injEq] at h
    subst h
    have hk : ((x.text content).applyAll edits).key = (x.text content).key := by simp
    simp only [Item.key_text, text_only hk.symm]
  | _ => simp [hx] at h

theorem item?_only (h : x.item? s = some i) : (x.only i.key).item? s = some i := by
  obtain ⟨j, hj, rfl⟩ := Option.map_eq_some_iff.mp h
  rw [Item.key_foldl_obey, item?, declared?_only hj]
  simp only [only, Option.map_some, Item.foldl_obey_filter]

end Site

theorem map_filter_eq_map_some {α β : Type} {p : α → Bool} {f : α → Option β} {xs : List α}
    (h : ∀ x ∈ xs, (f x).isSome = p x) :
    (xs.filter p).map f = (xs.filterMap f).map some := by
  induction xs with
  | nil => rfl
  | cons x xs ih =>
    have hx := h x List.mem_cons_self
    have ih := ih fun y hy => h y (List.mem_cons_of_mem _ hy)
    cases hf : f x <;> simp_all

theorem Site.isSome_item?_of_declares {x : Site} (h : (x.item? s).isSome = true) :
    x.step.declares = true := by
  unfold item? declared? at h
  cases hx : x.step <;> simp_all [Step.declares, Step.reference?, Step.isText]

/-- The items of a compiled style are what its declarations denote, one each and in order. What
concerns other keys may be left out. -/
theorem items_eq_declared {d : Definition} {E : Engine} {s : Schema} {st : Style}
    (h : d.compile E s = .ok st) :
    ((Site.all d.steps).filter (·.step.declares)).map (Site.item? s) = st.items.map some ∧
      ∀ x ∈ Site.all d.steps, ∀ i, x.item? s = some i → (x.only i.key).item? s = some i := by
  obtain ⟨-, dr, hd, -, rfl⟩ := Definition.compile_eq_ok_iff.mp h
  have hr := Draft.Reflects.of_runAll hd
  constructor
  · rw [Definition.styleOf, hr.items]
    refine map_filter_eq_map_some fun x hx => ?_
    rw [Bool.eq_iff_iff]
    exact ⟨Site.isSome_item?_of_declares, hr.declared x hx⟩
  · exact fun x _ i hi => Site.item?_only hi

/-- A field of two kinds in turn, with settings from a mixin and from later calls. -/
def Definition.annual : Definition where
  id := "annual"
  title := "Annual"
  description := none
  mixins := [⟨"house", [.step (.set "volume" [.before "no. ", .after "."]),
    .step (.display "text" false)]⟩]
  program := [.step (.field "volume" .text), .step (.trait "volume" [.after ","]),
    .step (.field "volume" .number), .step (.text "; " []),
    .step (.duplicate "volume" [.display true]), .inherit 0, .step (.set "volume" [.before "v. "]),
    .step (.display "text" true)]

def Style.annual : Style where
  id := "annual"
  title := "Annual"
  items := [.trait ⟨"volume", "v. ", ",", .text, .normal, none, .plain, 0⟩,
    .text ⟨"text", "; ", .shown, 1⟩,
    .trait ⟨"volume", "v. ", ".", .number, .shown, none, .plain, 2⟩]
  rules := [.required "volume"]
  triggers := []
  inherited := ["house"]

theorem items_eq_declared_annual :
    Definition.annual.compile .usual .empty = .ok .annual ∧
      ((Site.all Definition.annual.steps).filter (·.step.declares)).map (Site.item? .empty) =
        Style.annual.items.map some := by
  have h : Definition.annual.compile .usual .empty = .ok .annual :=
    (Definition.compile_of_titled (by decide) _ _).trans (by cbv)
  exact ⟨h, (items_eq_declared h).1⟩

end Stylebook
