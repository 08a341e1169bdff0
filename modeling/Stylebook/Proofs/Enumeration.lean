import Mathlib
import Stylebook.Resolution

/-! # Selecting choices

An edit of an enumeration changes what one choice is shown as, or puts one more choice behind the
others. Records select by selectors and by values, so it makes no difference what choices are shown
as.
-/

namespace Stylebook

namespace ChoiceEdit

/-- The choice that is added behind `n` others. -/
def choice? (n : Nat) : ChoiceEdit → Option Choice
  | add v d => some ⟨n, v, d, none⟩
  | addSelected v d s => some ⟨n, v, d, some s⟩
  | relabel _ _ => none

def isRelabel : ChoiceEdit → Bool
  | relabel _ _ => true
  | _ => false

/-- The text that is given to the choice at a position. -/
def text? (i : Nat) : ChoiceEdit → Option String
  | relabel j d => if j = i then some d else none
  | _ => none

def lastText? (i : Nat) (edits : List ChoiceEdit) : Option String :=
  (edits.filterMap (text? i)).getLast?

theorem lastText?_cons (i : Nat) (x : ChoiceEdit) (xs : List ChoiceEdit) :
    lastText? i (x :: xs) = (lastText? i xs).or (x.text? i) := by
  cases h : x.text? i with
  | none => simp [lastText?, h]
  | some d => simp [lastText?, h, List.getLast?_cons]

theorem text?_of_not_isRelabel {x : ChoiceEdit} (h : x.isRelabel = false) (i : Nat) :
    x.text? i = none := by
  cases x with
  | relabel j d => cases h
  | _ => rfl

theorem choice?_eq_none_iff {n : Nat} {x : ChoiceEdit} :
    x.choice? n = none ↔ x.isRelabel = true := by
  cases x <;> simp [choice?, isRelabel]

theorem index_of_choice? {n : Nat} {x : ChoiceEdit} {c : Choice} (h : x.choice? n = some c) :
    c.index = n := by
  cases x <;> cases h <;> rfl

end ChoiceEdit

open ChoiceEdit

namespace Choice

/-- The choice with the text that it is given last, if any. -/
def relabelled (edits : List ChoiceEdit) (c : Choice) : Choice :=
  { c with display := (lastText? c.index edits).getD c.display }

theorem relabelled_nil (c : Choice) : c.relabelled [] = c := rfl

theorem relabelled_cons (x : ChoiceEdit) (xs : List ChoiceEdit) (c : Choice) :
    c.relabelled (x :: xs) = (c.relabelled [x]).relabelled xs := by
  simp only [relabelled, lastText?_cons]
  cases lastText? c.index xs <;> rfl

theorem needle_relabelled (edits : List ChoiceEdit) (c : Choice) :
    (c.relabelled edits).needle = c.needle := rfl

theorem relabelled_eq_self {edits : List ChoiceEdit} {c : Choice}
    (h : ∀ x ∈ edits, x.text? c.index = none) : c.relabelled edits = c := by
  rw [relabelled, lastText?, List.filterMap_eq_nil_iff.mpr h]
  rfl

def textless (c : Choice) : Choice := { c with display := "" }

end Choice

/-- The choices that edits add behind `n` others, each with the last text that it is given after it
has been added. -/
def ChoiceEdit.added (n : Nat) : List ChoiceEdit → List Choice
  | [] => []
  | x :: xs =>
    match x.choice? n with
    | none => added n xs
    | some c => c.relabelled xs :: added (n + 1) xs

/-- But for the texts, the same choices are added if nothing is relabelled. -/
theorem ChoiceEdit.map_textless_added (xs : List ChoiceEdit) (n : Nat) :
    (added n xs).map Choice.textless =
      (added n (xs.filter (!·.isRelabel))).map Choice.textless := by
  induction xs generalizing n with
  | nil => rfl
  | cons x xs ih =>
    cases x with
    | relabel i d => exact ih n
    | add v d => exact congrArg (_ :: ·) (ih (n + 1))
    | addSelected v d s => exact congrArg (_ :: ·) (ih (n + 1))

theorem ChoiceEdit.added_eq_nil {xs : List ChoiceEdit} (h : ∀ x ∈ xs, x.isRelabel = true)
    (n : Nat) : added n xs = [] := by
  induction xs with
  | nil => rfl
  | cons x xs ih =>
    rw [added, choice?_eq_none_iff.mpr (h x List.mem_cons_self)]
    exact ih fun y hy => h y (List.mem_cons_of_mem _ hy)

namespace Enumeration

variable {e e' : Enumeration} {key : String} {r : Record} {c : Choice} {xs : List ChoiceEdit}

/-- Each choice stands at its index. -/
def Indexed (e : Enumeration) : Prop := e.choices.map Choice.index = List.range e.choices.length

theorem indexed_empty : empty.Indexed := rfl

theorem Indexed.index_eq (h : e.Indexed) {i : Nat} (hc : e.choices[i]? = some c) : c.index = i := by
  have hi := congrArg (·[i]?) h
  obtain ⟨hl, -⟩ := List.getElem?_eq_some_iff.mp hc
  simpa [hc, List.getElem?_range hl] using hi

/-- What one edit does: the choice that it names has its text, and a choice that it adds is last. -/
theorem choices_apply (h : e.Indexed) (x : ChoiceEdit) :
    (e.apply x).choices =
      e.choices.map (·.relabelled [x]) ++ (x.choice? e.choices.length).toList := by
  cases x with
  | relabel i d =>
    refine List.ext_getElem? fun j => ?_
    simp only [apply, relabel, choice?, Option.toList_none, List.append_nil, List.getElem?_map,
      List.getElem?_modify]
    cases hj : e.choices[j]? with
    | none => simp
    | some c =>
      have hc : c.index = j := h.index_eq hj
      by_cases hi : i = j
      · simp [Choice.relabelled, lastText?, text?, hc, hi]
      · have ht : c.relabelled [.relabel i d] = c :=
          Choice.relabelled_eq_self (by simp [text?, hc, hi])
        simp [ht, hi]
  | _ =>
    simp only [apply, push, choice?, Option.toList_some]
    rw [List.map_congr_left fun c _ => Choice.relabelled_eq_self (by simp [text?]), List.map_id']

theorem Indexed.apply (h : e.Indexed) (x : ChoiceEdit) : (e.apply x).Indexed := by
  have hk : (e.choices.map (·.relabelled [x])).map Choice.index = List.range e.choices.length :=
    List.map_map.trans h
  rw [Indexed, choices_apply h, List.map_append, hk]
  cases hx : x.choice? e.choices.length with
  | none => simp
  | some c => simp [index_of_choice? hx, List.range_succ]

theorem Indexed.applyAll (h : e.Indexed) (xs : List ChoiceEdit) : (e.applyAll xs).Indexed := by
  induction xs generalizing e with
  | nil => exact h
  | cons x xs ih => exact ih (h.apply x)

/-- What any edits do to the choices that there are, and which ones they add. -/
theorem choices_applyAll (h : e.Indexed) (xs : List ChoiceEdit) :
    (e.applyAll xs).choices =
      e.choices.map (·.relabelled xs) ++ added e.choices.length xs := by
  induction xs generalizing e with
  | nil => simp [applyAll, added, Choice.relabelled_nil]
  | cons x xs ih =>
    have hx := ih (h.apply x)
    simp only [choices_apply h, List.map_append, List.map_map, Function.comp_def,
      ← Choice.relabelled_cons, List.length_append, List.length_map] at hx
    refine hx.trans ?_
    rw [added]
    cases x.choice? e.choices.length <;> simp

/-! Selection. -/

/-- What a record is matched by. -/
def sought? (e : Enumeration) (key : String) (r : Record) : Option String :=
  if e.usesSelectors then (r.selector? key).or (r.plain? key) else r.plain? key

theorem needle_of_not_usesSelectors (h : e.usesSelectors = false) (hc : c ∈ e.choices) :
    c.needle = c.value := by
  have hs : c.selector = none := by simpa using List.any_eq_false.mp h c hc
  rw [Choice.needle, hs, Option.getD_none]

theorem select?_eq (e : Enumeration) (key : String) (r : Record) :
    e.select? key r = (e.sought? key r).bind fun s => e.choices.find? (·.needle = s) := by
  rw [select?, choose?, sought?]
  cases h : e.usesSelectors with
  | true => rfl
  | false =>
    refine Option.bind_congr fun s _ => List.find?_congr fun c hc => ?_
    rw [needle_of_not_usesSelectors h hc]

/-- The first choice that matches what the record is matched by. -/
theorem select?_eq_some_iff : e.select? key r = some c ↔
    ∃ before after, e.choices = before ++ c :: after ∧ e.sought? key r = some c.needle ∧
      ∀ b ∈ before, b.needle ≠ c.needle := by
  simp only [select?_eq, Option.bind_eq_some_iff, List.find?_eq_some_iff_append, Bool.not_eq_true',
    decide_eq_true_eq, decide_eq_false_iff_not]
  constructor
  · rintro ⟨s, hs, rfl, before, after, he, hb⟩
    exact ⟨before, after, he, hs, hb⟩
  · rintro ⟨before, after, he, hs, hb⟩
    exact ⟨c.needle, hs, rfl, before, after, he, hb⟩

theorem select?_eq_none_iff :
    e.select? key r = none ↔ ∀ c ∈ e.choices, e.sought? key r ≠ some c.needle := by
  simp only [select?_eq, Option.bind_eq_none_iff, List.find?_eq_none, decide_eq_true_eq]
  constructor
  · intro h c hc hs
    exact h _ hs c hc rfl
  · rintro h s hs c hc rfl
    exact h c hc hs

/-- A change to all choices that leaves their selectors and their values. -/
theorem select?_map {f : Choice → Choice} (hv : ∀ c, (f c).value = c.value)
    (hs : ∀ c, (f c).selector = c.selector) (e : Enumeration) (key : String) (r : Record) :
    select? ⟨e.choices.map f⟩ key r = (e.select? key r).map f := by
  have hn (c : Choice) : (f c).needle = c.needle := by rw [Choice.needle, Choice.needle, hv, hs]
  have hu : usesSelectors ⟨e.choices.map f⟩ = e.usesSelectors := by
    simp [usesSelectors, Function.comp_def, hs]
  simp only [select?_eq, sought?, hu, List.find?_map, Function.comp_def, hn]
  cases (if e.usesSelectors then (r.selector? key).or (r.plain? key) else r.plain? key) <;> rfl

theorem applyAll_of_isRelabel (h : e.Indexed) (hx : ∀ x ∈ xs, x.isRelabel = true) :
    e.applyAll xs = ⟨e.choices.map (·.relabelled xs)⟩ := by
  have hc := choices_applyAll h xs
  rw [added_eq_nil hx, List.append_nil] at hc
  rw [← hc]

theorem relabel_of_length_le {i : Nat} (h : e.choices.length ≤ i) (d : String) :
    e.relabel i d = e := by
  rw [relabel, List.modify_eq_self h]

theorem usesSelectors_applyAll (h : e.Indexed) (xs : List ChoiceEdit) :
    (e.applyAll xs).usesSelectors =
      (e.usesSelectors || (added e.choices.length xs).any (·.selector.isSome)) := by
  simp [usesSelectors, choices_applyAll h, Function.comp_def, Choice.relabelled]

/-- What a record is matched by changes only if the record has a selector and no choice had one. -/
theorem sought?_applyAll (h : e.Indexed) (xs : List ChoiceEdit)
    (hn : ¬(e.usesSelectors = false ∧ (e.applyAll xs).usesSelectors = true ∧
      r.selector? key ≠ none)) :
    (e.applyAll xs).sought? key r = e.sought? key r := by
  have hu := usesSelectors_applyAll h xs
  rw [sought?, sought?]
  cases he : e.usesSelectors with
  | true => simp [hu, he]
  | false =>
    cases hx : (e.applyAll xs).usesSelectors with
    | false => rfl
    | true =>
      have hr : r.selector? key = none := by
        by_contra hr
        exact hn ⟨he, hx, hr⟩
      simp [hr]

/-- A selection stays as it is, because no further choice stands before it. -/
theorem select?_applyAll (h : e.Indexed) (xs : List ChoiceEdit) (hs : e.select? key r = some c)
    (hn : ¬(e.usesSelectors = false ∧ (e.applyAll xs).usesSelectors = true ∧
      r.selector? key ≠ none)) :
    (e.applyAll xs).select? key r = some (c.relabelled xs) := by
  obtain ⟨before, after, he, hk, hb⟩ := select?_eq_some_iff.mp hs
  refine select?_eq_some_iff.mpr ⟨before.map (·.relabelled xs),
    after.map (·.relabelled xs) ++ added e.choices.length xs, ?_,
    (sought?_applyAll h xs hn).trans hk, ?_⟩
  · rw [choices_applyAll h, he]
    simp
  · simpa only [List.forall_mem_map, Choice.needle_relabelled] using hb

theorem choices_built (edits : List ChoiceEdit) :
    (empty.applyAll edits).choices = added 0 edits := choices_applyAll indexed_empty edits

theorem index_select?_congr (h : e.choices.map Choice.textless = e'.choices.map Choice.textless)
    (key : String) (r : Record) :
    (e.select? key r).map Choice.index = (e'.select? key r).map Choice.index := by
  have hs (e : Enumeration) :
      (e.select? key r).map Choice.index =
        (select? ⟨e.choices.map Choice.textless⟩ key r).map Choice.index := by
    rw [select?_map (f := Choice.textless) (fun _ => rfl) (fun _ => rfl), Option.map_map]
    rfl
  rw [hs, hs e', h]

/-- What is selected, and what for. The choices stand at their indices, each with the last text that
it was given. A record selects the first one that matches its selector, if there are selectors at
all, or else its value. Texts given to choices make no difference to this, and choices added behind
the others make none but for a record with a selector that comes into use with them. -/
theorem selection_built (edits : List ChoiceEdit) :
    let e := empty.applyAll edits
    e.choices = added 0 edits ∧ (∀ (i : Nat) (c : Choice), e.choices[i]? = some c → c.index = i) ∧
    (∀ key r c, e.select? key r = some c ↔
      ∃ before after, e.choices = before ++ c :: after ∧ e.sought? key r = some c.needle ∧
        ∀ b ∈ before, b.needle ≠ c.needle) ∧
    (∀ key r, (e.select? key r).map Choice.index =
      ((empty.applyAll (edits.filter (!·.isRelabel))).select? key r).map Choice.index) ∧
    (∀ xs, (∀ x ∈ xs, x.isRelabel = true) →
      (e.applyAll xs).choices = e.choices.map (·.relabelled xs) ∧
        ∀ key r, (e.applyAll xs).select? key r = (e.select? key r).map (·.relabelled xs)) ∧
    (∀ i d, e.choices.length ≤ i → e.relabel i d = e) ∧
    ∀ xs, (∀ x ∈ xs, x.isRelabel = false) → ∀ key r c, e.select? key r = some c →
      ¬(e.usesSelectors = false ∧ (e.applyAll xs).usesSelectors = true ∧
        r.selector? key ≠ none) →
      (e.applyAll xs).select? key r = some c := by
  intro e
  have hi : e.Indexed := indexed_empty.applyAll edits
  refine ⟨choices_built edits, fun i c hc => hi.index_eq hc, fun key r c => select?_eq_some_iff,
    ?_, ?_, fun i d h => relabel_of_length_le h d, ?_⟩
  · intro key r
    refine index_select?_congr ?_ key r
    rw [choices_built, choices_built, ChoiceEdit.map_textless_added]
  · intro xs hx
    rw [applyAll_of_isRelabel hi hx]
    exact ⟨rfl, select?_map (f := Choice.relabelled xs) (fun _ => rfl) (fun _ => rfl) e⟩
  · intro xs hx key r c hs hn
    have hc : c.relabelled xs = c := by
      refine Choice.relabelled_eq_self ?_
      intro x hm
      exact text?_of_not_isRelabel (hx x hm) c.index
    exact (select?_applyAll hi xs hs hn).trans (congrArg some hc)

/-- A text for a choice that is not there yet, and a selector for one choice of two. -/
def degrees : List ChoiceEdit :=
  [.relabel 1 "Doctor", .add "m" "Master", .addSelected "d" "PhD" "2", .relabel 0 "MA"]

theorem selection_built_degrees :
    let e := empty.applyAll degrees
    let r := (Record.empty.set "genre" (.text "m")).select "genre" "2"
    let d : Choice := ⟨1, "d", "PhD", some "2"⟩
    (e.choices[1]? = some d ∧ d.index = 1) ∧ e.select? "genre" r = some d ∧
      (∀ x ∈ [ChoiceEdit.relabel 1 "Dr", .relabel 3 "BA"], x.isRelabel = true) ∧
      (e.applyAll [.relabel 1 "Dr", .relabel 3 "BA"]).select? "genre" r =
        some { d with display := "Dr" } ∧
      (e.choices.length ≤ 2 ∧ e.relabel 2 "BA" = e) ∧
      (∀ x ∈ [ChoiceEdit.addSelected "h" "Habilitation" "2"], x.isRelabel = false) ∧
      (e.applyAll [.addSelected "h" "Habilitation" "2"]).select? "genre" r = some d := by
  intro e r d
  obtain ⟨-, hi, hf, -, hr, ho, ha⟩ := selection_built degrees
  have hd : e.choices[1]? = some d := by decide
  have hs : e.select? "genre" r = some d :=
    (hf "genre" r d).mpr ⟨[⟨0, "m", "MA", none⟩], [], by decide, by decide, by decide⟩
  refine ⟨⟨hd, hi 1 d hd⟩, hs, by decide, ?_, ⟨by decide, ho 2 "BA" (by decide)⟩, by decide, ?_⟩
  · rw [(hr _ (by decide)).2, hs]
    rfl
  · exact ha _ (by decide) "genre" r d hs (by decide)

/-- The first selector makes the selector of the record count. -/
example :
    let e := empty.applyAll [.add "m" "Master"]
    let r := (Record.empty.set "genre" (.text "m")).select "genre" "2"
    (e.select? "genre" r).map Choice.index = some 0 ∧
      ((e.push "d" "PhD" (some "2")).select? "genre" r).map Choice.index = some 1 := by
  decide

end Enumeration

end Stylebook
