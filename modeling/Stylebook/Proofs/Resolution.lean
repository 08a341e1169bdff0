import Mathlib
import Stylebook.Proofs.Date.Parts
import Stylebook.Proofs.Enumeration
import Stylebook.Proofs.Requirements

/-! # When a stub stands in

A trait has no data, or data that cannot be rendered, or a value. Only where there is no data does a
stub make a difference. A value comes with the texts around it, and these do not come without one.
-/

namespace Stylebook

variable {r : Record} {key : String} {kind : TraitKind} {v : Field} {s : String}

theorem Record.get?_eq_some_iff_field :
    r.get? key = some v ↔ r.fields.get? key = some v ∧ v.isNull = false := by
  simp [get?, Option.filter_eq_some_iff]

theorem Record.get?_eq_none_iff : r.get? key = none ↔ ¬ r.Has key := by
  rw [← isPresent_iff, isPresent, Option.not_isSome_iff_eq_none]

theorem Date.isEmpty_eq_true_iff {d : Date} : d.isEmpty = true ↔ d = .empty := by
  cases d
  simp [isEmpty, empty, and_assoc]

/-- Whether a field has the shape that a trait asks for. An enumeration looks for plain fields, and
passes over others. -/
inductive Field.Suits : Field → TraitKind → Prop
  | plain {v : Field} {kind : TraitKind} {s : String} : kind = .text ∨ kind = .number →
    v.plain? = some s → Suits v kind
  | date (d : Date) (pattern : String) : Suits (.date d) (.date pattern)
  | contributors (cs : List Contributor) (f : NameFormat) :
    Suits (.contributors cs) (.contributors f)
  | enumeration (v : Field) (e : Enumeration) : Suits v (.enumeration e)

namespace TraitKind

section Data

variable (r : Record) (key : String)

/-- There is no data. For an enumeration this goes by what is selected, whatever the field is. -/
inductive Absent : TraitKind → Prop
  | missing {kind : TraitKind} : ¬ r.Has key → (∀ e, kind ≠ enumeration e) → Absent kind
  | undated {pattern : String} : r.fields.get? key = some (.date .empty) →
    Absent (date pattern)
  | unnamed {f : NameFormat} : r.fields.get? key = some (.contributors []) →
    Absent (contributors f)
  | unselected {e : Enumeration} : (∀ c ∈ e.choices, e.sought? key r ≠ some c.needle) →
    Absent (enumeration e)

/-- There is data of another shape, or a date without a part that the pattern asks for. -/
inductive Unrenderable : TraitKind → Prop
  | misshapen {kind : TraitKind} {v : Field} : r.fields.get? key = some v → v.isNull = false →
    ¬ v.Suits kind → Unrenderable kind
  | incomplete {pattern : String} {d : Date} (x : Date.Part) :
    r.fields.get? key = some (.date d) → d ≠ .empty →
    x.letters <:+: pattern.toList → ¬ x.Given d → Unrenderable (date pattern)

/-- What the data is shown as. -/
inductive Shows : TraitKind → String → Prop
  | plain {kind : TraitKind} {v : Field} {s : String} : kind = text ∨ kind = number →
    r.fields.get? key = some v → v.plain? = some s → Shows kind s
  | date {pattern s : String} {d : Date} : r.fields.get? key = some (.date d) →
    d ≠ .empty → d.format? pattern = some s → Shows (date pattern) s
  | contributors {f : NameFormat} {cs : List Contributor} :
    r.fields.get? key = some (.contributors cs) → cs ≠ [] →
    Shows (contributors f) (Contributor.formatAll f cs)
  | choice {e : Enumeration} {c : Choice} : e.select? key r = some c →
    Shows (enumeration e) c.display

end Data

theorem resolve_of_absent (h : kind.Absent r key) : kind.resolve key r = .absent := by
  cases h with
  | missing hm hn =>
    have hg : r.get? key = none := Record.get?_eq_none_iff.mpr hm
    cases kind with
    | enumeration e => exact absurd rfl (hn e)
    | _ =>
      rw [resolve, hg]
      rfl
  | undated hf =>
    have hg : r.get? key = some (.date .empty) := Record.get?_eq_some_iff_field.mpr ⟨hf, rfl⟩
    rw [resolve, hg]
    rfl
  | unnamed hf =>
    have hg : r.get? key = some (.contributors []) := Record.get?_eq_some_iff_field.mpr ⟨hf, rfl⟩
    rw [resolve, hg]
    rfl
  | unselected hc =>
    rw [resolve, Enumeration.select?_eq_none_iff.mpr hc]
    rfl

theorem resolve_of_unrenderable (h : kind.Unrenderable r key) :
    kind.resolve key r = .unresolved := by
  cases h with
  | @misshapen _ v hf hn hs =>
    have hg : r.get? key = some v := Record.get?_eq_some_iff_field.mpr ⟨hf, hn⟩
    cases kind with
    | text | number =>
      have hp : v.plain? = none := by
        cases hp : v.plain? with
        | none => rfl
        | some s => exact absurd (.plain (by simp) hp) hs
      rw [resolve, hg, Resolved.ofPlain, hp]
      rfl
    | date pattern =>
      cases v with
      | date d => exact absurd (.date d pattern) hs
      | _ =>
        rw [resolve, hg]
        rfl
    | contributors f =>
      cases v with
      | contributors cs => exact absurd (.contributors cs f) hs
      | _ =>
        rw [resolve, hg]
        rfl
    | enumeration e => exact absurd (.enumeration v e) hs
  | @incomplete pattern d x hf hd hx hg =>
    have hr : r.get? key = some (.date d) := Record.get?_eq_some_iff_field.mpr ⟨hf, rfl⟩
    have hn : d.format? pattern = none := Date.format?_eq_none_iff.mpr ⟨x, hx, hg⟩
    rw [resolve, hr, Resolved.ofDate, if_neg (mt Date.isEmpty_eq_true_iff.mp hd), hn]
    rfl

theorem resolve_of_shows (h : kind.Shows r key s) : kind.resolve key r = .value s := by
  cases h with
  | @plain _ v _ hk hf hp =>
    have hg : r.get? key = some v := Record.get?_eq_some_iff_field.mpr ⟨hf, by
      cases v with
      | null => cases hp
      | _ => rfl⟩
    rcases hk with rfl | rfl <;>
    · rw [resolve, hg, Resolved.ofPlain, hp]
      rfl
  | @date pattern _ d hf hd hs =>
    have hg : r.get? key = some (.date d) := Record.get?_eq_some_iff_field.mpr ⟨hf, rfl⟩
    rw [resolve, hg, Resolved.ofDate, if_neg (mt Date.isEmpty_eq_true_iff.mp hd), hs]
    rfl
  | @contributors f cs hf hn =>
    have hg : r.get? key = some (.contributors cs) := Record.get?_eq_some_iff_field.mpr ⟨hf, rfl⟩
    obtain ⟨c, cs, rfl⟩ := List.exists_cons_of_ne_nil hn
    rw [resolve, hg]
    rfl
  | @choice e c hc =>
    rw [resolve, hc]
    rfl

/-- Data that is there is shown, or it cannot be rendered. -/
theorem absent_or_unrenderable_or_shows (kind : TraitKind) (r : Record) (key : String) :
    kind.Absent r key ∨ kind.Unrenderable r key ∨ ∃ s, kind.Shows r key s := by
  by_cases he : ∃ e, kind = enumeration e
  · obtain ⟨e, rfl⟩ := he
    cases hc : e.select? key r with
    | none => exact .inl (.unselected (Enumeration.select?_eq_none_iff.mp hc))
    | some c => exact .inr (.inr ⟨_, .choice hc⟩)
  · by_cases hm : r.Has key
    · obtain ⟨v, hf, hn⟩ := hm
      by_cases hs : v.Suits kind
      · cases hs with
        | plain hk hp => exact .inr (.inr ⟨_, .plain hk hf hp⟩)
        | date d pattern =>
          by_cases hd : d = .empty
          · exact .inl (.undated (hd ▸ hf))
          · cases hr : d.format? pattern with
            | none =>
              obtain ⟨x, hx, hg⟩ := Date.format?_eq_none_iff.mp hr
              exact .inr (.inl (.incomplete x hf hd hx hg))
            | some s => exact .inr (.inr ⟨s, .date hf hd hr⟩)
        | contributors cs f =>
          by_cases hc : cs = []
          · exact .inl (.unnamed (hc ▸ hf))
          · exact .inr (.inr ⟨_, .contributors hf hc⟩)
        | enumeration v e => exact absurd ⟨e, rfl⟩ he
      · exact .inr (.inl (.misshapen hf hn hs))
    · exact .inl (.missing hm (not_exists.mp he))

/-- A selector that some choice has selects, whatever the field is. -/
theorem not_absent_of_selector {e : Enumeration} {c : Choice} (hc : c ∈ e.choices)
    (hs : c.selector = some s) (hr : r.selector? key = some s) :
    ¬ (enumeration e).Absent r key := by
  have hu : e.usesSelectors = true := List.any_eq_true.mpr ⟨c, hc, by simp [hs]⟩
  have hn : e.sought? key r = some c.needle := by
    simp [Enumeration.sought?, hu, hr, Choice.needle, hs]
  intro h
  cases h with
  | missing hm he => exact he e rfl
  | unselected h => exact h c hc hn

end TraitKind

namespace Trait

variable {t : Trait}

theorem resolve?_of_absent (h : t.kind.Absent r t.key) (stub : Option String) :
    { t with stub := stub }.resolve? r = stub.map fun s => ⟨t.before, s, t.after⟩ := by
  rw [resolve?, TraitKind.resolve_of_absent h]

theorem resolve?_of_unrenderable (h : t.kind.Unrenderable r t.key) (stub : Option String) :
    { t with stub := stub }.resolve? r = none := by
  rw [resolve?, TraitKind.resolve_of_unrenderable h]

theorem resolve?_of_shows (h : t.kind.Shows r t.key s) (stub : Option String) :
    { t with stub := stub }.resolve? r = some ⟨t.before, s, t.after⟩ := by
  rw [resolve?, TraitKind.resolve_of_shows h]

theorem texts_of_resolve? {f : Fragment} (h : t.resolve? r = some f) :
    f.before = t.before ∧ f.after = t.after := by
  unfold resolve? at h
  split at h
  · cases h
    exact ⟨rfl, rfl⟩
  · obtain ⟨s, -, rfl⟩ := Option.map_eq_some_iff.mp h
    exact ⟨rfl, rfl⟩
  · cases h

end Trait

/-- A trait is shown with the texts around it, or not at all. Its stub is shown in place of data that
is absent, and makes no other difference: what cannot be rendered is left out with any stub, and
what can be is shown with any. Choices may be selected although the field is missing. -/
theorem resolve_stub (t : Trait) (r : Record) :
    (∀ f, t.resolve? r = some f → f.before = t.before ∧ f.after = t.after) ∧
    (t.kind.Absent r t.key → ∀ stub, { t with stub := stub }.resolve? r =
      stub.map fun s => ⟨t.before, s, t.after⟩) ∧
    (t.kind.Unrenderable r t.key → ∀ stub, { t with stub := stub }.resolve? r = none) ∧
    (¬ t.kind.Absent r t.key → ¬ t.kind.Unrenderable r t.key →
      ∃ s, t.kind.Shows r t.key s ∧
        ∀ stub, { t with stub := stub }.resolve? r = some ⟨t.before, s, t.after⟩) ∧
    ¬ (t.kind.Absent r t.key ∧ t.kind.Unrenderable r t.key) ∧
    (∀ stub, { t with stub := stub }.resolve? r ≠ t.resolve? r → t.kind.Absent r t.key) ∧
    ∀ e, t.kind = .enumeration e → ¬ t.kind.Unrenderable r t.key ∧
      (t.kind.Absent r t.key ↔ e.select? t.key r = none) ∧
      ∀ c ∈ e.choices, c.selector ≠ none → r.selector? t.key = c.selector →
        ¬ t.kind.Absent r t.key := by
  refine ⟨fun f => Trait.texts_of_resolve?, Trait.resolve?_of_absent,
    Trait.resolve?_of_unrenderable, fun ha hu => ?_, ?_, fun stub hs => ?_, fun e he => ?_⟩
  · obtain ⟨s, hs⟩ := (t.kind.absent_or_unrenderable_or_shows r t.key).resolve_left ha
      |>.resolve_left hu
    exact ⟨s, hs, Trait.resolve?_of_shows hs⟩
  · rintro ⟨ha, hu⟩
    have h : Resolved.absent = .unresolved :=
      (TraitKind.resolve_of_absent ha).symm.trans (TraitKind.resolve_of_unrenderable hu)
    cases h
  · by_contra ha
    refine hs ?_
    rcases (t.kind.absent_or_unrenderable_or_shows r t.key).resolve_left ha with hu | ⟨s, hv⟩
    · exact (Trait.resolve?_of_unrenderable hu stub).trans
        (Trait.resolve?_of_unrenderable hu t.stub).symm
    · exact (Trait.resolve?_of_shows hv stub).trans (Trait.resolve?_of_shows hv t.stub).symm
  · rw [he]
    refine ⟨?_, ?_, ?_⟩
    · rintro ⟨hf, hn, hs⟩
      exact hs (.enumeration _ e)
    · rw [Enumeration.select?_eq_none_iff]
      constructor
      · rintro (⟨-, hn⟩ | - | - | h)
        · exact absurd rfl (hn e)
        · exact h
      · exact .unselected
    · intro c hc hs hr
      obtain ⟨s, hs⟩ := Option.ne_none_iff_exists'.mp hs
      exact TraitKind.not_absent_of_selector hc hs (hr.trans hs)

def Trait.issued : Trait where
  key := "issued"
  before := "("
  after := ")"
  kind := .date "MMM YY"
  visibility := .normal
  stub := some "n.d."
  markup := .plain
  order := 0

/-- A date without any part, without a month and with one, and a choice for a missing field. -/
theorem resolve_stub_issued :
    let t := Trait.issued
    let r (d : Date) := Record.empty.set "issued" (.date d)
    let c : Choice := ⟨0, "p", "in press", some "press"⟩
    let t' := { t with kind := .enumeration ⟨[c]⟩ }
    (t.kind.Absent (r .empty) "issued" ∧ t.resolve? (r .empty) = some ⟨"(", "n.d.", ")"⟩ ∧
      { t with stub := none }.resolve? (r .empty) ≠ t.resolve? (r .empty)) ∧
    (t.kind.Unrenderable (r ⟨some "2010", none, some "5"⟩) "issued" ∧
      t.resolve? (r ⟨some "2010", none, some "5"⟩) = none) ∧
    (¬ t.kind.Absent (r ⟨some "2010", some "1", none⟩) "issued" ∧
      ¬ t.kind.Unrenderable (r ⟨some "2010", some "1", none⟩) "issued" ∧
      ∃ f, t.resolve? (r ⟨some "2010", some "1", none⟩) = some f ∧
        f.before = "(" ∧ f.value = "Jan 10" ∧ f.after = ")") ∧
    (t'.kind = .enumeration ⟨[c]⟩ ∧ c.selector ≠ none ∧
      ¬ t'.kind.Absent (Record.empty.select "issued" "press") "issued") := by
  intro t r c t'
  have hf (d : Date) : (r d).fields.get? "issued" = some (.date d) := rfl
  obtain ⟨-, ha, -, -, -, hs, -⟩ := resolve_stub t (r .empty)
  obtain ⟨-, -, hu, -⟩ := resolve_stub t (r ⟨some "2010", none, some "5"⟩)
  obtain ⟨ht, -, -, hv, hn, -⟩ := resolve_stub t (r ⟨some "2010", some "1", none⟩)
  obtain ⟨-, -, -, -, -, -, he⟩ := resolve_stub t' (Record.empty.select "issued" "press")
  have hd : t.kind.Absent (r .empty) "issued" := .undated (hf _)
  have hl : t.kind.Unrenderable (r ⟨some "2010", none, some "5"⟩) "issued" := by
    refine .incomplete .month (hf _) (by simp [Date.empty]) (by decide) ?_
    rintro ⟨s, n, h, -⟩
    cases h
  have hk : Date.tokens "MMM YY".toList = [.monthAbbrev, .literal " ", .shortYear] :=
    (Date.tokens_eq_flatMap _).trans (by decide)
  have hw : t.kind.Shows (r ⟨some "2010", some "1", none⟩) "issued" "Jan 10" :=
    .date (hf _) (by simp [Date.empty]) <|
      (congrArg (Date.renderAll? ⟨some "2010", some "1", none⟩) hk).trans (by decide)
  have hna : ¬ t.kind.Absent (r ⟨some "2010", some "1", none⟩) "issued" := fun h =>
    absurd ((TraitKind.resolve_of_absent h).symm.trans (TraitKind.resolve_of_shows hw)) (by decide)
  have hnu : ¬ t.kind.Unrenderable (r ⟨some "2010", some "1", none⟩) "issued" := fun h =>
    absurd ((TraitKind.resolve_of_unrenderable h).symm.trans (TraitKind.resolve_of_shows hw))
      (by decide)
  have hstub : t.resolve? (r .empty) = some ⟨"(", "n.d.", ")"⟩ := ha hd (some "n.d.")
  have hnone : { t with stub := none }.resolve? (r .empty) ≠ t.resolve? (r .empty) := by
    rw [ha hd none, hstub]
    decide
  obtain ⟨s, hs', hall⟩ := hv hna hnu
  have hsame : s = "Jan 10" := Resolved.value.inj
    ((TraitKind.resolve_of_shows hs').symm.trans (TraitKind.resolve_of_shows hw))
  have hres := hall (some "n.d.")
  exact ⟨⟨hs none hnone, hstub, hnone⟩, ⟨hl, hu hl (some "n.d.")⟩,
    ⟨hna, hnu, _, hres, (ht _ hres).1, hsame, (ht _ hres).2⟩, rfl, by decide,
    (he _ rfl).2.2 c (List.mem_singleton.mpr rfl) (by decide) rfl⟩

end Stylebook
