import Mathlib
import Stylebook.Configuration
import Stylebook.Proofs.Enumeration

/-! # Configuring twice

Most edits of a trait write something in the place of what was there, so a later edit hides an
earlier one or does not see it. To run a list of such edits again changes nothing.
-/

namespace Stylebook

section Settles

variable {α β : Type} {f : β → α → β} {p : α → Prop} {xs ys : List α} {x : α} {b b' : β}

/-- To do the same thing again makes no difference, and what it hides stays hidden if another thing
is done in between. -/
structure Settles (f : β → α → β) (p : α → Prop) : Prop where
  again : ∀ {x} b, p x → f (f b x) x = f b x
  hidden : ∀ {x y b b'}, p x → p y → f b x = f b' x → f (f b y) x = f (f b' y) x

namespace Settles

variable (h : Settles f p) (hy : ∀ y ∈ ys, p y)

include h hy

theorem foldl_hidden (hx : p x) (hb : f b x = f b' x) :
    f (ys.foldl f b) x = f (ys.foldl f b') x := by
  induction ys generalizing b b' with
  | nil => exact hb
  | cons y ys ih =>
    exact ih (fun z hz => hy z (List.mem_cons_of_mem _ hz))
      (h.hidden hx (hy y List.mem_cons_self) hb)

/-- What is done anyway later on need not be done before. -/
theorem foldl_of_mem (hx : x ∈ ys) (b : β) : ys.foldl f (f b x) = ys.foldl f b := by
  obtain ⟨us, vs, rfl⟩ := List.append_of_mem hx
  have hu : ∀ u ∈ us, p u := fun u hu => hy u (List.mem_append_left _ hu)
  have hb : f (us.foldl f (f b x)) x = f (us.foldl f b) x :=
    h.foldl_hidden hu (hy x hx) (h.again b (hy x hx))
  rw [List.foldl_append, List.foldl_append, List.foldl_cons, List.foldl_cons, hb]

theorem foldl_of_subset (hs : xs ⊆ ys) (b : β) : ys.foldl f (xs.foldl f b) = ys.foldl f b := by
  induction xs generalizing b with
  | nil => rfl
  | cons x xs ih =>
    obtain ⟨hx, hs⟩ := List.cons_subset.mp hs
    rw [List.foldl_cons, ih hs, h.foldl_of_mem hy hx]

theorem foldl_foldl (b : β) : ys.foldl f (ys.foldl f b) = ys.foldl f b :=
  h.foldl_of_subset hy (List.Subset.refl ys) b

end Settles

end Settles

namespace Enumeration

variable {e e' : Enumeration} {es es' : List ChoiceEdit}

theorem relabel_relabel (e : Enumeration) (i : Nat) (a b : String) :
    (e.relabel i a).relabel i b = e.relabel i b := by
  simp only [relabel, List.modify_modify_eq]
  rfl

theorem relabel_comm (e : Enumeration) {i j : Nat} (h : i ≠ j) (a b : String) :
    (e.relabel i a).relabel j b = (e.relabel j b).relabel i a := by
  simp only [relabel, List.modify_modify_ne _ _ _ h]

theorem exists_of_isRelabel {x : ChoiceEdit} (h : x.isRelabel = true) :
    ∃ i d, x = .relabel i d := by
  cases x with
  | relabel i d => exact ⟨i, d, rfl⟩
  | _ => cases h

theorem settles_apply : Settles apply fun x => x.isRelabel = true where
  again := by
    intro x e hx
    obtain ⟨i, a, rfl⟩ := exists_of_isRelabel hx
    exact e.relabel_relabel i a a
  hidden := by
    intro x y e e' hx hy h
    obtain ⟨i, a, rfl⟩ := exists_of_isRelabel hx
    obtain ⟨j, b, rfl⟩ := exists_of_isRelabel hy
    by_cases hj : j = i
    · subst hj
      simpa only [apply, relabel_relabel] using h
    · simp only [apply, relabel_comm _ hj]
      exact congrArg (relabel · j b) h

theorem applyAll_hidden (h : ∀ x ∈ es, x.isRelabel = true) (h' : ∀ x ∈ es', x.isRelabel = true)
    (he : e.applyAll es = e'.applyAll es) :
    (e.applyAll es').applyAll es = (e'.applyAll es').applyAll es := by
  have hr : ∀ x ∈ es' ++ es, x.isRelabel = true := fun x hx =>
    (List.mem_append.mp hx).elim (h' x) (h x)
  have hs (e : Enumeration) :
      (e.applyAll es').applyAll es = ((e.applyAll es).applyAll es').applyAll es := by
    have := settles_apply.foldl_of_subset hr (List.subset_append_right es' es) e
    simpa only [applyAll, List.foldl_append] using this.symm
  rw [hs, he, ← hs]

end Enumeration

/-- Whether the edit neither adds choices nor reads the text that it extends. -/
def TraitEdit.isRepeatable : TraitEdit → Bool
  | choices edits => edits.all (·.isRelabel)
  | extendAfter _ => false
  | _ => true

namespace TraitKind

variable (k : TraitKind) (s s' a b a' b' : String)

theorem setPattern_setPattern : (k.setPattern s).setPattern s' = k.setPattern s' := by
  cases k <;> rfl

theorem setSeparators_setSeparators :
    (k.setSeparators a b).setSeparators a' b' = k.setSeparators a' b' := by
  cases k <;> rfl

theorem setPattern_setSeparators :
    (k.setSeparators a b).setPattern s = (k.setPattern s).setSeparators a b := by
  cases k <;> rfl

@[simp] theorem choices_setPattern : (k.setPattern s).choices = k.choices := by
  cases k <;> rfl

@[simp] theorem choices_setSeparators : (k.setSeparators a b).choices = k.choices := by
  cases k <;> rfl

end TraitKind

theorem Markup.set_hidden {m m' : Markup} {st : TextStyle} {s : Segments}
    (h : m.set st s = m'.set st s) (st' : TextStyle) (s' : Segments) :
    (m.set st' s').set st s = (m'.set st' s').set st s := by
  cases st <;> cases st' <;> simp_all [set]

namespace Trait

variable {t : Trait} {es : List TraitEdit}

/-- Each edit changes one part of a trait, and the kind is the only part of which edits keep some
and change some. -/
theorem settles_apply : Settles apply fun e => e.isRepeatable = true where
  again := by
    intro x t hx
    cases x with
    | style st s => cases st <;> rfl
    | pattern s => simp only [apply, TraitKind.setPattern_setPattern]
    | separators a b => simp only [apply, TraitKind.setSeparators_setSeparators]
    | choices es =>
      have he := Enumeration.settles_apply.foldl_foldl (List.all_eq_true.mp hx) t.kind.choices
      exact congrArg (fun e => { t with kind := .enumeration e }) he
    | extendAfter s => cases hx
    | _ => rfl
  hidden := by
    intro x y t t' hx hy h
    cases x with
    | before s | beforeKey =>
      obtain ⟨b, rfl⟩ : ∃ b, t' = { t with before := b } :=
        ⟨t'.before, by cases t; cases t'; simp_all [apply]⟩
      cases y <;> rfl
    | after s =>
      obtain ⟨b, rfl⟩ : ∃ b, t' = { t with after := b } :=
        ⟨t'.after, by cases t; cases t'; simp_all [apply]⟩
      cases y <;> rfl
    | stub s =>
      obtain ⟨b, rfl⟩ : ∃ b, t' = { t with stub := b } :=
        ⟨t'.stub, by cases t; cases t'; simp_all [apply]⟩
      cases y <;> rfl
    | display on =>
      obtain ⟨v, rfl⟩ : ∃ v, t' = { t with visibility := v } :=
        ⟨t'.visibility, by cases t; cases t'; simp_all [apply]⟩
      cases y <;> rfl
    | style st s =>
      obtain ⟨m, rfl, hm⟩ : ∃ m, t' = { t with markup := m } ∧ t.markup.set st s = m.set st s :=
        ⟨t'.markup, by cases t; cases t'; simp_all [apply]⟩
      cases y with
      | style st' s' => simp only [apply, Markup.set_hidden hm]
      | _ => simp only [apply, hm]
    | pattern s =>
      obtain ⟨k, rfl, hk⟩ : ∃ k, t' = { t with kind := k } ∧
          t.kind.setPattern s = k.setPattern s :=
        ⟨t'.kind, by cases t; cases t'; simp_all [apply]⟩
      have hc : t.kind.choices = k.choices := by simpa using congrArg TraitKind.choices hk
      cases y with
      | pattern s' => simp only [apply, TraitKind.setPattern_setPattern, hk]
      | separators a b => simp only [apply, TraitKind.setPattern_setSeparators, hk]
      | choices es => simp only [apply, hc]
      | _ => simp only [apply, hk]
    | separators a b =>
      obtain ⟨k, rfl, hk⟩ : ∃ k, t' = { t with kind := k } ∧
          t.kind.setSeparators a b = k.setSeparators a b :=
        ⟨t'.kind, by cases t; cases t'; simp_all [apply]⟩
      have hc : t.kind.choices = k.choices := by simpa using congrArg TraitKind.choices hk
      cases y with
      | pattern s => simp only [apply, ← TraitKind.setPattern_setSeparators, hk]
      | separators a' b' => simp only [apply, TraitKind.setSeparators_setSeparators, hk]
      | choices es => simp only [apply, hc]
      | _ => simp only [apply, hk]
    | choices es =>
      obtain ⟨k, rfl, hk⟩ : ∃ k, t' = { t with kind := k } ∧
          t.kind.choices.applyAll es = k.choices.applyAll es :=
        ⟨t'.kind, by cases t; cases t'; simp_all [apply]⟩
      cases y with
      | pattern s => simp only [apply, TraitKind.choices_setPattern, hk]
      | separators a b => simp only [apply, TraitKind.choices_setSeparators, hk]
      | choices es' =>
        have he := Enumeration.applyAll_hidden (List.all_eq_true.mp hx) (List.all_eq_true.mp hy) hk
        exact congrArg (fun e => { t with kind := .enumeration e }) he
      | _ => simp only [apply, hk]
    | extendAfter s => cases hx

theorem applyAll_applyAll (h : ∀ e ∈ es, e.isRepeatable = true) (t : Trait) :
    (t.applyAll es).applyAll es = t.applyAll es := settles_apply.foldl_foldl h t

end Trait

end Stylebook
