import Mathlib
import Stylebook.Proofs.Requirements

/-! # What triggers can change

A call of a trigger works on the items of the key that it names, and sees no others. So the items of
a key depend on the calls that name it, whatever is called in between for other keys.
-/

namespace Stylebook

namespace TraitKind

@[simp] theorem name_setPattern (kind : TraitKind) (s : String) :
    (kind.setPattern s).name = kind.name := by
  cases kind <;> rfl

@[simp] theorem name_setSeparators (kind : TraitKind) (sep finalSep : String) :
    (kind.setSeparators sep finalSep).name = kind.name := by
  cases kind <;> rfl

end TraitKind

/-- The second trait may be the first one after edits: a kind stays, or turns into an
enumeration. -/
structure Trait.Alike (t t' : Trait) : Prop where
  key : t'.key = t.key
  order : t'.order = t.order
  kind : t'.kind.name = t.kind.name ∨ t'.kind.name = "enum"

namespace Trait.Alike

variable {t t' t'' : Trait}

theorem refl (t : Trait) : Alike t t := ⟨rfl, rfl, .inl rfl⟩

theorem trans (h : Alike t t') (h' : Alike t' t'') : Alike t t'' where
  key := h'.key.trans h.key
  order := h'.order.trans h.order
  kind := h'.kind.elim (fun e => e ▸ h.kind) .inr

theorem apply (t : Trait) (e : TraitEdit) : Alike t (t.apply e) := by
  cases e with
  | pattern s => exact ⟨rfl, rfl, .inl (TraitKind.name_setPattern _ s)⟩
  | separators sep finalSep => exact ⟨rfl, rfl, .inl (TraitKind.name_setSeparators _ sep finalSep)⟩
  | choices edits => exact ⟨rfl, rfl, .inr rfl⟩
  | _ => exact ⟨rfl, rfl, .inl rfl⟩

theorem applyAll (t : Trait) (edits : List TraitEdit) : Alike t (t.applyAll edits) := by
  induction edits generalizing t with
  | nil => exact refl t
  | cons e edits ih => exact (apply t e).trans (ih (t.apply e))

end Trait.Alike

namespace Item

inductive Alike : Item → Item → Prop
  | trait {t t' : Trait} : t.Alike t' → Alike (trait t) (trait t')
  | text {t t' : TextBlock} : t'.key = t.key → t'.order = t.order → Alike (text t) (text t')

namespace Alike

variable {i j l : Item}

theorem refl (i : Item) : Alike i i := by
  cases i with
  | trait t => exact .trait (.refl t)
  | text t => exact .text rfl rfl

theorem trans (h : Alike i j) (h' : Alike j l) : Alike i l := by
  cases h with
  | trait h => cases h' with | trait h' => exact .trait (h.trans h')
  | text hk ho => cases h' with | text hk' ho' => exact .text (hk'.trans hk) (ho'.trans ho)

theorem key_eq (h : Alike i j) : j.key = i.key := by
  cases h with
  | trait h => exact h.key
  | text hk _ => exact hk

theorem map_key_eq {items items' : List Item} (h : List.Forall₂ Alike items items') :
    items'.map Item.key = items.map Item.key := by
  induction h with
  | nil => rfl
  | cons h _ ih => rw [List.map_cons, List.map_cons, h.key_eq, ih]

end Alike

/-- The items of one key, in order. -/
def named (k : String) (items : List Item) : List Item := items.filter (·.key = k)

variable {k : String} {items items' : List Item}

/-- Items in which every key stands at the same places are determined by the items of each key. -/
theorem eq_of_named (hk : items.map key = items'.map key)
    (h : ∀ k, named k items = named k items') : items = items' := by
  induction items generalizing items' with
  | nil => exact (List.map_eq_nil_iff.mp hk.symm).symm
  | cons i items ih =>
    cases items' with
    | nil => cases hk
    | cons j items' =>
      obtain ⟨hij, ht⟩ := List.cons.inj hk
      -- The key of the first item tells that the first items are one.
      have hh := h i.key
      simp only [named, List.filter_cons, ← hij, decide_true, if_true] at hh
      obtain ⟨rfl, hi⟩ := List.cons.inj hh
      refine congrArg (i :: ·) (ih ht fun k => ?_)
      by_cases hik : i.key = k
      · exact hik ▸ hi
      · simpa [named, hik] using h k

end Item

theorem Patch.alike_merge (p : Patch) (i : Item) : i.Alike (p.merge i) := by
  cases i with
  | trait t => exact .trait ⟨rfl, rfl, .inl rfl⟩
  | text t => exact .text rfl rfl

namespace Edit

/-- The calls that name one key, in order. -/
def naming (k : String) (es : List Edit) : List Edit := es.filter (·.key = k)

/-- What a call does to an item of its key. -/
def onItem (items : List Item) : Edit → Item → Item
  | patch _ p => p.merge
  | configure _ edits => .onTrait (·.applyAll edits)
  | display _ on => .setVisibility (.chosen on)
  | extendAfter k s => match extended? items k s with
    | some p => p.merge
    | none => id

section Step

variable (items : List Item) (e : Edit) (i : Item) (k : String)

theorem apply_eq_edit : apply items e = Item.edit e.key (e.onItem items) items := by
  cases e with
  | extendAfter k s => cases h : extended? items k s <;> simp [apply, onItem, Item.edit, h, key]
  | _ => rfl

theorem alike_onItem : i.Alike (e.onItem items i) := by
  cases e with
  | patch k p => exact p.alike_merge i
  | configure k edits =>
    cases i with
    | trait t => exact .trait (.applyAll t edits)
    | text t => exact .text rfl rfl
  | display k on =>
    cases i with
    | trait t => exact .trait ⟨rfl, rfl, .inl rfl⟩
    | text t => exact .text rfl rfl
  | extendAfter k s =>
    rw [onItem]
    cases extended? items k s with
    | some p => exact p.alike_merge i
    | none => exact .refl i

/-- A call that reads the items reads the first of its key. -/
theorem onItem_named : e.onItem (Item.named e.key items) = e.onItem items := by
  cases e with
  | extendAfter k s =>
    have h : extended? (Item.named k items) k s = extended? items k s := by
      simp [extended?, Item.named, List.find?_filter]
    rw [onItem, key, h, onItem]
  | _ => rfl

theorem forall₂_alike_apply {items₀ : List Item} (h : List.Forall₂ Item.Alike items₀ items) :
    List.Forall₂ Item.Alike items₀ (apply items e) := by
  rw [apply_eq_edit, Item.edit, List.forall₂_map_right_iff]
  refine h.imp fun i j hij => ?_
  split
  · exact hij.trans (alike_onItem items e j)
  · exact hij

theorem named_apply : Item.named k (apply items e) =
    if e.key = k then apply (Item.named k items) e else Item.named k items := by
  -- A call keeps keys, so its items can be picked out before it or after it.
  have hk (j : Item) : (if j.key = e.key then e.onItem items j else j).key = j.key := by
    split
    · exact (alike_onItem items e j).key_eq
    · rfl
  have hn : Item.named k (apply items e) =
      (Item.named k items).map fun j => if j.key = e.key then e.onItem items j else j := by
    simp only [apply_eq_edit, Item.edit, Item.named, List.filter_map, Function.comp_def, hk]
  by_cases h : e.key = k
  · rw [if_pos h, hn, apply_eq_edit, Item.edit, ← h, onItem_named]
  · rw [if_neg h, hn]
    refine (List.map_congr_left fun j hj => if_neg fun hj' => h ?_).trans (List.map_id _)
    exact hj'.symm.trans (of_decide_eq_true (List.mem_filter.mp hj).2)

/-- A call leaves an item of another key as it is. -/
theorem getElem?_apply_of_ne {n : Nat} (h : items[n]? = some i) (hk : e.key ≠ i.key) :
    (apply items e)[n]? = some i := by
  rw [apply_eq_edit, Item.edit, List.getElem?_map, h, Option.map_some, if_neg hk.symm]

end Step

section Run

variable (items : List Item) (es : List Edit) (k : String)

theorem forall₂_alike_run : List.Forall₂ Item.Alike items (es.foldl apply items) := by
  induction es using List.reverseRecOn with
  | nil => exact List.forall₂_same.mpr fun i _ => .refl i
  | append_singleton es e ih =>
    rw [List.foldl_append]
    exact forall₂_alike_apply _ e ih

/-- The calls for other keys can be left out. -/
theorem named_run : Item.named k (es.foldl apply items) =
    (naming k es).foldl apply (Item.named k items) := by
  induction es generalizing items with
  | nil => rfl
  | cons e es ih =>
    rw [List.foldl_cons, ih, named_apply, naming, naming, List.filter_cons]
    by_cases h : e.key = k <;> simp [h]

theorem getElem?_run_of_ne {n : Nat} {i : Item} (h : items[n]? = some i)
    (hk : ∀ e ∈ es, e.key ≠ i.key) : (es.foldl apply items)[n]? = some i := by
  induction es generalizing items with
  | nil => exact h
  | cons e es ih =>
    exact ih _ (getElem?_apply_of_ne items e i h (hk e (by simp))) fun e' he =>
      hk e' (List.mem_cons_of_mem _ he)

/-- Calls for different keys commute: only their order for each key counts. -/
theorem run_eq_run {es es' : List Edit} (h : ∀ k, naming k es = naming k es') :
    es.foldl apply items = es'.foldl apply items := by
  refine Item.eq_of_named ?_ fun k => by rw [named_run, named_run, h k]
  rw [Item.Alike.map_key_eq (forall₂_alike_run items es),
    Item.Alike.map_key_eq (forall₂_alike_run items es')]

end Run

end Edit

/-- Whether a trigger fires is up to the record, whatever earlier triggers did. -/
theorem Trigger.edits_eq (ts : List Trigger) (r : Record) :
    edits ts r = (ts.filter fun t => r.Has t.gate).flatMap (Action.editsAll r ·.actions) := by
  induction ts with
  | nil => rfl
  | cons t ts ih =>
    rw [edits, List.flatMap_cons, ← edits, ih, List.filter_cons, fires]
    simp only [← Record.isPresent_iff, Bool.decide_eq_true]
    cases r.isPresent t.gate <;> simp

/-- The triggers of a style change items in place, and each call the items of the key that it names:
these come from the items that had the key before and the calls that name it, in order. So calls for
different keys can be moved past each other, and calls for other keys be added or left out. -/
theorem itemsFor_local (st : Style) (r : Record) :
    List.Forall₂ Item.Alike st.items (st.itemsFor r) ∧
    Trigger.edits st.triggers r =
      (st.triggers.filter fun t => r.Has t.gate).flatMap (Action.editsAll r ·.actions) ∧
    (∀ k, Item.named k (st.itemsFor r) =
      (Edit.naming k (Trigger.edits st.triggers r)).foldl Edit.apply (Item.named k st.items)) ∧
    (∀ ts k, Edit.naming k (Trigger.edits ts r) = Edit.naming k (Trigger.edits st.triggers r) →
      Item.named k ({ st with triggers := ts }.itemsFor r) = Item.named k (st.itemsFor r)) ∧
    (∀ ts, (∀ k, Edit.naming k (Trigger.edits ts r) =
        Edit.naming k (Trigger.edits st.triggers r)) →
      { st with triggers := ts }.itemsFor r = st.itemsFor r) ∧
    ∀ (n : Nat) (i : Item), st.items[n]? = some i →
      (∀ e ∈ Trigger.edits st.triggers r, e.key ≠ i.key) → (st.itemsFor r)[n]? = some i := by
  refine ⟨Edit.forall₂_alike_run _ _, Trigger.edits_eq _ r, fun k => Edit.named_run _ _ k, ?_,
    ?_, ?_⟩
  · intro ts k h
    simp only [Style.itemsFor, Trigger.run, Edit.named_run, h]
  · intro ts h
    exact Edit.run_eq_run st.items h
  · intro n i h hk
    exact Edit.getElem?_run_of_ne _ _ h hk

/-- A comma that one trigger puts after the title and another one extends, and a text block that is
shown in between. -/
def Style.colophon : Style where
  id := "colophon"
  title := "Colophon"
  items := [.trait ⟨"title", "", "", .text, .normal, none, .plain, 0⟩,
    .text ⟨"text", " at ", .hidden, 1⟩,
    .trait ⟨"publisher", "", ".", .text, .normal, none, .plain, 2⟩]
  rules := [.required "title", .required "publisher"]
  triggers := [⟨"publisher", [.edit (.patch "title" (.single .after ",")),
      .edit (.display "text" true)]⟩,
    ⟨"title", [.ifPresent "publisher" [.edit (.extendAfter "title" ";")]]⟩,
    ⟨"editor", [.edit (.display "publisher" false)]⟩]
  inherited := []

def Record.imprint : Record :=
  (empty.set "title" (.text "Foo")).set "publisher" (.text "Bar") |>.set "editor" .null

/-- The same calls from one trigger, with the text block shown last. -/
def Style.regrouped : Style := { colophon with
  triggers := [⟨"publisher", [.edit (.patch "title" (.single .after ",")),
    .edit (.extendAfter "title" ";"), .edit (.display "text" true)]⟩] }

theorem itemsFor_local_colophon :
    Style.regrouped.itemsFor .imprint = Style.colophon.itemsFor .imprint ∧
      (Style.colophon.itemsFor .imprint)[2]? = Style.colophon.items[2]? := by
  obtain ⟨-, -, -, -, hs, hu⟩ := itemsFor_local .colophon .imprint
  have h : Trigger.edits Style.colophon.triggers .imprint =
      [.patch "title" (.single .after ","), .display "text" true, .extendAfter "title" ";"] := by
    cbv
  have h' : Trigger.edits Style.regrouped.triggers .imprint =
      [.patch "title" (.single .after ","), .extendAfter "title" ";", .display "text" true] := by
    cbv
  refine ⟨hs Style.regrouped.triggers fun k => ?_, hu 2 _ rfl ?_⟩
  · rw [h, h']
    by_cases hk : "text" = k
    · subst hk; decide
    · simp [Edit.naming, Edit.key, List.filter_cons, hk]
  · rw [h]; decide

end Stylebook
