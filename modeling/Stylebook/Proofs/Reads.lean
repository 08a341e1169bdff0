import Mathlib
import Stylebook.Proofs.Triggers
import Stylebook.Proofs.Compile.Faults

/-! # What a render reads

A render looks up the keys of its traits, the keys of its rules, the gates of its triggers and the
fields that their calls read, and the selectors of its traits. A lookup passes over null fields. So
two records that hold the same there render alike.
-/

namespace Stylebook

namespace Record

variable {r r' : Record} {k : String}

theorem get?_eq_some_iff {v : Field} :
    r.get? k = some v ↔ (k, v) ∈ r.fields.entries ∧ v.isNull = false := by
  simp [get?, Option.filter_eq_some_iff, Table.get?_eq_some_iff]

theorem get?_congr (h : ∀ v : Field, v.isNull = false →
    ((k, v) ∈ r.fields.entries ↔ (k, v) ∈ r'.fields.entries)) : r.get? k = r'.get? k := by
  refine Option.ext fun v => ?_
  rw [get?_eq_some_iff, get?_eq_some_iff]
  exact and_congr_left (h v)

theorem selector?_congr
    (h : ∀ v, (k, v) ∈ r.selectors.entries ↔ (k, v) ∈ r'.selectors.entries) :
    r.selector? k = r'.selector? k := by
  refine Option.ext fun v => ?_
  rw [selector?, selector?, Table.get?_eq_some_iff, Table.get?_eq_some_iff]
  exact h v

theorem isPresent_congr (h : r.get? k = r'.get? k) : r.isPresent k = r'.isPresent k := by
  rw [isPresent, isPresent, h]

theorem plain?_congr (h : r.get? k = r'.get? k) : r.plain? k = r'.plain? k := by
  rw [plain?, plain?, h]

end Record

namespace Action

mutual

/-- The fields that an action may look up. -/
def reads : Action → List String
  | edit _ => []
  | copy _ _ field => [field]
  | ifPresent field as => field :: readsAll as
  | unlessContains field _ as => field :: readsAll as

def readsAll : List Action → List String
  | [] => []
  | a :: as => reads a ++ readsAll as

end

section

variable {r r' : Record}

mutual

theorem edits_congr {a : Action} (h : ∀ k ∈ a.reads, r.get? k = r'.get? k) :
    edits r a = edits r' a := by
  match a with
  | edit e => rfl
  | copy k part field =>
    have hf : r.plain? field = r'.plain? field := Record.plain?_congr (h field (by simp [reads]))
    rw [edits, edits, hf]
  | ifPresent field as =>
    have hf : r.isPresent field = r'.isPresent field :=
      Record.isPresent_congr (h field (by simp [reads]))
    have ha : editsAll r as = editsAll r' as :=
      editsAll_congr fun k hk => h k (by simp [reads, hk])
    rw [edits, edits, hf, ha]
  | unlessContains field s as =>
    have hf : r.plain? field = r'.plain? field := Record.plain?_congr (h field (by simp [reads]))
    have ha : editsAll r as = editsAll r' as :=
      editsAll_congr fun k hk => h k (by simp [reads, hk])
    rw [edits, edits, hf, ha]

theorem editsAll_congr {as : List Action} (h : ∀ k ∈ readsAll as, r.get? k = r'.get? k) :
    editsAll r as = editsAll r' as := by
  match as with
  | [] => rfl
  | a :: as =>
    rw [editsAll, editsAll, edits_congr fun k hk => h k (by simp [readsAll, hk]),
      editsAll_congr fun k hk => h k (by simp [readsAll, hk])]

end

end

end Action

theorem Item.Alike.traitKeys_eq {items items' : List Item}
    (h : List.Forall₂ Item.Alike items items') :
    (items'.filterMap Item.trait?).map Trait.key = (items.filterMap Item.trait?).map Trait.key := by
  induction h with
  | nil => rfl
  | cons h _ ih =>
    cases h with
    | trait h => simp [Item.trait?, h.key, ih]
    | text _ _ => exact ih

def Trigger.reads (t : Trigger) : List String := t.gate :: Action.readsAll t.actions

def Rule.keys : Rule → List String
  | required k => [k]
  | stated c => c.keys

section Parts

variable {r r' : Record}

theorem Trigger.edits_congr {ts : List Trigger}
    (h : ∀ k ∈ ts.flatMap Trigger.reads, r.get? k = r'.get? k) : edits ts r = edits ts r' := by
  rw [edits, edits]
  refine List.flatMap_congr fun t ht => ?_
  have ht' : ∀ k ∈ t.reads, r.get? k = r'.get? k := fun k hk =>
    h k (List.mem_flatMap.mpr ⟨t, ht, hk⟩)
  have hg : t.fires r = t.fires r' :=
    Record.isPresent_congr (ht' t.gate List.mem_cons_self)
  have ha : Action.editsAll r t.actions = Action.editsAll r' t.actions :=
    Action.editsAll_congr fun k hk => ht' k (List.mem_cons_of_mem _ hk)
  rw [hg, ha]

theorem Constraint.check_congr {c : Constraint} (h : ∀ k ∈ c.keys, r.get? k = r'.get? k) :
    c.check r = c.check r' := by
  have hp : ∀ k ∈ c.keys, r.isPresent k = r'.isPresent k := fun k hk =>
    Record.isPresent_congr (h k hk)
  cases c with
  | optional k => rfl
  | either a b lax =>
    rw [check, check, hp a (by simp [keys]), hp b (by simp [keys])]
  | all ks lax =>
    have hf : ks.filter (!r.isPresent ·) = ks.filter (!r'.isPresent ·) :=
      List.filter_congr fun k hk => by rw [hp k hk]
    rw [check, check, hf]
  | atLeastOne ks =>
    have ha : ks.any r.isPresent = ks.any r'.isPresent := by
      rw [Bool.eq_iff_iff, List.any_eq_true, List.any_eq_true]
      exact exists_congr fun k => and_congr_right fun hk => by rw [hp k hk]
    rw [check, check, ha]

theorem Rule.check_congr {rule : Rule} (h : ∀ k ∈ rule.keys, r.get? k = r'.get? k)
    (exempt : Bool) (items : List Item) :
    rule.check exempt items r = rule.check exempt items r' := by
  cases rule with
  | required k =>
    have hp : r.isPresent k = r'.isPresent k := Record.isPresent_congr (h k (by simp [keys]))
    rw [check, check, hp]
  | stated c => exact Constraint.check_congr h

theorem TraitKind.resolve_congr {k : String} (hf : r.get? k = r'.get? k)
    (hs : r.selector? k = r'.selector? k) (kind : TraitKind) :
    kind.resolve k r = kind.resolve k r' := by
  cases kind with
  | enumeration e =>
    have hp : r.plain? k = r'.plain? k := Record.plain?_congr hf
    rw [resolve, resolve, Enumeration.select?, Enumeration.select?, hp, hs]
  | _ => rw [resolve, resolve, hf]

theorem Trait.chunks?_congr {t : Trait} (hf : r.get? t.key = r'.get? t.key)
    (hs : r.selector? t.key = r'.selector? t.key) : t.chunks? r = t.chunks? r' := by
  rw [chunks?, chunks?, resolve?, resolve?, TraitKind.resolve_congr hf hs]

end Parts

namespace Style

variable {st : Style} {r r' : Record}

/-- The fields that a style mentions. -/
def reads (st : Style) : List String :=
  st.traits.map Trait.key ++ st.rules.flatMap Rule.keys ++ st.triggers.flatMap Trigger.reads

/-- Two records hold the same values for the fields that a style mentions, a null counting as none,
and the same selectors for its traits. -/
structure Agree (st : Style) (r r' : Record) : Prop where
  fields : ∀ k ∈ st.reads, ∀ v : Field, v.isNull = false →
    ((k, v) ∈ r.fields.entries ↔ (k, v) ∈ r'.fields.entries)
  selectors : ∀ k ∈ st.traits.map Trait.key, ∀ v,
    (k, v) ∈ r.selectors.entries ↔ (k, v) ∈ r'.selectors.entries

/-- What a record holds for the fields that a style mentions. -/
def fieldsOf (st : Style) (r : Record) : List (String × Field) :=
  r.fields.entries.filter fun e => e.1 ∈ st.reads && !e.2.isNull

/-- The selectors that a record holds for the traits of a style. -/
def selectorsOf (st : Style) (r : Record) : List (String × String) :=
  r.selectors.entries.filter (·.1 ∈ st.traits.map Trait.key)

theorem agree_of_perm (hf : (st.fieldsOf r).Perm (st.fieldsOf r'))
    (hs : (st.selectorsOf r).Perm (st.selectorsOf r')) : st.Agree r r' where
  fields k hk v hv := by simpa [fieldsOf, hk, hv] using hf.mem_iff (a := (k, v))
  selectors k hk v := by
    have hm := hs.mem_iff (a := (k, v))
    simpa only [selectorsOf, List.mem_filter, decide_eq_true hk, and_true] using hm

/-- Triggers bring in no trait of another key. -/
theorem traitKeys_itemsFor (st : Style) (r : Record) :
    ((st.itemsFor r).filterMap Item.trait?).map Trait.key = st.traits.map Trait.key :=
  Item.Alike.traitKeys_eq (Edit.forall₂_alike_run _ _)

section Agree

variable (h : st.Agree r r')
include h

theorem Agree.get?_eq {k : String} (hk : k ∈ st.reads) : r.get? k = r'.get? k :=
  Record.get?_congr (h.fields k hk)

theorem Agree.itemsFor_eq : st.itemsFor r = st.itemsFor r' := by
  have he : Trigger.edits st.triggers r = Trigger.edits st.triggers r' :=
    Trigger.edits_congr fun k hk => h.get?_eq (List.mem_append_right _ hk)
  rw [itemsFor, itemsFor, Trigger.run, Trigger.run, he]

theorem Agree.problems_eq : st.problems r = st.problems r' := by
  rw [problems, problems, h.itemsFor_eq, Rule.checkAll, Rule.checkAll]
  refine List.filterMap_congr fun rule hr => Rule.check_congr (fun k hk => h.get?_eq ?_) _ _
  exact List.mem_append_left _ (List.mem_append_right _ (List.mem_flatMap.mpr ⟨rule, hr, hk⟩))

theorem Agree.chunks_item_eq {i : Item} (hi : i ∈ st.itemsFor r) : i.chunks r = i.chunks r' := by
  cases i with
  | text t => rfl
  | trait t =>
    have hk : t.key ∈ st.traits.map Trait.key := by
      rw [← st.traitKeys_itemsFor r]
      exact List.mem_map_of_mem (List.mem_filterMap.mpr ⟨_, hi, rfl⟩)
    have hf : r.get? t.key = r'.get? t.key :=
      h.get?_eq (List.mem_append_left _ (List.mem_append_left _ hk))
    have hs : r.selector? t.key = r'.selector? t.key := Record.selector?_congr (h.selectors _ hk)
    rw [Item.chunks, Item.chunks, Trait.chunks?_congr hf hs]

theorem Agree.chunks_eq : st.chunks r = st.chunks r' := by
  rw [chunks, chunks, ← h.itemsFor_eq]
  exact List.flatMap_congr fun i hi => h.chunks_item_eq (List.mem_of_mem_filter hi)

theorem Agree.render_eq (f : Format) : st.render f r = st.render f r' := by
  rw [render, render, h.problems_eq, h.chunks_eq]

end Agree

end Style

/-- Records that agree on what a style mentions render alike, in every format. So do records that
come to the same when the order of fields, null fields, and all fields and selectors are passed over
that the style does not mention. -/
theorem render_agree (st : Style) (f : Format) (r r' : Record) :
    (st.Agree r r' → st.render f r = st.render f r') ∧
    ((st.fieldsOf r).Perm (st.fieldsOf r') → (st.selectorsOf r).Perm (st.selectorsOf r') →
      st.render f r = st.render f r') :=
  ⟨fun h => h.render_eq f, fun hf hs => (Style.agree_of_perm hf hs).render_eq f⟩

/-- A choice made by a selector, a constraint, and a trigger that copies a field. -/
def Style.thesis : Style where
  id := "thesis"
  title := "Thesis"
  items := [.trait ⟨"title", "", "", .text, .normal, none, .plain, 0⟩,
    .trait ⟨"genre", " [", "]", .enumeration ⟨[⟨0, "m", "Master", some "1"⟩,
      ⟨1, "d", "Doctor", some "2"⟩]⟩, .normal, none, .plain, 1⟩]
  rules := [.required "title", .stated (.optional "genre"), .stated (.either "doi" "url" true)]
  triggers := [⟨"editor", [.ifPresent "note" [.copy "title" .after "place"]]⟩]
  inherited := []

def Record.filed : Record :=
  ((((empty.set "title" (.text "Foo")).set "doi" .null).set "url" (.text "u")).set "editor"
    (.contributors [])).set "note" (.text "") |>.set "place" (.text ", Bar") |>.select "genre" "2"

/-- The same data in another order, without a null field and with data that no style asks for. -/
def Record.refiled : Record :=
  ((((empty.set "place" (.text ", Bar")).set "note" (.text "")).set "pages" (.text "1")).set "editor"
    (.contributors [])).set "url" (.text "u") |>.set "title" (.text "Foo") |>.select "place" "1"
    |>.select "genre" "2"

theorem render_agree_refiled :
    Style.thesis.render .html .refiled = ⟨"Foo, Bar [Doctor]", []⟩ ∧
      Style.thesis.render .plain .filed = Style.thesis.render .plain .refiled := by
  have hf : Style.thesis.fieldsOf .refiled = (Style.thesis.fieldsOf .filed).reverse := by cbv
  have hs : Style.thesis.selectorsOf .refiled = Style.thesis.selectorsOf .filed := by cbv
  have hp : (Style.thesis.fieldsOf .filed).Perm (Style.thesis.fieldsOf .refiled) :=
    hf ▸ (List.reverse_perm _).symm
  have hv : Style.thesis.render .html .filed = ⟨"Foo, Bar [Doctor]", []⟩ := by cbv
  obtain ⟨-, hhtml⟩ := render_agree .thesis .html .filed .refiled
  obtain ⟨hplain, -⟩ := render_agree .thesis .plain .filed .refiled
  exact ⟨(hhtml hp (hs ▸ .refl _)).symm.trans hv, hplain (Style.agree_of_perm hp (hs ▸ .refl _))⟩

end Stylebook
