import Mathlib
import Stylebook.Record.Format
import Stylebook.Proofs.Json.Sorted

/-! # What a record is read from

Every shape of a field is described by what its value looks like, without the reader. The reader
finds the one shape that fits, in whatever order it tries them.
-/

namespace Stylebook

namespace Member

variable {α : Type} {k : String} {ms : List (String × α)} {v : α}

theorem key_of_filter_eq {m : String × α} (h : ms.filter (·.1 = k) = [m]) : m.1 = k := by
  have hm : m ∈ ms.filter (·.1 = k) := by rw [h]; exact List.mem_singleton_self m
  exact of_decide_eq_true (List.mem_filter.mp hm).2

theorem single?_eq_some_iff : single? k ms = some v ↔ ms.filter (·.1 = k) = [(k, v)] := by
  rw [single?]
  split
  · next m h => simp [h, Prod.ext_iff, key_of_filter_eq h]
  · next h => exact iff_of_false (Option.some_ne_none v).symm (h (k, v))

theorem optional?_eq_none_iff : optional? k ms = some none ↔ ∀ m ∈ ms, m.1 ≠ k := by
  have hn : ms.filter (·.1 = k) = [] ↔ ∀ m ∈ ms, m.1 ≠ k := by simp [List.filter_eq_nil_iff]
  rw [optional?, ← hn]
  split
  · next h => exact iff_of_true rfl h
  · next m h => simp [h]
  · next h _ => exact iff_of_false (Option.some_ne_none none).symm h

theorem optional?_eq_some_iff :
    optional? k ms = some (some v) ↔ ms.filter (·.1 = k) = [(k, v)] := by
  rw [optional?]
  split
  · next h => simp [h]
  · next m h => simp [h, Prod.ext_iff, key_of_filter_eq h]
  · next _ h => exact iff_of_false (Option.some_ne_none _).symm (h (k, v))

end Member

namespace Contributor

/-- Two names in a list, or an object that has a last name and perhaps a first name. -/
inductive Shaped : Json → Contributor → Prop where

  | pair (first last : String) : Shaped (.arr [.str first, .str last]) ⟨first, last⟩

  | named {ms : List (String × Json)} {first last : String} :
      ms.filter (·.1 = "last") = [("last", .str last)] →
      ms.filter (·.1 = "first") = [("first", .str first)] →
      Shaped (.obj ms) ⟨first, last⟩

  | surname {ms : List (String × Json)} {last : String} :
      ms.filter (·.1 = "last") = [("last", .str last)] → (∀ m ∈ ms, m.1 ≠ "first") →
      Shaped (.obj ms) ⟨"", last⟩

theorem asString?_eq_some_iff {v : Json} {s : String} : v.asString? = some s ↔ v = .str s := by
  cases v <;> simp [Json.asString?]

theorem shaped_of_ofJson? {v : Json} {c : Contributor} (h : ofJson? v = some c) : Shaped v c := by
  match v with
  | .obj ms =>
    simp only [ofJson?, ofMembers?, bind, Option.bind_eq_some_iff] at h
    obtain ⟨last, ⟨l, hl, hs⟩, o, ho, hc⟩ := h
    obtain rfl := asString?_eq_some_iff.mp hs
    have hl := Member.single?_eq_some_iff.mp hl
    cases o with
    | none =>
      cases hc
      exact .surname hl (Member.optional?_eq_none_iff.mp ho)
    | some f =>
      obtain ⟨first, hf, hc⟩ := Option.bind_eq_some_iff.mp hc
      cases hc
      obtain rfl := asString?_eq_some_iff.mp hf
      exact .named hl (Member.optional?_eq_some_iff.mp ho)
  | .arr [f, l] =>
    simp only [ofJson?, ofPair?, bind, Option.bind_eq_some_iff] at h
    obtain ⟨first, hf, last, hl, hc⟩ := h
    cases hc
    obtain rfl := asString?_eq_some_iff.mp hf
    obtain rfl := asString?_eq_some_iff.mp hl
    exact .pair first last

theorem ofJson?_of_shaped {v : Json} {c : Contributor} (h : Shaped v c) : ofJson? v = some c := by
  cases h with
  | pair first last => rfl
  | named hl hf =>
    simp [ofJson?, ofMembers?, Member.single?_eq_some_iff.mpr hl,
      Member.optional?_eq_some_iff.mpr hf, Json.asString?]
  | surname hl hf =>
    simp [ofJson?, ofMembers?, Member.single?_eq_some_iff.mpr hl,
      Member.optional?_eq_none_iff.mpr hf, Json.asString?]

theorem ofJson?_eq_some_iff {v : Json} {c : Contributor} : ofJson? v = some c ↔ Shaped v c :=
  ⟨shaped_of_ofJson?, ofJson?_of_shaped⟩

end Contributor

namespace Date

def partNames : List String := ["year", "month", "day"]

def under (d : Date) : String → Option String
  | "year" => d.year
  | "month" => d.month
  | "day" => d.day
  | _ => none

/-- A part is left out by a null, and is otherwise a string or an integer of 64 bits. -/
inductive PartOf : Json → Option String → Prop where

  | missing : PartOf .null none

  | text (s : String) : PartOf (.str s) (some s)

  | integer {n : Int} : -2 ^ 63 ≤ n → n < 2 ^ 63 → PartOf (.num (.int n)) (some (toString n))

/-- An object of parts and nothing else, in which the last of repeated parts counts. -/
structure Shaped (ms : List (String × Json)) (d : Date) : Prop where

  names : ∀ m ∈ ms, m.1 ∈ partNames

  parts : ∀ m ∈ ms, ∃ p, PartOf m.2 p

  last : ∀ k ∈ partNames, PartOf ((Table.lastFor k ms).getD .null) (d.under k)

theorem part?_eq_some_iff {v : Json} {p : Option String} : part? v = some p ↔ PartOf v p := by
  constructor
  · intro h
    match v with
    | .null => cases h; exact .missing
    | .str s => cases h; exact .text s
    | .num (.int n) =>
      simp only [part?, integerPart?] at h
      split at h
      · next hn => cases h; exact .integer hn.1 hn.2
      · cases h
  · rintro (_ | s | ⟨hl, hu⟩)
    · rfl
    · rfl
    · exact if_pos ⟨hl, hu⟩

theorem ext_under {d d' : Date} (h : ∀ k ∈ partNames, d.under k = d'.under k) : d = d' := by
  obtain ⟨y, m, day⟩ := d
  obtain ⟨y', m', day'⟩ := d'
  simpa [partNames, under] using h

theorem under_setPart? {d d' : Date} {k : String} {p : Option String}
    (h : setPart? d k p = some d') :
    k ∈ partNames ∧ ∀ j ∈ partNames, d'.under j = if k = j then p else d.under j := by
  unfold setPart? at h
  split at h <;> cases h <;> simp [partNames, under]

theorem setPart?_isSome {k : String} (h : k ∈ partNames) (d : Date) (p : Option String) :
    ∃ d', setPart? d k p = some d' := by
  simp only [partNames, List.mem_cons, List.not_mem_nil, or_false] at h
  obtain rfl | rfl | rfl := h <;> exact ⟨_, rfl⟩

theorem shaped_of_ofMembers? {ms : List (String × Json)} {d : Date}
    (h : ofMembers? part? ms = some d) : Shaped ms d := by
  induction ms using List.reverseRecOn generalizing d with
  | nil =>
    cases h
    refine ⟨by simp, by simp, fun k _ => ?_⟩
    have : under empty k = none := by
      unfold under
      split <;> rfl
    rw [this]
    exact .missing
  | append_singleton ms m ih =>
    obtain ⟨d₀, h₀, h₁⟩ := foldlM_append_singleton_eq_some_iff.mp h
    obtain ⟨p, hp, h₁⟩ := Option.bind_eq_some_iff.mp h₁
    have hs := ih h₀
    have hp := part?_eq_some_iff.mp hp
    obtain ⟨hk, hu⟩ := under_setPart? h₁
    refine ⟨?_, ?_, fun k hk => ?_⟩
    · exact List.forall_mem_append.mpr ⟨hs.names, List.forall_mem_singleton.mpr hk⟩
    · exact List.forall_mem_append.mpr ⟨hs.parts, List.forall_mem_singleton.mpr ⟨p, hp⟩⟩
    · rw [hu k hk, Table.lastFor_append_singleton]
      split
      · exact hp
      · exact hs.last k hk

theorem Shaped.unique {ms : List (String × Json)} {d d' : Date} (h : Shaped ms d)
    (h' : Shaped ms d') : d = d' := by
  refine ext_under fun k hk => ?_
  have hp := part?_eq_some_iff.mpr (h.last k hk)
  exact Option.some.inj (hp.symm.trans (part?_eq_some_iff.mpr (h'.last k hk)))

theorem exists_ofMembers? {ms : List (String × Json)} (hn : ∀ m ∈ ms, m.1 ∈ partNames)
    (hp : ∀ m ∈ ms, ∃ p, PartOf m.2 p) : ∃ d, ofMembers? part? ms = some d := by
  suffices h : ∀ d₀ : Date, ∃ d,
      ms.foldlM (fun d m => part? m.2 >>= setPart? d m.1) d₀ = some d from h empty
  induction ms with
  | nil => exact fun d₀ => ⟨d₀, rfl⟩
  | cons m ms ih =>
    intro d₀
    obtain ⟨hm, hn⟩ := List.forall_mem_cons.mp hn
    obtain ⟨⟨p, hpm⟩, hp⟩ := List.forall_mem_cons.mp hp
    obtain ⟨d₁, h₁⟩ := setPart?_isSome hm d₀ p
    obtain ⟨d, hd⟩ := ih hn hp d₁
    refine ⟨d, ?_⟩
    simpa [List.foldlM_cons, part?_eq_some_iff.mpr hpm, h₁] using hd

theorem ofMembers?_eq_some_iff {ms : List (String × Json)} {d : Date} :
    ofMembers? part? ms = some d ↔ Shaped ms d := by
  refine ⟨shaped_of_ofMembers?, fun h => ?_⟩
  obtain ⟨d', hd⟩ := exists_ofMembers? h.names h.parts
  rw [hd, (shaped_of_ofMembers? hd).unique h]

end Date

namespace Field

/-- The shapes that a field has of its own. -/
inductive Shaped : Json → Field → Prop where

  | null : Shaped .null null

  | text (s : String) : Shaped (.str s) (text s)

  | number (n : Numeral) : Shaped (.num n) (number n.toFloat)

  | contributors {xs : List Json} {cs : List Contributor} :
      List.Forall₂ Contributor.Shaped xs cs → Shaped (.arr xs) (contributors cs)

  | date {ms : List (String × Json)} {d : Date} : Date.Shaped ms d → Shaped (.obj ms) (date d)

/-- A value that has no such shape is kept as it is, in the order of keys. -/
inductive Decodes (v : Json) : Field → Prop where

  | shaped {f : Field} : Shaped v f → Decodes v f

  | kept {w : Json} : (∀ f, ¬ Shaped v f) → v.Tidied w → Decodes v (other w)

inductive Variant
  | null
  | text
  | number
  | contributors
  | date
deriving DecidableEq, Repr

/-- Try one shape. -/
def Variant.read? : Variant → Json → Option Field
  | null, .null => some .null
  | text, .str s => some (.text s)
  | number, .num n => some (.number n.toFloat)
  | contributors, .arr xs => (xs.mapM Contributor.ofJson?).map .contributors
  | date, .obj ms => (Date.ofJson? (.obj ms)).map .date
  | _, _ => none

/-- The first shape that fits, in the order in which they are tried. -/
def firstFit (order : List Variant) (v : Json) : Field :=
  (order.findSome? (·.read? v)).getD (other v.sorted)

/-- A value can have one shape only, whatever it holds. -/
def Variant.of? : Json → Option Variant
  | .null => some null
  | .bool _ => none
  | .num _ => some number
  | .str _ => some text
  | .arr _ => some contributors
  | .obj _ => some date

variable {v : Json} {f : Field} {a : Variant}

theorem mapM_ofJson?_eq_some_iff {xs : List Json} {cs : List Contributor} :
    xs.mapM Contributor.ofJson? = some cs ↔ List.Forall₂ Contributor.Shaped xs cs := by
  simp only [mapM_eq_some_iff, Contributor.ofJson?_eq_some_iff]

theorem Variant.of?_of_read? (h : a.read? v = some f) : of? v = some a := by
  cases a <;> cases v <;> first | rfl | cases h

theorem Variant.read?_eq_none_or {b : Variant} (hab : a ≠ b) :
    a.read? v = none ∨ b.read? v = none := by
  by_contra h
  simp only [not_or, ← Option.isSome_iff_ne_none, Option.isSome_iff_exists] at h
  obtain ⟨⟨f, hf⟩, g, hg⟩ := h
  exact hab (Option.some.inj ((of?_of_read? hf).symm.trans (of?_of_read? hg)))

theorem shaped_of_read? (h : a.read? v = some f) : Shaped v f := by
  obtain hv := Variant.of?_of_read? h
  cases v <;> cases hv <;> simp only [Variant.read?, Option.map_eq_some_iff, Option.some.injEq] at h
  case null => exact h ▸ .null
  case num n => exact h ▸ .number n
  case str s => exact h ▸ .text s
  case arr xs =>
    obtain ⟨cs, hc, rfl⟩ := h
    exact .contributors (mapM_ofJson?_eq_some_iff.mp hc)
  case obj ms =>
    obtain ⟨d, hd, rfl⟩ := h
    exact .date (Date.ofMembers?_eq_some_iff.mp hd)

theorem Shaped.read? (h : Shaped v f) : ∃ a : Variant, a.read? v = some f := by
  cases h with
  | null => exact ⟨.null, rfl⟩
  | text s => exact ⟨.text, rfl⟩
  | number n => exact ⟨.number, rfl⟩
  | contributors h =>
    exact ⟨.contributors, by rw [Variant.read?, mapM_ofJson?_eq_some_iff.mpr h, Option.map_some]⟩
  | date h =>
    exact ⟨.date, by
      rw [Variant.read?, Date.ofJson?, Date.ofMembers?_eq_some_iff.mpr h, Option.map_some]⟩

theorem Shaped.unique {g : Field} (hf : Shaped v f) (hg : Shaped v g) : f = g := by
  obtain ⟨a, ha⟩ := hf.read?
  obtain ⟨b, hb⟩ := hg.read?
  have hab := (Variant.of?_of_read? ha).symm.trans (Variant.of?_of_read? hb)
  cases hab
  exact Option.some.inj (ha.symm.trans hb)

theorem Decodes.unique {g : Field} (hf : Decodes v f) (hg : Decodes v g) : f = g := by
  cases hf with
  | shaped hf =>
    cases hg with
    | shaped hg => exact hf.unique hg
    | kept hn _ => exact absurd hf (hn f)
  | kept hn ht =>
    cases hg with
    | shaped hg => exact absurd hg (hn g)
    | kept _ ht' => rw [ht.eq_sorted, ht'.eq_sorted]

theorem decodes_firstFit {order : List Variant} (ho : ∀ a, a ∈ order) (v : Json) :
    Decodes v (firstFit order v) := by
  rw [firstFit]
  cases h : order.findSome? (·.read? v) with
  | some f =>
    obtain ⟨a, -, ha⟩ := List.exists_of_findSome?_eq_some h
    exact .shaped (shaped_of_read? ha)
  | none =>
    refine .kept (fun f hf => ?_) v.tidied_sorted
    obtain ⟨a, ha⟩ := hf.read?
    exact Option.some_ne_none f (ha.symm.trans (List.findSome?_eq_none_iff.mp h a (ho a)))

def Variant.all : List Variant := [null, text, number, contributors, date]

theorem Variant.mem_all (a : Variant) : a ∈ all := by cases a <;> decide

theorem ofJson_eq_firstFit (v : Json) : ofJson v = firstFit Variant.all v := by
  cases v with
  | null | bool b | num n | str s => rfl
  | arr xs =>
    cases h : xs.mapM Contributor.ofJson? <;> simp [ofJson, firstFit, Variant.all, Variant.read?, h]
  | obj ms =>
    cases h : Date.ofJson? (.obj ms) <;> simp [ofJson, firstFit, Variant.all, Variant.read?, h]

theorem decodes_ofJson (v : Json) : Decodes v (ofJson v) :=
  ofJson_eq_firstFit v ▸ decodes_firstFit Variant.mem_all v

end Field

namespace Record

/-- Selectors stand in one object of strings, or nowhere. -/
inductive Selecting (ms : List (String × Json)) : List (String × String) → Prop where

  | none : (∀ m ∈ ms, m.1 ≠ reserved) → Selecting ms []

  | once {ss : List (String × String)} :
      ms.filter (·.1 = reserved) = [(reserved, .obj (ss.map fun s => (s.1, .str s.2)))] →
      Selecting ms ss

/-- Every other member is kept as a field under its key, in order. -/
structure Decodes (ms : List (String × Json)) (r : Record) : Prop where

  selectors : ∃ ss, Selecting ms ss ∧ Table.Gathers ss r.selectors

  keys : r.fields.keys = ((ms.map Prod.fst).filter (· ≠ reserved)).eraseDups

  field {k : String} : k ≠ reserved →
    Option.Rel Field.Decodes (Table.lastFor k ms) (r.fields.get? k)

variable {ms : List (String × Json)} {r : Record}

theorem mapM_asString?_eq_some_iff {ss : List (String × String)} :
    ms.mapM (fun m => m.2.asString?.map (m.1, ·)) = some ss ↔
      ms = ss.map fun s => (s.1, .str s.2) := by
  rw [mapM_eq_some_iff, ← List.forall₂_eq_eq_eq, List.forall₂_map_right_iff]
  have h (m : String × Json) (s : String × String) :
      m.2.asString?.map (m.1, ·) = some s ↔ m = (s.1, .str s.2) := by
    simp only [Option.map_eq_some_iff, Contributor.asString?_eq_some_iff, Prod.ext_iff]
    grind
  simp only [h]

theorem selectors?_eq_some_iff {t : Table String} :
    selectors? ms = some t ↔ ∃ ss, Selecting ms ss ∧ Table.Gathers ss t := by
  simp only [← Table.eq_ofList_iff]
  constructor
  · intro h
    rw [selectors?] at h
    split at h
    · next hn =>
      cases h
      exact ⟨[], .none (by simpa [List.filter_eq_nil_iff] using hn), rfl⟩
    · next k vs hs =>
      obtain ⟨ss, hss, rfl⟩ := Option.map_eq_some_iff.mp h
      obtain rfl := mapM_asString?_eq_some_iff.mp hss
      have hk : k = reserved := Member.key_of_filter_eq hs
      exact ⟨ss, .once (hk ▸ hs), rfl⟩
    · cases h
  · rintro ⟨ss, hn | hs, rfl⟩
    · have hn : ms.filter (·.1 = reserved) = [] := by simpa [List.filter_eq_nil_iff] using hn
      rw [selectors?, hn]
      rfl
    · rw [selectors?, hs]
      simp only
      rw [mapM_asString?_eq_some_iff.mpr rfl, Option.map_some]

/-- The members that are fields. -/
def fieldsOf (ms : List (String × Json)) : List (String × Field) :=
  (ms.filter (·.1 ≠ reserved)).map fun m => (m.1, Field.ofJson m.2)

theorem lastFor_fieldsOf (k : String) :
    Table.lastFor k (fieldsOf ms) =
      if k = reserved then none else (Table.lastFor k ms).map Field.ofJson := by
  rw [fieldsOf, Table.lastFor_map, Table.lastFor, Table.lastFor, List.filter_filter]
  split
  · next hk => subst hk; simp
  · next hk => grind

theorem keys_fieldsOf :
    (fieldsOf ms).map Prod.fst = (ms.map Prod.fst).filter (· ≠ reserved) := by
  rw [fieldsOf, List.map_map, List.filter_map]
  rfl

theorem gathers_fieldsOf_iff {t : Table Field} :
    Table.Gathers (fieldsOf ms) t ↔
      t.keys = ((ms.map Prod.fst).filter (· ≠ reserved)).eraseDups ∧
        ∀ k ≠ reserved, Option.Rel Field.Decodes (Table.lastFor k ms) (t.get? k) := by
  constructor
  · refine fun h => ⟨keys_fieldsOf ▸ h.keys, fun k hk => ?_⟩
    rw [h.get?, lastFor_fieldsOf, if_neg hk]
    cases Table.lastFor k ms with
    | none => exact .none
    | some v => exact .some (Field.decodes_ofJson v)
  · refine fun ⟨hk, hf⟩ => ⟨keys_fieldsOf ▸ hk, fun k => ?_⟩
    rw [lastFor_fieldsOf]
    split
    · next hr =>
      have hn : k ∉ t.keys := by simp [hk, hr, List.mem_eraseDups]
      exact Table.get?_eq_none_iff.mpr hn
    · next hr =>
      have hf := hf k hr
      generalize Table.lastFor k ms = o, t.get? k = o' at hf ⊢
      cases hf with
      | none => rfl
      | some hd => rw [hd.unique (Field.decodes_ofJson _), Option.map_some]

theorem ofJson?_obj_eq_some_iff : ofJson? (.obj ms) = some r ↔ Decodes ms r := by
  have hr : ofJson? (.obj ms) = some r ↔
      selectors? ms = some r.selectors ∧ r.fields = Table.ofList (fieldsOf ms) := by
    obtain ⟨ss, fs⟩ := r
    rw [ofJson?, Option.map_eq_some_iff]
    exact ⟨fun ⟨_, hs, h⟩ => by cases h; exact ⟨hs, rfl⟩, fun ⟨hs, h⟩ => ⟨ss, hs, h ▸ rfl⟩⟩
  rw [hr, selectors?_eq_some_iff, Table.eq_ofList_iff, gathers_fieldsOf_iff]
  exact ⟨fun ⟨hs, hk, hf⟩ => ⟨hs, hk, hf _⟩, fun h => ⟨h.selectors, h.keys, fun _ => h.field⟩⟩

theorem ofJson?_eq_some_iff {v : Json} :
    ofJson? v = some r ↔ ∃ ms, v = .obj ms ∧ Decodes ms r := by
  cases v with
  | obj ms => simp [ofJson?_obj_eq_some_iff]
  | null | bool b | num n | str s | arr xs => simp [ofJson?]

theorem exists_ofJson?_iff {v : Json} :
    (∃ r, ofJson? v = some r) ↔ ∃ ms ss, v = .obj ms ∧ Selecting ms ss := by
  constructor
  · rintro ⟨r, h⟩
    obtain ⟨ms, rfl, hd⟩ := ofJson?_eq_some_iff.mp h
    obtain ⟨ss, hs, -⟩ := hd.selectors
    exact ⟨ms, ss, rfl, hs⟩
  · rintro ⟨ms, ss, rfl, hs⟩
    have ht := selectors?_eq_some_iff.mpr ⟨ss, hs, Table.gathers_ofList ss⟩
    exact ⟨_, by rw [ofJson?, ht, Option.map_some]⟩

/-- A record is read from an object whose selectors, if it has any, stand in one object of strings.
All else in it becomes a field, whatever its value is, and in one way only: no value has two shapes,
and they may be tried in any order. -/
theorem decoding (v : Json) :
    ((∃ r, ofJson? v = some r) ↔ ∃ ms ss, v = .obj ms ∧ Selecting ms ss) ∧
      (∀ r, ofJson? v = some r ↔ ∃ ms, v = .obj ms ∧ Decodes ms r) ∧
        ∀ w, (∃! f, Field.Decodes w f) ∧
          (∀ a b : Field.Variant, a ≠ b → a.read? w = none ∨ b.read? w = none) ∧
            ∀ order, (∀ a, a ∈ order) → Field.Decodes w (Field.firstFit order w) := by
  refine ⟨exists_ofJson?_iff, fun r => ofJson?_eq_some_iff, fun w => ⟨?_, fun a b hab => ?_, ?_⟩⟩
  · exact ⟨Field.ofJson w, Field.decodes_ofJson w, fun f hf => hf.unique (Field.decodes_ofJson w)⟩
  · exact Field.Variant.read?_eq_none_or hab
  · exact fun order ho => Field.decodes_firstFit ho w

/-- A pamphlet without a title, whose authors are named in two ways. -/
def pamphlet : Json :=
  .obj [("title", .str "Notes"), (reserved, .obj [("shelf", .str "B")]),
    ("by", .arr [.arr [.str "Ada", .str "Lovelace"], .obj [("last", .str "Byron")]]),
    ("on", .obj [("year", .str "1842"), ("year", .str "1843")]), ("title", .null)]

theorem decoding_pamphlet :
    (∃ r, ofJson? pamphlet = some r) ∧
      (Field.Variant.contributors.read? (.arr []) = none ∨
        Field.Variant.date.read? (.arr []) = none) ∧
      Field.Decodes (.obj [])
        (Field.firstFit [.date, .contributors, .number, .text, .null] (.obj [])) :=
  ⟨(decoding pamphlet).1.mpr ⟨_, [("shelf", "B")], rfl, .once rfl⟩,
    ((decoding pamphlet).2.2 (.arr [])).2.1 _ _ (by decide),
    ((decoding pamphlet).2.2 (.obj [])).2.2 _ fun a => by cases a <;> decide⟩

end Record

end Stylebook
