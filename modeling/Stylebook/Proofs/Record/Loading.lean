import Mathlib
import Stylebook.File
import Stylebook.Proofs.Record.Decoding

/-! # Files of records

A document is first read as a list and then as a single record. In JSON no document can be read both
ways, so a list with one bad element is refused as a whole.
-/

namespace Stylebook

open Json (Outline maxDepth)

namespace Contents

variable {α : Type} {json? yaml? : List UInt8 → Option α} {path : String} {bytes : List UInt8}

section OfPath

variable (hp : DataFormat.ofPath path = .json)
include hp

theorem read_eq_ok_iff {x : α} :
    read json? yaml? path (.ok bytes) = .ok x ↔ json? bytes = some x := by
  simp only [read, hp]
  cases json? bytes <;> simp

theorem read_eq_error_iff {e : LoadError} :
    read json? yaml? path (.ok bytes) = .error e ↔ e = .malformed .json ∧ json? bytes = none := by
  simp only [read, hp]
  cases json? bytes <;> simp [eq_comm]

end OfPath

theorem json?_of_outline? {o : Outline} (h : outline? bytes = some o) :
    Contents.json? bytes = o.value? maxDepth := by
  rw [outline?] at h
  rw [Contents.json?, Json.ofUnits?, h, Option.bind_eq_bind, Option.bind_some]

end Contents

namespace Record

/-! The two readings of a document. -/

theorem itemsOfJson?_eq_none_or (v : Json) : itemsOfJson? v = none ∨ ofJson? v = none := by
  cases v with
  | arr xs => exact .inr rfl
  | null | bool b | num n | str s | obj ms => exact .inl rfl

/-- A list that cannot be read is not read as a single record either. -/
theorem listOfJson?_arr (xs : List Json) : listOfJson? (.arr xs) = xs.mapM ofJson? := by
  simp [listOfJson?, batch?, itemsOfJson?, ofJson?]

theorem listOfJson?_obj (ms : List (String × Json)) :
    listOfJson? (.obj ms) = (ofJson? (.obj ms)).map ([·]) := by
  simp [listOfJson?, batch?, itemsOfJson?]

/-- In YAML the two readings meet where nothing is written, and the list of no records is taken. -/
theorem isSome_itemsOfNode?_and_isSome_ofNode?_iff (n : Yaml.Node) :
    (itemsOfNode? n).isSome ∧ (ofNode? n).isSome ↔ n.isMissing := by
  cases n with
  | scalar plain s =>
    cases h : (Yaml.Node.scalar plain s).isMissing <;> simp [itemsOfNode?, ofNode?, h]
  | seq xs => simp [ofNode?, Yaml.Node.isMissing]
  | map ms | endless => simp [itemsOfNode?, Yaml.Node.isMissing]

/-! The place of a record in a document. -/

variable {outer : ℕ} {o : Outline} {os : List Outline} {r : Record} {rs : List Record}

/-- The record that stands inside `outer` containers. -/
def ofOutline? (outer : ℕ) (o : Outline) : Option Record := o.value? (maxDepth - outer) >>= ofJson?

/-- An object that has a value where it stands, and that decodes. -/
def StandsFor (outer : ℕ) (o : Outline) (r : Record) : Prop :=
  ∃ ms, o.value? (maxDepth - outer) = some (.obj ms) ∧ Decodes ms r

/-- No value, no object, or an object whose selectors are not one object of strings. -/
inductive Unfit (outer : ℕ) (o : Outline) : Prop where

  | unsound : o.value? (maxDepth - outer) = none → Unfit outer o

  | shapeless {v : Json} : o.value? (maxDepth - outer) = some v → (∀ ms, v ≠ .obj ms) →
      Unfit outer o

  | selectors {ms : List (String × Json)} : o.value? (maxDepth - outer) = some (.obj ms) →
      (∀ ss, ¬ Selecting ms ss) → Unfit outer o

theorem ofOutline?_eq_some_iff : ofOutline? outer o = some r ↔ StandsFor outer o r := by
  simp only [ofOutline?, Option.bind_eq_bind, Option.bind_eq_some_iff, ofJson?_eq_some_iff]
  constructor
  · rintro ⟨v, hv, ms, rfl, hd⟩
    exact ⟨ms, hv, hd⟩
  · rintro ⟨ms, hv, hd⟩
    exact ⟨.obj ms, hv, ms, rfl, hd⟩

theorem ofJson?_eq_none_iff {v : Json} :
    ofJson? v = none ↔ ∀ ms ss, v = .obj ms → ¬ Selecting ms ss := by
  rw [Option.eq_none_iff_forall_ne_some, ← not_exists, exists_ofJson?_iff]
  simp only [not_exists, not_and]

theorem ofOutline?_eq_none_iff : ofOutline? outer o = none ↔ Unfit outer o := by
  rw [ofOutline?]
  cases hv : o.value? (maxDepth - outer) with
  | none => exact iff_of_true rfl (.unsound hv)
  | some v =>
    rw [Option.bind_eq_bind, Option.bind_some, ofJson?_eq_none_iff]
    constructor
    · intro h
      by_cases ho : ∃ ms, v = .obj ms
      · obtain ⟨ms, rfl⟩ := ho
        exact .selectors hv fun ss => h ms ss rfl
      · exact .shapeless hv (not_exists.mp ho)
    · rintro (hn | ⟨hw, hs⟩ | ⟨hw, hs⟩) ms ss rfl
      · cases hv.symm.trans hn
      · cases hv.symm.trans hw
        exact absurd rfl (hs ms)
      · cases hv.symm.trans hw
        exact hs ss

/-! What a document holds. -/

def listOfOutline? (o : Outline) : Option (List Record) := o.value? maxDepth >>= listOfJson?

/-- A record for each element of a list, in their order, or one record. -/
inductive Holds : Outline → List Record → Prop where

  | list {os : List Outline} {rs : List Record} : List.Forall₂ (StandsFor 1) os rs →
      Holds (.arr os) rs

  | single {ms : List (List Json.Piece × Outline)} {r : Record} : StandsFor 0 (.obj ms) r →
      Holds (.obj ms) [r]

/-- Neither a list nor an object, a list with an element that is no record, wherever it stands, or
an object that is none. -/
inductive Refused : Outline → Prop where

  | scalar {o : Outline} : (∀ os, o ≠ .arr os) → (∀ ms, o ≠ .obj ms) → Refused o

  | element {o : Outline} (before after : List Outline) : Unfit 1 o →
      Refused (.arr (before ++ o :: after))

  | single {ms : List (List Json.Piece × Outline)} : Unfit 0 (.obj ms) → Refused (.obj ms)

/-- Each element of a list is read in its place, and as if it were alone there. -/
theorem listOfOutline?_arr (os : List Outline) :
    listOfOutline? (.arr os) = os.mapM (ofOutline? 1) := by
  have hv : (Outline.arr os).value? maxDepth =
      (os.mapM (Outline.value? (maxDepth - 1))).map .arr := by
    rw [maxDepth, Outline.value?]
  rw [listOfOutline?, hv, Option.bind_eq_bind, Option.bind_map]
  simp only [Function.comp_def, listOfJson?_arr]
  exact mapM_bind_mapM

theorem listOfOutline?_obj (ms : List (List Json.Piece × Outline)) :
    listOfOutline? (.obj ms) = (ofOutline? 0 (.obj ms)).map ([·]) := by
  rw [listOfOutline?, ofOutline?, Nat.sub_zero]
  cases hv : (Outline.obj ms).value? maxDepth with
  | none => rfl
  | some v =>
    rw [maxDepth, Outline.value?] at hv
    obtain ⟨ms', -, rfl⟩ := Option.map_eq_some_iff.mp hv
    exact listOfJson?_obj ms'

theorem listOfOutline?_of_scalar (ha : ∀ os, o ≠ .arr os) (ho : ∀ ms, o ≠ .obj ms) :
    listOfOutline? o = none := by
  rw [listOfOutline?]
  cases o with
  | arr os => exact absurd rfl (ha os)
  | obj ms => exact absurd rfl (ho ms)
  | null | bool b => rw [Outline.value?]; rfl
  | number n => rw [Outline.value?]; cases n.value? <;> rfl
  | string ps => rw [Outline.value?]; cases Json.string? ps <;> rfl

theorem listOfOutline?_eq_some_iff : listOfOutline? o = some rs ↔ Holds o rs := by
  cases o with
  | arr os =>
    rw [listOfOutline?_arr, mapM_eq_some_iff]
    simp only [ofOutline?_eq_some_iff]
    exact ⟨.list, fun | .list h => h⟩
  | obj ms =>
    rw [listOfOutline?_obj, Option.map_eq_some_iff]
    simp only [ofOutline?_eq_some_iff]
    constructor
    · rintro ⟨r, hr, rfl⟩
      exact .single hr
    · rintro ⟨⟩
      next r hr => exact ⟨r, hr, rfl⟩
  | null | bool b | number n | string ps =>
    rw [listOfOutline?_of_scalar (by simp) (by simp)]
    exact iff_of_false (Option.some_ne_none rs).symm nofun

theorem listOfOutline?_eq_none_iff : listOfOutline? o = none ↔ Refused o := by
  cases o with
  | arr os =>
    rw [listOfOutline?_arr, mapM_eq_none_iff]
    simp only [ofOutline?_eq_none_iff]
    constructor
    · rintro ⟨o, ho, hu⟩
      obtain ⟨before, after, rfl⟩ := List.append_of_mem ho
      exact .element before after hu
    · rintro (⟨ha, -⟩ | ⟨before, after, hu⟩)
      · exact absurd rfl (ha os)
      · exact ⟨_, List.mem_append_right before List.mem_cons_self, hu⟩
  | obj ms =>
    rw [listOfOutline?_obj, Option.map_eq_none_iff, ofOutline?_eq_none_iff]
    constructor
    · exact .single
    · rintro (⟨-, ho⟩ | _ | hu)
      · exact absurd rfl (ho ms)
      · exact hu
  | null | bool b | number n | string ps =>
    exact iff_of_true (listOfOutline?_of_scalar (by simp) (by simp)) (.scalar (by simp) (by simp))

section Load

variable {path : String} {bytes : List UInt8} (hp : DataFormat.ofPath path = .json)
  (ho : Contents.outline? bytes = some o)
include hp ho

theorem load_eq_ok_iff : load path (.ok bytes) = .ok rs ↔ Holds o rs := by
  rw [load, Contents.read_eq_ok_iff hp, Contents.json?_of_outline? ho]
  exact listOfOutline?_eq_some_iff

theorem load_eq_error_iff {e : LoadError} :
    load path (.ok bytes) = .error e ↔ e = .malformed .json ∧ Refused o := by
  rw [load, Contents.read_eq_error_iff hp, Contents.json?_of_outline? ho]
  exact and_congr_right' listOfOutline?_eq_none_iff

theorem getElem?_load (ha : o = .arr os) (h : load path (.ok bytes) = .ok rs) :
    rs.length = os.length ∧ ∀ i : ℕ, rs[i]? = os[i]?.bind (ofOutline? 1) := by
  subst ha
  have hm : os.mapM (ofOutline? 1) = some rs := by
    rw [← listOfOutline?_arr, listOfOutline?_eq_some_iff]
    exact (load_eq_ok_iff hp ho).mp h
  exact ⟨(mapM_eq_some_iff.mp hm).length_eq.symm, getElem?_of_mapM hm⟩

/-- A JSON file is loaded as a whole or not at all. If it holds a list of records, there is one for
each element, read where that stands, and if it holds one record, there is that one. Every other
document is malformed, and no value is accepted by both readings. -/
theorem load_whole :
    (∀ rs, load path (.ok bytes) = .ok rs ↔ Holds o rs) ∧
      (∀ e, load path (.ok bytes) = .error e ↔ e = .malformed .json ∧ Refused o) ∧
      (∀ os rs, o = .arr os → load path (.ok bytes) = .ok rs →
        rs.length = os.length ∧ ∀ i : ℕ, rs[i]? = os[i]?.bind (ofOutline? 1)) ∧
      ∀ v, itemsOfJson? v = none ∨ ofJson? v = none :=
  ⟨fun _ => load_eq_ok_iff hp ho, fun _ => load_eq_error_iff hp ho,
    fun _ _ => getElem?_load hp ho, itemsOfJson?_eq_none_or⟩

end Load

/-- The bytes of a file. -/
def encoded (v : Json) : List UInt8 := v.compact.toUTF8.data.toList

/-- Between two records there is one whose selectors are a number. -/
def torn : Json := .arr [.obj [("on", .str "a")], .obj [(reserved, .num (.int 7))], .obj []]

def mended : Json := .arr [.obj [("on", .str "a")], .obj []]

def sheet : Outline := .obj [([.char 'o', .char 'n'], .string [.char 'a'])]

def scrap : Outline := .obj [(reserved.toList.map .char, .number ⟨false, ['7'], none, none⟩)]

theorem load_whole_torn :
    load "shelf.json" (.ok (encoded torn)) = .error (.malformed .json) ∧
      load "shelf.json" (.ok (encoded mended)) =
        .ok [⟨.empty, .ofList [("on", .text "a")]⟩, .empty] := by
  have ht : Contents.outline? (encoded torn) = some (.arr [sheet, scrap, .obj []]) := rfl
  have hm : Contents.outline? (encoded mended) = some (.arr [sheet, .obj []]) := rfl
  have hv : scrap.value? (maxDepth - 1) = some (.obj [(reserved, .num (.int 7))]) := rfl
  have hu : Unfit 1 scrap := by
    refine .selectors hv fun ss hs => ?_
    cases hs with
    | none h => exact h _ List.mem_cons_self rfl
    | once h => cases h
  have hs : StandsFor 1 sheet ⟨.empty, .ofList [("on", .text "a")]⟩ :=
    ⟨[("on", .str "a")], rfl, ofJson?_obj_eq_some_iff.mp rfl⟩
  have he : StandsFor 1 (.obj []) .empty := ⟨[], rfl, ofJson?_obj_eq_some_iff.mp rfl⟩
  constructor
  · exact ((load_whole (by decide) ht).2.1 _).mpr ⟨rfl, .element [sheet] [.obj []] hu⟩
  · exact ((load_whole (by decide) hm).1 _).mpr (.list (.cons hs (.cons he .nil)))

end Record

end Stylebook
