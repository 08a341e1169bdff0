import Mathlib
import Stylebook.Proofs.Json.Written
import Stylebook.Proofs.Record.Decoding

/-! # Records that are written and read again

What has been read comes back from what is written of it, under the same keys and in the same order.
Only a value that was kept as it is may change: where a repeated key alone kept it from having a
shape, it is written without the repetition, and has that shape when it is read again.
-/

namespace Stylebook

theorem Member.filter_eq_singleton_iff {α : Type} {ms : List (String × α)} {k : String} {v : α}
    (hn : (ms.map Prod.fst).Nodup) : ms.filter (·.1 = k) = [(k, v)] ↔ ms.lookup k = some v := by
  induction ms with
  | nil => simp
  | cons m ms ih =>
    obtain ⟨hm, hn⟩ := List.nodup_cons.mp hn
    rw [Table.lookup_cons_eq_ite, List.filter_cons]
    by_cases h : m.1 = k
    · have hk : ms.filter (·.1 = k) = [] :=
        List.filter_eq_nil_iff.mpr fun e he hek =>
          hm (h ▸ of_decide_eq_true hek ▸ List.mem_map_of_mem he)
      simp [h, hk, Prod.ext_iff]
    · simpa [h, Ne.symm h] using ih hn

theorem Member.forall_ne_iff {α : Type} {ms : List (String × α)} {k : String} :
    (∀ m ∈ ms, m.1 ≠ k) ↔ ms.lookup k = none := by
  rw [List.lookup_eq_none_iff]
  grind

namespace Json

variable {v : Json} {d : Nat}

theorem Fits.sorted (h : v.Fits d) : v.sorted.Fits d := by
  induction v using induction generalizing d with
  | null | bool b | num n | str s => rw [Json.sorted] <;> first | exact h | simp
  | arr xs ih =>
    cases h with
    | arr h =>
      rw [sorted_arr]
      refine .arr fun y hy => ?_
      obtain ⟨x, hx, rfl⟩ := List.mem_map.mp hy
      exact ih x hx (h x hx)
  | obj ms ih =>
    cases h with
    | obj h =>
      rw [sorted_obj]
      refine .obj fun m hm => ?_
      obtain ⟨v, hv, he⟩ := mem_sortedEntries hm
      exact he ▸ ih _ hv (h _ hv)

theorem fits_obj_of_strings {ms : List (String × Json)} (h : ∀ m ∈ ms, ∃ s, m.2 = str s) :
    (obj ms).Fits (d + 1) :=
  .obj fun m hm => by
    obtain ⟨s, hs⟩ := h m hm
    exact hs ▸ .str s

end Json

namespace Contributor

theorem fits_toJson {v : Json} {c : Contributor} {d : Nat} (h : Shaped v c) (hv : v.Fits d) :
    c.toJson.Fits d := by
  have hd : ∃ n, d = n + 1 := by
    cases h <;> cases hv <;> exact ⟨_, rfl⟩
  obtain ⟨n, rfl⟩ := hd
  refine Json.fits_obj_of_strings fun m hm => ?_
  split at hm <;> simp at hm <;> grind

theorem shaped_toJson (c : Contributor) : Shaped c.toJson c := by
  by_cases h : c.first.isEmpty
  · have hc : c = ⟨"", c.last⟩ := by
      obtain ⟨first, last⟩ := c
      simpa using h
    rw [hc]
    exact .surname rfl (by simp)
  · rw [toJson, if_neg h]
    exact .named rfl rfl

/-- Only a repeated key can keep an object from having names. -/
theorem shaped_of_sorted {v : Json} {c : Contributor} (hv : v.Distinct) (h : Shaped v.sorted c) :
    Shaped v c := by
  cases hv with
  | null | bool b | num n | str s => rw [Json.sorted] at h <;> cases h
  | @arr xs _ =>
    rw [Json.sorted_arr] at h
    generalize hx : xs.map Json.sorted = ys at h
    cases h with
    | pair first last =>
      obtain ⟨f, xs, rfl, hf, hx⟩ := List.map_eq_cons_iff.mp hx
      obtain ⟨l, xs, rfl, hl, hx⟩ := List.map_eq_cons_iff.mp hx
      obtain rfl := List.map_eq_nil_iff.mp hx
      obtain rfl := Json.sorted_eq_str_iff.mp hf
      obtain rfl := Json.sorted_eq_str_iff.mp hl
      exact .pair first last
  | @obj ms hn _ =>
    have hs := (Json.pairwise_sortedEntries ms).imp ne_of_lt
    have hk {k s : String} (h : (Json.sortedEntries ms).filter (·.1 = k) = [(k, .str s)]) :
        ms.filter (·.1 = k) = [(k, .str s)] := by
      rw [Member.filter_eq_singleton_iff hs, Json.lookup_sortedEntries, Table.lastFor_of_nodup hn,
        Option.map_eq_some_iff] at h
      obtain ⟨v, hv, he⟩ := h
      rwa [Member.filter_eq_singleton_iff hn, ← Json.sorted_eq_str_iff.mp he]
    rw [Json.sorted_obj] at h
    cases h with
    | named hl hf => exact .named (hk hl) (hk hf)
    | surname hl hf =>
      refine .surname (hk hl) ?_
      rw [Member.forall_ne_iff, Json.lookup_sortedEntries, Table.lastFor_of_nodup hn,
        Option.map_eq_none_iff] at hf
      exact Member.forall_ne_iff.mpr hf

end Contributor

namespace Date

theorem exists_shaped_toJson (d : Date) : ∃ ms, d.toJson = .obj ms ∧ Shaped ms d := by
  refine ⟨_, rfl, ofMembers?_eq_some_iff.mp ?_⟩
  obtain ⟨y, m, d⟩ := d
  cases y <;> cases m <;> cases d <;> rfl

theorem partOf_of_sorted {v : Json} {p : Option String} (h : PartOf v.sorted p) : PartOf v p := by
  generalize hw : v.sorted = w at h
  cases h with
  | missing => exact Json.sorted_eq_null_iff.mp hw ▸ .missing
  | text s => exact Json.sorted_eq_str_iff.mp hw ▸ .text s
  | integer hl hu => exact Json.sorted_eq_num_iff.mp hw ▸ .integer hl hu

/-- Only a repeated key can keep an object from being a date. -/
theorem shaped_of_sortedEntries {ms : List (String × Json)} {d : Date}
    (hn : (ms.map Prod.fst).Nodup) (h : Shaped (Json.sortedEntries ms) d) : Shaped ms d := by
  have hs := (Json.pairwise_sortedEntries ms).imp ne_of_lt
  have hm {m : String × Json} (hm : m ∈ ms) : (m.1, m.2.sorted) ∈ Json.sortedEntries ms := by
    rw [← Table.lookup_eq_some_iff hs, Json.lookup_sortedEntries, Table.lastFor_of_nodup hn,
      Table.lookup_of_mem hn hm, Option.map_some]
  refine ⟨fun m hm' => ?_, fun m hm' => ?_, fun k hk => ?_⟩
  · exact h.names (m.1, m.2.sorted) (hm hm')
  · obtain ⟨p, hp⟩ := h.parts _ (hm hm')
    exact ⟨p, partOf_of_sorted hp⟩
  · have hp := h.last k hk
    rw [Table.lastFor_of_nodup hs, Json.lookup_sortedEntries] at hp
    cases hl : Table.lastFor k ms with
    | none => rwa [hl] at hp
    | some v =>
      rw [hl] at hp
      exact partOf_of_sorted hp

end Date

namespace Field

variable {v w : Json} {f : Field}

theorem shaped_of_sorted (hv : v.Distinct) (h : Shaped v.sorted f) : Shaped v f := by
  cases hv with
  | null | bool b | num n | str s => rw [Json.sorted] at h <;> first | exact h | simp
  | arr hx =>
    rw [Json.sorted_arr] at h
    cases h with
    | contributors h =>
      rw [List.forall₂_map_left_iff] at h
      have hc := (List.forall₂_and_left _ _).mpr ⟨hx, h⟩
      exact .contributors (hc.imp fun x c h => Contributor.shaped_of_sorted h.1 h.2)
  | obj hn _ =>
    rw [Json.sorted_obj] at h
    cases h with
    | date h => exact .date (Date.shaped_of_sortedEntries hn h)

theorem not_shaped_of_kept (h : Decodes v (other w)) (hv : v.Distinct) (f : Field) :
    ¬ Shaped w f := by
  intro hf
  cases h with
  | shaped h => cases h
  | kept hn ht =>
    rw [ht.eq_sorted] at hf
    exact hn f (shaped_of_sorted hv hf)

/-- A shape of its own is written so that it is read as the same. -/
theorem shaped_toJson (h : Shaped v f) (hn : ∀ x, f = number x → Number.isFinite x = true) :
    Shaped f.toJson f := by
  cases h with
  | null => exact .null
  | text s => exact .text s
  | number n =>
    rw [toJson, if_pos (hn _ rfl)]
    exact .number (.float n.toFloat)
  | @contributors _ cs _ =>
    refine .contributors ?_
    rw [List.forall₂_map_left_iff]
    exact List.forall₂_same.mpr fun c _ => c.shaped_toJson
  | @date _ d _ =>
    obtain ⟨ms, he, hs⟩ := d.exists_shaped_toJson
    rw [toJson, he]
    exact .date hs

/-- What comes back of a field: the shape that a value has which was kept as it is, and else the
field itself. -/
inductive Reread : Field → Field → Prop where

  | same {f : Field} : (∀ w, f = other w → ∀ g, ¬ Shaped w g) → Reread f f

  | shaped {w : Json} {g : Field} : Shaped w g → Reread (other w) g

theorem reread_ofJson_toJson (h : Decodes v f)
    (hn : ∀ x, f = number x → Number.isFinite x = true) : Reread f (ofJson f.toJson) := by
  cases h with
  | shaped hs =>
    rw [(decodes_ofJson f.toJson).unique (.shaped (shaped_toJson hs hn))]
    exact .same fun w hw => by subst hw; cases hs
  | @kept w _ ht =>
    have hw := decodes_ofJson w
    rw [toJson]
    generalize ofJson w = g at hw ⊢
    cases hw with
    | shaped hg => exact .shaped hg
    | kept hn ht' =>
      rw [ht'.eq_sorted, ht.eq_sorted, Json.sorted_sorted, ← ht.eq_sorted]
      exact .same fun w' hw => by cases hw; exact hn

theorem ofJson_toJson_iff (h : Reread f (ofJson f.toJson)) :
    ofJson f.toJson = f ↔ ∀ w, f = other w → ∀ g, ¬ Shaped w g := by
  constructor
  · rintro he w rfl g hg
    have hw : Decodes w (other w) := he ▸ decodes_ofJson w
    cases Decodes.unique (.shaped hg) hw
    cases hg
  · intro hn
    generalize ofJson f.toJson = g at h
    cases h with
    | same _ => rfl
    | shaped hg => exact absurd hg (hn _ rfl g)

/-- What is written of a field is not nested deeper than what it has been read from. -/
theorem fits_toJson {d : Nat} (h : Decodes v f) (hv : v.Fits d) : f.toJson.Fits d := by
  cases h with
  | kept _ ht => exact ht.eq_sorted ▸ hv.sorted
  | shaped hs =>
    cases hs with
    | null => exact .null
    | text s => exact .str s
    | number n =>
      rw [toJson]
      split
      · exact .float _
      · exact .null
    | @contributors xs cs h =>
      cases hv with
      | arr hv =>
        refine .arr fun y hy => ?_
        obtain ⟨c, hc, rfl⟩ := List.mem_map.mp hy
        have hx := exists_of_mem_mapM (mapM_ofJson?_eq_some_iff.mpr h) hc
        obtain ⟨x, hx, hc⟩ := hx
        exact Contributor.fits_toJson (Contributor.ofJson?_eq_some_iff.mp hc) (hv x hx)
    | @date _ d _ =>
      cases hv with
      | obj _ =>
        refine Json.fits_obj_of_strings fun m hm => ?_
        obtain ⟨y, m', d⟩ := d
        cases y <;> cases m' <;> cases d <;> simp [Json.optionalMember] at hm <;> grind

end Field

namespace Record

variable {v : Json} {r : Record}

theorem reserved_not_mem (h : ofJson? v = some r) : reserved ∉ r.fields.keys := by
  obtain ⟨ms, -, hd⟩ := ofJson?_eq_some_iff.mp h
  simp [hd.keys, List.mem_eraseDups]

theorem exists_decodes {ms : List (String × Json)} (h : Decodes ms r) {k : String} {f : Field}
    (hf : (k, f) ∈ r.fields.entries) : ∃ v, (k, v) ∈ ms ∧ Field.Decodes v f := by
  have hk : k ∈ r.fields.keys := List.mem_map_of_mem hf
  have hr : k ≠ reserved := by
    rw [h.keys, List.mem_eraseDups] at hk
    simpa using (List.mem_filter.mp hk).2
  have hg := h.field hr
  rw [Table.get?_eq_some_iff.mpr hf] at hg
  cases hl : Table.lastFor k ms with
  | none => rw [hl] at hg; cases hg
  | some v =>
    rw [hl] at hg
    cases hg with
    | some hd => exact ⟨v, Table.mem_of_lastFor hl, hd⟩

/-- The members under which the selectors are written. -/
def selectorMembers (ss : Table String) : List (String × Json) :=
  if ss.isEmpty then [] else [(reserved, .obj (ss.entries.map fun e => (e.1, .str e.2)))]

def fieldMembers (fs : Table Field) : List (String × Json) :=
  fs.entries.map fun e => (e.1, e.2.toJson)

theorem toJson_eq (r : Record) :
    r.toJson = .obj (selectorMembers r.selectors ++ fieldMembers r.fields) := rfl

section Members

variable (hr : reserved ∉ r.fields.keys)
include hr

theorem selecting_members :
    Selecting (selectorMembers r.selectors ++ fieldMembers r.fields) r.selectors.entries := by
  have hf : ∀ m ∈ fieldMembers r.fields, m.1 ≠ reserved := by
    intro m hm hk
    obtain ⟨e, he, rfl⟩ := List.mem_map.mp hm
    exact hr (hk ▸ List.mem_map_of_mem he)
  by_cases hs : r.selectors.isEmpty
  · have he : r.selectors.entries = [] := List.isEmpty_iff.mp hs
    rw [selectorMembers, if_pos hs, he]
    exact .none hf
  · have hn : (fieldMembers r.fields).filter (·.1 = reserved) = [] :=
      List.filter_eq_nil_iff.mpr fun m hm => by simpa using hf m hm
    refine .once ?_
    rw [selectorMembers, if_neg hs, List.filter_append, hn]
    simp

theorem fieldsOf_members :
    fieldsOf (selectorMembers r.selectors ++ fieldMembers r.fields) =
      r.fields.entries.map fun e => (e.1, Field.ofJson e.2.toJson) := by
  have hs : (selectorMembers r.selectors).filter (·.1 ≠ reserved) = [] := by
    rw [selectorMembers]
    split <;> simp
  have hf : (fieldMembers r.fields).filter (·.1 ≠ reserved) = fieldMembers r.fields := by
    refine List.filter_eq_self.mpr fun m hm => ?_
    obtain ⟨e, he, rfl⟩ := List.mem_map.mp hm
    exact decide_eq_true fun h => hr (h ▸ List.mem_map_of_mem he)
  rw [fieldsOf, List.filter_append, hs, hf, List.nil_append, fieldMembers, List.map_map]
  rfl

/-- What is written of a record is read, each field by itself. -/
theorem exists_ofJson?_toJson : ∃ r', ofJson? r.toJson = some r' ∧
    r'.selectors = r.selectors ∧
      r'.fields.entries = r.fields.entries.map fun e => (e.1, Field.ofJson e.2.toJson) := by
  have hs : selectors? (selectorMembers r.selectors ++ fieldMembers r.fields) = some r.selectors :=
    selectors?_eq_some_iff.mpr ⟨_, selecting_members hr,
      Table.eq_ofList_iff.mp (Table.ofList_entries r.selectors).symm⟩
  refine ⟨⟨r.selectors, Table.ofList (fieldsOf (selectorMembers r.selectors ++
    fieldMembers r.fields))⟩, by rw [toJson_eq, ofJson?, hs]; rfl, rfl, ?_⟩
  rw [fieldsOf_members hr]
  refine Table.entries_ofList ?_
  rw [List.map_map]
  exact r.fields.nodup

end Members

theorem fits_toJson {d : Nat} (h : ofJson? v = some r) (hv : v.Fits d) : r.toJson.Fits d := by
  obtain ⟨ms, rfl, hd⟩ := ofJson?_eq_some_iff.mp h
  cases hv with
  | obj hv =>
    rw [toJson_eq]
    refine .obj fun m hm => ?_
    rcases List.mem_append.mp hm with hm | hm
    · rw [selectorMembers] at hm
      split at hm
      · cases hm
      · next hs =>
        obtain rfl := List.mem_singleton.mp hm
        obtain ⟨ss, hn | hf, hg⟩ := hd.selectors
        · rw [Table.eq_ofList_iff.mpr hg] at hs
          exact absurd rfl hs
        · have hm : (reserved, Json.obj (ss.map fun s => (s.1, .str s.2))) ∈ ms :=
            List.mem_of_mem_filter (hf ▸ List.mem_singleton_self _)
          cases hv _ hm
          exact Json.fits_obj_of_strings fun m hm => by
            obtain ⟨e, -, rfl⟩ := List.mem_map.mp hm
            exact ⟨_, rfl⟩
    · obtain ⟨e, he, rfl⟩ := List.mem_map.mp hm
      obtain ⟨v, hm, hf⟩ := exists_decodes hd he
      exact Field.fits_toJson hf (hv _ hm)

/-- A record comes back if each of its fields does. -/
theorem ofJson?_toJson_iff (hr : reserved ∉ r.fields.keys) :
    ofJson? r.toJson = some r ↔ ∀ e ∈ r.fields.entries, Field.ofJson e.2.toJson = e.2 := by
  obtain ⟨r', hr', hs, hf⟩ := exists_ofJson?_toJson hr
  rw [hr', Option.some.injEq]
  have he : r' = r ↔ r'.fields.entries = r.fields.entries :=
    ⟨fun h => h ▸ rfl, fun h => by cases r; cases r'; cases hs; cases Table.ext h; rfl⟩
  rw [he, hf]
  constructor
  · intro h e hm
    exact congrArg Prod.snd (List.map_inj_left.mp (h.trans (List.map_id _).symm) e hm)
  · intro h
    exact (List.map_congr_left fun e hm => by rw [h e hm]; rfl).trans (List.map_id _)

section Read

variable (h : ofJson? v = some r)
  (hn : ∀ k x, r.fields.get? k = some (.number x) → Number.isFinite x = true)
include h hn

theorem reread_of_mem {e : String × Field} (he : e ∈ r.fields.entries) :
    Field.Reread e.2 (Field.ofJson e.2.toJson) := by
  obtain ⟨ms, -, hd⟩ := ofJson?_eq_some_iff.mp h
  obtain ⟨v, -, hv⟩ := exists_decodes hd he
  exact Field.reread_ofJson_toJson hv fun x hx => hn e.1 x (Table.get?_eq_some_iff.mpr (hx ▸ he))

theorem exists_reread : ∃ r', ofJson? r.toJson = some r' ∧ r'.selectors = r.selectors ∧
    r'.fields.keys = r.fields.keys ∧
      ∀ k, Option.Rel Field.Reread (r.fields.get? k) (r'.fields.get? k) := by
  obtain ⟨r', hr', hs, hf⟩ := exists_ofJson?_toJson (reserved_not_mem h)
  have hk : r'.fields.keys = r.fields.keys := by
    rw [Table.keys, hf, List.map_map]
    rfl
  refine ⟨r', hr', hs, hk, fun k => ?_⟩
  cases hg : r.fields.get? k with
  | none =>
    rw [Table.get?_eq_none_iff.mpr (hk ▸ Table.get?_eq_none_iff.mp hg)]
    exact .none
  | some f =>
    have he := Table.get?_eq_some_iff.mp hg
    have hg' : r'.fields.get? k = some (Field.ofJson f.toJson) :=
      Table.get?_eq_some_iff.mpr (hf ▸ List.mem_map_of_mem he)
    rw [hg']
    exact .some (reread_of_mem h hn he)

theorem ofJson?_toJson_eq_some_iff : ofJson? r.toJson = some r ↔
    ∀ k w, r.fields.get? k = some (.other w) → ∀ f, ¬ Field.Shaped w f := by
  rw [ofJson?_toJson_iff (reserved_not_mem h)]
  constructor
  · intro hb k w hw
    have he := Table.get?_eq_some_iff.mp hw
    exact (Field.ofJson_toJson_iff (reread_of_mem h hn he)).mp (hb _ he) w rfl
  · intro hb e he
    refine (Field.ofJson_toJson_iff (reread_of_mem h hn he)).mpr fun w hw => ?_
    exact hb e.1 w (Table.get?_eq_some_iff.mpr (hw ▸ he))

theorem ofJson?_toJson_of_distinct (hv : v.Distinct) : ofJson? r.toJson = some r := by
  refine (ofJson?_toJson_eq_some_iff h hn).mpr fun k w hw => ?_
  obtain ⟨ms, rfl, hd⟩ := ofJson?_eq_some_iff.mp h
  obtain ⟨v, hm, hk⟩ := exists_decodes hd (Table.get?_eq_some_iff.mp hw)
  cases hv with
  | obj _ hv => exact Field.not_shaped_of_kept hk (hv _ hm)

end Read

theorem read?_written (h : ofJson? v = some r) {s : String} (hs : Json.read? s = some v)
    (hx : ∀ x, r.toJson.HasFloat x → Json.ReadsBack x) :
    read? r.written = ofJson? r.toJson := by
  have hb := Json.read?_compact (fits_toJson h (Json.fits_of_read? hs)) hx
  rw [read?, written, hb]
  rfl

/-- A record that has been read is written, and read again: it comes back under the same keys and
with the same selectors, and each field as it was, unless it is a value that has been kept as it is
and is a list of contributors or a date without the keys that it repeats. If it has been read from
a text, the same holds of the text that is written, as far as the floats in it are read back. -/
theorem round_trip (h : ofJson? v = some r)
    (hn : ∀ k x, r.fields.get? k = some (.number x) → Number.isFinite x = true) :
    reserved ∉ r.fields.keys ∧
      (∃ r', ofJson? r.toJson = some r' ∧ r'.selectors = r.selectors ∧
        r'.fields.keys = r.fields.keys ∧
          ∀ k, Option.Rel Field.Reread (r.fields.get? k) (r'.fields.get? k)) ∧
      (ofJson? r.toJson = some r ↔
        ∀ k w, r.fields.get? k = some (.other w) → ∀ f, ¬ Field.Shaped w f) ∧
      (v.Distinct → ofJson? r.toJson = some r) ∧
      ∀ s, Json.read? s = some v → (∀ x, r.toJson.HasFloat x → Json.ReadsBack x) →
        read? r.written = ofJson? r.toJson :=
  ⟨reserved_not_mem h, exists_reread h hn, ofJson?_toJson_eq_some_iff h hn,
    ofJson?_toJson_of_distinct h hn, fun _ => read?_written h⟩

/-- A record with selectors, a date in numbers and a value without a shape. -/
def tides : Json :=
  .obj [("on", .obj [("year", .num (.int 1912))]), (reserved, .obj [("on", .str "b")]),
    ("kept", .bool true)]

def readTides : Record :=
  ⟨Table.ofList [("on", "b")],
    Table.ofList [("on", .date ⟨some "1912", none, none⟩), ("kept", .other (.bool true))]⟩

theorem round_trip_tides :
    ofJson? readTides.toJson = some readTides ∧ read? readTides.written = some readTides := by
  have hn (k : String) (x : Float) (hk : readTides.fields.get? k = some (.number x)) :
      Number.isFinite x = true := by
    have he : readTides.fields.entries =
        [("on", .date ⟨some "1912", none, none⟩), ("kept", .other (.bool true))] := rfl
    simpa [he] using Table.get?_eq_some_iff.mp hk
  have hx (x : Float) : ¬ readTides.toJson.HasFloat x := by
    have ht : readTides.toJson = .obj [(reserved, .obj [("on", .str "b")]),
        ("on", .obj [("year", .str "1912")]), ("kept", .bool true)] := rfl
    rw [ht]
    rintro (_ | _ | ⟨hm, hx⟩)
    simp only [List.mem_cons, List.not_mem_nil, or_false] at hm
    obtain rfl | rfl | rfl := hm
    · cases hx with
      | obj hm hx => cases List.mem_singleton.mp hm; cases hx
    · cases hx with
      | obj hm hx => cases List.mem_singleton.mp hm; cases hx
    · cases hx
  have hd : tides.Distinct := by
    refine .obj (by decide) fun m hm => ?_
    simp only [List.mem_cons, List.not_mem_nil, or_false] at hm
    obtain rfl | rfl | rfl := hm
    · exact .obj (by decide) fun m hm => List.mem_singleton.mp hm ▸ .num _
    · exact .obj (by decide) fun m hm => List.mem_singleton.mp hm ▸ .str _
    · exact .bool true
  obtain ⟨-, -, -, hback, htext⟩ := round_trip (v := tides) (r := readTides) rfl hn
  have hs : Json.read? tides.compact = some tides := rfl
  exact ⟨hback hd, (htext _ hs fun x h => absurd h (hx x)).trans (hback hd)⟩

/-- The last name is given twice, so this is no list of contributors. What is kept of it is one. -/
def doubled : Json := .obj [("by", .arr [.obj [("last", .str "a"), ("last", .str "b")]])]

theorem not_round_trip_doubled : ∃ r r', ofJson? doubled = some r ∧ ofJson? r.toJson = some r' ∧
    r.fields.get? "by" = some (.other (.arr [.obj [("last", .str "b")]])) ∧
      r'.fields.get? "by" = some (.contributors [⟨"", "b"⟩]) ∧ r' ≠ r := by
  refine ⟨_, _, rfl, rfl, rfl, rfl, fun h => ?_⟩
  have hby := congrArg (·.fields.get? "by") h
  cases hby

end Record

end Stylebook
