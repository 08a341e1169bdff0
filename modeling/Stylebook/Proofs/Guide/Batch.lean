import Mathlib
import Stylebook.Guide
import Stylebook.Proofs.Compile.Faults

/-! # Batches

Definitions are registered together or not at all. A batch is refused for the fault of the first of
them that has one, and the guide stays as it was. If none has, there is one entry more for each, and
it makes no difference where one batch ends and the next begins.
-/

namespace Stylebook

namespace Guide

section Perform

variable {α β : Type} {g g' : Guide} {w : Work α}

theorem perform_get (g : Guide) : g.perform get = (.ok g, g) := rfl

theorem perform_modify (f : Guide → Guide) : g.perform (modify f) = (.ok (), f g) := rfl

theorem perform_bind_of_ok {a : α} (h : g.perform w = (.ok a, g')) (f : α → Work β) :
    g.perform (w >>= f) = g'.perform (f a) := by
  have hw : w.run.run g = (.ok a, g') := h
  rw [perform, ExceptT.run_bind, StateT.run_bind, hw]
  rfl

/-- Work that fails leaves out what was to come after it. -/
theorem perform_bind_of_error {e : GuideError} (h : g.perform w = (.error e, g'))
    (f : α → Work β) : g.perform (w >>= f) = (.error e, g') := by
  have hw : w.run.run g = (.error e, g') := h
  rw [perform, ExceptT.run_bind, StateT.run_bind, hw]
  rfl

/-- Entries are entered one after the other. -/
theorem perform_enter (g : Guide) (es : List (String × Entry)) :
    g.perform (es.forM fun e => modify fun g => { g with entries := g.entries.insert e.1 e.2 }) =
      (.ok (), { g with entries := g.entries.insertAll es }) := by
  induction es generalizing g with
  | nil => rfl
  | cons e es ih =>
    exact (perform_bind_of_ok (perform_modify _) _).trans (ih _)

end Perform

/-- The guide with more entries, after those that it has. -/
def enter (g : Guide) (es : List Entry) : Guide :=
  { g with entries := g.entries.insertAll (es.map fun e => (e.id, e)) }

/-- Why a definition is refused where some ids are taken. -/
inductive Refuses (E : Engine) (s : Schema) (source : String) (taken : List String)
    (d : Definition) : GuideError → Prop

  | missingId : Text.trim d.id.toList = [] → Refuses E s source taken d (.missingId d.title)

  | duplicateId :
      Text.trim d.id.toList ≠ [] → d.id ∈ taken →
      Refuses E s source taken d (.duplicateId d.id source)

  | compile {e : CompileError} :
      Text.trim d.id.toList ≠ [] → d.id ∉ taken → d.compile E s = .error e →
      Refuses E s source taken d (.compile e)

/-- A definition that is not refused compiles to a style. -/
structure Admits (E : Engine) (s : Schema) (taken : List String) (d : Definition) (st : Style) :
    Prop where
  named : Text.trim d.id.toList ≠ []
  fresh : d.id ∉ taken
  compiled : d.compile E s = .ok st

/-- The fault of the first of some definitions that is refused. The ids of those before it are taken
too. -/
inductive Blames (E : Engine) (s : Schema) (source : String) :
    List String → List Definition → GuideError → Prop

  | here {taken : List String} {d : Definition} {ds : List Definition} {e : GuideError} :
      Refuses E s source taken d e → Blames E s source taken (d :: ds) e

  | later {taken : List String} {d : Definition} {ds : List Definition} {st : Style}
      {e : GuideError} :
      Admits E s taken d st → Blames E s source (taken ++ [d.id]) ds e →
      Blames E s source taken (d :: ds) e

/-- The entries of definitions none of which is refused. -/
inductive Enters (E : Engine) (s : Schema) (source : String) :
    List String → List Definition → List Entry → Prop

  | nil {taken : List String} : Enters E s source taken [] []

  | cons {taken : List String} {d : Definition} {ds : List Definition} {st : Style}
      {es : List Entry} :
      Admits E s taken d st → Enters E s source (taken ++ [d.id]) ds es →
      Enters E s source taken (d :: ds) (.ofStyle d source st :: es)

section Batch

variable {E : Engine} {s : Schema} {source : String} {taken : List String} {d : Definition}
  {ds ds' : List Definition} {st : Style} {e : GuideError} {es : List Entry}

theorem refuses_or_admits (E : Engine) (s : Schema) (source : String) (taken : List String)
    (d : Definition) :
    (∃ e, Refuses E s source taken d e) ∨ ∃ st, Admits E s taken d st := by
  by_cases hn : Text.trim d.id.toList = []
  · exact .inl ⟨_, .missingId hn⟩
  by_cases hf : d.id ∈ taken
  · exact .inl ⟨_, .duplicateId hn hf⟩
  cases hc : d.compile E s with
  | error e => exact .inl ⟨_, .compile hn hf hc⟩
  | ok st => exact .inr ⟨st, hn, hf, hc⟩

theorem blames_or_enters (E : Engine) (s : Schema) (source : String) (taken : List String)
    (ds : List Definition) :
    (∃ e, Blames E s source taken ds e) ∨ ∃ es, Enters E s source taken ds es := by
  induction ds generalizing taken with
  | nil => exact .inr ⟨[], .nil⟩
  | cons d ds ih =>
    rcases refuses_or_admits E s source taken d with ⟨e, he⟩ | ⟨st, hd⟩
    · exact .inl ⟨e, .here he⟩
    · rcases ih (taken ++ [d.id]) with ⟨e, he⟩ | ⟨es, hes⟩
      · exact .inl ⟨e, .later hd he⟩
      · exact .inr ⟨_, .cons hd hes⟩

theorem enters_append_iff : Enters E s source taken (ds ++ ds') es ↔
    ∃ es₁ es₂, Enters E s source taken ds es₁ ∧
      Enters E s source (taken ++ ds.map Definition.id) ds' es₂ ∧ es = es₁ ++ es₂ := by
  induction ds generalizing taken es with
  | nil =>
    constructor
    · exact fun h => ⟨[], es, .nil, by simpa using h, rfl⟩
    · rintro ⟨_, es₂, ⟨⟩, h, rfl⟩
      simpa using h
  | cons d ds ih =>
    constructor
    · rintro (_ | ⟨hd, h⟩)
      obtain ⟨es₁, es₂, h₁, h₂, rfl⟩ := ih.mp h
      exact ⟨_, es₂, .cons hd h₁, by simpa using h₂, rfl⟩
    · rintro ⟨_, es₂, _ | ⟨hd, h₁⟩, h₂, rfl⟩
      exact .cons hd (ih.mpr ⟨_, es₂, h₁, by simpa using h₂, rfl⟩)

theorem Enters.ids_eq (h : Enters E s source taken ds es) :
    es.map Entry.id = ds.map Definition.id := by
  induction h with
  | nil => rfl
  | cons _ _ ih => rw [List.map_cons, List.map_cons, ih]; rfl

/-- Distinct ids stay distinct. -/
theorem Enters.nodup (h : Enters E s source taken ds es) (ht : taken.Nodup) :
    (taken ++ ds.map Definition.id).Nodup := by
  induction h with
  | nil => simpa using ht
  | @cons taken d ds st es hd _ ih =>
    have hn : (taken ++ [d.id]).Nodup := by
      refine List.nodup_append.mpr ⟨ht, List.nodup_singleton _, fun a ha b hb hab => ?_⟩
      exact hd.fresh (List.mem_singleton.mp hb ▸ hab ▸ ha)
    simpa using ih hn

theorem contains_or_iff {g : Guide} {staged : Table Entry} {id : String} :
    (g.entries.contains id || staged.contains id) = true ↔
      id ∈ g.entries.keys ++ staged.keys := by
  simp [Table.contains_iff]

/-- Staging an entry changes nothing in the guide. -/
theorem stage_of_refuses {g : Guide} {staged : Table Entry}
    (h : Refuses E g.schema source (g.entries.keys ++ staged.keys) d e) :
    g.perform (stage E source staged d) = (.error e, g) := by
  rw [stage, perform_bind_of_ok g.perform_get]
  cases h with
  | missingId hn =>
    rw [if_pos (Text.trim_eq_nil_iff.mp hn)]
    rfl
  | duplicateId hn hf =>
    rw [if_neg (mt Text.trim_eq_nil_iff.mpr hn), if_pos (contains_or_iff.mpr hf)]
    rfl
  | compile hn hf hc =>
    rw [if_neg (mt Text.trim_eq_nil_iff.mpr hn), if_neg (mt contains_or_iff.mp hf), hc]
    rfl

theorem stage_of_admits {g : Guide} {staged : Table Entry}
    (h : Admits E g.schema (g.entries.keys ++ staged.keys) d st) :
    g.perform (stage E source staged d) =
      (.ok (staged.insert d.id (.ofStyle d source st)), g) := by
  rw [stage, perform_bind_of_ok g.perform_get, if_neg (mt Text.trim_eq_nil_iff.mpr h.named),
    if_neg (mt contains_or_iff.mp h.fresh), h.compiled]
  rfl

theorem Admits.not_mem_right {ids : List String} (h : Admits E s (taken ++ ids) d st) : d.id ∉ ids :=
  fun hm => h.fresh (List.mem_append_right _ hm)

theorem Admits.keys_insert {staged : Table Entry} (h : Admits E s (taken ++ staged.keys) d st)
    (v : Entry) : taken ++ (staged.insert d.id v).keys = taken ++ staged.keys ++ [d.id] := by
  rw [Table.keys_insert, if_neg h.not_mem_right, List.append_assoc]

theorem stageAll_of_blames {g : Guide} {staged : Table Entry}
    (h : Blames E g.schema source (g.entries.keys ++ staged.keys) ds e) :
    g.perform (ds.foldlM (stage E source) staged) = (.error e, g) := by
  induction ds generalizing staged with
  | nil => cases h
  | cons d ds ih =>
    rw [List.foldlM_cons]
    cases h with
    | here hd => exact perform_bind_of_error (stage_of_refuses hd) _
    | later hd h =>
      rw [perform_bind_of_ok (stage_of_admits hd)]
      exact ih (by rwa [hd.keys_insert])

theorem stageAll_of_enters {g : Guide} {staged : Table Entry}
    (h : Enters E g.schema source (g.entries.keys ++ staged.keys) ds es) :
    ∃ staged', g.perform (ds.foldlM (stage E source) staged) = (.ok staged', g) ∧
      staged'.entries = staged.entries ++ es.map fun e => (e.id, e) := by
  induction ds generalizing staged es with
  | nil =>
    cases h
    exact ⟨staged, rfl, by simp⟩
  | cons d ds ih =>
    obtain _ | @⟨_, _, _, st, es, hd, h⟩ := h
    rw [← hd.keys_insert (.ofStyle d source st)] at h
    obtain ⟨staged', hr, he⟩ := ih h
    refine ⟨staged', ?_, ?_⟩
    · rw [List.foldlM_cons, perform_bind_of_ok (stage_of_admits hd), hr]
    · rw [he, Table.entries_insert_of_not_mem hd.not_mem_right]
      simp [Entry.ofStyle]

theorem register_of_blames {g : Guide} (h : Blames E g.schema source g.entries.keys ds e) :
    g.perform (register E source ds) = (.error e, g) :=
  perform_bind_of_error (stageAll_of_blames (by simpa [Table.keys] using h)) _

theorem register_of_enters {g : Guide} (h : Enters E g.schema source g.entries.keys ds es) :
    g.perform (register E source ds) = (.ok (), g.enter es) := by
  have hs : Enters E g.schema source (g.entries.keys ++ (Table.empty : Table Entry).keys) ds
      es := by
    simpa [Table.keys] using h
  obtain ⟨staged, hr, he⟩ := stageAll_of_enters hs
  rw [register, perform_bind_of_ok hr, he]
  exact g.perform_enter _

/-- What a batch can do to a guide. -/
theorem register_cases (g : Guide) (E : Engine) (source : String) (ds : List Definition) :
    (∃ e, Blames E g.schema source g.entries.keys ds e ∧
      g.perform (register E source ds) = (.error e, g)) ∨
    ∃ es, Enters E g.schema source g.entries.keys ds es ∧
      g.perform (register E source ds) = (.ok (), g.enter es) := by
  rcases blames_or_enters E g.schema source g.entries.keys ds with ⟨e, he⟩ | ⟨es, hes⟩
  · exact .inl ⟨e, he, register_of_blames he⟩
  · exact .inr ⟨es, hes, register_of_enters hes⟩

theorem register_eq_error_iff {g : Guide} :
    (g.perform (register E source ds)).1 = .error e ↔
      Blames E g.schema source g.entries.keys ds e := by
  constructor
  · intro h
    rcases register_cases g E source ds with ⟨e', he, hr⟩ | ⟨es, -, hr⟩
    · rw [hr] at h
      cases h
      exact he
    · rw [hr] at h
      cases h
  · intro h
    rw [register_of_blames h]

theorem add_eq_ok_iff {g g' : Guide} : g.add E source ds = .ok g' ↔
    ∃ es, Enters E g.schema source g.entries.keys ds es ∧ g' = g.enter es := by
  constructor
  · intro h
    rcases register_cases g E source ds with ⟨e, -, hr⟩ | ⟨es, hes, hr⟩
    · rw [add, hr] at h
      cases h
    · rw [add, hr] at h
      cases h
      exact ⟨es, hes, rfl⟩
  · rintro ⟨es, hes, rfl⟩
    rw [add, register_of_enters hes]

theorem entries_enter {g : Guide} (h : Enters E g.schema source g.entries.keys ds es) :
    (g.enter es).entries.entries = g.entries.entries ++ es.map fun e => (e.id, e) := by
  have hi : (es.map fun e => (e.id, e)).map Prod.fst = ds.map Definition.id := by
    rw [← h.ids_eq, List.map_map]
    rfl
  refine Table.entries_insertAll ?_
  rw [hi]
  exact h.nodup g.entries.nodup

theorem keys_enter {g : Guide} (h : Enters E g.schema source g.entries.keys ds es) :
    (g.enter es).entries.keys = g.entries.keys ++ ds.map Definition.id := by
  rw [Table.keys, entries_enter h, ← h.ids_eq, List.map_append, List.map_map]
  rfl

theorem list_enter {g : Guide} (h : Enters E g.schema source g.entries.keys ds es) :
    (g.enter es).list = g.list ++ es := by
  rw [list, entries_enter h, List.map_append, List.map_map]
  exact congrArg (g.list ++ ·) (List.map_id' es)

theorem enter_append (g : Guide) (es es' : List Entry) :
    g.enter (es ++ es') = (g.enter es).enter es' := by
  simp only [enter, List.map_append, Table.insertAll_append]

/-- Definitions may be registered in one batch or in two. -/
theorem add_append_iff {g g' : Guide} : g.add E source (ds ++ ds') = .ok g' ↔
    ∃ g₁, g.add E source ds = .ok g₁ ∧ g₁.add E source ds' = .ok g' := by
  simp only [add_eq_ok_iff, enters_append_iff]
  constructor
  · rintro ⟨_, ⟨es₁, es₂, h₁, h₂, rfl⟩, rfl⟩
    exact ⟨_, ⟨es₁, h₁, rfl⟩, es₂, by rwa [keys_enter h₁], g.enter_append es₁ es₂⟩
  · rintro ⟨_, ⟨es₁, h₁, rfl⟩, es₂, h₂, rfl⟩
    rw [keys_enter h₁] at h₂
    exact ⟨_, ⟨es₁, es₂, h₁, h₂, rfl⟩, (g.enter_append es₁ es₂).symm⟩

end Batch

end Guide

end Stylebook
