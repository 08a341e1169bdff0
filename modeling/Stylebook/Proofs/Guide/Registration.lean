import Mathlib
import Stylebook.Proofs.Guide.Batch

/-! # Registration

A guide is reached by requests, of which some fail. What it holds is what was registered by the others:
one entry for each definition, in order, compiled against the schema that the guide had then.
-/

namespace Stylebook

/-- A definition that was registered for a kind of source, and the schema that the guide had then. -/
structure Registration where
  schema : Schema
  source : String
  definition : Definition

/-- The entry that a registration leaves. -/
def Registration.Yields (E : Engine) (x : Registration) (e : Entry) : Prop :=
  ∃ st, x.definition.compile E x.schema = .ok st ∧ e = .ofStyle x.definition x.source st

theorem Registration.ids_eq {xs : List Registration} {es : List Entry}
    (h : List.Forall₂ (Yields E) xs es) : es.map Entry.id = xs.map fun x => x.definition.id := by
  induction h with
  | nil => rfl
  | cons hx _ ih =>
    obtain ⟨st, -, rfl⟩ := hx
    rw [List.map_cons, List.map_cons, ih]
    rfl

namespace Guide

/-- What is registered by a request. One that fails registers nothing. -/
def registered (g : Guide) (E : Engine) : Request → List Registration
  | .add source ds =>
    match g.add E source ds with
    | .ok _ => ds.map fun d => ⟨g.schema, source, d⟩
    | .error _ => []
  | .withSchema _ | .setConfig _ => []

/-- What the requests of a history register, in order. -/
def registrations (g : Guide) (E : Engine) : List Request → List Registration
  | [] => []
  | q :: qs => g.registered E q ++ (g.after E [q]).registrations E qs

def Request.schema? : Request → Option Schema
  | .withSchema s => some s
  | .add _ _ | .setConfig _ => none

/-- A guide holds exactly the entries of some registrations, in order. -/
structure Holds (g : Guide) (E : Engine) (xs : List Registration) : Prop where
  named : ∀ e ∈ g.list, Text.trim e.id.toList ≠ []
  keyed : ∀ p ∈ g.entries.entries, p.1 = p.2.id
  yields : List.Forall₂ (Registration.Yields E) xs g.list

section History

variable {E : Engine} {g : Guide} {s : Schema} {source : String} {taken : List String}
  {ds : List Definition}
  {es : List Entry} {xs : List Registration}

theorem Enters.yields (h : Enters E s source taken ds es) :
    List.Forall₂ (Registration.Yields E) (ds.map fun d => ⟨s, source, d⟩) es := by
  induction h with
  | nil => exact .nil
  | cons hd _ ih => exact .cons ⟨_, hd.compiled, rfl⟩ ih

theorem Enters.named (h : Enters E s source taken ds es) :
    ∀ e ∈ es, Text.trim e.id.toList ≠ [] := by
  induction h with
  | nil => simp
  | cons hd _ ih => exact List.forall_mem_cons.mpr ⟨hd.named, ih⟩

namespace Holds

theorem new (E : Engine) (c : GuideConfig) : (Guide.new c).Holds E [] where
  named := by simp [Guide.new, list]
  keyed := by simp [Guide.new]
  yields := .nil

theorem enter (h : g.Holds E xs) (hes : Enters E g.schema source g.entries.keys ds es) :
    (g.enter es).Holds E (xs ++ ds.map fun d => ⟨g.schema, source, d⟩) where
  named := by
    rw [list_enter hes]
    exact List.forall_mem_append.mpr ⟨h.named, hes.named⟩
  keyed := by
    rw [entries_enter hes]
    exact List.forall_mem_append.mpr ⟨h.keyed, by simp⟩
  yields := by
    rw [list_enter hes]
    exact List.rel_append h.yields hes.yields

/-- What one request does to the entries. -/
theorem serve (h : g.Holds E xs) (q : Request) :
    (g.after E [q]).Holds E (xs ++ g.registered E q) := by
  cases q with
  | add source ds =>
    rcases register_cases g E source ds with ⟨e, -, hr⟩ | ⟨es, hes, hr⟩
    · have ha : g.after E [.add source ds] = g := congrArg Prod.snd hr
      rw [ha, registered, add, hr]
      simpa using h
    · have ha : g.after E [.add source ds] = g.enter es := congrArg Prod.snd hr
      rw [ha, registered, add, hr]
      exact h.enter hes
  | withSchema s =>
    rw [registered, List.append_nil]
    exact ⟨h.named, h.keyed, h.yields⟩
  | setConfig c =>
    rw [registered, List.append_nil]
    exact ⟨h.named, h.keyed, h.yields⟩

theorem after (h : g.Holds E xs) (history : List Request) :
    (g.after E history).Holds E (xs ++ g.registrations E history) := by
  induction history generalizing g xs with
  | nil =>
    rw [registrations, List.append_nil]
    exact h
  | cons q qs ih =>
    rw [registrations, ← List.append_assoc]
    exact ih (h.serve q)

theorem keys_eq (h : g.Holds E xs) : g.entries.keys = g.list.map Entry.id := by
  rw [Table.keys, list, List.map_map]
  exact List.map_congr_left h.keyed

theorem nodup (h : g.Holds E xs) : (g.list.map Entry.id).Nodup :=
  h.keys_eq ▸ g.entries.nodup

theorem run (h : g.Holds E xs) {e : Entry} (he : e ∈ g.list) (r : Record) :
    g.run e.id r = .ok (e.style.render .html r) := by
  obtain ⟨⟨k, e⟩, hp, rfl⟩ := List.mem_map.mp he
  obtain rfl : k = e.id := h.keyed _ hp
  have hg : g.entries.get? e.id = some e := Table.lookup_of_mem g.entries.nodup hp
  rw [Guide.run, find, hg]
  rfl

theorem exists_of_mem (h : g.Holds E xs) {e : Entry} (he : e ∈ g.list) : ∃ x ∈ xs, x.Yields E e := by
  obtain ⟨i, hi, rfl⟩ := List.getElem_of_mem he
  have hx : i < xs.length := h.yields.length_eq ▸ hi
  exact ⟨xs[i], List.getElem_mem hx, h.yields.get hx hi⟩

end Holds

theorem schema_serve (g : Guide) (E : Engine) (q : Request) :
    (g.after E [q]).schema = q.schema?.getD g.schema := by
  cases q with
  | add source ds =>
    rcases register_cases g E source ds with ⟨e, -, hr⟩ | ⟨es, -, hr⟩
    · exact congrArg (·.2.schema) hr
    · exact congrArg (·.2.schema) hr
  | withSchema s => rfl
  | setConfig c => rfl

/-- The schema that a guide has is the one that was set last. -/
theorem schema_after (g : Guide) (E : Engine) (history : List Request) :
    (g.after E history).schema =
      ((history.filterMap Request.schema?).getLast?).getD g.schema := by
  induction history generalizing g with
  | nil => rfl
  | cons q qs ih =>
    have hq := ih (g.after E [q])
    rw [schema_serve] at hq
    refine hq.trans ?_
    cases hs : q.schema? with
    | none => simp [hs]
    | some s => simp [hs, List.getLast?_cons]

end History

end Guide

/-- Whatever has been asked of a guide, it holds one entry for each definition that was registered, in
order, under distinct ids that are not blank. A batch is refused for the fault of its first definition
that has one, and then the guide stays as it was. Registering two batches is registering both at
once. Every style that is held renders as its definition does when it is compiled against the schema
that was set last before it was registered. -/
theorem guide_registration (E : Engine) (c : GuideConfig) (history : List Guide.Request) :
    let g := (Guide.new c).after E history
    let xs := (Guide.new c).registrations E history
    ((g.list.map Entry.id).Nodup ∧ (∀ e ∈ g.list, Text.trim e.id.toList ≠ []) ∧
      List.Forall₂ (Registration.Yields E) xs g.list) ∧
    (∀ source ds e, (g.perform (Guide.register E source ds)).1 = .error e ↔
      Guide.Blames E g.schema source (g.list.map Entry.id) ds e) ∧
    (∀ source ds e, (g.perform (Guide.register E source ds)).1 = .error e →
      (g.perform (Guide.register E source ds)).2 = g) ∧
    (∀ source ds ds' g', g.add E source (ds ++ ds') = .ok g' ↔
      ∃ g₁, g.add E source ds = .ok g₁ ∧ g₁.add E source ds' = .ok g') ∧
    g.schema = ((history.filterMap Guide.Request.schema?).getLast?).getD .bibliographic ∧
    (∀ id ∈ g.list.map Entry.id, ∃ x ∈ xs, x.definition.id = id ∧
      ∃ st, x.definition.compile E x.schema = .ok st ∧
        ∀ r, g.run id r = .ok (st.render .html r)) := by
  intro g xs
  have h : g.Holds E xs := by simpa using (Guide.Holds.new E c).after history
  refine ⟨⟨h.nodup, h.named, h.yields⟩, fun source ds e => ?_, fun source ds e he => ?_,
    fun source ds ds' g' => Guide.add_append_iff, Guide.schema_after _ E history, fun id hid => ?_⟩
  · rw [Guide.register_eq_error_iff, h.keys_eq]
  · rw [Guide.register_of_blames (Guide.register_eq_error_iff.mp he)]
  · obtain ⟨e, he, rfl⟩ := List.mem_map.mp hid
    obtain ⟨x, hx, st, hst, rfl⟩ := h.exists_of_mem he
    exact ⟨x, hx, rfl, st, hst, h.run he⟩

/-- A style that shows one field. -/
def Definition.slip (id reference : String) : Definition :=
  ⟨id, "Slip", none, [], [.step (.trait reference [])]⟩

/-- A style, another schema, a batch that fails at its end, and a part of it that does not. -/
def Guide.Request.cataloguing : List Guide.Request :=
  [.add "web" [.slip "A" "title."], .withSchema (.ofList [("shelf", .text)]),
    .add "archive" [.slip "B" "shelf", .slip "A" "shelf"], .setConfig ⟨"", "Archive", none⟩,
    .add "archive" [.slip "B" "shelf"]]

theorem guide_registration_cataloguing :
    let g := (Guide.new ⟨"", "", none⟩).after .usual Guide.Request.cataloguing
    g.list.map Entry.id = ["A", "B"] ∧
    (∃ st, (Definition.slip "A" "title.").compile .usual .bibliographic = .ok st ∧
      ∀ r, g.run "A" r = .ok (st.render .html r)) ∧
    (g.perform (Guide.register .usual "desk" [.slip "C" "shelf", .slip "B" "", .slip "" ""])).1 =
      .error (.duplicateId "B" "desk") := by
  intro g
  have hx : (Guide.new ⟨"", "", none⟩).registrations .usual Guide.Request.cataloguing =
      [⟨.bibliographic, "web", .slip "A" "title."⟩,
        ⟨.ofList [("shelf", .text)], "archive", .slip "B" "shelf"⟩] := by cbv
  obtain ⟨⟨-, -, hy⟩, hb, -, -, hs, hrun⟩ :=
    guide_registration .usual ⟨"", "", none⟩ Guide.Request.cataloguing
  have hl : g.list.map Entry.id = ["A", "B"] := (Registration.ids_eq hy).trans (by rw [hx]; rfl)
  have hs' : g.schema = .ofList [("shelf", .text)] := hs
  have hc : (Definition.slip "C" "shelf").compile .usual g.schema =
      .ok ⟨"C", "Slip", [.trait ⟨"shelf", "", "", .text, .normal, none, .plain, 0⟩],
        [.required "shelf"], [], []⟩ :=
    hs' ▸ (Definition.compile_of_titled (by decide) _ _).trans (by cbv)
  refine ⟨hl, ?_, (hb _ _ _).mpr (.later ⟨by decide, ?_, hc⟩ (.here (.duplicateId (by decide) ?_)))⟩
  · obtain ⟨x, hm, hid, st, hst, hr⟩ := hrun "A" (hl ▸ by decide)
    rw [hx] at hm
    obtain rfl | rfl : _ ∨ _ := by simpa using hm
    · exact ⟨st, hst, hr⟩
    · exact absurd hid (by decide)
  · exact hl ▸ by decide
  · exact hl ▸ by decide

end Stylebook
