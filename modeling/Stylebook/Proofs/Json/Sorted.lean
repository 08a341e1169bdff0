import Mathlib
import Stylebook.Json
import Stylebook.Proofs.Table

/-! # Sorted values

A value is sorted in one way only: at every level its members stand in the order of their keys, each
key once and with the value that it has last.
-/

namespace Stylebook.Json

@[elab_as_elim]
theorem induction {P : Json → Prop} (null : P null) (bool : ∀ b, P (bool b)) (num : ∀ n, P (num n))
    (str : ∀ s, P (str s)) (arr : ∀ xs, (∀ x ∈ xs, P x) → P (arr xs))
    (obj : ∀ ms, (∀ m ∈ ms, P m.2) → P (obj ms)) (v : Json) : P v := by
  match v with
  | .null => exact null
  | .bool b => exact bool b
  | .num n => exact num n
  | .str s => exact str s
  | .arr xs => exact arr xs fun x hx => induction null bool num str arr obj x
  | .obj ms =>
    refine obj ms fun m hm => ?_
    have := List.sizeOf_lt_of_mem hm
    have : sizeOf m.2 < sizeOf m := by cases m; simp
    exact induction null bool num str arr obj m.2
termination_by sizeOf v
decreasing_by
  · have := List.sizeOf_lt_of_mem hx
    simp; omega
  · simp; omega

theorem sortedAll_eq_map (xs : List Json) : sortedAll xs = xs.map sorted := by
  induction xs with
  | nil => rfl
  | cons x xs ih => rw [sortedAll, ih, List.map_cons]

theorem sortedMembers_eq_map (ms : List (String × Json)) :
    sortedMembers ms = ms.map fun m => (m.1, m.2.sorted) := by
  induction ms with
  | nil => rfl
  | cons m ms ih => rw [sortedMembers, ih, List.map_cons]

/-- The second value is the same tree in the order of keys, the last of repeated keys winning. -/
inductive Tidied : Json → Json → Prop where

  | null : Tidied null null

  | bool (b : Bool) : Tidied (bool b) (bool b)

  | num (n : Numeral) : Tidied (num n) (num n)

  | str (s : String) : Tidied (str s) (str s)

  | arr {xs ys : List Json} : List.Forall₂ Tidied xs ys → Tidied (arr xs) (arr ys)

  | obj {ms ns : List (String × Json)} : (ns.map Prod.fst).Pairwise (· < ·) →
      (∀ k, Option.Rel Tidied (Table.lastFor k ms) (ns.lookup k)) → Tidied (obj ms) (obj ns)

section Place

variable {k : String} {v : Json} {es es' : List (String × Json)}

theorem lookup_place (j k : String) (v : Json) (es : List (String × Json)) :
    (place k v es).lookup j = if j = k then some v else es.lookup j := by
  induction es with
  | nil => rw [place, Table.lookup_cons_eq_ite]
  | cons e es ih =>
    rw [place]
    split
    · rw [Table.lookup_cons_eq_ite]
    · split
      · next hk =>
        rw [Table.lookup_cons_eq_ite, Table.lookup_cons_eq_ite, ← hk]
        split <;> rfl
      · next hk =>
        rw [Table.lookup_cons_eq_ite, ih, Table.lookup_cons_eq_ite]
        by_cases h : j = k
        · rw [if_neg (h ▸ hk), if_pos h, if_pos h]
        · rw [if_neg h, if_neg h]

theorem mem_map_fst_place {j : String} (h : j ∈ (place k v es).map Prod.fst) :
    j = k ∨ j ∈ es.map Prod.fst := by
  induction es with
  | nil => simpa [place] using h
  | cons e es ih =>
    rw [place] at h
    split at h
    · simpa only [List.map_cons, List.mem_cons] using h
    · split at h
      · exact (List.mem_cons.mp h).imp_right (List.mem_cons_of_mem _)
      · rcases List.mem_cons.mp h with rfl | h
        · exact .inr List.mem_cons_self
        · exact (ih h).imp_right (List.mem_cons_of_mem _)

theorem pairwise_place (h : (es.map Prod.fst).Pairwise (· < ·)) (k : String) (v : Json) :
    ((place k v es).map Prod.fst).Pairwise (· < ·) := by
  induction es with
  | nil => simp [place]
  | cons e es ih =>
    rw [List.map_cons, List.pairwise_cons] at h
    obtain ⟨hlt, h⟩ := h
    rw [place]
    split
    · next hk =>
      simp only [List.map_cons, List.pairwise_cons, List.mem_cons, forall_eq_or_imp]
      exact ⟨⟨hk, fun j hj => hk.trans (hlt j hj)⟩, hlt, h⟩
    · split
      · next hk =>
        subst hk
        exact List.pairwise_cons.mpr ⟨hlt, h⟩
      · next hle hne =>
        refine List.pairwise_cons.mpr ⟨fun j hj => ?_, ih h⟩
        rcases mem_map_fst_place hj with rfl | hj
        · exact lt_of_le_of_ne (not_lt.mp hle) (Ne.symm hne)
        · exact hlt j hj

/-- Members of which each key has one value are the same if they stand in the order of keys. -/
theorem eq_of_lookup_eq (h : (es.map Prod.fst).Pairwise (· < ·))
    (h' : (es'.map Prod.fst).Pairwise (· < ·)) (hl : ∀ k, es.lookup k = es'.lookup k) :
    es = es' := by
  have hm {es : List (String × Json)} (h : (es.map Prod.fst).Pairwise (· < ·)) (e : String × Json) :
      e ∈ es ↔ es.lookup e.1 = some e.2 := (Table.lookup_eq_some_iff (h.imp ne_of_lt)).symm
  have hp : es.Perm es' := by
    refine (List.perm_ext_iff_of_nodup ?_ ?_).mpr fun e => by rw [hm h, hm h', hl]
    · exact List.Nodup.of_map Prod.fst (h.imp ne_of_lt)
    · exact List.Nodup.of_map Prod.fst (h'.imp ne_of_lt)
  refine hp.eq_of_pairwise (fun a b _ _ (hab : a.1 < b.1) (hba : b.1 < a.1) => ?_) ?_ ?_
  · exact absurd hba hab.asymm
  · exact List.pairwise_map.mp h
  · exact List.pairwise_map.mp h'

end Place

theorem lookup_foldl_place (k : String) (es ms : List (String × Json)) :
    (ms.foldl (fun es e => place e.1 e.2 es) es).lookup k =
      (Table.lastFor k ms).or (es.lookup k) := by
  induction ms using List.reverseRecOn with
  | nil => rfl
  | append_singleton ms m ih =>
    rw [List.foldl_append, List.foldl_cons, List.foldl_nil, lookup_place, ih,
      Table.lastFor_append_singleton]
    by_cases h : m.1 = k
    · rw [if_pos h.symm, if_pos h, Option.some_or]
    · rw [if_neg (Ne.symm h), if_neg h]

theorem pairwise_foldl_place {es : List (String × Json)} (h : (es.map Prod.fst).Pairwise (· < ·))
    (ms : List (String × Json)) :
    ((ms.foldl (fun es e => place e.1 e.2 es) es).map Prod.fst).Pairwise (· < ·) := by
  induction ms generalizing es with
  | nil => exact h
  | cons m ms ih => exact ih (pairwise_place h m.1 m.2)

/-- The members of a sorted object. -/
def sortedEntries (ms : List (String × Json)) : List (String × Json) :=
  (sortedMembers ms).foldl (fun es e => place e.1 e.2 es) []

theorem sorted_obj (ms : List (String × Json)) : (obj ms).sorted = obj (sortedEntries ms) := by
  rw [sorted, sortedEntries]

theorem sorted_arr (xs : List Json) : (arr xs).sorted = arr (xs.map sorted) := by
  rw [sorted, sortedAll_eq_map]

theorem lookup_sortedEntries (k : String) (ms : List (String × Json)) :
    (sortedEntries ms).lookup k = (Table.lastFor k ms).map sorted := by
  rw [sortedEntries, lookup_foldl_place, sortedMembers_eq_map, List.lookup_nil, Option.or_none,
    Table.lastFor_map]

theorem pairwise_sortedEntries (ms : List (String × Json)) :
    ((sortedEntries ms).map Prod.fst).Pairwise (· < ·) := pairwise_foldl_place .nil _

theorem tidied_sorted (v : Json) : Tidied v v.sorted := by
  induction v using induction with
  | null | bool b | num n | str s =>
    rw [sorted] <;> first | constructor | simp
  | arr xs ih =>
    rw [sorted_arr]
    exact .arr (List.forall₂_map_right_iff.mpr (List.forall₂_same.mpr ih))
  | obj ms ih =>
    rw [sorted_obj]
    refine .obj (pairwise_sortedEntries ms) fun k => ?_
    rw [lookup_sortedEntries]
    cases h : Table.lastFor k ms with
    | none => exact .none
    | some v => exact .some (ih _ (Table.mem_of_lastFor h))

theorem Tidied.eq_sorted {v w : Json} (h : Tidied v w) : w = v.sorted := by
  induction v using induction generalizing w with
  | null | bool b | num n | str s =>
    cases h
    rw [sorted] <;> simp
  | arr xs ih =>
    cases h with
    | arr h =>
      rw [sorted_arr]
      congr 1
      induction h with
      | nil => rfl
      | cons h _ iht =>
        rw [List.map_cons, ih _ List.mem_cons_self h]
        rw [iht fun x hx => ih x (List.mem_cons_of_mem _ hx)]
  | obj ms ih =>
    cases h with
    | @obj _ ns hn hl =>
      rw [sorted_obj]
      congr 1
      refine eq_of_lookup_eq hn (pairwise_sortedEntries ms) fun k => ?_
      rw [lookup_sortedEntries]
      have hk := hl k
      cases hv : Table.lastFor k ms with
      | none =>
        rw [hv] at hk
        generalize ns.lookup k = o at hk
        cases hk
        rfl
      | some v =>
        rw [hv] at hk
        generalize ns.lookup k = o at hk
        cases hk with
        | some h => rw [ih _ (Table.mem_of_lastFor hv) h, Option.map_some]

theorem mem_sortedEntries {ms : List (String × Json)} {m : String × Json}
    (h : m ∈ sortedEntries ms) : ∃ v, (m.1, v) ∈ ms ∧ m.2 = v.sorted := by
  have hl := Table.lookup_of_mem ((pairwise_sortedEntries ms).imp ne_of_lt)
    (show (m.1, m.2) ∈ sortedEntries ms from h)
  rw [lookup_sortedEntries, Option.map_eq_some_iff] at hl
  obtain ⟨v, hv, hm⟩ := hl
  exact ⟨v, Table.mem_of_lastFor hv, hm.symm⟩

theorem sorted_sorted (v : Json) : v.sorted.sorted = v.sorted := by
  suffices h : Tidied v.sorted v.sorted from h.eq_sorted.symm
  induction v using induction with
  | null | bool b | num n | str s => exact tidied_sorted _
  | arr xs ih =>
    rw [sorted_arr]
    refine .arr (List.forall₂_same.mpr fun y hy => ?_)
    obtain ⟨x, hx, rfl⟩ := List.mem_map.mp hy
    exact ih x hx
  | obj ms ih =>
    rw [sorted_obj]
    have hn := (pairwise_sortedEntries ms).imp ne_of_lt
    refine .obj (pairwise_sortedEntries ms) fun k => ?_
    rw [Table.lastFor_of_nodup hn, lookup_sortedEntries]
    cases h : Table.lastFor k ms with
    | none => exact .none
    | some v => exact .some (ih _ (Table.mem_of_lastFor h))

@[simp] theorem sorted_eq_null_iff {v : Json} : v.sorted = null ↔ v = null := by
  cases v <;> simp [sorted]

@[simp] theorem sorted_eq_str_iff {v : Json} {s : String} : v.sorted = str s ↔ v = str s := by
  cases v <;> simp [sorted]

@[simp] theorem sorted_eq_num_iff {v : Json} {n : Numeral} : v.sorted = num n ↔ v = num n := by
  cases v <;> simp [sorted]

/-- No object in the value repeats a key. -/
inductive Distinct : Json → Prop where

  | null : Distinct null

  | bool (b : Bool) : Distinct (bool b)

  | num (n : Numeral) : Distinct (num n)

  | str (s : String) : Distinct (str s)

  | arr {xs : List Json} : (∀ x ∈ xs, Distinct x) → Distinct (arr xs)

  | obj {ms : List (String × Json)} : (ms.map Prod.fst).Nodup → (∀ m ∈ ms, Distinct m.2) →
      Distinct (obj ms)

end Stylebook.Json
