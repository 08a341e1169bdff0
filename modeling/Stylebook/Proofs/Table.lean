import Mathlib
import Stylebook.Table

/-! # Lists, lists of pairs and their tables

Work on a list that may fail is done element by element. Of the pairs that are inserted into a table
the last one of each key stays, in the place of the first one.
-/

namespace Stylebook

theorem mapM_eq_some_iff {α β : Type} {f : α → Option β} {xs : List α} {ys : List β} :
    xs.mapM f = some ys ↔ List.Forall₂ (fun x y => f x = some y) xs ys := by
  induction xs generalizing ys with
  | nil => simp [eq_comm]
  | cons x xs ih =>
    rw [List.mapM_cons, List.forall₂_cons_left_iff]
    simp only [bind, pure, Option.bind_eq_some_iff, Option.some.injEq, ih]
    grind

theorem exists_of_mem_mapM {α β : Type} {f : α → Option β} {xs : List α} {ys : List β} {y : β}
    (h : xs.mapM f = some ys) (hy : y ∈ ys) : ∃ x ∈ xs, f x = some y := by
  rw [mapM_eq_some_iff] at h
  induction h with
  | nil => cases hy
  | cons hx _ ih =>
    rcases List.mem_cons.mp hy with rfl | hy
    · exact ⟨_, List.mem_cons_self, hx⟩
    · obtain ⟨x, hm, hx⟩ := ih hy
      exact ⟨x, List.mem_cons_of_mem _ hm, hx⟩

theorem mapM_eq_none_iff {α β : Type} {f : α → Option β} {xs : List α} :
    xs.mapM f = none ↔ ∃ x ∈ xs, f x = none := by
  induction xs with
  | nil => simp
  | cons x xs ih =>
    rw [List.mapM_cons, List.exists_mem_cons_iff, ← ih]
    cases f x with
    | none => simp
    | some y => cases xs.mapM f <;> simp

theorem mapM_congr {α β : Type} {f g : α → Option β} {xs : List α} (h : ∀ x ∈ xs, f x = g x) :
    xs.mapM f = xs.mapM g := by
  induction xs with
  | nil => rfl
  | cons x xs ih =>
    rw [List.mapM_cons, List.mapM_cons, h x List.mem_cons_self,
      ih fun y hy => h y (List.mem_cons_of_mem _ hy)]

theorem mapM_bind_mapM {α β γ : Type} {f : α → Option β} {g : β → Option γ} {xs : List α} :
    (xs.mapM f).bind (·.mapM g) = xs.mapM fun x => (f x).bind g := by
  induction xs with
  | nil => rfl
  | cons x xs ih =>
    rw [List.mapM_cons, List.mapM_cons, ← ih]
    cases f x with
    | none => rfl
    | some y => cases hg : g y <;> cases xs.mapM f <;> simp [hg]

theorem getElem?_of_mapM {α β : Type} {f : α → Option β} {xs : List α} {ys : List β}
    (h : xs.mapM f = some ys) (i : ℕ) : ys[i]? = xs[i]?.bind f := by
  rw [mapM_eq_some_iff] at h
  induction h generalizing i with
  | nil => rfl
  | cons hx _ ih =>
    cases i with
    | zero => simp [hx]
    | succ i => simpa using ih i

section FoldlM

variable {α σ : Type} {f : σ → α → Option σ} {s t u : σ} {xs : List α} {x : α}

theorem foldlM_append_of_eq_some (h : xs.foldlM f s = some t) (ys : List α) :
    (xs ++ ys).foldlM f s = ys.foldlM f t := by
  rw [List.foldlM_append, h]
  rfl

theorem foldlM_append_singleton_eq_some_iff :
    (xs ++ [x]).foldlM f s = some u ↔ ∃ t, xs.foldlM f s = some t ∧ f t x = some u := by
  simp [List.foldlM_append, Option.bind_eq_some_iff]

end FoldlM

namespace Table

variable {α : Type} {k : String} {v : α} {es : List (String × α)} {s t : Table α}

theorem lookup_cons_eq_ite (j : String) (e : String × α) (es : List (String × α)) :
    (e :: es).lookup j = if j = e.1 then some e.2 else es.lookup j := by
  rw [List.lookup_cons]
  by_cases h : j = e.1
  · rw [if_pos h, h, beq_self_eq_true]
  · rw [if_neg h, beq_false_of_ne h]

theorem lookup_of_mem (hn : (es.map Prod.fst).Nodup) (h : (k, v) ∈ es) :
    es.lookup k = some v := by
  induction es with
  | nil => cases h
  | cons e es ih =>
    obtain ⟨hk, hn⟩ := List.nodup_cons.mp hn
    rcases List.mem_cons.mp h with rfl | h
    · simp
    · have he : k ≠ e.1 := fun he => hk (he ▸ List.mem_map_of_mem h)
      rw [lookup_cons_eq_ite, if_neg he]
      exact ih hn h

theorem lookup_eq_some_iff (hn : (es.map Prod.fst).Nodup) :
    es.lookup k = some v ↔ (k, v) ∈ es := by
  refine ⟨fun h => ?_, lookup_of_mem hn⟩
  obtain ⟨before, after, he, -⟩ := List.lookup_eq_some_iff.mp h
  simp [he]

theorem get?_eq_some_iff : t.get? k = some v ↔ (k, v) ∈ t.entries := lookup_eq_some_iff t.nodup

theorem get?_eq_none_iff : t.get? k = none ↔ k ∉ t.keys := by
  rw [Table.get?, List.lookup_eq_none_iff, Table.keys, List.mem_map]
  grind

theorem entries_eq_filterMap (t : Table α) :
    t.entries = t.keys.filterMap fun k => (t.get? k).map (k, ·) := by
  have h (e : String × α) (he : e ∈ t.entries) : (t.get? e.1).map (e.1, ·) = some e := by
    rw [Table.get?, lookup_of_mem t.nodup he, Option.map_some]
  rw [Table.keys, List.filterMap_map, ← List.filterMap_some (l := t.entries),
    List.filterMap_filterMap]
  exact (List.filterMap_congr h).symm

theorem ext_get? (hk : s.keys = t.keys) (hg : ∀ k, s.get? k = t.get? k) : s = t := by
  refine ext ?_
  rw [entries_eq_filterMap, entries_eq_filterMap t, hk]
  simp only [hg]

/-! Insertions. -/

theorem mem_keys_insert {j : String} :
    j ∈ (t.insert k v).keys ↔ j = k ∨ j ∈ t.keys := by
  rw [keys_insert]
  split
  · next h => exact ⟨.inr, fun hj => hj.elim (fun e => e ▸ h) id⟩
  · simp [or_comm]

def insertAll (t : Table α) (es : List (String × α)) : Table α :=
  es.foldl (fun t e => t.insert e.1 e.2) t

/-- The value that a key is given last. -/
def lastFor (k : String) (es : List (String × α)) : Option α :=
  ((es.filter (·.1 = k)).map Prod.snd).getLast?

@[simp] theorem insertAll_nil (t : Table α) : t.insertAll [] = t := rfl

theorem insertAll_append (t : Table α) (es es' : List (String × α)) :
    t.insertAll (es ++ es') = (t.insertAll es).insertAll es' := List.foldl_append ..

theorem insertAll_singleton (t : Table α) (e : String × α) :
    t.insertAll [e] = t.insert e.1 e.2 := rfl

theorem mem_keys_insertAll {es : List (String × α)} :
    k ∈ (t.insertAll es).keys ↔ (∃ v, (k, v) ∈ es) ∨ k ∈ t.keys := by
  induction es using List.reverseRecOn with
  | nil => simp
  | append_singleton es e ih =>
    rw [insertAll_append, insertAll_singleton, mem_keys_insert, ih, ← or_assoc]
    refine or_congr_left ?_
    simp [Prod.ext_iff, or_comm, exists_or]

theorem lastFor_append_singleton (k : String) (es : List (String × α)) (e : String × α) :
    lastFor k (es ++ [e]) = if e.1 = k then some e.2 else lastFor k es := by
  by_cases h : e.1 = k <;> simp [lastFor, h]

theorem lastFor_append_of_ne (h : ∀ e ∈ es, e.1 ≠ k) (es' : List (String × α)) :
    lastFor k (es ++ es') = lastFor k es' := by
  have hn : es.filter (·.1 = k) = [] := List.filter_eq_nil_iff.mpr fun e he => by simp [h e he]
  rw [lastFor, lastFor, List.filter_append, hn, List.nil_append]

theorem lastFor_map {β : Type} (f : α → β) (k : String) (es : List (String × α)) :
    lastFor k (es.map fun e => (e.1, f e.2)) = (lastFor k es).map f := by
  rw [lastFor, lastFor, List.filter_map, List.map_map, ← List.getLast?_map, List.map_map]
  rfl

theorem mem_of_lastFor (h : lastFor k es = some v) : (k, v) ∈ es := by
  obtain ⟨e, he, rfl⟩ := List.mem_map.mp (List.mem_of_getLast? h)
  obtain ⟨hm, hk⟩ := List.mem_filter.mp he
  rwa [← of_decide_eq_true hk]

theorem lastFor_of_nodup (hn : (es.map Prod.fst).Nodup) (k : String) :
    lastFor k es = es.lookup k := by
  cases h : lastFor k es with
  | some v => exact (lookup_of_mem hn (mem_of_lastFor h)).symm
  | none =>
    have hm : es.filter (·.1 = k) = [] := by simpa [lastFor] using h
    refine (List.lookup_eq_none_iff.mpr fun e he => ?_).symm
    have := List.filter_eq_nil_iff.mp hm e he
    grind

theorem get?_insertAll (t : Table α) (es : List (String × α)) (k : String) :
    (t.insertAll es).get? k = (lastFor k es).or (t.get? k) := by
  induction es using List.reverseRecOn with
  | nil => rfl
  | append_singleton es e ih =>
    rw [insertAll_append, insertAll_singleton, get?_insert, lastFor_append_singleton, ih]
    by_cases h : k = e.1
    · simp [h]
    · simp [h, Ne.symm h]

theorem put_of_not_mem (h : k ∉ es.map Prod.fst) (v : α) :
    put k v es = es ++ [(k, v)] := by
  induction es with
  | nil => rfl
  | cons e es ih =>
    obtain ⟨he, hes⟩ := not_or.mp (mt List.mem_cons.mpr h)
    rw [put, if_neg (Ne.symm he), ih hes]
    rfl

theorem entries_insert_of_not_mem (h : k ∉ t.keys) (v : α) :
    (t.insert k v).entries = t.entries ++ [(k, v)] := put_of_not_mem h v

theorem entries_insertAll (h : (t.keys ++ es.map Prod.fst).Nodup) :
    (t.insertAll es).entries = t.entries ++ es := by
  induction es generalizing t with
  | nil => simp
  | cons e es ih =>
    obtain ⟨-, -, hd⟩ := List.nodup_append.mp h
    have he : e.1 ∉ t.keys := fun hm => hd e.1 hm e.1 (by simp) rfl
    have hk : (t.insert e.1 e.2).keys = t.keys ++ [e.1] := by rw [keys_insert, if_neg he]
    calc ((t.insert e.1 e.2).insertAll es).entries
      _ = t.entries ++ [e] ++ es := by
        rw [ih (by simpa [hk] using h), entries_insert_of_not_mem he]
      _ = t.entries ++ e :: es := by simp

/-! Searching. -/

theorem find?_entries_eq_some_iff {p : String → Bool} :
    t.entries.find? (fun e => p e.1) = some (k, v) ↔
      t.keys.find? p = some k ∧ t.get? k = some v := by
  have hm : t.keys.find? p = (t.entries.find? fun e => p e.1).map Prod.fst := List.find?_map ..
  cases he : t.entries.find? fun e => p e.1 with
  | none => simp [hm, he]
  | some e =>
    have hg : t.get? e.1 = some e.2 := lookup_of_mem t.nodup (List.mem_of_find?_eq_some he)
    simp only [hm, he, Option.map_some, Option.some.injEq, Prod.ext_iff]
    refine and_congr_right fun hk => ?_
    rw [← hk, hg, Option.some.injEq]

theorem find?_entries_insert {p : String → Bool} (h : p k = false) (t : Table α) (v : α) :
    (t.insert k v).entries.find? (fun e => p e.1) = t.entries.find? fun e => p e.1 := by
  have hp (es : List (String × α)) :
      (put k v es).find? (fun e => p e.1) = es.find? fun e => p e.1 := by
    induction es with
    | nil => simp [put, h]
    | cons e es ih =>
      rw [put]
      split
      · next he => simp [h, he]
      · simp only [List.find?_cons, ih]
  exact hp t.entries

/-- Keys stand in the order in which they were inserted first. -/
theorem find?_keys_insertAll (t : Table α) (es : List (String × α)) (p : String → Bool) :
    (t.insertAll es).keys.find? p = (t.keys ++ es.map Prod.fst).find? p := by
  induction es generalizing t with
  | nil => simp
  | cons e es ih =>
    have hi := ih (t.insert e.1 e.2)
    rw [keys_insert] at hi
    refine hi.trans ?_
    split
    · next hk =>
      simp only [List.map_cons, List.find?_append, List.find?_cons]
      cases hp : p e.1 with
      | false => rfl
      | true =>
        obtain ⟨k, hf⟩ := Option.isSome_iff_exists.mp (List.find?_isSome.mpr ⟨_, hk, hp⟩)
        simp [hf]
    · simp

/-- The first key with a property, in the order of first insertions, and the value that it has been
given last. -/
theorem find?_entries_insertAll {p : String → Bool} :
    ((empty : Table α).insertAll es).entries.find? (fun e => p e.1) = some (k, v) ↔
      (∃ before v₀ after, es = before ++ (k, v₀) :: after ∧ ∀ e ∈ before, p e.1 = false) ∧
        p k = true ∧ lastFor k es = some v := by
  have hk : (es.map Prod.fst).find? p = some k ↔ p k = true ∧
      ∃ before v₀ after, es = before ++ (k, v₀) :: after ∧ ∀ e ∈ before, p e.1 = false := by
    rw [List.find?_map, Option.map_eq_some_iff]
    constructor
    · rintro ⟨⟨k', v₀⟩, hf, rfl⟩
      obtain ⟨hp, before, after, he, hb⟩ := List.find?_eq_some_iff_append.mp hf
      exact ⟨hp, before, v₀, after, he, by simpa using hb⟩
    · rintro ⟨hp, before, v₀, after, he, hb⟩
      exact ⟨(k, v₀), List.find?_eq_some_iff_append.mpr
        ⟨hp, before, after, he, by simpa using hb⟩, rfl⟩
  have hv : (lastFor k es).or ((empty : Table α).get? k) = lastFor k es := by simp
  rw [find?_entries_eq_some_iff, find?_keys_insertAll, get?_insertAll, hv, ← and_assoc,
    and_comm (b := p k = true), ← hk]
  rfl

theorem find?_entries_insertAll_eq_none {p : String → Bool} :
    ((empty : Table α).insertAll es).entries.find? (fun e => p e.1) = none ↔
      ∀ e ∈ es, p e.1 = false := by
  have hk := find?_keys_insertAll empty es p
  rw [keys, List.find?_map] at hk
  rw [← Option.map_eq_none_iff (f := Prod.fst)]
  refine (Eq.congr_left hk).trans ?_
  simp [keys]

/-! Tables of a list. -/

/-- Each key stands where it comes first among the pairs, with the value that it has last. -/
structure Gathers (es : List (String × α)) (t : Table α) : Prop where

  keys : t.keys = (es.map Prod.fst).eraseDups

  get? (k : String) : t.get? k = lastFor k es

theorem Gathers.unique (hs : Gathers es s) (ht : Gathers es t) : s = t :=
  ext_get? (hs.keys.trans ht.keys.symm) fun k => (hs.get? k).trans (ht.get? k).symm

theorem keys_ofList (es : List (String × α)) :
    (ofList es).keys = (es.map Prod.fst).eraseDups := by
  induction es using List.reverseRecOn with
  | nil => rfl
  | append_singleton es e ih =>
    rw [ofList, List.foldl_append, List.foldl_cons, List.foldl_nil, keys_insert, ← ofList, ih,
      List.map_append, List.eraseDups_append, List.map_singleton]
    by_cases h : e.1 ∈ es.map Prod.fst
    · simp [List.removeAll, List.mem_eraseDups, h]
    · simp [List.removeAll, List.mem_eraseDups, List.eraseDups_cons, h]

theorem gathers_ofList (es : List (String × α)) : Gathers es (ofList es) where
  keys := keys_ofList es
  get? k := (get?_insertAll empty es k).trans (by simp)

theorem eq_ofList_iff : t = ofList es ↔ Gathers es t :=
  ⟨fun h => h ▸ gathers_ofList es, fun h => h.unique (gathers_ofList es)⟩

theorem entries_ofList (hn : (es.map Prod.fst).Nodup) : (ofList es).entries = es :=
  entries_insertAll (t := empty) hn

theorem ofList_entries (t : Table α) : ofList t.entries = t := ext (entries_ofList t.nodup)

end Table

end Stylebook
