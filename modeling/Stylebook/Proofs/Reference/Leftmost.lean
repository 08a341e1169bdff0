import Mathlib.Data.List.Infix
import Stylebook.Reference

/-! # Leftmost and longest

A reference names the longest key at the leftmost place where a key stands, and there is only one
such reading. A text is no reference if it holds no key.
-/

namespace Stylebook

namespace Reference

variable {keys : List (List Char)} {cs k k' p q : List Char}

/-- The longest key that begins a text. -/
structure IsLongest (keys : List (List Char)) (cs k : List Char) : Prop where
  mem : k ∈ keys
  ne_nil : k ≠ []
  begins : k <+: cs
  length_le : ∀ j ∈ keys, j <+: cs → j.length ≤ k.length

theorem IsLongest.unique (h : IsLongest keys cs k) (h' : IsLongest keys cs k') : k = k' := by
  have hl : k.length = k'.length :=
    le_antisymm (h'.length_le k h.mem h.begins) (h.length_le k' h'.mem h'.begins)
  exact (List.prefix_of_prefix_length_le h.begins h'.begins hl.le).eq_of_length hl

theorem longest?_eq_none_iff :
    longest? keys cs = none ↔ ∀ j ∈ keys, j ≠ [] → ¬ j <+: cs := by
  induction keys with
  | nil => simp [longest?]
  | cons j js ih =>
    rw [longest?, List.forall_mem_cons, ← ih]
    cases longest? js cs with
    | none => simp
    | some b => simp [ite_eq_iff]

theorem isLongest_of_longest? (h : longest? keys cs = some k) : IsLongest keys cs k := by
  induction keys generalizing k with
  | nil => cases h
  | cons j js ih =>
    rw [longest?] at h
    cases hb : longest? js cs with
    | none =>
      have hn := longest?_eq_none_iff.mp hb
      simp only [hb] at h
      split at h
      · next hj =>
        cases h
        refine ⟨by simp, hj.1, by simpa using hj.2, fun i hi hp => ?_⟩
        rcases List.mem_cons.mp hi with rfl | hi
        · exact le_rfl
        · by_cases hi' : i = []
          · simp [hi']
          · exact absurd hp (hn i hi hi')
      · cases h
    | some b =>
      have ih := ih hb
      simp only [hb] at h
      split at h
      · next hj =>
        cases h
        refine ⟨by simp, fun hk => by simp [hk] at hj, by simpa using hj.2, fun i hi hp => ?_⟩
        rcases List.mem_cons.mp hi with rfl | hi
        · exact le_rfl
        · exact (ih.length_le i hi hp).trans hj.1.le
      · next hj =>
        cases h
        refine ⟨List.mem_cons_of_mem _ ih.mem, ih.ne_nil, ih.begins, fun i hi hp => ?_⟩
        rcases List.mem_cons.mp hi with rfl | hi
        · by_contra hl
          exact hj ⟨not_le.mp hl, by simpa using hp⟩
        · exact ih.length_le i hi hp

theorem longest?_eq_some_iff : longest? keys cs = some k ↔ IsLongest keys cs k := by
  refine ⟨isLongest_of_longest?, fun h => ?_⟩
  cases hk : longest? keys cs with
  | none => exact absurd h.begins (longest?_eq_none_iff.mp hk k h.mem h.ne_nil)
  | some k' => rw [(isLongest_of_longest? hk).unique h]

theorem append_of_split? (h : split? keys cs = some (p, k, q)) : p ++ k ++ q = cs := by
  fun_induction split? keys cs generalizing p with
  | case1 cs j hj =>
    cases h
    exact List.prefix_iff_eq_append.mp (isLongest_of_longest? hj).begins
  | case2 => cases h
  | case3 c r hn ih =>
    obtain ⟨⟨p', j, q'⟩, hs, he⟩ := Option.map_eq_some_iff.mp h
    cases he
    exact congrArg (c :: ·) (ih hs)

theorem isLongest_of_split? (h : split? keys cs = some (p, k, q)) : IsLongest keys (k ++ q) k := by
  fun_induction split? keys cs generalizing p with
  | case1 cs j hj =>
    cases h
    rw [List.prefix_iff_eq_append.mp (isLongest_of_longest? hj).begins]
    exact isLongest_of_longest? hj
  | case2 => cases h
  | case3 c r hn ih =>
    obtain ⟨⟨p', j, q'⟩, hs, he⟩ := Option.map_eq_some_iff.mp h
    cases he
    exact ih hs

/-- No key stands to the left of the one that is found. -/
theorem longest?_eq_none_of_split? (h : split? keys cs = some (p, k, q)) {a t : List Char}
    (hc : a ++ t = cs) (ha : a.length < p.length) : longest? keys t = none := by
  fun_induction split? keys cs generalizing p a with
  | case1 cs j hj =>
    cases h
    cases ha
  | case2 => cases h
  | case3 c r hn ih =>
    obtain ⟨⟨p', j, q'⟩, hs, he⟩ := Option.map_eq_some_iff.mp h
    cases he
    cases a with
    | nil =>
      rw [List.nil_append] at hc
      exact hc ▸ hn
    | cons b a => exact ih hs (List.cons.inj hc).2 (Nat.lt_of_succ_lt_succ ha)

theorem split?_eq_none_iff :
    split? keys cs = none ↔ ∀ a t, a ++ t = cs → longest? keys t = none := by
  fun_induction split? keys cs with
  | case1 cs j hj => simpa using ⟨[], cs, rfl, by simp [hj]⟩
  | case2 hn => simp_all
  | case3 c r hn ih =>
    rw [Option.map_eq_none_iff, ih]
    constructor
    · rintro h (_ | ⟨b, a⟩) t hc
      · rw [List.nil_append] at hc
        exact hc ▸ hn
      · exact h a t (List.cons.inj hc).2
    · exact fun h a t hc => h (c :: a) t (congrArg (c :: ·) hc)

/-- What stands before the longest key at the leftmost place where a key stands, the key, and what
stands after it. -/
structure LeftmostLongest (Known : String → Prop) (text : String) (r : Reference) : Prop where
  toText : r.toText = text
  known : Known r.key
  ne_empty : r.key ≠ ""
  leftmost : ∀ p k q, Known k → k ≠ "" → p ++ k ++ q = text → r.before.length ≤ p.length
  longest : ∀ k q, Known k → r.before ++ k ++ q = text → k.length ≤ r.key.length

variable {Known : String → Prop} {text : String} {r r' : Reference}

theorem append_inj_of_length_eq {a a' b b' : String} (h : a ++ b = a' ++ b')
    (hl : a.length = a'.length) : a = a' ∧ b = b' := by
  have ht := congrArg String.toList h
  simp only [String.toList_append] at ht
  obtain ⟨ha, hb⟩ := List.append_inj ht (by simpa only [String.length_toList] using hl)
  exact ⟨String.toList_inj.mp ha, String.toList_inj.mp hb⟩

theorem LeftmostLongest.unique (h : r.LeftmostLongest Known text)
    (h' : r'.LeftmostLongest Known text) : r = r' := by
  obtain ⟨p, k, q⟩ := r
  obtain ⟨p', k', q'⟩ := r'
  have hp : p.length = p'.length :=
    le_antisymm (h.leftmost p' k' q' h'.known h'.ne_empty h'.toText)
      (h'.leftmost p k q h.known h.ne_empty h.toText)
  have ht : p ++ (k ++ q) = p' ++ (k' ++ q') := by
    simpa only [Reference.toText, String.append_assoc] using h.toText.trans h'.toText.symm
  obtain ⟨rfl, hk⟩ := append_inj_of_length_eq ht hp
  have hl : k.length = k'.length :=
    le_antisymm (h'.longest k q h.known h.toText) (h.longest k' q' h'.known h'.toText)
  obtain ⟨rfl, rfl⟩ := append_inj_of_length_eq hk hl
  rfl

/-- Keys that the text does not have in it are of no account. -/
theorem LeftmostLongest.of_known_iff {Known' : String → Prop} (h : r.LeftmostLongest Known text)
    (hk : ∀ k, k ≠ "" → k.toList <:+: text.toList → (Known k ↔ Known' k)) :
    r.LeftmostLongest Known' text := by
  have hi {p k q : String} (ht : p ++ k ++ q = text) : k.toList <:+: text.toList :=
    ⟨p.toList, q.toList, by simp [← ht]⟩
  constructor
  · exact h.toText
  · exact (hk _ h.ne_empty (hi h.toText)).mp h.known
  · exact h.ne_empty
  · intro p k q hk' hn ht
    exact h.leftmost p k q ((hk k hn (hi ht)).mpr hk') hn ht
  · intro k q hk' ht
    by_cases hn : k = ""
    · simp [hn]
    · exact h.longest k q ((hk k hn (hi ht)).mpr hk') ht

end Reference

namespace Schema

open Reference

variable {s : Schema} {text : String} {r : Reference}

theorem parse?_eq_none_iff :
    s.parse? text = none ↔ ∀ p k q, k ∈ s.keys → k ≠ "" → p ++ k ++ q ≠ text := by
  simp only [parse?, Option.map_eq_none_iff, split?_eq_none_iff, longest?_eq_none_iff]
  constructor
  · intro h p k q hk hn ht
    have ht' : p.toList ++ (k.toList ++ q.toList) = text.toList := by
      simp only [← ht, String.toList_append, List.append_assoc]
    exact h p.toList _ ht' k.toList (List.mem_map_of_mem hk) (by simpa using hn)
      (List.prefix_append _ _)
  · intro h a t ht j hj hn hp
    obtain ⟨k, hk, rfl⟩ := List.mem_map.mp hj
    obtain ⟨q, rfl⟩ := hp
    refine h (.ofList a) k (.ofList q) hk (by simpa using hn) (String.toList_inj.mp ?_)
    simpa using ht

theorem leftmostLongest_of_parse? (h : s.parse? text = some r) :
    r.LeftmostLongest (· ∈ s.keys) text := by
  obtain ⟨⟨p, k, q⟩, hs, rfl⟩ := Option.map_eq_some_iff.mp h
  have ht := append_of_split? hs
  have hl := isLongest_of_split? hs
  obtain ⟨j, hj, rfl⟩ := List.mem_map.mp hl.mem
  refine ⟨String.toList_inj.mp (by simpa [toText] using ht), by simpa using hj,
    by simpa using hl.ne_nil, fun a i b hi hn hc => ?_, fun i b hi hc => ?_⟩
  · by_contra ha
    have hc' : a.toList ++ (i.toList ++ b.toList) = text.toList := by
      simp only [← hc, String.toList_append, List.append_assoc]
    have hn' := longest?_eq_none_of_split? hs hc' (by simpa [← String.length_toList] using ha)
    exact longest?_eq_none_iff.mp hn' i.toList (List.mem_map_of_mem hi) (by simpa using hn)
      (List.prefix_append _ _)
  · have hc' : p ++ (j.toList ++ q) = p ++ (i.toList ++ b.toList) := by
      rw [← List.append_assoc, ht, ← hc]
      simp [String.toList_append]
    have hi' := hl.length_le i.toList (List.mem_map_of_mem hi)
      (List.append_cancel_left hc' ▸ List.prefix_append _ _)
    simpa only [String.ofList_toList, String.length_toList] using hi'

theorem parse?_eq_some_iff : s.parse? text = some r ↔ r.LeftmostLongest (· ∈ s.keys) text := by
  refine ⟨leftmostLongest_of_parse?, fun h => ?_⟩
  cases hr : s.parse? text with
  | none => exact absurd h.toText (parse?_eq_none_iff.mp hr _ _ _ h.known h.ne_empty)
  | some r' => rw [(leftmostLongest_of_parse? hr).unique h]

/-- What a text refers to is decided by which of its parts are keys. -/
theorem parse?_congr_occurring {t : Schema}
    (h : ∀ k, k ≠ "" → k.toList <:+: text.toList → (k ∈ s.keys ↔ k ∈ t.keys)) :
    s.parse? text = t.parse? text := by
  refine Option.ext fun r => ?_
  rw [parse?_eq_some_iff, parse?_eq_some_iff]
  constructor
  · intro hr
    exact hr.of_known_iff h
  · intro hr
    exact hr.of_known_iff fun k hn hi => (h k hn hi).symm

theorem parse?_congr {t : Schema} (h : ∀ k, k ∈ s.keys ↔ k ∈ t.keys) (text : String) :
    s.parse? text = t.parse? text := parse?_congr_occurring fun k _ _ => h k

end Schema

end Stylebook
