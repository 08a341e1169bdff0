import Mathlib
import Stylebook.Proofs.Reference.Leftmost
import Stylebook.Reference.Matcher

/-! # Matching known keys

A matcher tries longer words first, so the first word that stands at a place is the longest. Its
words are determined by what keys there are, in whatever order these stand. So a key set reads
references as its schema does, wherever its engine can build the matcher.
-/

namespace Stylebook

theorem Engine.octets_eq_sum (words : List String) :
    octets words = (words.map String.utf8ByteSize).sum := by
  rw [octets, List.sum_eq_foldr, List.foldr_map]

namespace Matcher

variable {keys : List String} {m : Matcher} {cs : List Char} {v w : String} {s : Schema}

theorem precedes_iff : precedes v w = true ↔
    w.utf8ByteSize < v.utf8ByteSize ∨ (v.utf8ByteSize = w.utf8ByteSize ∧ v ≤ w) := by
  simp [precedes]

theorem precedes_trans (u v w : String) (h : precedes u v = true) (h' : precedes v w = true) :
    precedes u w = true := by
  rw [precedes_iff] at *
  rcases h with h | ⟨h, hu⟩ <;> rcases h' with h' | ⟨h', hv⟩
  · exact .inl (h'.trans h)
  · exact .inl (h' ▸ h)
  · exact .inl (h ▸ h')
  · exact .inr ⟨h.trans h', hu.trans hv⟩

theorem precedes_total (v w : String) : (precedes v w || precedes w v) = true := by
  rw [Bool.or_eq_true, precedes_iff, precedes_iff]
  rcases lt_trichotomy v.utf8ByteSize w.utf8ByteSize with h | h | h
  · exact .inr (.inl h)
  · exact (le_total v w).imp (fun hv => .inr ⟨h, hv⟩) fun hw => .inr ⟨h.symm, hw⟩
  · exact .inl (.inl h)

theorem perm_insert (w : String) (ws : List String) : (insert w ws).Perm (w :: ws) := by
  induction ws with
  | nil => exact .refl _
  | cons v vs ih =>
    unfold insert
    split
    · exact .refl _
    · exact (ih.cons v).trans (.swap w v vs)

theorem perm_sort (ws : List String) : (sort ws).Perm ws := by
  induction ws with
  | nil => exact .refl _
  | cons w ws ih => exact (perm_insert w _).trans (ih.cons w)

theorem pairwise_insert {ws : List String} (h : ws.Pairwise fun v w => precedes v w = true)
    (w : String) : (insert w ws).Pairwise fun v w => precedes v w = true := by
  induction ws with
  | nil => exact List.pairwise_singleton ..
  | cons v vs ih =>
    obtain ⟨hv, hvs⟩ := List.pairwise_cons.mp h
    unfold insert
    split
    · next hw =>
      refine List.pairwise_cons.mpr ⟨fun u hu => ?_, h⟩
      rcases List.mem_cons.mp hu with rfl | hu
      · exact hw
      · exact precedes_trans _ _ _ hw (hv u hu)
    · next hw =>
      refine List.pairwise_cons.mpr ⟨fun u hu => ?_, ih hvs⟩
      rcases List.mem_cons.mp ((perm_insert w vs).mem_iff.mp hu) with rfl | hu
      · simpa [hw] using precedes_total v u
      · exact hv u hu

theorem pairwise_sort (ws : List String) :
    (sort ws).Pairwise fun v w => precedes v w = true := by
  induction ws with
  | nil => exact .nil
  | cons w ws ih => exact pairwise_insert ih w

theorem ofKeys?_eq_none_iff : ofKeys? keys = none ↔ ∀ k ∈ keys, k = "" := by
  unfold ofKeys?
  split
  · next h => simpa [List.filter_eq_nil_iff] using h
  · next k ks h =>
    have hk : k ∈ keys.filter (· ≠ "") := h ▸ List.mem_cons_self
    simpa using ⟨k, by simpa using hk⟩

theorem words_eq (h : ofKeys? keys = some m) :
    m.words = sort (keys.filter (· ≠ "")) := by
  unfold ofKeys? at h
  split at h
  · cases h
  · next hk =>
    cases h
    rw [hk]

theorem mem_words_iff (h : ofKeys? keys = some m) : w ∈ m.words ↔ w ∈ keys ∧ w ≠ "" := by
  simp [words_eq h, (perm_sort _).mem_iff]

/-- The words of a matcher have all octets of the keys. -/
theorem octets_words (h : ofKeys? keys = some m) :
    Engine.octets m.words = Engine.octets keys := by
  rw [Engine.octets_eq_sum, Engine.octets_eq_sum, words_eq h, ((perm_sort _).map _).sum_eq]
  clear h
  induction keys with
  | nil => rfl
  | cons k ks ih => by_cases hk : k = "" <;> simp_all

theorem pairwise_words (h : ofKeys? keys = some m) :
    m.words.Pairwise fun v w => w.utf8ByteSize ≤ v.utf8ByteSize := by
  rw [words_eq h]
  refine (pairwise_sort _).imp fun h => ?_
  rcases precedes_iff.mp h with h | ⟨h, -⟩
  · exact h.le
  · exact h.ge

/-- Of words that begin one text, one that has no more octets has no more characters either. -/
theorem length_le_of_utf8ByteSize_le (hv : v.toList <+: cs) (hw : w.toList <+: cs)
    (h : v.utf8ByteSize ≤ w.utf8ByteSize) : v.length ≤ w.length := by
  by_contra hl
  have hp : w.toList <+: v.toList :=
    List.prefix_of_prefix_length_le hw hv (by simp only [String.length_toList]; omega)
  obtain ⟨t, ht⟩ := hp
  obtain rfl : w ++ String.ofList t = v := String.toList_inj.mp (by simpa using ht)
  have ht : String.ofList t = "" := by
    rw [← String.utf8ByteSize_eq_zero_iff]
    rw [String.utf8ByteSize_append] at h
    omega
  simp [ht] at hl

theorem isLongest_of_word? (h : ofKeys? keys = some m) (hw : m.word? cs = some w) :
    Reference.IsLongest (keys.map String.toList) cs w.toList := by
  obtain ⟨hb, as, bs, hs, ha⟩ := List.find?_eq_some_iff_append.mp hw
  have hm := (mem_words_iff h).mp (List.mem_of_find?_eq_some hw)
  have hb : w.toList <+: cs := by simpa using hb
  refine ⟨List.mem_map_of_mem hm.1, by simpa using hm.2, hb, fun j hj hp => ?_⟩
  obtain ⟨v, hv, rfl⟩ := List.mem_map.mp hj
  by_cases hn : v = ""
  · simp [hn]
  have hv : v ∈ as ++ w :: bs := hs ▸ (mem_words_iff h).mpr ⟨hv, hn⟩
  rcases List.mem_append.mp hv with hv | hv
  · -- Words that come earlier do not stand here.
    exact absurd hp (by simpa [← Bool.not_eq_true] using ha v hv)
  · rcases List.mem_cons.mp hv with rfl | hv
    · exact le_rfl
    · have hpw := pairwise_words h
      rw [hs] at hpw
      have hle := List.rel_of_pairwise_cons (List.pairwise_append.mp hpw).2.1 hv
      simpa only [String.length_toList] using length_le_of_utf8ByteSize_le hp hb hle

/-- The first word that stands at a place is the longest key there. -/
theorem word?_eq_longest? (h : ofKeys? keys = some m) (cs : List Char) :
    (m.word? cs).map String.toList = Reference.longest? (keys.map String.toList) cs := by
  cases hw : m.word? cs with
  | some w => exact (Reference.longest?_eq_some_iff.mpr (isLongest_of_word? h hw)).symm
  | none =>
    refine (Reference.longest?_eq_none_iff.mpr fun j hj hn => ?_).symm
    obtain ⟨v, hv, rfl⟩ := List.mem_map.mp hj
    have hv := List.find?_eq_none.mp hw v ((mem_words_iff h).mpr ⟨hv, by simpa using hn⟩)
    simpa using hv

theorem split?_eq (h : ofKeys? keys = some m) (cs : List Char) :
    m.split? cs = Reference.split? (keys.map String.toList) cs := by
  induction cs with
  | nil =>
    rw [split?, Reference.split?, ← word?_eq_longest? h]
    cases m.word? [] <;> rfl
  | cons c r ih =>
    rw [split?, Reference.split?, ← word?_eq_longest? h, ← ih]
    cases m.word? (c :: r) <;> rfl

theorem parse?_eq (h : ofKeys? s.keys = some m) (text : String) :
    m.parse? text = s.parse? text := by
  rw [parse?, Schema.parse?, split?_eq h]

theorem eq_of_precedes (h : precedes v w = true) (h' : precedes w v = true) : v = w := by
  rw [precedes_iff] at h h'
  rcases h with h | ⟨he, h⟩ <;> rcases h' with h' | ⟨he', h'⟩
  · exact absurd h h'.asymm
  · exact absurd he' h.ne
  · exact absurd he h'.ne
  · exact le_antisymm h h'

/-- Keys in another order make the same matcher. -/
theorem ofKeys?_congr {keys' : List String} (h : keys.Perm keys') :
    ofKeys? keys = ofKeys? keys' := by
  have hw : sort (keys.filter (· ≠ "")) = sort (keys'.filter (· ≠ "")) := by
    refine List.Perm.eq_of_pairwise (fun _ _ _ _ => eq_of_precedes) (pairwise_sort _)
      (pairwise_sort _) ?_
    exact (perm_sort _).trans ((h.filter _).trans (perm_sort _).symm)
  have hn : ofKeys? keys = none ↔ ofKeys? keys' = none := by
    simp only [ofKeys?_eq_none_iff, h.mem_iff]
  cases hk : ofKeys? keys with
  | none => exact (hn.mp hk).symm
  | some m =>
    cases hk' : ofKeys? keys' with
    | none => exact absurd (hn.mpr hk') (by simp [hk])
    | some m' =>
      have hm : m.words = m'.words := by rw [words_eq hk, words_eq hk', hw]
      exact congrArg some (by cases m; cases m'; cases hm; rfl)

end Matcher

namespace KeySet

variable {s t : KeySet} {text : String} {e : TooBig}

/-- There is a matcher for the keys of the set, or no key to look for. -/
def Searchable (s : KeySet) : Prop := ∃ m, s.matcher? = .ok m

theorem searchable_iff : s.Searchable ↔
    ∀ m, Matcher.ofKeys? s.schema.keys = some m → s.engine.fits m.words s.limit = true := by
  unfold Searchable matcher?
  cases Matcher.ofKeys? s.schema.keys with
  | none => simp
  | some m => by_cases hf : s.engine.fits m.words s.limit = true <;> simp [hf]

theorem matcher?_eq_error_iff : s.matcher? = .error e ↔ ¬ s.Searchable ∧ e = ⟨s.limit⟩ := by
  unfold Searchable matcher?
  cases Matcher.ofKeys? s.schema.keys with
  | none => simp
  | some m =>
    by_cases hf : s.engine.fits m.words s.limit = true
    · simp [hf]
    · simpa [hf] using eq_comm

/-- Only what keys there are decides about the matcher. -/
theorem matcher?_congr (he : s.engine = t.engine) (hl : s.limit = t.limit)
    (hk : ∀ k, k ∈ s.schema.keys ↔ k ∈ t.schema.keys) : s.matcher? = t.matcher? := by
  have hp : s.schema.keys.Perm t.schema.keys :=
    (List.perm_ext_iff_of_nodup s.schema.nodup t.schema.nodup).mpr hk
  rw [matcher?, matcher?, Matcher.ofKeys?_congr hp, he, hl]

/-- A key set reads references as its schema does, unless it lacks a matcher. -/
theorem parse_eq (s : KeySet) (text : String) :
    s.parse text = s.matcher?.map fun _ => s.schema.parse? text := by
  unfold parse matcher?
  cases hm : Matcher.ofKeys? s.schema.keys with
  | none =>
    have hk := Matcher.ofKeys?_eq_none_iff.mp hm
    have hp : s.schema.parse? text = none :=
      Schema.parse?_eq_none_iff.mpr fun p k q hk' hn => absurd (hk k hk') hn
    simp [Except.map, hp]
  | some m =>
    by_cases hf : s.engine.fits m.words s.limit = true <;>
      simp [hf, Except.map, Matcher.parse?_eq hm]

theorem parse_of_searchable (h : s.Searchable) (text : String) :
    s.parse text = .ok (s.schema.parse? text) := by
  obtain ⟨m, hm⟩ := h
  rw [parse_eq, hm]
  rfl

theorem parse_of_not_searchable (h : ¬ s.Searchable) (text : String) :
    s.parse text = .error ⟨s.limit⟩ := by
  rw [parse_eq, matcher?_eq_error_iff.mpr ⟨h, rfl⟩]
  rfl

/-- The keys of a set can be searched for with the usual engine unless they have too many octets. -/
theorem searchable_usual_iff {s : Schema} : (ofSchema .usual s).Searchable ↔
    24 * Engine.octets s.keys ≤ defaultLimit := by
  rw [searchable_iff]
  constructor
  · intro h
    cases hm : Matcher.ofKeys? s.keys with
    | none =>
      have hs : Engine.octets s.keys = 0 := by
        rw [Engine.octets_eq_sum, List.sum_eq_zero_iff, List.forall_mem_map]
        exact fun k hk => by simp [Matcher.ofKeys?_eq_none_iff.mp hm k hk]
      simp [hs]
    | some m => simpa [ofSchema, Engine.usual, Matcher.octets_words hm] using h m hm
  · intro h m hm
    have hm : Matcher.ofKeys? s.keys = some m := hm
    simpa [ofSchema, Engine.usual, Matcher.octets_words hm] using h

/-- One key may have too many octets. -/
theorem not_searchable_usual {s : Schema} {k : String} (hk : k ∈ s.keys)
    (h : defaultLimit < 24 * k.utf8ByteSize) : ¬ (ofSchema .usual s).Searchable := by
  have hs : k.utf8ByteSize ≤ Engine.octets s.keys := by
    rw [Engine.octets_eq_sum]
    exact List.le_sum_of_mem (List.mem_map_of_mem hk)
  rw [searchable_usual_iff]
  omega

theorem utf8ByteSize_replicate (n : Nat) :
    (String.ofList (List.replicate n 'a')).utf8ByteSize = n := by
  rw [String.utf8ByteSize_ofList]
  induction n with
  | zero => rfl
  | succ n ih =>
    rw [List.replicate_succ, String.utf8Len_cons, ih]
    rfl

def endlessKey : String := String.ofList (List.replicate 600000 'a')

theorem utf8ByteSize_endlessKey : endlessKey.utf8ByteSize = 600000 :=
  utf8ByteSize_replicate 600000

theorem not_searchable_of_endlessKey_mem {s : Schema} (h : endlessKey ∈ s.keys) :
    ¬ (ofSchema .usual s).Searchable := by
  refine not_searchable_usual h ?_
  rw [utf8ByteSize_endlessKey]
  decide

theorem endlessKey_not_infix {text : String} (h : text.utf8ByteSize < 600000) :
    ¬ endlessKey.toList <:+: text.toList := by
  intro hi
  have hl := String.utf8Len_le_of_infix hi
  rw [String.utf8Len_toList, String.utf8Len_toList, utf8ByteSize_endlessKey] at hl
  omega

end KeySet

end Stylebook
