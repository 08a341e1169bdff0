import Mathlib
import Stylebook.Contributor.Pattern

/-! # Name patterns as substitutions

Names are put in the place of the words of a pattern, all at once: what is written for a character
depends on the pattern around it, and never on a name. Patterns can be written part by part where no
word goes on from one part to the next.
-/

namespace Stylebook.Contributor

variable {c : Contributor} {p q before after u v : List Char}

/-- What a whole name is put for. -/
def words : List (List Char) := ["Last".toList, "First".toList]

/-- Whether a word begins in the first part and ends in the second one. -/
def Straddled (p q : List Char) : Prop :=
  ∃ u v, u ++ v ∈ words ∧ (u ≠ [] ∧ v ≠ []) ∧ u <:+ p ∧ v <+: q

instance : Decidable (Straddled p q) :=
  decidable_of_iff (∃ u ∈ p.tails, ∃ v ∈ q.inits, u ++ v ∈ words ∧ u ≠ [] ∧ v ≠ []) <| by
    simp only [Straddled, List.mem_tails, List.mem_inits]
    grind

/-- What is written for the character that comes first in `after`. A word is written where it
begins, and nothing in the rest of it. -/
def written (c : Contributor) (before after : List Char) : List Char :=
  if "Last".toList <+: after then c.last.toList
  else if "First".toList <+: after then c.first.toList
  else if Straddled before after then []
  else if after.head? = some 'F' then c.first.toList.take 1
  else after.take 1

/-- What is written for all characters of a pattern, each of them where it stands. -/
def substituted (c : Contributor) (p : List Char) : List Char :=
  (List.range p.length).flatMap fun i => written c (p.take i) (p.drop i)

/-! Patterns part by part. -/

/-- If no word goes on in `q`, then a word that is there with `q` is there without it. -/
theorem prefix_of_not_straddled (h : ¬ Straddled (before ++ after) q) (hw : u ++ v ∈ words)
    (hn : u ++ after ≠ []) (hu : u <:+ before) (hv : v <+: after ++ q) : v <+: after := by
  rcases List.prefix_or_prefix_of_prefix hv (List.prefix_append after q) with hp | ⟨t, rfl⟩
  · exact hp
  · by_contra hp
    obtain ⟨s, rfl⟩ := hu
    refine h ⟨u ++ after, t, by rwa [List.append_assoc], ⟨hn, ?_⟩, ⟨s, by simp⟩, ?_⟩
    · rintro rfl
      exact hp (by simp)
    · rwa [List.prefix_append_right_inj] at hv

/-- If no word comes from `p`, then a word that is there with `p` is there without it. -/
theorem suffix_of_not_straddled (h : ¬ Straddled p (before ++ after)) (hw : u ++ v ∈ words)
    (hn : v ≠ []) (hu : u <:+ p ++ before) (hv : v <+: after) : u <:+ before := by
  rcases List.suffix_or_suffix_of_suffix hu (List.suffix_append p before) with hs | ⟨t, rfl⟩
  · exact hs
  · by_contra hs
    obtain ⟨s, rfl⟩ := hv
    refine h ⟨t, before ++ v, by rwa [← List.append_assoc], ⟨?_, by simp [hn]⟩, ?_, ⟨s, by simp⟩⟩
    · rintro rfl
      exact hs (by simp)
    · rwa [List.suffix_append_self_iff] at hu

theorem word_prefix_append_iff (h : ¬ Straddled (before ++ after) q) (ha : after ≠ [])
    (hw : v ∈ words) : v <+: after ++ q ↔ v <+: after :=
  ⟨prefix_of_not_straddled (u := []) h hw ha List.nil_suffix, fun hv =>
    hv.trans (List.prefix_append after q)⟩

theorem straddled_append_right_iff (h : ¬ Straddled (before ++ after) q) :
    Straddled before (after ++ q) ↔ Straddled before after := by
  constructor
  · rintro ⟨u, v, hw, hn, hu, hv⟩
    exact ⟨u, v, hw, hn, hu, prefix_of_not_straddled h hw (by simp [hn.1]) hu hv⟩
  · rintro ⟨u, v, hw, hn, hu, hv⟩
    exact ⟨u, v, hw, hn, hu, hv.trans (List.prefix_append after q)⟩

theorem straddled_append_left_iff (h : ¬ Straddled p (before ++ after)) :
    Straddled (p ++ before) after ↔ Straddled before after := by
  constructor
  · rintro ⟨u, v, hw, hn, hu, hv⟩
    exact ⟨u, v, hw, hn, suffix_of_not_straddled h hw hn.2 hu hv, hv⟩
  · rintro ⟨u, v, hw, hn, hu, hv⟩
    exact ⟨u, v, hw, hn, hu.trans (List.suffix_append p before), hv⟩

theorem written_append_right (h : ¬ Straddled (before ++ after) q) (ha : after ≠ []) :
    written c before (after ++ q) = written c before after := by
  have hl : "Last".toList ∈ words := by decide
  have hf : "First".toList ∈ words := by decide
  obtain ⟨x, after, rfl⟩ := List.exists_cons_of_ne_nil ha
  simp only [written, word_prefix_append_iff h ha hl, word_prefix_append_iff h ha hf,
    straddled_append_right_iff h]
  rfl

theorem written_append_left (h : ¬ Straddled p (before ++ after)) :
    written c (p ++ before) after = written c before after := by
  simp only [written, straddled_append_left_iff h]

theorem substituted_append (h : ¬ Straddled p q) :
    substituted c (p ++ q) = substituted c p ++ substituted c q := by
  rw [substituted, List.length_append, List.range_add, List.flatMap_append, List.flatMap_map]
  refine congrArg₂ (· ++ ·) (List.flatMap_congr fun i hi => ?_) (List.flatMap_congr fun i _ => ?_)
  · have hi : i < p.length := List.mem_range.mp hi
    rw [List.take_append_of_le_length hi.le, List.drop_append_of_le_length hi.le]
    exact written_append_right (by rwa [List.take_append_drop]) (by simpa using hi)
  · rw [List.take_length_add_append, List.drop_length_add_append]
    exact written_append_left (by rwa [List.take_append_drop])

/-- No word goes on behind one that is whole. -/
theorem not_straddled_of_mem_words (hp : p ∈ words) (q : List Char) : ¬ Straddled p q := by
  rintro ⟨u, v, hw, ⟨hu, hv⟩, hs, -⟩
  have hi : ∀ p ∈ words, ∀ w ∈ words, ∀ u ∈ w.inits, u ≠ [] → u <:+ p → u = w := by decide
  have he : u = u ++ v :=
    hi p hp _ hw u ((List.mem_inits _ _).mpr (List.prefix_append u v)) hu hs
  exact hv (List.self_eq_append_right.mp he)

theorem straddled_singleton_iff {x : Char} :
    Straddled [x] q ↔ ∃ v, x :: v ∈ words ∧ v ≠ [] ∧ v <+: q := by
  constructor
  · rintro ⟨u, v, hw, ⟨hu, hv⟩, hs, hq⟩
    obtain rfl : u = [x] := by simpa [List.suffix_cons_iff, hu] using hs
    exact ⟨v, hw, hv, hq⟩
  · rintro ⟨v, hw, hv, hq⟩
    exact ⟨[x], v, hw, ⟨by simp, hv⟩, List.suffix_rfl, hq⟩

/-! Tokens. -/

theorem substituted_last (c : Contributor) (q : List Char) :
    substituted c ("Last".toList ++ q) = c.last.toList ++ substituted c q := by
  have hw : substituted c "Last".toList = c.last.toList := List.append_nil _
  rw [substituted_append (not_straddled_of_mem_words (by decide) q), hw]

theorem substituted_first (c : Contributor) (q : List Char) :
    substituted c ("First".toList ++ q) = c.first.toList ++ substituted c q := by
  have hw : substituted c "First".toList = c.first.toList := List.append_nil _
  rw [substituted_append (not_straddled_of_mem_words (by decide) q), hw]

/-- A character with which no word begins. -/
theorem substituted_cons {x : Char} (h : ∀ v, x :: v ∈ words → ¬ v <+: q) :
    substituted c (x :: q) =
      (if x = 'F' then c.first.toList.take 1 else [x]) ++ substituted c q := by
  have hs : ¬ Straddled [x] q := by
    rw [straddled_singleton_iff]
    rintro ⟨v, hw, -, hv⟩
    exact h v hw hv
  have hn : ¬ Straddled [] [x] := by
    rintro ⟨u, v, -, ⟨hu, -⟩, hp, -⟩
    exact hu (List.suffix_nil.mp hp)
  have ho : substituted c [x] = if x = 'F' then c.first.toList.take 1 else [x] := by
    simp [substituted, written, hn]
  rw [← ho]
  exact substituted_append hs

theorem substituted_of_isLiteral {run : List Char} (h : ∀ x ∈ run, isLiteral x = true)
    (q : List Char) : substituted c (run ++ q) = run ++ substituted c q := by
  induction run with
  | nil => rfl
  | cons x run ih =>
    have hx : x ≠ 'L' ∧ x ≠ 'F' := by simpa [isLiteral] using h x List.mem_cons_self
    rw [List.cons_append, substituted_cons (by simp [words, hx]), if_neg hx.2,
      ih fun y hy => h y (List.mem_cons_of_mem _ hy)]
    rfl

/-- Nothing of a pattern is lost. -/
theorem flatMap_spelling_tokens (p : List Char) :
    (tokens p).flatMap (·.spelling.toList) = p := by
  induction p using tokens.induct with
  | case1 => simp [tokens]
  | _ => simp_all [tokens, Token.spelling]

theorem flatMap_render_tokens (c : Contributor) (p : List Char) :
    (tokens p).flatMap (fun t => (t.render c).toList) = substituted c p := by
  induction p using tokens.induct with
  | case1 => simp [tokens, substituted]
  | case2 r ih =>
    rw [tokens, List.flatMap_cons, ih]
    exact (substituted_last c r).symm
  | case3 r ih =>
    rw [tokens, List.flatMap_cons, ih]
    exact (substituted_first c r).symm
  | case4 r h ih =>
    rw [tokens.eq_4 r h, List.flatMap_cons, ih, substituted_cons, if_pos rfl]
    · simp [Token.render]
    · intro v hw hv
      obtain rfl : v = ['i', 'r', 's', 't'] := by simpa [words] using hw
      obtain ⟨r', rfl⟩ := hv
      exact h r' rfl
  | case5 r h ih =>
    rw [tokens.eq_5 r h, List.flatMap_cons, ih, substituted_cons, if_neg (by decide)]
    · simp [Token.render]
    · intro v hw hv
      obtain rfl : v = ['a', 's', 't'] := by simpa [words] using hw
      obtain ⟨r', rfl⟩ := hv
      exact h r' rfl
  | case6 x r hl hf hf' hl' ih =>
    have hx : isLiteral x = true := by simpa [isLiteral] using ⟨hl', hf'⟩
    have hr : ∀ y ∈ x :: r.takeWhile isLiteral, isLiteral y = true := by
      simpa [hx] using fun y => List.mem_takeWhile_imp
    have hs : x :: r = (x :: r.takeWhile isLiteral) ++ r.dropWhile isLiteral := by simp
    rw [tokens.eq_6 x r hl hf hf' hl', List.flatMap_cons, ih, hs, substituted_of_isLiteral hr]
    simp [Token.render]

theorem toList_format (h : c.first ≠ "") (p : String) :
    (c.format p).toList = substituted c p.toList := by
  rw [format, if_neg (by simpa using h), String.toList_join, List.flatMap_map,
    flatMap_render_tokens]

/-- A pattern is the words and the characters of its tokens. Somebody with a first name is written
by putting something in the place of each character at once, as it stands in the pattern. So
patterns can be written apart if no word goes on from the one to the other. Without a first name
there is only the last one. -/
theorem format_substituted (c : Contributor) :
    (∀ p : String, String.join ((tokens p.toList).map Token.spelling) = p) ∧
    (c.first ≠ "" →
      (∀ p : String, (c.format p).toList = (List.range p.toList.length).flatMap fun i =>
        written c (p.toList.take i) (p.toList.drop i)) ∧
      ∀ p q : String, ¬ Straddled p.toList q.toList →
        c.format (p ++ q) = c.format p ++ c.format q) ∧
    (c.first = "" → ∀ p, c.format p = c.last) := by
  refine ⟨fun p => ?_, fun h => ⟨toList_format h, fun p q hs => ?_⟩, fun h p => ?_⟩
  · refine String.toList_injective ?_
    rw [String.toList_join, List.flatMap_map, flatMap_spelling_tokens]
  · refine String.toList_injective ?_
    rw [String.toList_append, toList_format h, toList_format h, toList_format h,
      String.toList_append, substituted_append hs]
  · rw [format, if_pos (by simp [h])]

/-- A name with the words of a pattern in it, and an initial before a seam. -/
theorem format_substituted_namesake :
    let c : Contributor := ⟨"Firstborn", "FLast"⟩
    (c.first ≠ "" ∧ c.format "LasLast, FiF" = "LasFLast, FiF") ∧
      (¬ Straddled "LasLast, F".toList "i First".toList ∧
        c.format ("LasLast, F" ++ "i First") = c.format "LasLast, F" ++ c.format "i First") ∧
      ((⟨"", "Plato"⟩ : Contributor).first = "" ∧
        (⟨"", "Plato"⟩ : Contributor).format "F. Last" = "Plato") := by
  intro c
  obtain ⟨-, hf, -⟩ := format_substituted c
  obtain ⟨hs, ha⟩ := hf (by decide)
  obtain ⟨-, -, he⟩ := format_substituted ⟨"", "Plato"⟩
  refine ⟨⟨by decide, String.toList_injective ((hs _).trans (by decide))⟩,
    ⟨by decide, ha _ _ (by decide)⟩, rfl, he rfl _⟩

end Stylebook.Contributor
