import Mathlib
import Stylebook.Proofs.Date.Pattern

/-! # Parts that a pattern asks for

A date is rendered unless the pattern asks for a part that the date does not have. A month or a day
that is not a number in range is as good as missing. Parts that the pattern does not ask for make no
difference.
-/

namespace Stylebook

namespace Text

/-- Blanks on both sides are all that is trimmed. -/
theorem exists_eq_append_trim (cs : List Char) : ∃ before after,
    cs = before ++ trim cs ++ after ∧ (∀ c ∈ before, isBlank c = true) ∧
      ∀ c ∈ after, isBlank c = true := by
  refine ⟨cs.takeWhile isBlank, ((trimStart cs).reverse.takeWhile isBlank).reverse, ?_, ?_, ?_⟩
  · have h := congrArg List.reverse
      (List.takeWhile_append_dropWhile (p := isBlank) (l := (trimStart cs).reverse))
    rw [List.reverse_append, List.reverse_reverse] at h
    rw [List.append_assoc, trim, trimStart, h, trimStart, List.takeWhile_append_dropWhile]
  · exact fun c => List.mem_takeWhile_imp
  · exact fun c hc => List.mem_takeWhile_imp (List.mem_reverse.mp hc)

theorem trimStart_append {before core : List Char} (hb : ∀ c ∈ before, isBlank c = true)
    (hc : ∀ c ∈ core.head?, isBlank c = false) : trimStart (before ++ core) = core := by
  rw [trimStart, List.dropWhile_append_of_pos hb]
  cases core with
  | nil => rfl
  | cons c core => exact List.dropWhile_cons_of_neg (by simp [hc c rfl])

/-- What is left after trimming, if there is no blank in it. -/
theorem trim_eq_iff {cs core : List Char} (h : core ≠ []) (hc : ∀ c ∈ core, isBlank c = false) :
    trim cs = core ↔ ∃ before after, cs = before ++ core ++ after ∧
      (∀ c ∈ before, isBlank c = true) ∧ ∀ c ∈ after, isBlank c = true := by
  constructor
  · rintro rfl
    exact exists_eq_append_trim cs
  · rintro ⟨before, after, rfl, hb, ha⟩
    have hl : trimStart (before ++ core ++ after) = core ++ after := by
      rw [List.append_assoc]
      refine trimStart_append hb fun c hc' => hc c ?_
      rw [List.head?_append_of_ne_nil _ h] at hc'
      exact List.mem_of_mem_head? hc'
    have hr : trimStart (core ++ after).reverse = core.reverse := by
      rw [List.reverse_append]
      refine trimStart_append (fun c hc' => ha c (List.mem_reverse.mp hc')) fun c hc' => hc c ?_
      exact List.mem_reverse.mp (List.mem_of_mem_head? hc')
    rw [trim, hl, hr, List.reverse_reverse]

theorem isBlank_of_isDigit {c : Char} (h : c.isDigit = true) : isBlank c = false := by
  have hc : 48 ≤ c.toNat ∧ c.toNat ≤ 57 := Char.isDigit_iff_toNat.mp h
  simp only [isBlank, blankRanges, List.any_eq_false, List.forall_mem_cons, Bool.and_eq_true,
    decide_eq_true_eq]
  simp
  omega

end Text

namespace Date

variable {p r : List Char} {d d' : Date} {t : Token} {n : Nat}

/-- Digits with an optional plus sign, which stand between blanks and are a number of 32 bits. -/
def Writes (s : String) (n : Nat) : Prop := ∃ before sign digits after,
  s.toList = before ++ (sign ++ digits) ++ after ∧
    ((∀ c ∈ before, isBlank c = true) ∧ ∀ c ∈ after, isBlank c = true) ∧
    (sign = [] ∨ sign = ['+']) ∧ (digits ≠ [] ∧ ∀ c ∈ digits, c.isDigit = true) ∧
    Number.ofDigits digits = n ∧ n < 2 ^ 32

/-- There is a text, and it is a number from 1 to `last`. -/
def InRange (last : Nat) (part : Option String) : Prop :=
  ∃ s n, part = some s ∧ Writes s n ∧ 1 ≤ n ∧ n ≤ last

theorem unsigned?_eq_some_iff {cs : List Char} : unsigned? cs = some n ↔
    ∃ sign digits, cs = sign ++ digits ∧ (sign = [] ∨ sign = ['+']) ∧
      (digits ≠ [] ∧ ∀ c ∈ digits, c.isDigit = true) ∧ Number.ofDigits digits = n ∧ n < 2 ^ 32 := by
  simp only [unsigned?, Option.ite_none_right_eq_some, Option.some.injEq, List.all_eq_true]
  constructor
  · intro h
    split at h
    · obtain ⟨⟨hn, hd, hl⟩, rfl⟩ := h
      exact ⟨['+'], _, rfl, .inr rfl, ⟨hn, hd⟩, rfl, hl⟩
    · obtain ⟨⟨hn, hd, hl⟩, rfl⟩ := h
      exact ⟨[], cs, rfl, .inl rfl, ⟨hn, hd⟩, rfl, hl⟩
  · rintro ⟨sign, digits, rfl, rfl | rfl, ⟨hn, hd⟩, rfl, hl⟩
    · split
      · next ds he =>
        have hp : '+'.isDigit = true := hd '+' (by simp [show digits = '+' :: ds from he])
        cases hp
      · exact ⟨⟨hn, hd, hl⟩, rfl⟩
    · exact ⟨⟨hn, hd, hl⟩, rfl⟩

theorem isBlank_of_mem_number {sign digits : List Char} (hs : sign = [] ∨ sign = ['+'])
    (hd : ∀ c ∈ digits, c.isDigit = true) : ∀ c ∈ sign ++ digits, isBlank c = false := by
  intro c hc
  rcases List.mem_append.mp hc with hc | hc
  · rcases hs with rfl | rfl
    · cases hc
    · obtain rfl := List.mem_singleton.mp hc
      decide
  · exact Text.isBlank_of_isDigit (hd c hc)

theorem unsigned?_trim_eq_some_iff {s : String} :
    unsigned? (Text.trim s.toList) = some n ↔ Writes s n := by
  rw [unsigned?_eq_some_iff]
  constructor
  · rintro ⟨sign, digits, ht, hs, ⟨hn, hd⟩, hv, hl⟩
    obtain ⟨before, after, he, hb⟩ := (Text.trim_eq_iff (List.append_ne_nil_of_right_ne_nil _ hn)
      (isBlank_of_mem_number hs hd)).mp ht
    exact ⟨before, sign, digits, after, he, hb, hs, ⟨hn, hd⟩, hv, hl⟩
  · rintro ⟨before, sign, digits, after, he, hb, hs, ⟨hn, hd⟩, hv, hl⟩
    refine ⟨sign, digits, ?_, hs, ⟨hn, hd⟩, hv, hl⟩
    exact (Text.trim_eq_iff (List.append_ne_nil_of_right_ne_nil _ hn)
      (isBlank_of_mem_number hs hd)).mpr ⟨before, after, he, hb⟩

theorem number?_eq_some_iff {last : Nat} {part : Option String} : number? last part = some n ↔
    ∃ s, part = some s ∧ Writes s n ∧ 1 ≤ n ∧ n ≤ last := by
  simp only [number?, bind, Option.bind_eq_some_iff, Option.ite_none_right_eq_some,
    Option.some.injEq, unsigned?_trim_eq_some_iff]
  constructor
  · rintro ⟨s, hs, m, hm, hr, rfl⟩
    exact ⟨s, hs, hm, hr⟩
  · rintro ⟨s, hs, hm, hr⟩
    exact ⟨s, hs, n, hm, hr, rfl⟩

theorem number?_ne_none_iff {last : Nat} {part : Option String} :
    number? last part ≠ none ↔ InRange last part := by
  simp only [Option.ne_none_iff_exists', number?_eq_some_iff, InRange]
  exact exists_comm

theorem exists_monthName? {m : Nat} (h : d.monthNumber? = some m) :
    ∃ s, monthName? m = some s := by
  obtain ⟨-, -, -, hm, hl⟩ := number?_eq_some_iff.mp h
  obtain ⟨m, rfl⟩ := Nat.exists_eq_add_of_le' hm
  exact ⟨_, List.getElem?_eq_getElem (show m < monthNames.length from hl)⟩

/-! What a pattern asks for. -/

inductive Part
  | year
  | month
  | day

namespace Part

/-- What asks for the part, wherever it stands in a pattern. -/
def letters : Part → List Char
  | year => ['Y', 'Y']
  | month => ['M']
  | day => ['D']

theorem exists_iff {P : Part → Prop} : (∃ x, P x) ↔ P month ∨ P day ∨ P year := by
  constructor
  · rintro ⟨_ | _ | _, h⟩
    · exact .inr (.inr h)
    · exact .inl h
    · exact .inr (.inl h)
  · rintro (h | h | h)
    · exact ⟨month, h⟩
    · exact ⟨day, h⟩
    · exact ⟨year, h⟩

def text? (d : Date) : Part → Option String
  | year => d.year
  | month => d.month
  | day => d.day

/-- Whether the date has the part, in the form of a number where one is needed. -/
def Given (d : Date) : Part → Prop
  | year => d.year ≠ none
  | month => InRange 12 d.month
  | day => InRange 31 d.day

end Part

namespace Token

/-- The part that a token shows. -/
def part? : Token → Option Part
  | year | shortYear => some .year
  | monthName | monthAbbrev | paddedMonth | month => some .month
  | paddedDay | day => some .day
  | literal _ => none

theorem render?_eq_none_iff : t.render? d = none ↔ ∃ x, t.part? = some x ∧ ¬ x.Given d := by
  have hm : d.monthNumber? = none ↔ ¬ InRange 12 d.month := by
    rw [← number?_ne_none_iff, not_not]
    rfl
  have hd : d.dayNumber? = none ↔ ¬ InRange 31 d.day := by
    rw [← number?_ne_none_iff, not_not]
    rfl
  have hn : d.monthNumber? >>= monthName? = none ↔ d.monthNumber? = none := by
    cases h : d.monthNumber? with
    | none => simp
    | some m =>
      obtain ⟨s, hs⟩ := exists_monthName? h
      simp [hs]
  cases t with
  | literal s => simp [render?, part?]
  | year | shortYear => simp [render?, part?, Part.Given]
  | monthName | monthAbbrev =>
    simp only [render?, Option.map_eq_none_iff, hn, hm]
    simp [part?, Part.Given]
  | paddedMonth | month => simp [render?, part?, Part.Given, hm]
  | paddedDay | day => simp [render?, part?, Part.Given, hd]

theorem render?_congr (h : ∀ x, t.part? = some x → x.text? d' = x.text? d) :
    t.render? d' = t.render? d := by
  cases t with
  | literal s => rfl
  | year | shortYear =>
    have hy : d'.year = d.year := h .year rfl
    simp only [render?, hy]
  | monthName | monthAbbrev | paddedMonth | month =>
    have hm : d'.month = d.month := h .month rfl
    simp only [render?, monthNumber?, hm]
  | paddedDay | day =>
    have hd : d'.day = d.day := h .day rfl
    simp only [render?, dayNumber?, hd]

end Token

namespace Part

variable {x : Part}

theorem letters_infix_cons_iff (hc : isLiteral c = true) :
    x.letters <:+: c :: r ↔ x.letters <:+: r := by
  have hp : ¬ x.letters <+: c :: r := by
    intro h
    cases x <;>
    · obtain ⟨rfl, -⟩ := List.cons_prefix_cons.mp h
      cases hc
  rw [List.infix_cons_iff, or_iff_right hp]

theorem letters_infix_dropWhile_iff :
    x.letters <:+: r.dropWhile isLiteral ↔ x.letters <:+: r := by
  induction r with
  | nil => rfl
  | cons c r ih =>
    cases hc : isLiteral c with
    | true => rw [List.dropWhile_cons_of_pos hc, ih, letters_infix_cons_iff hc]
    | false => rw [List.dropWhile_cons_of_neg (by simp [hc])]

end Part

theorem exists_part?_cons (x : Part) (t : Token) (ts : List Token) :
    (∃ u ∈ t :: ts, u.part? = some x) ↔ t.part? = some x ∨ ∃ u ∈ ts, u.part? = some x := by
  simp

/-- Some token of a pattern shows the part if and only if its letters stand somewhere in it. -/
theorem exists_part?_iff (x : Part) (p : List Char) :
    (∃ t ∈ tokens p, t.part? = some x) ↔ x.letters <:+: p := by
  induction p using tokens.induct with
  | case1 => cases x <;> simp [tokens, Part.letters]
  | case4 r hr hr' ih =>
    -- A single letter asks for nothing, because no other one follows.
    have hp : ¬ x.letters <+: 'Y' :: r := by
      intro h
      cases x with
      | year =>
        obtain ⟨r', rfl⟩ := (List.cons_prefix_cons.mp h).2
        exact hr' r' rfl
      | month | day => exact absurd (List.cons_prefix_cons.mp h).1 (by decide)
    rw [tokens.eq_4 r hr hr', exists_part?_cons, ih, List.infix_cons_iff, or_iff_right hp]
    simp [Token.part?]
  | case11 c r =>
    have hc : isLiteral c = true := by grind [isLiteral]
    rw [tokens_of_isLiteral hc, exists_part?_cons, Part.letters_infix_cons_iff hc,
      ← Part.letters_infix_dropWhile_iff]
    simpa [Token.part?]
  | _ =>
    rw [tokens, exists_part?_cons]
    · cases x <;> simp_all [Part.letters, List.infix_cons_iff, Token.part?]
    all_goals assumption

theorem format?_eq_none_iff {p : String} :
    format? d p = none ↔ ∃ x : Part, x.letters <:+: p.toList ∧ ¬ x.Given d := by
  simp only [format?, Option.map_eq_none_iff, mapM_eq_none_iff, Token.render?_eq_none_iff,
    ← exists_part?_iff]
  constructor
  · rintro ⟨t, ht, x, hx, hg⟩
    exact ⟨x, ⟨t, ht, hx⟩, hg⟩
  · rintro ⟨x, ⟨t, ht, hx⟩, hg⟩
    exact ⟨t, ht, x, hx, hg⟩

theorem format?_congr {p : String}
    (h : ∀ x : Part, x.letters <:+: p.toList → x.text? d' = x.text? d) :
    format? d' p = format? d p := by
  have ht : ∀ t ∈ tokens p.toList, t.render? d' = t.render? d := fun t ht =>
    Token.render?_congr fun x hx => h x ((exists_part?_iff x _).mp ⟨t, ht, hx⟩)
  rw [format?, format?, mapM_congr ht]

/-- The date with the parts that it lacks taken from another one. -/
def filled (d e : Date) : Date := ⟨d.year.or e.year, d.month.or e.month, d.day.or e.day⟩

theorem text?_filled {x : Part} (h : x.Given d) (e : Date) :
    x.text? (d.filled e) = x.text? d := by
  have ho {o : Option String} (o' : Option String) (h : o ≠ none) : o.or o' = o := by
    obtain ⟨s, rfl⟩ := Option.ne_none_iff_exists'.mp h
    rfl
  cases x with
  | year => exact ho _ h
  | month | day =>
    obtain ⟨s, -, hs, -⟩ := h
    exact ho _ (by simp [hs])

/-- A date lacks what is needed if and only if the pattern has an `M` and there is no number from 1
to 12 for the month, or it has a `D` and there is none from 1 to 31 for the day, or two `Y` stand
next to each other in it and there is no year. What it does not ask for makes no difference, and
neither do further parts once a date is rendered. -/
theorem format_lacking (p : String) :
    (∀ d, format? d p = none ↔
      'M' ∈ p.toList ∧ ¬ InRange 12 d.month ∨
      'D' ∈ p.toList ∧ ¬ InRange 31 d.day ∨
      ['Y', 'Y'] <:+: p.toList ∧ d.year = none) ∧
    (∀ d d' : Date, ('M' ∈ p.toList → d'.month = d.month) → ('D' ∈ p.toList → d'.day = d.day) →
      (['Y', 'Y'] <:+: p.toList → d'.year = d.year) → format? d' p = format? d p) ∧
    ∀ d e s, format? d p = some s → format? (d.filled e) p = some s := by
  refine ⟨fun d => ?_, fun d d' hm hd hy => ?_, fun d e s h => ?_⟩
  · rw [format?_eq_none_iff, Part.exists_iff]
    simp only [Part.letters, List.singleton_infix_iff, Part.Given, not_not]
  · refine format?_congr fun x hx => ?_
    cases x with
    | year => exact hy hx
    | month => exact hm ((List.singleton_infix_iff _ _).mp hx)
    | day => exact hd ((List.singleton_infix_iff _ _).mp hx)
  · rw [← h]
    refine format?_congr fun x hx => text?_filled ?_ e
    by_contra hg
    have hn : format? d p = none := format?_eq_none_iff.mpr ⟨x, hx, hg⟩
    rw [hn] at h
    cases h

/-- A month with a sign and blanks, a day that is out of range, and no year. A single `Y` does not
ask for one. -/
theorem format_lacking_unsound :
    let d : Date := ⟨none, some " +03 ", some "32"⟩
    ('D' ∈ "M/D".toList ∧ ¬ InRange 31 d.day ∧ format? d "M/D" = none) ∧
    (['Y', 'Y'] <:+: "MYYY".toList ∧ d.year = none ∧ format? d "MYYY" = none) ∧
    ('D' ∉ "MMMY".toList ∧ ¬ ['Y', 'Y'] <:+: "MMMY".toList ∧
      format? { d with year := some "1999", day := none } "MMMY" = some "MarY") ∧
    format? (d.filled ⟨some "1999", some "13", some "1"⟩) "MMMY" = some "MarY" := by
  intro d
  obtain ⟨hday, -, -⟩ := format_lacking "M/D"
  obtain ⟨hyear, -, -⟩ := format_lacking "MYYY"
  obtain ⟨-, hc, hf⟩ := format_lacking "MMMY"
  have hr : ¬ InRange 31 d.day := by
    rw [← number?_ne_none_iff]
    decide
  have hy : ['Y', 'Y'] <:+: "MYYY".toList := by decide
  have hn : 'D' ∉ "MMMY".toList ∧ ¬ ['Y', 'Y'] <:+: "MMMY".toList := by decide
  have ht : tokens "MMMY".toList = [.monthAbbrev, .literal "Y"] :=
    (tokens_eq_flatMap _).trans (by decide)
  have hm : format? d "MMMY" = some "MarY" := (congrArg (renderAll? d) ht).trans (by decide)
  refine ⟨⟨by decide, hr, (hday d).mpr (.inr (.inl ⟨by decide, hr⟩))⟩,
    ⟨hy, rfl, (hyear d).mpr (.inr (.inr ⟨hy, rfl⟩))⟩, ⟨hn.1, hn.2, ?_⟩, hf d _ _ hm⟩
  exact (hc d { d with year := some "1999", day := none } (fun _ => rfl) (absurd · hn.1)
    (absurd · hn.2)).trans hm

end Date

end Stylebook
