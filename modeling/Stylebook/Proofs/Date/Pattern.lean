import Mathlib
import Stylebook.Proofs.Table
import Stylebook.Date.Pattern

/-! # Runs of date patterns

A pattern falls into runs, of one letter each or of other characters only. The tokens of a run
depend on nothing but its letter and its length, so patterns can be rendered part by part.
-/

namespace Stylebook.Date

variable {c : Char} {p q r : List Char} {d : Date}

theorem isLiteral_eq_false_iff : isLiteral c = false ↔ c ∈ ['Y', 'M', 'D'] := by
  simp [isLiteral]
  tauto

/-- The letter that stands for a part of a date. -/
def letter? (c : Char) : Option Char := if isLiteral c then none else some c

/-- Two characters are of one run if they are next to each other. -/
def sameRun (a b : Char) : Bool := letter? a = letter? b

namespace Token

/-- The tokens of `n` letters of one kind: as many long ones as there is room for, and what a
shorter run stands for. -/
def ofLetters (long : Token) (short : List (List Token)) (n : Nat) : List Token :=
  List.replicate (n / short.length) long ++ short.getD (n % short.length) []

/-- A letter that is left over is written as it is. -/
def years : Nat → List Token :=
  ofLetters year [[], [literal "Y"], [shortYear], [shortYear, literal "Y"]]

def months : Nat → List Token := ofLetters monthName [[], [month], [paddedMonth], [monthAbbrev]]

def days : Nat → List Token := ofLetters paddedDay [[], [day]]

/-- The tokens of a run, which depend on its letter and its length only. -/
def ofRun : List Char → List Token
  | 'Y' :: cs => years (cs.length + 1)
  | 'M' :: cs => months (cs.length + 1)
  | 'D' :: cs => days (cs.length + 1)
  | cs => [literal (String.ofList cs)]

theorem ofRun_of_isLiteral {c : Char} (hc : isLiteral c = true) (cs : List Char) :
    ofRun (c :: cs) = [literal (String.ofList (c :: cs))] := by
  simp only [isLiteral, Bool.and_eq_true, decide_eq_true_eq] at hc
  rw [ofRun] <;> simp_all

/-- A long token more for each full run of letters. -/
theorem ofLetters_add {long : Token} {short : List (List Token)} (h : 0 < short.length) (n : Nat) :
    ofLetters long short (short.length + n) = long :: ofLetters long short n := by
  rw [ofLetters, ofLetters, Nat.add_div_left n h, Nat.add_mod_left, List.replicate_succ,
    List.cons_append]

theorem ofLetters_of_lt {long : Token} {short : List (List Token)} {n : Nat}
    (h : n < short.length) : ofLetters long short n = short.getD n [] := by
  rw [ofLetters, Nat.div_eq_of_lt h, Nat.mod_eq_of_lt h]
  rfl

end Token

/-! Tokens of a run. -/

/-- If a full run of letters makes the long token, and a shorter one what it stands for, then all
runs of the letter do. -/
theorem tokens_letters {long : Token} {short : List (List Token)} (h : 0 < short.length)
    (hl : ∀ r, tokens (List.replicate short.length c ++ r) = long :: tokens r)
    (hs : ∀ n < short.length, ∀ r, r.head? ≠ some c →
      tokens (List.replicate n c ++ r) = short.getD n [] ++ tokens r)
    (n : Nat) (hr : r.head? ≠ some c) :
    tokens (List.replicate n c ++ r) = Token.ofLetters long short n ++ tokens r := by
  induction n using Nat.strong_induction_on with
  | _ n ih =>
    rcases Nat.lt_or_ge n short.length with hn | hn
    · rw [Token.ofLetters_of_lt hn]
      exact hs n hn r hr
    · obtain ⟨m, rfl⟩ := Nat.exists_eq_add_of_le hn
      rw [List.replicate_add, List.append_assoc, hl, Token.ofLetters_add h, ih m (by omega)]
      rfl

theorem tokens_years (n : Nat) (hr : r.head? ≠ some 'Y') :
    tokens (List.replicate n 'Y' ++ r) = Token.years n ++ tokens r := by
  refine tokens_letters (by decide) (fun r => by simp [List.replicate, tokens]) ?_ n hr
  intro n hn r hr
  replace hn : n < 4 := hn
  cases r <;> interval_cases n <;> simp_all [List.replicate, tokens]

theorem tokens_months (n : Nat) (hr : r.head? ≠ some 'M') :
    tokens (List.replicate n 'M' ++ r) = Token.months n ++ tokens r := by
  refine tokens_letters (by decide) (fun r => by simp [List.replicate, tokens]) ?_ n hr
  intro n hn r hr
  replace hn : n < 4 := hn
  cases r <;> interval_cases n <;> simp_all [List.replicate, tokens]

theorem tokens_days (n : Nat) (hr : r.head? ≠ some 'D') :
    tokens (List.replicate n 'D' ++ r) = Token.days n ++ tokens r := by
  refine tokens_letters (by decide) (fun r => by simp [List.replicate, tokens]) ?_ n hr
  intro n hn r hr
  replace hn : n < 2 := hn
  cases r <;> interval_cases n <;> simp_all [List.replicate, tokens]

theorem tokens_of_isLiteral (hc : isLiteral c = true) (r : List Char) :
    tokens (c :: r) = .literal (String.ofList (c :: r.takeWhile isLiteral)) ::
      tokens (r.dropWhile isLiteral) := by
  simp only [isLiteral, Bool.and_eq_true, decide_eq_true_eq] at hc
  obtain ⟨⟨hY, hM⟩, hD⟩ := hc
  rw [tokens] <;> simp_all

theorem letter?_eq_none_iff : letter? c = none ↔ isLiteral c = true := by
  simp [letter?]

theorem letter?_eq_some_iff {x : Char} : letter? x = some c ↔ isLiteral c = false ∧ x = c := by
  rw [letter?]
  split <;> grind

theorem takeWhile_isLiteral (h : ∀ y ∈ r.head?, letter? y ≠ none) : r.takeWhile isLiteral = [] := by
  cases r with
  | nil => rfl
  | cons y r => simpa [letter?] using h y rfl

theorem dropWhile_isLiteral (h : ∀ y ∈ r.head?, letter? y ≠ none) : r.dropWhile isLiteral = r := by
  cases r with
  | nil => rfl
  | cons y r => simpa [letter?] using h y rfl

theorem tokens_letter (hc : isLiteral c = false) (n : Nat) (hr : r.head? ≠ some c) :
    tokens (List.replicate (n + 1) c ++ r) =
      Token.ofRun (List.replicate (n + 1) c) ++ tokens r := by
  have hc : c = 'Y' ∨ c = 'M' ∨ c = 'D' := by simpa using isLiteral_eq_false_iff.mp hc
  rcases hc with rfl | rfl | rfl
  · rw [tokens_years _ hr, List.replicate_succ, Token.ofRun, List.length_replicate]
  · rw [tokens_months _ hr, List.replicate_succ, Token.ofRun, List.length_replicate]
  · rw [tokens_days _ hr, List.replicate_succ, Token.ofRun, List.length_replicate]

/-- A whole run, if the character after it is not of the run. -/
theorem tokens_run {run : List Char} (hc : ∀ x ∈ run, letter? x = letter? c)
    (hr : ∀ y ∈ r.head?, letter? y ≠ letter? c) :
    tokens (c :: run ++ r) = Token.ofRun (c :: run) ++ tokens r := by
  cases hl : letter? c with
  | none =>
    have hp : ∀ x ∈ run, isLiteral x = true := fun x hx =>
      letter?_eq_none_iff.mp ((hc x hx).trans hl)
    rw [hl] at hr
    have hc : isLiteral c = true := letter?_eq_none_iff.mp hl
    rw [List.cons_append, tokens_of_isLiteral hc, List.takeWhile_append_of_pos hp,
      List.dropWhile_append_of_pos hp, takeWhile_isLiteral hr, dropWhile_isLiteral hr,
      List.append_nil, Token.ofRun_of_isLiteral hc]
    rfl
  | some l =>
    obtain ⟨hn, rfl⟩ := letter?_eq_some_iff.mp hl
    obtain ⟨n, rfl⟩ : ∃ n, run = List.replicate n c :=
      ⟨_, List.eq_replicate_iff.mpr ⟨rfl, fun x hx =>
        (letter?_eq_some_iff.mp ((hc x hx).trans hl)).2⟩⟩
    have hr : r.head? ≠ some c := fun hc => hr c hc rfl
    rw [← List.replicate_succ, tokens_letter hn _ hr]

theorem splitBy_run {run : List Char} (hc : ∀ x ∈ run, letter? x = letter? c)
    (hr : ∀ y ∈ r.head?, letter? y ≠ letter? c) :
    (c :: run ++ r).splitBy sameRun = (c :: run) :: r.splitBy sameRun := by
  have hl : ∀ x ∈ c :: run, letter? x = letter? c := by simpa using hc
  have hs : (c :: run).IsChain fun a b => sameRun a b = true :=
    (List.pairwise_of_forall_mem_list fun a ha b hb => by
      simp [sameRun, hl a ha, hl b hb]).isChain
  rw [List.splitBy_append, List.splitBy_of_isChain (List.cons_ne_nil c run) hs,
    List.singleton_append]
  intro x hx y hy
  simpa [sameRun, hl x (List.mem_of_mem_getLast? hx)] using Ne.symm (hr y hy)

theorem exists_run (c : Char) (cs : List Char) :
    ∃ run rest, cs = run ++ rest ∧ (∀ x ∈ run, letter? x = letter? c) ∧
      ∀ y ∈ rest.head?, letter? y ≠ letter? c := by
  refine ⟨cs.takeWhile fun x => letter? x = letter? c, cs.dropWhile fun x => letter? x = letter? c,
    List.takeWhile_append_dropWhile.symm, ?_, ?_⟩
  · intro x hx
    simpa using List.mem_takeWhile_imp hx
  · intro y hy
    have hd := List.head?_dropWhile_not (fun x => letter? x = letter? c) cs
    rw [hy] at hd
    simpa using hd

/-- A pattern is read run by run. -/
theorem tokens_eq_flatMap (p : List Char) :
    tokens p = (p.splitBy sameRun).flatMap Token.ofRun := by
  match p with
  | [] => simp [tokens]
  | c :: cs =>
    obtain ⟨run, rest, rfl, hc, hr⟩ := exists_run c cs
    calc tokens (c :: run ++ rest)
      _ = Token.ofRun (c :: run) ++ (rest.splitBy sameRun).flatMap Token.ofRun := by
        rw [tokens_run hc hr, tokens_eq_flatMap rest]
      _ = ((c :: run ++ rest).splitBy sameRun).flatMap Token.ofRun := by
        rw [splitBy_run hc hr, List.flatMap_cons]
termination_by p.length

/-- Where no run goes on, patterns are read apart. -/
theorem tokens_append (h : ∀ x ∈ p.getLast?, ∀ y ∈ q.head?, letter? x ≠ letter? y) :
    tokens (p ++ q) = tokens p ++ tokens q := by
  have hs : ∀ x ∈ p.getLast?, ∀ y ∈ q.head?, sameRun x y = false := by simpa [sameRun] using h
  simp only [tokens_eq_flatMap, List.splitBy_append hs, List.flatMap_append]

/-- Nothing of a pattern is lost. -/
theorem flatMap_spelling_tokens (p : List Char) :
    (tokens p).flatMap (·.spelling.toList) = p := by
  induction p using tokens.induct with
  | case1 => simp [tokens]
  | _ => simp_all [tokens, Token.spelling]

/-! Rendering. -/

def renderAll? (d : Date) (ts : List Token) : Option String :=
  (ts.mapM (Token.render? d)).map String.join

theorem renderAll?_append (d : Date) (ts us : List Token) :
    renderAll? d (ts ++ us) = do return (← renderAll? d ts) ++ (← renderAll? d us) := by
  rw [renderAll?, List.mapM_append, renderAll?, renderAll?]
  cases ts.mapM (Token.render? d) with
  | none => rfl
  | some ss => cases us.mapM (Token.render? d) <;> simp

theorem renderAll?_literal (d : Date) (s : String) (ts : List Token) :
    renderAll? d (.literal s :: ts) = (renderAll? d ts).map (s ++ ·) := by
  rw [renderAll?, renderAll?, List.mapM_cons]
  cases ts.mapM (Token.render? d) <;> simp [Token.render?]

/-- Other characters are written as they are, one by one. -/
theorem renderAll?_tokens_cons (hc : isLiteral c = true) (d : Date) (q : List Char) :
    renderAll? d (tokens (c :: q)) = (renderAll? d (tokens q)).map (String.singleton c ++ ·) := by
  rw [tokens_of_isLiteral hc, renderAll?_literal]
  cases q with
  | nil => simp
  | cons x q =>
    cases hx : isLiteral x with
    | true =>
      rw [tokens_of_isLiteral hx, renderAll?_literal, Option.map_map, List.takeWhile_cons_of_pos hx,
        List.dropWhile_cons_of_pos hx]
      refine Option.map_congr fun s _ => ?_
      simp [String.append_assoc]
    | false => simp [hx]

/-- Patterns can be rendered apart unless a letter of the one is of a run that goes on in the other.
The induction is from the end of the first one, because a run of other characters may go on too. -/
theorem renderAll?_tokens_append (d : Date)
    (h : ∀ x ∈ p.getLast?, x ∈ q.head? → isLiteral x = true) :
    renderAll? d (tokens (p ++ q)) =
      do return (← renderAll? d (tokens p)) ++ (← renderAll? d (tokens q)) := by
  induction p using List.reverseRecOn generalizing q with
  | nil => simp [tokens, renderAll?]
  | append_singleton p c ih =>
    cases hc : isLiteral c with
    | true =>
      have hq (q : List Char) : ∀ x ∈ p.getLast?, x ∈ (c :: q).head? → isLiteral x = true := by
        rintro x - hx
        obtain rfl : c = x := by simpa using hx
        exact hc
      have hn : renderAll? d (tokens []) = some "" := by simp [tokens, renderAll?]
      rw [List.append_assoc, List.singleton_append, ih (hq q), ih (hq []),
        renderAll?_tokens_cons hc, renderAll?_tokens_cons hc, hn]
      cases renderAll? d (tokens p) with
      | none => rfl
      | some s =>
        cases renderAll? d (tokens q) with
        | none => rfl
        | some t =>
          have ht : s ++ (String.singleton c ++ t) = s ++ (String.singleton c ++ "") ++ t := by
            rw [String.append_empty, String.append_assoc]
          exact congrArg some ht
    | false =>
      rw [tokens_append ?_, renderAll?_append]
      intro x hx y hy he
      obtain rfl : c = x := by simpa using hx
      rw [letter?_eq_some_iff.mpr ⟨hc, rfl⟩, eq_comm, letter?_eq_some_iff] at he
      have hl := h c hx (he.2 ▸ hy)
      rw [hc] at hl
      cases hl

/-- A date is rendered by what its tokens stand for, in order. -/
theorem renderAll?_eq_some_iff {ts : List Token} {s : String} : renderAll? d ts = some s ↔
    ∃ parts, List.Forall₂ (fun t part => t.render? d = some part) ts parts ∧
      s = String.join parts := by
  simp only [renderAll?, Option.map_eq_some_iff, mapM_eq_some_iff, eq_comm (a := s)]

/-- The tokens of a pattern are spelled as the pattern is, and are those of its runs one by one. A
date is rendered by the parts that they stand for, and by two patterns in turn as by both together
unless a run of letters goes on from the first one to the second one. -/
theorem tokens_runs (p : String) :
    String.join ((tokens p.toList).map Token.spelling) = p ∧
    tokens p.toList = (p.toList.splitBy sameRun).flatMap Token.ofRun ∧
    (∀ d s, format? d p = some s ↔
      ∃ parts, List.Forall₂ (fun t part => t.render? d = some part) (tokens p.toList) parts ∧
        s = String.join parts) ∧
    ∀ d q, (∀ c ∈ ['Y', 'M', 'D'], p.toList.getLast? = some c → q.toList.head? ≠ some c) →
      format? d (p ++ q) = do return (← format? d p) ++ (← format? d q) := by
  refine ⟨?_, tokens_eq_flatMap _, fun d s => renderAll?_eq_some_iff, ?_⟩
  · refine String.toList_injective ?_
    rw [String.toList_join, List.flatMap_map, flatMap_spelling_tokens]
  · intro d q h
    have hl : ∀ x ∈ p.toList.getLast?, x ∈ q.toList.head? → isLiteral x = true := by
      intro x hp hq
      by_contra hx
      exact h x (isLiteral_eq_false_iff.mp (Bool.not_eq_true _ ▸ hx)) hp hq
    have ha : format? d (p ++ q) = renderAll? d (tokens (p.toList ++ q.toList)) :=
      congrArg (fun cs => renderAll? d (tokens cs)) String.toList_append
    exact ha.trans (renderAll?_tokens_append d hl)

/-- Five letters for a year, three for a day, and other characters on both sides of the seam. -/
theorem tokens_runs_odd :
    let d : Date := ⟨some "2010", some "1", some "5"⟩
    tokens "YYYYYMMM, ".toList = [.year, .literal "Y", .monthAbbrev, .literal ", "] ∧
      (∀ c ∈ ['Y', 'M', 'D'], "YYYYYMMM, ".toList.getLast? = some c →
        "'DDD".toList.head? ≠ some c) ∧
      format? d ("YYYYYMMM, " ++ "'DDD") = some "2010YJan, '055" := by
  intro d
  obtain ⟨-, ht, hp, hs⟩ := tokens_runs "YYYYYMMM, "
  obtain ⟨-, ht', hp', -⟩ := tokens_runs "'DDD"
  have hr : tokens "YYYYYMMM, ".toList = [.year, .literal "Y", .monthAbbrev, .literal ", "] :=
    ht.trans (by decide)
  have hr' : tokens "'DDD".toList = [.literal "'", .paddedDay, .day] := ht'.trans (by decide)
  have hq : ∀ c ∈ ['Y', 'M', 'D'], "YYYYYMMM, ".toList.getLast? = some c →
      "'DDD".toList.head? ≠ some c := by simp
  have hm : Token.render? d .monthAbbrev = some "Jan" := by decide
  have hf : format? d "YYYYYMMM, " = some "2010YJan, " :=
    (hp d _).mpr ⟨["2010", "Y", "Jan", ", "],
      hr ▸ .cons rfl (.cons rfl (.cons hm (.cons rfl .nil))), by decide⟩
  have hf' : format? d "'DDD" = some "'055" :=
    (hp' d _).mpr ⟨["'", "05", "5"], by rw [hr']; decide, by decide⟩
  refine ⟨hr, hq, ?_⟩
  rw [hs d _ hq, hf, hf']
  decide

end Stylebook.Date
