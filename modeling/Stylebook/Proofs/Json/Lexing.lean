import Mathlib
import Stylebook.Json.Lexeme
import Stylebook.Json.Layout
import Stylebook.Proofs.Table

/-! # Texts and their lexemes

What a text stands for does not depend on what has been read before it, and a mark ends whatever
stands before it. So texts that are put together by marks stand for the lexemes of their parts.
-/

namespace Stylebook.Json

namespace Lexing

/-- The text stands for the lexemes wherever no word or number runs into it. -/
def Reads (cs : List Char) (ls : List Lexeme) : Prop :=
  ∀ done, ∃ l, cs.foldlM step? ⟨.between, done⟩ = some l ∧ l.flush? = some (ls.reverse ++ done)

/-- A character that is a lexeme by itself, and ends what stands before it. -/
structure Mark (c : Char) (x : Lexeme) : Prop where

  word : inWord c = false

  number : inNumber c = false

  start? (done : List Lexeme) : start? c done = some ⟨.between, x :: done⟩

theorem mark_objectEnd : Mark '\x7d' .objectEnd := ⟨rfl, rfl, fun _ => rfl⟩

theorem mark_arrayEnd : Mark ']' .arrayEnd := ⟨rfl, rfl, fun _ => rfl⟩

theorem mark_comma : Mark ',' .comma := ⟨rfl, rfl, fun _ => rfl⟩

theorem mark_colon : Mark ':' .colon := ⟨rfl, rfl, fun _ => rfl⟩

theorem mark_objectStart : Mark '\x7b' .objectStart := ⟨rfl, rfl, fun _ => rfl⟩

theorem mark_arrayStart : Mark '[' .arrayStart := ⟨rfl, rfl, fun _ => rfl⟩

section Reads

variable {cs cs' : List Char} {ls ls' : List Lexeme} {c : Char} {x : Lexeme}

theorem Mark.step?_eq {l : Lexing} {done : List Lexeme} (hc : Mark c x)
    (hl : l.flush? = some done) : l.step? c = some ⟨.between, x :: done⟩ := by
  rw [← hc.start?]
  match l with
  | ⟨.between, _⟩ => cases hl; rfl
  | ⟨.word cs, _⟩ => simp [step?, hc.word, hl]
  | ⟨.number cs, _⟩ => simp [step?, hc.number, hl]

theorem reads_nil : Reads [] [] := fun done => ⟨⟨.between, done⟩, rfl, rfl⟩

theorem Reads.mark (h : Reads cs ls) (hc : Mark c x) (h' : Reads cs' ls') :
    Reads (cs ++ c :: cs') (ls ++ x :: ls') := by
  intro done
  obtain ⟨l, hl, hf⟩ := h done
  obtain ⟨l', hl', hf'⟩ := h' (x :: (ls.reverse ++ done))
  refine ⟨l', ?_, by simpa using hf'⟩
  rw [foldlM_append_of_eq_some hl, List.foldlM_cons, hc.step?_eq hf]
  exact hl'

theorem Reads.before (hc : Mark c x) (h : Reads cs ls) : Reads (c :: cs) (x :: ls) :=
  reads_nil.mark hc h

theorem Reads.after (h : Reads cs ls) (hc : Mark c x) : Reads (cs ++ [c]) (ls ++ [x]) :=
  h.mark hc reads_nil

theorem reads_intercalate {css : List (List Char)} {lss : List (List Lexeme)}
    (h : List.Forall₂ Reads css lss) :
    Reads ([','].intercalate css) ([.comma].intercalate lss) := by
  induction h with
  | nil => exact reads_nil
  | @cons cs ls css lss h hs ih =>
    cases hs with
    | nil => simpa only [List.intercalate_singleton] using h
    | cons _ _ =>
      rw [List.intercalate_cons_cons, List.intercalate_cons_cons, List.append_assoc,
        List.append_assoc]
      exact h.mark mark_comma ih

end Reads

/-- The lexing that starts after other lexemes. -/
def upon (l : Lexing) (done : List Lexeme) : Lexing := ⟨l.mode, l.done ++ done⟩

theorem start?_upon (c : Char) (done done' : List Lexeme) :
    start? c (done ++ done') = (start? c done).map (·.upon done') := by
  unfold start?
  split <;> first | rfl | (split_ifs <;> rfl)

theorem flush?_upon (l : Lexing) (done : List Lexeme) :
    (l.upon done).flush? = l.flush?.map (· ++ done) := by
  obtain ⟨mode, before⟩ := l
  cases mode <;> simp [upon, flush?, Function.comp_def]

theorem step?_upon (l : Lexing) (done : List Lexeme) (c : Char) :
    (l.upon done).step? c = (l.step? c).map (·.upon done) := by
  have hf : (l.upon done).flush? >>= start? c = (l.flush? >>= start? c).map (·.upon done) := by
    rw [flush?_upon]
    cases l.flush? with
    | none => rfl
    | some before => exact start?_upon c before done
  obtain ⟨mode, before⟩ := l
  cases mode with
  | between => exact start?_upon c before done
  | word cs =>
    simp only [step?, upon] at hf ⊢
    split
    · rfl
    · exact hf
  | number cs =>
    simp only [step?, upon] at hf ⊢
    split
    · rfl
    · exact hf
  | string ps =>
    simp only [step?, upon]
    split_ifs <;> rfl
  | escape ps =>
    simp only [step?, upon]
    split_ifs
    · rfl
    · simp [Function.comp_def]
  | unit ps digits n =>
    simp only [step?, upon, Option.map_map]
    congr 1
    funext h
    simp only [Function.comp_apply]
    split_ifs <;> rfl

theorem foldlM_upon {cs : List Char} {l l' : Lexing} (h : cs.foldlM step? l = some l')
    (done : List Lexeme) : cs.foldlM step? (l.upon done) = some (l'.upon done) := by
  induction cs generalizing l with
  | nil => cases h; rfl
  | cons c cs ih =>
    obtain ⟨l₁, h₁, h⟩ := Option.bind_eq_some_iff.mp h
    rw [List.foldlM_cons, step?_upon, h₁]
    exact ih h

theorem reads_of_lexemes? {cs : List Char} {ls : List Lexeme}
    (h : lexemes? (cs.map some) = some ls) : Reads cs ls := by
  simp only [lexemes?, Option.map_eq_some_iff, Option.bind_eq_bind, Option.bind_eq_some_iff,
    List.foldlM_map] at h
  obtain ⟨_, ⟨l, hl, hf⟩, rfl⟩ := h
  intro done
  refine ⟨l.upon done, foldlM_upon hl done, ?_⟩
  rw [flush?_upon, hf, Option.map_some, List.reverse_reverse]

theorem Reads.lexemes? {cs : List Char} {ls : List Lexeme} (h : Reads cs ls) :
    lexemes? (cs.map some) = some ls := by
  obtain ⟨l, hl, hf⟩ := h []
  have hl' : cs.foldlM (fun l c => l.stepUnit? (some c)) ⟨.between, []⟩ = some l := hl
  rw [Json.lexemes?, List.foldlM_map, hl', Option.bind_eq_bind, Option.bind_some, hf]
  simp

/-! Strings. -/

/-- What a character of a string is read as: the control characters without a letter of their own
are written as units. -/
def piece (c : Char) : Piece :=
  if c ∈ ['\n', '\r', '\t', '\x08', '\x0c'] then .char c
  else if c.toNat < 0x20 then .unit c.toNat
  else .char c

theorem hexValue?_hexDigit : ∀ n < 16, hexValue? (hexDigit n) = some n := by decide

theorem foldlM_escape (c : Char) (ps : List Piece) (done : List Lexeme) :
    (escape c).foldlM step? ⟨.string ps, done⟩ = some ⟨.string (piece c :: ps), done⟩ := by
  unfold escape
  split
  case h_8 _ h₁ h₂ h₃ h₄ h₅ h₆ h₇ =>
    split
    · next hc =>
      have hz : hexValue? '0' = some 0 := rfl
      have h₁ := hexValue?_hexDigit (c.toNat / 16) (by omega)
      have h₂ := hexValue?_hexDigit (c.toNat % 16) (by omega)
      have hp : piece c = .unit c.toNat := by simp_all [piece]
      simp [step?, hz, h₁, h₂, hp, Nat.div_add_mod]
    · next hc =>
      have hp : piece c = .char c := by simp [piece, hc]
      simp_all [step?]
  all_goals rfl

theorem foldlM_flatMap_escape (cs : List Char) (ps : List Piece) (done : List Lexeme) :
    (cs.flatMap escape).foldlM step? ⟨.string ps, done⟩ =
      some ⟨.string ((cs.map piece).reverse ++ ps), done⟩ := by
  induction cs generalizing ps with
  | nil => rfl
  | cons c cs ih =>
    rw [List.flatMap_cons, foldlM_append_of_eq_some (foldlM_escape c ps done), ih]
    simp

theorem reads_quoted (s : String) : Reads (quoted s).toList [.string (s.toList.map piece)] := by
  intro done
  refine ⟨⟨.between, .string (s.toList.map piece) :: done⟩, ?_, rfl⟩
  have hq : ['"'].foldlM step? ⟨.between, done⟩ = some ⟨.string [], done⟩ := rfl
  rw [quoted, String.toList_ofList, List.cons_append, ← List.singleton_append,
    foldlM_append_of_eq_some hq, foldlM_append_of_eq_some (foldlM_flatMap_escape _ _ _)]
  simp [step?]

end Lexing

theorem string?_map_piece (s : String) : string? (s.toList.map Lexing.piece) = some s := by
  have h (cs : List Char) : text? (cs.map Lexing.piece) = some cs := by
    induction cs with
    | nil => rfl
    | cons c cs ih =>
      rw [List.map_cons, Lexing.piece]
      split
      · rw [text?, ih, Option.map_some]
      · split
        · next hc =>
          rw [text?.eq_def]
          simp only [if_pos (Or.inl (show c.toNat < 0xD800 by omega)), ih, Option.map_some,
            Char.ofNat_toNat]
        · rw [text?, ih, Option.map_some]
  rw [string?, h, Option.map_some, String.ofList_toList]

/-! Integers. -/

theorem Lexing.reads_number {c : Char} {cs : List Char} {t : NumberText}
    (hc : c = '-' ∨ c.isDigit = true) (hcs : ∀ c ∈ cs, inNumber c = true)
    (ht : NumberText.ofChars? (c :: cs) = some t) : Reads (c :: cs) [.number t] := by
  have hs (done : List Lexeme) : step? ⟨.between, done⟩ c = some ⟨.number [c], done⟩ := by
    show start? c done = _
    unfold start?
    split <;> simp_all
  have hr (read : List Char) (done : List Lexeme) :
      cs.foldlM step? ⟨.number read, done⟩ = some ⟨.number (cs.reverse ++ read), done⟩ := by
    clear ht
    induction cs generalizing read with
    | nil => rfl
    | cons d cs ih =>
      obtain ⟨hd, hcs⟩ := List.forall_mem_cons.mp hcs
      simp [step?, hd, ih hcs]
  intro done
  refine ⟨⟨.number (cs.reverse ++ [c]), done⟩, ?_, ?_⟩
  · rw [List.foldlM_cons, hs, Option.bind_eq_bind, Option.bind_some, hr]
  · simp [flush?, ht]

theorem eq_nil_of_toDigits_eq {n : Nat} {cs : List Char} (h : Nat.toDigits 10 n = '0' :: cs) :
    cs = [] := by
  induction n using Nat.strongRecOn generalizing cs with
  | ind n ih =>
    by_cases hn : n < 10
    · rw [Nat.toDigits_of_lt_base hn] at h
      exact (List.cons.inj h).2.symm
    · rw [Nat.toDigits_of_base_le (by decide) (by omega)] at h
      -- the digits of the tenth are a zero alone, so there is no tenth
      obtain ⟨c, ds, hd⟩ := List.exists_cons_of_ne_nil (Nat.toDigits_ne_nil (n := n / 10) (b := 10))
      rw [hd, List.cons_append] at h
      obtain ⟨rfl, -⟩ := List.cons.inj h
      have hv := Nat.ofDigitChars_toDigits (n := n / 10) (b := 10) (by decide) (by decide)
      rw [hd, ih (n / 10) (by omega) hd] at hv
      have : Nat.ofDigitChars 10 ['0'] 0 = 0 := rfl
      omega

theorem isDigit_of_mem_toDigits {n : Nat} {c : Char} (h : c ∈ Nat.toDigits 10 n) :
    c.isDigit = true := Nat.isDigit_of_mem_toDigits (by decide) (by decide) h

theorem inNumber_of_mem_toDigits {n : Nat} {c : Char} (h : c ∈ Nat.toDigits 10 n) :
    Lexing.inNumber c = true := by
  rw [Lexing.inNumber, isDigit_of_mem_toDigits h, Bool.true_or]

theorem NumberText.unsigned?_toDigits (negative : Bool) (n : Nat) :
    unsigned? negative (Nat.toDigits 10 n) = some ⟨negative, Nat.toDigits 10 n, none, none⟩ := by
  have hw : (Nat.toDigits 10 n).takeWhile Char.isDigit = Nat.toDigits 10 n :=
    List.takeWhile_eq_self_iff.mpr fun c => isDigit_of_mem_toDigits
  have hr : (Nat.toDigits 10 n).dropWhile Char.isDigit = [] :=
    List.dropWhile_eq_nil_iff.mpr fun c => isDigit_of_mem_toDigits
  rw [unsigned?, hw, hr, if_neg]
  · rfl
  · rintro (h | ⟨hh, hl⟩)
    · exact Nat.toDigits_ne_nil h
    · obtain ⟨cs, hd⟩ := List.head?_eq_some_iff.mp hh
      rw [hd, eq_nil_of_toDigits_eq hd] at hl
      exact hl rfl

theorem ofDigits_toDigits (n : Nat) : Number.ofDigits (Nat.toDigits 10 n) = n :=
  Nat.ofDigitChars_toDigits (by decide) (by decide)

theorem toList_toString_ofNat (n : Nat) : (toString (n : Int)).toList = Nat.toDigits 10 n := by
  show (Int.repr n).toList = _
  rw [Int.repr_eq_if, if_pos (by omega), Int.toNat_natCast, Nat.repr_eq_ofList_toDigits,
    String.toList_ofList]

theorem toList_toString_negSucc (n : Nat) :
    (toString (Int.negSucc n)).toList = '-' :: Nat.toDigits 10 (n + 1) := by
  show (Int.repr (Int.negSucc n)).toList = _
  rw [Int.repr_eq_if, if_neg (by omega), Int.neg_negSucc, Int.toNat_natCast,
    Nat.repr_eq_ofList_toDigits, String.toList_append]
  exact congrArg _ String.toList_ofList

open Lexing in
theorem exists_numberText_int {n : Int} (hl : -2 ^ 63 ≤ n) (hu : n < 2 ^ 64) :
    ∃ t, Reads (toString n).toList [.number t] ∧ t.value? = some (.int n) := by
  cases n with
  | ofNat m =>
    refine ⟨⟨false, Nat.toDigits 10 m, none, none⟩, ?_, ?_⟩
    · rw [Int.ofNat_eq_natCast, toList_toString_ofNat]
      have hu := NumberText.unsigned?_toDigits false m
      obtain ⟨c, cs, hd⟩ := List.exists_cons_of_ne_nil (Nat.toDigits_ne_nil (n := m) (b := 10))
      have hc : c.isDigit = true := isDigit_of_mem_toDigits (n := m) (hd ▸ List.mem_cons_self)
      have hcs (c : Char) (hc : c ∈ cs) : inNumber c = true :=
        inNumber_of_mem_toDigits (n := m) (hd ▸ List.mem_cons_of_mem _ hc)
      rw [hd] at hu ⊢
      refine reads_number (.inr hc) hcs ?_
      rw [← hu, NumberText.ofChars?]
      rintro cs h
      cases h
      exact absurd hc (by decide)
    · have hm : m ≤ NumberText.maxWord := by
        have : NumberText.maxWord = 2 ^ 64 - 1 := rfl
        have : Int.ofNat m = m := rfl
        omega
      simp [NumberText.value?, ofDigits_toDigits, hm]
  | negSucc m =>
    refine ⟨⟨true, Nat.toDigits 10 (m + 1), none, none⟩, ?_, ?_⟩
    · rw [toList_toString_negSucc]
      exact reads_number (.inl rfl) (fun c hc => inNumber_of_mem_toDigits hc)
        (NumberText.unsigned?_toDigits true (m + 1))
    · have hm : m + 1 ≤ Nat.pow 2 63 := by
        have : Nat.pow 2 63 = 2 ^ 63 := rfl
        omega
      simp [NumberText.value?, ofDigits_toDigits, hm]
      omega

end Stylebook.Json
