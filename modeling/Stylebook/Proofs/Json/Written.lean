import Mathlib
import Stylebook.Json.Outline
import Stylebook.Proofs.Json.Lexing
import Stylebook.Proofs.Json.Sorted

/-! # What is written is read back

The reader takes a text apart in three steps: into lexemes, these into an outline, and the outline
into a value. Each step undoes one part of the writing, and a value that is not nested too deep
comes back from its text, if its floats do.
-/

namespace Stylebook.Json

namespace Outline

namespace State

theorem step?_ne_value (s : State) (l : Lexeme) : s.step? l ≠ some (.value []) := by
  intro h
  unfold step? at h
  split at h <;> first | cases h | (unfold begin? at h; split at h <;> cases h)

/-- A number that stands by itself is not the end of anything. -/
theorem eq_of_step?_number {s : State} {l : Lexeme} {t : NumberText}
    (h : s.step? l = some (.after [] (.number t))) : s = .value [] ∧ l = .number t := by
  unfold step? at h
  split at h <;> try cases h
  all_goals
    unfold begin? at h
    split at h <;> cases h
  exact ⟨rfl, rfl⟩

theorem eq_of_finish? {s : State} {o : Outline} (h : s.finish? = some o) : s = .after [] o := by
  unfold finish? at h
  split at h
  · cases h; rfl
  · cases h

end State

theorem eq_of_ofLexemes?_number {ls : List Lexeme} {t : NumberText}
    (h : ofLexemes? ls = some (.number t)) : ls = [.number t] := by
  obtain ⟨s, hs, hf⟩ := Option.bind_eq_some_iff.mp h
  obtain rfl := State.eq_of_finish? hf
  cases ls using List.reverseRecOn with
  | nil => cases hs
  | append_singleton ls l =>
    obtain ⟨s, hs', hl⟩ := foldlM_append_singleton_eq_some_iff.mp hs
    obtain ⟨rfl, rfl⟩ := State.eq_of_step?_number hl
    cases ls using List.reverseRecOn with
    | nil => rfl
    | append_singleton ls l' =>
      obtain ⟨s, -, hl'⟩ := foldlM_append_singleton_eq_some_iff.mp hs'
      exact absurd hl' (s.step?_ne_value l')

end Outline

/-- The float comes back from its text. -/
def ReadsBack (x : Float) : Prop := read? (Number.written x) = some (.num (.float x))

open Lexing in
theorem exists_numberText_float {x : Float} (h : ReadsBack x) :
    ∃ t, Reads (Number.written x).toList [.number t] ∧ t.value? = some (.float x) := by
  obtain ⟨o, ho, hv⟩ := Option.bind_eq_some_iff.mp h
  obtain ⟨ls, hl, ho⟩ := Option.bind_eq_some_iff.mp ho
  unfold Outline.value? at hv
  split at hv <;> simp at hv
  next t _ =>
  rw [Outline.eq_of_ofLexemes?_number ho] at hl
  exact ⟨t, reads_of_lexemes? hl, hv⟩

/-! Containers. -/

theorem intercalate_cons_eq {α : Type} (sep xs : List α) (xss : List (List α)) :
    sep.intercalate (xs :: xss) = xs ++ xss.flatMap (sep ++ ·) := by
  induction xss generalizing xs with
  | nil => simp
  | cons ys yss ih =>
    rw [List.intercalate_cons_cons, ih, List.flatMap_cons]
    simp only [List.append_assoc]

namespace Outline

/-- The lexemes are put together to the outline wherever a value may stand. -/
structure Builds (ls : List Lexeme) (o : Outline) : Prop where

  value (fs : List Frame) : ls.foldlM State.step? (.value fs) = some (.after fs o)

  firstItem (fs : List Frame) :
    ls.foldlM State.step? (.firstItem fs) = some (.after (.arr [] :: fs) o)

variable {α : Type} {ls : α → List Lexeme} {o : α → Outline} {xs : List α}

theorem foldlM_items (h : ∀ x ∈ xs, Builds (ls x) (o x)) (fs : List Frame) (done : List Outline)
    (v : Outline) :
    (xs.flatMap (fun x => [Lexeme.comma] ++ ls x) ++ [Lexeme.arrayEnd]).foldlM State.step?
      (.after (.arr done :: fs) v) = some (.after fs (.arr (done.reverse ++ v :: xs.map o))) := by
  induction xs generalizing done v with
  | nil => simp [State.step?]
  | cons x xs ih =>
    obtain ⟨hx, h⟩ := List.forall_mem_cons.mp h
    have hs : [Lexeme.comma].foldlM State.step? (.after (.arr done :: fs) v) =
      some (.value (.arr (v :: done) :: fs)) := rfl
    rw [List.flatMap_cons, List.append_assoc, List.append_assoc, foldlM_append_of_eq_some hs,
      foldlM_append_of_eq_some (hx.value _), ih h]
    simp

theorem builds_arr (h : ∀ x ∈ xs, Builds (ls x) (o x)) :
    Builds (.arrayStart :: ([.comma].intercalate (xs.map ls) ++ [.arrayEnd]))
      (.arr (xs.map o)) := by
  have hb (fs : List Frame) :
      ([Lexeme.comma].intercalate (xs.map ls) ++ [Lexeme.arrayEnd]).foldlM State.step?
        (.firstItem fs) = some (.after fs (.arr (xs.map o))) := by
    cases xs with
    | nil => rfl
    | cons x xs =>
      obtain ⟨hx, h⟩ := List.forall_mem_cons.mp h
      rw [List.map_cons, intercalate_cons_eq, List.append_assoc,
        foldlM_append_of_eq_some (hx.firstItem _), List.flatMap_map, foldlM_items h]
      rfl
  exact ⟨fun fs => hb fs, fun fs => hb (.arr [] :: fs)⟩

variable {key : α → List Piece}

def memberLexemes (k : List Piece) (ls : List Lexeme) : List Lexeme := .string k :: .colon :: ls

theorem foldlM_members (h : ∀ x ∈ xs, Builds (ls x) (o x)) (fs : List Frame)
    (done : List (List Piece × Outline)) (k : List Piece) (v : Outline) :
    (xs.flatMap (fun x => [Lexeme.comma] ++ memberLexemes (key x) (ls x)) ++
      [Lexeme.objectEnd]).foldlM State.step? (.after (.obj done k :: fs) v) =
        some (.after fs (.obj (done.reverse ++ (k, v) :: xs.map fun x => (key x, o x)))) := by
  induction xs generalizing done k v with
  | nil => simp [State.step?]
  | cons x xs ih =>
    obtain ⟨hx, h⟩ := List.forall_mem_cons.mp h
    have hs (r : List Lexeme) :
        (Lexeme.comma :: (memberLexemes (key x) (ls x) ++ r)).foldlM State.step?
          (.after (.obj done k :: fs) v) =
        (ls x ++ r).foldlM State.step? (.value (.obj ((k, v) :: done) (key x) :: fs)) := rfl
    rw [List.flatMap_cons, List.append_assoc, List.append_assoc, List.singleton_append, hs,
      foldlM_append_of_eq_some (hx.value _), ih h]
    simp

theorem builds_obj (h : ∀ x ∈ xs, Builds (ls x) (o x)) :
    Builds (.objectStart ::
        ([.comma].intercalate (xs.map fun x => memberLexemes (key x) (ls x)) ++ [.objectEnd]))
      (.obj (xs.map fun x => (key x, o x))) := by
  have hb (fs : List Frame) :
      ([Lexeme.comma].intercalate (xs.map fun x => memberLexemes (key x) (ls x)) ++
        [Lexeme.objectEnd]).foldlM State.step? (.firstKey fs) =
          some (.after fs (.obj (xs.map fun x => (key x, o x)))) := by
    cases xs with
    | nil => rfl
    | cons x xs =>
      obtain ⟨hx, h⟩ := List.forall_mem_cons.mp h
      have hs (r : List Lexeme) :
          (memberLexemes (key x) (ls x) ++ r).foldlM State.step? (.firstKey fs) =
            (ls x ++ r).foldlM State.step? (.value (.obj [] (key x) :: fs)) := rfl
      rw [List.map_cons, intercalate_cons_eq, List.append_assoc, hs,
        foldlM_append_of_eq_some (hx.value _), List.flatMap_map, foldlM_members h]
      rfl
  exact ⟨fun fs => hb fs, fun fs => hb (.arr [] :: fs)⟩

end Outline

theorem compactAll_eq_map (xs : List Json) : compactAll xs = xs.map compact := by
  induction xs with
  | nil => rfl
  | cons x xs ih => rw [compactAll, ih, List.map_cons]

theorem compactMembers_eq_map (ms : List (String × Json)) :
    compactMembers ms = ms.map fun m => quoted m.1 ++ ":" ++ m.2.compact := by
  induction ms with
  | nil => rfl
  | cons m ms ih => rw [compactMembers, ih, List.map_cons]

/-! Values. -/

/-- At most `d` containers stand inside one another, and integers have 64 bits. -/
inductive Fits : Nat → Json → Prop where

  | null {d : Nat} : Fits d null

  | bool {d : Nat} (b : Bool) : Fits d (bool b)

  | str {d : Nat} (s : String) : Fits d (str s)

  | float {d : Nat} (x : Float) : Fits d (num (.float x))

  | int {d : Nat} {n : Int} : -2 ^ 63 ≤ n → n < 2 ^ 64 → Fits d (num (.int n))

  | arr {d : Nat} {xs : List Json} : (∀ x ∈ xs, Fits d x) → Fits (d + 1) (arr xs)

  | obj {d : Nat} {ms : List (String × Json)} : (∀ m ∈ ms, Fits d m.2) → Fits (d + 1) (obj ms)

/-- The float stands somewhere in the value. -/
inductive HasFloat (x : Float) : Json → Prop where

  | num : HasFloat x (num (.float x))

  | arr {xs : List Json} {y : Json} : y ∈ xs → HasFloat x y → HasFloat x (arr xs)

  | obj {ms : List (String × Json)} {m : String × Json} : m ∈ ms → HasFloat x m.2 →
      HasFloat x (obj ms)

/-- What the reader makes of the text of a value on its way. -/
structure Spelt (d : Nat) (v : Json) (ls : List Lexeme) (o : Outline) : Prop where

  reads : Lexing.Reads v.compact.toList ls

  builds : Outline.Builds ls o

  value : o.value? d = some v

open Lexing in
theorem spelt_arr {d : Nat} {xs : List Json} {ls : Json → List Lexeme} {o : Json → Outline}
    (h : ∀ x ∈ xs, Spelt d x (ls x) (o x)) :
    Spelt (d + 1) (arr xs) (.arrayStart :: ([.comma].intercalate (xs.map ls) ++ [.arrayEnd]))
      (.arr (xs.map o)) where
  reads := by
    have hr : List.Forall₂ Reads (xs.map fun x => x.compact.toList) (xs.map ls) :=
      List.forall₂_map_left_iff.mpr (List.forall₂_map_right_iff.mpr
        (List.forall₂_same.mpr fun x hx => (h x hx).reads))
    have hc : (arr xs).compact.toList =
        '[' :: ([','].intercalate (xs.map fun x => x.compact.toList) ++ [']']) := by
      rw [compact, compactAll_eq_map]
      simp [String.toList_append, String.toList_intercalate, Function.comp_def]
    rw [hc]
    exact ((reads_intercalate hr).after mark_arrayEnd).before mark_arrayStart
  builds := Outline.builds_arr fun x hx => (h x hx).builds
  value := by
    have hm : (xs.map o).mapM (Outline.value? d) = some xs := by
      rw [mapM_eq_some_iff, List.forall₂_map_left_iff]
      exact List.forall₂_same.mpr fun x hx => (h x hx).value
    rw [Outline.value?, hm, Option.map_some]

open Lexing in
theorem spelt_obj {d : Nat} {ms : List (String × Json)} {ls : String × Json → List Lexeme}
    {o : String × Json → Outline} (h : ∀ m ∈ ms, Spelt d m.2 (ls m) (o m)) :
    Spelt (d + 1) (obj ms)
      (.objectStart :: ([.comma].intercalate
        (ms.map fun m => Outline.memberLexemes (m.1.toList.map piece) (ls m)) ++ [.objectEnd]))
      (.obj (ms.map fun m => (m.1.toList.map piece, o m))) where
  reads := by
    have hr : List.Forall₂ Reads
        (ms.map fun m => (quoted m.1).toList ++ ':' :: m.2.compact.toList)
        (ms.map fun m => Outline.memberLexemes (m.1.toList.map piece) (ls m)) :=
      List.forall₂_map_left_iff.mpr (List.forall₂_map_right_iff.mpr
        (List.forall₂_same.mpr fun m hm => (reads_quoted m.1).mark mark_colon (h m hm).reads))
    have hc : (obj ms).compact.toList =
        '\x7b' :: ([','].intercalate
          (ms.map fun m => (quoted m.1).toList ++ ':' :: m.2.compact.toList) ++ ['\x7d']) := by
      rw [compact, compactMembers_eq_map]
      simp [String.toList_append, String.toList_intercalate, Function.comp_def]
    rw [hc]
    exact ((reads_intercalate hr).after mark_objectEnd).before mark_objectStart
  builds := Outline.builds_obj fun m hm => (h m hm).builds
  value := by
    have hm : (ms.map fun m => (m.1.toList.map piece, o m)).mapM
        (fun m : List Piece × Outline => do pure (← string? m.1, ← m.2.value? d)) = some ms := by
      rw [mapM_eq_some_iff, List.forall₂_map_left_iff]
      refine List.forall₂_same.mpr fun m hm => ?_
      rw [string?_map_piece, (h m hm).value]
      rfl
    rw [Outline.value?, hm, Option.map_some]

theorem exists_spelt {d : Nat} {v : Json} (hf : v.Fits d)
    (hx : ∀ x, v.HasFloat x → ReadsBack x) : ∃ ls o, Spelt d v ls o := by
  have : Nonempty Outline := ⟨.null⟩
  induction v using induction generalizing d with
  | null =>
    refine ⟨[.null], .null, fun done => ?_, ⟨fun _ => rfl, fun _ => rfl⟩, by rw [Outline.value?]⟩
    exact ⟨⟨.word ['l', 'l', 'u', 'n'], done⟩, rfl, rfl⟩
  | bool b =>
    refine ⟨[.bool b], .bool b, fun done => ?_, ⟨fun _ => rfl, fun _ => rfl⟩,
      by rw [Outline.value?]⟩
    cases b with
    | false => exact ⟨⟨.word ['e', 's', 'l', 'a', 'f'], done⟩, rfl, rfl⟩
    | true => exact ⟨⟨.word ['e', 'u', 'r', 't'], done⟩, rfl, rfl⟩
  | num n =>
    have ht : ∃ t, Lexing.Reads n.written.toList [.number t] ∧ t.value? = some n := by
      cases hf with
      | float x => exact exists_numberText_float (hx x .num)
      | int hl hu => exact exists_numberText_int hl hu
    obtain ⟨t, hr, hv⟩ := ht
    exact ⟨[.number t], .number t, hr, ⟨fun _ => rfl, fun _ => rfl⟩, by simp [Outline.value?, hv]⟩
  | str s =>
    refine ⟨[.string _], .string _, Lexing.reads_quoted s, ⟨fun _ => rfl, fun _ => rfl⟩, ?_⟩
    rw [Outline.value?, string?_map_piece, Option.map_some]
  | arr xs ih =>
    cases hf with
    | arr hf =>
      have h (x : Json) (hm : x ∈ xs) := ih x hm (hf x hm) fun y hy => hx y (.arr hm hy)
      choose! ls o h using h
      exact ⟨_, _, spelt_arr h⟩
  | obj ms ih =>
    cases hf with
    | obj hf =>
      have h (m : String × Json) (hm : m ∈ ms) :=
        ih m hm (hf m hm) fun y hy => hx y (.obj hm hy)
      choose! ls o h using h
      exact ⟨_, _, spelt_obj h⟩

/-- A value comes back from its text if it is not nested too deep, its integers have 64 bits and its
floats come back. -/
theorem read?_compact {v : Json} (hf : v.Fits maxDepth) (hx : ∀ x, v.HasFloat x → ReadsBack x) :
    read? v.compact = some v := by
  obtain ⟨ls, o, h⟩ := exists_spelt hf hx
  have ho : Outline.ofLexemes? ls = some o := by
    rw [Outline.ofLexemes?, h.builds.value]
    rfl
  simp only [read?, ofUnits?, Outline.read?, h.reads.lexemes?, ho, h.value, Option.bind_eq_bind,
    Option.bind_some]

theorem fits_of_numberText {d : Nat} {t : NumberText} {n : Numeral} (h : t.value? = some n) :
    (num n).Fits d := by
  have hw : NumberText.maxWord = 2 ^ 64 - 1 := rfl
  have hp : Nat.pow 2 63 = 2 ^ 63 := rfl
  simp only [NumberText.value?] at h
  split at h
  · next hn =>
    cases h
    exact .int (by omega) (by omega)
  · split at h
    · next hn =>
      cases h
      exact .int (by omega) (by omega)
    · obtain ⟨x, -, rfl⟩ := Option.map_eq_some_iff.mp h
      exact .float _

theorem fits_of_value? {d : Nat} {o : Outline} {v : Json} (h : o.value? d = some v) :
    v.Fits d := by
  induction v using induction generalizing d o with
  | null => exact .null
  | bool b => exact .bool b
  | str s => exact .str s
  | num n =>
    unfold Outline.value? at h
    split at h <;> simp at h
    exact fits_of_numberText h
  | arr xs ih =>
    unfold Outline.value? at h
    split at h <;> simp at h
    refine .arr fun x hx => ?_
    obtain ⟨o, -, ho⟩ := exists_of_mem_mapM h hx
    exact ih x hx ho
  | obj ms ih =>
    unfold Outline.value? at h
    split at h <;> simp at h
    refine .obj fun m hm => ?_
    obtain ⟨o, -, ho⟩ := exists_of_mem_mapM h hm
    simp only [Option.bind_eq_some_iff] at ho
    obtain ⟨k, -, w, hw, he⟩ := ho
    cases he
    exact ih _ hm hw

/-- What has been read is not nested too deep, and its integers have 64 bits. -/
theorem fits_of_read? {s : String} {v : Json} (h : read? s = some v) : v.Fits maxDepth := by
  obtain ⟨o, -, hv⟩ := Option.bind_eq_some_iff.mp h
  exact fits_of_value? hv

end Stylebook.Json
