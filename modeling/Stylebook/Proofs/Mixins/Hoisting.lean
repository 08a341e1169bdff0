import Mathlib.Data.List.Basic
import Stylebook.Proofs.Mixins.Run

/-! # Hoisting

Mixins run before the steps of the program that inherits them, wherever it does. So the calls that
inherit a name first may be moved to the front, and all others may be left out.
-/

namespace Stylebook

namespace Call

variable {ms : List Mixin} {seen : List String} {i : Nat}

/-- The name that a call inherits. -/
def name? (ms : List Mixin) : Call → Option String
  | step _ => none
  | inherit i => ms[i]?.map Mixin.name

/-- The first call that inherits each name. -/
def firstInherits (ms : List Mixin) (p : List Call) : List Call :=
  (p.filter fun c => (c.name? ms).isSome).eraseDupsBy fun c c' => c.name? ms = c'.name? ms

def hoist (ms : List Mixin) (p : List Call) : List Call := firstInherits ms p ++ p.filter isStep

/-- Whether a call inherits a name that has not been seen. -/
def isNew (ms : List Mixin) (seen : List String) (c : Call) : Bool :=
  (c.name? ms).any (· ∉ seen)

theorem isNew_inherit_iff : isNew ms seen (inherit i) = (fresh? ms seen i).isSome := by
  cases h : ms[i]? <;> simp [isNew, name?, fresh?, h, Option.filter]
  split <;> simp_all

theorem isNew_append (n : String) (c : Call) :
    isNew ms (seen ++ [n]) c = (isNew ms seen c && c.name? ms ≠ some n) := by
  cases h : c.name? ms <;> simp [isNew, h]

theorem inherits_eq (ms : List Mixin) (seen : List String) (p : List Call) :
    inherits ms seen p =
      (p.filter (isNew ms seen)).eraseDupsBy fun c c' => c.name? ms = c'.name? ms := by
  induction p generalizing seen with
  | nil => rfl
  | cons c cs ih =>
    cases c with
    | step s =>
      rw [List.filter_cons_of_neg (by simp [isNew, name?])]
      exact ih seen
    | inherit i =>
      rw [inherits]
      split
      · next hi => rw [List.filter_cons_of_neg (by simp [isNew_inherit_iff, hi]), ih]
      · next m hi =>
        have hn : (inherit i).name? ms = some m.name := by
          simp [name?, (fresh?_eq_some_iff.mp hi).1]
        rw [List.filter_cons_of_pos (by simp [isNew_inherit_iff, hi]), List.eraseDupsBy_cons,
          List.filter_filter, ih]
        congr 2
        refine List.filter_congr fun c _ => ?_
        simp [isNew_append, hn, Bool.and_comm]

/-- Collecting mixins finds the first call of each name. -/
theorem inherits_eq_firstInherits (ms : List Mixin) (p : List Call) :
    inherits ms [] p = firstInherits ms p := by
  have h : isNew ms [] = fun c => (c.name? ms).isSome := by
    funext c
    cases h : c.name? ms <;> simp [isNew, h]
  rw [inherits_eq, firstInherits, h]

theorem isStep_of_mem_inherits {p : List Call} {c : Call} (h : c ∈ inherits ms seen p) :
    c.isStep = false := by
  induction p generalizing seen with
  | nil => cases h
  | cons c' cs ih =>
    cases c' with
    | step s => exact ih h
    | inherit i =>
      rw [inherits] at h
      split at h
      · exact ih h
      · rcases List.mem_cons.mp h with rfl | h
        · rfl
        · exact ih h

theorem inherits_inherits (ms : List Mixin) (seen : List String) (p : List Call) :
    inherits ms seen (inherits ms seen p) = inherits ms seen p := by
  induction p generalizing seen with
  | nil => rfl
  | cons c cs ih =>
    cases c with
    | step s => exact ih seen
    | inherit i =>
      cases hi : fresh? ms seen i with
      | none => simp only [inherits, hi, ih]
      | some m => simp only [inherits, hi, ih]

theorem inherits_append_steps (ms : List Mixin) (seen : List String) (xs p : List Call) :
    inherits ms seen (xs ++ p.filter isStep) = inherits ms seen xs := by
  induction xs generalizing seen with
  | nil =>
    induction p with
    | nil => rfl
    | cons c cs ih => cases c <;> simpa [isStep, inherits, List.filter_cons] using ih
  | cons c cs ih =>
    cases c with
    | step s => exact ih seen
    | inherit i => cases hi : fresh? ms seen i <;> simp [inherits, hi, ih]

theorem inherits_hoist (ms : List Mixin) (p : List Call) :
    inherits ms [] (hoist ms p) = inherits ms [] p := by
  rw [hoist, ← inherits_eq_firstInherits, inherits_append_steps, inherits_inherits]

theorem filter_isStep_hoist (ms : List Mixin) (p : List Call) :
    (hoist ms p).filter isStep = p.filter isStep := by
  rw [hoist, ← inherits_eq_firstInherits, List.filter_append, List.filter_filter,
    List.filter_eq_nil_iff.mpr fun c hc => by simp [isStep_of_mem_inherits hc]]
  simp

end Call

open Call

/-- What a definition builds: its mixins, and then its own steps. -/
theorem Definition.run_calls (d : Definition) (b : Builder) :
    b.run d.mixins d.calls =
      (b.run d.mixins (inherits d.mixins [] d.program)).run d.mixins (d.program.filter isStep) :=
  b.run_inherits_append d.program

/-- The definition with the first call that inherits each name in front, and no other such call. -/
def Definition.hoist (d : Definition) : Definition :=
  { d with program := Call.hoist d.mixins d.program }

theorem Definition.run_calls_hoist (d : Definition) (b : Builder) :
    b.run d.mixins d.hoist.calls = b.run d.mixins d.calls := by
  calc b.run d.mixins d.hoist.calls
    _ = (b.run d.mixins (inherits d.mixins [] (Call.hoist d.mixins d.program))).run d.mixins
          ((Call.hoist d.mixins d.program).filter isStep) := d.hoist.run_calls b
    _ = b.run d.mixins d.calls := by rw [inherits_hoist, filter_isStep_hoist, d.run_calls]

/-- Where a mixin is inherited makes no difference. A fault in a mixin is reported even where a step
before it is faulty too. -/
theorem compile_hoist (d : Definition) (E : Engine) (s : Schema) :
    d.hoist.compile E s = d.compile E s ∧
      ∀ f, Text.allBlank d.title = false →
        ((Builder.start E s).run d.mixins (firstInherits d.mixins d.program)).draft = .error f →
        d.compile E s = .error ⟨d.id, f⟩ := by
  constructor
  · have h : (Builder.start E s).run d.hoist.mixins d.hoist.calls =
        (Builder.start E s).run d.mixins d.calls := d.run_calls_hoist _
    rw [Definition.compile, h]
    rfl
  · intro f ht hf
    rw [← inherits_eq_firstInherits] at hf
    rw [Definition.compile, ht, if_neg (by simp), d.run_calls, Builder.run_of_error hf,
      Builder.finish, hf]
    rfl

/-- A faulty step, and after it a mixin that is faulty too. -/
def Definition.faulty : Definition where
  id := "faulty"
  title := "Faulty"
  description := none
  mixins := [⟨"house", [.step (.trait "journal" [])]⟩]
  program := [.step (.trait "title" []), .inherit 0]

theorem compile_hoist_faulty :
    Definition.faulty.hoist.compile .usual .empty = Definition.faulty.compile .usual .empty ∧
      Definition.faulty.compile .usual .empty = .error ⟨"faulty", .malformed "journal"⟩ :=
  ⟨(compile_hoist .faulty .usual .empty).1,
    (compile_hoist .faulty .usual .empty).2 _ (by decide) (by cbv)⟩

end Stylebook
