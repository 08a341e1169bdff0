import Stylebook.Style

/-! # Running calls

A builder runs a mixin where it is inherited and goes on with the calls that follow. Nothing is
run after a fault, and a call that inherits a name seen before does nothing.
-/

namespace Stylebook

namespace Call

variable {ms : List Mixin} {seen seen' : List String} {cs : List Call} {i : Nat}

def isStep : Call → Bool
  | step _ => true
  | inherit _ => false

/-- Every mixin that the calls inherit has a name that has been seen. -/
def AllSeen (ms : List Mixin) (seen : List String) (cs : List Call) : Prop :=
  ∀ i m, inherit i ∈ cs → ms[i]? = some m → m.name ∈ seen

theorem fresh?_eq_none_iff : fresh? ms seen i = none ↔ ∀ m, ms[i]? = some m → m.name ∈ seen := by
  simp [fresh?, Option.filter_eq_none_iff]

theorem fresh?_eq_none_mono (hs : seen ⊆ seen') (h : fresh? ms seen i = none) :
    fresh? ms seen' i = none :=
  fresh?_eq_none_iff.mpr fun m hm => hs (fresh?_eq_none_iff.mp h m hm)

theorem AllSeen.tail {c : Call} (h : AllSeen ms seen (c :: cs)) : AllSeen ms seen cs :=
  fun i m hi => h i m (List.mem_cons_of_mem _ hi)

theorem AllSeen.fresh?_eq_none (h : AllSeen ms seen (inherit i :: cs)) :
    fresh? ms seen i = none :=
  fresh?_eq_none_iff.mpr fun m hm => h i m List.mem_cons_self hm

theorem AllSeen.cons_step {s : Step} (h : AllSeen ms seen cs) :
    AllSeen ms seen (step s :: cs) := by
  intro i m hi
  rcases List.mem_cons.mp hi with hi | hi
  · cases hi
  · exact h i m hi

theorem AllSeen.cons_inherit (hi : fresh? ms seen i = none) (h : AllSeen ms seen cs) :
    AllSeen ms seen (inherit i :: cs) := by
  intro j m hj hm
  rcases List.mem_cons.mp hj with hj | hj
  · cases hj
    exact fresh?_eq_none_iff.mp hi m hm
  · exact h j m hj hm

theorem AllSeen.of_append {xs ys : List Call} (h : AllSeen ms seen (xs ++ ys)) :
    AllSeen ms seen ys :=
  fun i m hi => h i m (List.mem_append_right _ hi)

/-- Names that are met while mixins are collected count as seen afterwards. -/
theorem AllSeen.of_inherits (hs : seen ⊆ seen') (h : AllSeen ms seen' (inherits ms seen cs)) :
    AllSeen ms seen' cs := by
  induction cs generalizing seen with
  | nil => exact h
  | cons c cs ih =>
    cases c with
    | step s => exact (ih hs h).cons_step
    | inherit i =>
      rw [inherits] at h
      split at h
      · next hi => exact (ih hs h).cons_inherit (fresh?_eq_none_mono hs hi)
      · next m hi =>
        have hm : m.name ∈ seen' := h i m List.mem_cons_self (fresh?_eq_some_iff.mp hi).1
        exact (ih (by simp [hs, hm]) h.tail).cons_inherit h.fresh?_eq_none

end Call

namespace Builder

open Call

variable {ms : List Mixin} {b : Builder} {cs : List Call} {i : Nat} {m : Mixin} {f : Fault}
  {d : Draft}

theorem enters?_eq_some_iff :
    b.enters? ms i = some m ↔ (∃ d, b.draft = .ok d) ∧ fresh? ms b.inherited i = some m := by
  unfold enters?
  split <;> simp_all

theorem fresh?_eq_none_of_enters? (hd : b.draft = .ok d) (h : b.enters? ms i = none) :
    fresh? ms b.inherited i = none := by
  simpa [enters?, hd] using h

theorem enters?_eq_none (h : fresh? ms b.inherited i = none) : b.enters? ms i = none := by
  unfold enters?
  split
  · rfl
  · exact h

@[simp] theorem run_nil (b : Builder) : b.run ms [] = b := by rw [run]

@[simp] theorem run_step (b : Builder) (s : Step) (cs : List Call) :
    b.run ms (.step s :: cs) = (b.step s).run ms cs := by rw [run]

theorem run_inherit_of_none (h : b.enters? ms i = none) :
    b.run ms (.inherit i :: cs) = b.run ms cs := by
  rw [run]
  split
  · rfl
  · next h' => cases h.symm.trans h'

theorem run_inherit_of_some (h : b.enters? ms i = some m) :
    b.run ms (.inherit i :: cs) = (b.enter m).run ms (m.program ++ cs) := by
  rw [run]
  split
  · next h' => cases h.symm.trans h'
  · next h' =>
    cases h.symm.trans h'
    rfl

theorem run_append (b : Builder) (xs ys : List Call) :
    b.run ms (xs ++ ys) = (b.run ms xs).run ms ys := by
  fun_induction run ms b xs with
  | case1 b => rfl
  | case2 b s cs ih => rw [List.cons_append, run_step, ih]
  | case3 b i cs h ih => rw [List.cons_append, run_inherit_of_none h, ih]
  | case4 b i cs m h ih =>
    rw [List.cons_append, run_inherit_of_some h, ← List.append_assoc, ih]

theorem step_of_error (h : b.draft = .error f) (s : Step) : b.step s = b := by
  obtain ⟨seen, draft⟩ := b
  cases h
  rfl

/-- A fault is kept, whatever is called after it. -/
theorem run_of_error (h : b.draft = .error f) (cs : List Call) : b.run ms cs = b := by
  induction cs with
  | nil => exact run_nil b
  | cons c cs ih =>
    cases c with
    | step s => rw [run_step, step_of_error h, ih]
    | inherit i => rw [run_inherit_of_none (by simp [enters?, h]), ih]

theorem draft_ok_of_run (h : (b.run ms cs).draft = .ok d) : ∃ d', b.draft = .ok d' := by
  cases hb : b.draft with
  | error f =>
    rw [run_of_error hb, hb] at h
    cases h
  | ok d' => exact ⟨d', rfl⟩

theorem inherited_subset_run (b : Builder) (cs : List Call) :
    b.inherited ⊆ (b.run ms cs).inherited := by
  fun_induction run ms b cs with
  | case1 b => exact List.Subset.refl _
  | case2 b s cs ih => exact ih
  | case3 b i cs h ih => exact ih
  | case4 b i cs m h ih => exact List.Subset.trans (List.subset_append_left _ _) ih

/-- After calls that met no fault, inheriting any of their mixins again does nothing. -/
theorem allSeen_run (h : (b.run ms cs).draft = .ok d) : AllSeen ms (b.run ms cs).inherited cs := by
  fun_induction run ms b cs with
  | case1 b => exact fun _ _ hi => absurd hi List.not_mem_nil
  | case2 b s cs ih => exact (ih h).cons_step
  | case3 b i cs hi ih =>
    obtain ⟨d', hd⟩ := draft_ok_of_run h
    have hf := fresh?_eq_none_of_enters? hd hi
    exact (ih h).cons_inherit (fresh?_eq_none_mono (inherited_subset_run b cs) hf)
  | case4 b i cs m hi ih =>
    refine (ih h).of_append.cons_inherit (fresh?_eq_none_iff.mpr fun m' hm' => ?_)
    obtain ⟨-, hf⟩ := enters?_eq_some_iff.mp hi
    cases hm'.symm.trans (fresh?_eq_some_iff.mp hf).1
    exact inherited_subset_run (b.enter m) (m.program ++ cs) (by simp [enter])

theorem run_eq_run_filter (h : AllSeen ms b.inherited cs) :
    b.run ms cs = b.run ms (cs.filter isStep) := by
  induction cs generalizing b with
  | nil => rfl
  | cons c cs ih =>
    cases c with
    | step s =>
      rw [run_step, List.filter_cons_of_pos rfl, run_step]
      exact ih h.tail
    | inherit i =>
      rw [run_inherit_of_none (enters?_eq_none h.fresh?_eq_none),
        List.filter_cons_of_neg (by simp [isStep])]
      exact ih h.tail

/-- Once mixins were collected and run, only the steps of a program are left to be run. -/
theorem run_inherits_append (b : Builder) (p : List Call) :
    b.run ms (inherits ms [] p ++ p) =
      (b.run ms (inherits ms [] p)).run ms (p.filter isStep) := by
  rw [run_append]
  cases h : (b.run ms (inherits ms [] p)).draft with
  | error f => rw [run_of_error h, run_of_error h]
  | ok d => exact run_eq_run_filter (.of_inherits (List.nil_subset _) (allSeen_run h))

end Builder

end Stylebook
