import Mathlib
import Stylebook.Proofs.Mixins.Expansion
import Stylebook.Proofs.Requirements

/-! # Shuffled programs

Two programs are shuffled if they differ in the places of their constraints only. Where mixins are
shuffled as well, the same mixins run, and the steps that all calls come to are shuffled again.
-/

namespace Stylebook

/-- The elements that `f` picks out are the same ones in any places, and all others are the same in
the same order. -/
structure Shuffled {α β : Type} (f : α → Option β) (xs ys : List α) : Prop where
  others : (xs.filter fun x => (f x).isNone) = ys.filter fun y => (f y).isNone
  picked : (xs.filterMap f).Perm (ys.filterMap f)

namespace Shuffled

variable {α β : Type} {f : α → Option β} {xs ys zs us vs ws : List α} {x : α}

protected theorem refl (xs : List α) : Shuffled f xs xs := ⟨rfl, .refl _⟩

theorem symm (h : Shuffled f xs ys) : Shuffled f ys xs := ⟨h.others.symm, h.picked.symm⟩

theorem trans (h : Shuffled f xs ys) (h' : Shuffled f ys zs) : Shuffled f xs zs :=
  ⟨h.others.trans h'.others, h.picked.trans h'.picked⟩

theorem append (h : Shuffled f xs ys) (h' : Shuffled f us vs) :
    Shuffled f (xs ++ us) (ys ++ vs) where
  others := by rw [List.filter_append, List.filter_append, h.others, h'.others]
  picked := by
    rw [List.filterMap_append, List.filterMap_append]
    exact h.picked.append h'.picked

theorem cons (x : α) (h : Shuffled f xs ys) : Shuffled f (x :: xs) (x :: ys) :=
  append (.refl [x]) h

/-- Elements that are picked out may stand before others or after them. -/
theorem append_comm (h : ∀ u ∈ us, (f u).isSome) (vs : List α) :
    Shuffled f (us ++ vs) (vs ++ us) where
  others := by
    have hn : (us.filter fun u => (f u).isNone) = [] :=
      List.filter_eq_nil_iff.mpr fun u hu => by simp [Option.isSome_iff_ne_none.mp (h u hu)]
    rw [List.filter_append, List.filter_append, hn, List.nil_append, List.append_nil]
  picked := by
    rw [List.filterMap_append, List.filterMap_append]
    exact List.perm_append_comm

theorem append_left_comm (h : ∀ u ∈ us, (f u).isSome) (vs ws : List α) :
    Shuffled f (us ++ (vs ++ ws)) (vs ++ (us ++ ws)) := by
  simpa only [List.append_assoc] using (append_comm h vs).append (.refl ws)

theorem insert {b : β} (hx : f x = some b) (h : Shuffled f xs (us ++ vs)) :
    Shuffled f (x :: xs) (us ++ x :: vs) := by
  have hs : ∀ u ∈ [x], (f u).isSome := by simp [hx]
  exact (h.cons x).trans (append_left_comm hs us vs)

theorem eq_nil_of_nil (h : Shuffled f [] ys) : ys = [] := by
  rw [List.eq_nil_iff_forall_not_mem]
  intro y hy
  cases hf : f y with
  | none =>
    have hm : y ∈ ys.filter fun y => (f y).isNone := by simp [hy, hf]
    simp [← h.others] at hm
  | some b =>
    have hm : b ∈ ys.filterMap f := List.mem_filterMap.mpr ⟨y, hy, hf⟩
    simp [h.picked.symm.mem_iff] at hm

/-- An element that is picked out stands somewhere in the other list. -/
theorem exists_of_cons_some {b : β} (hx : f x = some b) (h : Shuffled f (x :: xs) ys) :
    ∃ us y vs, ys = us ++ y :: vs ∧ f y = some b ∧ Shuffled f xs (us ++ vs) := by
  have hb : b ∈ ys.filterMap f := h.picked.mem_iff.mp (by simp [hx])
  obtain ⟨y, hy, hf⟩ := List.mem_filterMap.mp hb
  obtain ⟨us, vs, rfl⟩ := List.append_of_mem hy
  refine ⟨us, y, vs, rfl, hf, ?_, ?_⟩
  · simpa [hx, hf] using h.others
  · have hp := h.picked
    rw [List.filterMap_cons_some hx, List.filterMap_append, List.filterMap_cons_some hf] at hp
    rw [List.filterMap_append]
    exact (hp.trans List.perm_middle).cons_inv

/-- Any other element stands first but for what is picked out. -/
theorem exists_of_cons_none (hx : f x = none) (h : Shuffled f (x :: xs) ys) :
    ∃ us vs, ys = us ++ x :: vs ∧ (∀ u ∈ us, (f u).isSome) ∧ Shuffled f xs (us ++ vs) := by
  have ho := h.others
  rw [List.filter_cons_of_pos (by simp [hx])] at ho
  obtain ⟨us, vs, rfl, hu, -, hv⟩ := List.filter_eq_cons_iff.mp ho.symm
  have hu : ∀ u ∈ us, (f u).isSome := fun u hm => by simpa [Option.isSome_iff_ne_none] using hu u hm
  have hn : (us.filter fun u => (f u).isNone) = [] :=
    List.filter_eq_nil_iff.mpr fun u hm => by simp [Option.isSome_iff_ne_none.mp (hu u hm)]
  refine ⟨us, vs, rfl, hu, ?_, ?_⟩
  · rw [List.filter_append, hn, List.nil_append, hv]
  · simpa [hx] using h.picked

end Shuffled

namespace Call

variable {ms ms' : List Mixin} {seen : List String} {cs cs' us : List Call}

def constraint? (c : Call) : Option Constraint := c.step?.bind Step.constraint?

theorem eq_step_of_constraint? {c : Call} {k : Constraint} (h : c.constraint? = some k) :
    c = step (.constrain k) := by
  cases c with
  | inherit i => cases h
  | step st => cases st <;> cases h; rfl

theorem isSome_of_mem_own (h : ∀ u ∈ us, u.constraint?.isSome) :
    ∀ st ∈ own us, st.constraint?.isSome := by
  intro st hst
  obtain ⟨u, hu, hs⟩ := List.mem_filterMap.mp hst
  simpa [constraint?, hs] using h u hu

/-- Constraints that stand before other calls come to steps before theirs. -/
theorem expand_constraints_append (h : ∀ u ∈ us, u.constraint?.isSome) (ms : List Mixin)
    (seen : List String) (cs : List Call) :
    expand ms seen (us ++ cs) = Expansion.append ⟨[], own us⟩ (expand ms seen cs) := by
  induction us with
  | nil => rfl
  | cons u us ih =>
    obtain ⟨c, hc⟩ := Option.isSome_iff_exists.mp (h u List.mem_cons_self)
    obtain rfl := eq_step_of_constraint? hc
    rw [List.cons_append, expand_step, ih fun v hv => h v (List.mem_cons_of_mem _ hv)]
    rfl

/-- A step more among the calls is a step more among the steps that they come to. -/
theorem exists_expand_insert (ms : List Mixin) (seen : List String) (us vs : List Call)
    (st : Step) :
    ∃ before after, (expand ms seen (us ++ step st :: vs)).steps = before ++ st :: after ∧
      (expand ms seen (us ++ vs)).steps = before ++ after ∧
      (expand ms seen (us ++ step st :: vs)).names = (expand ms seen (us ++ vs)).names := by
  refine ⟨(expand ms seen us).steps,
    (expand ms (seen ++ (expand ms seen us).names) vs).steps, ?_, ?_, ?_⟩
  · rw [expand_append, expand_step]
    rfl
  · rw [expand_append]
    rfl
  · rw [expand_append, expand_append, expand_step]
    rfl

end Call

/-- Mixins of one name, with shuffled bodies. -/
structure Mixin.Shuffled (m m' : Mixin) : Prop where
  name : m.name = m'.name
  program : Stylebook.Shuffled Call.constraint? m.program m'.program

namespace Call

variable {ms ms' : List Mixin} {seen : List String} {cs cs' us : List Call} {i : Nat}

theorem fresh?_shuffled (hm : List.Forall₂ Mixin.Shuffled ms ms') (seen : List String) (i : Nat) :
    Option.Rel Mixin.Shuffled (fresh? ms seen i) (fresh? ms' seen i) := by
  have hi : Option.Rel Mixin.Shuffled ms[i]? ms'[i]? := by
    induction hm generalizing i with
    | nil => exact .none
    | cons h _ ih =>
      cases i with
      | zero => exact .some h
      | succ i => exact ih i
  rw [fresh?, fresh?]
  generalize ms[i]? = o, ms'[i]? = o' at hi
  cases hi with
  | none => exact .none
  | @some m m' h =>
    rw [Option.filter_some, Option.filter_some, h.name]
    split
    · exact .some h
    · exact .none

/-- Constraints before a mixin that is entered may as well stand behind its body. -/
theorem expand_constraints_enter {m : Mixin} (h : ∀ u ∈ us, u.constraint?.isSome)
    (hi : fresh? ms seen i = some m) (vs : List Call) :
    (expand ms seen (us ++ inherit i :: vs)).names =
        m.name :: (expand ms (seen ++ [m.name]) (m.program ++ (us ++ vs))).names ∧
      Shuffled Step.constraint? (expand ms (seen ++ [m.name]) (m.program ++ (us ++ vs))).steps
        (expand ms seen (us ++ inherit i :: vs)).steps := by
  rw [expand_constraints_append h, expand_inherit_of_some hi, expand_append, expand_append,
    expand_constraints_append h]
  refine ⟨rfl, ?_⟩
  exact (Shuffled.append_left_comm (isSome_of_mem_own h) _ _).symm

/-- Shuffled calls run mixins of the same names, and come to shuffled steps. -/
theorem expand_shuffled (hm : List.Forall₂ Mixin.Shuffled ms ms')
    (h : Shuffled constraint? cs cs') :
    (expand ms seen cs).names = (expand ms' seen cs').names ∧
      Shuffled Step.constraint? (expand ms seen cs).steps (expand ms' seen cs').steps := by
  induction seen, cs using expand.induct ms generalizing cs' with
  | case1 seen =>
    rw [h.eq_nil_of_nil, expand_nil, expand_nil]
    exact ⟨rfl, .refl _⟩
  | case2 seen st cs ih =>
    rw [expand_step]
    cases hc : st.constraint? with
    | some c =>
      have hx : (step st).constraint? = some c := hc
      obtain ⟨us, y, vs, rfl, hy, hs⟩ := h.exists_of_cons_some hx
      obtain rfl := (eq_step_of_constraint? hy).trans (eq_step_of_constraint? hx).symm
      obtain ⟨hn, hs⟩ := ih hs
      obtain ⟨before, after, hi, he, hn'⟩ := exists_expand_insert ms' seen us vs st
      rw [hi, hn']
      exact ⟨hn, .insert hc (he ▸ hs)⟩
    | none =>
      obtain ⟨us, vs, rfl, hu, hs⟩ := h.exists_of_cons_none (x := step st) hc
      obtain ⟨hn, hs⟩ := ih hs
      rw [expand_constraints_append hu] at hn hs ⊢
      rw [expand_step]
      refine ⟨hn, (hs.cons st).trans ?_⟩
      exact (Shuffled.append_left_comm (isSome_of_mem_own hu) [st] _).symm
  | case3 seen i cs hi ih =>
    rw [expand_inherit_of_none hi]
    obtain ⟨us, vs, rfl, hu, hs⟩ := h.exists_of_cons_none rfl
    have hr := fresh?_shuffled hm seen i
    rw [hi] at hr
    have hi' : fresh? ms' seen i = none := by
      generalize fresh? ms' seen i = o at hr
      cases hr
      rfl
    have hs := ih hs
    rw [expand_constraints_append hu] at hs ⊢
    rw [expand_inherit_of_none hi']
    exact hs
  | case4 seen i cs m hi ih =>
    rw [expand_inherit_of_some hi]
    obtain ⟨us, vs, rfl, hu, hs⟩ := h.exists_of_cons_none rfl
    have hr := fresh?_shuffled hm seen i
    rw [hi] at hr
    generalize ho : fresh? ms' seen i = o at hr
    cases hr with
    | @some _ m' hm' =>
      obtain ⟨hn, hs⟩ := ih (hm'.program.append hs)
      obtain ⟨hn', hs'⟩ := expand_constraints_enter hu ho vs
      rw [← hm'.name] at hn' hs'
      exact ⟨(congrArg (m.name :: ·) hn).trans hn'.symm, hs.trans hs'⟩

theorem filterMap_constraint?_own (cs : List Call) :
    (own cs).filterMap Step.constraint? = cs.filterMap constraint? := List.filterMap_filterMap

theorem filter_own (cs : List Call) : (own cs).filter (fun st => st.constraint?.isNone) =
    own (cs.filter fun c => c.constraint?.isNone) := by
  induction cs with
  | nil => rfl
  | cons c cs ih =>
    cases c with
    | inherit i => exact ih
    | step st =>
      have ho : own (step st :: cs) = st :: own cs := rfl
      have hc : (step st).constraint? = st.constraint? := rfl
      rw [ho, List.filter_cons, List.filter_cons, hc, ih]
      split <;> rfl

theorem shuffled_own (h : Shuffled constraint? cs cs') :
    Shuffled Step.constraint? (own cs) (own cs') where
  others := by rw [filter_own, filter_own, h.others]
  picked := by
    rw [filterMap_constraint?_own, filterMap_constraint?_own]
    exact h.picked

/-- Constraints are not among the calls that inherit mixins. -/
theorem filter_not_isStep_eq (h : Shuffled constraint? cs cs') :
    (cs.filter fun c => !c.isStep) = cs'.filter fun c => !c.isStep := by
  have hf (cs : List Call) : (cs.filter fun c => c.constraint?.isNone).filter (fun c => !c.isStep) =
      cs.filter fun c => !c.isStep := by
    rw [List.filter_filter]
    refine List.filter_congr fun c _ => ?_
    cases c <;> simp [isStep, constraint?, step?]
  rw [← hf, h.others, hf]

end Call

/-- Definitions of one style with shuffled programs and shuffled mixins. -/
structure Definition.Shuffled (d d' : Definition) : Prop where
  id : d.id = d'.id
  title : d.title = d'.title
  mixins : List.Forall₂ Mixin.Shuffled d.mixins d'.mixins
  program : Stylebook.Shuffled Call.constraint? d.program d'.program

theorem Definition.Shuffled.steps {d d' : Definition} (h : d.Shuffled d') :
    d.mixinPart.names = d'.mixinPart.names ∧
      Stylebook.Shuffled Step.constraint? d.steps d'.steps := by
  have hp : Stylebook.Shuffled Call.constraint? (d.program.filter fun c => !c.isStep)
      (d'.program.filter fun c => !c.isStep) := by
    rw [Call.filter_not_isStep_eq h.program]
    exact .refl _
  obtain ⟨hn, hs⟩ := Call.expand_shuffled h.mixins hp
  exact ⟨hn, hs.append (Call.shuffled_own h.program)⟩

end Stylebook
