import Stylebook.Proofs.Mixins.Run

/-! # Expansion

Without looking at faults, a sequence of calls comes to a sequence of steps in which the body of a
mixin stands where the mixin is inherited first. A builder carries out these steps, so a definition
compiles to what the steps of its mixins and its own steps make of an empty draft.
-/

namespace Stylebook

/-- The mixins whose bodies are run, in order, and the steps. -/
structure Expansion where
  visited : List Mixin
  steps : List Step
deriving Repr

namespace Expansion

def names (e : Expansion) : List String := e.visited.map Mixin.name

def append (e e' : Expansion) : Expansion := ⟨e.visited ++ e'.visited, e.steps ++ e'.steps⟩

@[simp] theorem names_mk (vs : List Mixin) (ss : List Step) :
    (⟨vs, ss⟩ : Expansion).names = vs.map Mixin.name := rfl

@[simp] theorem names_append (e e' : Expansion) : (e.append e').names = e.names ++ e'.names := by
  simp [names, append]

end Expansion

namespace Call

variable {ms : List Mixin} {seen : List String} {cs : List Call} {i : Nat} {m : Mixin}

def step? : Call → Option Step
  | step s => some s
  | inherit _ => none

/-- The steps that stand in the calls themselves. -/
def own (cs : List Call) : List Step := cs.filterMap step?

def expand (mixins : List Mixin) (seen : List String) : List Call → Expansion
  | [] => ⟨[], []⟩
  | step s :: cs =>
    let e := expand mixins seen cs
    { e with steps := s :: e.steps }
  | inherit i :: cs =>
    match _h : fresh? mixins seen i with
    | none => expand mixins seen cs
    | some m =>
      let e := expand mixins (seen ++ [m.name]) (m.program ++ cs)
      { e with visited := m :: e.visited }
termination_by cs => (unseen mixins seen, cs.length)
decreasing_by
  · exact Prod.Lex.right _ (by simp)
  · exact Prod.Lex.right _ (by simp)
  · exact Prod.Lex.left _ _ (unseen_lt_of_fresh? _h)

@[simp] theorem expand_nil (ms : List Mixin) (seen : List String) :
    expand ms seen [] = ⟨[], []⟩ := by rw [expand]

@[simp] theorem expand_step (ms : List Mixin) (seen : List String) (s : Step) (cs : List Call) :
    expand ms seen (step s :: cs) =
      { expand ms seen cs with steps := s :: (expand ms seen cs).steps } := by rw [expand]

theorem expand_inherit_of_none (h : fresh? ms seen i = none) :
    expand ms seen (inherit i :: cs) = expand ms seen cs := by
  rw [expand]
  split
  · rfl
  · next h' => cases h.symm.trans h'

theorem expand_inherit_of_some (h : fresh? ms seen i = some m) :
    expand ms seen (inherit i :: cs) =
      Expansion.append ⟨[m], []⟩ (expand ms (seen ++ [m.name]) (m.program ++ cs)) := by
  rw [expand]
  split
  · next h' => cases h.symm.trans h'
  · next h' =>
    cases h.symm.trans h'
    rfl

theorem expand_append (ms : List Mixin) (seen : List String) (xs ys : List Call) :
    expand ms seen (xs ++ ys) =
      (expand ms seen xs).append (expand ms (seen ++ (expand ms seen xs).names) ys) := by
  fun_induction expand ms seen xs with
  | case1 seen => simp [Expansion.append]
  | case2 seen s cs e ih => simp [ih, e, Expansion.append, Expansion.names]
  | case3 seen i cs h ih => rw [List.cons_append, expand_inherit_of_none h, ih]
  | case4 seen i cs m h e ih =>
    rw [List.cons_append, expand_inherit_of_some h, ← List.append_assoc, ih]
    simp [e, Expansion.append, Expansion.names]

/-- The body of a mixin is expanded on its own, and then the calls that are left. -/
theorem expand_enter (h : fresh? ms seen i = some m) :
    expand ms seen (inherit i :: cs) =
      let body := expand ms (seen ++ [m.name]) m.program
      let rest := expand ms (seen ++ m.name :: body.names) cs
      ⟨m :: body.visited ++ rest.visited, body.steps ++ rest.steps⟩ := by
  rw [expand_inherit_of_some h, expand_append]
  simp [Expansion.append]

theorem expand_of_allSeen (h : AllSeen ms seen cs) : expand ms seen cs = ⟨[], own cs⟩ := by
  induction cs with
  | nil => exact expand_nil ms seen
  | cons c cs ih =>
    cases c with
    | step s => rw [expand_step, ih h.tail]; rfl
    | inherit i => rw [expand_inherit_of_none h.fresh?_eq_none, ih h.tail]; rfl

theorem allSeen_expand (ms : List Mixin) (seen : List String) (cs : List Call) :
    AllSeen ms (seen ++ (expand ms seen cs).names) cs := by
  fun_induction expand ms seen cs with
  | case1 seen => exact fun _ _ hi => absurd hi List.not_mem_nil
  | case2 seen s cs e ih => exact ih.cons_step
  | case3 seen i cs h ih =>
    exact ih.cons_inherit (fresh?_eq_none_mono (List.subset_append_left _ _) h)
  | case4 seen i cs m h e ih =>
    have hs : seen ++ [m.name] ++ e.names = seen ++ m.name :: e.names := by simp
    refine (hs ▸ ih).of_append.cons_inherit (fresh?_eq_none_iff.mpr fun m' hm' => ?_)
    cases hm'.symm.trans (fresh?_eq_some_iff.mp h).1
    simp

/-- Collecting mixins first leaves out only names that would be passed over. -/
theorem expand_inherits {seen' : List String} (hs : seen ⊆ seen') (p : List Call) :
    expand ms seen' (inherits ms seen p) = expand ms seen' (p.filter fun c => !c.isStep) := by
  induction p generalizing seen seen' with
  | nil => rfl
  | cons c cs ih =>
    cases c with
    | step s => exact ih hs
    | inherit i =>
      rw [List.filter_cons_of_pos rfl, inherits]
      split
      · next h => rw [expand_inherit_of_none (fresh?_eq_none_mono hs h), ih hs]
      · next m h =>
        obtain ⟨hm, -⟩ := fresh?_eq_some_iff.mp h
        cases h' : fresh? ms seen' i with
        | none =>
          have hn : m.name ∈ seen' := fresh?_eq_none_iff.mp h' m hm
          rw [expand_inherit_of_none h', expand_inherit_of_none h', ih (by simp [hs, hn])]
        | some m' =>
          -- More may be seen here than is collected, as bodies inherit mixins of their own.
          cases hm.symm.trans (fresh?_eq_some_iff.mp h').1
          have hs' : seen ++ [m.name] ⊆ seen' ++
              m.name :: (expand ms (seen' ++ [m.name]) m.program).names := by
            simp only [List.append_subset, List.cons_subset, List.nil_subset, and_true]
            exact ⟨List.Subset.trans hs (List.subset_append_left _ _), by simp⟩
          simp only [expand_enter h', ih hs']

end Call

open Call

namespace Builder

variable {ms : List Mixin} {b : Builder} {cs : List Call} {d : Draft}

/-- The draft is what the steps of the calls make of it. -/
theorem draft_run (b : Builder) (cs : List Call) :
    (b.run ms cs).draft = b.draft >>= (·.runAll (expand ms b.inherited cs).steps) := by
  fun_induction run ms b cs with
  | case1 b =>
    rw [expand_nil]
    cases b.draft <;> rfl
  | case2 b s cs ih =>
    rw [ih, expand_step]
    exact bind_assoc b.draft (·.run s) _
  | case3 b i cs h ih =>
    rw [ih]
    cases hb : b.draft with
    | error f => rfl
    | ok d => rw [expand_inherit_of_none (fresh?_eq_none_of_enters? hb h)]
  | case4 b i cs m h ih =>
    rw [ih, expand_inherit_of_some (enters?_eq_some_iff.mp h).2]
    rfl

theorem inherited_run (h : (b.run ms cs).draft = .ok d) :
    (b.run ms cs).inherited = b.inherited ++ (expand ms b.inherited cs).names := by
  fun_induction run ms b cs with
  | case1 b => simp
  | case2 b s cs ih =>
    rw [ih h, expand_step]
    rfl
  | case3 b i cs hi ih =>
    obtain ⟨d', hd⟩ := draft_ok_of_run h
    rw [ih h, expand_inherit_of_none (fresh?_eq_none_of_enters? hd hi)]
  | case4 b i cs m hi ih =>
    rw [ih h, expand_inherit_of_some (enters?_eq_some_iff.mp hi).2]
    simp [enter]

end Builder

theorem Draft.finish_eq_ok {d d' : Draft} (h : d.finish = .ok d') : d = d' := by
  unfold Draft.finish at h
  split at h
  · cases h
  · cases h
    rfl

namespace Definition

/-- What the calls come to that inherit a mixin. -/
def mixinPart (d : Definition) : Expansion :=
  expand d.mixins [] (d.program.filter fun c => !c.isStep)

/-- The bodies of the mixins in the order in which they run, and then the steps of the program. -/
def steps (d : Definition) : List Step := d.mixinPart.steps ++ own d.program

theorem expand_calls (d : Definition) :
    expand d.mixins [] d.calls = ⟨d.mixinPart.visited, d.steps⟩ := by
  have hc : expand d.mixins [] (inherits d.mixins [] d.program) = d.mixinPart :=
    expand_inherits (List.Subset.refl _) d.program
  have hs : AllSeen d.mixins ([] ++ d.mixinPart.names) d.program :=
    .of_inherits (List.nil_subset _) (hc ▸ allSeen_expand d.mixins [] _)
  rw [calls, expand_append, hc, expand_of_allSeen hs]
  simp [Expansion.append, steps]

theorem draft_run_calls (d : Definition) (E : Engine) (s : Schema) :
    ((Builder.start E s).run d.mixins d.calls).draft = (Draft.start E s).runAll d.steps := by
  rw [Builder.draft_run]
  simp only [Builder.start, d.expand_calls]
  rfl

/-- The style that a draft becomes. -/
def styleOf (d : Definition) (dr : Draft) : Style :=
  ⟨d.id, d.title, dr.items, dr.rules, dr.triggers, d.mixinPart.names⟩

theorem finish_run_calls (d : Definition) (E : Engine) (s : Schema) :
    ((Builder.start E s).run d.mixins d.calls).finish d.id d.title =
      match (Draft.start E s).runAll d.steps >>= Draft.finish with
      | .error f => .error ⟨d.id, f⟩
      | .ok dr => .ok (d.styleOf dr) := by
  rw [Builder.finish, d.draft_run_calls]
  cases h : (Draft.start E s).runAll d.steps with
  | error f => rfl
  | ok dr =>
    rw [← d.draft_run_calls] at h
    rw [Builder.inherited_run h]
    simp only [Builder.start, d.expand_calls]
    rfl

theorem compile_of_titled {d : Definition} (h : Text.allBlank d.title = false) (E : Engine)
    (s : Schema) :
    d.compile E s = ((Builder.start E s).run d.mixins d.calls).finish d.id d.title := by
  rw [compile, if_neg (by simp [h])]

/-- A definition compiles if it has a title and its steps leave a draft that can be finished. -/
theorem compile_eq_ok_iff {d : Definition} {E : Engine} {s : Schema} {st : Style} :
    d.compile E s = .ok st ↔ Text.allBlank d.title = false ∧
      ∃ dr, (Draft.start E s).runAll d.steps = .ok dr ∧ dr.finish = .ok dr ∧ st = d.styleOf dr := by
  cases ht : Text.allBlank d.title with
  | true => simp [compile, ht]
  | false =>
    rw [compile_of_titled ht, d.finish_run_calls]
    cases h : (Draft.start E s).runAll d.steps with
    | error f => simp [bind, Except.bind]
    | ok dr =>
      cases hf : dr.finish with
      | error f => simp [bind, Except.bind, hf]
      | ok dr' =>
        obtain rfl := dr.finish_eq_ok hf
        simp [bind, Except.bind, hf, eq_comm]

end Definition

end Stylebook
