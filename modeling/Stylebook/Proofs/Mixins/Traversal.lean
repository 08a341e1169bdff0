import Mathlib
import Stylebook.Proofs.Mixins.Expansion

/-! # Traversal

Mixins may inherit one another and themselves, and may share names. A depth-first traversal that
marks a name before it goes through the body is finite all the same, and a builder runs the bodies
that it visits, each once.
-/

namespace Stylebook

open Call

/-- A depth-first traversal of calls, with the mixins that it visits and the steps that it meets. -/
inductive Visits (ms : List Mixin) : List String → List Call → List Mixin → List Step → Prop where

  | nil {marked : List String} : Visits ms marked [] [] []

  | step {marked : List String} {s : Step} {cs : List Call} {vs : List Mixin} {ss : List Step} :
      Visits ms marked cs vs ss → Visits ms marked (.step s :: cs) vs (s :: ss)

  | skip {marked : List String} {i : Nat} {cs : List Call} {vs : List Mixin} {ss : List Step} :
      (∀ m, ms[i]? = some m → m.name ∈ marked) → Visits ms marked cs vs ss →
      Visits ms marked (.inherit i :: cs) vs ss

  | enter {marked : List String} {i : Nat} {m : Mixin} {cs : List Call} {vs vs' : List Mixin}
      {ss ss' : List Step} :
      ms[i]? = some m → m.name ∉ marked → Visits ms (marked ++ [m.name]) m.program vs ss →
      Visits ms (marked ++ m.name :: vs.map Mixin.name) cs vs' ss' →
      Visits ms marked (.inherit i :: cs) (m :: vs ++ vs') (ss ++ ss')

variable {ms : List Mixin} {marked : List String} {cs : List Call} {vs : List Mixin}
  {ss : List Step} {n : ℕ}

theorem Call.unseen_anti {seen seen' : List String} (h : seen ⊆ seen') :
    unseen ms seen' ≤ unseen ms seen :=
  List.countP_mono_left fun m _ hm => by
    simp only [decide_eq_true_eq] at hm ⊢
    exact fun hs => hm (h hs)

theorem Visits.expand_eq (h : Visits ms marked cs vs ss) : expand ms marked cs = ⟨vs, ss⟩ := by
  induction h with
  | nil => exact expand_nil _ _
  | step _ ih => rw [expand_step, ih]
  | skip hi _ ih => rw [expand_inherit_of_none (fresh?_eq_none_iff.mpr hi), ih]
  | enter hm hn _ _ ih ih' =>
    simp only [expand_enter (fresh?_eq_some_iff.mpr ⟨hm, hn⟩), ih, Expansion.names_mk, ih']

/-- A body is gone through with one name fewer left, and the calls after it with no name more. -/
theorem visits_expand_of_unseen_le (hn : unseen ms marked ≤ n) (cs : List Call) :
    Visits ms marked cs (expand ms marked cs).visited (expand ms marked cs).steps := by
  induction n using Nat.strong_induction_on generalizing marked cs with
  | _ n ih =>
    induction cs generalizing marked with
    | nil =>
      rw [expand_nil]
      exact .nil
    | cons c cs ihc =>
      cases c with
      | step s =>
        rw [expand_step]
        exact .step (ihc hn)
      | inherit i =>
        cases h : fresh? ms marked i with
        | none =>
          rw [expand_inherit_of_none h]
          exact .skip (fresh?_eq_none_iff.mp h) (ihc hn)
        | some m =>
          obtain ⟨hm, hs⟩ := fresh?_eq_some_iff.mp h
          have hlt := unseen_lt_of_fresh? h
          rw [expand_enter h]
          exact .enter hm hs (ih _ (hlt.trans_le hn) le_rfl m.program)
            (ihc ((unseen_anti (List.subset_append_left _ _)).trans hn))

theorem visits_iff : Visits ms marked cs vs ss ↔ expand ms marked cs = ⟨vs, ss⟩ := by
  constructor
  · exact Visits.expand_eq
  · intro h
    have hv : Visits ms marked cs (expand ms marked cs).visited (expand ms marked cs).steps :=
      visits_expand_of_unseen_le le_rfl cs
    rwa [h] at hv

namespace Builder

/-- The work of a builder, with the mixins whose bodies are run. A body is run within the call that
inherits its mixin. -/
inductive Runs (ms : List Mixin) : Builder → List Call → List Mixin → Builder → Prop where

  | nil {b : Builder} : Runs ms b [] [] b

  | step {b b' : Builder} {s : Step} {cs : List Call} {ran : List Mixin} :
      Runs ms (b.step s) cs ran b' → Runs ms b (.step s :: cs) ran b'

  | skip {b b' : Builder} {i : Nat} {cs : List Call} {ran : List Mixin} :
      b.enters? ms i = none → Runs ms b cs ran b' → Runs ms b (.inherit i :: cs) ran b'

  | enter {b b' b'' : Builder} {i : Nat} {m : Mixin} {cs : List Call} {ran ran' : List Mixin} :
      b.enters? ms i = some m → Runs ms (b.enter m) m.program ran b' → Runs ms b' cs ran' b'' →
      Runs ms b (.inherit i :: cs) (m :: ran ++ ran') b''

variable {b b' : Builder} {ran : List Mixin} {f : Fault} {d : Draft}

theorem Runs.run_eq (h : Runs ms b cs ran b') : b.run ms cs = b' := by
  induction h with
  | nil => exact run_nil _
  | step _ ih => rw [run_step, ih]
  | skip hi _ ih => rw [run_inherit_of_none hi, ih]
  | enter hi _ _ ih ih' => rw [run_inherit_of_some hi, run_append, ih, ih']

theorem exists_runs_of_unseen_le (hn : unseen ms b.inherited ≤ n) (cs : List Call) :
    ∃ ran, Runs ms b cs ran (b.run ms cs) := by
  induction n using Nat.strong_induction_on generalizing b cs with
  | _ n ih =>
    induction cs generalizing b with
    | nil =>
      rw [run_nil]
      exact ⟨[], .nil⟩
    | cons c cs ihc =>
      cases c with
      | step s =>
        obtain ⟨ran, h⟩ := ihc (b := b.step s) hn
        rw [run_step]
        exact ⟨ran, .step h⟩
      | inherit i =>
        cases hi : b.enters? ms i with
        | none =>
          obtain ⟨ran, h⟩ := ihc hn
          rw [run_inherit_of_none hi]
          exact ⟨ran, .skip hi h⟩
        | some m =>
          have hlt := unseen_enter_lt hi
          have hle : unseen ms ((b.enter m).run ms m.program).inherited ≤
              unseen ms (b.enter m).inherited :=
            unseen_anti (inherited_subset_run (b.enter m) m.program)
          obtain ⟨ran, h⟩ := ih _ (hlt.trans_le hn) le_rfl m.program
          obtain ⟨ran', h'⟩ := ihc ((hle.trans hlt.le).trans hn)
          rw [run_inherit_of_some hi, run_append]
          exact ⟨m :: ran ++ ran', .enter hi h h'⟩

theorem Runs.unique {b₁ b₂ : Builder} {ran₁ ran₂ : List Mixin} (h₁ : Runs ms b cs ran₁ b₁)
    (h₂ : Runs ms b cs ran₂ b₂) : ran₁ = ran₂ ∧ b₁ = b₂ := by
  induction h₁ generalizing ran₂ b₂ with
  | nil => cases h₂; exact ⟨rfl, rfl⟩
  | step _ ih => cases h₂ with | step h₂ => exact ih h₂
  | skip hi _ ih =>
    cases h₂ with
    | skip _ h₂ => exact ih h₂
    | enter hi' _ _ => cases hi.symm.trans hi'
  | enter hi _ _ ih ih' =>
    cases h₂ with
    | skip hi' _ => cases hi.symm.trans hi'
    | enter hi' h₂ h₂' =>
      cases hi.symm.trans hi'
      obtain ⟨rfl, rfl⟩ := ih h₂
      obtain ⟨rfl, rfl⟩ := ih' h₂'
      exact ⟨rfl, rfl⟩

theorem Runs.inherited_eq (h : Runs ms b cs ran b') :
    b'.inherited = b.inherited ++ ran.map Mixin.name := by
  induction h with
  | nil => simp
  | step _ ih => exact ih
  | skip _ _ ih => exact ih
  | enter _ _ _ ih ih' => simp [ih', ih, Builder.enter]

theorem Runs.nodup (h : Runs ms b cs ran b') (hb : b.inherited.Nodup) : b'.inherited.Nodup := by
  induction h with
  | nil => exact hb
  | step _ ih => exact ih hb
  | skip _ _ ih => exact ih hb
  | @enter b _ _ _ m _ _ _ hi _ _ ih ih' =>
    have hn := (fresh?_eq_some_iff.mp (enters?_eq_some_iff.mp hi).2).2
    have he : (b.enter m).inherited.Nodup := by
      simpa [Builder.enter] using List.nodup_append.mpr ⟨hb, by simp, by grind⟩
    exact ih' (ih he)

theorem Runs.eq_nil_of_error (h : Runs ms b cs ran b') (hb : b.draft = .error f) : ran = [] := by
  induction h with
  | nil => rfl
  | step _ ih => exact ih (by rw [step_of_error hb, hb])
  | skip _ _ ih => exact ih hb
  | enter hi _ _ _ _ =>
    obtain ⟨⟨d, hd⟩, -⟩ := enters?_eq_some_iff.mp hi
    cases hb.symm.trans hd

/-- A builder runs the bodies that a traversal visits, up to the first fault. -/
theorem Runs.visited (h : Runs ms b cs ran b') :
    ran <+: (expand ms b.inherited cs).visited ∧
      ∀ d, b'.draft = .ok d → ran = (expand ms b.inherited cs).visited := by
  induction h with
  | nil => simp
  | @step b _ s cs _ _ ih => simpa [expand_step, Builder.step] using ih
  | @skip b _ i cs _ hi h ih =>
    cases hb : b.draft with
    | error f =>
      obtain rfl := h.eq_nil_of_error hb
      refine ⟨List.nil_prefix, fun d hd => ?_⟩
      rw [← h.run_eq, run_of_error hb, hb] at hd
      cases hd
    | ok d => rwa [expand_inherit_of_none (fresh?_eq_none_of_enters? hb hi)]
  | @enter b b' _ i m cs ran ran' hi h h' ih ih' =>
    rw [expand_enter (enters?_eq_some_iff.mp hi).2]
    cases hb : b'.draft with
    | error f =>
      obtain rfl := h'.eq_nil_of_error hb
      refine ⟨?_, fun d hd => ?_⟩
      · have hp : ran <+: (expand ms (b.inherited ++ [m.name]) m.program).visited := ih.1
        simpa using hp.trans (List.prefix_append _ _)
      · rw [← h'.run_eq, run_of_error hb, hb] at hd
        cases hd
    | ok d =>
      -- The body met no fault, so it ran all that a traversal visits, and both go on alike.
      have hr : ran = (expand ms (b.inherited ++ [m.name]) m.program).visited := ih.2 d hb
      have hs : b'.inherited = b.inherited ++
          m.name :: (expand ms (b.inherited ++ [m.name]) m.program).names := by
        rw [h.inherited_eq, hr]
        simp [Builder.enter, Expansion.names]
      rw [hs] at ih'
      rw [hr]
      exact ⟨(List.prefix_append_right_inj _).mpr ih'.1,
        fun d hd => congrArg _ (ih'.2 d hd)⟩

end Builder

theorem Definition.visits_iff (d : Definition) :
    Visits d.mixins [] (d.program.filter fun c => !c.isStep) vs ss ↔
      vs = d.mixinPart.visited ∧ ss = d.mixinPart.steps := by
  rw [Stylebook.visits_iff, ← Definition.mixinPart]
  constructor
  · intro h
    simp [h]
  · rintro ⟨rfl, rfl⟩
    rfl

/-- However mixins inherit one another, a compilation comes to an end, in one way, and runs one body
a name at most. The bodies are those that a traversal from the program's own calls visits, up to the
first fault. -/
theorem compile_visits (d : Definition) (E : Engine) (s : Schema) :
    ∃ ran b, Builder.Runs d.mixins (.start E s) d.calls ran b ∧
      (∀ ran' b', Builder.Runs d.mixins (.start E s) d.calls ran' b' → ran' = ran ∧ b' = b) ∧
      (Text.allBlank d.title = false → d.compile E s = b.finish d.id d.title) ∧
      (ran.map Mixin.name).Nodup ∧
      (∀ vs ss, Visits d.mixins [] (d.program.filter fun c => !c.isStep) vs ss → ran <+: vs) ∧
      ∀ st, d.compile E s = .ok st →
        st.inherited.Nodup ∧ st.inherited = ran.map Mixin.name ∧
          ∀ vs ss, Visits d.mixins [] (d.program.filter fun c => !c.isStep) vs ss ↔
            vs = ran ∧ ss = d.mixinPart.steps := by
  obtain ⟨ran, h⟩ : ∃ ran, Builder.Runs d.mixins (.start E s) d.calls ran
      ((Builder.start E s).run d.mixins d.calls) :=
    Builder.exists_runs_of_unseen_le le_rfl d.calls
  have hi := h.inherited_eq
  have hn := h.nodup List.nodup_nil
  rw [hi] at hn
  obtain ⟨hp, hv⟩ := h.visited
  simp only [Builder.start, d.expand_calls] at hn hp hv
  refine ⟨ran, _, h, fun _ _ h' => h'.unique h, fun ht => d.compile_of_titled ht E s, hn, ?_, ?_⟩
  · intro vs ss hvs
    rwa [(d.visits_iff.mp hvs).1]
  · intro st hst
    obtain ⟨-, dr, hd, -, rfl⟩ := Definition.compile_eq_ok_iff.mp hst
    obtain rfl := hv dr ((d.draft_run_calls E s).trans hd)
    exact ⟨hn, rfl, fun vs ss => d.visits_iff⟩

/-- Mixins that inherit each other and themselves, and two of one name. -/
def Definition.tangled : Definition where
  id := "tangled"
  title := "Tangled"
  description := none
  mixins := [⟨"a", [.inherit 1, .step (.text "a" [])]⟩,
    ⟨"b", [.step (.text "b" []), .inherit 0, .inherit 1]⟩, ⟨"b", [.step (.text "c" [])]⟩]
  program := [.step (.text "d" []), .inherit 1, .inherit 2, .inherit 0]

def Style.tangled : Style where
  id := "tangled"
  title := "Tangled"
  items := [.text ⟨"text", "b", .normal, 0⟩, .text ⟨"text1", "a", .normal, 1⟩,
    .text ⟨"text2", "d", .normal, 2⟩]
  rules := []
  triggers := []
  inherited := ["b", "a"]

theorem compile_visits_tangled :
    Definition.tangled.compile .usual .empty = .ok .tangled ∧ Style.tangled.inherited.Nodup ∧
      ∃ vs ss, Visits Definition.tangled.mixins []
        (Definition.tangled.program.filter fun c => !c.isStep) vs ss ∧
          vs.map Mixin.name = Style.tangled.inherited := by
  have h : Definition.tangled.compile .usual .empty = .ok .tangled :=
    (Definition.compile_of_titled (by decide) _ _).trans (by cbv)
  obtain ⟨ran, _, -, -, -, -, -, hok⟩ := compile_visits .tangled .usual .empty
  obtain ⟨hn, hi, hv⟩ := hok .tangled h
  exact ⟨h, hn, ran, _, (hv ran _).mpr ⟨rfl, rfl⟩, hi.symm⟩

end Stylebook
