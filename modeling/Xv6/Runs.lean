import Mathlib.Logic.Relation
import Mathlib.Tactic.Common

/-!
Transition systems given by a partial step function on labelled actions: their runs, the
states runs reach, and the rules that carry an invariant along every run.

An action that is not possible in a state has no successor there. The guard `ok` of
`Reach` restricts which actions a run may take, as a condition on the state before the
step; `Always` is no restriction.
-/

namespace Xv6.Runs

variable {S A : Type*}

def run (step : S → A → Option S) : S → List A → Option S
  | s, [] => some s
  | s, a :: as => (step s a).bind fun t => run step t as

@[simp] lemma run_nil (step : S → A → Option S) (s : S) : run step s [] = some s := rfl

@[simp] lemma run_cons (step : S → A → Option S) (s : S) (a : A) (as : List A) :
    run step s (a :: as) = (step s a).bind fun t => run step t as := rfl

def Always : S → A → Prop := fun _ _ => True

/-- The states reached from `init` by steps that all satisfy `ok`. -/
inductive Reach (step : S → A → Option S) (ok : S → A → Prop) (init : S → Prop) : S → Prop
  | init {s : S} : init s → Reach step ok init s
  | step {s t : S} {a : A} : Reach step ok init s → ok s a → step s a = some t →
      Reach step ok init t

variable {step : S → A → Option S} {ok : S → A → Prop} {init : S → Prop}

/-- **The invariant rule.** What holds initially and is kept by every allowed step holds in
every state reached. -/
theorem Reach.invariant {I : S → Prop} (h₀ : ∀ s, init s → I s)
    (hs : ∀ s a t, I s → ok s a → step s a = some t → I t) {s : S}
    (h : Reach step ok init s) : I s := by
  induction h with
  | init hi => exact h₀ _ hi
  | step _ hok ht ih => exact hs _ _ _ ih hok ht

lemma Reach.next {s t : S} (h : Reach step ok init s) (a : A) (hok : ok s a)
    (ht : step s a = some t) : Reach step ok init t :=
  .step h hok ht

lemma Reach.of_run {s t : S} (h : Reach step Always init s) :
    ∀ {as : List A}, run step s as = some t → Reach step Always init t := by
  intro as hr
  induction as generalizing s with
  | nil =>
    simp only [run_nil, Option.some.injEq] at hr
    exact hr ▸ h
  | cons a as ih =>
    rw [run_cons, Option.bind_eq_some_iff] at hr
    obtain ⟨u, hu, hr⟩ := hr
    exact ih (.step h trivial hu) hr

/-- The system that takes only the steps that satisfy `ok`. -/
def guarded (step : S → A → Option S) (ok : S → A → Prop) [∀ s a, Decidable (ok s a)] :
    S → A → Option S :=
  fun s a => if ok s a then step s a else none

lemma Reach.of_guarded [∀ s a, Decidable (ok s a)] {s t : S} (h : Reach step ok init s) :
    ∀ {as : List A}, run (guarded step ok) s as = some t → Reach step ok init t := by
  intro as hr
  induction as generalizing s with
  | nil =>
    simp only [run_nil, Option.some.injEq] at hr
    exact hr ▸ h
  | cons a as ih =>
    rw [run_cons, Option.bind_eq_some_iff] at hr
    obtain ⟨u, hu, hr⟩ := hr
    unfold guarded at hu
    split_ifs at hu with hok
    exact ih (.step h hok hu) hr

end Xv6.Runs
