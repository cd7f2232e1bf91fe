import Mathlib.Logic.Function.Basic
import Xv6.Runs

/-!
Threads that run programs over a shared state, one request at a time.

A program is a tree of requests; what a request does is up to the world it runs in, which may
also make it wait. Threads are verified one by one: a thread's own view `g` of the shared
state is tied to it by an invariant over all views, and a step of the thread may change its
own view only. What a thread knows through its view is therefore not lost when others run.
-/

namespace Xv6.Threads

open Runs

/-- The requests there are, and the answer to each. -/
structure Sig where
  Op : Type
  Resp : Op → Type

inductive Prog (S : Sig) (α : Type) : Type
  | ret (a : α)
  | op (o : S.Op) (k : S.Resp o → Prog S α)

variable {S : Sig} {α β : Type}

namespace Prog

def bind : Prog S α → (α → Prog S β) → Prog S β
  | ret a, f => f a
  | op o k, f => op o fun r => (k r).bind f

instance : Monad (Prog S) where
  pure := ret
  bind := bind

def ask (o : S.Op) : Prog S (S.Resp o) := op o ret

end Prog

/-- What requests do, and what is to be shown of them: `exec` answers a request and changes the
state, or makes the thread wait; `guard` says which answers count, `safe` what a thread must know
when it makes a request, and `inv` ties the state to the views. -/
structure World (S : Sig) (P U σ γ : Type) where
  exec : P → (o : S.Op) → U → σ → Option (S.Resp o × σ)
  guard : P → S.Op → U → σ → Prop
  safe : P → S.Op → γ → Prop
  inv : σ → (P → γ) → Prop

variable {P U σ γ : Type} [DecidableEq P]

/-- From the view `g`, the program makes safe requests only, keeps the invariant, and returns
with a result and a view that satisfy `Q`. Before each request, and at its end, it may replace
its view by another that fits the state. -/
def ok (W : World S P U σ γ) (p : P) : Prog S α → γ → (α → γ → Prop) → Prop
  | .ret a, g, Q => ∀ s Γ, W.inv s Γ → Γ p = g →
      ∃ g', W.inv s (Function.update Γ p g') ∧ Q a g'
  | .op o k, g, Q => ∀ s Γ, W.inv s Γ → Γ p = g →
      ∃ g', W.inv s (Function.update Γ p g') ∧ W.safe p o g' ∧
        ∀ s Γ, W.inv s Γ → Γ p = g' → ∀ u r s', W.guard p o u s →
          W.exec p o u s = some (r, s') →
          ∃ g'', W.inv s' (Function.update Γ p g'') ∧ ok W p (k r) g'' Q

variable {W : World S P U σ γ} {p : P} {m : Prog S α} {g : γ} {Q : α → γ → Prop}

lemma ok.shift (h : ∀ s Γ, W.inv s Γ → Γ p = g →
    ∃ g', W.inv s (Function.update Γ p g') ∧ ok W p m g' Q) : ok W p m g Q := by
  cases m
  all_goals
    intro s Γ hi hg
    obtain ⟨g', hi', hok⟩ := h s Γ hi hg
    have := hok s _ hi' (Function.update_self _ _ _)
    simpa only [Function.update_idem] using this

lemma ok.ret {a : α} (h : Q a g) : ok W p (.ret a) g Q := fun s Γ hi hg =>
  ⟨g, by rwa [← hg, Function.update_eq_self], h⟩

lemma ok.ask {o : S.Op} {Q : S.Resp o → γ → Prop} (hsafe : W.safe p o g)
    (h : ∀ s Γ, W.inv s Γ → Γ p = g → ∀ u r s', W.guard p o u s → W.exec p o u s = some (r, s') →
      ∃ g', W.inv s' (Function.update Γ p g') ∧ Q r g') : ok W p (Prog.ask o) g Q := by
  intro s Γ hi hg
  refine ⟨g, by rwa [← hg, Function.update_eq_self], hsafe, fun s Γ hi hg u r s' hgd he => ?_⟩
  obtain ⟨g', hi', hq⟩ := h s Γ hi hg u r s' hgd he
  exact ⟨g', hi', ok.ret hq⟩

lemma ok.mono {Q' : α → γ → Prop} (h : ok W p m g Q) (hq : ∀ a g', Q a g' → Q' a g') :
    ok W p m g Q' := by
  induction m generalizing g with
  | ret a =>
    intro s Γ hi hg
    obtain ⟨g', hi', h'⟩ := h s Γ hi hg
    exact ⟨g', hi', hq _ _ h'⟩
  | op o k ih =>
    intro s Γ hi hg
    obtain ⟨g', hi', hsafe, hnext⟩ := h s Γ hi hg
    refine ⟨g', hi', hsafe, fun s Γ hi hg u r s' hgd he => ?_⟩
    obtain ⟨g'', hi'', h'⟩ := hnext s Γ hi hg u r s' hgd he
    exact ⟨g'', hi'', ih r h'⟩

lemma ok.bind {f : α → Prog S β} {Q : β → γ → Prop}
    (h : ok W p m g fun a g' => ok W p (f a) g' Q) : ok W p (m >>= f) g Q := by
  show ok W p (m.bind f) g Q
  induction m generalizing g with
  | ret a => exact ok.shift h
  | op o k ih =>
    intro s Γ hi hg
    obtain ⟨g', hi', hsafe, hnext⟩ := h s Γ hi hg
    refine ⟨g', hi', hsafe, fun s Γ hi hg u r s' hgd he => ?_⟩
    obtain ⟨g'', hi'', h'⟩ := hnext s Γ hi hg u r s' hgd he
    exact ⟨g'', hi'', ih r h'⟩

lemma ok.seq {f : α → Prog S β} {R : α → γ → Prop} {Q : β → γ → Prop} (h : ok W p m g R)
    (hf : ∀ a g', R a g' → ok W p (f a) g' Q) : ok W p (m >>= f) g Q :=
  ok.bind (h.mono hf)

/-! ### Many threads -/

/-- The shared state, and what each thread has left to do: nothing, between its calls. -/
structure Sys (S : Sig) (P σ : Type) where
  shared : σ
  thread : P → Prog S Unit

inductive Act (P U C : Type)
  | start (p : P) (c : C)
  | turn (p : P) (u : U)

variable {C : Type}

/-- A thread between calls starts one; a thread in a call makes its next request. -/
def step (exec : P → (o : S.Op) → U → σ → Option (S.Resp o × σ))
    (call : P → C → σ → Option (σ × Prog S Unit)) (s : Sys S P σ) :
    Act P U C → Option (Sys S P σ)
  | .start p c =>
    match s.thread p with
    | .ret _ => (call p c s.shared).map fun x => ⟨x.1, Function.update s.thread p x.2⟩
    | .op _ _ => none
  | .turn p u =>
    match s.thread p with
    | .ret _ => none
    | .op o k => (exec p o u s.shared).map fun x => ⟨x.2, Function.update s.thread p (k x.1)⟩

def guardAct (guard : P → S.Op → U → σ → Prop) (s : Sys S P σ) : Act P U C → Prop
  | .start _ _ => True
  | .turn p u =>
    match s.thread p with
    | .ret _ => True
    | .op o _ => guard p o u s.shared

variable {idle : P → γ → Prop} {call : P → C → σ → Option (σ × Prog S Unit)}

/-- There are views that fit the state, from each of which the rest of the thread's call is
verified. Between calls a thread has an idle view. -/
def Fine (W : World S P U σ γ) (idle : P → γ → Prop) (s : Sys S P σ) : Prop :=
  ∃ Γ, W.inv s.shared Γ ∧ ∀ p, ok W p (s.thread p) (Γ p) fun _ g => idle p g

lemma Fine.update {s : Sys S P σ} {s' : σ} {Γ : P → γ} {m : Prog S Unit} {g : γ}
    (hok : ∀ q, q ≠ p → ok W q (s.thread q) (Γ q) fun _ g => idle q g)
    (hi : W.inv s' (Function.update Γ p g)) (h : ok W p m g fun _ g' => idle p g') :
    Fine W idle ⟨s', Function.update s.thread p m⟩ := by
  refine ⟨_, hi, fun q => ?_⟩
  by_cases e : q = p
  · subst e
    simpa using h
  · simpa [Function.update_of_ne e] using hok q e

lemma Fine.request {s : Sys S P σ} {o : S.Op} {k : S.Resp o → Prog S Unit} (h : Fine W idle s)
    (hp : s.thread p = .op o k) :
    ∃ Γ, W.inv s.shared Γ ∧ (∀ q, q ≠ p → ok W q (s.thread q) (Γ q) fun _ g => idle q g) ∧
      W.safe p o (Γ p) ∧ ∀ u r s', W.guard p o u s.shared →
        W.exec p o u s.shared = some (r, s') →
        ∃ g', W.inv s' (Function.update Γ p g') ∧ ok W p (k r) g' fun _ g => idle p g := by
  obtain ⟨Γ, hi, hok⟩ := h
  have hthread := hok p
  rw [hp] at hthread
  obtain ⟨g', hi', hsafe, hnext⟩ := hthread s.shared Γ hi rfl
  refine ⟨Function.update Γ p g', hi', fun q hq => ?_, ?_, ?_⟩
  · rw [Function.update_of_ne hq]
    exact hok q
  · rw [Function.update_self]
    exact hsafe
  · exact hnext s.shared _ hi' (Function.update_self _ _ _)

lemma Fine.between {s : Sys S P σ} {a : Unit} (h : Fine W idle s) (hp : s.thread p = .ret a) :
    ∃ Γ, W.inv s.shared Γ ∧ (∀ q, q ≠ p → ok W q (s.thread q) (Γ q) fun _ g => idle q g) ∧
      idle p (Γ p) := by
  obtain ⟨Γ, hi, hok⟩ := h
  have hthread := hok p
  rw [hp] at hthread
  obtain ⟨g', hi', hidle⟩ := hthread s.shared Γ hi rfl
  refine ⟨Function.update Γ p g', hi', fun q hq => ?_, ?_⟩
  · rw [Function.update_of_ne hq]
    exact hok q
  · rw [Function.update_self]
    exact hidle

/-! ### Interrupts -/

/-- What can happen: a thread acts, or it is interrupted. -/
inductive Event (P U C I : Type)
  | act (a : Act P U C)
  | interrupt (p : P) (i : I)

variable {I : Type}

/-- An interrupted thread runs the handler, and goes on with what it was doing. -/
def next (exec : P → (o : S.Op) → U → σ → Option (S.Resp o × σ))
    (call : P → C → σ → Option (σ × Prog S Unit)) (irq : P → I → σ → Option (σ × Prog S Unit))
    (s : Sys S P σ) : Event P U C I → Option (Sys S P σ)
  | .act a => step exec call s a
  | .interrupt p i => (irq p i s.shared).map fun x =>
      ⟨x.1, Function.update s.thread p (x.2 >>= fun _ => s.thread p)⟩

def guardEvent (guard : P → S.Op → U → σ → Prop) (s : Sys S P σ) : Event P U C I → Prop
  | .act a => guardAct guard s a
  | .interrupt _ _ => True

omit [DecidableEq P] in
lemma guardEvent_of {guard : P → S.Op → U → σ → Prop} (h : ∀ p o u s, guard p o u s)
    (s : Sys S P σ) (e : Event P U C I) : guardEvent guard s e := by
  cases e with
  | interrupt p i => trivial
  | act a =>
    cases a with
    | start p c => trivial
    | turn p u =>
      simp only [guardEvent, guardAct]
      split
      · trivial
      · exact h _ _ _ _

variable {irq : P → I → σ → Option (σ × Prog S Unit)}

/-! ### Together -/

variable (hcall : ∀ p c s Γ s' m, W.inv s Γ → idle p (Γ p) → call p c s = some (s', m) →
  ∃ g', W.inv s' (Function.update Γ p g') ∧ ok W p m g' fun _ g'' => idle p g'')

include hcall

/-- **Threads verified one by one can run together.** -/
theorem step_fine {s t : Sys S P σ} {a : Act P U C} (h : Fine W idle s)
    (hg : guardAct W.guard s a) (ht : step W.exec call s a = some t) : Fine W idle t := by
  cases a with
  | start p c =>
    simp only [step] at ht
    split at ht
    · rename_i x hp
      obtain ⟨y, hy, rfl⟩ := Option.map_eq_some_iff.mp ht
      obtain ⟨Γ, hi, hok, hidle⟩ := h.between hp
      obtain ⟨g', hi', hok'⟩ := hcall p c s.shared Γ y.1 y.2 hi hidle hy
      exact Fine.update hok hi' hok'
    · cases ht
  | turn p u =>
    simp only [step, guardAct] at ht hg
    split at ht
    · cases ht
    · rename_i o k hp
      obtain ⟨y, hy, rfl⟩ := Option.map_eq_some_iff.mp ht
      rw [hp] at hg
      obtain ⟨Γ, hi, hok, -, hnext⟩ := h.request hp
      obtain ⟨g', hi', hok'⟩ := hnext u y.1 y.2 hg hy
      exact Fine.update hok hi' hok'

variable (hirq : ∀ p i s Γ s' m, W.inv s Γ → irq p i s = some (s', m) →
  ∃ g', W.inv s' (Function.update Γ p g') ∧ ok W p m g' fun _ g'' => g'' = Γ p)

include hirq

theorem next_fine {s t : Sys S P σ} {e : Event P U C I} (h : Fine W idle s)
    (hg : guardEvent W.guard s e) (ht : next W.exec call irq s e = some t) : Fine W idle t := by
  cases e with
  | act a => exact step_fine hcall h hg ht
  | interrupt p i =>
    obtain ⟨Γ, hi, hok⟩ := h
    obtain ⟨y, hy, rfl⟩ := Option.map_eq_some_iff.mp ht
    obtain ⟨g', hi', hok'⟩ := hirq p i s.shared Γ y.1 y.2 hi hy
    refine Fine.update (fun q _ => hok q) hi' (hok'.seq fun _ g'' hg'' => ?_)
    rw [hg'']
    exact hok p

/-- **In every state that such threads reach together, the views fit.** -/
theorem reach_fine {init : Sys S P σ → Prop} {okay : Sys S P σ → Event P U C I → Prop}
    (h₀ : ∀ s, init s → Fine W idle s) (hg : ∀ s e, okay s e → guardEvent W.guard s e)
    {s : Sys S P σ} (h : Reach (next W.exec call irq) okay init s) : Fine W idle s :=
  h.invariant h₀ fun s e _ hs hok ht => next_fine hcall hirq hs (hg s e hok) ht

end Xv6.Threads
