import Xv6.Threads

/-!
Programs that run without interference.

`alone ex good m s Q` says that `m`, started in `s` and with answers from outside that are
`good`, never has to wait and returns with a result and a state that satisfy `Q`.
-/

namespace Xv6.Alone

open Threads

variable {S : Sig} {U σ τ α β : Type}

lemma bind_ret (m : Prog S α) : m.bind .ret = m := by
  induction m with
  | ret a => rfl
  | op o k ih => exact congrArg (Prog.op o) (funext ih)

lemma bind_bind {γ : Type} (m : Prog S α) (f : α → Prog S β) (g : β → Prog S γ) :
    (m.bind f).bind g = m.bind fun a => (f a).bind g := by
  induction m with
  | ret a => rfl
  | op o k ih => exact congrArg (Prog.op o) (funext ih)

instance : LawfulMonad (Prog S) :=
  LawfulMonad.mk' _ (fun m => bind_ret m) (fun _ _ => rfl) fun m f g => bind_bind m f g

def alone (ex : (o : S.Op) → U → σ → Option (S.Resp o × σ)) (good : U → Prop) :
    Prog S α → σ → (α → σ → Prop) → Prop
  | .ret a, s, Q => Q a s
  | .op o k, s, Q => ∀ u, good u → ∃ r s', ex o u s = some (r, s') ∧ alone ex good (k r) s' Q

variable {ex : (o : S.Op) → U → σ → Option (S.Resp o × σ)} {good : U → Prop} {m : Prog S α}
  {f : α → Prog S β} {s : σ}

lemma alone_pure {a : α} {Q : α → σ → Prop} : alone ex good (pure a : Prog S α) s Q ↔ Q a s :=
  Iff.rfl

lemma alone.mono {Q Q' : α → σ → Prop} (h : alone ex good m s Q)
    (hq : ∀ a t, Q a t → Q' a t) : alone ex good m s Q' := by
  induction m generalizing s with
  | ret a => exact hq a s h
  | op o k ih =>
    intro u hu
    obtain ⟨r, s', hex, hk⟩ := h u hu
    exact ⟨r, s', hex, ih r hk⟩

lemma alone_bind {Q : β → σ → Prop} : alone ex good (m >>= f) s Q ↔
    alone ex good m s fun a t => alone ex good (f a) t Q := by
  induction m generalizing s with
  | ret a => exact Iff.rfl
  | op o k ih =>
    constructor
    · intro h u hu
      obtain ⟨r, s', hex, hk⟩ := h u hu
      exact ⟨r, s', hex, (ih r).mp hk⟩
    · intro h u hu
      obtain ⟨r, s', hex, hk⟩ := h u hu
      exact ⟨r, s', hex, (ih r).mpr hk⟩

lemma alone.seq {R : α → σ → Prop} {Q : β → σ → Prop} (h : alone ex good m s R)
    (hf : ∀ a t, R a t → alone ex good (f a) t Q) : alone ex good (m >>= f) s Q :=
  alone_bind.mpr (h.mono hf)

lemma alone_op {o : S.Op} {k : S.Resp o → Prog S α} {Q : α → σ → Prop} :
    alone ex good (.op o k) s Q ↔
      ∀ u, good u → ∃ r s', ex o u s = some (r, s') ∧ alone ex good (k r) s' Q := Iff.rfl

lemma alone_ask_iff {o : S.Op} {Q : S.Resp o → σ → Prop} : alone ex good (Prog.ask o) s Q ↔
    ∀ u, good u → ∃ r s', ex o u s = some (r, s') ∧ Q r s' := Iff.rfl

lemma alone_ask {o : S.Op} {r : S.Resp o} {s' : σ} {Q : S.Resp o → σ → Prop}
    (h : ∀ u, good u → ex o u s = some (r, s')) (hq : Q r s') :
    alone ex good (Prog.ask o) s Q := alone_ask_iff.mpr fun u hu => ⟨r, s', h u hu, hq⟩

lemma alone_step {o : S.Op} {k : S.Resp o → Prog S β} {r : S.Resp o} {t : σ}
    {Q : β → σ → Prop} (h : ∀ u, good u → ex o u s = some (r, t))
    (hk : alone ex good (k r) t Q) : alone ex good (Prog.ask o >>= k) s Q :=
  alone_bind.mpr (alone_ask h hk)

lemma alone.outcome {Q Q' : α → σ → Prop} (hgood : ∃ u, good u) (h : alone ex good m s Q)
    (h' : alone ex good m s Q') : ∃ a t, Q a t ∧ Q' a t := by
  obtain ⟨u, hu⟩ := hgood
  induction m generalizing s with
  | ret a => exact ⟨a, s, h, h'⟩
  | op o k ih =>
    obtain ⟨r, s₁, hex, hk⟩ := h u hu
    obtain ⟨r', s₁', hex', hk'⟩ := h' u hu
    cases hex.symm.trans hex'
    exact ih r hk hk'

section Simulate

variable {P : σ → Prop} {Q : α → σ → Prop}
  (hback : ∀ o u s r s', ex o u s = some (r, s') → P s' → P s) (hQ : ∀ a s, Q a s → P s)

include hback hQ

lemma alone.back (hgood : ∃ u, good u) (h : alone ex good m s Q) : P s := by
  obtain ⟨u, hu⟩ := hgood
  induction m generalizing s with
  | ret a => exact hQ a s h
  | op o k ih =>
    obtain ⟨r, s', hex, hk⟩ := h u hu
    exact hback o u s r s' hex (ih r hk)

/-- What a program does over one state it also does over another that simulates it, where `P` is
known of every state on the way because it is known of the last one. -/
lemma alone.simulate {ex' : (o : S.Op) → U → τ → Option (S.Resp o × τ)} {R : τ → σ → Prop}
    (hsim : ∀ o u s r s' t, good u → R t s → P s' → ex o u s = some (r, s') →
      ∃ t', ex' o u t = some (r, t') ∧ R t' s')
    (hgood : ∃ u, good u) {t : τ} (hR : R t s) (h : alone ex good m s Q) :
    alone ex' good m t fun a t' => ∃ s', R t' s' ∧ Q a s' := by
  induction m generalizing s t with
  | ret a => exact ⟨s, hR, h⟩
  | op o k ih =>
    intro u hu
    obtain ⟨r, s', hex, hk⟩ := h u hu
    obtain ⟨t', hex', hR'⟩ := hsim o u s r s' t hu hR (hk.back hback hQ hgood) hex
    exact ⟨r, t', hex', ih r hR' hk⟩

end Simulate

-- Programs are followed by the rules above only: unfolding `alone` would evaluate the program.
attribute [irreducible] alone

end Xv6.Alone
