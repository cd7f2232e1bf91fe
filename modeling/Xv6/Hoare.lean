import Mathlib.Tactic.Common

/-!
Computations that pass a state along and may stop with an error, and the weakest
preconditions that reason about them.

`wp m s Q` says that `m` started in `s` returns, without an error, a value and a state that
satisfy `Q`. The rules below take a computation apart along its syntax; a loop is an
iteration of `search`, whose rule is the one for loop invariants.
-/

namespace Xv6.Hoare

variable {σ τ ε α β : Type}

/-- The computation returns normally, and its result and its final state satisfy `Q`. -/
def wp (m : StateT σ (Except ε) α) (s : σ) (Q : α → σ → Prop) : Prop :=
  ∃ a t, m s = .ok (a, t) ∧ Q a t

variable {m : StateT σ (Except ε) α} {f : α → StateT σ (Except ε) β} {s t : σ}

@[simp] lemma wp_pure {a : α} {Q : α → σ → Prop} :
    wp (pure a : StateT σ (Except ε) α) s Q ↔ Q a s := by
  constructor
  · rintro ⟨b, t, h, hq⟩
    cases h
    exact hq
  · exact fun h => ⟨a, s, rfl, h⟩

@[simp] lemma wp_bind {Q : β → σ → Prop} :
    wp (m >>= f) s Q ↔ wp m s fun a t => wp (f a) t Q := by
  constructor
  · rintro ⟨b, u, h, hq⟩
    change (m s).bind (fun p => f p.1 p.2) = .ok (b, u) at h
    cases e : m s with
    | error e' => simp [e, Except.bind] at h
    | ok p =>
      rw [e] at h
      exact ⟨p.1, p.2, e, b, u, h, hq⟩
  · rintro ⟨a, u, h, b, v, h', hq⟩
    refine ⟨b, v, ?_, hq⟩
    change (m s).bind (fun p => f p.1 p.2) = .ok (b, v)
    rw [h]
    exact h'

@[simp] lemma wp_get {Q : σ → σ → Prop} :
    wp (get : StateT σ (Except ε) σ) s Q ↔ Q s s := by
  constructor
  · rintro ⟨a, t, h, hq⟩
    cases h
    exact hq
  · exact fun h => ⟨s, s, rfl, h⟩

@[simp] lemma wp_set {Q : PUnit → σ → Prop} :
    wp (set t : StateT σ (Except ε) PUnit) s Q ↔ Q ⟨⟩ t := by
  constructor
  · rintro ⟨a, u, h, hq⟩
    cases h
    exact hq
  · exact fun h => ⟨⟨⟩, t, rfl, h⟩

@[simp] lemma wp_modify {g : σ → σ} {Q : PUnit → σ → Prop} :
    wp (modify g : StateT σ (Except ε) PUnit) s Q ↔ Q ⟨⟩ (g s) := by
  constructor
  · rintro ⟨a, u, h, hq⟩
    cases h
    exact hq
  · exact fun h => ⟨⟨⟩, g s, rfl, h⟩

@[simp] lemma wp_throw {e : ε} {Q : α → σ → Prop} :
    ¬ wp (throw e : StateT σ (Except ε) α) s Q := by
  rintro ⟨a, t, h, -⟩
  cases h

lemma wp.mono {Q R : α → σ → Prop} (h : wp m s Q) (hr : ∀ a t, Q a t → R a t) : wp m s R := by
  obtain ⟨a, t, e, hq⟩ := h
  exact ⟨a, t, e, hr a t hq⟩

lemma wp.and {Q R : α → σ → Prop} (h : wp m s Q) (h' : wp m s R) :
    wp m s fun a t => Q a t ∧ R a t := by
  obtain ⟨a, t, e, hq⟩ := h
  obtain ⟨b, u, e', hr⟩ := h'
  rw [e] at e'
  cases e'
  exact ⟨a, t, e, hq, hr⟩

lemma wp.bind {Q : α → σ → Prop} {R : β → σ → Prop} (h : wp m s Q)
    (hr : ∀ a t, Q a t → wp (f a) t R) : wp (m >>= f) s R :=
  wp_bind.mpr (h.mono hr)

@[simp] lemma wp_discard {Q : PUnit → σ → Prop} :
    wp (discard m) s Q ↔ wp m s fun _ t => Q ⟨⟩ t := by
  have h : discard m = m >>= fun _ => pure ⟨⟩ := rfl
  rw [h, wp_bind]
  simp only [wp_pure]

/-- The computation returns with `Q`, or stops with one of the errors `E`. -/
def wpOr (E : ε → Prop) (m : StateT σ (Except ε) α) (s : σ) (Q : α → σ → Prop) : Prop :=
  (∃ e, m s = .error e ∧ E e) ∨ wp m s Q

lemma wpOr_throw {E : ε → Prop} {e : ε} {Q : α → σ → Prop} (h : E e) :
    wpOr E (throw e : StateT σ (Except ε) α) s Q := .inl ⟨e, rfl, h⟩

@[simp] lemma wpOr_throw_iff {E : ε → Prop} {e : ε} {Q : α → σ → Prop} :
    wpOr E (throw e : StateT σ (Except ε) α) s Q ↔ E e := by
  constructor
  · rintro (⟨e', he, hE⟩ | h)
    · cases he
      exact hE
    · exact absurd h wp_throw
  · exact wpOr_throw

@[simp] lemma wpOr_pure {E : ε → Prop} {a : α} {Q : α → σ → Prop} :
    wpOr E (pure a : StateT σ (Except ε) α) s Q ↔ Q a s := by
  constructor
  · rintro (⟨e, he, -⟩ | h)
    · cases he
    · exact wp_pure.mp h
  · exact fun h => .inr (wp_pure.mpr h)

@[simp] lemma wpOr_get {E : ε → Prop} {Q : σ → σ → Prop} :
    wpOr E (get : StateT σ (Except ε) σ) s Q ↔ Q s s := by
  constructor
  · rintro (⟨e, he, -⟩ | h)
    · cases he
    · exact wp_get.mp h
  · exact fun h => .inr (wp_get.mpr h)

@[simp] lemma wpOr_modify {E : ε → Prop} {g : σ → σ} {Q : PUnit → σ → Prop} :
    wpOr E (modify g : StateT σ (Except ε) PUnit) s Q ↔ Q ⟨⟩ (g s) := by
  constructor
  · rintro (⟨e, he, -⟩ | h)
    · cases he
    · exact wp_modify.mp h
  · exact fun h => .inr (wp_modify.mpr h)

@[simp] lemma wpOr_bind {E : ε → Prop} {Q : β → σ → Prop} :
    wpOr E (m >>= f) s Q ↔ wpOr E m s fun a t => wpOr E (f a) t Q := by
  have hbind : (m >>= f) s = (m s).bind fun p => f p.1 p.2 := rfl
  constructor
  · rintro (⟨e, he, hE⟩ | ⟨b, u, hb, hq⟩)
    · rw [hbind] at he
      cases hm : m s with
      | error e' =>
        rw [hm] at he
        cases he
        exact .inl ⟨e, hm, hE⟩
      | ok p =>
        rw [hm] at he
        exact .inr ⟨p.1, p.2, hm, .inl ⟨e, he, hE⟩⟩
    · rw [hbind] at hb
      cases hm : m s with
      | error e' =>
        rw [hm] at hb
        cases hb
      | ok p =>
        rw [hm] at hb
        exact .inr ⟨p.1, p.2, hm, .inr ⟨b, u, hb, hq⟩⟩
  · rintro (⟨e, he, hE⟩ | ⟨a, t, hm, h⟩)
    · refine .inl ⟨e, ?_, hE⟩
      rw [hbind, he]
      rfl
    · have hrun : (m >>= f) s = f a t := by
        rw [hbind, hm]
        rfl
      rcases h with ⟨e, he, hE⟩ | ⟨b, u, hb, hq⟩
      · exact .inl ⟨e, hrun.trans he, hE⟩
      · exact .inr ⟨b, u, hrun.trans hb, hq⟩

lemma wpOr.mono {E : ε → Prop} {Q R : α → σ → Prop} (h : wpOr E m s Q)
    (hr : ∀ a t, Q a t → R a t) : wpOr E m s R :=
  h.imp id fun h => h.mono hr

lemma bind_error {e : ε} (h : m s = .error e) : (m >>= f) s = .error e := by
  change (m s).bind (fun p => f p.1 p.2) = .error e
  rw [h]
  rfl

lemma wpOr_stop {E : ε → Prop} {e : ε} {R : β → σ → Prop} (h : m s = .error e) (hE : E e) :
    wpOr E (m >>= f) s R := .inl ⟨e, bind_error h, hE⟩

lemma wpOr.of_ok {E : ε → Prop} {Q : α → σ → Prop} {a : α} (h : wpOr E m s Q)
    (hm : m s = .ok (a, t)) : Q a t := by
  rcases h with ⟨e, he, -⟩ | ⟨b, u, hb, hq⟩
  · rw [hm] at he
    cases he
  · rw [hm] at hb
    cases hb
    exact hq

lemma wp.bindOr {E : ε → Prop} {Q : α → σ → Prop} {R : β → σ → Prop} (h : wp m s Q)
    (hr : ∀ a t, Q a t → wpOr E (f a) t R) : wpOr E (m >>= f) s R := by
  obtain ⟨a, t, e, hq⟩ := h
  have hbind : (m >>= f) s = f a t := by
    change (m s).bind (fun p => f p.1 p.2) = f a t
    rw [e]
    rfl
  rcases hr a t hq with ⟨e', he', hE⟩ | ⟨b, u, hb, hR⟩
  · exact .inl ⟨e', hbind.trans he', hE⟩
  · exact .inr ⟨b, u, hbind.trans hb, hR⟩

lemma wpOr.returns {E : ε → Prop} {Q : α → σ → Prop} (h : wpOr E m s Q) (hE : ∀ e, ¬ E e) :
    wp m s Q := by
  rcases h with ⟨e, -, he⟩ | h
  · exact absurd he (hE e)
  · exact h

/-! ### Computations on a part of the state -/

/-- Running a computation on the part of the state that `get` reads and `put` replaces. -/
def zoom (get : τ → σ) (put : τ → σ → τ) (m : StateT σ (Except ε) α) :
    StateT τ (Except ε) α := fun s =>
  (m (get s)).map fun p => (p.1, put s p.2)

@[simp] lemma wp_zoom {get : τ → σ} {put : τ → σ → τ} {s : τ} {Q : α → τ → Prop} :
    wp (zoom get put m) s Q ↔ wp m (get s) fun a t => Q a (put s t) := by
  constructor
  · rintro ⟨a, t, h, hq⟩
    unfold zoom at h
    cases e : m (get s) with
    | error e' => simp [e, Except.map] at h
    | ok p =>
      simp only [e, Except.map, Except.ok.injEq, Prod.mk.injEq] at h
      obtain ⟨rfl, rfl⟩ := h
      exact ⟨p.1, p.2, e, hq⟩
  · rintro ⟨a, t, h, hq⟩
    exact ⟨a, put s t, by simp [zoom, h, Except.map], hq⟩

lemma zoom_error {get : τ → σ} {put : τ → σ → τ} {s : τ} {e : ε} (h : m (get s) = .error e) :
    zoom get put m s = .error e := by
  rw [zoom, h]
  rfl

/-! ### Branches -/

def whenSome (o : Option β) (g : β → StateT σ (Except ε) Unit) : StateT σ (Except ε) Unit :=
  match o with
  | some b => g b
  | none => pure ()

@[simp] lemma whenSome_none {g : β → StateT σ (Except ε) Unit} : whenSome none g = pure () := rfl

@[simp] lemma whenSome_some {g : β → StateT σ (Except ε) Unit} {b : β} :
    whenSome (some b) g = g b := rfl

/-! ### Loops -/

/-- The loop over `i, i + 1, …`, at most `k` times, that stops where the body returns
something. -/
def search (body : ℕ → StateT σ (Except ε) (Option α)) : ℕ → ℕ → StateT σ (Except ε) (Option α)
  | _, 0 => pure none
  | i, k + 1 => do
    match ← body i with
    | some a => pure (some a)
    | none => search body (i + 1) k

/-- What a round of a loop is to establish: the invariant if the loop goes on, and what is
to be shown of the loop if it stops. -/
def Round (I : σ → Prop) (Q : Option α → σ → Prop) : Option α → σ → Prop
  | none, u => I u
  | some a, u => Q (some a) u

@[simp] lemma round_none {I : σ → Prop} {Q : Option α → σ → Prop} : Round I Q none s ↔ I s :=
  Iff.rfl

@[simp] lemma round_some {I : σ → Prop} {Q : Option α → σ → Prop} {a : α} :
    Round I Q (some a) s ↔ Q (some a) s := Iff.rfl

/-- **The rule for loops.** A round of the loop either keeps the invariant or stops it with
what is to be shown; after all rounds the invariant gives it. -/
theorem wp_search {body : ℕ → StateT σ (Except ε) (Option α)} {I : ℕ → σ → Prop}
    {Q : Option α → σ → Prop} {i k : ℕ} (h₀ : I i s)
    (hb : ∀ j t, i ≤ j → j < i + k → I j t → wp (body j) t (Round (I (j + 1)) Q))
    (hQ : ∀ t, I (i + k) t → Q none t) : wp (search body i k) s Q := by
  induction k generalizing i s with
  | zero => exact wp_pure.mpr (hQ _ h₀)
  | succ k ih =>
    refine wp.bind (hb i s (by omega) (by omega) h₀) fun r u hu => ?_
    cases r with
    | some a => exact wp_pure.mpr hu
    | none =>
      refine ih hu (fun j t h1 h2 hj => hb j t (by omega) (by omega) hj) fun t ht => ?_
      exact hQ t (by rwa [show i + (k + 1) = i + 1 + k by omega])

theorem wpOr_search {E : ε → Prop} {body : ℕ → StateT σ (Except ε) (Option α)} {I : ℕ → σ → Prop}
    {Q : Option α → σ → Prop} {i k : ℕ} (h₀ : I i s)
    (hb : ∀ j t, i ≤ j → j < i + k → I j t → wpOr E (body j) t (Round (I (j + 1)) Q))
    (hQ : ∀ t, I (i + k) t → Q none t) : wpOr E (search body i k) s Q := by
  induction k generalizing i s with
  | zero => exact wpOr_pure.mpr (hQ _ h₀)
  | succ k ih =>
    refine wpOr_bind.mpr ((hb i s (by omega) (by omega) h₀).mono fun r u hu => ?_)
    cases r with
    | some a => exact wpOr_pure.mpr hu
    | none =>
      refine ih hu (fun j t h1 h2 hj => hb j t (by omega) (by omega) hj) fun t ht => ?_
      exact hQ t (by rwa [show i + (k + 1) = i + 1 + k by omega])

def each (body : β → StateT σ (Except ε) Unit) : List β → StateT σ (Except ε) Unit
  | [] => pure ()
  | x :: xs => do
    body x
    each body xs

/-- The rule for loops over a list; the invariant speaks of what is left of it. -/
theorem wp_each {body : β → StateT σ (Except ε) Unit} {I : List β → σ → Prop} {l : List β}
    (h₀ : I l s) (hb : ∀ x xs t, I (x :: xs) t → wp (body x) t fun _ u => I xs u) :
    wp (each body l) s fun _ t => I [] t := by
  induction l generalizing s with
  | nil => exact wp_pure.mpr h₀
  | cons x xs ih => exact wp.bind (hb x xs s h₀) fun _ u hu => ih hu

end Xv6.Hoare
