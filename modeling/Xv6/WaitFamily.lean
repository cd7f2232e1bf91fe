import Xv6.WaitShape

/-!
Parents and children: in every state that can be reached the parent of a process is a live
process, and only a process on its way through `kfork` has none, `init` apart.
-/

namespace Xv6.WaitFamily

open ProcModel hiding Act step
open WaitModel WaitShape

variable {n : ℕ} {s s' : St n} {p : Fin n}

/-- The stages of a slot: free, taken by a `kfork` that is not done, a process, or exited. -/
inductive Kind
  | free | made | live | zombie
  deriving DecidableEq

def kindOf : ProcState → Kind
  | .UNUSED => .free
  | .USED => .made
  | .ZOMBIE => .zombie
  | .SLEEPING | .RUNNABLE | .RUNNING => .live

abbrev kind (s : St n) (i : Fin n) : Kind := kindOf (s.proc i).state

abbrev parent (s : St n) (i : Fin n) : Option (Fin n) := (s.proc i).parent

@[simp] lemma kindOf_free {x : ProcState} : kindOf x = .free ↔ x = .UNUSED := by
  cases x <;> simp [kindOf]

@[simp] lemma kindOf_made {x : ProcState} : kindOf x = .made ↔ x = .USED := by
  cases x <;> simp [kindOf]

@[simp] lemma kindOf_zombie {x : ProcState} : kindOf x = .zombie ↔ x = .ZOMBIE := by
  cases x <;> simp [kindOf]

def child : Pc n → Option (Fin n)
  | .adopt np | .start np => some np
  | _ => none

/-- How far `reparent` has come: the process has no child in the slots below. -/
def passed : Pc n → ℕ
  | .reparent _ i => i
  | .wakeInit _ i _ => i + 1
  | .wakeParent _ _ _ => n
  | _ => 0

structure Family (s : St n) : Prop where
  init : kind s s.tbl.initproc = .live
  parentLive : ∀ i q, parent s i = some q → kind s q = .live
  freeAlone : ∀ i, kind s i = .free → parent s i = none
  hasParent : ∀ i, i ≠ s.tbl.initproc → kind s i = .live ∨ kind s i = .zombie →
    parent s i ≠ none
  adopt : ∀ p np, s.pc p = .adopt np → kind s np = .made ∧ parent s np = none
  start : ∀ p np, s.pc p = .start np → kind s np = .made ∧ parent s np = some p
  owner : ∀ p q np, child (s.pc p) = some np → child (s.pc q) = some np → p = q
  gone : ∀ p (k : Fin n), k.val < passed (s.pc p) → parent s k ≠ some p

lemma Family.made_of_child (h : Family s) {np : Fin n} (hc : child (s.pc p) = some np) :
    kind s np = .made := by
  cases hp : s.pc p <;> rw [hp] at hc <;> simp only [child, Option.some.injEq, reduceCtorEq] at hc
  · exact hc ▸ (h.adopt p _ hp).1
  · exact hc ▸ (h.start p _ hp).1

/-! ### Steps that leave the family alone -/

structure Still (s s' : St n) : Prop where
  sameInit : s'.tbl.initproc = s.tbl.initproc
  sameKind : ∀ i, kind s' i = kind s i
  sameParent : ∀ i, parent s' i = parent s i

lemma Still.refl (s : St n) : Still s s := ⟨rfl, fun _ => rfl, fun _ => rfl⟩

lemma Still.zombie (h : Still s s') (k q : Fin n) (hq : parent s' k = some q)
    (hz : kind s' k = .zombie) : parent s k = some q ∧ kind s k = .zombie :=
  ⟨(h.sameParent k).symm.trans hq, (h.sameKind k).symm.trans hz⟩

lemma Still.setProc {j : Fin n} {x : Proc n} (hk : kindOf x.state = kind s j)
    (hp : x.parent = parent s j) : Still s (s.setProc j x) := by
  refine ⟨rfl, fun i => ?_, fun i => ?_⟩
  · by_cases e : i = j
    · subst e; rw [kind, St.setProc_self, hk]
    · rw [kind, St.setProc_ne _ _ e]
  · by_cases e : i = j
    · subst e; rw [parent, St.setProc_self, hp]
    · rw [parent, St.setProc_ne _ _ e]

lemma Still.wakeSlot (j : Fin n) (c : Option (Chan n)) : Still s (s.wakeSlot j c) := by
  unfold St.wakeSlot
  split_ifs with h
  · exact .setProc (by rw [kind, h.1]; rfl) (rfl)
  · exact .refl s

lemma Still.woken {q : Fin n} {c : Option (Chan n)} {t : St n} (h : Woken s p q c t) :
    Still s t ∧ t.pc = s.pc := by
  rcases h with ⟨-, rfl⟩ | ⟨-, rfl⟩
  · exact ⟨.refl _, rfl⟩
  · refine ⟨.wakeSlot q c, ?_⟩
    unfold St.wakeSlot
    split_ifs <;> exact rfl

lemma Still.kill (j : Fin n) : Still s (s.setProc j (St.killed (s.proc j))) := by
  unfold St.killed
  split_ifs with h
  · exact .setProc (by rw [kind, h]; rfl) (rfl)
  · exact .setProc (rfl) (rfl)

lemma Family.still (h : Family s) (hst : Still s s') (hpc : ∀ i, i ≠ p → s'.pc i = s.pc i)
    (hchild : child (s'.pc p) = none ∨ s'.pc p = s.pc p)
    (hpass : ∀ k : Fin n, k.val < passed (s'.pc p) → parent s k ≠ some p) :
    Family s' := by
  obtain ⟨hi, hk, hp⟩ := hst
  -- every process that is making a child was doing so before, at the same place
  have hold (q : Fin n) (np : Fin n) (hq : child (s'.pc q) = some np) : s'.pc q = s.pc q := by
    by_cases e : q = p
    · subst e
      rcases hchild with hc | hc
      · rw [hc] at hq; cases hq
      · exact hc
    · exact hpc q e
  refine ⟨?_, ?_, ?_, ?_, ?_, ?_, ?_, ?_⟩
  · rw [hi, hk]; exact h.init
  · intro i q hq
    rw [hp] at hq
    rw [hk]
    exact h.parentLive i q hq
  · intro i hf
    rw [hk] at hf
    rw [hp]
    exact h.freeAlone i hf
  · intro i hne hl
    rw [hk] at hl
    rw [hp]
    exact h.hasParent i (hi ▸ hne) hl
  · intro q np hq
    rw [hold q np (by rw [hq]; exact rfl)] at hq
    rw [hk, hp]
    exact h.adopt q np hq
  · intro q np hq
    rw [hold q np (by rw [hq]; exact rfl)] at hq
    rw [hk, hp]
    exact h.start q np hq
  · intro q r np hq hr
    rw [hold q np hq] at hq
    rw [hold r np hr] at hr
    exact h.owner q r np hq hr
  · intro q k hlt
    rw [hp]
    by_cases e : q = p
    · subst e; exact hpass k hlt
    · rw [hpc q e] at hlt; exact h.gone q k hlt

lemma Family.still_pc (h : Family s) (hst : Still s s') (hpc : s'.pc = s.pc) : Family s' := by
  by_cases hn : Nonempty (Fin n)
  · obtain ⟨p⟩ := hn
    exact h.still (p := p) hst (fun i _ => by rw [hpc]) (.inr (by rw [hpc]))
      fun k hk => h.gone p k (by rwa [hpc] at hk)
  · exact absurd ⟨s.tbl.initproc⟩ hn

lemma Family.goto {t : St n} (h : Family s) (hst : Still s t) (hpc : t.pc = s.pc) {c : Pc n}
    (hchild : child c = none)
    (hpass : ∀ k : Fin n, k.val < passed c → parent s k ≠ some p) :
    Family (t.goto p c) := by
  refine h.still (p := p) ⟨hst.sameInit, hst.sameKind, hst.sameParent⟩ (fun i hi => ?_)
    (.inl ?_) ?_
  · rw [St.goto_pc_ne _ _ hi, hpc]
  · rw [St.goto_pc_self, hchild]
  · rw [St.goto_pc_self]; exact hpass

/-! ### Steps that change the family -/

lemma kind_setProc_self {j : Fin n} {x : Proc n} : kind (s.setProc j x) j = kindOf x.state := by
  rw [kind, St.setProc_self]

lemma kind_setProc_ne {i j : Fin n} {x : Proc n} (h : i ≠ j) :
    kind (s.setProc j x) i = kind s i := by
  rw [kind, St.setProc_ne _ _ h]

lemma parent_setProc_self {j : Fin n} {x : Proc n} : parent (s.setProc j x) j = x.parent := by
  rw [parent, St.setProc_self]

lemma parent_setProc_ne {i j : Fin n} {x : Proc n} (h : i ≠ j) :
    parent (s.setProc j x) i = parent s i := by
  rw [parent, St.setProc_ne _ _ h]

lemma kind_setParent (j q i : Fin n) : kind (s.setParent j q) i = kind s i := by
  by_cases e : i = j
  · subst e; exact kind_setProc_self
  · exact kind_setProc_ne e

lemma parent_setParent_self (j q : Fin n) : parent (s.setParent j q) j = some q :=
  parent_setProc_self

lemma parent_setParent_ne {i j : Fin n} (q : Fin n) (h : i ≠ j) :
    parent (s.setParent j q) i = parent s i :=
  parent_setProc_ne h

lemma kind_die_self (p : Fin n) (st : ℤ) : kind (s.die p st) p = .zombie := kind_setProc_self

lemma kind_die_ne {i : Fin n} (st : ℤ) (h : i ≠ p) : kind (s.die p st) i = kind s i :=
  kind_setProc_ne h

lemma parent_die (p : Fin n) (st : ℤ) (i : Fin n) : parent (s.die p st) i = parent s i := by
  by_cases e : i = p
  · subst e; exact parent_setProc_self
  · exact parent_setProc_ne e

/-- A slot and the place of `p` change: what is left to show is about these two. -/
lemma Family.update {t : St n} (h : Family s) {j : Fin n} {c : Pc n}
    (hinit : t.tbl.initproc = s.tbl.initproc) (hpc : t.pc = s.pc)
    (hkind : ∀ i, i ≠ j → kind t i = kind s i) (hpar : ∀ i, i ≠ j → parent t i = parent s i)
    (hdead : kind t j ≠ .live → j ≠ s.tbl.initproc ∧ ∀ i, parent t i ≠ some j)
    (hlive : ∀ q, parent t j = some q → kind t q = .live)
    (hfree : kind t j = .free → parent t j = none)
    (hhas : j ≠ s.tbl.initproc → kind t j = .live ∨ kind t j = .zombie → parent t j ≠ none)
    (hmade : ∀ q, q ≠ p → child (s.pc q) ≠ some j)
    (hadopt : ∀ np, c = .adopt np → np = j ∧ kind t j = .made ∧ parent t j = none)
    (hstart : ∀ np, c = .start np → np = j ∧ kind t j = .made ∧ parent t j = some p)
    (hgone : ∀ q, q ≠ p → j.val < passed (s.pc q) → parent t j ≠ some q)
    (hpass : ∀ k : Fin n, k.val < passed c → parent t k ≠ some p) : Family (t.goto p c) := by
  have hk (i : Fin n) : kind (t.goto p c) i = kind t i := rfl
  have hp (i : Fin n) : parent (t.goto p c) i = parent t i := rfl
  have hpcq {q : Fin n} (hq : q ≠ p) : (t.goto p c).pc q = s.pc q := by
    rw [St.goto_pc_ne _ _ hq, hpc]
  have hchild {np : Fin n} (hc : child c = some np) : np = j := by
    cases c <;> simp only [child, Option.some.injEq, reduceCtorEq] at hc
    · exact hc ▸ (hadopt _ rfl).1
    · exact hc ▸ (hstart _ rfl).1
  refine ⟨?_, ?_, ?_, ?_, ?_, ?_, ?_, ?_⟩
  · show kind t t.tbl.initproc = .live
    rw [hinit]
    by_cases e : s.tbl.initproc = j
    · by_contra hne
      exact (hdead (e ▸ hne)).1 e.symm
    · rw [hkind _ e]; exact h.init
  · intro i q hq
    rw [hp] at hq
    rw [hk]
    by_cases ei : i = j
    · subst ei; exact hlive q hq
    · by_cases eq : q = j
      · subst eq
        by_contra hne
        exact (hdead hne).2 i hq
      · rw [hkind q eq]
        rw [hpar i ei] at hq
        exact h.parentLive i q hq
  · intro i hf
    rw [hk] at hf
    rw [hp]
    by_cases ei : i = j
    · subst ei; exact hfree hf
    · rw [hkind i ei] at hf
      rw [hpar i ei]
      exact h.freeAlone i hf
  · intro i hne hl
    rw [hk] at hl
    rw [hp]
    have hne' : i ≠ s.tbl.initproc := fun e => hne (e.trans hinit.symm)
    by_cases ei : i = j
    · subst ei; exact hhas hne' hl
    · rw [hkind i ei] at hl
      rw [hpar i ei]
      exact h.hasParent i hne' hl
  · intro q np hq
    by_cases e : q = p
    · subst e
      rw [St.goto_pc_self] at hq
      obtain ⟨rfl, h1, h2⟩ := hadopt np hq
      exact ⟨h1, h2⟩
    · rw [hpcq e] at hq
      have hne : np ≠ j := by
        rintro rfl
        exact hmade q e (by rw [hq]; rfl)
      rw [hk, hp, hkind np hne, hpar np hne]
      exact h.adopt q np hq
  · intro q np hq
    by_cases e : q = p
    · subst e
      rw [St.goto_pc_self] at hq
      obtain ⟨rfl, h1, h2⟩ := hstart np hq
      exact ⟨h1, h2⟩
    · rw [hpcq e] at hq
      have hne : np ≠ j := by
        rintro rfl
        exact hmade q e (by rw [hq]; rfl)
      rw [hk, hp, hkind np hne, hpar np hne]
      exact h.start q np hq
  · intro q r np hq hr
    by_cases eq : q = p
    · by_cases er : r = p
      · rw [eq, er]
      · subst eq
        rw [St.goto_pc_self] at hq
        rw [hpcq er] at hr
        exact absurd (hchild hq ▸ hr) (hmade r er)
    · rw [hpcq eq] at hq
      by_cases er : r = p
      · subst er
        rw [St.goto_pc_self] at hr
        exact absurd (hchild hr ▸ hq) (hmade q eq)
      · rw [hpcq er] at hr
        exact h.owner q r np hq hr
  · intro q k hlt
    rw [hp]
    by_cases eq : q = p
    · subst eq
      rw [St.goto_pc_self] at hlt
      exact hpass k hlt
    · rw [hpcq eq] at hlt
      by_cases ek : k = j
      · subst ek; exact hgone q eq hlt
      · rw [hpar k ek]; exact h.gone q k hlt

lemma Still.claim_unclaim (h : Family s) {np : Fin n} (hfree : (s.proc np).state = .UNUSED) :
    Still s ((s.claim np).unclaim np) := by
  have hnp : ((s.claim np).unclaim np).proc np = { s.proc np with
      pid := 0, parent := none, chan := none, killed := 0, xstate := 0, state := .UNUSED } := by
    simp [St.claim, St.unclaim, St.proc, Table.claim, Table.freeproc, Table.allocpid]
  have hne {i : Fin n} (e : i ≠ np) : ((s.claim np).unclaim np).proc i = s.proc i :=
    (Table.set_procs_ne _ e _).trans (Table.set_procs_ne _ e _)
  have hpar : parent s np = none := h.freeAlone np (by simp [hfree])
  refine ⟨rfl, fun i => ?_, fun i => ?_⟩
  · by_cases e : i = np
    · subst e; rw [kind, hnp, kind, hfree]
    · rw [kind, hne e]
  · by_cases e : i = np
    · subst e; rw [parent, hnp, hpar]
    · rw [parent, hne e]

lemma family_claim (h : Family s) {np : Fin n} (hfree : (s.proc np).state = .UNUSED) :
    Family ((s.claim np).goto p (.adopt np)) := by
  have hkind : kind s np = .free := by simp [hfree]
  have hpar : parent s np = none := h.freeAlone np hkind
  have hk : kind (s.claim np) np = .made := by
    simp [kind, St.claim, St.proc, Table.claim, Table.allocpid]
  have hp : parent (s.claim np) np = none := by
    rw [← hpar]
    simp [parent, St.claim, St.proc, Table.claim, Table.allocpid]
  have hne {i : Fin n} (e : i ≠ np) : (s.claim np).proc i = s.proc i := Table.set_procs_ne _ e _
  have hpar' {i q : Fin n} (hi : parent (s.claim np) i = some q) : parent s i = some q := by
    by_cases e : i = np
    · subst e; rw [hp] at hi; cases hi
    · rwa [parent, hne e] at hi
  refine h.update (j := np) rfl rfl (fun i e => by rw [kind, hne e])
    (fun i e => by rw [parent, hne e]) ?_ ?_ ?_ ?_ ?_ ?_ ?_ ?_ ?_
  · intro _
    refine ⟨?_, fun i hi => ?_⟩
    · rintro rfl
      have := h.init
      rw [hkind] at this
      cases this
    · have := h.parentLive i np (hpar' hi)
      rw [hkind] at this
      cases this
  · intro q hq; rw [hp] at hq; cases hq
  · intro _; exact hp
  · rintro _ (hl | hl) <;> rw [hk] at hl <;> cases hl
  · intro q _ hc
    have := h.made_of_child hc
    rw [hkind] at this
    cases this
  · rintro np' ⟨⟩; exact ⟨rfl, hk, hp⟩
  · rintro np' ⟨⟩
  · intro q _ _; rw [hp]; simp
  · intro k hlt; simp [passed] at hlt

lemma family_setParent (h : Family s) {j q : Fin n} {c : Pc n} (hq : kind s q = .live)
    (hj : kind s j ≠ .free) (hown : ∀ r, r ≠ p → child (s.pc r) ≠ some j)
    (hadopt : ∀ np, c ≠ .adopt np)
      (hstart : ∀ np, c = .start np → np = j ∧ kind s j = .made ∧ q = p)
    (hgone : ∀ r, r ≠ p → j.val < passed (s.pc r) → q ≠ r)
    (hpass : ∀ k : Fin n, k.val < passed c → (k ≠ j → parent s k ≠ some p) ∧ (k = j → q ≠ p)) :
    Family ((s.setParent j q).goto p c) := by
  have hk (i : Fin n) : kind (s.setParent j q) i = kind s i := kind_setParent j q i
  have hp : parent (s.setParent j q) j = some q := parent_setParent_self j q
  have hne {i : Fin n} (e : i ≠ j) : parent (s.setParent j q) i = parent s i :=
    parent_setParent_ne q e
  refine h.update (j := j) rfl rfl (fun i _ => hk i) (fun i e => hne e) ?_ ?_ ?_ ?_ hown ?_ ?_ ?_ ?_
  · intro hl
    rw [hk] at hl
    refine ⟨?_, fun i hi => ?_⟩
    · rintro rfl; exact hl h.init
    · by_cases e : i = j
      · subst e
        rw [hp, Option.some.injEq] at hi
        subst hi
        exact hl hq
      · rw [hne e] at hi
        exact hl (h.parentLive i j hi)
  · intro r hr
    rw [hp, Option.some.injEq] at hr
    rw [hk, ← hr]
    exact hq
  · intro hf; rw [hk] at hf; exact absurd hf hj
  · intro _ _; rw [hp]; simp
  · intro np hc; exact absurd hc (hadopt np)
  · intro np hc
    obtain ⟨h1, h2, h3⟩ := hstart np hc
    exact ⟨h1, by rw [hk, h2], by rw [hp, h3]⟩
  · intro r hr hlt e
    rw [hp, Option.some.injEq] at e
    exact hgone r hr hlt e
  · intro k hlt
    obtain ⟨h1, h2⟩ := hpass k hlt
    by_cases e : k = j
    · rw [e, hp]
      intro e'
      exact h2 e (Option.some.inj e')
    · rw [hne e]; exact h1 e

lemma family_start (h : Family s) {np : Fin n} (hpc : s.pc p = .start np) :
    Family ((s.setProc np { s.proc np with state := .RUNNABLE }).goto p .idle) := by
  obtain ⟨hmade, hpar⟩ := h.start p np hpc
  have hk : kind (s.setProc np { s.proc np with state := .RUNNABLE }) np = .live :=
    kind_setProc_self
  have hp (i : Fin n) :
      parent (s.setProc np { s.proc np with state := .RUNNABLE }) i = parent s i := by
    by_cases e : i = np
    · subst e; exact parent_setProc_self
    · exact parent_setProc_ne e
  refine h.update (j := np) rfl rfl (fun i e => kind_setProc_ne e) (fun i _ => hp i) ?_ ?_ ?_ ?_ ?_
    ?_ ?_ ?_ ?_
  · intro hl; exact absurd hk hl
  · intro q hq
    rw [hp] at hq
    have hlive := h.parentLive np q hq
    have hne : q ≠ np := by rintro rfl; rw [hmade] at hlive; cases hlive
    rw [kind_setProc_ne hne]
    exact hlive
  · intro hf; rw [hk] at hf; cases hf
  · intro _ _; rw [hp, hpar]; simp
  · intro q hq hc
    exact hq (h.owner q p np hc (by rw [hpc]; rfl))
  · rintro np' ⟨⟩
  · rintro np' ⟨⟩
  · intro q _ hlt
    rw [hp]
    exact h.gone q np hlt
  · intro k hlt; simp [passed] at hlt

lemma family_die (h : Family s) (hsh : Shape s) {st : ℤ} {par : Option (Fin n)} {i : ℕ}
    (hpc : s.pc p = .wakeParent st par i) : Family ((s.die p st).goto p .dying) := by
  have hrun : (s.proc p).state = .RUNNING := by
    have := (hsh p).allows
    rwa [hpc] at this
  have hlive : kind s p = .live := by rw [kind, hrun]; rfl
  have hnoinit : p ≠ s.tbl.initproc := by
    intro e
    have := (hsh p).init e
    rw [hpc] at this
    exact this trivial
  have hnokid (k : Fin n) : parent s k ≠ some p := h.gone p k (by rw [hpc]; exact k.isLt)
  have hk : kind (s.die p st) p = .zombie := kind_die_self p st
  have hp (i : Fin n) : parent (s.die p st) i = parent s i := parent_die p st i
  refine h.update (j := p) rfl rfl (fun i e => kind_die_ne st e) (fun i _ => hp i) ?_ ?_ ?_ ?_ ?_
    ?_ ?_ ?_ ?_
  · intro _
    exact ⟨hnoinit, fun i => by rw [hp]; exact hnokid i⟩
  · intro q hq
    rw [hp] at hq
    have hne : q ≠ p := by rintro rfl; exact hnokid q hq
    have := h.parentLive p q hq
    exact (kind_die_ne st hne).trans this
  · intro hf; rw [hk] at hf; cases hf
  · intro _ _; rw [hp]; exact h.hasParent p hnoinit (.inl hlive)
  · intro q _ hc
    have := h.made_of_child hc
    rw [hlive] at this
    cases this
  · rintro np' ⟨⟩
  · rintro np' ⟨⟩
  · intro q _ hlt
    rw [hp]
    exact h.gone q p hlt
  · intro k hlt; simp [passed] at hlt

lemma family_reap (h : Family s) {pp : Fin n} (hz : (s.proc pp).state = .ZOMBIE) :
    Family ((s.reap p pp).waitEnd p) := by
  have hkind : kind s pp = .zombie := by simp [hz]
  have hk : kind (s.reap p pp) pp = .free := by
    simp [kind, St.reap, St.proc, Table.freeproc]
  have hp : parent (s.reap p pp) pp = none := by
    simp [parent, St.reap, St.proc, Table.freeproc]
  have hne {i : Fin n} (e : i ≠ pp) : (s.reap p pp).proc i = s.proc i := Table.set_procs_ne _ e _
  have hpar' {i q : Fin n} (hi : parent (s.reap p pp) i = some q) : parent s i = some q := by
    by_cases e : i = pp
    · subst e; rw [hp] at hi; cases hi
    · rwa [parent, hne e] at hi
  refine h.update (t := { s.reap p pp with waitLock := none }) (j := pp) rfl rfl
    (fun i e => congrArg (fun x => kindOf x.state) (hne e))
      (fun i e => congrArg Proc.parent (hne e))
    ?_ ?_ ?_ ?_ ?_ ?_ ?_ ?_ ?_
  · intro _
    refine ⟨?_, fun i hi => ?_⟩
    · rintro rfl
      have := h.init
      rw [hkind] at this
      cases this
    · have := h.parentLive i pp (hpar' hi)
      rw [hkind] at this
      cases this
  · intro q hq
    exact absurd (hp.symm.trans hq) (by simp)
  · intro _; exact hp
  · rintro _ (hl | hl)
    · exact absurd (hk.symm.trans hl) (by simp)
    · exact absurd (hk.symm.trans hl) (by simp)
  · intro q _ hc
    have := h.made_of_child hc
    rw [hkind] at this
    cases this
  · rintro np' ⟨⟩
  · rintro np' ⟨⟩
  · intro q _ _ hq
    exact absurd (hp.symm.trans hq) (by simp)
  · intro k hlt; simp [passed] at hlt

/-! ### Every step keeps the family -/

lemma section_family {c : Pc n} (h : Family s) (ha : At s p c) (hs : Section s p c s') :
    Family s' := by
  have hpc := ha.pc
  have hlive : kind s p = .live := by rw [kind, ha.running]; rfl
  have hzero (k : Fin n) {d : Pc n} (hd : passed d = 0) (hk : k.val < passed d) :
      parent s k ≠ some p := by omega
  cases hs with
  | allocEnd | allocNext | killEnd | killNext | scanEnd _ | scanNext _ _ | checkSleep =>
    exact h.goto (.refl s) rfl rfl fun k => hzero k rfl
  | exitBegin _ | waitBegin _ =>
    exact h.goto (t := { s with waitLock := some p }) ⟨rfl, fun _ => rfl, fun _ => rfl⟩ rfl rfl
      fun k => hzero k rfl
  | scanFail | checkEnd =>
    exact h.goto (t := { s with waitLock := none }) ⟨rfl, fun _ => rfl, fun _ => rfl⟩ rfl rfl
      fun k => hzero k rfl
  | allocFail free => exact h.goto (.claim_unclaim h free) rfl rfl fun k => hzero k rfl
  | allocOk free => exact family_claim h free
  | adopt lock =>
    rename_i np
    obtain ⟨hmade, -⟩ := h.adopt p np hpc
    refine family_setParent h hlive (by simp [hmade]) ?_ (by simp) ?_ ?_ ?_
    · intro r hr hc
      exact hr (h.owner r p np hc (by rw [hpc]; rfl))
    · rintro np' ⟨⟩
      exact ⟨rfl, hmade, rfl⟩
    · intro r hr _
      exact Ne.symm hr
    · intro k hk; simp [passed] at hk
  | start => exact family_start h hpc
  | killHit => exact h.goto (.kill _) rfl rfl fun k => hzero k rfl
  | reparentEnd ended =>
    refine h.goto (.refl s) rfl rfl fun k hk => h.gone p k ?_
    rw [hpc]
    exact Nat.lt_of_lt_of_le k.isLt ended
  | reparentNext slot other =>
    rename_i st i pp
    refine h.goto (.refl s) rfl rfl fun k hk => ?_
    by_cases e : k = pp
    · rw [e]; exact other
    · refine h.gone p k ?_
      have hne : k.val ≠ i := fun e' => e (Fin.ext (e'.trans slot.symm))
      rw [hpc]
      simp only [passed] at hk ⊢
      omega
  | reparentPass slot child =>
    rename_i st i pp
    have hnoinit : s.tbl.initproc ≠ p := fun e => ha.init e.symm trivial
    refine family_setParent h h.init ?_ ?_ (by simp) (by simp) ?_ ?_
    · intro hf
      have := h.freeAlone pp hf
      rw [parent, child] at this
      cases this
    · -- a process that is being made by another has that one for its parent, or none
      intro r hr hc
      cases hpr : s.pc r <;> rw [hpr] at hc <;>
        simp only [WaitFamily.child, Option.some.injEq, reduceCtorEq] at hc
      · have := (h.adopt r _ hpr).2
        rw [hc, parent, child] at this
        cases this
      · have := (h.start r _ hpr).2
        rw [hc, parent, child, Option.some.injEq] at this
        exact hr this.symm
    · intro r hr hlt e
      -- two processes would be in `reparent` at once
      have hcr : Critical (s.pc r) := by
        generalize s.pc r = d at hlt
        cases d <;> simp [passed, Critical] at hlt ⊢
      exact hr (ha.shape.critical_unique hcr (by rw [hpc]; trivial))
    · intro k hk
      refine ⟨fun e => h.gone p k ?_, fun _ => hnoinit⟩
      have hne : k.val ≠ i := fun e' => e (Fin.ext (e'.trans slot.symm))
      rw [hpc]
      simp only [passed] at hk ⊢
      omega
  | wakeInitEnd ended =>
    refine h.goto (.refl s) rfl rfl fun k hk => h.gone p k ?_
    rw [hpc]
    exact hk
  | wakeInitNext slot woken =>
    obtain ⟨hst, hpc'⟩ := Still.woken woken
    refine h.goto hst hpc' rfl fun k hk => h.gone p k ?_
    rw [hpc]
    exact hk
  | wakeParentNext slot woken =>
    obtain ⟨hst, hpc'⟩ := Still.woken woken
    refine h.goto hst hpc' rfl fun k hk => h.gone p k ?_
    rw [hpc]
    exact hk
  | exitEnd ended => exact family_die h ha.shape hpc
  | scanReap child lock zombie => exact family_reap h zombie
  | sleepBegin =>
    exact h.goto (t := { s.setLocked p true with waitLock := none })
      ⟨rfl, fun _ => rfl, fun _ => rfl⟩ rfl rfl fun k => hzero k rfl
  | sleepEnd =>
    have hst : Still s (s.setProc p { s.proc p with chan := some (.proc p), state := .SLEEPING }) :=
      .setProc (by rw [hlive]; rfl) rfl
    exact h.goto (t := (s.setProc p { s.proc p with
        chan := some (.proc p), state := .SLEEPING }).setLocked p false)
      ⟨hst.sameInit, hst.sameKind, hst.sameParent⟩ rfl rfl fun k => hzero k rfl

lemma step_family (h : Family s) (hsh : Shape s) {a : Act n} (hs : step s a = some s') :
    Family s' := by
  cases a with
  | call p c =>
    simp only [step] at hs
    split_ifs at hs with hc
    cases hs
    have hz : child c = none ∧ passed c = 0 := by
      cases c <;> simp_all [Callable, child, passed]
    exact h.goto (.refl s) rfl hz.1 fun k hk => by omega
  | go p b =>
    simp only [step] at hs
    split_ifs at hs with hr
    exact section_family h ⟨hsh, hr, rfl⟩ (go_section hs)
  | swtch p =>
    simp only [step] at hs
    split_ifs at hs with hd
    cases hs
    exact h.goto (t := s.setLocked p false) ⟨rfl, fun _ => rfl, fun _ => rfl⟩ rfl rfl
      fun k hk => by simp [passed] at hk
  | schedule p =>
    simp only [step] at hs
    split_ifs at hs with hc
    cases hs
    have hst : Still s { s with tbl := s.tbl.schedule p } :=
      Still.setProc (by rw [kind, hc.2]; rfl) rfl
    refine h.still (p := p) ⟨hst.sameInit, hst.sameKind, hst.sameParent⟩
      (fun i hi => St.goto_pc_ne _ _ hi) ?_ ?_
    · rw [St.goto_pc_self]
      cases s.pc p <;> simp [Pc.resume, child]
    · intro k hk
      rw [St.goto_pc_self] at hk
      refine h.gone p k ?_
      cases hp : s.pc p <;> simp_all [Pc.resume, passed]
  | yield p =>
    simp only [step] at hs
    split_ifs at hs with hc
    cases hs
    exact h.still_pc (Still.setProc (by rw [kind, hc.2.1]; rfl) rfl) rfl
  | sleep p c =>
    simp only [step] at hs
    split_ifs at hs with hc
    cases hs
    exact h.still_pc (Still.setProc (by rw [kind, hc.2.1]; rfl) rfl) rfl
  | wake i c =>
    simp only [step] at hs
    split_ifs at hs
    cases hs
    have hpc : (s.wakeSlot i (some (.other c))).pc = s.pc := by
      unfold St.wakeSlot
      split_ifs <;> rfl
    exact h.still_pc (.wakeSlot i _) hpc
  | setkilled p =>
    simp only [step] at hs
    split_ifs at hs with hc
    cases hs
    exact h.still_pc (Still.setProc rfl rfl) rfl

lemma boot_family (i : Fin n) : Family (boot i) := by
  have hpar (j : Fin n) : parent (boot i) j = none := by
    by_cases e : j = i
    · subst e; rw [parent, boot_proc_self]
    · rw [parent, boot_proc_ne e]; rfl
  refine ⟨?_, ?_, ?_, ?_, ?_, ?_, ?_, ?_⟩
  · show kind (boot i) i = .live
    rw [kind, boot_proc_self]; rfl
  · intro j q hq; rw [hpar] at hq; cases hq
  · intro j _; exact hpar j
  · intro j hne hl
    rw [kind, boot_proc_ne (show j ≠ i from hne)] at hl
    rcases hl with hl | hl <;> cases hl
  · intro p np hp; cases hp
  · intro p np hp; cases hp
  · intro p q np hp; cases hp
  · intro p k _; rw [hpar]; simp

end Xv6.WaitFamily
