import Xv6.WaitIds

/-!
No wakeup is lost: a process that sleeps in `kwait` has no zombie child, except while another
process, which holds `wait_lock`, has just passed one on to `init` and is about to wake `init`
up. With the results on parents, pids and statuses this gives the protocol of `exit` and
`wait`.
-/

namespace Xv6.WaitProtocol

open ProcModel hiding Act step
open WaitModel WaitShape WaitFamily WaitIds Runs

variable {n : ℕ} {s s' t : St n} {p : Fin n} {c : Pc n}

/-- The process sleeps in `kwait`, or has let go of `wait_lock` in order to. -/
def Asleep (s : St n) (q : Fin n) : Prop :=
  s.pc q = .falling ∨ s.pc q = .asleep ∧ (s.proc q).state = .SLEEPING

def seen : Pc n → ℕ
  | .scan j _ => j
  | .check _ | .presleep => n
  | _ => 0

def Waking : Pc n → Prop
  | .wakeInit _ _ _ | .wakeParent _ _ _ => True
  | _ => False

structure Awake (s : St n) : Prop where
  /-- `kwait` has found no zombie child so far. -/
  looked : ∀ p (k : Fin n), k.val < seen (s.pc p) → parent s k = some p → kind s k ≠ .zombie
  /-- `kexit` has woken the parent once it has passed the parent's slot. -/
  told : ∀ e st par k, s.pc e = .wakeParent st par k →
    par = parent s e ∧ ∀ q, par = some q → q.val < k → ¬ Asleep s q
  /-- So it has `init`, after it has passed on a child. -/
  toldInit : ∀ e st i k, s.pc e = .wakeInit st i k → s.tbl.initproc.val < k →
    ¬ Asleep s s.tbl.initproc
  lost : ∀ q j, Asleep s q → parent s j = some q → kind s j = .zombie →
    q = s.tbl.initproc ∧ ∃ e st i k, s.pc e = .wakeInit st i k ∧ k ≤ s.tbl.initproc.val

/-! ### Two kinds of steps -/

lemma Awake.quiet (h : Awake s) (hinit : s'.tbl.initproc = s.tbl.initproc)
    (hz : ∀ k q, parent s' k = some q → kind s' k = .zombie →
      parent s k = some q ∧ kind s k = .zombie)
    (hpar : ∀ e, Waking (s.pc e) → parent s' e = parent s e)
    (hsleep : ∀ q, Asleep s' q → Asleep s q) (hpc : ∀ i, i ≠ p → s'.pc i = s.pc i)
    (hseen : seen (s'.pc p) = 0) (hw : ¬ Waking (s.pc p))
    (hw' : ¬ Waking (s'.pc p)) : Awake s' := by
  have hold {e : Fin n} (he : Waking (s'.pc e)) : s'.pc e = s.pc e := by
    by_cases e' : e = p
    · subst e'; exact absurd he hw'
    · exact hpc e e'
  refine ⟨?_, ?_, ?_, ?_⟩
  · intro q k hk hq hzk
    by_cases e : q = p
    · subst e; omega
    · rw [hpc q e] at hk
      obtain ⟨h1, h2⟩ := hz k q hq hzk
      exact h.looked q k hk h1 h2
  · intro e st par k he
    have hwe : Waking (s'.pc e) := by rw [he]; trivial
    have hpe := hold hwe
    rw [hpe] at he hwe
    obtain ⟨h1, h2⟩ := h.told e st par k he
    exact ⟨by rw [hpar e hwe]; exact h1, fun q hq hlt ha => h2 q hq hlt (hsleep q ha)⟩
  · intro e st i k he hlt ha
    rw [hold (by rw [he]; trivial)] at he
    rw [hinit] at hlt ha
    exact h.toldInit e st i k he hlt (hsleep _ ha)
  · intro q j ha hq hzj
    obtain ⟨h1, h2⟩ := hz j q hq hzj
    obtain ⟨h3, e, st, i, k, he, hk⟩ := h.lost q j (hsleep q ha) h1 h2
    have hne : e ≠ p := by
      rintro rfl
      rw [he] at hw
      exact hw trivial
    exact ⟨by rw [hinit]; exact h3, e, st, i,
      k, by rw [hpc e hne]; exact he, by rw [hinit]; exact hk⟩

/-- A step of the process that holds `wait_lock`: nobody else has anything to say. -/
lemma awake_solo (ha : At s p c) (hcrit : Critical c) {d : Pc n} (hpc : t.pc = s.pc)
    (hseen : ∀ k : Fin n, k.val < seen d → parent t k = some p → kind t k ≠ .zombie)
    (htold : ∀ st par k, d = .wakeParent st par k →
      par = parent t p ∧ ∀ q, par = some q → q.val < k → ¬ Asleep (t.goto p d) q)
    (htoldInit : ∀ st i k, d = .wakeInit st i k → t.tbl.initproc.val < k →
      ¬ Asleep (t.goto p d) t.tbl.initproc)
    (hlost : ∀ q j, Asleep (t.goto p d) q → parent t j = some q → kind t j = .zombie →
      q = t.tbl.initproc ∧ ∃ st i k, d = .wakeInit st i k ∧ k ≤ t.tbl.initproc.val) :
    Awake (t.goto p d) := by
  have hself : (t.goto p d).pc p = d := St.goto_pc_self ..
  have hother {e : Fin n} (he : e ≠ p) : ¬ Critical ((t.goto p d).pc e) := by
    rw [St.goto_pc_ne _ _ he, hpc]
    exact fun hc => he (ha.shape.critical_unique hc (by rwa [ha.pc]))
  refine ⟨?_, ?_, ?_, ?_⟩
  · intro q k hk
    by_cases e : q = p
    · subst e; exact hseen k (by rwa [hself] at hk)
    · have := hother e
      generalize (t.goto p d).pc q = x at this hk
      cases x <;> simp [seen, Critical] at this hk
  · intro e st par k he
    by_cases e' : e = p
    · subst e'; exact htold st par k (hself.symm.trans he)
    · exact absurd (show Critical _ by rw [he]; trivial) (hother e')
  · intro e st i k he
    by_cases e' : e = p
    · subst e'; exact htoldInit st i k (hself.symm.trans he)
    · exact absurd (show Critical _ by rw [he]; trivial) (hother e')
  · intro q j hq hj hz
    obtain ⟨h1, st, i, k, hk, hle⟩ := hlost q j hq hj hz
    exact ⟨h1, p, st, i, k, hself.trans hk, hle⟩

lemma Awake.lost_at (h : Awake s) (ha : At s p c) (hcrit : Critical c) {q j : Fin n}
    (hq : Asleep s q) (hj : parent s j = some q) (hz : kind s j = .zombie) :
    q = s.tbl.initproc ∧ ∃ st i k, c = .wakeInit st i k ∧ k ≤ s.tbl.initproc.val := by
  obtain ⟨h1, e, st, i, k, he, hk⟩ := h.lost q j hq hj hz
  obtain rfl := ha.shape.critical_unique (p := e) (q := p) (by rw [he]; trivial) (by rwa [ha.pc])
  exact ⟨h1, st, i, k, ha.pc.symm.trans he, hk⟩

/-! ### Sleepers -/

lemma Asleep.of_goto {q : Fin n} (h : Asleep (t.goto p c) q) (hpc : t.pc = s.pc)
    (hstate : ∀ i, (t.proc i).state = .SLEEPING → (s.proc i).state = .SLEEPING)
    (h1 : c ≠ .falling) (h2 : c ≠ .asleep) : Asleep s q := by
  have hne : q ≠ p := by
    rintro rfl
    rcases h with h | ⟨h, -⟩ <;> rw [St.goto_pc_self] at h
    · exact h1 h
    · exact h2 h
  unfold Asleep at h ⊢
  rw [St.goto_pc_ne _ _ hne, hpc] at h
  exact h.imp id fun h => ⟨h.1, hstate q h.2⟩

lemma wakeSlot_sleeping {q i : Fin n} {ch : Option (Chan n)}
    (h : ((s.wakeSlot q ch).proc i).state = .SLEEPING) : (s.proc i).state = .SLEEPING := by
  unfold St.wakeSlot at h
  split_ifs at h with hw
  · by_cases e : i = q
    · subst e; exact hw.1
    · rwa [St.setProc_ne _ _ e] at h
  · exact h

lemma wakeSlot_pc (q : Fin n) (ch : Option (Chan n)) : (s.wakeSlot q ch).pc = s.pc := by
  unfold St.wakeSlot
  split_ifs <;> rfl

lemma woken_sleeping {q i : Fin n} {ch : Option (Chan n)} (hw : Woken s p q ch t)
    (h : (t.proc i).state = .SLEEPING) : (s.proc i).state = .SLEEPING := by
  rcases hw with ⟨-, rfl⟩ | ⟨-, rfl⟩
  · exact h
  · exact wakeSlot_sleeping h

lemma not_asleep_of_woken (hsh : Shape s) {q : Fin n} (hne : q ≠ p)
    (hw : Woken s p q (some (.proc q)) t) : ¬ Asleep (t.goto p c) q := by
  rcases hw with ⟨e, -⟩ | ⟨hl, rfl⟩
  · exact absurd e hne
  have hpc : ((s.wakeSlot q (some (.proc q))).goto p c).pc q = s.pc q := by
    rw [St.goto_pc_ne _ _ hne, wakeSlot_pc]
  rintro (h | ⟨h, hst⟩)
  · rw [hpc] at h
    have := (hsh q).locked
    rw [hl, h] at this
    cases this
  · rw [hpc] at h
    have hst' : ((s.wakeSlot q (some (.proc q))).proc q).state = .SLEEPING := hst
    have hs := wakeSlot_sleeping hst'
    unfold St.wakeSlot at hst'
    rw [if_pos ⟨hs, (hsh q).chan h hs⟩, St.setProc_self] at hst'
    cases hst'

/-! ### Every step -/

section

variable (h : Awake s)
include h

lemma Awake.move {d : Pc n} (hst : Still s t) (hpc : t.pc = s.pc)
    (hstate : ∀ i, (t.proc i).state = .SLEEPING → (s.proc i).state = .SLEEPING)
    (hw : ¬ Waking (s.pc p)) (hw' : ¬ Waking d) (hseen : seen d = 0) (h1 : d ≠ .falling)
    (h2 : d ≠ .asleep) : Awake (t.goto p d) := by
  refine h.quiet (p := p) hst.sameInit hst.zombie (fun e _ => hst.sameParent e)
    (fun q hq => hq.of_goto hpc hstate h1 h2) (fun i hi => ?_) ?_ hw ?_
  · rw [St.goto_pc_ne _ _ hi, hpc]
  · rw [St.goto_pc_self, hseen]
  · rw [St.goto_pc_self]; exact hw'

lemma Awake.goto (ha : At s p c) {d : Pc n} (hst : Still s t) (hpc : t.pc = s.pc)
    (hstate : ∀ i, (t.proc i).state = .SLEEPING → (s.proc i).state = .SLEEPING)
    (hw : ¬ Waking c) (hw' : ¬ Waking d) (hseen : seen d = 0) (h1 : d ≠ .falling)
    (h2 : d ≠ .asleep) : Awake (t.goto p d) :=
  h.move hst hpc hstate (by rwa [ha.pc]) hw' hseen h1 h2

lemma Awake.goto_slot (ha : At s p c) {d : Pc n} {np : Fin n}
    (hidle : s.pc np = .idle) (hinit : t.tbl.initproc = s.tbl.initproc) (hpc : t.pc = s.pc)
    (hproc : ∀ i, i ≠ np → t.proc i = s.proc i) (hkind : kind t np ≠ .zombie)
    (hw : ¬ Waking c) (hw' : ¬ Waking d) (hseen : seen d = 0) (h1 : d ≠ .falling)
    (h2 : d ≠ .asleep) : Awake (t.goto p d) := by
  refine h.quiet (p := p) hinit ?_ ?_ ?_ (fun i hi => ?_) ?_ ?_ ?_
  · intro k q hq hz
    have e : k ≠ np := by
      rintro rfl
      exact hkind hz
    exact ⟨(congrArg Proc.parent (hproc k e)).symm.trans hq,
      (congrArg (fun x => kindOf x.state) (hproc k e)).symm.trans hz⟩
  · intro e he
    have e' : e ≠ np := by
      rintro rfl
      rw [hidle] at he
      exact he
    exact congrArg Proc.parent (hproc e e')
  · intro q hq
    have hne : q ≠ p := by
      rintro rfl
      rcases hq with hq | ⟨hq, -⟩ <;> rw [St.goto_pc_self] at hq
      · exact h1 hq
      · exact h2 hq
    have hqpc : (t.goto p d).pc q = s.pc q := by rw [St.goto_pc_ne _ _ hne, hpc]
    have e : q ≠ np := by
      rintro rfl
      rcases hq with hq | ⟨hq, -⟩ <;> rw [hqpc, hidle] at hq <;> cases hq
    unfold Asleep at hq ⊢
    rw [hqpc] at hq
    exact hq.imp id fun h => ⟨h.1, (congrArg Proc.state (hproc q e)).symm.trans h.2⟩
  · rw [St.goto_pc_ne _ _ hi, hpc]
  · rw [St.goto_pc_self, hseen]
  · rw [ha.pc]; exact hw
  · rw [St.goto_pc_self]; exact hw'

lemma Awake.goto_critical (ha : At s p c) (hcrit : Critical c) {d : Pc n}
    (hpc : t.pc = s.pc)
    (hz : ∀ k q, parent t k = some q → kind t k = .zombie →
      parent s k = some q ∧ kind s k = .zombie)
    (hstate : ∀ i, (t.proc i).state = .SLEEPING → (s.proc i).state = .SLEEPING)
    (hsafe : ∀ st i k, c = .wakeInit st i k → s.tbl.initproc.val < k)
    (hseen : ∀ k : Fin n, k.val < seen d → parent s k = some p →
      kind s k ≠ .zombie)
    (htold : ∀ st par k, d = .wakeParent st par k → par = parent t p ∧
      ∀ q, par = some q → q.val < k → ¬ Asleep (t.goto p d) q)
    (hd : ∀ st i k, d ≠ .wakeInit st i k) (h1 : d ≠ .falling) (h2 : d ≠ .asleep) :
    Awake (t.goto p d) := by
  refine awake_solo ha hcrit hpc ?_ htold (fun st i k he => absurd he (hd st i k)) ?_
  · intro k hk hq hzk
    obtain ⟨h3, h4⟩ := hz k p hq hzk
    exact hseen k hk h3 h4
  · intro q j hq hj hzj
    obtain ⟨h3, h4⟩ := hz j q hj hzj
    obtain ⟨-, st, i, k, he, hk⟩ := h.lost_at ha hcrit (hq.of_goto hpc hstate h1 h2) h3 h4
    have := hsafe st i k he
    omega

lemma awake_reparentPass {st : ℤ} {i : ℕ} (ha : At s p (.reparent st i))
    (pp : Fin n) : Awake ((s.setParent pp s.tbl.initproc).goto p (.wakeInit st i 0)) := by
  refine awake_solo ha trivial rfl (by simp [seen]) (by simp) ?_ ?_
  · rintro st i k ⟨⟩ hlt
    omega
  · intro q j hq hj hzj
    have hkind : kind s j = .zombie := (kind_setParent pp _ j).symm.trans hzj
    have hq' : Asleep s q := by
      refine hq.of_goto rfl (fun k hk => ?_) (by simp) (by simp)
      by_cases e : k = pp
      · subst e; simpa [St.setParent, St.proc, St.setProc] using hk
      · simpa [St.setParent, St.proc, St.setProc, Table.set_procs_ne _ e] using hk
    by_cases e : j = pp
    · subst e
      obtain rfl : s.tbl.initproc = q := Option.some.inj ((parent_setParent_self j _).symm.trans hj)
      exact ⟨rfl, st, i, 0, rfl, Nat.zero_le _⟩
    · have hpar : parent s j = some q := (parent_setParent_ne _ e).symm.trans hj
      obtain ⟨-, st', i', k', ⟨⟩, -⟩ := h.lost_at ha trivial hq' hpar hkind

lemma awake_wakeInitNext {st : ℤ} {i j : ℕ} (ha : At s p (.wakeInit st i j))
    {q : Fin n} (hslot : q.val = j) (hw : Woken s p q (some (.proc s.tbl.initproc)) t) :
    Awake (t.goto p (.wakeInit st i (j + 1))) := by
  obtain ⟨hst, hpc⟩ := Still.woken hw
  have hmono {r : Fin n} (hr : Asleep (t.goto p (.wakeInit st i (j + 1))) r) : Asleep s r :=
    hr.of_goto hpc (fun _ => woken_sleeping hw) (by simp) (by simp)
  have hinit : t.tbl.initproc = s.tbl.initproc := hst.sameInit
  -- the round at the slot of `init` wakes it
  have htold : s.tbl.initproc.val < j + 1 →
      ¬ Asleep (t.goto p (.wakeInit st i (j + 1))) s.tbl.initproc := by
    intro hlt
    by_cases e : q = s.tbl.initproc
    · have hne : q ≠ p := by
        rintro rfl
        exact ha.init e trivial
      rw [← e] at hw ⊢
      exact not_asleep_of_woken ha.shape hne hw
    · intro hasl
      have hv : s.tbl.initproc.val ≠ j := fun e' => e (Fin.ext (hslot.trans e'.symm))
      exact h.toldInit p st i j ha.pc (by omega) (hmono hasl)
  refine awake_solo ha trivial hpc (by simp [seen]) (by simp) ?_ ?_
  · rintro st' i' k' ⟨⟩ hlt
    rw [hinit] at hlt ⊢
    exact htold hlt
  · intro r k hr hk hzk
    obtain ⟨rfl, st', i', k', ⟨⟩, hle⟩ := h.lost_at ha trivial (hmono hr)
      ((hst.sameParent k).symm.trans hk) ((hst.sameKind k).symm.trans hzk)
    refine ⟨hinit.symm, st, i, j + 1, rfl, ?_⟩
    rw [hinit]
    by_contra hgt
    exact htold (by omega) hr

lemma awake_wakeParentNext {st : ℤ} {par : Option (Fin n)} {j : ℕ}
    (ha : At s p (.wakeParent st par j)) {q : Fin n} (hslot : q.val = j)
    (hw : Woken s p q (par.map .proc) t) : Awake (t.goto p (.wakeParent st par (j + 1))) := by
  obtain ⟨hst, hpc⟩ := Still.woken hw
  obtain ⟨hpar, htold⟩ := h.told p st par j ha.pc
  refine h.goto_critical ha trivial hpc hst.zombie (fun _ => woken_sleeping hw) (by simp)
    (by simp [seen]) ?_ (by simp) (by simp) (by simp)
  rintro st' par' k ⟨⟩
  refine ⟨hpar.trans (hst.sameParent p).symm, fun r hr hlt hasl => ?_⟩
  subst hr
  by_cases e : r = q
  · subst e
    by_cases hne : r = p
    · subst hne
      rcases hasl with hasl | ⟨hasl, -⟩ <;> rw [St.goto_pc_self] at hasl <;> cases hasl
    · exact not_asleep_of_woken ha.shape hne hw hasl
  · have hv : r.val ≠ j := fun e' => e (Fin.ext (e'.trans hslot.symm))
    exact htold r rfl (by omega)
      (hasl.of_goto hpc (fun _ => woken_sleeping hw) (by simp) (by simp))

lemma awake_die {st : ℤ} {par : Option (Fin n)} {j : ℕ}
    (ha : At s p (.wakeParent st par j)) (hover : n ≤ j) :
    Awake ((s.die p st).goto p .dying) := by
  obtain ⟨hpar, htold⟩ := h.told p st par j ha.pc
  have hmono {r : Fin n} (hr : Asleep ((s.die p st).goto p .dying) r) : Asleep s r := by
    refine hr.of_goto rfl (fun k hk => ?_) (by simp) (by simp)
    by_cases e : k = p
    · subst e; simp [St.die, St.proc, St.setProc] at hk
    · simpa [St.die, St.proc, St.setProc, Table.set_procs_ne _ e] using hk
  refine awake_solo ha trivial rfl (by simp [seen]) (by simp) (by simp) fun r k hr hk hzk => ?_
  have hk' : parent s k = some r := (parent_die p st k).symm.trans hk
  by_cases e : k = p
  · subst e
    exact absurd (hmono hr) (htold r (hpar.trans hk') (Nat.lt_of_lt_of_le r.isLt hover))
  · have hz' : kind s k = .zombie := (kind_die_ne st e).symm.trans hzk
    obtain ⟨-, st', i', k', ⟨⟩, -⟩ := h.lost_at ha trivial (hmono hr) hk' hz'

lemma awake_sleepBegin (ha : At s p .presleep) :
    Awake ({ s.setLocked p true with waitLock := none }.goto p .falling) := by
  refine awake_solo ha trivial rfl (by simp [seen]) (by simp) (by simp) fun r k hr hk hzk => ?_
  have hk' : parent s k = some r := hk
  by_cases e : r = p
  · subst e
    exact absurd hzk (h.looked r k (by rw [ha.pc]; exact k.isLt) hk')
  · have hr' : Asleep s r := by
      unfold Asleep at hr ⊢
      rwa [St.goto_pc_ne _ _ e] at hr
    obtain ⟨-, st', i', k', ⟨⟩, -⟩ := h.lost_at ha trivial hr' hk' hzk

lemma section_awake (hfam : Family s) (ha : At s p c) (hs : Section s p c s') :
    Awake s' := by
  have hlive : kind s p = .live := by rw [kind, ha.running]; rfl
  have hsame : ∀ k q, parent s k = some q → kind s k = .zombie →
      parent s k = some q ∧ kind s k = .zombie := fun _ _ h1 h2 => ⟨h1, h2⟩
  have hzero {d : Pc n} (hd : seen d = 0) (k : Fin n) (hk : k.val < seen d) :
      parent s k = some p → kind s k ≠ .zombie := by omega
  cases hs with
  | allocEnd | allocNext | killEnd | killNext =>
    exact h.goto ha (.refl s) rfl (fun _ => id) id id rfl (by simp) (by simp)
  | allocFail free =>
    refine h.goto_slot ha (ha.shape.idle_of_unused free) rfl rfl (fun i hi => ?_) ?_ id id rfl
      (by simp) (by simp)
    · exact (Table.set_procs_ne _ hi _).trans (Table.set_procs_ne _ hi _)
    · simp [St.unclaim, St.proc, Table.freeproc]
  | allocOk free =>
    refine h.goto_slot ha (ha.shape.idle_of_unused free) rfl rfl
      (fun i hi => Table.set_procs_ne _ hi _) ?_ id id rfl (by simp) (by simp)
    simp [St.claim, St.proc, Table.claim]
  | adopt lock =>
    rename_i np
    have hmade := (hfam.adopt p np ha.pc).1
    refine h.goto_slot ha (ha.shape.idle_of_used (kindOf_made.mp hmade)) rfl rfl
      (fun i hi => St.setProc_ne _ _ hi) ?_ id id rfl (by simp) (by simp)
    rw [kind_setParent, hmade]
    simp
  | start =>
    rename_i np
    have hmade := (hfam.start p np ha.pc).1
    refine h.goto_slot ha (ha.shape.idle_of_used (kindOf_made.mp hmade)) rfl rfl
      (fun i hi => St.setProc_ne _ _ hi) ?_ id id rfl (by simp) (by simp)
    rw [kind_setProc_self]
    simp
  | killHit =>
    rename_i pid i j
    refine h.goto ha (.kill j) rfl (fun k hk => ?_) id id rfl (by simp) (by simp)
    by_cases e : k = j
    · subst e
      rw [St.setProc_self, St.killed] at hk
      split_ifs at hk
      exact hk
    · rwa [St.setProc_ne _ _ e] at hk
  | exitBegin _ | waitBegin _ =>
    exact h.goto ha (t := { s with waitLock := some p }) ⟨rfl, fun _ => rfl, fun _ => rfl⟩ rfl
      (fun _ => id) id id rfl (by simp) (by simp)
  | reparentEnd ended =>
    refine h.goto_critical ha trivial rfl hsame (fun _ => id) (by simp) (hzero rfl) ?_ (by simp)
      (by simp) (by simp)
    rintro st par k ⟨⟩
    exact ⟨rfl, fun q _ hlt => absurd hlt (Nat.not_lt_zero _)⟩
  | reparentNext slot other =>
    exact h.goto_critical ha trivial rfl hsame (fun _ => id) (by simp) (hzero rfl) (by simp)
      (by simp) (by simp) (by simp)
  | reparentPass slot child => exact awake_reparentPass h ha _
  | wakeInitEnd ended =>
    refine h.goto_critical ha trivial rfl hsame (fun _ => id) ?_ (hzero rfl) (by simp)
      (by simp) (by simp) (by simp)
    rintro st i k ⟨⟩
    exact Nat.lt_of_lt_of_le s.tbl.initproc.isLt ended
  | wakeInitNext slot woken => exact awake_wakeInitNext h ha slot woken
  | wakeParentNext slot woken => exact awake_wakeParentNext h ha slot woken
  | exitEnd ended => exact awake_die h ha ended
  | scanEnd ended =>
    refine h.goto_critical ha trivial rfl hsame (fun _ => id) (by simp) (fun k _ => ?_) (by simp)
      (by simp) (by simp) (by simp)
    exact h.looked p k (by rw [ha.pc]; exact Nat.lt_of_lt_of_le k.isLt ended)
  | scanNext slot no =>
    rename_i j havekids havekids' pp
    refine h.goto_critical ha trivial rfl hsame (fun _ => id) (by simp) (fun k hk hpar => ?_)
      (by simp) (by simp) (by simp) (by simp)
    by_cases e : k = pp
    · subst e
      simpa using no hpar
    · have hv : k.val ≠ j := fun e' => e (Fin.ext (e'.trans slot.symm))
      refine h.looked p k ?_ hpar
      rw [ha.pc]
      simp only [seen] at hk ⊢
      omega
  | scanFail | checkEnd =>
    exact h.goto_critical ha (t := { s with waitLock := none }) trivial rfl hsame (fun _ => id)
      (by simp) (hzero rfl) (by simp) (by simp) (by simp) (by simp)
  | scanReap child lock zombie =>
    rename_i j havekids pp
    have hpp : kind (s.reap p pp) pp = .free ∧ ((s.reap p pp).proc pp).state = .UNUSED := by
      simp [St.reap, St.proc, Table.freeproc]
    have hne {i : Fin n} (e : i ≠ pp) : (s.reap p pp).proc i = s.proc i :=
      Table.set_procs_ne _ e _
    refine h.goto_critical ha (t := { s.reap p pp with waitLock := none }) trivial rfl ?_ ?_
      (by simp) (hzero rfl) (by simp) (by simp) (by simp) (by simp)
    · intro k q hq hz
      have e : k ≠ pp := by
        rintro rfl
        exact absurd (hpp.1.symm.trans hz) (by simp)
      exact ⟨(congrArg Proc.parent (hne e)).symm.trans hq,
        (congrArg (fun x => kindOf x.state) (hne e)).symm.trans hz⟩
    · intro i hi
      have e : i ≠ pp := by
        rintro rfl
        exact absurd (hpp.2.symm.trans hi) (by simp)
      exact (congrArg Proc.state (hne e)).symm.trans hi
  | checkSleep =>
    refine h.goto_critical ha trivial rfl hsame (fun _ => id) (by simp) (fun k hk => ?_)
      (by simp) (by simp) (by simp) (by simp)
    exact h.looked p k (by rw [ha.pc]; exact hk)
  | sleepBegin => exact awake_sleepBegin h ha
  | sleepEnd =>
    have hst : Still s (s.setProc p { s.proc p with chan := some (.proc p), state := .SLEEPING }) :=
      .setProc (by rw [hlive]; rfl) rfl
    refine h.quiet (p := p) hst.sameInit hst.zombie (fun e _ => hst.sameParent e) (fun q hq => ?_)
      (fun i hi => St.goto_pc_ne _ _ hi) ?_ (by rw [ha.pc]; exact id) ?_
    · by_cases e : q = p
      · subst e
        exact .inl ha.pc
      · unfold Asleep at hq ⊢
        rw [show (s.sleepEnd p).pc q = s.pc q from St.goto_pc_ne _ _ e,
          show (s.sleepEnd p).proc q = s.proc q from St.setProc_ne _ _ e] at hq
        exact hq
    · rw [show (s.sleepEnd p).pc p = .asleep from St.goto_pc_self ..]; rfl
    · rw [show (s.sleepEnd p).pc p = .asleep from St.goto_pc_self ..]; exact id

lemma Awake.still (hst : Still s s') (hpc : s'.pc = s.pc)
    (hsleep : ∀ q, Asleep s' q → Asleep s q) (hseen : seen (s.pc p) = 0)
    (hw : ¬ Waking (s.pc p)) : Awake s' :=
  h.quiet (p := p) hst.sameInit hst.zombie (fun e _ => hst.sameParent e) hsleep
    (fun i _ => by rw [hpc]) (by rw [hpc, hseen]) hw (by rwa [hpc])

end

lemma asleep_setProc {j q : Fin n} {x : Proc n}
    (hj : x.state = .SLEEPING → s.pc j = .idle ∨ (s.proc j).state = .SLEEPING)
    (h : Asleep (s.setProc j x) q) : Asleep s q := by
  by_cases e : q = j
  · subst e
    rcases h with h | ⟨h, hs⟩
    · exact .inl h
    · rw [St.setProc_self] at hs
      rcases hj hs with hi | hs'
      · rw [St.setProc_pc, hi] at h; cases h
      · exact .inr ⟨h, hs'⟩
  · unfold Asleep at h ⊢
    rwa [St.setProc_ne _ _ e, St.setProc_pc] at h

lemma step_awake (h : Awake s) (hfam : Family s) (hsh : Shape s) {a : Act n}
    (hs : step s a = some s') : Awake s' := by
  cases a with
  | call p c =>
    simp only [step] at hs
    split_ifs at hs with hc
    cases hs
    obtain ⟨hr, hi, hcall⟩ := hc
    have hplain : ¬ Waking c ∧ seen c = 0 ∧ c ≠ .falling ∧ c ≠ .asleep := by
      cases c <;> simp_all [Callable, Waking, seen]
    obtain ⟨h1, h2, h3, h4⟩ := hplain
    exact h.goto ⟨hsh, hr, hi⟩ (.refl s) rfl (fun _ => id) id h1 h2 h3 h4
  | go p b =>
    simp only [step] at hs
    split_ifs at hs with hr
    exact section_awake h hfam ⟨hsh, hr, rfl⟩ (go_section hs)
  | swtch p =>
    simp only [step] at hs
    split_ifs at hs with hd
    cases hs
    exact h.move ⟨rfl, fun _ => rfl, fun _ => rfl⟩ rfl (fun _ => id) (by rw [hd]; exact id) id rfl
      (by simp) (by simp)
  | schedule p =>
    simp only [step] at hs
    split_ifs at hs with hc
    cases hs
    obtain ⟨hl, hr⟩ := hc
    have hst : Still s { s with tbl := s.tbl.schedule p } :=
      Still.setProc (by rw [kind, hr]; rfl) rfl
    have hplain : ¬ Waking (s.pc p) ∧ ¬ Waking (s.pc p).resume ∧ seen (s.pc p).resume = 0 ∧
        (s.pc p).resume ≠ .falling ∧ (s.pc p).resume ≠ .asleep := by
      have h1 := (hsh p).allows
      rw [hr] at h1
      generalize s.pc p = d at h1
      cases d <;> simp_all [Allows, Waking, Pc.resume, seen]
    obtain ⟨h1, h2, h3, h4, h5⟩ := hplain
    refine h.move hst rfl (fun i hi => ?_) h1 h2 h3 h4 h5
    by_cases e : i = p
    · subst e
      simp [St.proc, Table.schedule] at hi
    · rwa [show ({ s with tbl := s.tbl.schedule p } : St n).proc i = s.proc i from
        Table.set_procs_ne _ e _] at hi
  | yield p =>
    simp only [step] at hs
    split_ifs at hs with hc
    cases hs
    obtain ⟨-, hr, hpre⟩ := hc
    have hplain : seen (s.pc p) = 0 ∧ ¬ Waking (s.pc p) := by
      generalize s.pc p = d at hpre
      cases d <;> simp_all [Pc.preemptible, Waking, seen]
    refine h.still (p := p) (Still.setProc (by rw [kind, hr]; rfl) rfl) rfl (fun q hq => ?_)
      hplain.1 hplain.2
    exact asleep_setProc (by simp) hq
  | sleep p c =>
    simp only [step] at hs
    split_ifs at hs with hc
    cases hs
    obtain ⟨-, hr, hi⟩ := hc
    refine h.still (p := p) (Still.setProc (by rw [kind, hr]; rfl) rfl) rfl (fun q hq => ?_)
      (by rw [hi]; rfl) (by rw [hi]; exact id)
    exact asleep_setProc (fun _ => .inl hi) hq
  | wake i c =>
    simp only [step] at hs
    split_ifs at hs
    cases hs
    unfold St.wakeSlot
    split_ifs with hw
    · have hplain : seen (s.pc i) = 0 ∧ ¬ Waking (s.pc i) := by
        have h1 := (hsh i).allows
        rw [hw.1] at h1
        generalize s.pc i = d at h1
        cases d <;> simp_all [Allows, Waking, seen]
      refine h.still (p := i) (Still.setProc (by rw [kind, hw.1]; rfl) rfl) rfl (fun q hq => ?_)
        hplain.1 hplain.2
      exact asleep_setProc (by simp) hq
    · exact h
  | setkilled p =>
    simp only [step] at hs
    split_ifs at hs with hc
    cases hs
    refine h.still (p := p) (Still.setProc rfl rfl) rfl (fun q hq => ?_)
      (by rw [hc.2.2]; rfl) (by rw [hc.2.2]; exact id)
    exact asleep_setProc (x := { s.proc p with killed := 1 }) (fun hst => .inr hst) hq

lemma boot_awake (i : Fin n) : Awake (boot i) := by
  refine ⟨?_, ?_, ?_, ?_⟩
  · intro p k hk
    exact absurd hk (Nat.not_lt_zero _)
  · intro e st par k he
    cases he
  · intro e st i k he
    cases he
  · rintro q j (hq | ⟨hq, -⟩) <;> cases hq

/-! ### The protocol -/

/-- All that is known of the states that can be reached. -/
structure Inv (s : St n) : Prop where
  shape : Shape s
  family : Family s
  ids : Ids s
  awake : Awake s

lemma step_inv (h : Inv s) {a : Act n} (hs : step s a = some s') : Inv s' := by
  obtain ⟨hsh, hfam, hids, haw⟩ := h
  refine ⟨step_shape hsh (fun p np hp => ?_) hs, step_family hfam hsh hs,
    step_ids hids hfam hsh hs, step_awake haw hfam hsh hs⟩
  exact kindOf_made.mp (hfam.start p np hp).1

lemma reach_inv {i : Fin n} (h : Reach step Always (· = boot i) s) : Inv s :=
  h.invariant (fun _ h0 => h0 ▸ ⟨boot_shape i, boot_family i, boot_ids i, boot_awake i⟩)
    fun _ _ _ hi _ ht => step_inv hi ht

lemma section_init {c : Pc n} (hs : Section s p c s') : s'.tbl.initproc = s.tbl.initproc := by
  cases hs with
  | wakeInitNext slot woken | wakeParentNext slot woken => exact (Still.woken woken).1.sameInit
  | _ => rfl

lemma step_init {a : Act n} (hs : step s a = some s') : s'.tbl.initproc = s.tbl.initproc := by
  cases a with
  | go p b =>
    simp only [step] at hs
    split_ifs at hs
    exact section_init (go_section hs)
  | wake i c =>
    simp only [step] at hs
    split_ifs at hs
    cases hs
    exact (Still.wakeSlot i _).sameInit
  | _ =>
    simp only [step] at hs
    split_ifs at hs
    cases hs
    rfl

lemma reach_init {i : Fin n} (h : Reach step Always (· = boot i) s) : s.tbl.initproc = i :=
  h.invariant (I := fun s => s.tbl.initproc = i) (fun _ h0 => h0 ▸ rfl)
    fun _ _ _ hi _ ht => (step_init ht).trans hi

/-- **The protocol of `exit` and `wait`.** In any interleaving of any processes:

* every process that has left `kfork`, `init` apart, has a parent, and it is neither free nor
  a zombie;
* every process exits at most once, and its exit is returned by at most one `kwait`, with its
  own pid and status, to the process that is its parent then;
* the pids of the processes in the table are distinct, for fewer than `2 ^ 31` allocations;
* while `wait_lock` is free, no process sleeps in `kwait` that has a zombie child. -/
theorem exit_wait_protocol {i : Fin n} (h : Reach step Always (· = boot i) s) :
    (∀ p, p ≠ i → (s.proc p).state ≠ .UNUSED → (s.proc p).state ≠ .USED →
      ∃ q, (s.proc p).parent = some q ∧ (s.proc q).state ≠ .UNUSED ∧
        (s.proc q).state ≠ .ZOMBIE) ∧
    ((s.exited.map Exit.proc).Nodup ∧ (s.reaped.map Reap.child).Nodup ∧
      ∀ r ∈ s.reaped, (⟨r.child, r.pid, r.status⟩ : Exit) ∈ s.exited ∧ r.caller = r.parent) ∧
    (s.born < 2 ^ 31 → ∀ p q, (s.proc p).state ≠ .UNUSED → (s.proc q).state ≠ .UNUSED →
      (s.proc p).pid = (s.proc q).pid → p = q) ∧
    (s.waitLock = none → ∀ p j, s.pc p = .asleep → (s.proc p).state = .SLEEPING →
      (s.proc j).parent = some p → (s.proc j).state ≠ .ZOMBIE) := by
  obtain ⟨hsh, hfam, hids, haw⟩ := reach_inv h
  have hinit : s.tbl.initproc = i := reach_init h
  refine ⟨?_, ⟨hids.exitedOnce, hids.reapedOnce, hids.reaped⟩, ?_, ?_⟩
  · intro p hne hfree hmade
    have hkind : kind s p = .live ∨ kind s p = .zombie := by
      rw [kind]
      cases hst : (s.proc p).state <;> simp_all [kindOf]
    obtain ⟨q, hq⟩ := Option.ne_none_iff_exists'.mp (hfam.hasParent p (by rwa [hinit]) hkind)
    have hlive := hfam.parentLive p q hq
    refine ⟨q, hq, ?_, ?_⟩
    · intro e; rw [kind, e] at hlive; cases hlive
    · intro e; rw [kind, e] at hlive; cases hlive
  · intro hborn p q hp hq heq
    have hp' : kind s p ≠ .free := by simpa using hp
    have hq' : kind s q ≠ .free := by simpa using hq
    obtain ⟨h1, h2⟩ := hids.pid p hp'
    obtain ⟨h3, h4⟩ := hids.pid q hq'
    rw [h2, h4, pidOf_eq (by omega), pidOf_eq (by omega)] at heq
    exact hids.inj p q hp' hq' (by omega)
  · intro hlock p j hpc hst hpar hz
    obtain ⟨-, e, st, i, k, he, -⟩ := haw.lost p j (.inr ⟨hpc, hst⟩) hpar (by simp [hz])
    have := (hsh e).wait.mpr (by rw [he]; trivial)
    rw [hlock] at this
    cases this

/-- The first process forks, and waits; the child exits with status 7, and the first process
gets to know. -/
def forkExitWait : List (Act 3) :=
  [.schedule 0, .call 0 (.alloc 0), .go 0 true, .go 0 true, .go 0 true, .go 0 true,
    .call 0 .wait, .go 0 true, .go 0 true, .go 0 true, .go 0 true, .go 0 true, .go 0 true,
    .go 0 true, .go 0 true,
    .schedule 1, .call 1 (.exit 7), .go 1 true, .go 1 true, .go 1 true, .go 1 true, .go 1 true,
    .go 1 true, .go 1 true, .go 1 true, .go 1 true, .swtch 1,
    .schedule 0, .go 0 true, .go 0 true, .go 0 true]

theorem exit_wait_protocol_forkExitWait : ∃ s, run step (boot (0 : Fin 3)) forkExitWait = some s ∧
    s.reaped = [⟨0, 0, 1, 2, 7⟩] ∧ (⟨1, 2, 7⟩ : Exit) ∈ s.exited := by
  obtain ⟨s, hs⟩ : ∃ s, run step (boot (0 : Fin 3)) forkExitWait = some s := ⟨_, rfl⟩
  have hmap : (run step (boot (0 : Fin 3)) forkExitWait).map (fun s => s.reaped)
      = some [⟨0, 0, 1, 2, 7⟩] := rfl
  rw [hs, Option.map_some, Option.some.injEq] at hmap
  obtain ⟨-, ⟨-, -, hreaped⟩, -⟩ := exit_wait_protocol (Reach.of_run (.init rfl) hs)
  refine ⟨s, hs, hmap, (hreaped ⟨0, 0, 1, 2, 7⟩ ?_).1⟩
  rw [hmap]
  exact List.mem_singleton_self _

end Xv6.WaitProtocol
