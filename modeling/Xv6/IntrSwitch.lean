import Xv6.IntrInv

/-!
The rules for the requests of a context switch: changing the state of a process under its
lock, leaving the CPU to the scheduler, and being switched to again.
-/

namespace Xv6.Intr

open Threads
open Function (update update_self update_of_ne)
open ProcModel (ProcState)

variable {m n : ℕ} {K : Type} [Fintype K] {s s' : St m n K} {Γ : Thread m n → View n K}
  {c : Fin m} {t : Thread m n} {g : View n K} {p q : Fin n} {k : ℕ} {O : Finset (Lock n K)}

/-! ### The state of a process -/

abbrev St.setState (s : St m n K) (q : Fin n) (x : ProcState) : St m n K :=
  { s with state := update s.state q x }

omit [Fintype K] in
lemma Placed.setState_proc {x : ProcState} (h : Placed s (.proc p) g)
    (hq : p ≠ q ∨ s.state q ≠ .RUNNING) : Placed (s.setState q x) (.proc p) g := by
  have hst : s.state p = .RUNNING → (s.setState q x).state p = .RUNNING := fun hr => by
    have hpq : p ≠ q := by
      rintro rfl
      exact hq.elim (· rfl) (· hr)
    exact (update_of_ne hpq _ _).trans hr
  simp only [Placed] at h ⊢
  split at h
  · exact ⟨h.1, hst h.2⟩
  · exact h
  · exact h
  · exact ⟨h.1, h.2.1, fun hr => hst (h.2.2 hr)⟩
  · exact ⟨h.1, h.2.1, h.2.2.1, hst h.2.2.2⟩
  · exact ⟨h.1, h.2.1, fun hr => hst (h.2.2 hr)⟩
  · exact h

lemma Inv.setState_sched (hi : Inv s Γ) {x : ProcState} {d : Fin m}
    (hd : s.cur d = none → plock q ∉ heldOn s d) :
    Placed (s.setState q x) (.sched d) (Γ (.sched d)) := by
  have h := hi.placed (.sched d)
  -- a scheduler that has chosen a process runs, so its CPU holds the lock
  have hst : ∀ q', (Γ (.sched d)).own = {plock q'} → s.cur d = none → s.state q' = .RUNNING →
      (s.setState q x).state q' = .RUNNING := fun q' hown hcur hr => by
    have hne : q' ≠ q := by
      rintro rfl
      have hh := (hi.here d).own
      rw [running_sched.mpr ⟨hcur, rfl⟩, hown] at hh
      exact hd hcur (hh ▸ Finset.mem_singleton_self _)
    exact (update_of_ne hne _ _).trans hr
  simp only [Placed] at h ⊢
  split at h
  · exact h
  · exact ⟨h.1, h.2.1, h.2.2.1, hst _ (by rw [h.1]; rfl) h.2.1 h.2.2.2.1, h.2.2.2.2⟩
  · exact ⟨h.1, h.2.1, h.2.2.1, hst _ (by rw [h.1]; rfl) h.2.1 h.2.2.2.1, h.2.2.2.2⟩
  · exact h
  · exact h

/-- A thread that holds the lock of a process changes its state: its own, or one that is not
`RUNNING`. -/
lemma Inv.setState (hi : Inv s Γ) (ht : running s c = t) (hq : plock q ∈ heldOn s c)
    (hne : t = .proc q ∨ s.state q ≠ .RUNNING) {x : ProcState}
    (hh : Here (s.setState q x) c t g) (hp : Placed (s.setState q x) t g)
    (hk : g.pushed = (Γ t).pushed) : Inv (s.setState q x) (update Γ t g) := by
  refine hi.of_update (fun c' => ?_) ((hi.pushed t).trans hk.symm) (fun _ _ => rfl) hi.once hp
    fun t' e => ?_
  · show Here _ c' (running s c') (update Γ t g (running s c'))
    by_cases hc : c' = c
    · rw [hc, ht, update_self]
      exact hh
    · have h := hi.here c'
      rw [update_of_ne (hi.running_ne ht hc)]
      refine ⟨h.noff, h.off, h.own, h.old, fun q' x' hx => ?_, h.intena⟩
      obtain ⟨hmem, hst⟩ := h.saw q' x' hx
      have hqq : q' ≠ q := by
        rintro rfl
        exact hc (heldOn_unique (h.own.symm ▸ hmem) hq)
      exact ⟨hmem, (update_of_ne hqq _ _).trans hst⟩
  · cases t' with
    | proc p =>
      refine (hi.placed (.proc p)).setState_proc ?_
      rcases hne with rfl | hne
      · exact .inl fun h => e (by rw [h])
      · exact .inr hne
    | sched d =>
      refine hi.setState_sched fun hd hmem => e ?_
      rw [← ht, ← heldOn_unique hmem hq]
      exact (running_sched.mpr ⟨hd, rfl⟩).symm

variable [DecidableEq K]

lemma rule_setState_self (hp : plock p ∈ O) (x : ProcState) :
    ok (world m n K) (.proc p) (setState p x) (view k O .run)
      fun _ g' => g' = view k O .leaving := by
  refine rule (fun _ _ => rfl) trivial fun s Γ c hi hg ht => ⟨_, ?_, rfl⟩
  obtain ⟨hh, hpl, -⟩ := hi.fits ht hg
  exact hi.setState ht (hh.own.symm ▸ hp) (.inl rfl) (hh.place rfl rfl hh.intena) ⟨hpl.1, hp⟩
    (by rw [hg]; rfl)

lemma rule_setState_other {y : ProcState} (hq : t ≠ .proc q) (hy : y ≠ .RUNNING) (x : ProcState) :
    ok (world m n K) t (setState q x) (seen k O q y) fun _ g' => g' = view k O .run := by
  refine rule (fun _ _ => rfl) trivial fun s Γ c hi hg ht => ⟨_, ?_, rfl⟩
  obtain ⟨hh, hpl, -⟩ := hi.fits ht hg
  obtain ⟨hmem, hst⟩ := hh.saw q y rfl
  refine hi.setState ht (hh.own.symm ▸ hmem) (.inr (hst ▸ hy)) (hh.place rfl rfl hh.intena) ?_
    (by rw [hg]; rfl)
  cases t with
  | proc p =>
    have hpq : p ≠ q := fun h => hq (by rw [h])
    exact ⟨hpl.1, (update_of_ne hpq _ _).trans hpl.2⟩
  | sched d => exact hpl

lemma rule_setState_choose {d : Fin m} :
    ok (world m n K) (.sched d) (setState q .RUNNING) (seen 0 {plock q} q .RUNNABLE)
      fun _ g' => g' = view 0 {plock q} (.chosen q) := by
  refine rule (fun _ _ => rfl) trivial fun s Γ c hi hg ht => ⟨_, ?_, rfl⟩
  obtain ⟨hh, hpl, -⟩ := hi.fits ht hg
  obtain ⟨hmem, hst⟩ := hh.saw q .RUNNABLE rfl
  obtain ⟨hcur, rfl⟩ := running_sched.mp ht
  have hheld : plock q ∈ heldOn s c := hh.own.symm ▸ hmem
  have hnot : s.state q ≠ .RUNNING := by
    rw [hst]
    decide
  have hruns : ¬ Runs s q := by
    rintro ⟨c', hc'⟩
    have hlock := (hi.busy hc').resolve_left hnot
    rw [heldOn_unique hlock hheld, hcur] at hc'
    exact Option.some_ne_none q hc'.symm
  exact hi.setState ht hheld (.inr hnot) (hh.place rfl rfl fun _ _ h => h.elim)
    ⟨rfl, hcur, hpl.2, update_self _ _ _, hruns⟩ (by rw [hg]; rfl)

/-! ### The process of a CPU -/

omit [DecidableEq K] in
lemma local_setProc (s : St m n K) (c : Fin m) (x : Option (Fin n)) :
    Local s (s.setCpu c { s.cpu c with proc := x }) c (.sched c) := by
  refine ⟨rfl, rfl, fun c' h => update_of_ne h _ _, fun _ _ => rfl, fun c' h => ?_,
    fun _ _ => rfl, fun _ _ => rfl⟩
  have hc : c' ≠ c := fun e => h (by rw [e])
  exact congrArg Cpu.proc (update_of_ne hc _ _)

omit [DecidableEq K] in
lemma Here.setProc {pl pl' : Place n} {x : Option (Fin n)}
    (hh : Here s c (.sched c) (view k O pl)) :
    Here (s.setCpu c { s.cpu c with proc := x }) c (.sched c) (view k O pl') := by
  refine ⟨?_, ?_, hh.own, fun b hb => (view_old hb).elim, fun q x hx => (view_saw hx).elim,
    fun p hp => by simp at hp⟩
  · rw [St.setCpu_self]
    exact hh.noff
  · rw [St.setCpu_self]
    exact hh.off

lemma rule_setProc_some {d : Fin m} :
    ok (world m n K) (.sched d) (setProc (some q)) (view 0 {plock q} (.chosen q))
      fun _ g' => g' = view 0 {plock q} (.handing q) := by
  refine rule_own (fun _ _ => rfl) trivial fun s c hh hp hk ht => ?_
  obtain ⟨hcur, rfl⟩ := running_sched.mp ht
  obtain ⟨-, -, -, hst, hruns⟩ := hp
  refine ⟨local_setProc s c _, view 0 {plock q} (.handing q), hh.setProc,
    ⟨rfl, hcur, ?_, hst, hruns⟩, hk, rfl⟩
  rw [St.setCpu_self]

lemma rule_setProc_none {d : Fin m} :
    ok (world m n K) (.sched d) (setProc none) (view 0 {plock q} (.away q))
      fun _ g' => g' = view 0 {plock q} .run := by
  refine rule_own (fun _ _ => rfl) trivial fun s c hh hp hk ht => ?_
  obtain ⟨hcur, rfl⟩ := running_sched.mp ht
  refine ⟨local_setProc s c _, view 0 {plock q} .run, hh.setProc, ⟨hcur, ?_⟩, hk, rfl⟩
  rw [St.setCpu_self]

/-! ### `intena` -/

lemma rule_getIntena :
    ok (world m n K) (.proc p) getIntena (view 0 {plock p} .leaving)
      fun r g' => g' = view 0 {plock p} (.ready r) := by
  refine rule_own (fun _ _ => rfl) trivial fun s c hh hp hk ht => ?_
  have hpos : 0 < (s.cpu c).noff := by
    rw [hh.noff]
    exact Nat.add_pos_left (Finset.card_pos.mpr ⟨_, Finset.mem_singleton_self _⟩) _
  refine ⟨Local.refl _ _ _, view 0 {plock p} (.ready _), hh.place rfl rfl fun _ _ h => h.elim,
    ⟨hp.1, hp.2, fun b hb => ?_⟩, hk, rfl⟩
  exact (hh.intena p rfl trivial hpos b hb).symm

lemma rule_setIntena {r : Bool} :
    ok (world m n K) (.proc p) (setIntena r) (view 0 {plock p} (.back r))
      fun _ g' => g' = view 0 {plock p} .run := by
  refine rule_own (fun _ _ => rfl) trivial fun s c hh hp hk ht => ?_
  obtain ⟨hruns, -, hsaved, hst⟩ := hp
  obtain ⟨hl, -⟩ : Local s (s.setCpu c { s.cpu c with intena := r }) c (.proc p) ∧ _ :=
    local_cpu rfl rfl rfl rfl rfl (fun _ _ => rfl) fun _ _ => rfl
  refine ⟨hl, view 0 {plock p} .run, ⟨?_, ?_, hh.own, fun b hb => (view_old hb).elim,
    fun q x hx => (view_saw hx).elim, ?_⟩, ⟨hruns, hst⟩, hk, rfl⟩
  · rw [St.setCpu_self]
    exact hh.noff
  · rw [St.setCpu_self]
    exact hh.off
  · rw [St.setCpu_self]
    exact fun _ _ _ _ b hb => (hsaved b hb).symm

/-! ### swtch -/

abbrev St.setCur (s : St m n K) (c : Fin m) (x : Option (Fin n)) : St m n K :=
  { s with cur := update s.cur c x }

omit [Fintype K] [DecidableEq K] in
lemma setCur_ne {x : Option (Fin n)} {c' : Fin m} (h : c' ≠ c) :
    (s.setCur c x).cur c' = s.cur c' := update_of_ne h _ _

omit [Fintype K] [DecidableEq K] in
lemma setCur_self {x : Option (Fin n)} : (s.setCur c x).cur c = x := update_self _ _ _

omit [Fintype K] [DecidableEq K] in
/-- Who runs after a switch: the process switched to, and those on other CPUs. -/
lemma setCur_some {x : Option (Fin n)} {c' : Fin m} (h : (s.setCur c x).cur c' = some q) :
    (c' = c ∧ x = some q) ∨ (c' ≠ c ∧ s.cur c' = some q) := by
  by_cases e : c' = c
  · subst e
    exact .inl ⟨rfl, setCur_self.symm.trans h⟩
  · exact .inr ⟨e, (setCur_ne e).symm.trans h⟩

omit [Fintype K] [DecidableEq K] in
lemma runs_setCur {x : Option (Fin n)} (hx : x ≠ some q) (hc : s.cur c ≠ some q) :
    Runs (s.setCur c x) q ↔ Runs s q := by
  refine ⟨?_, ?_⟩
  · rintro ⟨c', h⟩
    rcases setCur_some h with ⟨-, h⟩ | ⟨-, h⟩
    · exact (hx h).elim
    · exact ⟨c', h⟩
  · rintro ⟨c', h⟩
    refine ⟨c', (setCur_ne ?_).trans h⟩
    rintro rfl
    exact hc h

omit [DecidableEq K] in
/-- A switch on a CPU, from the thread `t` to the process `x` or to the scheduler. What the
thread that leaves and the one that comes know is left to show; the others are not concerned,
since no other scheduler has the lock of the process `x`. -/
lemma Inv.switch (hi : Inv s Γ) (ht : running s c = t) {x : Option (Fin n)}
    (hx : ∀ q, x = some q → ¬ Runs s q ∧
      ∀ d, d ≠ c → s.cur d = none → (Γ (.sched d)).own ≠ {plock q})
    (hh : Here (s.setCur c x) c (running (s.setCur c x) c)
      (update Γ t g (running (s.setCur c x) c)))
    (hk : g.pushed = (Γ t).pushed) (hp : Placed (s.setCur c x) t g)
    (hto : ∀ q, x = some q → Placed (s.setCur c x) (.proc q) (Γ (.proc q)))
    (hsched : t ≠ .sched c → Placed (s.setCur c x) (.sched c) (Γ (.sched c))) :
    Inv (s.setCur c x) (update Γ t g) := by
  refine hi.of_update (fun c' => ?_) ((hi.pushed t).trans hk.symm) (fun _ _ => rfl)
    (fun c1 c2 q h1 h2 => ?_) hp fun t' e => ?_
  · by_cases e : c' = c
    · rw [e]
      exact hh
    · have hrun : running (s.setCur c x) c' = running s c' := by
        rw [running, running, setCur_ne e]
      rw [hrun, update_of_ne (hi.running_ne ht e)]
      have h := hi.here c'
      exact ⟨h.noff, h.off, h.own, h.old, h.saw, h.intena⟩
  · rcases setCur_some h1 with ⟨e1, hq⟩ | ⟨-, hs1⟩
    · rcases setCur_some h2 with ⟨e2, -⟩ | ⟨-, hs2⟩
      · exact e1.trans e2.symm
      · exact ((hx q hq).1 ⟨c2, hs2⟩).elim
    · rcases setCur_some h2 with ⟨-, hq⟩ | ⟨-, hs2⟩
      · exact ((hx q hq).1 ⟨c1, hs1⟩).elim
      · exact hi.once c1 c2 q hs1 hs2
  · cases t' with
    | proc q =>
      by_cases hq : x = some q
      · exact hto q hq
      · have hc : s.cur c ≠ some q := fun h => e ((running_proc.mpr h).symm.trans ht)
        exact (hi.placed (.proc q)).congr_proc (runs_setCur hq hc) rfl rfl
    | sched d =>
      by_cases hd : d = c
      · subst hd
        exact hsched (Ne.symm e)
      · refine (hi.placed (.sched d)).congr_sched (setCur_ne hd) rfl rfl ?_
        rintro q hcur hown ⟨c', h⟩
        rcases setCur_some h with ⟨-, hq⟩ | ⟨-, h⟩
        · exact ((hx q hq).2 d hd hcur hown).elim
        · exact ⟨c', h⟩

lemma rule_swtchOut {r : Bool} :
    ok (world m n K) (.proc p) swtchOut (view 0 {plock p} (.ready r))
      fun _ g' => g' = view 0 {plock p} (.parked r) := by
  refine rule (fun _ _ => rfl) trivial fun s Γ c hi hg ht => ⟨_, ?_, rfl⟩
  obtain ⟨hh, hpl, hk⟩ := hi.fits ht hg
  have hc : s.cur c = some p := running_proc.mp ht
  obtain ⟨haway, hproc⟩ := hi.away hc
  have hnot : ¬ Runs (s.setCur c none) p := by
    rintro ⟨c', h⟩
    rcases setCur_some h with ⟨-, h⟩ | ⟨hne, h⟩
    · exact Option.some_ne_none p h.symm
    · exact hne (hi.once c' c p h hc)
  refine hi.switch ht (fun q h => (Option.some_ne_none q h.symm).elim) ?_ (by rw [hg]; rfl)
    ⟨rfl, hpl.2.2, fun h => (hnot h).elim⟩ (fun q h => (Option.some_ne_none q h.symm).elim) ?_
  · -- the scheduler is there again, with the lock of the process
    rw [running_sched.mpr ⟨setCur_self, rfl⟩, update_of_ne (by simp), haway]
    exact hh.place rfl rfl fun _ _ h => h.elim
  · intro _
    rw [haway]
    exact ⟨rfl, hproc, .inl setCur_self⟩

omit [DecidableEq K] in
lemma Inv.waits (hi : Inv s Γ) (h : ¬ Runs s q) : ∃ pl : Place n,
    Γ (.proc q) = view 0 {plock q} pl ∧ ((∃ r, pl = .parked r) ∨ pl = .fresh) := by
  have hp := hi.placed (.proc q)
  simp only [Placed] at hp
  split at hp
  · exact (h hp.1).elim
  · exact (h hp.1).elim
  · exact (h hp.1).elim
  · exact ⟨_, hp.1, .inl ⟨_, rfl⟩⟩
  · exact (h hp.1).elim
  · exact ⟨_, hp.1, .inr rfl⟩
  · exact hp.elim

omit [Fintype K] [DecidableEq K] in
lemma Placed.waiting {pl : Place n} (h : Placed s (.proc q) (view 0 {plock q} pl))
    (hpl : (∃ r, pl = .parked r) ∨ pl = .fresh) (hst : s'.state q = .RUNNING)
    (hbase : s'.base (.proc q) = s.base (.proc q)) :
    Placed s' (.proc q) (view 0 {plock q} pl) := by
  rcases hpl with ⟨r, rfl⟩ | rfl
  · refine ⟨rfl, ?_, fun _ => hst⟩
    rw [Saved, hbase]
    exact h.2.1
  · exact ⟨rfl, hbase.trans h.2.1, fun _ => hst⟩

lemma rule_swtchTo {d : Fin m} :
    ok (world m n K) (.sched d) (swtchTo q) (view 0 {plock q} (.handing q))
      fun _ g' => g' = view 0 {plock q} (.away q) := by
  refine rule (fun _ _ => rfl) trivial fun s Γ c hi hg ht => ⟨_, ?_, rfl⟩
  obtain ⟨hh, hpl, hk⟩ := hi.fits ht hg
  obtain ⟨hcur, rfl⟩ := running_sched.mp ht
  obtain ⟨-, -, hproc, hst, hruns⟩ := hpl
  obtain ⟨pl, hview, hwait⟩ := hi.waits hruns
  have hpq := hi.placed (.proc q)
  rw [hview] at hpq
  have hmine : plock q ∈ heldOn s c := by
    rw [hh.own]
    exact Finset.mem_singleton_self _
  refine hi.switch ht ?_ ?_ (by rw [hg]; rfl) ⟨rfl, hproc, .inr setCur_self⟩ ?_
    fun h => (h rfl).elim
  · intro q' hq'
    obtain rfl := Option.some.inj hq'
    refine ⟨hruns, fun d hd hcur' hown => hd ?_⟩
    have hd' := (hi.here d).own
    rw [running_sched.mpr ⟨hcur', rfl⟩, hown] at hd'
    exact heldOn_unique (hd' ▸ Finset.mem_singleton_self _) hmine
  · rw [running_proc.mpr setCur_self, update_of_ne (by simp), hview]
    refine hh.place rfl rfl fun _ _ h => ?_
    rcases hwait with ⟨r, rfl⟩ | rfl <;> exact h.elim
  · intro q' hq'
    obtain rfl := Option.some.inj hq'
    rw [hview]
    exact hpq.waiting hwait hst rfl

lemma rule_resumed_parked {r : Bool} :
    ok (world m n K) (.proc p) resumed (view 0 {plock p} (.parked r))
      fun _ g' => g' = view 0 {plock p} (.back r) := by
  refine rule_own (fun _ _ => rfl) trivial fun s c hh hp hk ht => ?_
  have hruns : Runs s p := ⟨c, running_proc.mp ht⟩
  exact ⟨Local.refl _ _ _, view 0 {plock p} (.back r), hh.place rfl rfl fun _ _ h => h.elim,
    ⟨hruns, Finset.mem_singleton_self _, hp.2.1, hp.2.2 hruns⟩, hk, rfl⟩

lemma rule_resumed_fresh :
    ok (world m n K) (.proc p) resumed (view 0 {plock p} .fresh)
      fun _ g' => g' = view 0 {plock p} .run := by
  refine rule_own (fun _ _ => rfl) trivial fun s c hh hp hk ht => ?_
  have hruns : Runs s p := ⟨c, running_proc.mp ht⟩
  refine ⟨Local.refl _ _ _, view 0 {plock p} .run, hh.place rfl rfl fun _ _ _ _ b hb => ?_,
    ⟨hruns, hp.2.2 hruns⟩, hk, rfl⟩
  exact (Option.some_ne_none b (hb.symm.trans hp.2.1)).elim

lemma rule_resumed_away {d : Fin m} :
    ok (world m n K) (.sched d) resumed (view 0 {plock q} (.away q))
      fun _ g' => g' = view 0 {plock q} (.away q) := by
  refine rule_own (fun _ _ => rfl) trivial fun s c hh hp hk ht => ?_
  exact ⟨Local.refl _ _ _, _, hh, hp, hk, rfl⟩

end Xv6.Intr
