import Xv6.SchedModel

/-!
Where a process can be, on any number of CPUs: who holds its lock, what its state is then, and on
which CPU it is. The lock passes from the scheduler to the thread and back at `swtch`, and the
invariant says of each place in the code which of the two has it.
-/

namespace Xv6.SchedCpus

open ProcModel hiding Act step
open SchedModel
open Function (update update_self update_of_ne update_apply)

variable {m n : ℕ} {s t : St m n} {c : Fin m} {p q : Fin n}

/-- Whether a thread that is not on its way off the CPU has its process's lock. -/
@[grind =] def isInner : Pc n → Bool
  | .sleep1 _ => true
  | .sleep2 _ => true
  | .leaving => true
  | _ => false

/-- Whether a thread that is executing has its process's lock. -/
@[grind] def critical (x : Pc n) (w : Sw) : Prop :=
  w = .yield ∨ w = .sched ∨ w = .resumed ∨ w = .on ∧ isInner x = true

@[grind =] def locks : SPc n → Option (Fin n)
  | .locked p => some p
  | .picked p => some p
  | .back p => some p
  | .done p => some p
  | _ => none

@[grind =] def procOf : SPc n → Option (Fin n)
  | .away p => some p
  | .back p => some p
  | _ => none

@[grind =] def child : Pc n → Option (Fin n)
  | .adopt np => some np
  | .start np => some np
  | _ => none

/-- The channel a thread in `sched` or beyond sleeps on. -/
@[grind =] def onChan : Pc n → Option (Chan n)
  | .asleep z => some z.chan
  | _ => none

/-- The invariant of the scheduler. A thread is executing exactly if one CPU has switched to it; a
lock is held where the code of a scheduler or of a thread says so; the state of a process follows
from where its thread is, and a slot that is being filled by `kfork` belongs to one process. -/
structure Inv (s : St m n) : Prop where
  cpu : ∀ c, s.cpu c = procOf (s.spc c)
  own : ∀ p c, s.plock p = some c ↔
    locks (s.spc c) = some p ∨ s.spc c = .away p ∧ critical (s.pc p) (s.sw p)
  on : ∀ c p, s.spc c = .away p → s.sw p ≠ .parked
  alone : ∀ p c c', s.spc c = .away p → s.spc c' = .away p → c = c'
  pick : ∀ c p, s.spc c = .picked p → (s.tbl.procs p).state = .RUNNING ∧ s.sw p = .parked
  live : ∀ p, s.sw p = .on ∨ s.sw p = .yield ∨ s.sw p = .resumed →
    (s.tbl.procs p).state = if s.sw p = .on ∧ s.pc p = .leaving then .ZOMBIE else .RUNNING
  sched : ∀ p, s.sw p = .sched → (s.tbl.procs p).state ≠ .RUNNING
  asleep : ∀ p, (s.tbl.procs p).state = .SLEEPING →
    onChan (s.pc p) = (s.tbl.procs p).chan ∧ onChan (s.pc p) ≠ none
  free : ∀ p, (s.tbl.procs p).state = .UNUSED ∨ (s.tbl.procs p).state = .USED → s.sw p = .parked
  still : ∀ p, s.sw p ≠ .on → isInner (s.pc p) = false
  fork : ∀ p np, child (s.pc p) = some np → (s.tbl.procs np).state = .USED
  forks : ∀ p q np, child (s.pc p) = some np → child (s.pc q) = some np → p = q
  back : ∀ c p, s.spc c = .back p →
    (s.tbl.procs p).state ≠ .UNUSED ∧ (s.tbl.procs p).state ≠ .USED
  off : ∀ p, s.sw p ≠ .parked → ∃ c, s.spc c = .away p
  picked : ∀ p, s.sw p = .parked → (s.tbl.procs p).state = .RUNNING → ∃ c, s.spc c = .picked p

lemma not_critical {x : Pc n} {w : Sw} (h : ¬ critical x w) :
    w = .parked ∨ w = .on ∧ isInner x = false := by
  cases w <;> simp_all [critical]

section

variable (h : Inv s)
include h

lemma Inv.holder (c' : Fin m) (hl : locks (s.spc c) = some p)
    (hl' : locks (s.spc c') = some p) : c' = c := by
  have h1 := (h.own p c).mpr (Or.inl hl)
  have h2 := (h.own p c').mpr (Or.inl hl')
  rw [h1] at h2
  exact (Option.some.inj h2).symm

/-- A lock has one holder: a thread has left its lock to the scheduler that holds it. -/
lemma Inv.outside (hl : locks (s.spc c) = some p) : ¬ critical (s.pc p) (s.sw p) := by
  intro hcr
  have hsw : s.sw p ≠ .parked := by
    intro he
    simp [critical, he] at hcr
  obtain ⟨c', hc'⟩ := h.off p hsw
  have h1 := (h.own p c).mpr (Or.inl hl)
  have h2 := (h.own p c').mpr (Or.inr ⟨hc', hcr⟩)
  rw [h1] at h2
  cases h2
  rw [hc'] at hl
  cases hl

lemma Inv.parked (hl : s.plock p = none) (hst : (s.tbl.procs p).state ≠ .RUNNING) :
    s.sw p = .parked := by
  by_contra hsw
  obtain ⟨c, hc⟩ := h.off p hsw
  have hcr : ¬ critical (s.pc p) (s.sw p) := by
    intro hcr
    have := (h.own p c).mpr (Or.inr ⟨hc, hcr⟩)
    rw [hl] at this
    cases this
  have hlive := h.live p
  have := not_critical hcr
  grind [update_apply]

lemma Inv.unpicked (hst : (s.tbl.procs p).state ≠ .RUNNING) (c : Fin m) :
    s.spc c ≠ .picked p := fun hc => hst (h.pick c p hc).1

lemma Inv.congr (h1 : t.cpu = s.cpu) (h2 : t.plock = s.plock) (h3 : t.spc = s.spc)
    (h4 : t.pc = s.pc) (h5 : t.sw = s.sw)
    (h6 : ∀ p, (t.tbl.procs p).state = (s.tbl.procs p).state)
    (h7 : ∀ p, (t.tbl.procs p).chan = (s.tbl.procs p).chan) : Inv t := by
  obtain ⟨k1, k2, k3, k4, k5, k6, k7, k8, k9, k10, k11, k12, k13, k14, k15⟩ := h
  constructor <;> simp only [h1, h2, h3, h4, h5, h6, h7] <;> assumption

lemma Inv.setSame {y : Proc n} (hst : y.state = (s.tbl.procs p).state)
    (hch : y.chan = (s.tbl.procs p).chan) : Inv (s.setProc p y) := by
  refine h.congr rfl rfl rfl rfl rfl (fun q => ?_) fun q => ?_
  all_goals
    by_cases e : q = p
    · subst e
      simp [St.setProc, hst, hch]
    · simp [St.setProc, Table.set, e]

lemma Inv.goto (hsw : s.sw p = .on) {x y : Pc n} (hpc : s.pc p = y)
    (hy : isInner y = false) (hx : isInner x = false) (hch : child x = none ∨ child x = child y) :
    Inv (s.goto p x) := by
  have hst : (s.tbl.procs p).state = .RUNNING := by
    have := h.live p
    grind [update_apply]
  cases h
  simp only [St.goto]
  constructor <;> simp only [] <;> try assumption
  all_goals grind [update_apply]

lemma Inv.setRest (hl : s.plock p = none) (hst : (s.tbl.procs p).state ≠ .RUNNING)
    (hch : ∀ q, child (s.pc q) ≠ some p) {y : Proc n} (hy : y.state ≠ .RUNNING)
    (hy' : y.state ≠ .SLEEPING) : Inv (s.setProc p y) := by
  have hp := h.parked hl hst
  have hu := h.unpicked hst
  have hb : ∀ c, s.spc c ≠ .back p := by
    intro c hc
    have := (h.own p c).mpr (Or.inl (by rw [hc]; rfl))
    rw [hl] at this
    cases this
  cases h
  simp only [St.setProc, Table.set]
  constructor <;> simp only [] <;> try assumption
  all_goals grind [update_apply]

lemma Inv.claim (hsw : s.sw p = .on) {x : Pc n} (hpc : s.pc p = x)
    (hx : isInner x = false) (hl : s.plock q = none)
    (hst : (s.tbl.procs q).state = .UNUSED) {y : Proc n} (hy : y.state = .USED) :
    Inv (((s.setProc q y).goto q .run).goto p (.adopt q)) := by
  have hp := h.parked hl (by rw [hst]; decide)
  have hu := h.unpicked (p := q) (by rw [hst]; decide)
  obtain ⟨h1, h2, h3, h4, h5, h6, h7, h8, h9, h10, h11, h12, h15, h13, h14⟩ := h
  have hpq : p ≠ q := by grind [update_apply]
  simp only [St.setProc, Table.set, St.goto]
  constructor <;> simp only [] <;> try assumption
  all_goals grind [update_apply]

end

/-! ### The scheduler -/

lemma exists_update {x y : SPc n} (h : ∃ c', s.spc c' = y) (hne : s.spc c ≠ y) :
    ∃ c', update s.spc c x c' = y := by
  obtain ⟨c', hc'⟩ := h
  refine ⟨c', ?_⟩
  rw [update_of_ne, hc']
  rintro rfl
  exact hne hc'

section

variable (h : Inv s)
include h

lemma Inv.scan {x : SPc n} {f : Fin m → Option (Fin n)} {g : Fin n → Option (Fin m)}
    (hc : ∀ p, s.spc c ≠ .away p ∧ s.spc c ≠ .picked p)
    (hx : ∀ p, x ≠ .away p ∧ x ≠ .picked p ∧ x ≠ .back p)
    (hf : ∀ c', f c' = if c' = c then procOf x else s.cpu c')
    (hg : ∀ p c', g p = some c' ↔ if c' = c then locks x = some p else s.plock p = some c') :
    Inv { s with cpu := f, plock := g, spc := update s.spc c x } := by
  constructor <;> simp only []
  case off => exact fun p hp => exists_update (h.off p hp) (hc p).1
  case picked => exact fun p hp hr => exists_update (h.picked p hp hr) (hc p).2
  all_goals cases h
  all_goals grind [update_apply]

lemma Inv.again {i : ℕ} (hc : s.spc c = .look i) : Inv (s.setSpc c (.look 0)) :=
  h.scan (by simp [hc]) (by simp) (by grind [h.cpu c]) (by grind [h.own])

lemma Inv.look {i : ℕ} (hc : s.spc c = .look i) (hl : s.plock p = none) :
    Inv ((s.setPlock p (some c)).setSpc c (.locked p)) := by
  refine h.scan (by simp [hc]) (by simp) (by grind [h.cpu c, St.setPlock]) fun q c' => ?_
  have := h.own q c'
  simp only [St.setPlock]
  grind [update_apply]

lemma Inv.pickUp (hc : s.spc c = .locked p)
    (hst : (s.tbl.procs p).state = .RUNNABLE) :
    Inv ((s.setState p .RUNNING).setSpc c (.picked p)) := by
  have hcr := not_critical (h.outside (c := c) (p := p) (by rw [hc]; rfl))
  have hone := fun c' => h.holder (c := c) (p := p) c' (by rw [hc]; rfl)
  simp only [St.setSpc, St.setState, St.setProc, Table.set]
  constructor <;> simp only []
  case off => exact fun p hp => exists_update (h.off p hp) (by simp [hc])
  case picked =>
    intro q hq hr
    by_cases e : q = p
    · exact ⟨c, by rw [e, update_self]⟩
    · rw [update_of_ne e] at hr
      exact exists_update (h.picked q hq hr) (by simp [hc])
  all_goals cases h
  all_goals grind [update_apply]

lemma Inv.skip (hc : s.spc c = .locked p) : Inv (s.setSpc c (.done p)) :=
  h.scan (by simp [hc]) (by simp) (by grind [h.cpu c]) (by grind [h.own])

lemma Inv.swtchTo (hc : s.spc c = .picked p) :
    Inv (((s.setCpu c (some p)).setSw p .resumed).setSpc c (.away p)) := by
  have hone := fun c' => h.holder (c := c) (p := p) c' (by rw [hc]; rfl)
  simp only [St.setSpc, St.setCpu, St.setSw]
  constructor <;> simp only []
  case off =>
    intro q hq
    by_cases e : q = p
    · exact ⟨c, by rw [e, update_self]⟩
    · rw [update_of_ne e] at hq
      exact exists_update (h.off q hq) (by simp [hc])
  case picked =>
    intro q hq hr
    have e : q ≠ p := by
      rintro rfl
      simp at hq
    rw [update_of_ne e] at hq
    exact exists_update (h.picked q hq hr) (by simp [hc, e.symm])
  all_goals cases h
  all_goals grind [update_apply]

lemma Inv.leave (hc : s.spc c = .back p) :
    Inv ((s.setCpu c none).setSpc c (.done p)) :=
  h.scan (by simp [hc]) (by simp) (fun c' => update_apply ..)
    (by simp only [St.setCpu]; grind [h.own])

lemma Inv.unlock (hc : s.spc c = .done p) {i : ℕ} :
    Inv ((s.setPlock p none).setSpc c (.look i)) := by
  refine h.scan (by simp [hc]) (by simp) (by grind [h.cpu c, St.setPlock]) fun q c' => ?_
  have := h.own q c'
  have := h.own p c
  simp only [St.setPlock]
  grind [update_apply]

lemma Inv.scheduler (hs : s.scheduler c = some t) : Inv t := by
  unfold St.scheduler at hs
  split at hs
  · rename_i i hc
    split at hs
    · cases hs
      exact h.again hc
    · split_ifs at hs with hl
      cases hs
      exact h.look hc hl
  · rename_i p hc
    split_ifs at hs with hst
    · cases hs
      exact h.pickUp hc hst
    · cases hs
      exact h.skip hc
  · rename_i p hc
    cases hs
    exact h.swtchTo hc
  · cases hs
  · rename_i p hc
    cases hs
    exact h.leave hc
  · rename_i p hc
    cases hs
    exact h.unlock hc

/-- A process whose lock is free runs exactly if it is on a CPU. -/
lemma Inv.running_iff (hl : s.plock p = none) :
    (s.tbl.procs p).state = .RUNNING ↔ ∃! c, s.cpu c = some p := by
  have haway : ∀ c, s.cpu c = some p → s.spc c = .away p := by
    intro c hc
    rw [h.cpu] at hc
    have hown := (h.own p c).mpr
    cases hsp : s.spc c <;> simp_all [procOf, locks]
  constructor
  · intro hst
    have hsw : s.sw p ≠ .parked := by
      intro hsw
      obtain ⟨c, hc⟩ := h.picked p hsw hst
      have := (h.own p c).mpr (Or.inl (by rw [hc]; rfl))
      rw [hl] at this
      cases this
    obtain ⟨c, hc⟩ := h.off p hsw
    refine ⟨c, ?_, fun c' hc' => h.alone p c' c (haway c' hc') hc⟩
    dsimp only
    rw [h.cpu, hc]
    rfl
  · rintro ⟨c, hc, -⟩
    by_contra hst
    exact h.on c p (haway c hc) (h.parked hl hst)

lemma Inv.unused_off (hst : (s.tbl.procs p).state = .UNUSED) (c : Fin m) :
    s.cpu c ≠ some p := by
  intro hc
  have hsw := h.free p (Or.inl hst)
  rw [h.cpu] at hc
  cases hsp : s.spc c with
  | away q =>
    rw [hsp] at hc
    cases hc
    exact h.on c _ hsp hsw
  | back q =>
    rw [hsp] at hc
    cases hc
    exact (h.back c _ hsp).1 hst
  | look _ | locked _ | picked _ | done _ => rw [hsp] at hc; cases hc

/-! ### A thread and its own lock -/

/-- A thread takes its process's lock: in `yield`, in `sleep`, or to become a zombie. -/
lemma Inv.timer (hc : s.spc c = .away p) (hsw : s.sw p = .on) (hl : s.plock p = none) :
    Inv ((s.setPlock p (some c)).setSw p .yield) := by
  have hi : isInner (s.pc p) = false := by
    have := h.own p c
    grind [update_apply]
  cases h
  simp only [St.setPlock, St.setSw]
  constructor <;> simp only [] <;> try assumption
  all_goals grind [update_apply]

lemma Inv.sleep0 (hc : s.spc c = .away p) (hsw : s.sw p = .on) {z : Sleep n}
    (hpc : s.pc p = .sleep0 z) (hl : s.plock p = none) :
    Inv ((s.setPlock p (some c)).goto p (.sleep1 z)) := by
  cases h
  simp only [St.setPlock, St.goto]
  constructor <;> simp only [] <;> try assumption
  all_goals grind [update_apply]

lemma Inv.sleep1 (hsw : s.sw p = .on) {z : Sleep n} (hpc : s.pc p = .sleep1 z) :
    Inv (s.goto p (.sleep2 z)) := by
  cases h
  simp only [St.goto]
  constructor <;> simp only [] <;> try assumption
  all_goals grind [update_apply]

lemma Inv.sleep2 (hsw : s.sw p = .on) {z : Sleep n} (hpc : s.pc p = .sleep2 z) :
    Inv (((s.setProc p { s.proc p with chan := some z.chan, state := .SLEEPING }).goto
      p (.asleep z)).setSw p .sched) := by
  cases h
  simp only [St.setProc, Table.set, St.goto, St.setSw]
  constructor <;> simp only [] <;> try assumption
  all_goals grind [update_apply]

lemma Inv.zombie (hc : s.spc c = .away p) (hsw : s.sw p = .on) {status : ℤ}
    (hl : s.plock p = none) : Inv (((s.setPlock p (some c)).setProc p
      { s.proc p with xstate := status, state := .ZOMBIE }).goto p .leaving) := by
  cases h
  simp only [St.setPlock, St.setProc, Table.set, St.goto]
  constructor <;> simp only [] <;> try assumption
  all_goals grind [update_apply]

lemma Inv.leaving (hsw : s.sw p = .on) (hpc : s.pc p = .leaving) :
    Inv ((s.goto p .exiting).setSw p .sched) := by
  cases h
  simp only [St.goto, St.setSw]
  constructor <;> simp only [] <;> try assumption
  all_goals grind [update_apply]

lemma Inv.yield (hsw : s.sw p = .yield) :
    Inv ((s.setState p .RUNNABLE).setSw p .sched) := by
  cases h
  simp only [St.setState, St.setProc, Table.set, St.setSw]
  constructor <;> simp only [] <;> try assumption
  all_goals grind [update_apply]

lemma Inv.swtch (hc : s.spc c = .away p) (hsw : s.sw p = .sched) :
    Inv ((s.setSw p .parked).setSpc c (.back p)) := by
  simp only [St.setSw, St.setSpc]
  constructor <;> simp only [] <;> try assumption
  case off =>
    intro q hq
    have e : q ≠ p := by
      rintro rfl
      simp at hq
    rw [update_of_ne e] at hq
    exact exists_update (h.off q hq) (by simp [hc, e.symm])
  case picked =>
    intro q hq hr
    have hq' : s.sw q = .parked := by
      by_cases e : q = p
      · subst e
        exact absurd hr (h.sched q hsw)
      · rwa [update_of_ne e] at hq
    exact exists_update (h.picked q hq' hr) (by simp [hc])
  all_goals cases h
  all_goals grind [update_apply]

lemma Inv.resume (hc : s.spc c = .away p) (hsw : s.sw p = .resumed) {x : Pc n}
    (hx : x = s.pc p ∨ isInner x = false ∧ child x = none) {y : Proc n}
    (hy : y.state = (s.tbl.procs p).state) :
    Inv ((((s.setProc p y).setPlock p none).goto p x).setSw p .on) := by
  have hno : ∀ c', locks (s.spc c') ≠ some p := fun c' hl => h.outside hl (by simp [critical, hsw])
  cases h
  simp only [St.setProc, Table.set, St.setPlock, St.goto, St.setSw]
  constructor <;> simp only [] <;> try assumption
  all_goals grind [update_apply]

/-! ### Every step -/

lemma Inv.wakeup (chan : Option (Chan n)) : Inv (s.wakeup c chan) :=
  h.congr rfl rfl rfl rfl rfl (fun _ => rfl) fun _ => rfl

lemma Inv.rouse (hl : s.plock p = none) (hst : (s.tbl.procs p).state = .SLEEPING)
    {y : Proc n} (hy : y.state = .RUNNABLE) : Inv (s.setProc p y) := by
  refine h.setRest hl (by rw [hst]; decide) (fun q hq => ?_) (by rw [hy]; decide)
    (by rw [hy]; decide)
  rw [h.fork q p hq] at hst
  cases hst

lemma Inv.wakeLook {w : Wake n} (hs : s.wakeLook c w = some t) : Inv t := by
  have hset : ∀ (u : St m n) o, Inv u → Inv (u.setWake c o) := fun u o hu =>
    hu.congr rfl rfl rfl rfl rfl (fun _ => rfl) fun _ => rfl
  unfold St.wakeLook at hs
  split at hs
  · cases hs
    exact hset _ _ h
  · dsimp only at hs
    split_ifs at hs with h1 h2 h3
    all_goals cases hs
    · exact hset _ _ h
    · exact hset _ _ (h.rouse (not_not.mp h2) h3.1 rfl)
    · exact hset _ _ h

lemma Inv.free_childless (hst : (s.tbl.procs p).state ≠ .USED) (q : Fin n) :
    child (s.pc q) ≠ some p := fun hq => hst (h.fork q p hq)

lemma Inv.forkLook (hsw : s.sw p = .on) {i : ℕ} (hpc : s.pc p = .fork i) {ok : Bool}
    (hs : s.forkLook p i ok = some t) : Inv t := by
  unfold St.forkLook at hs
  split at hs
  · cases hs
    exact h.goto hsw hpc rfl rfl (Or.inl rfl)
  · rename_i np _
    split_ifs at hs with h1 h2 h3
    all_goals cases hs
    · exact h.goto hsw hpc rfl rfl (Or.inl rfl)
    · exact (h.claim hsw hpc rfl (not_not.mp h1) (not_not.mp h2) (y := { s.proc np with
        pid := s.tbl.nextpid, state := .USED }) rfl).congr rfl rfl rfl rfl rfl (fun _ => rfl)
          fun _ => rfl
    · have hst : (s.tbl.procs np).state = .UNUSED := not_not.mp h2
      have hgo := (h.setRest (not_not.mp h1) (by rw [hst]; decide) (h.free_childless
        (by rw [hst]; decide)) (y := ((s.tbl.claim np).freeproc np).procs np) (by
          simp [Table.freeproc]) (by simp [Table.freeproc])).goto (p := p) (x := .run) hsw hpc rfl
            rfl (Or.inl rfl)
      refine hgo.congr rfl rfl rfl rfl rfl (fun q => ?_) fun q => ?_
      all_goals
        by_cases e : q = np
        · subst e
          simp [St.goto, St.setProc]
        · simp [St.goto, St.setProc, Table.freeproc, Table.claim, Table.allocpid, Table.set, e]

lemma Inv.killLook (hsw : s.sw p = .on) {pid : ℤ} {i : ℕ} (hpc : s.pc p = .kill pid i)
    (hs : s.killLook p pid i = some t) : Inv t := by
  unfold St.killLook at hs
  split at hs
  · cases hs
    exact h.goto hsw hpc rfl rfl (Or.inl rfl)
  · rename_i j _
    split_ifs at hs with h1 h2
    all_goals cases hs
    · by_cases hst : (s.tbl.procs j).state = .SLEEPING
      · refine (h.rouse (not_not.mp h1) hst ?_).goto (p := p) (x := .run) hsw hpc rfl rfl
          (Or.inl rfl)
        simp [WaitModel.St.killed, hst]
      · refine (h.setSame ?_ ?_).goto (p := p) (x := .run) hsw hpc rfl rfl (Or.inl rfl)
        all_goals simp [WaitModel.St.killed, hst]
    · exact h.goto hsw hpc rfl rfl (Or.inl rfl)

lemma Inv.held (l : List Lock) : Inv (s.setHeld c l) :=
  h.congr rfl rfl rfl rfl rfl (fun _ => rfl) fun _ => rfl

lemma Inv.sleep (hsw : s.sw p = .on) {x : Pc n} (hpc : s.pc p = x)
    (hx : isInner x = false) (z : Sleep n) : Inv (s.sleep p z) :=
  (h.goto hsw hpc hx (x := .sleep0 z) rfl (Or.inl rfl)).congr rfl rfl rfl rfl rfl (fun _ => rfl)
    fun _ => rfl

lemma Inv.waitLook (hsw : s.sw p = .on) {j : ℕ} {havekids ok : Bool}
    (hpc : s.pc p = .scan j havekids) (hs : s.waitLook c p j havekids ok = some t) : Inv t := by
  have hrun : Inv ((s.setHeld c ((s.held c).erase .wait)).goto p .run) :=
    (h.held _).goto hsw hpc rfl rfl (Or.inl rfl)
  unfold St.waitLook at hs
  dsimp only at hs
  split at hs
  · rename_i pp _
    split_ifs at hs with h1 h2 h3 h4
    all_goals cases hs
    · exact h.goto hsw hpc rfl rfl (Or.inl rfl)
    · exact h.goto hsw hpc rfl rfl (Or.inl rfl)
    · have hst : (s.tbl.procs pp).state = .ZOMBIE := not_not.mp h3
      have hgo := (h.setRest (not_not.mp h2) (by rw [hst]; decide) (h.free_childless
        (by rw [hst]; decide)) (y := (s.tbl.freeproc pp).procs pp) (by simp [Table.freeproc])
          (by simp [Table.freeproc])).goto (p := p) (x := .run) hsw hpc rfl rfl (Or.inl rfl)
      refine hgo.congr rfl rfl rfl rfl rfl (fun q => ?_) fun q => ?_
      all_goals
        by_cases e : q = pp
        · subst e
          simp [St.goto, St.setProc]
        · simp [St.goto, St.setProc, Table.freeproc, Table.set, e]
    · exact hrun
  · split_ifs at hs with h1 h2 h3
    all_goals cases hs
    · exact hrun
    · exact hrun
    · exact h.sleep hsw hpc rfl _

lemma Inv.reparentLook (hsw : s.sw p = .on) {status : ℤ} {i : ℕ}
    (hpc : s.pc p = .reparent status i) : Inv (s.reparentLook c p status i) := by
  unfold St.reparentLook
  split
  · rename_i pp _
    split_ifs
    · exact ((h.setSame (y := { s.proc pp with parent := some s.tbl.initproc }) rfl
        rfl).wakeup _).goto (p := p) (x := .reparent status (i + 1)) hsw hpc rfl rfl (Or.inl rfl)
    · exact h.goto hsw hpc rfl rfl (Or.inl rfl)
  · exact (h.wakeup _).goto (p := p) (x := .zombie status) hsw hpc rfl rfl (Or.inl rfl)

lemma Inv.threadOn (hc : s.spc c = .away p) (hsw : s.sw p = .on) {ok : Bool}
    (hs : s.threadOn c p ok = some t) : Inv t := by
  unfold St.threadOn at hs
  split at hs
  case h_1 => cases hs
  case h_2 i hpc => exact h.forkLook hsw hpc hs
  case h_3 np hpc =>
    split_ifs at hs
    cases hs
    exact (h.setSame (y := { s.proc np with parent := some p }) rfl rfl).goto (p := p)
      (x := .start np) hsw hpc rfl rfl (Or.inr rfl)
  case h_4 np hpc =>
    split_ifs at hs with hl
    cases hs
    have hst := h.fork p np (by rw [hpc]; rfl)
    have hgo := h.goto hsw hpc rfl (x := .run) rfl (Or.inl rfl)
    refine hgo.setRest (p := np) (y := { s.proc np with state := .RUNNABLE }) hl
      (by simp [St.goto, hst]) (fun q hq => ?_) (by simp) (by simp)
    by_cases e : q = p
    · subst e
      simp [St.goto, child] at hq
    · simp only [St.goto, update_of_ne e] at hq
      exact e (h.forks q p np hq (by rw [hpc]; rfl))
  case h_5 pid i hpc => exact h.killLook hsw hpc hs
  case h_6 z hpc =>
    split_ifs at hs with hl
    cases hs
    exact h.sleep0 hc hsw hpc hl
  case h_7 z hpc =>
    cases hs
    exact (h.held _).sleep1 (p := p) (z := z) hsw hpc
  case h_8 z hpc =>
    cases hs
    exact h.sleep2 hsw hpc
  case h_9 => cases hs
  case h_10 z hpc =>
    split_ifs at hs
    all_goals
      cases hs
      refine (h.held _).goto (p := p) hsw hpc rfl ?_
        (Or.inl ?_)
      all_goals simp_all [isInner, child]
  case h_11 hpc =>
    split_ifs at hs
    cases hs
    exact (h.held _).goto (p := p) hsw hpc rfl rfl
      (Or.inl rfl)
  case h_12 j havekids hpc => exact h.waitLook hsw hpc hs
  case h_13 status hpc =>
    split_ifs at hs
    cases hs
    exact (h.held _).goto (p := p) hsw hpc rfl rfl
      (Or.inl rfl)
  case h_14 status i hpc =>
    cases hs
    exact h.reparentLook hsw hpc
  case h_15 status hpc =>
    split_ifs at hs with hl
    cases hs
    exact h.zombie hc hsw hl
  case h_16 hpc =>
    cases hs
    exact (h.held _).leaving (p := p) hsw hpc
  case h_17 => cases hs

lemma Inv.thread (hc : s.spc c = .away p) {ok : Bool}
    (hs : s.thread c p ok = some t) : Inv t := by
  unfold St.thread at hs
  split at hs
  case h_1 hsw => exact h.threadOn hc hsw hs
  case h_2 hsw =>
    cases hs
    exact h.yield hsw
  case h_3 hsw =>
    split_ifs at hs
    cases hs
    exact h.swtch hc hsw
  case h_4 => cases hs
  case h_5 hsw =>
    split at hs
    · rename_i z hpc
      cases hs
      exact h.resume hc hsw (Or.inr ⟨rfl, rfl⟩) rfl
    · cases hs
    · cases hs
      refine (h.resume hc hsw (Or.inl rfl) rfl).congr (s := (((s.setProc p (s.proc p)).setPlock p
        none).goto p (s.pc p)).setSw p .on) rfl rfl rfl ?_ rfl (fun q => ?_) fun q => ?_
      · simp [St.setSw, St.setPlock, St.goto, St.setProc]
      all_goals simp [St.setSw, St.setPlock, St.goto, St.setProc, Table.set]

lemma Inv.call (hsw : s.sw p = .on) (hpc : s.pc p = .run) {x : Call n}
    (hs : s.call c p x = some t) : Inv t := by
  cases x <;> simp only [St.call, Option.ite_none_right_eq_some, Option.some.injEq] at hs
  case acquire k =>
    obtain ⟨-, rfl⟩ := hs
    exact h.held _
  case release k =>
    obtain ⟨-, rfl⟩ := hs
    exact h.held _
  case sleep chan lk =>
    obtain ⟨-, rfl⟩ := hs
    exact h.sleep hsw hpc rfl _
  case wakeup chan =>
    subst hs
    exact h.wakeup _
  case kill pid =>
    obtain ⟨-, rfl⟩ := hs
    exact h.goto hsw hpc rfl rfl (Or.inl rfl)
  case fork =>
    obtain ⟨-, rfl⟩ := hs
    exact h.goto hsw hpc rfl rfl (Or.inl rfl)
  case exit status =>
    obtain ⟨-, rfl⟩ := hs
    exact h.goto hsw hpc rfl rfl (Or.inl rfl)
  case wait =>
    obtain ⟨-, rfl⟩ := hs
    exact h.goto hsw hpc rfl rfl (Or.inl rfl)

lemma Inv.step {a : Act m n} (hs : step s a = some t) : Inv t := by
  cases a with
  | wake c =>
    simp only [SchedModel.step] at hs
    split at hs
    · exact h.wakeLook hs
    · cases hs
  | scheduler c =>
    simp only [SchedModel.step, Option.ite_none_left_eq_some] at hs
    exact h.scheduler hs.2
  | thread c ok =>
    simp only [SchedModel.step, Option.ite_none_left_eq_some] at hs
    obtain ⟨-, hs⟩ := hs
    split at hs
    · rename_i p hc
      exact h.thread hc hs
    · cases hs
  | call c x =>
    simp only [SchedModel.step, Option.ite_none_left_eq_some] at hs
    obtain ⟨-, hs⟩ := hs
    split at hs
    · split_ifs at hs with hp
      exact h.call hp.1 hp.2 hs
    · cases hs
  | timer c =>
    simp only [SchedModel.step, Option.ite_none_left_eq_some] at hs
    obtain ⟨-, hs⟩ := hs
    split at hs
    · rename_i p hc
      split_ifs at hs with hp
      cases hs
      exact h.timer hc hp.1 hp.2
    · cases hs
  | device c chan =>
    simp only [SchedModel.step, Option.ite_none_left_eq_some, Option.some.injEq] at hs
    obtain ⟨-, rfl⟩ := hs
    exact h.wakeup _

end

lemma start_inv (i : Fin n) : Inv (start i : St m n) := by
  have hst : ∀ p, ((start i : St m n).tbl.procs p).state = .RUNNABLE ∨
      ((start i : St m n).tbl.procs p).state = .UNUSED := by
    intro p
    by_cases e : p = i
    · subst e
      simp [start, userinit]
    · simp [start, userinit, e, Proc.zero]
  constructor
  case cpu => exact fun c => rfl
  case own => exact fun p c => by simp [start, locks]
  case on | alone | pick | sched | fork | forks | back => simp [start, child]
  case live => exact fun p hp => by simp [start] at hp
  case asleep => exact fun p hp => by have := hst p; simp [hp] at this
  case free => exact fun p _ => rfl
  case still => exact fun p _ => rfl
  case off => exact fun p hp => absurd rfl hp
  case picked => exact fun p _ hr => by have := hst p; simp [hr] at this

end Xv6.SchedCpus
