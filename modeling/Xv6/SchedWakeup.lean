import Xv6.Runs
import Xv6.SchedCpus

/-!
Wakeups are not lost: what a call of `wakeup` that is going on has done so far, for the sleeps that
had released their condition lock when it was called.
-/

namespace Xv6.SchedWakeup

open ProcModel hiding Act step
open Runs SchedModel SchedCpus
open Function (update update_self update_apply)

variable {m n : ℕ} {s t : St m n} {c : Fin m} {p : Fin n}

@[grind =] def early : Pc n → Bool
  | .sleep0 _ => true
  | .sleep1 _ => true
  | _ => false

@[grind =] def waitsOn : Pc n → Option (Chan n)
  | .sleep2 z => some z.chan
  | .asleep z => some z.chan
  | _ => none

@[grind =] def falling : Pc n → Bool
  | .sleep2 _ => true
  | _ => false

/-- Whether a process is in its sleep, or about to be. -/
def sleeps (s : St m n) (p : Fin n) : Prop :=
  falling (s.pc p) = true ∨ (s.tbl.procs p).state = .SLEEPING

/-- What holds of the calls of `wakeup` that are going on: for a sleep that had released its
condition lock when `wakeup` was called and is still going on, the channel is the one given to
`wakeup`, and once `wakeup` has passed the slot, the process has been woken. -/
structure Wakes (s : St m n) : Prop where
  quiet : ∀ c, s.wake c ≠ none → ∀ p, s.plock p ≠ some c
  since : ∀ c w p k, s.wake c = some w → w.since p = some k → k ≤ s.slept p
  late : ∀ c w p k, s.wake c = some w → w.since p = some k → s.slept p = k →
    early (s.pc p) = false
  chan : ∀ c w p k, s.wake c = some w → w.since p = some k → s.slept p = k →
    waitsOn (s.pc p) ≠ none → waitsOn (s.pc p) = w.chan
  passed : ∀ c w p k, s.wake c = some w → w.since p = some k → s.slept p = k → p.val < w.next →
    falling (s.pc p) = false ∧ (s.tbl.procs p).state ≠ .SLEEPING

/-- What a step can do to the sleep of a process, other than in `wakeup`: a new sleep begins, or it
goes on from where it is. -/
@[grind] def Onward (s t : St m n) (p : Fin n) : Prop :=
  t.slept p = s.slept p + 1 ∨ t.slept p = s.slept p ∧
    (early (s.pc p) = true ∨ early (t.pc p) = false ∧
      (waitsOn (t.pc p) = none ∨ waitsOn (t.pc p) = waitsOn (s.pc p)) ∧
      (falling (t.pc p) = true → falling (s.pc p) = true) ∧
      ((t.tbl.procs p).state = .SLEEPING →
        falling (s.pc p) = true ∨ (s.tbl.procs p).state = .SLEEPING))

lemma Wakes.onward (h : Wakes s) (hw : t.wake = s.wake)
    (hl : ∀ p c, t.plock p = some c → s.plock p = some c ∨ s.wake c = none)
    (ho : ∀ p, Onward s t p) : Wakes t := by
  obtain ⟨h1, h2, h3, h4, h5⟩ := h
  constructor
  · intro c hc p hp
    rw [hw] at hc
    exact (hl p c hp).elim (h1 c hc p) hc
  all_goals
    intro c w p k hc hk
    rw [hw] at hc
    have e2 := h2 c w p k hc hk
    have e3 := h3 c w p k hc hk
    have e4 := h4 c w p k hc hk
    have e5 := h5 c w p k hc hk
    have := ho p
    grind [update_apply]

lemma Wakes.wakeup (h : Wakes s) (hq : ∀ p, s.plock p ≠ some c) (chan : Option (Chan n)) :
    Wakes (s.wakeup c chan) := by
  have hrel : ∀ p, s.released p = waitsOn (s.pc p) := fun p => by
    unfold St.released waitsOn
    cases s.pc p <;> rfl
  have hlate : ∀ p, waitsOn (s.pc p) ≠ none → early (s.pc p) = false := fun p => by
    cases s.pc p <;> simp [waitsOn, early]
  obtain ⟨h1, h2, h3, h4, h5⟩ := h
  simp only [St.wakeup, St.setWake, hrel]
  constructor <;> simp only []
  · grind [update_apply]
  · grind [update_apply]
  · grind [update_apply]
  · grind [update_apply]
  · grind [update_apply]

lemma Wakes.wakeLook (h : Wakes s) (hi : Inv s) {w : Wake n} (hw : s.wake c = some w)
    (hs : s.wakeLook c w = some t) : Wakes t := by
  -- with the lock free, a process does not stand between the two locks of its `sleep`
  have hfall : ∀ p, s.plock p = none → falling (s.pc p) = false := by
    intro p hl
    by_contra hf
    have hin : isInner (s.pc p) = true := by
      cases hpc : s.pc p <;> simp_all [falling, isInner]
    have hsw : s.sw p = .on := by
      by_contra hsw
      rw [hi.still p hsw] at hin
      cases hin
    obtain ⟨c', hc'⟩ := hi.off p (by rw [hsw]; decide)
    have := (hi.own p c').mpr (Or.inr ⟨hc', Or.inr (Or.inr (Or.inr ⟨hsw, hin⟩))⟩)
    rw [hl] at this
    cases this
  have hme : ∀ p, s.cpu c = some p → falling (s.pc p) = false ∧
      (s.tbl.procs p).state ≠ .SLEEPING := by
    intro p hp
    have hq := h.quiet c (by rw [hw]; simp) p
    have h1 := hi.cpu c
    have h2 := hi.own p c
    have h3 := hi.live p
    have h4 := hi.on c p
    have h7 : s.spc c = .away p := by
      cases hsp : s.spc c <;> simp_all [procOf, locks]
    have h5 : isInner (s.pc p) = false → falling (s.pc p) = false := by
      cases s.pc p <;> simp [isInner, falling]
    have h6 := fun hcr => not_critical (x := s.pc p) (w := s.sw p) hcr
    grind [update_apply]
  have hch : ∀ p, (s.tbl.procs p).state = .SLEEPING →
      waitsOn (s.pc p) = (s.tbl.procs p).chan ∧ waitsOn (s.pc p) ≠ none := by
    intro p hp
    obtain ⟨h1, h2⟩ := hi.asleep p hp
    cases hpc : s.pc p <;> simp_all [onChan, waitsOn]
  obtain ⟨h1, h2, h3, h4, h5⟩ := h
  unfold St.wakeLook at hs
  split at hs
  · cases hs
    simp only [St.setWake]
    constructor <;> simp only [] <;> grind [update_apply]
  · rename_i q hq
    have hval := WaitModel.slot_some hq
    dsimp only at hs
    split_ifs at hs with k1 k2 k3
    all_goals cases hs
    · have := hme q k1
      simp only [St.setWake]
      constructor <;> simp only [] <;> grind [update_apply]
    · have := hfall q (not_not.mp k2)
      simp only [St.setWake, St.setState, St.setProc, Table.set]
      constructor <;> simp only [] <;> grind [update_apply]
    · have := hfall q (not_not.mp k2)
      have := hch q
      simp only [St.setWake]
      constructor <;> simp only [] <;> grind [update_apply]

lemma onward_refl (p : Fin n) (hpc : t.pc p = s.pc p) (hsl : t.slept p = s.slept p)
    (hst : (t.tbl.procs p).state = .SLEEPING → (s.tbl.procs p).state = .SLEEPING) :
      Onward s t p := by
  grind [update_apply]

lemma onward_goto (q : Fin n) {x : Pc n} (hx : early x = false ∧ waitsOn x = none) :
    Onward s (s.goto p x) q := by
  have : falling x = false := by
    cases x <;> simp_all [waitsOn, falling]
  simp only [Onward, St.goto]
  grind [update_apply]

/-- A step that is not one of `wakeup` or of `reparent`. -/
structure Steady (s t : St m n) (c : Fin m) : Prop where
  wake : t.wake = s.wake
  plock : ∀ p c', t.plock p = some c' → s.plock p = some c' ∨ c' = c
  onward : ∀ p, Onward s t p

lemma Wakes.steady (h : Wakes s) (hst : Steady s t c) (hc : s.wake c = none) : Wakes t := by
  refine h.onward hst.wake (fun p c' hp => ?_) hst.onward
  rcases hst.plock p c' hp with hp | rfl
  · exact Or.inl hp
  · exact Or.inr hc

lemma Steady.rest (hw : t.wake = s.wake) (hl : t.plock = s.plock) (ho : ∀ p, Onward s t p) :
    Steady s t c := ⟨hw, fun _ _ h => Or.inl (hl ▸ h), ho⟩

lemma Steady.lock (hw : t.wake = s.wake) {o : Option (Fin m)}
    (hl : t.plock = update s.plock p o) (hc : o = some c ∨ o = none)
    (ho : ∀ p, Onward s t p) : Steady s t c := by
  refine ⟨hw, fun q c' h => ?_, ho⟩
  rw [hl] at h
  grind [update_apply]

lemma not_holding (hi : Inv s) (ha : s.spc c = .away p) (hcr : ¬ critical (s.pc p) (s.sw p))
    (q : Fin n) : s.plock q ≠ some c := by
  intro hq
  rcases (hi.own q c).mp hq with hl | ⟨hl, h⟩
  · rw [ha] at hl
    cases hl
  · rw [ha] at hl
    cases hl
    exact hcr h

lemma scheduler_steady (hs : s.scheduler c = some t) : Steady s t c := by
  unfold St.scheduler at hs
  split at hs
  · split at hs
    · cases hs
      exact .rest rfl rfl fun p => onward_refl p rfl rfl id
    · split_ifs at hs
      cases hs
      exact .lock rfl rfl (Or.inl rfl) fun p => onward_refl p rfl rfl id
  · split_ifs at hs
    · cases hs
      refine .rest rfl rfl fun p => onward_refl p rfl rfl ?_
      simp only [St.setSpc, St.setState, St.setProc, Table.set]
      grind [update_apply]
    · cases hs
      exact .rest rfl rfl fun p => onward_refl p rfl rfl id
  · cases hs
    exact .rest rfl rfl fun p => onward_refl p rfl rfl id
  · cases hs
  · cases hs
    exact .rest rfl rfl fun p => onward_refl p rfl rfl id
  · cases hs
    exact .lock rfl rfl (Or.inr rfl) fun p => onward_refl p rfl rfl id

lemma forkLook_steady {i : ℕ} {ok : Bool} (hs : s.forkLook p i ok = some t) : Steady s t c := by
  unfold St.forkLook at hs
  split at hs
  · cases hs
    exact .rest rfl rfl fun q => onward_goto q ⟨rfl, rfl⟩
  · split_ifs at hs
    all_goals cases hs
    · exact .rest rfl rfl fun q => onward_goto q ⟨rfl, rfl⟩
    all_goals
      refine .rest rfl rfl fun q => ?_
      simp only [Onward, St.goto, Table.freeproc, Table.claim, Table.allocpid, Table.set]
      grind [update_apply]

lemma killLook_steady {pid : ℤ} {i : ℕ} (hs : s.killLook p pid i = some t) : Steady s t c := by
  unfold St.killLook at hs
  split at hs
  · cases hs
    exact .rest rfl rfl fun q => onward_goto q ⟨rfl, rfl⟩
  · split_ifs at hs
    all_goals cases hs
    · refine .rest rfl rfl fun q => ?_
      simp only [Onward, St.goto, St.setProc, Table.set, WaitModel.St.killed]
      grind [update_apply]
    · exact .rest rfl rfl fun q => onward_goto q ⟨rfl, rfl⟩

lemma sleep_steady {z : Sleep n} : Steady s (s.sleep p z) c := by
  refine .rest rfl rfl fun q => ?_
  by_cases e : q = p
  · subst e
    exact Or.inl (update_self ..)
  · refine onward_refl q ?_ ?_ id
    · simp [St.sleep, St.goto, e]
    · simp [St.sleep, e]

lemma waitLook_steady {j : ℕ} {havekids ok : Bool} (hs : s.waitLook c p j havekids ok = some t) :
    Steady s t c := by
  unfold St.waitLook at hs
  dsimp only at hs
  split at hs
  · split_ifs at hs
    all_goals cases hs
    · exact .rest rfl rfl fun q => onward_goto q ⟨rfl, rfl⟩
    · exact .rest rfl rfl fun q => onward_goto q ⟨rfl, rfl⟩
    · refine .rest rfl rfl fun q => ?_
      simp only [Onward, St.goto, St.setHeld, Table.freeproc, Table.set]
      grind [update_apply]
    · exact .rest rfl rfl fun q => onward_goto q ⟨rfl, rfl⟩
  · split_ifs at hs
    all_goals cases hs
    · exact .rest rfl rfl fun q => onward_goto q ⟨rfl, rfl⟩
    · exact .rest rfl rfl fun q => onward_goto q ⟨rfl, rfl⟩
    · exact sleep_steady

lemma Wakes.reparentLook (h : Wakes s) (hc : s.wake c = none) (hq : ∀ p, s.plock p ≠ some c)
    {status : ℤ} {i : ℕ} : Wakes (s.reparentLook c p status i) := by
  have hgo : ∀ (u : St m n) x, Wakes u → early x = false ∧ waitsOn x = none → Wakes (u.goto p x) :=
    fun u x hu hx => hu.onward rfl (fun _ _ hp => Or.inl hp) fun q => onward_goto q hx
  unfold St.reparentLook
  split
  · split_ifs
    · rename_i pp _ _
      have hset : Wakes (s.setProc pp { s.proc pp with parent := some s.tbl.initproc }) := by
        refine h.steady (.rest rfl rfl fun q => onward_refl q rfl rfl ?_) hc
        simp only [St.setProc, Table.set]
        grind [update_apply]
      exact hgo _ _ (hset.wakeup hq _) ⟨rfl, rfl⟩
    · exact hgo _ _ h ⟨rfl, rfl⟩
  · exact hgo _ _ (h.wakeup hq _) ⟨rfl, rfl⟩

lemma Wakes.threadOn (h : Wakes s) (hi : Inv s) (hc : s.wake c = none) (ha : s.spc c = .away p)
    (hsw : s.sw p = .on) {ok : Bool} (hs : s.threadOn c p ok = some t) : Wakes t := by
  unfold St.threadOn at hs
  split at hs
  case h_1 => cases hs
  case h_2 i hpc => exact h.steady (forkLook_steady hs) hc
  case h_3 np hpc =>
    split_ifs at hs
    cases hs
    refine h.steady (.rest rfl rfl fun q => ?_) hc
    simp only [Onward, St.goto, St.setProc, Table.set]
    grind [update_apply]
  case h_4 np hpc =>
    split_ifs at hs
    cases hs
    refine h.steady (.rest rfl rfl fun q => ?_) hc
    simp only [Onward, St.goto, St.setState, St.setProc, Table.set]
    grind [update_apply]
  case h_5 pid i hpc => exact h.steady (killLook_steady hs) hc
  case h_6 z hpc =>
    split_ifs at hs
    cases hs
    refine h.steady (.lock rfl rfl (Or.inl rfl) fun q => ?_) hc
    simp only [Onward, St.goto, St.setPlock]
    grind [update_apply]
  case h_7 z hpc =>
    cases hs
    refine h.steady (.rest rfl rfl fun q => ?_) hc
    simp only [Onward, St.goto, St.setHeld]
    grind [update_apply]
  case h_8 z hpc =>
    cases hs
    refine h.steady (.rest rfl rfl fun q => ?_) hc
    simp only [Onward, St.goto, St.setProc, Table.set, St.setSw]
    grind [update_apply]
  case h_9 => cases hs
  case h_10 z hpc =>
    split_ifs at hs
    all_goals
      cases hs
      refine h.steady (.rest rfl rfl fun q => onward_goto q ?_) hc
      simp_all [early, waitsOn]
  case h_11 hpc =>
    split_ifs at hs
    cases hs
    exact h.steady (.rest rfl rfl fun q => onward_goto q ⟨rfl, rfl⟩) hc
  case h_12 j havekids hpc => exact h.steady (waitLook_steady hs) hc
  case h_13 status hpc =>
    split_ifs at hs
    cases hs
    exact h.steady (.rest rfl rfl fun q => onward_goto q ⟨rfl, rfl⟩) hc
  case h_14 status i hpc =>
    cases hs
    exact h.reparentLook hc (not_holding hi ha (by simp [critical, hsw, hpc, isInner]))
  case h_15 status hpc =>
    split_ifs at hs
    cases hs
    refine h.steady (.lock rfl rfl (Or.inl rfl) fun q => ?_) hc
    simp only [Onward, St.goto, St.setProc, St.setPlock, Table.set]
    grind [update_apply]
  case h_16 hpc =>
    cases hs
    refine h.steady (.rest rfl rfl fun q => ?_) hc
    simp only [Onward, St.goto, St.setHeld, St.setSw]
    grind [update_apply]
  case h_17 => cases hs

lemma Wakes.thread (h : Wakes s) (hi : Inv s) (hc : s.wake c = none) (ha : s.spc c = .away p)
    {ok : Bool} (hs : s.thread c p ok = some t) : Wakes t := by
  unfold St.thread at hs
  split at hs
  case h_1 hsw => exact h.threadOn hi hc ha hsw hs
  case h_2 hsw =>
    cases hs
    refine h.steady (.rest rfl rfl fun q => onward_refl q rfl rfl ?_) hc
    simp only [St.setState, St.setProc, Table.set, St.setSw]
    grind [update_apply]
  case h_3 hsw =>
    split_ifs at hs
    cases hs
    exact h.steady (.rest rfl rfl fun q => onward_refl q rfl rfl id) hc
  case h_4 => cases hs
  case h_5 hsw =>
    split at hs
    · cases hs
      refine h.steady (.lock rfl rfl (Or.inr rfl) fun q => ?_) hc
      simp only [Onward, St.setProc, St.setPlock, St.goto, St.setSw, Table.set]
      grind [update_apply]
    · cases hs
    · cases hs
      exact h.steady (.lock rfl rfl (Or.inr rfl) fun q => onward_refl q rfl rfl id) hc

lemma Wakes.call (h : Wakes s) (hi : Inv s) (hc : s.wake c = none) (ha : s.spc c = .away p)
    (hsw : s.sw p = .on) (hpc : s.pc p = .run) {x : Call n} (hs : s.call c p x = some t) :
    Wakes t := by
  cases x <;> simp only [St.call, Option.ite_none_right_eq_some, Option.some.injEq] at hs
  case wakeup chan =>
    subst hs
    exact h.wakeup (not_holding hi ha (by simp [critical, hsw, hpc, isInner])) _
  case sleep chan lk =>
    obtain ⟨-, rfl⟩ := hs
    exact h.steady (c := c) sleep_steady hc
  case acquire k =>
    obtain ⟨-, rfl⟩ := hs
    exact h.steady (.rest rfl rfl fun q => onward_refl q rfl rfl id) hc
  case release k =>
    obtain ⟨-, rfl⟩ := hs
    exact h.steady (.rest rfl rfl fun q => onward_refl q rfl rfl id) hc
  all_goals
    obtain ⟨-, rfl⟩ := hs
    exact h.steady (.rest rfl rfl fun q => onward_goto q ⟨rfl, rfl⟩) hc

lemma Wakes.step (h : Wakes s) (hi : Inv s) {a : Act m n} (hs : step s a = some t) : Wakes t := by
  have hnone : ∀ c, ¬ (s.wake c).isSome = true → s.wake c = none := fun c hc =>
    Option.not_isSome_iff_eq_none.mp hc
  cases a with
  | wake c =>
    simp only [SchedModel.step] at hs
    split at hs
    · rename_i w hw
      exact h.wakeLook hi hw hs
    · cases hs
  | scheduler c =>
    simp only [SchedModel.step, Option.ite_none_left_eq_some] at hs
    exact h.steady (scheduler_steady hs.2) (hnone c hs.1)
  | thread c ok =>
    simp only [SchedModel.step, Option.ite_none_left_eq_some] at hs
    obtain ⟨hc, hs⟩ := hs
    split at hs
    · rename_i p ha
      exact h.thread hi (hnone c hc) ha hs
    · cases hs
  | call c x =>
    simp only [SchedModel.step, Option.ite_none_left_eq_some] at hs
    obtain ⟨hc, hs⟩ := hs
    split at hs
    · rename_i p ha
      split_ifs at hs with hp
      exact h.call hi (hnone c hc) ha hp.1 hp.2 hs
    · cases hs
  | timer c =>
    simp only [SchedModel.step, Option.ite_none_left_eq_some] at hs
    obtain ⟨hc, hs⟩ := hs
    split at hs
    · split_ifs at hs
      cases hs
      exact h.steady (.lock rfl rfl (Or.inl rfl) fun q => onward_refl q rfl rfl id)
        (hnone c fun hx => hc (Or.inl hx))
    · cases hs
  | device c chan =>
    simp only [SchedModel.step, Option.ite_none_left_eq_some, Option.some.injEq] at hs
    obtain ⟨hc, rfl⟩ := hs
    rw [not_or, not_not] at hc
    exact h.wakeup hc.2.2 _

lemma reach_inv {i : Fin n} (h : Reach step Always (· = start i) s) : Inv s ∧ Wakes s := by
  refine h.invariant (I := fun s => Inv s ∧ Wakes s) ?_ ?_
  · rintro s rfl
    refine ⟨start_inv i, ?_, ?_, ?_, ?_, ?_⟩
    · exact fun c hc => absurd rfl hc
    all_goals
      intro c w p k hc
      cases hc
  · intro s a t hi _ hs
    exact ⟨hi.1.step hs, hi.2.step hi.1 hs⟩

lemma Wakes.round (h : Wakes s) (hi : Inv s) {w : Wake n} {k : ℕ} (hw : s.wake c = some w)
    (hk : w.since p = some k) (hsl : s.slept p = k) (hnext : WaitModel.slot n w.next = some p)
    (hp : (s.tbl.procs p).state = .SLEEPING) (hs : s.wakeLook c w = some t) :
    (t.tbl.procs p).state = .RUNNABLE := by
  obtain ⟨h1, h2⟩ := hi.asleep p hp
  have hon : waitsOn (s.pc p) = onChan (s.pc p) := by
    cases hpc : s.pc p <;> simp_all [onChan, waitsOn]
  have hch := h.chan c w p k hw hk hsl (by rwa [hon])
  have hcpu : s.cpu c ≠ some p := by
    intro hc
    have hlive := hi.live p
    have hq := h.quiet c (by rw [hw]; simp) p
    have hown := hi.own p c
    have hon := hi.on c p
    have hcpu := hi.cpu c
    have haway : s.spc c = .away p := by
      cases hsp : s.spc c <;> simp_all [procOf, locks]
    have hcr := fun hcr => not_critical (x := s.pc p) (w := s.sw p) hcr
    grind [update_apply]
  unfold St.wakeLook at hs
  rw [hnext] at hs
  dsimp only at hs
  rw [if_neg hcpu] at hs
  split_ifs at hs with k1 k2
  · cases hs
    simp [St.setWake, St.setState, St.setProc]
  · exact absurd ⟨hp, by rw [← h1, ← hon, hch]⟩ k2

/-- **A process runs on at most one CPU.** In every reachable state of any number of CPUs and
processes: a process whose lock is free is `RUNNING` exactly if one CPU, and one only, has it as its
`c->proc`; if it is `SLEEPING`, it is inside a call of `sleep` on the channel in `p->chan`; a call
of `wakeup` that has passed its slot has woken it, if its sleep on that channel had released its
condition lock when `wakeup` was called, and it is the round of the loop for that slot that makes it
`RUNNABLE` if it sleeps until then; and a process that has been freed is on no CPU. -/
theorem one_cpu {i : Fin n} (h : Reach step Always (· = start i) s) :
    (∀ p, s.plock p = none → ((s.proc p).state = .RUNNING ↔ ∃! c, s.cpu c = some p)) ∧
    (∀ p, s.plock p = none → (s.proc p).state = .SLEEPING →
      ∃ z, s.pc p = .asleep z ∧ (s.proc p).chan = some z.chan) ∧
    (∀ c w p k, s.wake c = some w → w.since p = some k → s.slept p = k → p.val < w.next →
      ¬ sleeps s p) ∧
    (∀ c w p k t, s.wake c = some w → w.since p = some k → s.slept p = k →
      WaitModel.slot n w.next = some p → (s.proc p).state = .SLEEPING →
      step s (.wake c) = some t → (t.proc p).state = .RUNNABLE) ∧
    (∀ p, (s.proc p).state = .UNUSED → ∀ c, s.cpu c ≠ some p) := by
  obtain ⟨hi, hw⟩ := reach_inv h
  refine ⟨fun p hl => hi.running_iff hl, fun p _ hp => ?_, fun c w p k hc hk hs hn hsl => ?_,
    fun c w p k t hc hk hsl hn hp hs => ?_, fun p hp c => hi.unused_off hp c⟩
  · obtain ⟨h1, h2⟩ := hi.asleep p hp
    cases hpc : s.pc p with
    | asleep z =>
      rw [hpc] at h1
      exact ⟨z, rfl, h1.symm⟩
    | _ => simp [hpc, onChan] at h2
  · obtain ⟨h1, h2⟩ := hw.passed c w p k hc hk hs hn
    rcases hsl with hsl | hsl
    · rw [h1] at hsl
      cases hsl
    · exact h2 hsl
  · simp only [SchedModel.step, hc] at hs
    exact hw.round hi hc hk hsl hn hp hs

/-- The first process sleeps, and a device interrupt on the other CPU wakes it. -/
def sleepWake (c d : Fin m) : List (Act m n) :=
  [.scheduler c, .scheduler c, .scheduler c, .thread c true, .call c (.acquire (.other 0)),
    .call c (.sleep (.other 5) (.other 0)), .thread c true, .thread c true, .thread c true,
    .thread c true, .scheduler c, .scheduler c, .device d (.other 5)]

theorem one_cpu_sleepWake : ∃ s t : St 2 2, run step (start 0) (sleepWake 0 1) = some s ∧
    (s.proc 0).state = .SLEEPING ∧ step s (.wake 1) = some t ∧ (t.proc 0).state = .RUNNABLE := by
  have hrun : ∃ s : St 2 2, run step (start 0) (sleepWake 0 1) = some s := ⟨_, rfl⟩
  obtain ⟨s, hs⟩ := hrun
  obtain ⟨-, -, -, hround, -⟩ := one_cpu (Reach.of_run (.init rfl) hs)
  cases hs
  exact ⟨_, _, rfl, rfl, rfl, hround 1 _ 0 1 _ rfl rfl rfl rfl rfl rfl⟩

end Xv6.SchedWakeup
