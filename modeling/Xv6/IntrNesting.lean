import Xv6.IntrSwitch

/-!
Interrupt nesting across locks and context switches: `noff` counts the locks that a CPU holds
and the open `push_off`s, and every process finds its own interrupt state when the outermost of
them ends, on whatever CPU.

One lemma for each function says how it changes the view of the thread that runs it.
-/

namespace Xv6.Intr

open Threads Runs
open Function (update update_of_ne update_eq_self)
open ProcModel (ProcState)

variable {m n : ℕ} {K : Type} [Fintype K] [DecidableEq K] {t : Thread m n} {g : View n K}
  {p q : Fin n} {k : ℕ} {O : Finset (Lock n K)} {pl : Place n} {α : Type}
  {Q : α → View n K → Prop}

/-! ### spinlock.c -/

lemma panic_ok {why : Why} (h : safe t (.panic why) g) :
    ok (world m n K) t (panic why : Code n K α) g Q := by
  intro s Γ hi hg
  refine ⟨g, by rwa [← hg, update_eq_self], h, fun s Γ _ _ c r s' _ he => ?_⟩
  exact r.elim

lemma pushOff_ok (hpl : pl.settled) :
    ok (world m n K) t pushOff (view k O pl) fun _ g' => g' = view (k + 1) O pl := by
  refine (rule_intrGet hpl).seq fun old g' hg' => ?_
  subst hg'
  exact rule_pushNoff hpl old

lemma popOff_ok (hpl : pl.settled) :
    ok (world m n K) t popOff (view (k + 1) O pl) fun _ g' => g' = view k O pl := by
  refine (rule_intrGet_off hpl).seq ?_
  rintro on g' ⟨rfl, hon⟩
  rw [if_neg (by simp [hon (by omega)])]
  refine (rule_getNoff hpl).seq ?_
  rintro noff g' ⟨rfl, rfl⟩
  rw [if_neg (by omega)]
  exact rule_popNoff hpl

lemma acquire_ok (l : Lock n K) :
    ok (world m n K) t (acquire l) (view k O .run)
      fun _ g' => g' = view k (insert l O) .run ∧ l ∉ O := by
  refine (pushOff_ok settled_run).seq ?_
  rintro - g' rfl
  refine (rule_holding settled_run l).seq ?_
  rintro held g' ⟨rfl, -⟩
  split_ifs
  · exact panic_ok trivial
  · exact rule_take l

lemma release_ok (l : Lock n K) :
    ok (world m n K) t (release l) (view k O .run)
      fun _ g' => g' = view k (O.erase l) .run ∧ l ∈ O := by
  refine (rule_holding settled_run l).seq ?_
  rintro held g' ⟨rfl, hheld⟩
  split_ifs with h
  · refine (rule_drop (hheld.mp h)).seq ?_
    rintro - g' rfl
    exact (popOff_ok settled_run).mono fun _ g' hg' => ⟨hg', hheld.mp h⟩
  · exact panic_ok trivial

/-! ### proc.c -/

lemma myproc_ok (hpl : pl.settled) :
    ok (world m n K) t myproc (view k O pl) fun r g' => g' = view k O pl ∧ r = t.who := by
  refine (pushOff_ok hpl).seq ?_
  rintro - g' rfl
  refine (rule_getProc hpl).seq ?_
  rintro r g' ⟨rfl, hr⟩
  refine (popOff_ok hpl).seq ?_
  rintro - g' rfl
  exact ok.ret ⟨rfl, hr⟩

lemma withProc_ok {f : Fin n → Code n K Unit} {Q : Unit → View n K → Prop} (hpl : pl.settled)
    (h : ok (world m n K) (.proc p) (f p) (view k O pl) Q) :
    ok (world m n K) (.proc p) (withProc f) (view k O pl) Q := by
  refine (myproc_ok hpl).seq ?_
  rintro r g' ⟨rfl, rfl⟩
  exact h

/-- `sched` called with the process's own lock: if it does not panic, it was the only lock and
there was no open `push_off`, and they are so again when it returns. -/
lemma sched_ok (hp : plock p ∈ O) :
    ok (world m n K) (.proc p) sched (view k O .leaving)
      fun _ g' => g' = view k O .run ∧ k = 0 ∧ O = {plock p} := by
  refine withProc_ok settled_leaving ((rule_holding settled_leaving _).seq ?_)
  rintro held g' ⟨rfl, -⟩
  split_ifs
  · refine (rule_getNoff settled_leaving).seq ?_
    rintro noff g' ⟨rfl, rfl⟩
    split_ifs with hone
    · have hcard : 0 < O.card := Finset.card_pos.mpr ⟨_, hp⟩
      obtain rfl : k = 0 := by omega
      obtain ⟨l, rfl⟩ := Finset.card_eq_one.mp (by omega)
      obtain rfl : plock p = l := Finset.mem_singleton.mp hp
      refine (rule_getState settled_leaving p).seq ?_
      rintro state g' rfl
      split_ifs
      · exact panic_ok trivial
      · refine (rule_intrGet_off settled_leaving).seq ?_
        rintro on g' ⟨rfl, hon⟩
        rw [if_neg (by simp [hon (by omega)])]
        refine rule_getIntena.seq ?_
        rintro intena g' rfl
        refine rule_swtchOut.seq ?_
        rintro - g' rfl
        refine rule_resumed_parked.seq ?_
        rintro - g' rfl
        exact rule_setIntena.mono fun _ g' hg' => ⟨hg', rfl, rfl⟩
    · exact panic_ok hone
  · exact panic_ok trivial

lemma yield_ok :
    ok (world m n K) (.proc p) yield (view k O .run) fun _ g' => g' = view k O .run := by
  refine withProc_ok settled_run ((acquire_ok _).seq ?_)
  rintro - g' ⟨rfl, hnot⟩
  refine (rule_setState_self (Finset.mem_insert_self _ _) _).seq ?_
  rintro - g' rfl
  refine (sched_ok (Finset.mem_insert_self _ _)).seq ?_
  rintro - g' ⟨rfl, -, -⟩
  refine (release_ok _).mono ?_
  rintro - g' ⟨rfl, -⟩
  rw [Finset.erase_insert hnot]

def Idle : Thread m n → View n K → Prop
  | .proc _, g => ∃ k O, g = view k O .run
  | .sched _, g => g = view 0 ∅ .run

lemma sleep_ok (chan : ℕ) {lk : Lock n K} (hlk : lk ≠ plock p) :
    ok (world m n K) (.proc p) (sleep chan lk) (view k O .run)
      fun _ g' => Idle (.proc p : Thread m n) g' := by
  refine withProc_ok settled_run ((acquire_ok _).seq ?_)
  rintro - g' ⟨rfl, -⟩
  refine (release_ok lk).seq ?_
  rintro - g' ⟨rfl, -⟩
  have hp : plock p ∈ (insert (plock p) O).erase lk :=
    Finset.mem_erase.mpr ⟨hlk.symm, Finset.mem_insert_self _ _⟩
  refine (rule_setChan settled_run p chan).seq ?_
  rintro - g' rfl
  refine (rule_setState_self hp _).seq ?_
  rintro - g' rfl
  refine (sched_ok hp).seq ?_
  rintro - g' ⟨rfl, -, -⟩
  refine (rule_setChan settled_run p 0).seq ?_
  rintro - g' rfl
  refine (release_ok _).seq ?_
  rintro - g' ⟨rfl, -⟩
  refine (acquire_ok lk).mono ?_
  rintro - g' ⟨rfl, -⟩
  exact ⟨_, _, rfl⟩

lemma each_ok {f : α → Code n K Unit}
    (h : ∀ a, ok (world m n K) t (f a) g fun _ g' => g' = g) (as : List α) :
    ok (world m n K) t (each f as) g fun _ g' => g' = g := by
  induction as with
  | nil => exact ok.ret rfl
  | cons a as ih =>
    refine (h a).seq ?_
    rintro - g' rfl
    exact ih

lemma release_seen {x : ProcState} (hq : plock q ∉ O) :
    ok (world m n K) t (release (plock q)) (seen k (insert (plock q) O) q x)
      fun _ g' => g' = view k O .run := by
  refine forget settled_run ((release_ok _).mono ?_)
  rintro - g' ⟨rfl, -⟩
  rw [Finset.erase_insert hq]

lemma wakeupOne_ok (chan : ℕ) (q : Fin n) :
    ok (world m n K) t (wakeupOne chan q) (view k O .run) fun _ g' => g' = view k O .run := by
  refine (myproc_ok settled_run).seq ?_
  rintro r g' ⟨rfl, rfl⟩
  split_ifs with hme
  · exact ok.ret rfl
  · have ht : t ≠ .proc q := by
      rintro rfl
      exact hme rfl
    refine (acquire_ok _).seq ?_
    rintro - g' ⟨rfl, hq⟩
    refine (rule_getState_seen (Finset.mem_insert_self _ _)).seq ?_
    rintro state g' rfl
    split_ifs with hst
    · refine (rule_getChan q q).seq ?_
      rintro a g' rfl
      split_ifs
      · refine (rule_setState_other ht (by rw [hst]; decide) _).seq ?_
        rintro - g' rfl
        refine (release_ok _).mono ?_
        rintro - g' ⟨rfl, -⟩
        rw [Finset.erase_insert hq]
      · exact release_seen hq
    · exact release_seen hq

lemma wakeup_ok (chan : ℕ) :
    ok (world m n K) t (wakeup chan) (view k O .run) fun _ g' => g' = view k O .run :=
  each_ok (wakeupOne_ok chan) _

lemma forkret_ok :
    ok (world m n K) (.proc p) forkret (view 0 {plock p} .fresh)
      fun _ g' => g' = view 0 ∅ .run := by
  refine rule_resumed_fresh.seq ?_
  rintro - g' rfl
  refine withProc_ok settled_run ((release_ok _).mono ?_)
  rintro - g' ⟨rfl, -⟩
  rw [Finset.erase_singleton]

lemma schedulerOne_ok {d : Fin m} (q : Fin n) :
    ok (world m n K) (.sched d) (schedulerOne q) (view 0 ∅ .run)
      fun _ g' => g' = view 0 ∅ .run := by
  refine (acquire_ok _).seq ?_
  rintro - g' ⟨rfl, hq⟩
  refine (rule_getState_seen (Finset.mem_insert_self _ _)).seq ?_
  rintro state g' rfl
  split_ifs with hst
  · subst hst
    refine rule_setState_choose.seq ?_
    rintro - g' rfl
    refine rule_setProc_some.seq ?_
    rintro - g' rfl
    refine rule_swtchTo.seq ?_
    rintro - g' rfl
    refine rule_resumed_away.seq ?_
    rintro - g' rfl
    refine rule_setProc_none.seq ?_
    rintro - g' rfl
    refine (release_ok _).mono ?_
    rintro - g' ⟨rfl, -⟩
    rw [Finset.erase_singleton]
  · exact release_seen hq

lemma scheduler_ok {d : Fin m} :
    ok (world m n K) (.sched d) scheduler (view 0 ∅ .run) fun _ g' => g' = view 0 ∅ .run := by
  refine (rule_intrOn (x := none) fun b hb => (Option.some_ne_none b hb.symm).elim).seq ?_
  rintro - g' rfl
  refine rule_intrOff.seq ?_
  rintro - g' rfl
  exact each_ok schedulerOne_ok _

/-! ### trap.c -/

lemma devSection_ok (d : K × List ℕ) :
    ok (world m n K) t (devSection d) (view k O .run) fun _ g' => g' = view k O .run := by
  refine (acquire_ok _).seq ?_
  rintro - g' ⟨rfl, hnot⟩
  refine (each_ok wakeup_ok _).seq ?_
  rintro - g' rfl
  refine (release_ok _).mono ?_
  rintro - g' ⟨rfl, -⟩
  rw [Finset.erase_insert hnot]

lemma timerYield_ok (timer : Bool) :
    ok (world m n K) t (timerYield timer) (view k O .run) fun _ g' => g' = view k O .run := by
  unfold timerYield
  split_ifs
  · refine (myproc_ok settled_run).seq ?_
    rintro r g' ⟨rfl, rfl⟩
    cases t with
    | proc p => exact yield_ok
    | sched d => exact ok.ret rfl
  · exact ok.ret rfl

lemma kerneltrap_ok {old : Option Bool} (hold : ∀ b, old = some b → true = b)
    (devs : List (K × List ℕ)) (timer : Bool) :
    ok (world m n K) t (kerneltrap devs timer) (view 0 ∅ .run)
      fun _ g' => g' = ⟨0, ∅, old, .run, none⟩ := by
  refine (rule_intrGet_off settled_run).seq ?_
  rintro on g' ⟨rfl, -⟩
  split_ifs
  · exact panic_ok trivial
  · refine (each_ok devSection_ok devs).seq ?_
    rintro - g' rfl
    refine (timerYield_ok timer).seq ?_
    rintro - g' rfl
    exact rule_intrOn hold

/-! ### All threads together -/

variable {s s' : St m n K} {Γ : Thread m n → View n K} {c : Fin m}

lemma call_fine {x : Fin m × Call n K} {M : Code n K Unit} (hi : Inv s Γ) (hidle : Idle t (Γ t))
    (h : call t x s = some (s', M)) :
    ∃ g', Inv s' (update Γ t g') ∧ ok (world m n K) t M g' fun _ g'' => Idle t g'' := by
  obtain ⟨c, x⟩ := x
  unfold call at h
  split_ifs at h with ht
  cases t with
  | sched d =>
    cases h
    refine ⟨_, by rwa [update_eq_self], ?_⟩
    rw [show Γ (.sched d) = view 0 ∅ .run from hidle]
    exact scheduler_ok
  | proc p =>
    have h : (if x.allowed s c p then some (s, x.code) else none) = some (s', M) := h
    split_ifs at h with hx
    cases h
    refine ⟨_, by rwa [update_eq_self], ?_⟩
    obtain ⟨k, O, hg⟩ := hidle
    obtain ⟨hh, -, hk⟩ := hi.fits ht hg
    rw [hg]
    have hsame {M : Code n K Unit} (hM : ok (world m n K) (.proc p) M (view k O .run)
        fun _ g' => g' = view k O .run) : ok (world m n K) (.proc p) M (view k O .run)
        fun _ g'' => Idle (.proc p : Thread m n) g'' := hM.mono fun _ g' h => ⟨k, O, h⟩
    cases x with
    | acquire l => exact (acquire_ok l).mono fun _ g' h => ⟨_, _, h.1⟩
    | release l => exact (release_ok l).mono fun _ g' h => ⟨_, _, h.1⟩
    | pushOff => exact (pushOff_ok settled_run).mono fun _ g' h => ⟨_, _, h⟩
    | popOff =>
      -- a `pop_off` goes with a `push_off`
      have hpos : 0 < k := by
        have : s.pushed (.proc p) = k := hk
        exact this ▸ of_decide_eq_true hx
      obtain ⟨j, rfl⟩ := Nat.exists_eq_add_of_le' hpos
      exact (popOff_ok settled_run).mono fun _ g' h => ⟨_, _, h⟩
    | yield => exact hsame yield_ok
    | sleep chan lk => exact sleep_ok chan (of_decide_eq_true hx)
    | wakeup chan => exact hsame (wakeup_ok chan)
    | intrOn =>
      have hzero : O.card + k = 0 := hh.noff.symm.trans (of_decide_eq_true hx)
      obtain rfl : O = ∅ := Finset.card_eq_zero.mp (by omega)
      obtain rfl : k = 0 := by omega
      exact hsame (rule_intrOn fun b hb => (Option.some_ne_none b hb.symm).elim)
    | intrOff => exact hsame rule_intrOff

omit [DecidableEq K] in
lemma Inv.interruptible (hi : Inv s Γ) (ht : running s c = t) (hon : (s.cpu c).sie = true) :
    ∃ old : Option Bool, Γ t = ⟨0, ∅, old, .run, none⟩ ∧ ∀ b, old = some b → true = b := by
  obtain ⟨hh, hp, -⟩ := hi.fits ht rfl
  have hzero : (s.cpu c).noff = 0 := by
    by_contra hne
    rw [hh.off (Nat.pos_of_ne_zero hne)] at hon
    exact Bool.false_ne_true hon
  rw [hh.noff] at hzero
  have hown : (Γ t).own = ∅ := Finset.card_eq_zero.mp (by omega)
  have hsaw : (Γ t).saw = none := by
    cases hs : (Γ t).saw with
    | none => rfl
    | some z => exact absurd (hown ▸ (hh.saw z.1 z.2 hs).1) (Finset.notMem_empty _)
  have hplace : (Γ t).place = .run := by
    have hmem : ∀ q : Fin n, plock q ∉ (Γ t).own := fun q hq => by simp [hown] at hq
    have hone : ∀ (q : Fin n) pl, Γ t ≠ view 0 {plock q} pl := fun q pl h =>
      hmem q (by rw [h]; exact Finset.mem_singleton_self _)
    cases t with
    | proc p =>
      simp only [Placed] at hp
      split at hp
      · assumption
      · exact (hmem _ hp.2).elim
      · exact (hmem _ hp.2.1).elim
      · exact (hone _ _ hp.1).elim
      · exact (hmem _ hp.2.1).elim
      · exact (hone _ _ hp.1).elim
      · exact hp.elim
    | sched d =>
      simp only [Placed] at hp
      split at hp
      · assumption
      · exact (hone _ _ hp.1).elim
      · exact (hone _ _ hp.1).elim
      · exact (hone _ _ hp.1).elim
      · exact hp.elim
  refine ⟨(Γ t).old, ?_, fun b hb => hon.symm.trans (hh.old b hb)⟩
  have hpush : (Γ t).pushed = 0 := by omega
  rw [← hpush, ← hown, ← hplace, ← hsaw]

lemma irq_fine {i : Irq m K} {M : Code n K Unit} (hi : Inv s Γ) (h : irq t i s = some (s', M)) :
    ∃ g', Inv s' (update Γ t g') ∧ ok (world m n K) t M g' fun _ g'' => g'' = Γ t := by
  unfold irq at h
  split_ifs at h with hc
  obtain ⟨ht, hon⟩ := hc
  cases h
  obtain ⟨old, hg, hold⟩ := hi.interruptible ht hon
  obtain ⟨hh, hp, hk⟩ := hi.fits ht hg
  obtain ⟨hl, hproc⟩ := local_sie s i.cpu t false
  refine ⟨view 0 ∅ .run, hi.own_step ht hl ?_ ?_ hk, ?_⟩
  · have hv : Here s i.cpu t (view 0 ∅ .run) := { hh with old := fun b hb => (view_old hb).elim }
    exact hv.setSie (.inr rfl) fun b hb => (Option.some_ne_none b hb.symm).elim
  · exact hp.settle rfl rfl hproc trivial rfl (.inr rfl)
  · rw [hg]
    exact kerneltrap_ok hold i.devs i.timer

def start : Thread m n → View n K
  | .sched _ => view 0 ∅ .run
  | .proc p => view 0 {plock p} .fresh

omit [DecidableEq K] in
lemma init_inv {s : Kernel m n K} (h : Init s) : Inv s.shared start := by
  have hheld : ∀ c, heldOn s.shared c = ∅ := fun c => by
    ext l
    simp [mem_heldOn, h.lock l]
  have hruns : ∀ p, ¬ Runs s.shared p := by
    rintro p ⟨c, hc⟩
    exact Option.some_ne_none p (hc.symm.trans (h.cur c))
  refine ⟨fun c => ?_, fun t => ?_, fun c c' p hc => ?_, fun t => ?_⟩
  · rw [running_sched.mpr ⟨h.cur c, rfl⟩]
    refine ⟨(h.cpu c).2, fun hpos => ?_, hheld c, fun b hb => (view_old hb).elim,
      fun q x hx => (view_saw hx).elim, fun p hp => by simp at hp⟩
    exact absurd (h.cpu c).2 (Nat.ne_of_gt hpos)
  · rw [h.pushed t]
    cases t <;> rfl
  · exact (hruns p ⟨c, hc⟩).elim
  · cases t with
    | sched c => exact ⟨h.cur c, (h.cpu c).1⟩
    | proc p => exact ⟨rfl, h.base _, fun hr => (hruns p hr).elim⟩

lemma init_fine {s : Kernel m n K} (h : Init s) : Fine (world m n K) Idle s := by
  refine ⟨start, init_inv h, fun t => ?_⟩
  cases t with
  | sched c =>
    rw [h.sched c]
    exact ok.ret rfl
  | proc p =>
    rw [h.proc p]
    exact forkret_ok.mono fun _ g' hg' => ⟨_, _, hg'⟩

lemma reach_kernel {s : Kernel m n K} (h : Reach step Always Init s) :
    Fine (world m n K) Idle s :=
  reach_fine (W := world m n K) (fun _ _ _ _ _ _ => call_fine) (fun _ _ _ _ _ _ => irq_fine)
    (fun _ => init_fine) (fun s e _ => guardEvent_of (fun _ _ _ _ => trivial) s e) h

omit [Fintype K] [DecidableEq K] in
lemma noff_setCpu {x : Cpu n} (hx : (s.cpu c).noff ≤ x.noff) (c' : Fin m) :
    (s.cpu c').noff ≤ ((s.setCpu c x).cpu c').noff := by
  by_cases h : c' = c
  · rwa [h, St.setCpu_self]
  · exact (congrArg Cpu.noff (update_of_ne h _ _)).ge

omit [Fintype K] in
lemma act_noff {c' : Fin m} {o : Op n K} {r : o.Resp} (h : act c t s o = some (r, s'))
    (hlt : (s'.cpu c').noff < (s.cpu c').noff) :
    c' = c ∧ o = .popNoff ∧ (s'.cpu c).sie =
      ((s.cpu c).sie || (decide ((s.cpu c).noff - 1 = 0) && (s.cpu c).intena)) := by
  cases o with
  | popNoff =>
    cases h
    have hc : c' = c := by
      by_contra hne
      simp [St.setPushed, St.setCpu, update_of_ne hne] at hlt
    exact ⟨hc, rfl, congrArg Cpu.sie (St.setCpu_self s c _)⟩
  | pushNoff old =>
    have hs := (Prod.mk.inj (Option.some.inj h)).2
    rw [← hs] at hlt
    split_ifs at hlt
    · refine absurd hlt (Nat.not_lt.mpr (noff_setCpu ?_ c'))
      exact Nat.le_succ _
    · refine absurd hlt (Nat.not_lt.mpr (noff_setCpu ?_ c'))
      exact Nat.le_succ _
  | intrOn | intrOff | setProc p | setIntena b =>
    cases h
    refine absurd hlt (Nat.not_lt.mpr (noff_setCpu ?_ c'))
    exact Nat.le_refl _
  | take l =>
    have h : (if (s.lock l).locked then none else some _) = some (r, s') := h
    split_ifs at h
    cases h
    exact absurd hlt (Nat.lt_irrefl _)
  | panic why => exact r.elim
  | _ =>
    cases h
    exact absurd hlt (Nat.lt_irrefl _)

omit [Fintype K] in
/-- The steps that lower `noff` on a CPU: the thread that it runs is at the end of `pop_off`. -/
lemma step_noff {s s' : Kernel m n K} {e : KEvent m n K} {c : Fin m} (h : step s e = some s')
    (hlt : (s'.shared.cpu c).noff < (s.shared.cpu c).noff) :
    (∃ f, s.thread (running s.shared c) = .op .popNoff f) ∧
      (s'.shared.cpu c).sie = ((s.shared.cpu c).sie ||
        (decide ((s.shared.cpu c).noff - 1 = 0) && (s.shared.cpu c).intena)) := by
  cases e with
  | interrupt t i =>
    obtain ⟨y, hy, rfl⟩ := Option.map_eq_some_iff.mp h
    unfold irq at hy
    split_ifs at hy
    cases hy
    refine absurd hlt (Nat.not_lt.mpr (noff_setCpu ?_ c))
    exact Nat.le_refl _
  | act a =>
    cases a with
    | start t x =>
      simp only [step, next, Threads.step] at h
      split at h
      · obtain ⟨y, hy, rfl⟩ := Option.map_eq_some_iff.mp h
        have hsame : y.1 = s.shared := by
          unfold call at hy
          split_ifs at hy
          cases t with
          | sched d =>
            cases hy
            rfl
          | proc p =>
            have hy : (if _ then some _ else none) = some y := hy
            split_ifs at hy
            cases hy
            rfl
        rw [hsame] at hlt
        exact absurd hlt (Nat.lt_irrefl _)
      · cases h
    | turn t c' =>
      simp only [step, next, Threads.step] at h
      split at h
      · cases h
      · rename_i o f ho
        obtain ⟨y, hy, rfl⟩ := Option.map_eq_some_iff.mp h
        unfold exec at hy
        split_ifs at hy with ht
        obtain ⟨rfl, rfl, hsie⟩ := act_noff hy hlt
        exact ⟨⟨f, by rw [ht, ho]⟩, hsie⟩

omit [Fintype K] [DecidableEq K] in
lemma Panics.op {s : Kernel m n K} {t : Thread m n} {why : Why} (h : Panics s t why) :
    ∃ f, s.thread t = .op (.panic why) f := by
  unfold Panics at h
  split at h
  · rename_i w f hw
    subst h
    exact ⟨f, hw⟩
  · exact h.elim

lemma Panics.safe {s : Kernel m n K} {t : Thread m n} {why : Why} (h : Panics s t why)
    (hs : Fine (world m n K) Idle s) :
    ∃ Γ, Inv s.shared Γ ∧ Intr.safe t (.panic why) (Γ t) := by
  obtain ⟨f, hf⟩ := h.op
  obtain ⟨Γ, hi, -, hsafe, -⟩ := hs.request hf
  exact ⟨Γ, hi, hsafe⟩

/-- **Interrupt nesting.** In every state that is reached, on every CPU: `noff` is the number
of locks that the CPU holds plus the open `push_off`s of the thread it runs, and interrupts are
off when it is not zero. No thread is about to panic in `pop_off`, or with "sched
interruptible"; and a process is about to panic with "sched locks" only if its own lock is not
all that keeps interrupts off. When `noff` returns to 0 under a process, the interrupt enable
bit is the one from before its outermost `push_off`. -/
theorem interrupt_nesting {s : Kernel m n K} (h : Reach step Always Init s) :
    (∀ c, (s.shared.cpu c).noff =
      (heldOn s.shared c).card + s.shared.pushed (running s.shared c)) ∧
    (∀ c, 0 < (s.shared.cpu c).noff → (s.shared.cpu c).sie = false) ∧
    (∀ t, ¬ Panics s t .popOff ∧ ¬ Panics s t .popOffInterruptible ∧
      ¬ Panics s t .schedInterruptible) ∧
    (∀ c p, s.shared.cur c = some p → heldOn s.shared c = {plock p} →
      s.shared.pushed (.proc p) = 0 → ¬ Panics s (.proc p) .schedLocks) ∧
    ∀ c p b e s', s.shared.cur c = some p → s.shared.base (.proc p) = some b →
      (s.shared.cpu c).noff = 1 → step s e = some s' → (s'.shared.cpu c).noff = 0 →
      (s'.shared.cpu c).sie = b := by
  have hfine := reach_kernel h
  obtain ⟨Γ, hi, -⟩ := id hfine
  have hi : Inv s.shared Γ := hi
  refine ⟨fun c => ?_, fun c => (hi.here c).off, fun t => ⟨?_, ?_, ?_⟩, ?_, ?_⟩
  · rw [(hi.here c).noff, (hi.here c).own, hi.pushed]
  · intro hp
    obtain ⟨_, -, hsafe⟩ := hp.safe hfine
    exact hsafe
  · intro hp
    obtain ⟨_, -, hsafe⟩ := hp.safe hfine
    exact hsafe
  · intro hp
    obtain ⟨_, -, hsafe⟩ := hp.safe hfine
    exact hsafe
  · intro c p hc hheld hpush hp
    obtain ⟨Γ, hi, hsafe⟩ := hp.safe hfine
    obtain ⟨hh, -, hk⟩ := hi.fits (running_proc.mpr hc) rfl
    refine hsafe ?_
    rw [← hh.own, hheld, ← hk, hpush]
    rfl
  · intro c p b e s' hc hbase hone hstep hzero
    obtain ⟨⟨f, hf⟩, hsie⟩ := step_noff hstep (c := c) (by omega)
    rw [running_proc.mpr hc] at hf
    obtain ⟨Γ, hi, -, hsafe, -⟩ := hfine.request hf
    obtain ⟨hh, -, -⟩ := Inv.fits hi (running_proc.mpr hc) rfl
    have hpos : 0 < (s.shared.cpu c).noff := by omega
    rw [hsie, hh.off hpos, hone, hh.intena p rfl hsafe hpos b hbase]
    rfl

/-! ### A process that moves to another CPU -/

/-- All CPUs are in their schedulers and all processes ready to run. -/
def boot (m n : ℕ) (K : Type) : Kernel m n K where
  shared := {
    cpu := fun _ => ⟨none, 0, false, false⟩
    lock := fun _ => ⟨false, none⟩
    state := fun _ => .RUNNABLE
    chan := fun _ => 0
    cur := fun _ => none
    pushed := fun _ => 0
    base := fun _ => none }
  thread
    | .sched _ => .ret ()
    | .proc _ => forkret

omit [Fintype K] [DecidableEq K] in
lemma boot_init : Init (boot m n K) :=
  ⟨fun _ => ⟨rfl, rfl⟩, fun _ => rfl, by simp [boot], fun _ => rfl, fun _ => rfl,
    fun _ => rfl, fun _ => rfl, fun _ => rfl⟩

def turns (t : Thread m n) (c : Fin m) (k : ℕ) : List (KEvent m n K) :=
  List.replicate k (.act (.turn t c))

/-- The CPU `c` runs a process, which turns interrupts on and yields; then the CPU `d` runs it,
up to the end of the last `pop_off` of `yield`. -/
def migrate (c d : Fin m) (p : Fin n) : List (KEvent m n K) :=
  [.act (.start (.sched c) (c, .yield))] ++ turns (.sched c) c 10 ++ turns (.proc p) c 12 ++
  [.act (.start (.proc p) (c, .intrOn))] ++ turns (.proc p) c 1 ++
  [.act (.start (.proc p) (c, .yield))] ++ turns (.proc p) c 23 ++ turns (.sched c) c 7 ++
  [.act (.start (.sched d) (d, .yield))] ++ turns (.sched d) d 10 ++ turns (.proc p) d 6

theorem interrupt_nesting_migrate :
    ∃ (c d : Fin 2) (p : Fin 1) (s s' : Kernel 2 1 Unit), c ≠ d ∧
      run step (boot 2 1 Unit) (migrate c d p) = some s ∧
      step s (.act (.turn (.proc p) d)) = some s' ∧ (s.shared.cpu d).noff = 1 ∧
      (s'.shared.cpu d).noff = 0 ∧ (s'.shared.cpu d).sie = true := by
  have hrun : ((run step (boot 2 1 Unit) (migrate 0 1 0)).bind fun s =>
      (step s (.act (.turn (.proc 0) 1))).map fun s' => (s.shared.cur 1,
        s.shared.base (.proc 0), (s.shared.cpu 1).noff, (s'.shared.cpu 1).noff)) =
      some (some 0, some true, 1, 0) := by decide +kernel
  obtain ⟨s, hs, hrest⟩ := Option.bind_eq_some_iff.mp hrun
  obtain ⟨s', hs', hvals⟩ := Option.map_eq_some_iff.mp hrest
  simp only [Prod.mk.injEq] at hvals
  obtain ⟨hcur, hbase, hone, hzero⟩ := hvals
  have hreach : Reach step Always Init s := (Reach.init boot_init).of_run hs
  exact ⟨0, 1, 0, s, s', by decide, hs, hs', hone, hzero,
    (interrupt_nesting hreach).2.2.2.2 1 0 true _ s' hcur hbase hone hs' hzero⟩

end Xv6.Intr
