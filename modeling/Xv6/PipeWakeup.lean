import Xv6.PipeQueue

/-!
Who sleeps on a pipe, and why.

A process that sleeps on `&pi->nread` waits for a byte, and one on `&pi->nwrite` for room.
While somebody holds the lock, a byte may have come in that the sleepers do not know of yet;
the writer wakes them before it lets go of the lock, unless it finds itself killed.
-/

namespace Xv6.PipeWakeup

open ProcModel (Table ProcState Proc Chan scan)
open Function Runs RingBuffer PipeModel PipeQueue

variable {n : ℕ} {s t : State n} {a : Act n} {p q : Fin n} {m i : ℤ} {user : Option UInt8}

/-! ### Sleepers -/

def Sleeps (t : Table n) (p : Fin n) (c : ℕ) : Prop :=
  (t.procs p).state = .SLEEPING ∧ (t.procs p).chan = some (.other c)

variable {tbl : Table n} {c d : ℕ}

lemma sleeps_wakeup (h : Sleeps (tbl.wakeup (some p) (.other c)) q d) :
    Sleeps tbl q d ∧ (q = p ∨ d ≠ c) := by
  simp only [Sleeps, Table.wakeup, Table.map] at h
  split_ifs at h with hc
  · exact absurd h.1 (by simp)
  · refine ⟨h, ?_⟩
    by_contra hcon
    push Not at hcon
    exact hc ⟨by simpa using hcon.1, h.1, hcon.2 ▸ h.2⟩

lemma not_sleeps_wakeup (hp : ¬ Sleeps tbl p c) :
    ¬ Sleeps (tbl.wakeup (some p) (.other c)) q c := by
  intro hq
  obtain ⟨hq', rfl | hne⟩ := sleeps_wakeup hq
  · exact hp hq'
  · exact hne rfl

lemma sleeps_sleep (h : Sleeps (tbl.sleep p c) q d) : q = p ∧ d = c ∨ q ≠ p ∧ Sleeps tbl q d := by
  by_cases e : q = p
  · subst e
    simp only [Sleeps, Table.sleep, Table.set_procs_self] at h
    have : c = d := by simpa using h.2
    exact .inl ⟨rfl, this.symm⟩
  · refine .inr ⟨e, ?_⟩
    simpa only [Sleeps, Table.sleep, Table.set_procs_ne _ e] using h

lemma sleeps_schedule (h : Sleeps (tbl.schedule p) q d) : q ≠ p ∧ Sleeps tbl q d := by
  by_cases e : q = p
  · subst e
    simp [Sleeps, Table.schedule] at h
  · refine ⟨e, ?_⟩
    simpa only [Sleeps, Table.schedule, Table.set_procs_ne _ e] using h

lemma sleeps_kkill {pid : ℤ} (h : Sleeps (tbl.kkill pid).2 q d) : Sleeps tbl q d := by
  unfold Table.kkill at h
  split at h
  · exact h
  · rename_i j hj
    by_cases e : q = j
    · subst e
      simp only [Sleeps, Table.set_procs_self] at h
      split_ifs at h with hs
      · exact absurd h.1 (by simp)
      · exact h
    · simpa only [Sleeps, Table.set_procs_ne _ e] using h

lemma killed_kkill {pid : ℤ} (h : ((tbl.kkill pid).2.procs q).killed ≠ (tbl.procs q).killed) :
    scan (fun j => (tbl.procs j).pid = pid) = some q := by
  unfold Table.kkill at h
  split at h
  · exact absurd rfl h
  · rename_i j hj
    by_cases e : q = j
    · rw [e]
      exact hj
    · rw [Table.set_procs_ne _ e] at h
      exact absurd rfl h

/-! ### The invariant -/

/-- A writer is in its loop, and will wake the readers when it leaves it. -/
def WillWake (s : State n) : Prop :=
  ∃ q m i, s.lock = some q ∧ s.pc q = .writing m i ∧ s.pi.readopen = true ∧ ¬ s.killed q

def WillDrain (s : State n) : Prop := ∃ q m i, s.lock = some q ∧ s.pc q = .reading m i

structure Woken (s : State n) : Prop where
  reader : ∀ p, Sleeps s.tbl p nreadChan → ∃ m, s.pc p = .readSleep m
  writer : ∀ p, Sleeps s.tbl p nwriteChan → ∃ m i, s.pc p = .writeSleep m i
  empty : ∀ p, Sleeps s.tbl p nreadChan → s.pi.writeopen = true ∧
    (s.pi.ring.nread = s.pi.ring.nwrite ∨ WillWake s)
  full : ∀ p, Sleeps s.tbl p nwriteChan → s.pi.readopen = true ∧
    (full s.pi.ring ∨ WillDrain s)

lemma start_woken (h : Start s) : Woken s := by
  have hr : ∀ p, ¬ Sleeps s.tbl p nreadChan := fun p hp => (h.fresh p _ hp.1 hp.2).1 rfl
  have hw : ∀ p, ¬ Sleeps s.tbl p nwriteChan := fun p hp => (h.fresh p _ hp.1 hp.2).2 rfl
  exact ⟨fun p hp => absurd hp (hr p), fun p hp => absurd hp (hw p), fun p hp => absurd hp (hr p),
    fun p hp => absurd hp (hw p)⟩

def Up (s : State n) (p : Fin n) : Prop :=
  ¬ Sleeps s.tbl p nreadChan ∧ ¬ Sleeps s.tbl p nwriteChan

lemma Woken.up (h : Woken s) (hr : ∀ m, s.pc p ≠ .readSleep m)
    (hw : ∀ m i, s.pc p ≠ .writeSleep m i) : Up s p := by
  refine ⟨fun hs => ?_, fun hs => ?_⟩
  · obtain ⟨m, hm⟩ := h.reader p hs
    exact hr m hm
  · obtain ⟨m, i, hm⟩ := h.writer p hs
    exact hw m i hm

lemma Woken.next (h : Woken s) (hp : Up s p) {pc' : Pc}
    (hpc : t.pc = update s.pc p pc')
    (hs : ∀ q c, Sleeps t.tbl q c → Sleeps s.tbl q c)
    (hempty : ∀ q, Sleeps t.tbl q nreadChan → Sleeps s.tbl q nreadChan →
      t.pi.writeopen = true ∧ (t.pi.ring.nread = t.pi.ring.nwrite ∨ WillWake t))
    (hfull : ∀ q, Sleeps t.tbl q nwriteChan → Sleeps s.tbl q nwriteChan →
      t.pi.readopen = true ∧ (RingBuffer.full t.pi.ring ∨ WillDrain t)) : Woken t := by
  refine ⟨fun q hq => ?_, fun q hq => ?_, fun q hq => hempty q hq (hs q _ hq),
    fun q hq => hfull q hq (hs q _ hq)⟩
  · have hq' := hs q _ hq
    have hne : q ≠ p := fun e => hp.1 (e ▸ hq')
    rw [hpc, update_of_ne hne]
    exact h.reader q hq'
  · have hq' := hs q _ hq
    have hne : q ≠ p := fun e => hp.2 (e ▸ hq')
    rw [hpc, update_of_ne hne]
    exact h.writer q hq'

lemma WillWake.holder (h : WillWake s) (hl : s.lock = some p) :
    (∃ m i, s.pc p = .writing m i) ∧ s.pi.readopen = true ∧ ¬ s.killed p := by
  obtain ⟨q, m, i, hq, hpc, hr, hk⟩ := h
  obtain rfl : q = p := Option.some.inj (hq.symm.trans hl)
  exact ⟨⟨m, i, hpc⟩, hr, hk⟩

lemma WillDrain.holder (h : WillDrain s) (hl : s.lock = some p) : ∃ m i, s.pc p = .reading m i := by
  obtain ⟨q, m, i, hq, hpc⟩ := h
  obtain rfl : q = p := Option.some.inj (hq.symm.trans hl)
  exact ⟨m, i, hpc⟩

lemma not_willWake (hl : s.lock = some p) (hpc : ∀ m i, s.pc p ≠ .writing m i) :
    ¬ WillWake s := by
  intro hw
  obtain ⟨⟨m, i, e⟩, -⟩ := hw.holder hl
  exact hpc m i e

lemma not_willDrain (hl : s.lock = some p) (hpc : ∀ m i, s.pc p ≠ .reading m i) :
    ¬ WillDrain s := by
  intro hd
  obtain ⟨m, i, e⟩ := hd.holder hl
  exact hpc m i e

lemma Woken.still_empty (h : Woken s) (hn : ¬ WillWake s) (hq : Sleeps s.tbl q nreadChan) :
    s.pi.writeopen = true ∧ (s.pi.ring.nread = s.pi.ring.nwrite ∨ WillWake t) :=
  ⟨(h.empty q hq).1, .inl ((h.empty q hq).2.resolve_right hn)⟩

lemma Woken.still_full (h : Woken s) (hn : ¬ WillDrain s) (hq : Sleeps s.tbl q nwriteChan) :
    s.pi.readopen = true ∧ (RingBuffer.full s.pi.ring ∨ WillDrain t) :=
  ⟨(h.full q hq).1, .inl ((h.full q hq).2.resolve_right hn)⟩

/-! ### What the rounds do -/

lemma pipewrite_woken (h : Woken s) (hl : s.lock = some p) (hpc : s.pc p = .writing m i) :
    Woken (pipewrite s p m i user) := by
  have hup : Up s p := h.up (by simp [hpc]) (by simp [hpc])
  have hnodrain : ¬ WillDrain s := not_willDrain hl (by simp [hpc])
  -- when the writer leaves with a wakeup, nobody sleeps on `&pi->nread`
  have hleave : Woken ((s.wakeup p nreadChan).release p) :=
    h.next hup rfl (fun q c hq => (sleeps_wakeup hq).1)
      (fun q hq _ => absurd hq (not_sleeps_wakeup hup.1)) fun q _ hq => h.still_full hnodrain hq
  unfold pipewrite
  split_ifs with h1 h2 h3
  · -- the reader is gone or the writer was killed: it has put nothing into the ring
    refine h.next hup rfl (fun q c hq => hq) (fun q _ hq => h.still_empty (fun hwake => ?_) hq)
      fun q _ hq => h.still_full hnodrain hq
    obtain ⟨-, hro, hk⟩ := hwake.holder hl
    rcases h2 with h2 | h2
    · rw [hro] at h2
      cases h2
    · exact hk h2
  · -- the ring is full
    push Not at h2
    have hro : s.pi.readopen = true := by simpa using h2.1
    refine ⟨fun q hq => ?_, fun q hq => ?_, fun q hq => ?_, fun q _ => ⟨hro, .inl h3⟩⟩
    · rcases sleeps_sleep hq with ⟨-, hc⟩ | ⟨hne, hq⟩
      · cases hc
      · exact absurd hq (not_sleeps_wakeup hup.1)
    · rcases sleeps_sleep hq with ⟨rfl, -⟩ | ⟨hne, hq⟩
      · exact ⟨m, i, update_self _ _ _⟩
      · obtain ⟨m', i', e⟩ := h.writer q (sleeps_wakeup hq).1
        exact ⟨m', i', (update_of_ne hne _ _).trans e⟩
    · rcases sleeps_sleep hq with ⟨-, hc⟩ | ⟨hne, hq⟩
      · cases hc
      · exact absurd hq (not_sleeps_wakeup hup.1)
  · cases user with
    | none => exact hleave
    | some ch =>
      obtain ⟨hro, hk⟩ := not_or.mp h2
      refine h.next hup rfl (fun q c hq => hq) (fun q _ hq' => ?_) (fun q _ hq' => ?_)
      · refine ⟨(h.empty q hq').1, .inr ⟨p, m, i + 1, hl, update_self _ _ _, ?_, hk⟩⟩
        simpa using hro
      · exact absurd ((h.full q hq').2.resolve_right hnodrain) h3
  · exact hleave

lemma pipereadWait_woken (h : Woken s) (hl : s.lock = some p) (hpc : s.pc p = .readWait m) :
    Woken (pipereadWait s p m) := by
  have hup : Up s p := h.up (by simp [hpc]) (by simp [hpc])
  have hnowake : ¬ WillWake s := not_willWake hl (by simp [hpc])
  have hnodrain : ¬ WillDrain s := not_willDrain hl (by simp [hpc])
  unfold pipereadWait
  split_ifs with h1 h2
  · exact h.next hup rfl (fun q c hq => hq) (fun q _ hq => h.still_empty hnowake hq)
      fun q _ hq => h.still_full hnodrain hq
  · refine ⟨fun q hq => ?_, fun q hq => ?_, fun q _ => ⟨h1.2, .inl h1.1⟩, fun q hq => ?_⟩
    · rcases sleeps_sleep hq with ⟨rfl, -⟩ | ⟨hne, hq⟩
      · exact ⟨m, update_self _ _ _⟩
      · obtain ⟨m', e⟩ := h.reader q hq
        exact ⟨m', (update_of_ne hne _ _).trans e⟩
    · rcases sleeps_sleep hq with ⟨-, hc⟩ | ⟨hne, hq⟩
      · cases hc
      · obtain ⟨m', i', e⟩ := h.writer q hq
        exact ⟨m', i', (update_of_ne hne _ _).trans e⟩
    · rcases sleeps_sleep hq with ⟨-, hc⟩ | ⟨hne, hq⟩
      · cases hc
      · exact h.still_full hnodrain hq
  · exact h.next hup rfl (fun q c hq => hq) (fun q _ hq => h.still_empty hnowake hq)
      fun q _ hq => h.still_full hnodrain hq

lemma pipereadCopy_woken (h : Woken s) (hl : s.lock = some p) (hpc : s.pc p = .reading m i) :
    Woken (pipereadCopy s p m i user) := by
  have hup : Up s p := h.up (by simp [hpc]) (by simp [hpc])
  have hnowake : ¬ WillWake s := not_willWake hl (by simp [hpc])
  unfold pipereadCopy
  dsimp only
  split_ifs with h1
  · -- a byte comes out, so nobody waits for one
    have hnone : ∀ q, ¬ Sleeps s.tbl q nreadChan := fun q hq =>
      h1.2 ((h.empty q hq).2.resolve_right hnowake)
    cases user with
    | none =>
      exact h.next hup rfl (fun q c hq => (sleeps_wakeup hq).1) (fun q _ hq => absurd hq (hnone q))
        fun q hq _ => absurd hq (not_sleeps_wakeup hup.2)
    | some _ =>
      exact h.next hup rfl (fun q c hq => hq) (fun q _ hq => absurd hq (hnone q)) fun q _ hq =>
        ⟨(h.full q hq).1, .inr ⟨p, m, i + 1, hl, update_self _ _ _⟩⟩
  · exact h.next hup rfl (fun q c hq => (sleeps_wakeup hq).1)
      (fun q _ hq => h.still_empty hnowake hq) fun q hq _ => absurd hq (not_sleeps_wakeup hup.2)

lemma pipeclose_woken {writable : Bool} (h : Woken s) (hl : s.lock = none) (hpc : s.pc p = .idle) :
    Woken (pipeclose s p writable) := by
  have hup : Up s p := h.up (by simp [hpc]) (by simp [hpc])
  have hsame : s.pc = update s.pc p (s.pc p) := (update_eq_self _ _).symm
  have hnowake : ¬ WillWake s := by
    rintro ⟨q, m, i, hq, -⟩
    rw [hl] at hq
    cases hq
  have hnodrain : ¬ WillDrain s := by
    rintro ⟨q, m, i, hq, -⟩
    rw [hl] at hq
    cases hq
  unfold pipeclose
  split_ifs with hw
  · exact h.next hup hsame (fun q c hq => (sleeps_wakeup hq).1)
      (fun q hq _ => absurd hq (not_sleeps_wakeup hup.1)) fun q _ hq => h.still_full hnodrain hq
  · exact h.next hup hsame (fun q c hq => (sleeps_wakeup hq).1)
      (fun q _ hq => h.still_empty hnowake hq) fun q hq _ => absurd hq (not_sleeps_wakeup hup.2)

/-! ### Runs -/

/-- A `kill` does not hit a process that is inside the loop of `pipewrite`. -/
def NoKillInLoop (s : State n) : Act n → Prop
  | .kill pid => ∀ p, scan (fun j => (s.tbl.procs j).pid = pid) = some p →
      ∀ m i, s.pc p ≠ .writing m i
  | _ => True

lemma Woken.enter (h : Woken s) (hl : s.lock = none) (hp : Up s p) {pc' : Pc}
    (hpi : t.pi = s.pi) (hpc : t.pc = update s.pc p pc')
    (hs : ∀ q c, Sleeps t.tbl q c → Sleeps s.tbl q c) : Woken t := by
  refine h.next hp hpc hs (fun q _ hq => ?_) fun q _ hq => ?_
  · obtain ⟨hwo, hor⟩ := h.empty q hq
    refine hpi ▸ ⟨hwo, .inl (hor.resolve_right ?_)⟩
    rintro ⟨r, m, i, hr, -⟩
    rw [hl] at hr
    cases hr
  · obtain ⟨hro, hor⟩ := h.full q hq
    refine hpi ▸ ⟨hro, .inl (hor.resolve_right ?_)⟩
    rintro ⟨r, m, i, hr, -⟩
    rw [hl] at hr
    cases hr

lemma kill_woken {pid : ℤ} (h : Woken s) (hg : NoKillInLoop s (.kill pid)) :
    Woken { s with tbl := (s.tbl.kkill pid).2 } := by
  refine ⟨fun q hq => h.reader q (sleeps_kkill hq), fun q hq => h.writer q (sleeps_kkill hq),
    fun q hq => ?_, fun q hq => h.full q (sleeps_kkill hq)⟩
  obtain ⟨hwo, hor⟩ := h.empty q (sleeps_kkill hq)
  refine ⟨hwo, hor.imp_right ?_⟩
  rintro ⟨r, m, i, hr, hpc, hro, hk⟩
  refine ⟨r, m, i, hr, hpc, hro, fun hk' => ?_⟩
  refine hg r (killed_kkill fun e => hk ?_) m i hpc
  rw [State.killed, ← e]
  exact hk'

lemma step_woken (h : Woken s) (hg : NoKillInLoop s a) (ht : step s a = some t) : Woken t := by
  cases a with
  | write p m =>
    simp only [step] at ht
    split_ifs at ht with hc
    cases ht
    have hup : Up s p := h.up (by simp [hc.2.2.1]) (by simp [hc.2.2.1])
    exact h.enter hc.1 hup rfl rfl fun _ _ hq => hq
  | read p m =>
    simp only [step] at ht
    split_ifs at ht with hc
    cases ht
    have hup : Up s p := h.up (by simp [hc.2.2.1]) (by simp [hc.2.2.1])
    exact h.enter hc.1 hup rfl rfl fun _ _ hq => hq
  | close p writable =>
    simp only [step] at ht
    split_ifs at ht with hc
    cases ht
    exact pipeclose_woken h hc.1 hc.2.2.1
  | turn p user =>
    simp only [step] at ht
    split_ifs at ht with hl
    split at ht
    · rename_i m i hpc
      cases ht
      exact pipewrite_woken h hl hpc
    · rename_i m hpc
      cases ht
      exact pipereadWait_woken h hl hpc
    · rename_i m i hpc
      cases ht
      exact pipereadCopy_woken h hl hpc
    · cases ht
  | resume p =>
    simp only [step] at ht
    split_ifs at ht with hc
    -- the process is RUNNABLE, so it has been woken
    have hup : Up s p := by
      refine ⟨fun hs => ?_, fun hs => ?_⟩ <;> exact absurd (hc.2.1.symm.trans hs.1) (by simp)
    split at ht
    · cases ht
      exact h.enter hc.1 hup rfl rfl fun _ _ hq => (sleeps_schedule hq).2
    · cases ht
      exact h.enter hc.1 hup rfl rfl fun _ _ hq => (sleeps_schedule hq).2
    · cases ht
  | kill pid =>
    cases ht
    exact kill_woken h hg

/-- **No wakeup is lost, as long as no writer is killed in its loop.** Whenever the lock is free,
a process sleeps on `&pi->nread` only if the pipe is empty and can still be written, and one on
`&pi->nwrite` only if it is full and can still be read. -/
theorem no_lost_wakeup (h : Reach step NoKillInLoop Start s) (hl : s.lock = none) :
    (∀ p, Sleeps s.tbl p nreadChan → s.pi.ring.nread = s.pi.ring.nwrite ∧ s.pi.writeopen = true) ∧
    ∀ p, Sleeps s.tbl p nwriteChan →
      s.pi.ring.nwrite = s.pi.ring.nread + BitVec.ofNat 32 PIPESIZE ∧ s.pi.readopen = true := by
  have hw : Woken s := h.invariant (fun _ => start_woken) fun _ _ _ hi hg ht => step_woken hi hg ht
  refine ⟨fun p hp => ?_, fun p hp => ?_⟩
  · obtain ⟨hwo, hor⟩ := hw.empty p hp
    refine ⟨hor.resolve_right ?_, hwo⟩
    rintro ⟨q, m, i, hq, -⟩
    rw [hl] at hq
    cases hq
  · obtain ⟨hro, hor⟩ := hw.full p hp
    refine ⟨hor.resolve_right ?_, hro⟩
    rintro ⟨q, m, i, hq, -⟩
    rw [hl] at hq
    cases hq

def oneWaits : List (Act 5) := [.read reader 1, .turn reader none]

theorem no_lost_wakeup_oneWaits : ∃ s, run step newPipe oneWaits = some s ∧
    Sleeps s.tbl reader nreadChan ∧ s.pi.ring.nread = s.pi.ring.nwrite := by
  have hrun : run step newPipe oneWaits = some _ := rfl
  have h₀ : Reach step NoKillInLoop Start newPipe := .init newPipe_start
  have hreach := (h₀.next (.read reader 1) trivial rfl).next (.turn reader none) trivial rfl
  exact ⟨_, hrun, ⟨rfl, rfl⟩, ((no_lost_wakeup hreach rfl).1 reader ⟨rfl, rfl⟩).1⟩

/-- A second process, pid 1, puts a byte into the ring and is killed before its next round. -/
def killedInLoop : List (Act 5) :=
  oneWaits ++ [.write writer 2, .turn writer (some 65), .kill 1, .turn writer none]

/-- **A writer killed in its loop leaves a reader asleep beside its byte.** -/
theorem killed_writer_loses_wakeup : ∃ s, run step newPipe killedInLoop = some s ∧
    Reach step Always Start s ∧ s.lock = none ∧ Sleeps s.tbl reader nreadChan ∧
    s.pi.ring.nread ≠ s.pi.ring.nwrite := by
  have hrun : run step newPipe killedInLoop = some _ := rfl
  exact ⟨_, hrun, Reach.of_run (.init newPipe_start) hrun, rfl, ⟨rfl, rfl⟩, by decide⟩

end Xv6.PipeWakeup
