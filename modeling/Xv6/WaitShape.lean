import Xv6.WaitModel

/-!
What a section of code can lead to, and how the place of a process in the code, its state
and the locks go together in every state that can be reached.
-/

namespace Xv6.WaitShape

open ProcModel hiding Act step
open WaitModel

variable {n : ℕ} {s s' : St n} {p j : Fin n}

/-! ### What a section can lead to -/

/-- A round of `wakeup` by `p` at slot `q`: it skips its own slot. -/
def Woken (s : St n) (p q : Fin n) (c : Option (Chan n)) (t : St n) : Prop :=
  q = p ∧ t = s ∨ s.locked q = false ∧ t = s.wakeSlot q c

/-- What a section that starts at a given place can lead to. -/
inductive Section (s : St n) (p : Fin n) : Pc n → St n → Prop
  | allocEnd {i : ℕ} : Section s p (.alloc i) (s.goto p .idle)
  | allocNext {i : ℕ} : Section s p (.alloc i) (s.goto p (.alloc (i + 1)))
  | allocFail {i : ℕ} {np : Fin n} (free : (s.proc np).state = .UNUSED) :
      Section s p (.alloc i) (((s.claim np).unclaim np).goto p .idle)
  | allocOk {i : ℕ} {np : Fin n} (free : (s.proc np).state = .UNUSED) :
      Section s p (.alloc i) ((s.claim np).goto p (.adopt np))
  | adopt {np : Fin n} (lock : s.waitLock = none) :
      Section s p (.adopt np) ((s.setParent np p).goto p (.start np))
  | start {np : Fin n} :
      Section s p (.start np) ((s.setProc np { s.proc np with state := .RUNNABLE }).goto p .idle)
  | killEnd {pid : ℤ} {i : ℕ} : Section s p (.kill pid i) (s.goto p .idle)
  | killNext {pid : ℤ} {i : ℕ} : Section s p (.kill pid i) (s.goto p (.kill pid (i + 1)))
  | killHit {pid : ℤ} {i : ℕ} {j : Fin n} :
      Section s p (.kill pid i) ((s.setProc j (St.killed (s.proc j))).goto p .idle)
  | exitBegin {st : ℤ} (lock : s.waitLock = none) :
      Section s p (.exit st) ({ s with waitLock := some p }.goto p (.reparent st 0))
  | reparentEnd {st : ℤ} {i : ℕ} (ended : n ≤ i) :
      Section s p (.reparent st i) (s.goto p (.wakeParent st (s.proc p).parent 0))
  | reparentNext {st : ℤ} {i : ℕ} {pp : Fin n} (slot : pp.val = i)
      (other : (s.proc pp).parent ≠ some p) :
      Section s p (.reparent st i) (s.goto p (.reparent st (i + 1)))
  | reparentPass {st : ℤ} {i : ℕ} {pp : Fin n} (slot : pp.val = i)
      (child : (s.proc pp).parent = some p) :
      Section s p (.reparent st i)
        ((s.setParent pp s.tbl.initproc).goto p (.wakeInit st i 0))
  | wakeInitEnd {st : ℤ} {i j : ℕ} (ended : n ≤ j) :
      Section s p (.wakeInit st i j) (s.goto p (.reparent st (i + 1)))
  | wakeInitNext {st : ℤ} {i j : ℕ} {q : Fin n} {t : St n} (slot : q.val = j)
      (woken : Woken s p q (some (.proc s.tbl.initproc)) t) :
      Section s p (.wakeInit st i j) (t.goto p (.wakeInit st i (j + 1)))
  | wakeParentNext {st : ℤ} {par : Option (Fin n)} {j : ℕ} {q : Fin n} {t : St n}
      (slot : q.val = j) (woken : Woken s p q (par.map .proc) t) :
      Section s p (.wakeParent st par j) (t.goto p (.wakeParent st par (j + 1)))
  | exitEnd {st : ℤ} {par : Option (Fin n)} {j : ℕ} (ended : n ≤ j) :
      Section s p (.wakeParent st par j) ((s.die p st).goto p .dying)
  | waitBegin (lock : s.waitLock = none) :
      Section s p .wait ({ s with waitLock := some p }.goto p (.scan 0 false))
  | scanEnd {j : ℕ} {havekids : Bool} (ended : n ≤ j) :
      Section s p (.scan j havekids) (s.goto p (.check havekids))
  | scanNext {j : ℕ} {havekids havekids' : Bool} {pp : Fin n} (slot : pp.val = j)
      (no : (s.proc pp).parent = some p → (s.proc pp).state ≠ .ZOMBIE) :
      Section s p (.scan j havekids) (s.goto p (.scan (j + 1) havekids'))
  | scanFail {j : ℕ} {havekids : Bool} : Section s p (.scan j havekids) (s.waitEnd p)
  | scanReap {j : ℕ} {havekids : Bool} {pp : Fin n} (child : (s.proc pp).parent = some p)
      (lock : s.locked pp = false) (zombie : (s.proc pp).state = .ZOMBIE) :
      Section s p (.scan j havekids) ((s.reap p pp).waitEnd p)
  | checkEnd {havekids : Bool} : Section s p (.check havekids) (s.waitEnd p)
  | checkSleep : Section s p (.check true) (s.goto p .presleep)
  | sleepBegin : Section s p .presleep
      ({ s.setLocked p true with waitLock := none }.goto p .falling)
  | sleepEnd : Section s p .falling (s.sleepEnd p)

lemma forkLook_section {i : ℕ} {memory : Bool} (h : s.forkLook p i memory = some s') :
    Section s p (.alloc i) s' := by
  unfold St.forkLook at h
  split at h
  · obtain rfl := Option.some.inj h; exact .allocEnd
  · split_ifs at h with hl hu hm
    · obtain rfl := Option.some.inj h; exact .allocNext
    · obtain rfl := Option.some.inj h; exact .allocOk (not_not.mp hu)
    · obtain rfl := Option.some.inj h; exact .allocFail (not_not.mp hu)

lemma killLook_section {pid : ℤ} {i : ℕ} (h : s.killLook p pid i = some s') :
    Section s p (.kill pid i) s' := by
  unfold St.killLook at h
  split at h
  · obtain rfl := Option.some.inj h; exact .killEnd
  · split_ifs at h
    · obtain rfl := Option.some.inj h; exact .killHit
    · obtain rfl := Option.some.inj h; exact .killNext

lemma reparentLook_section {st : ℤ} {i : ℕ} (h : s.reparentLook p st i = some s') :
    Section s p (.reparent st i) s' := by
  unfold St.reparentLook at h
  split at h
  · rename_i hs
    cases h
    exact .reparentEnd (slot_none hs)
  · rename_i pp hs
    split_ifs at h with hc
    · obtain rfl := Option.some.inj h; exact .reparentPass (slot_some hs) hc
    · obtain rfl := Option.some.inj h; exact .reparentNext (slot_some hs) hc

lemma woken_of_wakeLook {q : Fin n} {c : Option (Chan n)} {t : St n}
    (h : s.wakeLook p q c = some t) : Woken s p q c t := by
  unfold St.wakeLook at h
  split_ifs at h with hq hl
  · exact .inl ⟨hq, (Option.some.inj h).symm⟩
  · exact .inr ⟨by simpa using hl, (Option.some.inj h).symm⟩

lemma wakeInitLook_section {st : ℤ} {i j : ℕ} (h : s.wakeInitLook p st i j = some s') :
    Section s p (.wakeInit st i j) s' := by
  unfold St.wakeInitLook at h
  split at h
  · rename_i hs
    cases h
    exact .wakeInitEnd (slot_none hs)
  · rename_i q hs
    obtain ⟨t, ht, rfl⟩ := Option.map_eq_some_iff.mp h
    exact .wakeInitNext (slot_some hs) (woken_of_wakeLook ht)

lemma wakeParentLook_section {st : ℤ} {par : Option (Fin n)} {j : ℕ}
    (h : s.wakeParentLook p st par j = some s') : Section s p (.wakeParent st par j) s' := by
  unfold St.wakeParentLook at h
  split at h
  · rename_i hs
    unfold St.exitEnd at h
    split_ifs at h
    cases h
    exact .exitEnd (slot_none hs)
  · rename_i q hs
    obtain ⟨t, ht, rfl⟩ := Option.map_eq_some_iff.mp h
    exact .wakeParentNext (slot_some hs) (woken_of_wakeLook ht)

lemma scanLook_section {j : ℕ} {havekids copyout : Bool}
    (h : s.scanLook p j havekids copyout = some s') : Section s p (.scan j havekids) s' := by
  unfold St.scanLook at h
  split at h
  · rename_i hs
    cases h
    exact .scanEnd (slot_none hs)
  · rename_i pp hs
    split_ifs at h with hc hl hz hcopy
    · obtain rfl := Option.some.inj h; exact .scanFail
    · obtain rfl := Option.some.inj h; exact .scanReap hc (by simpa using hl) hz
    · obtain rfl := Option.some.inj h; exact .scanNext (slot_some hs) fun _ => hz
    · obtain rfl := Option.some.inj h; exact .scanNext (slot_some hs) fun e => absurd e hc

lemma waitCheck_section {havekids : Bool} (h : s.waitCheck p havekids = some s') :
    Section s p (.check havekids) s' := by
  unfold St.waitCheck at h
  split_ifs at h with hk hl hd
  · obtain rfl := Option.some.inj h; exact .checkEnd
  · obtain rfl := Option.some.inj h; exact .checkEnd
  · cases h
    obtain rfl : havekids = true := by simpa using hk
    exact .checkSleep

lemma go_section {b : Bool} (h : go s p b = some s') : Section s p (s.pc p) s' := by
  unfold go at h
  split at h <;> rename_i hpc <;> rw [hpc]
  · cases h
  · exact forkLook_section h
  · unfold St.forkAdopt at h
    split_ifs at h with hl
    cases h
    exact .adopt (not_not.mp hl)
  · unfold St.forkStart at h
    split_ifs at h
    cases h
    exact .start
  · exact killLook_section h
  · unfold St.exitBegin at h
    split_ifs at h with hl
    cases h
    exact .exitBegin (not_not.mp hl)
  · exact reparentLook_section h
  · exact wakeInitLook_section h
  · exact wakeParentLook_section h
  · cases h
  · unfold St.waitBegin at h
    split_ifs at h with hl
    cases h
    exact .waitBegin (not_not.mp hl)
  · exact scanLook_section h
  · exact waitCheck_section h
  · unfold St.sleepBegin at h
    split_ifs at h
    cases h
    exact .sleepBegin
  · cases h
    exact .sleepEnd
  · cases h

/-! ### Places, states and locks -/

def Allows : Pc n → ProcState → Prop
  | .idle, _ => True
  | .alloc _, x | .adopt _, x | .start _, x | .kill _ _, x | .exit _, x | .wait, x =>
    x = .RUNNING ∨ x = .RUNNABLE
  | .reparent _ _, x | .wakeInit _ _ _, x | .wakeParent _ _ _, x | .scan _ _, x
  | .check _, x | .presleep, x | .falling, x => x = .RUNNING
  | .dying, x => x = .ZOMBIE
  | .asleep, x => x = .SLEEPING ∨ x = .RUNNABLE

def Critical : Pc n → Prop
  | .reparent _ _ | .wakeInit _ _ _ | .wakeParent _ _ _ | .scan _ _ | .check _ | .presleep => True
  | _ => False

def holds : Pc n → Bool
  | .falling | .dying => true
  | _ => false

def Exiting : Pc n → Prop
  | .exit _ | .reparent _ _ | .wakeInit _ _ _ | .wakeParent _ _ _ | .dying => True
  | _ => False

structure SlotOk (s : St n) (i : Fin n) : Prop where
  allows : Allows (s.pc i) (s.proc i).state
  locked : s.locked i = holds (s.pc i)
  wait : s.waitLock = some i ↔ Critical (s.pc i)
  chan : s.pc i = .asleep → (s.proc i).state = .SLEEPING → (s.proc i).chan = some (.proc i)
  init : i = s.tbl.initproc → ¬ Exiting (s.pc i)

def Shape (s : St n) : Prop := ∀ i, SlotOk s i

lemma Shape.congr (h : Shape s) (hprocs : s'.tbl.procs = s.tbl.procs)
    (hinit : s'.tbl.initproc = s.tbl.initproc) (hpc : s'.pc = s.pc)
    (hwait : s'.waitLock = s.waitLock) (hlocked : s'.locked = s.locked) : Shape s' := by
  intro i
  obtain ⟨h1, h2, h3, h4, h5⟩ := h i
  exact ⟨by rw [hpc, St.proc, hprocs]; exact h1, by rw [hpc, hlocked]; exact h2,
    by rw [hpc, hwait]; exact h3, by rw [hpc, St.proc, hprocs]; exact h4,
    by rw [hpc, hinit]; exact h5⟩

lemma Shape.critical_unique (h : Shape s) {q : Fin n} (hp : Critical (s.pc p))
    (hq : Critical (s.pc q)) : p = q := by
  have h1 := (h p).wait.mpr hp
  have h2 := (h q).wait.mpr hq
  exact Option.some.inj (h1.symm.trans h2)

lemma Shape.idle_of_unused (h : Shape s) (hs : (s.proc p).state = .UNUSED) : s.pc p = .idle := by
  have := (h p).allows
  rw [hs] at this
  cases hc : s.pc p <;> simp_all [Allows]

lemma Shape.idle_of_used (h : Shape s) (hs : (s.proc p).state = .USED) : s.pc p = .idle := by
  have := (h p).allows
  rw [hs] at this
  cases hc : s.pc p <;> simp_all [Allows]

lemma Shape.idle_of_zombie (h : Shape s) (hs : (s.proc p).state = .ZOMBIE)
    (hl : s.locked p = false) : s.pc p = .idle := by
  have h1 := (h p).allows
  have h2 : holds (s.pc p) = false := by rw [← (h p).locked, hl]
  rw [hs] at h1
  generalize s.pc p = c at h1 h2
  cases c <;> simp_all [Allows, holds]

/-! ### What a step may change -/

lemma Shape.goto {s₁ : St n} {c : Pc n} (h : Shape s)
    (hinit : s₁.tbl.initproc = s.tbl.initproc) (hpc : s₁.pc = s.pc)
    (hproc : ∀ i, i ≠ j → s₁.proc i = s.proc i)
    (hlocked : ∀ i, i ≠ p → s₁.locked i = s.locked i)
    (hwait : ∀ i, i ≠ p → (s₁.waitLock = some i ↔ s.waitLock = some i))
    (hp : SlotOk (s₁.goto p c) p)
    (hj : j ≠ p → Allows (s.pc j) (s₁.proc j).state ∧ (s.pc j = .asleep →
      (s₁.proc j).state = .SLEEPING → (s₁.proc j).chan = some (.proc j))) :
    Shape (s₁.goto p c) := by
  intro i
  by_cases hip : i = p
  · exact hip ▸ hp
  have hi := h i
  have hpci : (s₁.goto p c).pc i = s.pc i := by rw [St.goto_pc_ne _ _ hip, hpc]
  have hlock : (s₁.goto p c).locked i = holds ((s₁.goto p c).pc i) := by
    rw [hpci, ← hi.locked]; exact hlocked i hip
  have hw : (s₁.goto p c).waitLock = some i ↔ Critical ((s₁.goto p c).pc i) := by
    rw [hpci, ← hi.wait]; exact hwait i hip
  have hin : i = (s₁.goto p c).tbl.initproc → ¬ Exiting ((s₁.goto p c).pc i) := by
    rw [hpci]; intro e; exact hi.init (e.trans hinit)
  by_cases hij : i = j
  · subst hij
    obtain ⟨h1, h2⟩ := hj hip
    exact ⟨by rw [hpci]; exact h1, hlock, hw, by rw [hpci]; exact h2, hin⟩
  · have hpr : (s₁.goto p c).proc i = s.proc i := hproc i hij
    exact ⟨by rw [hpci, hpr]; exact hi.allows, hlock, hw, by rw [hpci, hpr]; exact hi.chan, hin⟩

lemma slotOk_running {s₁ : St n} {c : Pc n} (hr : (s₁.proc p).state = .RUNNING)
    (ha : Allows c .RUNNING) (hl : s₁.locked p = holds c)
    (hw : s₁.waitLock = some p ↔ Critical c) (hin : p = s₁.tbl.initproc → ¬ Exiting c) :
    SlotOk (s₁.goto p c) p := by
  refine ⟨?_, ?_, ?_, ?_, ?_⟩
  · rw [St.goto_pc_self, St.proc, St.goto_tbl, hr]; exact ha
  · rw [St.goto_pc_self, St.goto_locked, hl]
  · rw [St.goto_pc_self, St.goto_waitLock, hw]
  · intro _ hs
    rw [St.proc, St.goto_tbl, hr] at hs
    cases hs
  · rw [St.goto_pc_self]; exact hin

lemma Shape.goto_running {c : Pc n} (h : Shape s) (hr : (s.proc p).state = .RUNNING)
    (ha : Allows c .RUNNING) (hl : holds c = holds (s.pc p))
    (hw : Critical c ↔ Critical (s.pc p)) (hin : p = s.tbl.initproc → ¬ Exiting c) :
    Shape (s.goto p c) := by
  refine h.goto (j := p) rfl rfl (fun _ _ => rfl) (fun _ _ => rfl) (fun _ _ => Iff.rfl) ?_
    (fun hne => absurd rfl hne)
  exact slotOk_running hr ha ((h p).locked.trans hl.symm) ((h p).wait.trans hw.symm) hin

lemma Shape.setProc {x : Proc n} (h : Shape s) (ha : Allows (s.pc j) x.state)
    (hc : s.pc j = .asleep → x.state = .SLEEPING → x.chan = some (.proc j)) :
    Shape (s.setProc j x) := by
  intro i
  have hi := h i
  by_cases hij : i = j
  · subst hij
    exact ⟨by rw [St.setProc_self]; exact ha, hi.locked, hi.wait,
      by rw [St.setProc_self]; exact hc, hi.init⟩
  · have hpr := St.setProc_ne s x hij
    exact ⟨by rw [hpr]; exact hi.allows, hi.locked, hi.wait, by rw [hpr]; exact hi.chan, hi.init⟩

lemma Shape.wake (h : Shape s) {x : Proc n} (hs : (s.proc j).state = .SLEEPING)
    (hx : x.state = .RUNNABLE) : Shape (s.setProc j x) := by
  refine h.setProc ?_ (by simp [hx])
  have := (h j).allows
  rw [hs] at this
  rw [hx]
  cases hc : s.pc j <;> simp_all [Allows]

/-! ### The steps -/

/-- What a step of a running process starts from. -/
structure At (s : St n) (p : Fin n) (c : Pc n) : Prop where
  shape : Shape s
  running : (s.proc p).state = .RUNNING
  pc : s.pc p = c

lemma At.locked {c : Pc n} (h : At s p c) : s.locked p = holds c := by
  rw [(h.shape p).locked, h.pc]

lemma At.wait {c : Pc n} (h : At s p c) : s.waitLock = some p ↔ Critical c := by
  rw [(h.shape p).wait, h.pc]

lemma At.init {c : Pc n} (h : At s p c) (hi : p = s.tbl.initproc) : ¬ Exiting c := by
  rw [← h.pc]; exact (h.shape p).init hi

lemma At.goto {c d : Pc n} (h : At s p c) (ha : Allows d .RUNNING) (hl : holds d = holds c)
    (hw : Critical d ↔ Critical c) (hin : Exiting d → Exiting c) : Shape (s.goto p d) :=
  h.shape.goto_running h.running ha (by rw [h.pc, hl]) (by rw [h.pc, hw])
    fun hi hd => h.init hi (hin hd)

lemma At.wakeSlot {c : Pc n} (h : At s p c) (q : Fin n) (chan : Option (Chan n)) :
    At (s.wakeSlot q chan) p c := by
  unfold St.wakeSlot
  split_ifs with hw
  · refine ⟨h.shape.wake hw.1 rfl, ?_, h.pc⟩
    have hne : p ≠ q := by rintro rfl; rw [h.running] at hw; cases hw.1
    rw [St.setProc_ne _ _ hne]
    exact h.running
  · exact h

lemma At.woken {c : Pc n} (h : At s p c) {q : Fin n} {chan : Option (Chan n)} {t : St n}
    (hw : Woken s p q chan t) : At t p c := by
  rcases hw with ⟨-, rfl⟩ | ⟨-, rfl⟩
  · exact h
  · exact h.wakeSlot q chan

lemma At.setProc {c : Pc n} (h : At s p c) {x : Proc n} (hx : x.state = (s.proc j).state)
    (hc : x.chan = (s.proc j).chan) : At (s.setProc j x) p c := by
  refine ⟨h.shape.setProc (hx ▸ (h.shape j).allows) ?_, ?_, h.pc⟩
  · rw [hx, hc]
    exact (h.shape j).chan
  · by_cases e : p = j
    · subst e
      rw [St.setProc_self, hx]
      exact h.running
    · rw [St.setProc_ne _ _ e]
      exact h.running

lemma At.setParent {c : Pc n} (h : At s p c) (pp q : Fin n) : At (s.setParent pp q) p c :=
  have h1 := h.setProc (j := pp) (x := { s.proc pp with parent := some q }) rfl rfl
  ⟨h1.shape.congr rfl rfl rfl rfl rfl, h1.running, h1.pc⟩

lemma At.kill {c : Pc n} (h : At s p c) (j : Fin n) :
    At (s.setProc j (St.killed (s.proc j))) p c := by
  unfold St.killed
  split_ifs with hs
  · refine ⟨h.shape.wake hs rfl, ?_, h.pc⟩
    have hne : p ≠ j := by rintro rfl; rw [h.running] at hs; cases hs
    rw [St.setProc_ne _ _ hne]
    exact h.running
  · exact h.setProc rfl rfl

lemma At.setProc_idle {c : Pc n} (h : At s p c) (hj : s.pc j = .idle) (hne : p ≠ j) (x : Proc n) :
    At (s.setProc j x) p c := by
  refine ⟨h.shape.setProc (by rw [hj]; trivial) (by simp [hj]), ?_, h.pc⟩
  rw [St.setProc_ne _ _ hne]
  exact h.running

lemma At.claim {c : Pc n} (h : At s p c) {np : Fin n} (hfree : (s.proc np).state = .UNUSED) :
    At (s.claim np) p c := by
  have hne : p ≠ np := by rintro rfl; rw [h.running] at hfree; cases hfree
  have h1 := h.setProc_idle (h.shape.idle_of_unused hfree) hne
    { s.proc np with pid := s.tbl.nextpid, state := .USED }
  exact ⟨h1.shape.congr rfl rfl rfl rfl rfl, h1.running, h1.pc⟩

lemma At.unclaim {c : Pc n} (h : At s p c) {np : Fin n} (hj : s.pc np = .idle) (hne : p ≠ np) :
    At (s.unclaim np) p c := by
  have h1 := h.setProc_idle hj hne { s.proc np with
    pid := 0, parent := none, chan := none, killed := 0, xstate := 0, state := .UNUSED }
  exact ⟨h1.shape.congr rfl rfl rfl rfl rfl, h1.running, h1.pc⟩

lemma At.take {c d : Pc n} (h : At s p c) (hlock : s.waitLock = none) (ha : Allows d .RUNNING)
    (hl : holds d = holds c) (hw : Critical d) (hin : Exiting d → Exiting c) :
    Shape ({ s with waitLock := some p }.goto p d) := by
  refine h.shape.goto (j := p) rfl rfl (fun _ _ => rfl) (fun _ _ => rfl) ?_ ?_
    (fun hne => absurd rfl hne)
  · intro i hi
    simp [hlock, Ne.symm hi]
  · exact slotOk_running h.running ha (h.locked.trans hl.symm) (by simpa using hw)
      fun hi hd => h.init hi (hin hd)

lemma At.waitEnd {c : Pc n} (h : At s p c) (hcrit : Critical c) (hl : holds c = false) :
    Shape (s.waitEnd p) := by
  have hown := h.wait.mpr hcrit
  refine h.shape.goto (j := p) rfl rfl (fun _ _ => rfl) (fun _ _ => rfl) ?_ ?_
    (fun hne => absurd rfl hne)
  · intro i hi
    simp [hown, Ne.symm hi]
  · exact slotOk_running h.running trivial (h.locked.trans hl) (by simp [Critical])
      fun _ => id

lemma At.die {c : Pc n} (h : At s p c) (hcrit : Critical c) (hex : Exiting c) (status : ℤ) :
    Shape ((s.die p status).goto p .dying) := by
  have hown := h.wait.mpr hcrit
  refine h.shape.goto (j := p) rfl rfl (fun i hi => St.setProc_ne _ _ hi)
    (fun i hi => St.setLocked_ne _ _ hi) ?_ ?_ (fun hne => absurd rfl hne)
  · intro i hi
    simp [St.die, hown, Ne.symm hi]
  · refine ⟨?_, ?_, ?_, ?_, ?_⟩
    · simp [St.die, St.proc, St.setProc, Allows]
    · simp [St.die, holds]
    · simp [St.die, Critical]
    · simp
    · exact fun hi => absurd hex (h.init hi)

lemma At.sleepBegin (h : At s p .presleep) :
    Shape ({ s.setLocked p true with waitLock := none }.goto p .falling) := by
  have hown := h.wait.mpr trivial
  refine h.shape.goto (j := p) rfl rfl (fun _ _ => rfl) (fun i hi => St.setLocked_ne _ _ hi) ?_ ?_
    (fun hne => absurd rfl hne)
  · intro i hi
    simp [hown, Ne.symm hi]
  · exact slotOk_running h.running rfl (by simp [holds]) (by simp [Critical]) fun _ => id

lemma At.sleepEnd (h : At s p .falling) : Shape (s.sleepEnd p) := by
  refine h.shape.goto (j := p) rfl rfl (fun i hi => St.setProc_ne _ _ hi)
    (fun i hi => St.setLocked_ne _ _ hi) (fun _ _ => Iff.rfl) ?_ (fun hne => absurd rfl hne)
  refine ⟨?_, ?_, ?_, ?_, ?_⟩
  · simp [St.proc, St.setProc, Allows]
  · simp [holds]
  · simp only [St.goto_pc_self, St.goto_waitLock]
    exact h.wait
  · simp [St.proc, St.setProc]
  · simp [Exiting]

lemma section_shape {c : Pc n} (h : At s p c)
    (hchild : ∀ np, c = .start np → (s.proc np).state = .USED) (hs : Section s p c s') :
    Shape s' := by
  cases hs with
  | allocEnd | killEnd => exact h.goto trivial rfl Iff.rfl id
  | allocNext | killNext => exact h.goto (.inl rfl) rfl Iff.rfl id
  | reparentEnd _ | reparentNext _ _ | wakeInitEnd _ | scanEnd _ | scanNext _ _ | checkSleep =>
    exact h.goto rfl rfl Iff.rfl id
  | exitBegin lock | waitBegin lock => exact h.take lock rfl rfl trivial id
  | scanFail | checkEnd => exact h.waitEnd trivial rfl
  | allocFail free =>
    rename_i i np
    have hne : p ≠ np := by rintro rfl; rw [h.running] at free; cases free
    have hidle : (s.claim np).pc np = .idle := h.shape.idle_of_unused free
    exact ((h.claim free).unclaim hidle hne).goto trivial rfl Iff.rfl id
  | allocOk free => exact (h.claim free).goto (.inl rfl) rfl Iff.rfl id
  | adopt lock => exact (h.setParent _ _).goto (.inl rfl) rfl Iff.rfl id
  | start =>
    rename_i np
    have hu := hchild np rfl
    have hne : p ≠ np := by rintro rfl; rw [h.running] at hu; cases hu
    exact (h.setProc_idle (h.shape.idle_of_used hu) hne _).goto trivial rfl Iff.rfl id
  | killHit => exact (h.kill _).goto trivial rfl Iff.rfl id
  | reparentPass slot child => exact (h.setParent _ _).goto rfl rfl Iff.rfl id
  | wakeInitNext slot woken | wakeParentNext slot woken =>
    exact (h.woken woken).goto rfl rfl Iff.rfl id
  | exitEnd ended => exact h.die trivial trivial _
  | scanReap child lock zombie =>
    rename_i j havekids pp
    have hne : p ≠ pp := by rintro rfl; rw [h.running] at zombie; cases zombie
    have h1 := h.unclaim (h.shape.idle_of_zombie zombie lock) hne
    have h2 : At (s.reap p pp) p (.scan j havekids) :=
      ⟨h1.shape.congr rfl rfl rfl rfl rfl, h1.running, h1.pc⟩
    exact h2.waitEnd trivial rfl
  | sleepBegin => exact h.sleepBegin
  | sleepEnd => exact h.sleepEnd

/-! ### The other steps -/

lemma Shape.set_idle (h : Shape s) (hp : s.pc p = .idle) (x : Proc n) :
    Shape { s with tbl := s.tbl.set p x } :=
  h.setProc (by rw [hp]; trivial) (by simp [hp])

lemma yield_shape (h : Shape s)
    (hpre : (s.pc p).preemptible = true) : Shape { s with tbl := s.tbl.yield p } := by
  refine h.setProc ?_ (by simp)
  cases hc : s.pc p <;> simp_all [Allows, Pc.preemptible]

lemma schedule_shape (h : Shape s) (hl : s.locked p = false) (hr : (s.proc p).state = .RUNNABLE) :
    Shape ({ s with tbl := s.tbl.schedule p }.goto p (s.pc p).resume) := by
  have hp := h p
  have hres : Allows (s.pc p).resume .RUNNING ∧ holds (s.pc p).resume = false ∧
      (Critical (s.pc p).resume ↔ Critical (s.pc p)) ∧
      (Exiting (s.pc p).resume → Exiting (s.pc p)) := by
    have h1 := hp.allows
    have h2 : holds (s.pc p) = false := by rw [← hp.locked, hl]
    rw [hr] at h1
    clear hp
    generalize s.pc p = c at h1 h2
    cases c <;> simp_all [Allows, Pc.resume, holds, Critical, Exiting]
  obtain ⟨h1, h2, h3, h4⟩ := hres
  refine h.goto (j := p) rfl rfl (fun i hi => Table.set_procs_ne _ hi _) (fun _ _ => rfl)
    (fun _ _ => Iff.rfl) ?_ (fun hne => absurd rfl hne)
  exact slotOk_running (by simp [St.proc, Table.schedule]) h1 (hl.trans h2.symm)
    (hp.wait.trans h3.symm) fun hi he => hp.init hi (h4 he)

lemma swtch_shape (h : Shape s) (hd : s.pc p = .dying) :
    Shape ((s.setLocked p false).goto p .idle) := by
  have hp := h p
  refine h.goto (j := p) rfl rfl (fun _ _ => rfl) (fun i hi => St.setLocked_ne _ _ hi)
    (fun _ _ => Iff.rfl) ?_ (fun hne => absurd rfl hne)
  refine ⟨?_, ?_, ?_, ?_, ?_⟩
  · simp [Allows]
  · simp [holds]
  · have := hp.wait
    rw [hd] at this
    simpa [Critical, St.setLocked] using this
  · simp
  · simp [Exiting]

lemma call_shape (h : Shape s) (hr : (s.proc p).state = .RUNNING) (hi : s.pc p = .idle)
    {c : Pc n} (hc : Callable s p c) : Shape (s.goto p c) := by
  refine h.goto_running hr ?_ ?_ ?_ ?_
  all_goals rw [hi] at *
  all_goals cases c <;> simp_all [Callable, Allows, holds, Critical, Exiting]

lemma step_shape (h : Shape s) (hchild : ∀ p np, s.pc p = .start np → (s.proc np).state = .USED)
    {a : Act n} (hs : step s a = some s') : Shape s' := by
  cases a with
  | call p c =>
    simp only [step] at hs
    split_ifs at hs with hc
    cases hs
    exact call_shape h hc.1 hc.2.1 hc.2.2
  | go p b =>
    simp only [step] at hs
    split_ifs at hs with hr
    exact section_shape ⟨h, hr, rfl⟩ (hchild p) (go_section hs)
  | swtch p =>
    simp only [step] at hs
    split_ifs at hs with hd
    cases hs
    exact swtch_shape h hd
  | schedule p =>
    simp only [step] at hs
    split_ifs at hs with hc
    cases hs
    exact schedule_shape h hc.1 hc.2
  | yield p =>
    simp only [step] at hs
    split_ifs at hs with hc
    cases hs
    exact yield_shape h hc.2.2
  | sleep p c =>
    simp only [step] at hs
    split_ifs at hs with hc
    cases hs
    exact h.set_idle hc.2.2 _
  | wake i c =>
    simp only [step] at hs
    split_ifs at hs with hc
    cases hs
    unfold St.wakeSlot
    split_ifs with hw
    · exact h.wake hw.1 rfl
    · exact h
  | setkilled p =>
    simp only [step] at hs
    split_ifs at hs with hc
    cases hs
    exact h.set_idle hc.2.2 _

lemma boot_proc_self (i : Fin n) : (boot i).proc i = ⟨.RUNNABLE, none, 0, 0, 1, none⟩ := by
  simp [boot, userinit, St.proc]

lemma boot_proc_ne {i k : Fin n} (h : k ≠ i) : (boot i).proc k = Proc.zero := by
  simp [boot, userinit, St.proc, h]

lemma boot_shape (i : Fin n) : Shape (boot i) := by
  intro k
  exact ⟨trivial, rfl, iff_of_false nofun id, nofun, fun _ => id⟩

end Xv6.WaitShape
