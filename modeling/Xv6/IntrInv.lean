import Xv6.IntrModel

/-!
What every thread knows about the CPU that runs it, and the invariant that ties it to the
state.

A process that waits for its CPU has left the lock of its own that it holds to the scheduler,
and gets it back, held by some CPU, when it is switched to.
-/

namespace Xv6.Intr

open Threads
open Function (update update_self update_of_ne update_eq_self)
open ProcModel (ProcState)

variable {m n : ℕ} {K : Type}

/-! ### Views -/

/-- Where a thread is. A process runs, leaves (its state is changed), is ready to switch with
the `intena` that it has read, is parked, and is back but has not restored `intena`; it is fresh
before its first run. A scheduler has chosen a process, hands the CPU to it, and is away. -/
inductive Place (n : ℕ)
  | run
  | leaving
  | ready (r : Bool)
  | parked (r : Bool)
  | back (r : Bool)
  | fresh
  | chosen (q : Fin n)
  | handing (q : Fin n)
  | away (q : Fin n)

/-- What a thread knows, for the CPU that runs it: its own `push_off`s, the locks that the CPU
holds, the interrupt enable bit if it has just read it, and the state of a process whose lock
it holds. -/
structure View (n : ℕ) (K : Type) where
  pushed : ℕ
  own : Finset (Lock n K)
  old : Option Bool
  place : Place n
  saw : Option (Fin n × ProcState)

def view (k : ℕ) (O : Finset (Lock n K)) (pl : Place n) : View n K := ⟨k, O, none, pl, none⟩

lemma view_old {k : ℕ} {O : Finset (Lock n K)} {pl : Place n} {b : Bool}
    (h : (view k O pl).old = some b) : False := Option.some_ne_none b h.symm

lemma view_saw {k : ℕ} {O : Finset (Lock n K)} {pl : Place n} {z : Fin n × ProcState}
    (h : (view k O pl).saw = some z) : False := Option.some_ne_none z h.symm

def read (k : ℕ) (O : Finset (Lock n K)) (pl : Place n) (b : Bool) : View n K :=
  ⟨k, O, some b, pl, none⟩

/-- The state of a process has just been read, under its lock. -/
def seen (k : ℕ) (O : Finset (Lock n K)) (q : Fin n) (x : ProcState) : View n K :=
  ⟨k, O, none, .run, some (q, x)⟩

def Place.settled : Place n → Prop
  | .run | .leaving => True
  | _ => False

lemma settled_run : (Place.run : Place n).settled := trivial

lemma settled_leaving : (Place.leaving : Place n).settled := trivial

/-! ### The invariant -/

variable [Fintype K]

structure Here (s : St m n K) (c : Fin m) (t : Thread m n) (g : View n K) : Prop where
  noff : (s.cpu c).noff = g.own.card + g.pushed
  off : 0 < (s.cpu c).noff → (s.cpu c).sie = false
  own : heldOn s c = g.own
  old : ∀ b, g.old = some b → (s.cpu c).sie = b
  saw : ∀ q x, g.saw = some (q, x) → plock q ∈ g.own ∧ s.state q = x
  intena : ∀ p, t = .proc p → g.place.settled → 0 < (s.cpu c).noff →
    ∀ b, s.base t = some b → (s.cpu c).intena = b

def Runs (s : St m n K) (p : Fin n) : Prop := ∃ c, s.cur c = some p

def Saved (s : St m n K) (p : Fin n) (r : Bool) : Prop := ∀ b, s.base (.proc p) = some b → b = r

/-- The view fits the rest of the state, whether or not the thread runs. -/
def Placed (s : St m n K) : Thread m n → View n K → Prop
  | .proc p, g =>
    match g.place with
    | .run => Runs s p ∧ s.state p = .RUNNING
    | .leaving => Runs s p ∧ plock p ∈ g.own
    | .ready r => Runs s p ∧ plock p ∈ g.own ∧ Saved s p r
    | .parked r => g = view 0 {plock p} (.parked r) ∧ Saved s p r ∧
        (Runs s p → s.state p = .RUNNING)
    | .back r => Runs s p ∧ plock p ∈ g.own ∧ Saved s p r ∧ s.state p = .RUNNING
    | .fresh => g = view 0 {plock p} .fresh ∧ s.base (.proc p) = none ∧
        (Runs s p → s.state p = .RUNNING)
    | _ => False
  | .sched c, g =>
    match g.place with
    | .run => s.cur c = none ∧ (s.cpu c).proc = none
    | .chosen q => g = view 0 {plock q} (.chosen q) ∧ s.cur c = none ∧ (s.cpu c).proc = none ∧
        s.state q = .RUNNING ∧ ¬ Runs s q
    | .handing q => g = view 0 {plock q} (.handing q) ∧ s.cur c = none ∧
        (s.cpu c).proc = some q ∧ s.state q = .RUNNING ∧ ¬ Runs s q
    | .away q => g = view 0 {plock q} (.away q) ∧ (s.cpu c).proc = some q ∧
        (s.cur c = none ∨ s.cur c = some q)
    | _ => False

structure Inv (s : St m n K) (Γ : Thread m n → View n K) : Prop where
  here : ∀ c, Here s c (running s c) (Γ (running s c))
  pushed : ∀ t, s.pushed t = (Γ t).pushed
  once : ∀ c c' p, s.cur c = some p → s.cur c' = some p → c = c'
  placed : ∀ t, Placed s t (Γ t)

variable {s s' : St m n K} {Γ : Thread m n → View n K} {c : Fin m} {t : Thread m n}
  {g : View n K} {p q : Fin n} {k : ℕ} {O : Finset (Lock n K)} {pl : Place n}

/-! ### Who runs where -/

omit [Fintype K] in
lemma running_proc : running s c = .proc p ↔ s.cur c = some p := by
  unfold running
  cases s.cur c <;> simp

omit [Fintype K] in
lemma running_sched {d : Fin m} : running s c = .sched d ↔ s.cur c = none ∧ c = d := by
  unfold running
  cases s.cur c <;> simp

omit [Fintype K] in
lemma running_congr (h : s'.cur = s.cur) (c : Fin m) : running s' c = running s c := by
  unfold running
  rw [h]

lemma mem_heldOn {l : Lock n K} :
    l ∈ heldOn s c ↔ (s.lock l).locked = true ∧ (s.lock l).cpu = some c := by
  simp [heldOn]

lemma heldOn_unique {l : Lock n K} {c' : Fin m} (h : l ∈ heldOn s c) (h' : l ∈ heldOn s c') :
    c = c' := by
  rw [mem_heldOn] at h h'
  exact Option.some.inj (h.2.symm.trans h'.2)

lemma Inv.running_inj (hi : Inv s Γ) {c' : Fin m} (h : running s c = running s c') : c = c' := by
  cases hc : s.cur c with
  | none =>
    have : running s c = .sched c := running_sched.mpr ⟨hc, rfl⟩
    exact (running_sched.mp (h.symm.trans this)).2.symm
  | some p =>
    have hp : running s c = .proc p := running_proc.mpr hc
    exact hi.once c c' p hc (running_proc.mp (h.symm.trans hp))

lemma Inv.running_ne (hi : Inv s Γ) (ht : running s c = t) {c' : Fin m} (hc : c' ≠ c) :
    running s c' ≠ t := fun h => hc (hi.running_inj (h.trans ht.symm))

lemma Inv.away (hi : Inv s Γ) (h : s.cur c = some p) :
    Γ (.sched c) = view 0 {plock p} (.away p) ∧ (s.cpu c).proc = some p := by
  have hp := hi.placed (.sched c)
  simp only [Placed] at hp
  split at hp
  · exact absurd (hp.1.symm.trans h) (by simp)
  · exact absurd (hp.2.1.symm.trans h) (by simp)
  · exact absurd (hp.2.1.symm.trans h) (by simp)
  · rename_i q _
    obtain ⟨hg, hproc, hcur⟩ := hp
    obtain rfl : p = q := by simpa [h] using hcur
    exact ⟨hg, hproc⟩
  · exact hp.elim

lemma Inv.busy (hi : Inv s Γ) (h : s.cur c = some p) :
    s.state p = .RUNNING ∨ plock p ∈ heldOn s c := by
  have hr : Runs s p := ⟨c, h⟩
  have hh := (hi.here c).own
  rw [running_proc.mpr h] at hh
  rw [hh]
  have hp := hi.placed (.proc p)
  simp only [Placed] at hp
  split at hp
  · exact .inl hp.2
  · exact .inr hp.2
  · exact .inr hp.2.1
  · exact .inl (hp.2.2 hr)
  · exact .inl hp.2.2.2
  · exact .inl (hp.2.2 hr)
  · exact hp.elim

/-! ### Steps on a CPU of its own -/

/-- The step of the thread `t` on the CPU `c` leaves everything else alone. -/
structure Local (s s' : St m n K) (c : Fin m) (t : Thread m n) : Prop where
  cur : s'.cur = s.cur
  state : s'.state = s.state
  cpu : ∀ c', c' ≠ c → s'.cpu c' = s.cpu c'
  held : ∀ c', c' ≠ c → heldOn s' c' = heldOn s c'
  proc : ∀ c', t ≠ .sched c' → (s'.cpu c').proc = (s.cpu c').proc
  pushed : ∀ t', t' ≠ t → s'.pushed t' = s.pushed t'
  base : ∀ t', t' ≠ t → s'.base t' = s.base t'

lemma Local.refl (s : St m n K) (c : Fin m) (t : Thread m n) : Local s s c t :=
  ⟨rfl, rfl, fun _ _ => rfl, fun _ _ => rfl, fun _ _ => rfl, fun _ _ => rfl, fun _ _ => rfl⟩

omit [Fintype K] in
lemma runs_congr (h : s'.cur = s.cur) (p : Fin n) : Runs s' p ↔ Runs s p := by
  unfold Runs
  rw [h]

omit [Fintype K] in
lemma Placed.congr_proc (h : Placed s (.proc p) g) (hr : Runs s' p ↔ Runs s p)
    (hst : s'.state p = s.state p) (hbase : s'.base (.proc p) = s.base (.proc p)) :
    Placed s' (.proc p) g := by
  have hsave (r : Bool) : Saved s' p r ↔ Saved s p r := by rw [Saved, Saved, hbase]
  simpa only [Placed, hr, hst, hsave, hbase] using h

omit [Fintype K] in
lemma Placed.congr_sched (h : Placed s (.sched c) g) (hcur : s'.cur c = s.cur c)
    (hproc : (s'.cpu c).proc = (s.cpu c).proc) (hst : s'.state = s.state)
    (hr : ∀ q, s.cur c = none → g.own = {plock q} → Runs s' q → Runs s q) :
    Placed s' (.sched c) g := by
  simp only [Placed, hcur, hproc, hst] at h ⊢
  split at h
  · exact h
  · exact ⟨h.1, h.2.1, h.2.2.1, h.2.2.2.1,
      fun hq => h.2.2.2.2 (hr _ h.2.1 (by rw [h.1]; rfl) hq)⟩
  · exact ⟨h.1, h.2.1, h.2.2.1, h.2.2.2.1,
      fun hq => h.2.2.2.2 (hr _ h.2.1 (by rw [h.1]; rfl) hq)⟩
  · exact h
  · exact h

omit [Fintype K] in
lemma Placed.congr (h : Placed s t g) (hcur : s'.cur = s.cur) (hst : s'.state = s.state)
    (hproc : ∀ c, t = .sched c → (s'.cpu c).proc = (s.cpu c).proc)
    (hbase : s'.base t = s.base t) : Placed s' t g := by
  cases t with
  | proc p => exact h.congr_proc (runs_congr hcur p) (by rw [hst]) hbase
  | sched c =>
    exact h.congr_sched (by rw [hcur]) (hproc c rfl) hst fun q _ _ => (runs_congr hcur q).mp

/-- One thread steps and its view changes: the other views still fit. -/
lemma Inv.of_update (hi : Inv s Γ)
    (hh : ∀ c, Here s' c (running s' c) (update Γ t g (running s' c)))
    (hk : s'.pushed t = g.pushed) (hpush : ∀ t', t' ≠ t → s'.pushed t' = s.pushed t')
    (honce : ∀ c c' p, s'.cur c = some p → s'.cur c' = some p → c = c') (hp : Placed s' t g)
    (hrest : ∀ t', t' ≠ t → Placed s' t' (Γ t')) : Inv s' (update Γ t g) := by
  refine ⟨hh, fun t' => ?_, honce, fun t' => ?_⟩
  · by_cases e : t' = t
    · rw [e, update_self, hk]
    · rw [update_of_ne e, hpush t' e, hi.pushed]
  · by_cases e : t' = t
    · rw [e, update_self]
      exact hp
    · rw [update_of_ne e]
      exact hrest t' e

lemma Inv.own_step (hi : Inv s Γ) (ht : running s c = t) (hl : Local s s' c t)
    (hh : Here s' c t g) (hp : Placed s' t g) (hk : s'.pushed t = g.pushed) :
    Inv s' (update Γ t g) := by
  refine hi.of_update (fun c' => ?_) hk hl.pushed (hl.cur.symm ▸ hi.once) hp fun t' e => ?_
  · rw [running_congr hl.cur]
    by_cases hc : c' = c
    · rw [hc, ht, update_self]
      exact hh
    · have hne := hi.running_ne ht hc
      obtain ⟨h1, h2, h3, h4, h5, h6⟩ := hi.here c'
      rw [update_of_ne hne]
      rw [← hl.cpu c' hc] at h1 h2 h4 h6
      rw [← hl.state] at h5
      rw [← hl.base _ hne] at h6
      exact ⟨h1, h2, (hl.held c' hc).trans h3, h4, h5, h6⟩
  · exact (hi.placed t').congr hl.cur hl.state
      (fun c' hc' => hl.proc c' fun h => e (hc'.trans h.symm)) (hl.base t' e)

lemma Inv.retell (hi : Inv s Γ) (hh : ∀ c, running s c = t → Here s c t g) (hp : Placed s t g)
    (hk : s.pushed t = g.pushed) : Inv s (update Γ t g) := by
  refine hi.of_update (fun c => ?_) hk (fun _ _ => rfl) hi.once hp fun t' _ => hi.placed t'
  by_cases ht : running s c = t
  · rw [ht, update_self]
    exact hh c ht
  · rw [update_of_ne ht]
    exact hi.here c

lemma Here.place {t' : Thread m n} {pl' : Place n} (hh : Here s c t g)
    (hcpu : s'.cpu c = s.cpu c) (hlock : s'.lock = s.lock)
    (hint : ∀ p, t' = .proc p → pl'.settled → 0 < (s.cpu c).noff →
      ∀ b, s'.base t' = some b → (s.cpu c).intena = b) :
    Here s' c t' (view g.pushed g.own pl') := by
  obtain ⟨h1, h2, h3, -, -, -⟩ := hh
  rw [← hcpu] at h1 h2 hint
  refine ⟨h1, h2, ?_, fun b hb => (view_old hb).elim, fun q x hx => (view_saw hx).elim, hint⟩
  rw [heldOn, hlock]
  exact h3

/-! ### Rules for the requests -/

def safe (_ : Thread m n) (o : Op n K) (g : View n K) : Prop :=
  match o with
  | .popNoff => g.place.settled
  | .panic .popOffInterruptible | .panic .popOff | .panic .schedInterruptible => False
  | .panic .schedLocks => g.own.card + g.pushed ≠ 1
  | _ => True

def world (m n : ℕ) (K : Type) [DecidableEq K] [Fintype K] :
    World (sig n K) (Thread m n) (Fin m) (St m n K) (View n K) where
  exec := exec
  guard := fun _ _ _ _ => True
  safe := safe
  inv := Inv

lemma Inv.fits (hi : Inv s Γ) (ht : running s c = t) (hg : Γ t = g) :
    Here s c t g ∧ Placed s t g ∧ s.pushed t = g.pushed := by
  have hh := hi.here c
  rw [ht, hg] at hh
  exact ⟨hh, hg ▸ hi.placed t, hg ▸ hi.pushed t⟩

variable [DecidableEq K]

lemma rule_request {o : Op n K} {Q : o.Resp → View n K → Prop} (hsafe : safe t o g)
    (h : ∀ s Γ c r s', Inv s Γ → Γ t = g → running s c = t → act c t s o = some (r, s') →
      ∃ g', Inv s' (update Γ t g') ∧ Q r g') : ok (world m n K) t (req o) g Q := by
  refine ok.ask hsafe fun s Γ hi hg c r s' _ he => ?_
  have he : (if running s c = t then act c t s o else none) = some (r, s') := he
  split_ifs at he with ht
  exact h s Γ c r s' hi hg ht he

section

variable {o : Op n K} {Q : o.Resp → View n K → Prop} {ans : St m n K → Fin m → o.Resp}
  {next : St m n K → Fin m → St m n K}

lemma rule (hact : ∀ s c, act c t s o = some (ans s c, next s c)) (hsafe : safe t o g)
    (h : ∀ s Γ c, Inv s Γ → Γ t = g → running s c = t →
      ∃ g', Inv (next s c) (update Γ t g') ∧ Q (ans s c) g') :
    ok (world m n K) t (req o) g Q := by
  refine rule_request hsafe fun s Γ c r s' hi hg ht he => ?_
  obtain ⟨rfl, rfl⟩ := Prod.mk.inj (Option.some.inj ((hact s c).symm.trans he))
  exact h s Γ c hi hg ht

lemma rule_own (hact : ∀ s c, act c t s o = some (ans s c, next s c)) (hsafe : safe t o g)
    (h : ∀ s c, Here s c t g → Placed s t g → s.pushed t = g.pushed → running s c = t →
      Local s (next s c) c t ∧ ∃ g', Here (next s c) c t g' ∧ Placed (next s c) t g' ∧
        (next s c).pushed t = g'.pushed ∧ Q (ans s c) g') :
    ok (world m n K) t (req o) g Q := by
  refine rule hact hsafe fun s Γ c hi hg ht => ?_
  obtain ⟨hh, hp, hk⟩ := hi.fits ht hg
  obtain ⟨hl, g', hh', hp', hk', hq⟩ := h s c hh hp hk ht
  exact ⟨g', hi.own_step ht hl hh' hp' hk', hq⟩

end

omit [DecidableEq K] [Fintype K] in
/-- A settled thread stays where it is, whatever it has counted or read. -/
lemma Placed.settle {g' : View n K} (h : Placed s t g) (hcur : s'.cur = s.cur)
    (hst : s'.state = s.state) (hproc : ∀ c, (s'.cpu c).proc = (s.cpu c).proc)
    (hpl : g.place.settled) (hplace : g'.place = g.place)
    (hown : g.place = .run ∨ g'.own = g.own) : Placed s' t g' := by
  obtain ⟨k, O, old, pl, saw⟩ := g
  obtain ⟨k', O', old', pl', saw'⟩ := g'
  obtain rfl : pl' = pl := hplace
  cases t with
  | proc p =>
    cases pl' with
    | run =>
      simp only [Placed] at h ⊢
      rwa [runs_congr hcur, hst]
    | leaving =>
      obtain rfl : O' = O := by simpa using hown
      simp only [Placed] at h ⊢
      rwa [runs_congr hcur]
    | _ => exact hpl.elim
  | sched c =>
    cases pl' with
    | run =>
      simp only [Placed] at h ⊢
      rwa [hcur, hproc]
    | leaving => exact h.elim
    | _ => exact hpl.elim

lemma rule_read {o : Op n K} {Q : o.Resp → View n K → Prop} {ans : St m n K → Fin m → o.Resp}
    (hact : ∀ s c, act c t s o = some (ans s c, s)) (hpl : g.place.settled) (hsafe : safe t o g)
    (h : ∀ s c, Here s c t g → ∃ g', Here s c t g' ∧ g'.place = g.place ∧ g'.own = g.own ∧
      g'.pushed = g.pushed ∧ Q (ans s c) g') : ok (world m n K) t (req o) g Q := by
  refine rule_own hact hsafe fun s c hh hp hk ht => ?_
  obtain ⟨g', hh', hplace, hown, hpush, hq⟩ := h s c hh
  refine ⟨Local.refl _ _ _, g', hh', ?_, hk.trans hpush.symm, hq⟩
  exact hp.settle rfl rfl (fun _ => rfl) hpl hplace (.inr hown)

lemma rule_look {o : Op n K} {Q : o.Resp → Prop} {ans : St m n K → Fin m → o.Resp}
    (hact : ∀ s c, act c t s o = some (ans s c, s)) (hpl : g.place.settled) (hsafe : safe t o g)
    (h : ∀ s c, Here s c t g → Q (ans s c)) :
    ok (world m n K) t (req o) g fun r g' => g' = g ∧ Q r :=
  rule_read hact hpl hsafe fun s c hh => ⟨g, hh, rfl, rfl, rfl, rfl, h s c hh⟩

lemma rule_intrGet (hpl : pl.settled) :
    ok (world m n K) t intrGet (view k O pl) fun r g' => g' = read k O pl r := by
  refine rule_read (fun _ _ => rfl) hpl trivial fun s c hh => ?_
  refine ⟨read k O pl _, { hh with old := fun b hb => ?_ }, rfl, rfl, rfl, rfl⟩
  exact Option.some.inj hb

lemma rule_intrGet_off (hpl : pl.settled) :
    ok (world m n K) t intrGet (view k O pl)
      fun r g' => g' = view k O pl ∧ (0 < O.card + k → r = false) := by
  refine rule_look (fun _ _ => rfl) hpl trivial fun s c hh h => hh.off ?_
  rw [hh.noff]
  exact h

lemma rule_getNoff (hpl : pl.settled) :
    ok (world m n K) t getNoff (view k O pl) fun r g' => g' = view k O pl ∧ r = O.card + k :=
  rule_look (fun _ _ => rfl) hpl trivial fun _ _ hh => hh.noff

lemma rule_holding (hpl : pl.settled) (l : Lock n K) :
    ok (world m n K) t (holding l) (view k O pl)
      fun r g' => g' = view k O pl ∧ (r = true ↔ l ∈ O) := by
  refine rule_look (fun _ _ => rfl) hpl trivial fun s c hh => ?_
  have ho : heldOn s c = O := hh.own
  rw [← ho, mem_heldOn, Bool.and_eq_true, decide_eq_true_eq]

lemma rule_getState (hpl : pl.settled) (q : Fin n) :
    ok (world m n K) t (getState q) (view k O pl) fun _ g' => g' = view k O pl :=
  rule_read (fun _ _ => rfl) hpl trivial fun _ _ hh => ⟨_, hh, rfl, rfl, rfl, rfl⟩

lemma rule_getState_seen (hq : plock q ∈ O) :
    ok (world m n K) t (getState q) (view k O .run) fun r g' => g' = seen k O q r := by
  refine rule_read (fun _ _ => rfl) settled_run trivial fun s c hh => ?_
  refine ⟨seen k O q _, { hh with saw := fun q' x hx => ?_ }, rfl, rfl, rfl, rfl⟩
  cases hx
  exact ⟨hq, rfl⟩

lemma rule_getChan {x : ProcState} (q q' : Fin n) :
    ok (world m n K) t (getChan q') (seen k O q x) fun _ g' => g' = seen k O q x :=
  rule_read (fun _ _ => rfl) settled_run trivial fun _ _ hh => ⟨_, hh, rfl, rfl, rfl, rfl⟩

lemma forget {α : Type} {M : Code n K α} {Q : α → View n K → Prop} {old : Option Bool}
    {saw : Option (Fin n × ProcState)} (hpl : pl.settled)
    (h : ok (world m n K) t M (view k O pl) Q) :
    ok (world m n K) t M ⟨k, O, old, pl, saw⟩ Q := by
  refine ok.shift fun s Γ hi hg => ⟨view k O pl, ?_, h⟩
  have hi : Inv s Γ := hi
  refine hi.retell (fun c ht => ?_) ?_ ((hi.pushed t).trans (by rw [hg]; rfl))
  · obtain ⟨hh, -, -⟩ := hi.fits ht hg
    exact hh.place rfl rfl hh.intena
  · have hp := hi.placed t
    rw [hg] at hp
    exact hp.settle rfl rfl (fun _ => rfl) hpl rfl (.inr rfl)

/-! ### Rules for the CPU's own fields -/

omit [DecidableEq K] in
/-- A step that changes the record of the CPU, but not its process. -/
lemma local_cpu {u : St m n K} {x : Cpu n} (hcur : u.cur = s.cur) (hst : u.state = s.state)
    (hlock : u.lock = s.lock) (hcpu : u.cpu = update s.cpu c x)
    (hx : x.proc = (s.cpu c).proc) (hpush : ∀ t', t' ≠ t → u.pushed t' = s.pushed t')
    (hbase : ∀ t', t' ≠ t → u.base t' = s.base t') :
    Local s u c t ∧ ∀ c', (u.cpu c').proc = (s.cpu c').proc := by
  have hproc : ∀ c', (u.cpu c').proc = (s.cpu c').proc := fun c' => by
    rw [hcpu]
    by_cases h : c' = c
    · rw [h, update_self, hx]
    · rw [update_of_ne h]
  refine ⟨⟨hcur, hst, fun c' h => ?_, fun c' _ => ?_, fun c' _ => hproc c', hpush, hbase⟩, hproc⟩
  · rw [hcpu, update_of_ne h]
  · rw [heldOn, heldOn, hlock]

omit [DecidableEq K] in
lemma heldOn_congr (h : s'.lock = s.lock) (c : Fin m) : heldOn s' c = heldOn s c := by
  rw [heldOn, heldOn, h]

lemma rule_pushNoff (hpl : pl.settled) (b : Bool) :
    ok (world m n K) t (pushNoff b) (read k O pl b) fun _ g' => g' = view (k + 1) O pl := by
  refine rule_request trivial fun s Γ c r s' hi hg ht he => ⟨_, ?_, rfl⟩
  obtain ⟨hh, hp, hk⟩ := hi.fits ht hg
  have hs := (Prod.mk.inj (Option.some.inj he)).2
  have hb : (s.cpu c).sie = b := hh.old b rfl
  -- the two branches differ in `intena` and `base` only
  have hfields : s'.cur = s.cur ∧ s'.state = s.state ∧ s'.lock = s.lock ∧
      s'.pushed = update s.pushed t (s.pushed t + 1) ∧
      s'.cpu = update s.cpu c { s.cpu c with
        sie := false, intena := if (s.cpu c).noff = 0 then b else (s.cpu c).intena,
        noff := (s.cpu c).noff + 1 } ∧
      s'.base = if (s.cpu c).noff = 0 then update s.base t (some b) else s.base := by
    rw [← hs]
    split_ifs with h0
    · exact ⟨rfl, rfl, rfl, rfl, by simp [St.setPushed, St.setCpu, h0], by rw [hb]⟩
    · exact ⟨rfl, rfl, rfl, rfl, by simp [St.setPushed, St.setCpu], rfl⟩
  obtain ⟨hcur, hst, hlock, hpush, hcpu, hbase⟩ := hfields
  have hself := congrFun hcpu c
  rw [update_self] at hself
  obtain ⟨hl, hproc⟩ : Local s s' c t ∧ _ := local_cpu hcur hst hlock hcpu rfl
    (fun t' h => by rw [hpush, update_of_ne h])
    (fun t' h => by rw [hbase]; split_ifs <;> simp [update_of_ne h])
  refine hi.own_step ht hl ⟨?_, ?_, ?_, fun b' hb' => (view_old hb').elim,
    fun q x hx => (view_saw hx).elim, ?_⟩ (hp.settle hcur hst hproc hpl rfl (.inr rfl)) ?_
  · rw [hself]
    exact congrArg (· + 1) hh.noff
  · rw [hself]
    exact fun _ => rfl
  · rw [heldOn_congr hlock]
    exact hh.own
  · intro p hp' _ _ b' hb'
    rw [hbase] at hb'
    rw [hself]
    split_ifs at hb' ⊢ with h0
    · rw [update_self] at hb'
      exact Option.some.inj hb'
    · exact hh.intena p hp' hpl (Nat.pos_of_ne_zero h0) b' hb'
  · rw [hpush, update_self, hk]
    rfl

lemma rule_popNoff (hpl : pl.settled) :
    ok (world m n K) t popNoff (view (k + 1) O pl) fun _ g' => g' = view k O pl := by
  refine rule_own (fun _ _ => rfl) hpl fun s c hh hp hk ht => ?_
  have hnoff : (s.cpu c).noff = O.card + (k + 1) := hh.noff
  have hoff : (s.cpu c).sie = false := hh.off (by omega)
  obtain ⟨hl, hproc⟩ : Local s _ c t ∧ _ := local_cpu (x := { s.cpu c with
      noff := (s.cpu c).noff - 1,
      sie := (s.cpu c).sie || (decide ((s.cpu c).noff - 1 = 0) && (s.cpu c).intena) })
    (u := (s.setCpu c _).setPushed t (s.pushed t - 1)) rfl rfl rfl rfl rfl
    (fun t' h => update_of_ne h _ _) (fun _ _ => rfl)
  refine ⟨hl, view k O pl, ⟨?_, ?_, hh.own, fun b' hb' => (view_old hb').elim,
    fun q x hx => (view_saw hx).elim, ?_⟩, hp.settle rfl rfl hproc hpl rfl (.inr rfl), ?_, rfl⟩
  · simp only [St.setPushed, St.setCpu, update_self, view]
    omega
  · simp only [St.setPushed, St.setCpu, update_self, hoff]
    intro hpos
    have : ¬ (s.cpu c).noff - 1 = 0 := by omega
    simp [this]
  · simp only [St.setPushed, St.setCpu, update_self]
    intro p hp' _ _ b' hb'
    exact hh.intena p hp' hpl (by omega) b' hb'
  · have hk : s.pushed t = k + 1 := hk
    simp [St.setPushed, view, hk]

omit [DecidableEq K] in
lemma Here.setSie {b : Bool} {old : Option Bool} (hh : Here s c t (view k O .run))
    (hb : O.card + k = 0 ∨ b = false) (hold : ∀ b', old = some b' → b = b') :
    Here (s.setCpu c { s.cpu c with sie := b }) c t ⟨k, O, old, .run, none⟩ := by
  have hnoff : (s.cpu c).noff = O.card + k := hh.noff
  refine ⟨?_, ?_, hh.own, ?_, hh.saw, ?_⟩
  · simp only [St.setCpu, update_self]
    exact hnoff
  · simp only [St.setCpu, update_self]
    intro hpos
    exact hb.resolve_left (by omega)
  · simpa only [St.setCpu, update_self] using hold
  · simp only [St.setCpu, update_self]
    exact hh.intena

omit [DecidableEq K] in
lemma local_sie (s : St m n K) (c : Fin m) (t : Thread m n) (b : Bool) :
    Local s (s.setCpu c { s.cpu c with sie := b }) c t ∧
      ∀ c', ((s.setCpu c { s.cpu c with sie := b }).cpu c').proc = (s.cpu c').proc :=
  local_cpu rfl rfl rfl rfl rfl (fun _ _ => rfl) fun _ _ => rfl

lemma rule_intrOn {x : Option Bool} (hold : ∀ b, x = some b → true = b) :
    ok (world m n K) t intrOn (view 0 ∅ .run) fun _ g' => g' = ⟨0, ∅, x, .run, none⟩ := by
  refine rule_own (fun _ _ => rfl) trivial fun s c hh hp hk ht => ?_
  obtain ⟨hl, hproc⟩ := local_sie s c t true
  exact ⟨hl, _, hh.setSie (.inl rfl) hold, hp.settle rfl rfl hproc trivial rfl (.inr rfl), hk, rfl⟩

lemma rule_intrOff :
    ok (world m n K) t intrOff (view k O .run) fun _ g' => g' = view k O .run := by
  refine rule_own (fun _ _ => rfl) trivial fun s c hh hp hk ht => ?_
  obtain ⟨hl, hproc⟩ := local_sie s c t false
  refine ⟨hl, _, hh.setSie (.inr rfl) fun b hb => ?_,
    hp.settle rfl rfl hproc trivial rfl (.inr rfl), hk, rfl⟩
  exact absurd hb.symm (Option.some_ne_none b)

/-! ### Rules for the locks -/

lemma heldOn_take {l : Lock n K} {u : St m n K} (hfree : (s.lock l).locked = false)
    (hs : u.lock = update s.lock l ⟨true, some c⟩) (c' : Fin m) :
    l ∉ heldOn s c' ∧ heldOn u c' = if c' = c then insert l (heldOn s c') else heldOn s c' := by
  refine ⟨fun h => ?_, ?_⟩
  · rw [mem_heldOn, hfree] at h
    exact absurd h.1 Bool.false_ne_true
  · ext l'
    rw [mem_heldOn, hs]
    by_cases e : l' = l
    · subst e
      by_cases hc : c' = c
      · simp [hc]
      · simp [hc, mem_heldOn, hfree, Ne.symm hc]
    · by_cases hc : c' = c
      · simp [hc, e, mem_heldOn]
      · simp [hc, update_of_ne e, mem_heldOn]

lemma heldOn_drop {l : Lock n K} {u : St m n K} (hheld : l ∈ heldOn s c)
    (hs : u.lock = update s.lock l ⟨false, none⟩) (c' : Fin m) :
    heldOn u c' = if c' = c then (heldOn s c').erase l else heldOn s c' := by
  ext l'
  rw [mem_heldOn, hs]
  by_cases e : l' = l
  · subst e
    by_cases hc : c' = c
    · simp [hc]
    · have : l' ∉ heldOn s c' := fun h => hc (heldOn_unique h hheld)
      simp [hc, this]
  · by_cases hc : c' = c
    · simp [hc, e, mem_heldOn]
    · simp [hc, update_of_ne e, mem_heldOn]

lemma rule_take (l : Lock n K) :
    ok (world m n K) t (take l) (view (k + 1) O .run)
      fun _ g' => g' = view k (insert l O) .run ∧ l ∉ O := by
  refine rule_request trivial fun s Γ c r s' hi hg ht he => ?_
  have he : (if (s.lock l).locked then none else some _) = some (r, s') := he
  split_ifs at he with hfree
  have hfree : (s.lock l).locked = false := by simpa using hfree
  cases he
  obtain ⟨hh, hp, hk⟩ := hi.fits ht hg
  have hown : heldOn s c = O := hh.own
  have hheld := heldOn_take (c := c) hfree (u := { s.setPushed t (s.pushed t - 1) with
    lock := update s.lock l ⟨true, some c⟩ }) rfl
  have hnot : l ∉ O := hown ▸ (hheld c).1
  refine ⟨view k (insert l O) .run, hi.own_step ht ⟨rfl, rfl, fun _ _ => rfl, fun c' h => ?_,
    fun _ _ => rfl, fun t' h => update_of_ne h _ _, fun _ _ => rfl⟩
    ⟨?_, hh.off, ?_, hh.old, fun q x hx => (view_saw hx).elim, hh.intena⟩ ?_ ?_, rfl, hnot⟩
  · rw [(hheld c').2, if_neg h]
  · have hnoff : (s.cpu c).noff = O.card + (k + 1) := hh.noff
    show (s.cpu c).noff = (insert l O).card + k
    rw [Finset.card_insert_of_notMem hnot]
    omega
  · rw [(hheld c).2, if_pos rfl, hown]
    rfl
  · exact hp.settle rfl rfl (fun _ => rfl) trivial rfl (.inl rfl)
  · have hk : s.pushed t = k + 1 := hk
    simp [St.setPushed, view, hk]

lemma rule_drop {l : Lock n K} (hl : l ∈ O) :
    ok (world m n K) t (drop l) (view k O .run)
      fun _ g' => g' = view (k + 1) (O.erase l) .run := by
  refine rule_own (fun _ _ => rfl) trivial fun s c hh hp hk ht => ?_
  have hown : heldOn s c = O := hh.own
  have hheld := heldOn_drop (c := c) (hown.symm ▸ hl) (u := { s.setPushed t (s.pushed t + 1) with
    lock := update s.lock l ⟨false, none⟩ }) rfl
  refine ⟨⟨rfl, rfl, fun _ _ => rfl, fun c' h => ?_, fun _ _ => rfl,
    fun t' h => update_of_ne h _ _, fun _ _ => rfl⟩, view (k + 1) (O.erase l) .run,
    ⟨?_, hh.off, ?_, hh.old, fun q x hx => (view_saw hx).elim, hh.intena⟩, ?_, ?_, rfl⟩
  · rw [hheld c', if_neg h]
  · have hnoff : (s.cpu c).noff = O.card + k := hh.noff
    have hpos : 0 < O.card := Finset.card_pos.mpr ⟨l, hl⟩
    show (s.cpu c).noff = (O.erase l).card + (k + 1)
    rw [Finset.card_erase_of_mem hl]
    omega
  · rw [hheld c, if_pos rfl, hown]
    rfl
  · exact hp.settle rfl rfl (fun _ => rfl) trivial rfl (.inl rfl)
  · have hk : s.pushed t = k := hk
    simp [St.setPushed, view, hk]

/-! ### Rules for processes -/

def Thread.who : Thread m n → Option (Fin n)
  | .sched _ => none
  | .proc p => some p

lemma rule_getProc (hpl : pl.settled) :
    ok (world m n K) t getProc (view k O pl) fun r g' => g' = view k O pl ∧ r = t.who := by
  refine rule (fun _ _ => rfl) trivial fun s Γ c hi hg ht => ⟨_, ?_, rfl, ?_⟩
  · rwa [← hg, update_eq_self]
  · cases t with
    | proc p => exact (hi.away (running_proc.mp ht)).2
    | sched d =>
      obtain ⟨-, rfl⟩ := running_sched.mp ht
      have hp := hi.placed (.sched c)
      rw [hg] at hp
      cases pl with
      | run => exact hp.2
      | leaving => exact hp.elim
      | _ => exact hpl.elim

lemma rule_setChan (hpl : pl.settled) (q : Fin n) (a : ℕ) :
    ok (world m n K) t (setChan q a) (view k O pl) fun _ g' => g' = view k O pl := by
  refine rule_own (fun _ _ => rfl) trivial fun s c hh hp hk ht => ?_
  exact ⟨⟨rfl, rfl, fun _ _ => rfl, fun _ _ => rfl, fun _ _ => rfl, fun _ _ => rfl,
    fun _ _ => rfl⟩, _, ⟨hh.noff, hh.off, hh.own, hh.old, hh.saw, hh.intena⟩,
    hp.settle rfl rfl (fun _ => rfl) hpl rfl (.inr rfl), hk, rfl⟩

end Xv6.Intr
