import Xv6.ProcModel
import Xv6.Runs

/-!
`kkill` and the reuse of process slots.

`kkill` does not look at a slot's state, so it takes a free slot, whose `pid` is `0`, for a
process. `allocproc` does not clear `killed`, so the mark it leaves there is inherited by
the next process in that slot. As long as no call of `kkill` hits a free slot first, free
slots stay clean and both go right.
-/

namespace Xv6.ProcKill

open ProcModel Runs

variable {n : ℕ} {t t' : Table n}

def Live (t : Table n) (pid : ℤ) (i : Fin n) : Prop :=
  (t.procs i).state ≠ .UNUSED ∧ (t.procs i).pid = pid

/-- A process that was killed: it is marked, and it wakes up. -/
def killedProc (p : Proc n) : Proc n :=
  { p with killed := 1, state := if p.state = .SLEEPING then .RUNNABLE else p.state }

/-- What `kill` is to do: `0` and the mark on a process with this pid if there is one, else
`-1` and nothing. -/
def KillLaw (t : Table n) (pid : ℤ) : Prop :=
  ((t.kkill pid).1 = 0 ↔ ∃ i, Live t pid i) ∧
  ((t.kkill pid).1 = 0 → ∃ i, Live t pid i ∧ (t.kkill pid).2 = t.set i (killedProc (t.procs i))) ∧
  ((t.kkill pid).1 ≠ 0 → (t.kkill pid).1 = -1 ∧ (t.kkill pid).2 = t)

/-- The first slot with this pid, if there is one, is not a free one. -/
def HitsNoFree (t : Table n) (pid : ℤ) : Prop :=
  ∀ i, scan (fun i => (t.procs i).pid = pid) = some i → (t.procs i).state ≠ .UNUSED

def KillOk (t : Table n) : Act n → Prop
  | .kill pid => HitsNoFree t pid
  | _ => True

def Clean (t : Table n) : Prop :=
  ∀ i, (t.procs i).state = .UNUSED → (t.procs i).pid = 0 ∧ (t.procs i).killed = 0

lemma kkill_none {pid : ℤ} (h : scan (fun i => (t.procs i).pid = pid) = none) :
    t.kkill pid = (-1, t) := by
  simp [Table.kkill, h]

lemma kkill_some {pid : ℤ} {i : Fin n} (h : scan (fun i => (t.procs i).pid = pid) = some i) :
    t.kkill pid = (0, t.set i (killedProc (t.procs i))) := by
  simp only [Table.kkill, h, killedProc]
  split_ifs <;> rfl

/-! ### One call -/

lemma killLaw_of_hitsNoFree {pid : ℤ} (h : HitsNoFree t pid) : KillLaw t pid := by
  cases hs : scan fun i => (t.procs i).pid = pid with
  | none =>
    have hno : ¬ ∃ i, Live t pid i := by
      rintro ⟨i, -, hi⟩
      have := scan_none hs i
      simp [hi] at this
    unfold KillLaw
    rw [kkill_none hs]
    exact ⟨by simpa using hno, by simp, by simp⟩
  | some i =>
    have hlive : Live t pid i := ⟨h i hs, by simpa using scan_some hs⟩
    unfold KillLaw
    rw [kkill_some hs]
    exact ⟨by simpa using ⟨i, hlive⟩, fun _ => ⟨i, hlive, rfl⟩, by simp⟩

lemma hitsNoFree_of_killLaw {pid : ℤ} (hc : Clean t) (h : KillLaw t pid) : HitsNoFree t pid := by
  intro i hs hfree
  obtain ⟨-, h2, -⟩ := h
  rw [kkill_some hs] at h2
  obtain ⟨j, ⟨hj, -⟩, heq⟩ := h2 rfl
  have hne : i ≠ j := by rintro rfl; exact hj hfree
  have hslot := congrArg (fun u : Table n => (u.procs i).killed) heq
  simp only [Table.set_procs_self, Table.set_procs_ne _ hne, killedProc, (hc i hfree).2] at hslot
  exact absurd hslot (by decide)

section

variable (hc : Clean t)
include hc

lemma hitsNoFree_of_ne_zero {pid : ℤ} (h : pid ≠ 0) : HitsNoFree t pid := by
  intro i hs hfree
  have hpid : (t.procs i).pid = pid := by simpa using scan_some hs
  exact h (hpid ▸ (hc i hfree).1)

/-! ### Free slots stay clean -/

lemma Clean.set {i : Fin n} {p : Proc n}
    (hp : p.state = .UNUSED → p.pid = 0 ∧ p.killed = 0) : Clean (t.set i p) := by
  intro j hj
  by_cases e : j = i
  · subst e
    rw [Table.set_procs_self] at hj ⊢
    exact hp hj
  · rw [Table.set_procs_ne _ e] at hj ⊢
    exact hc j hj

lemma Clean.freeproc (i : Fin n) : Clean (t.freeproc i) :=
  hc.set fun _ => ⟨rfl, rfl⟩

lemma Clean.set_used {i : Fin n} {p : Proc n} (hp : p.state ≠ .UNUSED) :
    Clean (t.set i p) :=
  hc.set fun h => absurd h hp

lemma allocproc_spec (trapframe pagetable : Bool) :
    Clean (t.allocproc trapframe pagetable).2 ∧
      ∀ i, (t.allocproc trapframe pagetable).1 = some i →
        ((t.allocproc trapframe pagetable).2.procs i).killed = 0 ∧
        ((t.allocproc trapframe pagetable).2.procs i).state = .USED := by
  unfold Table.allocproc
  split
  · exact ⟨hc, by simp⟩
  · rename_i i hs
    have hfree : (t.procs i).state = .UNUSED := by simpa using scan_some hs
    have hpid : Clean t.allocpid.2 := hc
    have hused : Clean (t.claim i) := hpid.set_used (by simp)
    cases trapframe <;> cases pagetable
    · exact ⟨hused.freeproc i, by simp⟩
    · exact ⟨hused.freeproc i, by simp⟩
    · exact ⟨hused.freeproc i, by simp⟩
    · refine ⟨hused, ?_⟩
      intro j hj
      obtain rfl : i = j := by simpa using hj
      simp only [Bool.not_true, Bool.false_eq_true, if_false, Table.claim, Table.set_procs_self,
        and_true]
      exact (hc i hfree).2

lemma clean_kfork (p : Fin n) (trapframe pagetable copy : Bool) :
    Clean (t.kfork p trapframe pagetable copy).2 := by
  obtain ⟨h1, h2⟩ := allocproc_spec hc trapframe pagetable
  unfold Table.kfork
  split
  · rename_i u hu
    rw [hu] at h1
    exact h1
  · rename_i np u hu
    rw [hu] at h1 h2
    have hstate : (u.procs np).state = .USED := (h2 np rfl).2
    cases copy
    · exact h1.freeproc np
    · refine Clean.set_used ?_ (by simp)
      exact h1.set_used (by simp [hstate])

lemma Clean.map {f : Fin n → Proc n → Proc n}
    (hf : ∀ i p, (f i p).state = .UNUSED →
      p.state = .UNUSED ∧ (f i p).pid = p.pid ∧ (f i p).killed = p.killed) :
    Clean (t.map f) := by
  intro i hi
  obtain ⟨h1, h2, h3⟩ := hf i (t.procs i) hi
  show (f i (t.procs i)).pid = 0 ∧ (f i (t.procs i)).killed = 0
  rw [h2, h3]
  exact hc i h1

lemma clean_wakeup (me : Option (Fin n)) (c : Chan n) :
    Clean (t.wakeup me c) := by
  refine hc.map fun i p h => ?_
  split_ifs at h ⊢
  exact ⟨h, rfl, rfl⟩

lemma clean_reparent (p : Fin n) : Clean (t.reparent p) := by
  have h1 : Clean (t.map fun _ q =>
      if q.parent = some p then { q with parent := some t.initproc } else q) := by
    refine hc.map fun i q h => ?_
    split_ifs at h ⊢
    · exact ⟨h, rfl, rfl⟩
    · exact ⟨h, rfl, rfl⟩
  unfold Table.reparent
  split_ifs
  · exact clean_wakeup h1 _ _
  · exact h1

lemma clean_kexit {p : Fin n} {status : ℤ} (h : t.kexit p status = some t') :
    Clean t' := by
  unfold Table.kexit at h
  split_ifs at h
  cases h
  refine Clean.set_used ?_ (by simp)
  split
  · exact clean_wakeup (clean_reparent hc p) _ _
  · exact clean_reparent hc p

lemma clean_kwait (p : Fin n) (copyout : Bool) : Clean (t.kwait p copyout).2 := by
  unfold Table.kwait
  split
  · cases copyout
    · exact hc
    · exact hc.freeproc _
  · split_ifs
    · exact hc
    · exact hc.set_used (by simp)

lemma clean_kkill {pid : ℤ} (h : HitsNoFree t pid) : Clean (t.kkill pid).2 := by
  cases hs : scan fun i => (t.procs i).pid = pid with
  | none => rw [kkill_none hs]; exact hc
  | some i =>
    rw [kkill_some hs]
    have hu := h i hs
    refine hc.set_used ?_
    simp only [killedProc]
    split_ifs
    · simp
    · exact hu

lemma step_clean {a : Act n} (ha : KillOk t a) (h : step t a = some t') :
    Clean t' := by
  cases a with
  | kill pid => obtain rfl := Option.some.inj h; exact clean_kkill hc ha
  | wakeup me c => obtain rfl := Option.some.inj h; exact clean_wakeup hc _ _
  | fork p trapframe pagetable copy =>
    simp only [step] at h
    split_ifs at h
    cases h
    exact clean_kfork hc _ _ _ _
  | exit p status =>
    simp only [step] at h
    split_ifs at h
    exact clean_kexit hc h
  | wait p copyout =>
    simp only [step] at h
    split_ifs at h
    cases h
    exact clean_kwait hc _ _
  | sleep p c =>
    simp only [step] at h
    split_ifs at h
    cases h
    exact hc.set_used (by simp)
  | setkilled p =>
    simp only [step] at h
    split_ifs at h with hr
    cases h
    exact hc.set_used (by simp [hr])
  | schedule p =>
    simp only [step] at h
    split_ifs at h
    cases h
    exact hc.set_used (by simp)
  | yield p =>
    simp only [step] at h
    split_ifs at h
    cases h
    exact hc.set_used (by simp)

end

lemma clean_userinit (i : Fin n) : Clean (userinit i) := by
  intro j hj
  simp only [userinit] at hj ⊢
  by_cases e : j = i
  · subst e; simp at hj
  · simp [Function.update_of_ne e, Proc.zero]

/-- **`kill` obeys its law, and new processes start unmarked,** in every run in which no
`kill` hits a free slot: the law holds of a call exactly when that call does not hit one,
and only a call with pid `0` can. -/
theorem kill_law {i : Fin n} (h : Reach step KillOk (· = userinit i) t) :
    (∀ pid, KillLaw t pid ↔ HitsNoFree t pid) ∧ (∀ pid, pid ≠ 0 → HitsNoFree t pid) ∧
    ∀ trapframe pagetable np t', t.allocproc trapframe pagetable = (some np, t') →
      (t'.procs np).killed = 0 := by
  have hc : Clean t := h.invariant (fun _ h0 => h0 ▸ clean_userinit i)
    fun _ _ _ hi ha ht => step_clean hi ha ht
  refine ⟨fun pid => ⟨hitsNoFree_of_killLaw hc, killLaw_of_hitsNoFree⟩,
    fun pid => hitsNoFree_of_ne_zero hc, ?_⟩
  intro trapframe pagetable np t' ha
  have := (allocproc_spec hc trapframe pagetable).2 np
  rw [ha] at this
  exact (this rfl).1

/-- The law at work right after boot: `kill(1)` marks `init`, and the next process is not
marked. -/
theorem kill_law_userinit : HitsNoFree (userinit (0 : Fin 64)) 1 ∧
    KillLaw (userinit (0 : Fin 64)) 1 ∧
    ∃ np t', (userinit (0 : Fin 64)).allocproc true true = (some np, t') ∧
      (t'.procs np).killed = 0 := by
  have h := kill_law (t := userinit (0 : Fin 64)) (i := 0) (.init rfl)
  have h1 : HitsNoFree (userinit (0 : Fin 64)) 1 := h.2.1 1 (by decide)
  exact ⟨h1, (h.1 1).mpr h1, 1, _, rfl, h.2.2 true true 1 _ rfl⟩

/-- **`kill(0)` hits a free slot.** Right after boot it reports success although no process
has pid `0`, and the next process to be made is killed before it runs. -/
theorem kill_zero : ∃ t, Reach step Always (· = userinit (0 : Fin 64)) t ∧ ¬ KillLaw t 0 ∧
    ∃ t₁, step t (.kill 0) = some t₁ ∧ ∃ np t₂, t₁.allocproc true true = (some np, t₂) ∧
      (t₂.procs np).killed = 1 := by
  refine ⟨userinit 0, .init rfl, ?_, _, rfl, 1, _, rfl, by decide⟩
  intro h
  have hfree := hitsNoFree_of_killLaw (clean_userinit (0 : Fin 64)) h 1 (by decide)
  exact hfree (by decide)

end Xv6.ProcKill
