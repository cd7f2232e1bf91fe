import Mathlib.Algebra.Ring.Nat
import Mathlib.Data.List.FinRange
import Mathlib.Data.Fintype.Basic
import Mathlib.Logic.Function.Basic
import Mathlib.Tactic.Common

/-!
The process table of `kernel/proc.c`, and what its functions do to the table when each runs
without interruption. The number of slots, `NPROC` in the source, is a parameter.

Memory is not here: where a function allocates, an argument says whether it gets the
memory.
-/

namespace Xv6.ProcModel

inductive ProcState
  | UNUSED | USED | SLEEPING | RUNNABLE | RUNNING | ZOMBIE
  deriving DecidableEq

/-- What a process can sleep on: the address of a process, as in `kwait`, or any other. -/
inductive Chan (n : ℕ)
  | proc (i : Fin n)
  | other (a : ℕ)
  deriving DecidableEq

/-- The fields of `struct proc` that `proc.c` uses to manage processes. -/
structure Proc (n : ℕ) where
  state : ProcState
  chan : Option (Chan n)
  killed : ℤ
  xstate : ℤ
  pid : ℤ
  parent : Option (Fin n)
  deriving DecidableEq

structure Table (n : ℕ) where
  procs : Fin n → Proc n
  nextpid : ℤ
  initproc : Fin n

variable {n : ℕ}

/-- The loop `for(p = proc; p < &proc[NPROC]; p++)` that stops at the first slot with a
property. -/
def scan (f : Fin n → Bool) : Option (Fin n) := (List.finRange n).find? f

lemma scan_some {f : Fin n → Bool} {i : Fin n} (h : scan f = some i) : f i = true :=
  List.find?_some h

lemma scan_none {f : Fin n → Bool} (h : scan f = none) (i : Fin n) : f i = false := by
  have := List.find?_eq_none.mp h i (List.mem_finRange i)
  simpa using this

def Proc.zero : Proc n := ⟨.UNUSED, none, 0, 0, 0, none⟩

namespace Table

def set (t : Table n) (i : Fin n) (p : Proc n) : Table n :=
  { t with procs := Function.update t.procs i p }

@[simp] lemma set_procs_self (t : Table n) (i : Fin n) (p : Proc n) :
    (t.set i p).procs i = p := by simp [set]

lemma set_procs_ne (t : Table n) {i j : Fin n} (h : j ≠ i) (p : Proc n) :
    (t.set i p).procs j = t.procs j := by simp [set, h]

def map (t : Table n) (f : Fin n → Proc n → Proc n) : Table n :=
  { t with procs := fun i => f i (t.procs i) }

def allocpid (t : Table n) : ℤ × Table n :=
  (t.nextpid, { t with nextpid := Int.bmod (t.nextpid + 1) (2 ^ 32) })

def freeproc (t : Table n) (i : Fin n) : Table n :=
  t.set i { t.procs i with
    pid := 0
    parent := none
    chan := none
    killed := 0
    xstate := 0
    state := .UNUSED }

def claim (t : Table n) (i : Fin n) : Table n :=
  let (pid, t) := t.allocpid
  t.set i { t.procs i with pid := pid, state := .USED }

/-- `allocproc`, given whether the trapframe and the page table can be allocated. -/
def allocproc (t : Table n) (trapframe pagetable : Bool) : Option (Fin n) × Table n :=
  match scan fun i => (t.procs i).state = .UNUSED with
  | none => (none, t)
  | some i =>
    let t := t.claim i
    if !trapframe then (none, t.freeproc i)
    else if !pagetable then (none, t.freeproc i)
    else (some i, t)

/-- `kfork` by slot `p`; `copy` says whether `uvmcopy` succeeds. -/
def kfork (t : Table n) (p : Fin n) (trapframe pagetable copy : Bool) : ℤ × Table n :=
  match t.allocproc trapframe pagetable with
  | (none, t) => (-1, t)
  | (some np, t) =>
    if !copy then (-1, t.freeproc np)
    else
      let t := t.set np { t.procs np with parent := some p }
      let t := t.set np { t.procs np with state := .RUNNABLE }
      ((t.procs np).pid, t)

/-- `wakeup(chan)`, called by slot `me` or by no process at all. -/
def wakeup (t : Table n) (me : Option (Fin n)) (c : Chan n) : Table n :=
  t.map fun i p =>
    if some i ≠ me ∧ p.state = .SLEEPING ∧ p.chan = some c then { p with state := .RUNNABLE }
    else p

/-- `reparent(p)`: its children go to `initproc`, which is woken if there are any. -/
def reparent (t : Table n) (p : Fin n) : Table n :=
  let t' := t.map fun _ q =>
    if q.parent = some p then { q with parent := some t.initproc } else q
  if ∃ i, (t.procs i).parent = some p then t'.wakeup (some p) (.proc t.initproc) else t'

/-- `kexit` by slot `p`; there is no step for `init`, whose exit panics. -/
def kexit (t : Table n) (p : Fin n) (status : ℤ) : Option (Table n) :=
  if p = t.initproc then none
  else
    let t := t.reparent p
    let t := match (t.procs p).parent with
      | some q => t.wakeup (some p) (.proc q)
      | none => t
    some (t.set p { t.procs p with xstate := status, state := .ZOMBIE })

inductive Waited
  | reaped (pid status : ℤ)
  | failed
  | asleep
  deriving DecidableEq

def zombieOf (t : Table n) (p : Fin n) : Option (Fin n) :=
  scan fun i => (t.procs i).parent = some p ∧ (t.procs i).state = .ZOMBIE

/-- `kwait` by slot `p` up to its return or to its `sleep`; `copyout` says whether the status
can be stored. -/
def kwait (t : Table n) (p : Fin n) (copyout : Bool) : Waited × Table n :=
  match t.zombieOf p with
  | some i =>
    if !copyout then (.failed, t)
    else (.reaped (t.procs i).pid (t.procs i).xstate, t.freeproc i)
  | none =>
    if (∀ i, (t.procs i).parent ≠ some p) ∨ (t.procs p).killed ≠ 0 then (.failed, t)
    else (.asleep, t.set p { t.procs p with chan := some (.proc p), state := .SLEEPING })

def kkill (t : Table n) (pid : ℤ) : ℤ × Table n :=
  match scan fun i => (t.procs i).pid = pid with
  | none => (-1, t)
  | some i =>
    let p := { t.procs i with killed := 1 }
    (0, t.set i (if p.state = .SLEEPING then { p with state := .RUNNABLE } else p))

def setkilled (t : Table n) (i : Fin n) : Table n := t.set i { t.procs i with killed := 1 }

def sleep (t : Table n) (p : Fin n) (c : ℕ) : Table n :=
  t.set p { t.procs p with chan := some (.other c), state := .SLEEPING }

/-- The scheduler picks slot `p`; a process that slept clears its channel. -/
def schedule (t : Table n) (p : Fin n) : Table n :=
  t.set p { t.procs p with chan := none, state := .RUNNING }

def yield (t : Table n) (p : Fin n) : Table n := t.set p { t.procs p with state := .RUNNABLE }

/-! What these do to the state of a slot: none of them takes a free slot into use. -/

section Unused

variable {t t' : Table n} {p q : Fin n}

lemma freeproc_unused (h : ((t.freeproc p).procs q).state ≠ .UNUSED) :
    q ≠ p ∧ (t.procs q).state ≠ .UNUSED := by
  by_cases e : q = p
  · subst e; simp [freeproc] at h
  · rw [freeproc, set_procs_ne _ e] at h
    exact ⟨e, h⟩

lemma set_unused {x : Proc n} (hp : (t.procs p).state ≠ .UNUSED)
    (h : ((t.set p x).procs q).state ≠ .UNUSED) : (t.procs q).state ≠ .UNUSED := by
  by_cases e : q = p
  · exact e ▸ hp
  · rwa [set_procs_ne _ e] at h

lemma wakeup_state {me : Option (Fin n)} {c : Chan n} {x : ProcState} (h₁ : x ≠ .SLEEPING)
    (h₂ : x ≠ .RUNNABLE) : ((t.wakeup me c).procs q).state = x ↔ (t.procs q).state = x := by
  simp only [wakeup, map]
  split_ifs with h
  · rw [h.2.1]
    exact ⟨fun e => absurd e.symm h₂, fun e => absurd e.symm h₁⟩
  · rfl

lemma reparent_state {x : ProcState} (h₁ : x ≠ .SLEEPING) (h₂ : x ≠ .RUNNABLE) :
    ((t.reparent p).procs q).state = x ↔ (t.procs q).state = x := by
  unfold reparent
  split_ifs
  · rw [wakeup_state h₁ h₂, map]
    dsimp only
    split_ifs <;> rfl
  · simp only [map]
    split_ifs <;> rfl

lemma kexit_state {status : ℤ} {x : ProcState} (h₁ : x ≠ .SLEEPING) (h₂ : x ≠ .RUNNABLE)
    (hk : t.kexit p status = some t') :
    (t'.procs q).state = x ↔ if q = p then x = .ZOMBIE else (t.procs q).state = x := by
  unfold kexit at hk
  split_ifs at hk
  cases hk
  split_ifs with e
  · rw [e, set_procs_self]
    exact eq_comm
  · rw [set_procs_ne _ e]
    split
    · rw [wakeup_state h₁ h₂, reparent_state h₁ h₂]
    · rw [reparent_state h₁ h₂]

lemma kexit_unused {status : ℤ} (hp : (t.procs p).state ≠ .UNUSED)
    (hk : t.kexit p status = some t') (h : (t'.procs q).state ≠ .UNUSED) :
    (t.procs q).state ≠ .UNUSED := by
  rw [ne_eq, kexit_state (by decide) (by decide) hk] at h
  split_ifs at h with e
  · exact e ▸ hp
  · exact h

lemma kkill_unused {pid : ℤ} (h : ((t.kkill pid).2.procs q).state ≠ .UNUSED) :
    (t.procs q).state ≠ .UNUSED := by
  unfold kkill at h
  split at h
  · exact h
  · rename_i i hs
    by_cases e : q = i
    · subst e
      simp only [set_procs_self] at h
      split_ifs at h with h1
      · simp [h1]
      · exact h
    · simpa only [set_procs_ne _ e] using h

end Unused

end Table

def userinit (i : Fin n) : Table n where
  procs := Function.update (fun _ => Proc.zero) i ⟨.RUNNABLE, none, 0, 0, 1, none⟩
  nextpid := 2
  initproc := i

/-- A system call, or what the scheduler, an interrupt or a trap does. -/
inductive Act (n : ℕ)
  | fork (p : Fin n) (trapframe pagetable copy : Bool)
  | kill (pid : ℤ)
  | exit (p : Fin n) (status : ℤ)
  | wait (p : Fin n) (copyout : Bool)
  | sleep (p : Fin n) (c : ℕ)
  | wakeup (me : Option (Fin n)) (c : ℕ)
  | setkilled (p : Fin n)
  | schedule (p : Fin n)
  | yield (p : Fin n)

def step (t : Table n) : Act n → Option (Table n)
  | .kill pid => some (t.kkill pid).2
  | .wakeup me c => some (t.wakeup me (.other c))
  | .schedule p => if (t.procs p).state = .RUNNABLE then some (t.schedule p) else none
  | .fork p trapframe pagetable copy =>
    if (t.procs p).state = .RUNNING then some (t.kfork p trapframe pagetable copy).2 else none
  | .exit p status => if (t.procs p).state = .RUNNING then t.kexit p status else none
  | .wait p copyout => if (t.procs p).state = .RUNNING then some (t.kwait p copyout).2 else none
  | .sleep p c => if (t.procs p).state = .RUNNING then some (t.sleep p c) else none
  | .setkilled p => if (t.procs p).state = .RUNNING then some (t.setkilled p) else none
  | .yield p => if (t.procs p).state = .RUNNING then some (t.yield p) else none

end Xv6.ProcModel
