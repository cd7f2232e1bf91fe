import Xv6.WaitModel

/-!
The scheduler of `kernel/proc.c` on any number of CPUs, and the kernel threads of the processes it
runs: `scheduler`, `sched`, `yield`, `sleep`, `wakeup`, `kkill`, `kfork`, `kexit` and `kwait`.

A CPU executes its scheduler or the kernel thread of a process; `swtch` goes from one to the other,
and a process's lock that the one has taken the other releases. A section of code that takes a
process's lock and releases it in the same function is one step; a lock that is held over `swtch`,
or while the code lets go of another lock, is held from step to step. A thread can be interrupted
wherever its CPU holds no lock: by the timer, whose handler calls `yield`, or by a device, whose
handler calls `wakeup`. Where the code would panic there is no step.
-/

namespace Xv6.SchedModel

open Function (update)

open ProcModel hiding Act step
open WaitModel (slot)

/-- The locks a thread can hold besides those of processes: `wait_lock`, or any other. -/
inductive Lock
  | wait
  | other (a : ℕ)
  deriving DecidableEq

/-- A call of `sleep(chan, lk)`, by `kwait` or by other code. -/
structure Sleep (n : ℕ) where
  chan : Chan n
  lk : Lock
  inWait : Bool
  deriving DecidableEq

inductive SPc (n : ℕ)
  /-- About to take the lock of slot `i`. -/
  | look (i : ℕ)
  /-- It has the lock. -/
  | locked (p : Fin n)
  /-- It has made the process `RUNNING`. -/
  | picked (p : Fin n)
  /-- It has switched to the process. -/
  | away (p : Fin n)
  /-- The process has switched back. -/
  | back (p : Fin n)
  /-- About to release the lock. -/
  | done (p : Fin n)
  deriving DecidableEq

/-- Where a process's kernel thread is, by the function it is in. -/
inductive Pc (n : ℕ)
  /-- In user space, or in other kernel code. -/
  | run
  /-- `allocproc`, called by `kfork`, looks at slot `i` next. -/
  | fork (i : ℕ)
  | adopt (np : Fin n)
  | start (np : Fin n)
  | kill (pid : ℤ) (i : ℕ)
  /-- `sleep` is to take the process's lock. -/
  | sleep0 (z : Sleep n)
  /-- `sleep` is to release the condition lock. -/
  | sleep1 (z : Sleep n)
  /-- `sleep` is to set the channel and the state. -/
  | sleep2 (z : Sleep n)
  /-- `sleep` has called `sched`. -/
  | asleep (z : Sleep n)
  /-- `sleep` is to take the condition lock again. -/
  | relock (z : Sleep n)
  | wait
  | scan (j : ℕ) (havekids : Bool)
  | exit (status : ℤ)
  | reparent (status : ℤ) (i : ℕ)
  /-- `kexit` is to take the process's lock and set its state. -/
  | zombie (status : ℤ)
  /-- `kexit` is to release `wait_lock`. -/
  | leaving
  /-- `kexit` has called `sched`. -/
  | exiting
  deriving DecidableEq

/-- How far the thread is on its way off the CPU and back. -/
inductive Sw
  | on
  /-- `yield` has taken the process's lock. -/
  | yield
  /-- In `sched`. -/
  | sched
  /-- Not executing: its registers are in `p->context`. -/
  | parked
  /-- Back from `swtch`, or at the start of `forkret`, with the process's lock held. -/
  | resumed
  deriving DecidableEq

/-- A call of `wakeup(chan)` that looks at slot `next` next. `since` is bookkeeping: the sleeps that
had released their condition lock when it was called, by their number. -/
structure Wake (n : ℕ) where
  chan : Option (Chan n)
  next : ℕ
  since : Fin n → Option ℕ

/-- `m` CPUs and `n` slots. `cpu` is `c->proc`, `plock` is which CPU has a process's lock, and
`held` the other locks a CPU has. `slept` counts the calls of `sleep` of a thread. -/
structure St (m n : ℕ) where
  tbl : Table n
  plock : Fin n → Option (Fin m)
  held : Fin m → List Lock
  cpu : Fin m → Option (Fin n)
  spc : Fin m → SPc n
  pc : Fin n → Pc n
  sw : Fin n → Sw
  wake : Fin m → Option (Wake n)
  slept : Fin n → ℕ

inductive Call (n : ℕ)
  | acquire (k : Lock)
  | release (k : Lock)
  | sleep (chan : Chan n) (lk : Lock)
  | wakeup (chan : Chan n)
  | kill (pid : ℤ)
  | fork
  | exit (status : ℤ)
  | wait

variable {m n : ℕ}

namespace St

abbrev proc (s : St m n) (p : Fin n) : Proc n := s.tbl.procs p

def setProc (s : St m n) (p : Fin n) (x : Proc n) : St m n := { s with tbl := s.tbl.set p x }

def setState (s : St m n) (p : Fin n) (x : ProcState) : St m n :=
  s.setProc p { s.proc p with state := x }

def setPlock (s : St m n) (p : Fin n) (o : Option (Fin m)) : St m n :=
  { s with plock := update s.plock p o }

def setSpc (s : St m n) (c : Fin m) (x : SPc n) : St m n :=
  { s with spc := update s.spc c x }

def setCpu (s : St m n) (c : Fin m) (o : Option (Fin n)) : St m n :=
  { s with cpu := update s.cpu c o }

def goto (s : St m n) (p : Fin n) (x : Pc n) : St m n := { s with pc := update s.pc p x }

def setSw (s : St m n) (p : Fin n) (x : Sw) : St m n := { s with sw := update s.sw p x }

def setHeld (s : St m n) (c : Fin m) (l : List Lock) : St m n :=
  { s with held := update s.held c l }

def setWake (s : St m n) (c : Fin m) (o : Option (Wake n)) : St m n :=
  { s with wake := update s.wake c o }

def lockFree (s : St m n) (k : Lock) : Prop := ∀ c, k ∉ s.held c

instance (s : St m n) (k : Lock) : Decidable (s.lockFree k) := inferInstanceAs (Decidable (∀ _, _))

/-! ### The scheduler -/

def scheduler (s : St m n) (c : Fin m) : Option (St m n) :=
  match s.spc c with
  | .look i =>
    match slot n i with
    | none => some (s.setSpc c (.look 0))
    | some p =>
      if s.plock p = none then some ((s.setPlock p (some c)).setSpc c (.locked p)) else none
  | .locked p =>
    if (s.proc p).state = .RUNNABLE then some ((s.setState p .RUNNING).setSpc c (.picked p))
    else some (s.setSpc c (.done p))
  | .picked p => some (((s.setCpu c (some p)).setSw p .resumed).setSpc c (.away p))
  | .away _ => none
  | .back p => some ((s.setCpu c none).setSpc c (.done p))
  | .done p => some ((s.setPlock p none).setSpc c (.look (p + 1)))

/-! ### wakeup -/

/-- The channel of a sleep that has released its condition lock. -/
def released (s : St m n) (p : Fin n) : Option (Chan n) :=
  match s.pc p with
  | .sleep2 z => some z.chan
  | .asleep z => some z.chan
  | _ => none

def wakeup (s : St m n) (c : Fin m) (chan : Option (Chan n)) : St m n :=
  s.setWake c (some ⟨chan, 0, fun p =>
    if s.released p ≠ none ∧ s.released p = chan then some (s.slept p) else none⟩)

def wakeLook (s : St m n) (c : Fin m) (w : Wake n) : Option (St m n) :=
  match slot n w.next with
  | none => some (s.setWake c none)
  | some p =>
    let next := some { w with next := w.next + 1 }
    if s.cpu c = some p then some (s.setWake c next)
    else if s.plock p ≠ none then none
    else if (s.proc p).state = .SLEEPING ∧ (s.proc p).chan = w.chan then
      some ((s.setState p .RUNNABLE).setWake c next)
    else some (s.setWake c next)

/-! ### The threads -/

def sleep (s : St m n) (p : Fin n) (z : Sleep n) : St m n :=
  { s.goto p (.sleep0 z) with slept := update s.slept p (s.slept p + 1) }

/-- One round of the loop in `allocproc`. If the slot is free it is taken, and if there is memory
(`ok`) the child is filled in, with a context that starts in `forkret`. -/
def forkLook (s : St m n) (p : Fin n) (i : ℕ) (ok : Bool) : Option (St m n) :=
  match slot n i with
  | none => some (s.goto p .run)
  | some np =>
    if s.plock np ≠ none then none
    else if (s.proc np).state ≠ .UNUSED then some (s.goto p (.fork (i + 1)))
    else if ok then some (({ s with tbl := s.tbl.claim np }.goto np .run).goto p (.adopt np))
    else some ({ s with tbl := (s.tbl.claim np).freeproc np }.goto p .run)

def killLook (s : St m n) (p : Fin n) (pid : ℤ) (i : ℕ) : Option (St m n) :=
  match slot n i with
  | none => some (s.goto p .run)
  | some j =>
    if s.plock j ≠ none then none
    else if (s.proc j).pid = pid then some
      ((s.setProc j (WaitModel.St.killed (s.proc j))).goto p .run)
    else some (s.goto p (.kill pid (i + 1)))

/-- One round of the loop in `kwait`, or what follows the loop; `ok` says whether the status can be
copied out. -/
def waitLook (s : St m n) (c : Fin m) (p : Fin n) (j : ℕ) (havekids ok : Bool) :
    Option (St m n) :=
  let unlocked := s.setHeld c ((s.held c).erase .wait)
  match slot n j with
  | some pp =>
    if (s.proc pp).parent ≠ some p then some (s.goto p (.scan (j + 1) havekids))
    else if s.plock pp ≠ none then none
    else if (s.proc pp).state ≠ .ZOMBIE then some (s.goto p (.scan (j + 1) true))
    else if ok then some ({ unlocked with tbl := s.tbl.freeproc pp }.goto p .run)
    else some (unlocked.goto p .run)
  | none =>
    if !havekids then some (unlocked.goto p .run)
    else if s.plock p ≠ none then none
    else if (s.proc p).killed ≠ 0 then some (unlocked.goto p .run)
    else some (s.sleep p ⟨.proc p, .wait, true⟩)

/-- One round of the loop in `reparent`, or `wakeup(p->parent)` after it. -/
def reparentLook (s : St m n) (c : Fin m) (p : Fin n) (status : ℤ) (i : ℕ) : St m n :=
  match slot n i with
  | some pp =>
    if (s.proc pp).parent = some p then
      ((s.setProc pp { s.proc pp with parent := some s.tbl.initproc }).wakeup c
        (some (.proc s.tbl.initproc))).goto p (.reparent status (i + 1))
    else s.goto p (.reparent status (i + 1))
  | none => (s.wakeup c ((s.proc p).parent.map Chan.proc)).goto p (.zombie status)

/-- The next step of the thread of `p`, on the CPU `c`, where it is not on its way off the CPU. -/
def threadOn (s : St m n) (c : Fin m) (p : Fin n) (ok : Bool) : Option (St m n) :=
  match s.pc p with
  | .run => none
  | .fork i => s.forkLook p i ok
  | .adopt np =>
    if s.lockFree .wait then
      some ((s.setProc np { s.proc np with parent := some p }).goto p (.start np))
    else none
  | .start np =>
    if s.plock np = none then some ((s.setState np .RUNNABLE).goto p .run) else none
  | .kill pid i => s.killLook p pid i
  | .sleep0 z =>
    if s.plock p = none then some ((s.setPlock p (some c)).goto p (.sleep1 z)) else none
  | .sleep1 z => some ((s.setHeld c ((s.held c).erase z.lk)).goto p (.sleep2 z))
  | .sleep2 z => some (((s.setProc p { s.proc p with chan := some z.chan, state := .SLEEPING }).goto
      p (.asleep z)).setSw p .sched)
  | .asleep _ => none
  | .relock z =>
    if s.lockFree z.lk then
      some ((s.setHeld c (z.lk :: s.held c)).goto p (if z.inWait then .scan 0 false else .run))
    else none
  | .wait =>
    if s.lockFree .wait then some ((s.setHeld c (.wait :: s.held c)).goto p (.scan 0 false))
    else none
  | .scan j havekids => s.waitLook c p j havekids ok
  | .exit status =>
    if s.lockFree .wait then
      some ((s.setHeld c (.wait :: s.held c)).goto p (.reparent status 0))
    else none
  | .reparent status i => some (s.reparentLook c p status i)
  | .zombie status =>
    if s.plock p = none then
      some (((s.setPlock p (some c)).setProc p
        { s.proc p with xstate := status, state := .ZOMBIE }).goto p .leaving)
    else none
  | .leaving =>
    some (((s.setHeld c ((s.held c).erase .wait)).goto p .exiting).setSw p .sched)
  | .exiting => none

def thread (s : St m n) (c : Fin m) (p : Fin n) (ok : Bool) : Option (St m n) :=
  match s.sw p with
  | .on => s.threadOn c p ok
  | .yield => some ((s.setState p .RUNNABLE).setSw p .sched)
  | .sched =>
    -- `sched` panics with another lock held, or in a process that is still `RUNNING`
    if s.held c = [] ∧ (s.proc p).state ≠ .RUNNING then
      some ((s.setSw p .parked).setSpc c (.back p))
    else none
  | .parked => none
  | .resumed =>
    match s.pc p with
    | .asleep z =>
      some ((((s.setProc p { s.proc p with chan := none }).setPlock p none).goto p
        (.relock z)).setSw p .on)
    | .exiting => none
    | _ => some ((s.setPlock p none).setSw p .on)

/-- The thread of `p`, in other code, makes a call. The calls other than the first four are system
calls, made with no lock held. -/
def call (s : St m n) (c : Fin m) (p : Fin n) : Call n → Option (St m n)
  | .acquire k => if s.lockFree k then some (s.setHeld c (k :: s.held c)) else none
  | .release k => if k ∈ s.held c then some (s.setHeld c ((s.held c).erase k)) else none
  | .sleep chan lk => if lk ∈ s.held c then some (s.sleep p ⟨chan, lk, false⟩) else none
  | .wakeup chan => some (s.wakeup c (some chan))
  | .kill pid => if s.held c = [] then some (s.goto p (.kill pid 0)) else none
  | .fork => if s.held c = [] then some (s.goto p (.fork 0)) else none
  | .exit status =>
    if s.held c = [] ∧ p ≠ s.tbl.initproc then some (s.goto p (.exit status)) else none
  | .wait => if s.held c = [] then some (s.goto p .wait) else none

end St

inductive Act (m n : ℕ)
  | scheduler (c : Fin m)
  | thread (c : Fin m) (ok : Bool)
  | call (c : Fin m) (x : Call n)
  | wake (c : Fin m)
  | timer (c : Fin m)
  | device (c : Fin m) (chan : Chan n)

def interruptible (s : St m n) (c : Fin m) : Prop :=
  s.held c = [] ∧ ∀ p, s.plock p ≠ some c

instance (s : St m n) (c : Fin m) : Decidable (interruptible s c) :=
  inferInstanceAs (Decidable (_ ∧ _))

def step (s : St m n) : Act m n → Option (St m n)
  | .wake c =>
    match s.wake c with
    | some w => s.wakeLook c w
    | none => none
  | .scheduler c => if (s.wake c).isSome then none else s.scheduler c
  | .thread c ok =>
    if (s.wake c).isSome then none
    else match s.spc c with
      | .away p => s.thread c p ok
      | _ => none
  | .call c x =>
    if (s.wake c).isSome then none
    else match s.spc c with
      | .away p => if s.sw p = .on ∧ s.pc p = .run then s.call c p x else none
      | _ => none
  | .timer c =>
    if (s.wake c).isSome ∨ ¬ interruptible s c then none
    else match s.spc c with
      | .away p =>
        if s.sw p = .on ∧ s.plock p = none then some ((s.setPlock p (some c)).setSw p .yield)
        else none
      | _ => none
  | .device c chan =>
    if (s.wake c).isSome ∨ ¬ interruptible s c then none else some (s.wakeup c (some chan))

def start (i : Fin n) : St m n where
  tbl := userinit i
  plock := fun _ => none
  held := fun _ => []
  cpu := fun _ => none
  spc := fun _ => .look 0
  pc := fun _ => .run
  sw := fun _ => .parked
  wake := fun _ => none
  slept := fun _ => 0

end Xv6.SchedModel
