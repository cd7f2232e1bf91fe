import Xv6.ProcModel
import Xv6.Runs

/-!
`kfork`, `kexit` with `reparent`, `kwait`, `kkill`, `sleep` and `wakeup` of `kernel/proc.c`,
run by any number of processes at once.

A step is one section of code between taking and releasing a lock. A section that needs a
lock has no step while another holds it. `wait_lock` is held from step to step, and so is a
process's own lock where the code lets go of `wait_lock` before it lets go of that one: in
`sleep`, and on the way out of `kexit`. All other sections under a process lock are single
steps. A process gives up the CPU only where it holds no lock.
-/

namespace Xv6.WaitModel

open Function

open ProcModel hiding Act step

inductive Pc (n : ℕ)
  /-- Outside of all this: in user space, or in other kernel code. -/
  | idle
  /-- `allocproc`, called by `kfork`, looks at slot `i` next. -/
  | alloc (i : ℕ)
  /-- `kfork` is to set the parent of the new process. -/
  | adopt (np : Fin n)
  /-- `kfork` is to make the new process runnable. -/
  | start (np : Fin n)
  /-- `kkill` looks at slot `i` next. -/
  | kill (pid : ℤ) (i : ℕ)
  /-- `kexit` is to take `wait_lock`. -/
  | exit (status : ℤ)
  /-- `reparent` looks at slot `i` next. -/
  | reparent (status : ℤ) (i : ℕ)
  /-- `wakeup(initproc)`, after `reparent` has passed on slot `i`, looks at slot `j` next. -/
  | wakeInit (status : ℤ) (i j : ℕ)
  /-- `wakeup(parent)` looks at slot `j` next, or else the process turns into a zombie. -/
  | wakeParent (status : ℤ) (parent : Option (Fin n)) (j : ℕ)
  /-- The exited process is still on its way through `sched`. -/
  | dying
  /-- `kwait` is to take `wait_lock`, at first or back from `sleep`. -/
  | wait
  /-- `kwait` looks at slot `j` next. -/
  | scan (j : ℕ) (havekids : Bool)
  /-- `kwait` has seen the whole table. -/
  | check (havekids : Bool)
  /-- `kwait` calls `sleep`. -/
  | presleep
  /-- `sleep` has let go of `wait_lock`, and holds the process's own lock. -/
  | falling
  /-- Off the CPU in that `sleep`. -/
  | asleep
  deriving DecidableEq

/-- An exit: the process, its pid and its status. -/
structure Exit where
  proc : ℕ
  pid : ℤ
  status : ℤ
  deriving DecidableEq

/-- A call of `kwait` that returned a child: the caller, the process that is the child's
parent, the child, and what was returned. -/
structure Reap where
  caller : ℕ
  parent : ℕ
  child : ℕ
  pid : ℤ
  status : ℤ
  deriving DecidableEq

/-- The table, the processes' places in the code and the locks. The rest is bookkeeping that
no step looks at: processes are numbered in the order in which they are allocated, and `inc`
is the number of the process in a slot, `father` that of its parent. -/
structure St (n : ℕ) where
  tbl : Table n
  pc : Fin n → Pc n
  waitLock : Option (Fin n)
  locked : Fin n → Bool
  born : ℕ
  inc : Fin n → ℕ
  father : Fin n → ℕ
  exited : List Exit
  reaped : List Reap

variable {n : ℕ}

/-- The slot a loop over the table is at; none when the loop is over. -/
def slot (n i : ℕ) : Option (Fin n) := if h : i < n then some ⟨i, h⟩ else none

lemma slot_some {i : ℕ} {j : Fin n} (h : slot n i = some j) : j.val = i := by
  unfold slot at h
  split_ifs at h
  exact congrArg Fin.val (Option.some.inj h).symm

lemma slot_none {i : ℕ} (h : slot n i = none) : n ≤ i := by
  unfold slot at h
  split_ifs at h
  omega

namespace St

abbrev proc (s : St n) (i : Fin n) : Proc n := s.tbl.procs i

def goto (s : St n) (p : Fin n) (c : Pc n) : St n := { s with pc := update s.pc p c }

def setProc (s : St n) (i : Fin n) (x : Proc n) : St n := { s with tbl := s.tbl.set i x }

def setLocked (s : St n) (i : Fin n) (b : Bool) : St n :=
  { s with locked := update s.locked i b }

section Fields

variable (s : St n) (p i : Fin n) (c : Pc n) (x : Proc n) (b : Bool)

@[simp] lemma goto_tbl : (s.goto p c).tbl = s.tbl := rfl
@[simp] lemma goto_waitLock : (s.goto p c).waitLock = s.waitLock := rfl
@[simp] lemma goto_locked : (s.goto p c).locked = s.locked := rfl
@[simp] lemma goto_pc_self : (s.goto p c).pc p = c := update_self ..
lemma goto_pc_ne {p i : Fin n} (h : i ≠ p) : (s.goto p c).pc i = s.pc i :=
  update_of_ne h ..

@[simp] lemma setProc_pc : (s.setProc i x).pc = s.pc := rfl
@[simp] lemma setProc_waitLock : (s.setProc i x).waitLock = s.waitLock := rfl
@[simp] lemma setProc_locked : (s.setProc i x).locked = s.locked := rfl
@[simp] lemma setProc_initproc : (s.setProc i x).tbl.initproc = s.tbl.initproc := rfl
@[simp] lemma setProc_self : (s.setProc i x).proc i = x := Table.set_procs_self ..
lemma setProc_ne {i j : Fin n} (h : j ≠ i) : (s.setProc i x).proc j = s.proc j :=
  Table.set_procs_ne _ h _

@[simp] lemma setLocked_tbl : (s.setLocked p b).tbl = s.tbl := rfl
@[simp] lemma setLocked_pc : (s.setLocked p b).pc = s.pc := rfl
@[simp] lemma setLocked_self : (s.setLocked p b).locked p = b := update_self ..
lemma setLocked_ne {p i : Fin n} (h : i ≠ p) : (s.setLocked p b).locked i = s.locked i :=
  update_of_ne h ..

end Fields

/-! ### kfork -/

def claim (s : St n) (np : Fin n) : St n :=
  { s with tbl := s.tbl.claim np, born := s.born + 1, inc := update s.inc np s.born }

def unclaim (s : St n) (np : Fin n) : St n := { s with tbl := s.tbl.freeproc np }

/-- One round of the loop in `allocproc`. If the slot is free, it is taken, and if there is
memory the child is filled in before the lock is released. -/
def forkLook (s : St n) (p : Fin n) (i : ℕ) (memory : Bool) : Option (St n) :=
  match slot n i with
  | none => some (s.goto p .idle)
  | some np =>
    if s.locked np then none
    else if (s.proc np).state ≠ .UNUSED then some (s.goto p (.alloc (i + 1)))
    else if memory then some ((s.claim np).goto p (.adopt np))
    else some (((s.claim np).unclaim np).goto p .idle)

def setParent (s : St n) (pp q : Fin n) : St n :=
  { s.setProc pp { s.proc pp with parent := some q } with
    father := update s.father pp (s.inc q) }

def forkAdopt (s : St n) (p np : Fin n) : Option (St n) :=
  if s.waitLock ≠ none then none else some ((s.setParent np p).goto p (.start np))

def forkStart (s : St n) (p np : Fin n) : Option (St n) :=
  if s.locked np then none
  else some ((s.setProc np { s.proc np with state := .RUNNABLE }).goto p .idle)

/-! ### kkill and wakeup -/

def killed (x : Proc n) : Proc n :=
  if x.state = .SLEEPING then { x with killed := 1, state := .RUNNABLE } else { x with killed := 1 }

def killLook (s : St n) (p : Fin n) (pid : ℤ) (i : ℕ) : Option (St n) :=
  match slot n i with
  | none => some (s.goto p .idle)
  | some j =>
    if s.locked j then none
    else if (s.proc j).pid = pid then
      some ((s.setProc j (killed (s.proc j))).goto p .idle)
    else some (s.goto p (.kill pid (i + 1)))

def wakeSlot (s : St n) (j : Fin n) (c : Option (Chan n)) : St n :=
  if (s.proc j).state = .SLEEPING ∧ (s.proc j).chan = c then
    s.setProc j { s.proc j with state := .RUNNABLE }
  else s

/-- One round of the loop in `wakeup`, called by `p`; the channel is an address, perhaps
null. -/
def wakeLook (s : St n) (p j : Fin n) (c : Option (Chan n)) : Option (St n) :=
  if j = p then some s
  else if s.locked j then none
  else some (s.wakeSlot j c)

/-! ### kexit -/

def exitBegin (s : St n) (p : Fin n) (status : ℤ) : Option (St n) :=
  if s.waitLock ≠ none then none
  else some ({ s with waitLock := some p }.goto p (.reparent status 0))

def reparentLook (s : St n) (p : Fin n) (status : ℤ) (i : ℕ) : Option (St n) :=
  match slot n i with
  | none => some (s.goto p (.wakeParent status (s.proc p).parent 0))
  | some pp =>
    if (s.proc pp).parent = some p then
      some ((s.setParent pp s.tbl.initproc).goto p (.wakeInit status i 0))
    else some (s.goto p (.reparent status (i + 1)))

def wakeInitLook (s : St n) (p : Fin n) (status : ℤ) (i j : ℕ) : Option (St n) :=
  match slot n j with
  | none => some (s.goto p (.reparent status (i + 1)))
  | some q => (s.wakeLook p q (some (.proc s.tbl.initproc))).map fun t =>
      t.goto p (.wakeInit status i (j + 1))

/-- The process takes its own lock, turns into a zombie and lets go of `wait_lock`. -/
def die (s : St n) (p : Fin n) (status : ℤ) : St n :=
  { (s.setProc p { s.proc p with xstate := status, state := .ZOMBIE }).setLocked p true with
    waitLock := none
    exited := ⟨s.inc p, (s.proc p).pid, status⟩ :: s.exited }

def exitEnd (s : St n) (p : Fin n) (status : ℤ) : Option (St n) :=
  if s.locked p then none else some ((s.die p status).goto p .dying)

def wakeParentLook (s : St n) (p : Fin n) (status : ℤ) (parent : Option (Fin n)) (j : ℕ) :
    Option (St n) :=
  match slot n j with
  | none => s.exitEnd p status
  | some q => (s.wakeLook p q (parent.map .proc)).map fun t =>
      t.goto p (.wakeParent status parent (j + 1))

/-! ### kwait -/

def waitBegin (s : St n) (p : Fin n) : Option (St n) :=
  if s.waitLock ≠ none then none
  else some ({ s with waitLock := some p }.goto p (.scan 0 false))

def waitEnd (s : St n) (p : Fin n) : St n := { s with waitLock := none }.goto p .idle

def reap (s : St n) (p pp : Fin n) : St n :=
  { s with
    tbl := s.tbl.freeproc pp
    reaped := ⟨s.inc p, s.father pp, s.inc pp, (s.proc pp).pid, (s.proc pp).xstate⟩ :: s.reaped }

def scanLook (s : St n) (p : Fin n) (j : ℕ) (havekids copyout : Bool) : Option (St n) :=
  match slot n j with
  | none => some (s.goto p (.check havekids))
  | some pp =>
    if (s.proc pp).parent = some p then
      if s.locked pp then none
      else if (s.proc pp).state = .ZOMBIE then
        if !copyout then some (s.waitEnd p) else some ((s.reap p pp).waitEnd p)
      else some (s.goto p (.scan (j + 1) true))
    else some (s.goto p (.scan (j + 1) havekids))

def waitCheck (s : St n) (p : Fin n) (havekids : Bool) : Option (St n) :=
  if !havekids then some (s.waitEnd p)
  else if s.locked p then none
  else if (s.proc p).killed ≠ 0 then some (s.waitEnd p)
  else some (s.goto p .presleep)

/-- `sleep(p, &wait_lock)` up to the release of `wait_lock`. -/
def sleepBegin (s : St n) (p : Fin n) : Option (St n) :=
  if s.locked p then none
  else some ({ s.setLocked p true with waitLock := none }.goto p .falling)

/-- The rest of `sleep`, up to the scheduler's release of the process's lock. -/
def sleepEnd (s : St n) (p : Fin n) : St n :=
  ((s.setProc p { s.proc p with chan := some (.proc p), state := .SLEEPING }).setLocked p
    false).goto p .asleep

end St

/-- The next section of process `p`; `b` says whether memory is there, and whether the status
can be copied out. -/
def go (s : St n) (p : Fin n) (b : Bool) : Option (St n) :=
  match s.pc p with
  | .idle => none
  | .alloc i => s.forkLook p i b
  | .adopt np => s.forkAdopt p np
  | .start np => s.forkStart p np
  | .kill pid i => s.killLook p pid i
  | .exit status => s.exitBegin p status
  | .reparent status i => s.reparentLook p status i
  | .wakeInit status i j => s.wakeInitLook p status i j
  | .wakeParent status parent j => s.wakeParentLook p status parent j
  | .dying => none
  | .wait => s.waitBegin p
  | .scan j havekids => s.scanLook p j havekids b
  | .check havekids => s.waitCheck p havekids
  | .presleep => s.sleepBegin p
  | .falling => some (s.sleepEnd p)
  | .asleep => none

/-- The process holds no lock there, and a timer interrupt can take the CPU from it. -/
def Pc.preemptible : Pc n → Bool
  | .idle | .alloc _ | .adopt _ | .start _ | .kill _ _ | .exit _ | .wait => true
  | _ => false

/-- Where a process goes on when the scheduler picks it. -/
def Pc.resume : Pc n → Pc n
  | .asleep => .wait
  | c => c

inductive Act (n : ℕ)
  /-- A system call, or the exit of a killed process. -/
  | call (p : Fin n) (c : Pc n)
  /-- The next section of the process's code. -/
  | go (p : Fin n) (b : Bool)
  /-- An exited process leaves the CPU. -/
  | swtch (p : Fin n)
  | schedule (p : Fin n)
  | yield (p : Fin n)
  /-- `sleep` in other kernel code, on channel `c`. -/
  | sleep (p : Fin n) (c : ℕ)
  /-- `wakeup(c)` by other kernel code or an interrupt, at slot `i`. -/
  | wake (i : Fin n) (c : ℕ)
  | setkilled (p : Fin n)

/-- The calls a process can make: `fork`, `kill`, `exit` unless it is `init`, and `wait`. -/
def Callable (s : St n) (p : Fin n) : Pc n → Prop
  | .alloc i => i = 0
  | .kill _ i => i = 0
  | .exit _ => p ≠ s.tbl.initproc
  | .wait => True
  | _ => False

instance (s : St n) (p : Fin n) (c : Pc n) : Decidable (Callable s p c) := by
  cases c <;> unfold Callable <;> infer_instance

def step (s : St n) : Act n → Option (St n)
  | .call p c =>
    if (s.proc p).state = .RUNNING ∧ s.pc p = .idle ∧ Callable s p c then some (s.goto p c)
    else none
  | .go p b => if (s.proc p).state = .RUNNING then go s p b else none
  | .swtch p => if s.pc p = .dying then some ((s.setLocked p false).goto p .idle) else none
  | .schedule p =>
    if s.locked p = false ∧ (s.proc p).state = .RUNNABLE then
      some ({ s with tbl := s.tbl.schedule p }.goto p (s.pc p).resume)
    else none
  | .yield p =>
    if s.locked p = false ∧ (s.proc p).state = .RUNNING ∧ (s.pc p).preemptible then
      some { s with tbl := s.tbl.yield p }
    else none
  | .sleep p c =>
    if s.locked p = false ∧ (s.proc p).state = .RUNNING ∧ s.pc p = .idle then
      some { s with tbl := s.tbl.sleep p c }
    else none
  | .wake i c => if s.locked i then none else some (s.wakeSlot i (some (.other c)))
  | .setkilled p =>
    if s.locked p = false ∧ (s.proc p).state = .RUNNING ∧ s.pc p = .idle then
      some { s with tbl := s.tbl.setkilled p }
    else none

def boot (i : Fin n) : St n where
  tbl := userinit i
  pc := fun _ => .idle
  waitLock := none
  locked := fun _ => false
  born := 1
  inc := fun _ => 0
  father := fun _ => 0
  exited := []
  reaped := []

end Xv6.WaitModel
