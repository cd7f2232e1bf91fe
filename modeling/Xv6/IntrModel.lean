import Mathlib.Data.Finset.Card
import Mathlib.Data.Fintype.Sum
import Xv6.ProcModel
import Xv6.Threads

/-!
Spinlocks, `push_off` and `pop_off` (kernel/spinlock.c), context switches (`scheduler`, `sched`,
`yield`, `sleep` and `wakeup` of kernel/proc.c) and interrupts (`kerneltrap` of kernel/trap.c),
on any number of CPUs.

A thread is the scheduler of a CPU or a process in the kernel. A request is one access to the
shared state by the CPU that runs the thread. What a CPU does to its own `struct cpu` while its
interrupts are off is one request where the code does it in one go, and so are the two stores
that take a lock and the two that give it back: no other thread can tell them apart. `noff`, an
`int`, is a natural number: it does not wrap as long as a CPU holds fewer than `2 ^ 31` locks and
open `push_off`s.
-/

namespace Xv6.Intr

open Threads
open Function (update update_self)
open ProcModel (ProcState)

abbrev Lock (n : ℕ) (K : Type) := Fin n ⊕ K

variable {m n : ℕ} {K : Type}

abbrev plock (p : Fin n) : Lock n K := .inl p

inductive Thread (m n : ℕ)
  | sched (c : Fin m)
  | proc (p : Fin n)
  deriving DecidableEq

/-- `struct cpu`, and the interrupt enable bit of the CPU's `sstatus`. -/
structure Cpu (n : ℕ) where
  proc : Option (Fin n)
  noff : ℕ
  intena : Bool
  sie : Bool
  deriving DecidableEq

structure Spinlock (m : ℕ) where
  locked : Bool
  cpu : Option (Fin m)
  deriving DecidableEq

structure St (m n : ℕ) (K : Type) where
  cpu : Fin m → Cpu n
  lock : Lock n K → Spinlock m
  state : Fin n → ProcState
  chan : Fin n → ℕ
  /-- The process whose registers a CPU has, `none` if they are the scheduler's. -/
  cur : Fin m → Option (Fin n)
  /-- The `push_off`s of a thread without a `pop_off` or a lock that goes with them. -/
  pushed : Thread m n → ℕ
  /-- The interrupt enable bit before a thread's last `push_off` from `noff` 0. -/
  base : Thread m n → Option Bool

def running (s : St m n K) (c : Fin m) : Thread m n :=
  match s.cur c with
  | none => .sched c
  | some p => .proc p

inductive Why
  | acquire
  | release
  | popOffInterruptible
  | popOff
  | schedLock
  | schedLocks
  | schedRunning
  | schedInterruptible
  | kerneltrap
  | nullProc
  deriving DecidableEq

/-! ### Requests -/

inductive Op (n : ℕ) (K : Type)
  | intrGet
  | intrOn
  | intrOff
  | pushNoff (old : Bool)
  | getNoff
  | popNoff
  | holding (l : Lock n K)
  | take (l : Lock n K)
  | drop (l : Lock n K)
  | getProc
  | setProc (p : Option (Fin n))
  | getState (p : Fin n)
  | setState (p : Fin n) (x : ProcState)
  | getChan (p : Fin n)
  | setChan (p : Fin n) (a : ℕ)
  | getIntena
  | setIntena (b : Bool)
  | swtchOut
  | swtchTo (p : Fin n)
  | resumed
  | panic (why : Why)

def Op.Resp : Op n K → Type
  | .intrGet | .holding _ | .getIntena => Bool
  | .getNoff | .getChan _ => ℕ
  | .getProc => Option (Fin n)
  | .getState _ => ProcState
  | .panic _ => Empty
  | _ => Unit

abbrev sig (n : ℕ) (K : Type) : Sig := ⟨Op n K, Op.Resp⟩

abbrev Code (n : ℕ) (K : Type) (α : Type) := Prog (sig n K) α

def St.setCpu (s : St m n K) (c : Fin m) (x : Cpu n) : St m n K :=
  { s with cpu := update s.cpu c x }

@[simp] lemma St.setCpu_self (s : St m n K) (c : Fin m) (x : Cpu n) : (s.setCpu c x).cpu c = x :=
  update_self _ _ _

def St.setPushed (s : St m n K) (t : Thread m n) (k : ℕ) : St m n K :=
  { s with pushed := update s.pushed t k }

variable [DecidableEq K] in
/-- A request of the thread `t`, which the CPU `c` runs. -/
def act (c : Fin m) (t : Thread m n) (s : St m n K) : (o : Op n K) → Option (o.Resp × St m n K)
  | .intrGet => some ((s.cpu c).sie, s)
  | .intrOn => some ((), s.setCpu c { s.cpu c with sie := true })
  | .intrOff => some ((), s.setCpu c { s.cpu c with sie := false })
  | .pushNoff old =>
    -- `intr_off`, and the rest of `push_off` on the CPU's own fields
    let x := s.cpu c
    let y := { x with
      sie := false, intena := if x.noff = 0 then old else x.intena, noff := x.noff + 1 }
    let s' := (s.setCpu c y).setPushed t (s.pushed t + 1)
    some ((), if x.noff = 0 then { s' with base := update s.base t (some x.sie) } else s')
  | .getNoff => some ((s.cpu c).noff, s)
  | .popNoff =>
    let x := s.cpu c
    let y := { x with
      noff := x.noff - 1, sie := x.sie || (decide (x.noff - 1 = 0) && x.intena) }
    some ((), (s.setCpu c y).setPushed t (s.pushed t - 1))
  | .holding l => some ((s.lock l).locked && decide ((s.lock l).cpu = some c), s)
  | .take l =>
    -- the loop around `__sync_lock_test_and_set` waits here
    if (s.lock l).locked then none
    else some ((), { s.setPushed t (s.pushed t - 1) with
      lock := update s.lock l ⟨true, some c⟩ })
  | .drop l => some ((), { s.setPushed t (s.pushed t + 1) with
      lock := update s.lock l ⟨false, none⟩ })
  | .getProc => some ((s.cpu c).proc, s)
  | .setProc p => some ((), s.setCpu c { s.cpu c with proc := p })
  | .getState p => some (s.state p, s)
  | .setState p x => some ((), { s with state := update s.state p x })
  | .getChan p => some (s.chan p, s)
  | .setChan p a => some ((), { s with chan := update s.chan p a })
  | .getIntena => some ((s.cpu c).intena, s)
  | .setIntena b => some ((), s.setCpu c { s.cpu c with intena := b })
  | .swtchOut => some ((), { s with cur := update s.cur c none })
  | .swtchTo p => some ((), { s with cur := update s.cur c (some p) })
  | .resumed => some ((), s)
  | .panic _ => none

variable [DecidableEq K] in
def exec (t : Thread m n) (o : Op n K) (c : Fin m) (s : St m n K) :
    Option (o.Resp × St m n K) :=
  if running s c = t then act c t s o else none

/-! ### Requests, as functions of the kernel -/

def req (o : Op n K) : Code n K o.Resp := Prog.ask (S := sig n K) o

def intrGet : Code n K Bool := req .intrGet
def intrOn : Code n K Unit := req .intrOn
def intrOff : Code n K Unit := req .intrOff
def pushNoff (old : Bool) : Code n K Unit := req (.pushNoff old)
def getNoff : Code n K ℕ := req .getNoff
def popNoff : Code n K Unit := req .popNoff
def holding (l : Lock n K) : Code n K Bool := req (.holding l)
def take (l : Lock n K) : Code n K Unit := req (.take l)
def drop (l : Lock n K) : Code n K Unit := req (.drop l)
def getProc : Code n K (Option (Fin n)) := req .getProc
def setProc (p : Option (Fin n)) : Code n K Unit := req (.setProc p)
def getState (p : Fin n) : Code n K ProcState := req (.getState p)
def setState (p : Fin n) (x : ProcState) : Code n K Unit := req (.setState p x)
def getChan (p : Fin n) : Code n K ℕ := req (.getChan p)
def setChan (p : Fin n) (a : ℕ) : Code n K Unit := req (.setChan p a)
def getIntena : Code n K Bool := req .getIntena
def setIntena (b : Bool) : Code n K Unit := req (.setIntena b)
def swtchOut : Code n K Unit := req .swtchOut
def swtchTo (p : Fin n) : Code n K Unit := req (.swtchTo p)
/-- The thread's own `swtch` returns, once it is switched to. -/
def resumed : Code n K Unit := req .resumed
def panic {α : Type} (why : Why) : Code n K α := Prog.op (S := sig n K) (.panic why) Empty.elim

/-! ### spinlock.c -/

def pushOff : Code n K Unit := do
  let old ← intrGet
  pushNoff old

def popOff : Code n K Unit := do
  let on ← intrGet
  if on then panic .popOffInterruptible
  else do
    let noff ← getNoff
    if noff < 1 then panic .popOff
    else popNoff

def acquire (l : Lock n K) : Code n K Unit := do
  pushOff
  let held ← holding l
  if held then panic .acquire
  else take l

def release (l : Lock n K) : Code n K Unit := do
  let held ← holding l
  if held then do
    drop l
    popOff
  else panic .release

/-! ### proc.c -/

def myproc : Code n K (Option (Fin n)) := do
  pushOff
  let p ← getProc
  popOff
  pure p

/-- `sched`, for the process that `myproc` gives. `swtch` returns when the process is switched
to again. -/
def schedOf (p : Fin n) : Code n K Unit := do
  let held ← holding (plock p)
  if held then do
    let noff ← getNoff
    if noff = 1 then do
      let state ← getState p
      if state = .RUNNING then panic .schedRunning
      else do
        let on ← intrGet
        if on then panic .schedInterruptible
        else do
          let intena ← getIntena
          swtchOut
          resumed
          setIntena intena
    else panic .schedLocks
  else panic .schedLock

/-- Go on with the process that `myproc` gives; without one the code would use a null pointer. -/
def withProc (f : Fin n → Code n K Unit) : Code n K Unit := do
  match ← myproc with
  | none => panic .nullProc
  | some p => f p

def sched : Code n K Unit := withProc schedOf

def yield : Code n K Unit := withProc fun p => do
  acquire (plock p)
  setState p .RUNNABLE
  sched
  release (plock p)

def sleep (chan : ℕ) (lk : Lock n K) : Code n K Unit := withProc fun p => do
  acquire (plock p)
  release lk
  setChan p chan
  setState p .SLEEPING
  sched
  setChan p 0
  release (plock p)
  acquire lk

def wakeupOne (chan : ℕ) (q : Fin n) : Code n K Unit := do
  let p ← myproc
  if p = some q then pure ()
  else do
    acquire (plock q)
    let state ← getState q
    if state = .SLEEPING then do
      let a ← getChan q
      if a = chan then do
        setState q .RUNNABLE
        release (plock q)
      else release (plock q)
    else release (plock q)

def each {α : Type} (f : α → Code n K Unit) : List α → Code n K Unit
  | [] => pure ()
  | a :: as => do
    f a
    each f as

def wakeup (chan : ℕ) : Code n K Unit := each (wakeupOne chan) (List.finRange n)

/-- The first switch to a process goes to `forkret`. Its return to user space is left out. -/
def forkret : Code n K Unit := do
  resumed
  withProc fun p => release (plock p)

def schedulerOne (q : Fin n) : Code n K Unit := do
  acquire (plock q)
  let state ← getState q
  if state = .RUNNABLE then do
    setState q .RUNNING
    setProc (some q)
    swtchTo q
    resumed
    setProc none
    release (plock q)
  else release (plock q)

/-- One turn of the outer loop of `scheduler`. It may end with a `wfi`, which changes nothing. -/
def scheduler : Code n K Unit := do
  intrOn
  intrOff
  each schedulerOne (List.finRange n)

/-! ### trap.c -/

/-- A critical section of a device's interrupt handler: its lock, and the channels it wakes. -/
def devSection (d : K × List ℕ) : Code n K Unit := do
  acquire (.inr d.1)
  each wakeup d.2
  release (.inr d.1)

/-- The end of `kerneltrap`: give up the CPU if this is a timer interrupt. -/
def timerYield (timer : Bool) : Code n K Unit :=
  if timer then do
    let p ← myproc
    if p.isSome then yield else pure ()
  else pure ()

/-- `kerneltrap` with what `devintr` does, and the `sret` after it, which turns interrupts on
again. -/
def kerneltrap (devs : List (K × List ℕ)) (timer : Bool) : Code n K Unit := do
  let on ← intrGet
  if on then panic .kerneltrap
  else do
    each devSection devs
    timerYield timer
    intrOn

/-! ### The system -/

/-- What a process may do in the kernel, in any order. -/
inductive Call (n : ℕ) (K : Type)
  | acquire (l : Lock n K)
  | release (l : Lock n K)
  | pushOff
  | popOff
  | yield
  | sleep (chan : ℕ) (lk : Lock n K)
  | wakeup (chan : ℕ)
  | intrOn
  | intrOff

def Call.code : Call n K → Code n K Unit
  | .acquire l => Intr.acquire l
  | .release l => Intr.release l
  | .pushOff => Intr.pushOff
  | .popOff => Intr.popOff
  | .yield => Intr.yield
  | .sleep chan lk => Intr.sleep chan lk
  | .wakeup chan => Intr.wakeup chan
  | .intrOn => Intr.intrOn
  | .intrOff => Intr.intrOff

variable [DecidableEq K]

/-- The `pop_off`s of a process go with its `push_off`s, it turns interrupts on only outside
of them, and its own lock is not the condition lock that it gives to `sleep`. -/
def Call.allowed (s : St m n K) (c : Fin m) (p : Fin n) : Call n K → Bool
  | .popOff => decide (0 < s.pushed (.proc p))
  | .intrOn => decide ((s.cpu c).noff = 0)
  | .sleep _ lk => decide (lk ≠ plock p)
  | _ => true

/-- A thread that has nothing to do goes on: the scheduler with its loop, a process with any
call. -/
def call (t : Thread m n) (x : Fin m × Call n K) (s : St m n K) :
    Option (St m n K × Code n K Unit) :=
  if running s x.1 = t then
    match t with
    | .sched _ => some (s, scheduler)
    | .proc p => if x.2.allowed s x.1 p then some (s, x.2.code) else none
  else none

structure Irq (m : ℕ) (K : Type) where
  cpu : Fin m
  devs : List (K × List ℕ)
  timer : Bool

def irq (t : Thread m n) (i : Irq m K) (s : St m n K) : Option (St m n K × Code n K Unit) :=
  if running s i.cpu = t ∧ (s.cpu i.cpu).sie = true then
    some (s.setCpu i.cpu { s.cpu i.cpu with sie := false }, kerneltrap i.devs i.timer)
  else none

abbrev Kernel (m n : ℕ) (K : Type) := Sys (sig n K) (Thread m n) (St m n K)

abbrev KEvent (m n : ℕ) (K : Type) :=
  Event (Thread m n) (Fin m) (Fin m × Call n K) (Irq m K)

def step (s : Kernel m n K) (e : KEvent m n K) : Option (Kernel m n K) :=
  next exec call irq s e

/-- The start: every CPU is in its scheduler, no lock is taken and no process has run. -/
structure Init (s : Kernel m n K) : Prop where
  cpu : ∀ c, (s.shared.cpu c).proc = none ∧ (s.shared.cpu c).noff = 0
  lock : ∀ l, s.shared.lock l = ⟨false, none⟩
  state : ∀ p, s.shared.state p ≠ .RUNNING
  cur : ∀ c, s.shared.cur c = none
  pushed : ∀ t, s.shared.pushed t = 0
  base : ∀ t, s.shared.base t = none
  sched : ∀ c, s.thread (.sched c) = .ret ()
  proc : ∀ p, s.thread (.proc p) = forkret

variable [Fintype K]

def heldOn (s : St m n K) (c : Fin m) : Finset (Lock n K) :=
  Finset.univ.filter fun l => (s.lock l).locked = true ∧ (s.lock l).cpu = some c

def Panics (s : Kernel m n K) (t : Thread m n) (why : Why) : Prop :=
  match s.thread t with
  | .op (.panic w) _ => w = why
  | _ => False

end Xv6.Intr
