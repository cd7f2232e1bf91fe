import Xv6.ProcModel
import Xv6.RingBuffer
import Xv6.Runs

/-!
One pipe of `kernel/pipe.c`, used by the processes of a table.

A process that holds `pi->lock` takes its loop one round at a time; nobody else can take the
lock meanwhile. A `kill` needs no more than the lock of its victim, and can come between any
two rounds. `sleep` and `wakeup` are single steps: the lock of the process keeps them apart.

`put` and `taken` record what has gone into the ring and come out of it.
-/

namespace Xv6.PipeModel

open ProcModel (Table ProcState scan)
open RingBuffer

def PIPESIZE : ℕ := 512

instance : NeZero PIPESIZE := ⟨by decide⟩

structure Pipe where
  ring : Ring UInt8 32 PIPESIZE
  readopen : Bool
  writeopen : Bool

/-- The addresses `&pi->nread` and `&pi->nwrite`, as channels. -/
def nreadChan : ℕ := 0
def nwriteChan : ℕ := 1

/-- Where a process is in `pipewrite` or `piperead`, with its `n` and `i`. -/
inductive Pc
  | idle
  | writing (n i : ℤ)
  | writeSleep (n i : ℤ)
  | readWait (n : ℤ)
  | readSleep (n : ℤ)
  | reading (n i : ℤ)
  deriving DecidableEq

structure State (n : ℕ) where
  pi : Pipe
  lock : Option (Fin n)
  tbl : Table n
  pc : Fin n → Pc
  put : List UInt8
  taken : List UInt8

variable {n : ℕ}

namespace State

def setPc (s : State n) (p : Fin n) (pc : Pc) : State n :=
  { s with pc := Function.update s.pc p pc }

def wakeup (s : State n) (p : Fin n) (chan : ℕ) : State n :=
  { s with tbl := s.tbl.wakeup (some p) (.other chan) }

def release (s : State n) (p : Fin n) : State n := { s.setPc p .idle with lock := none }

/-- `sleep(chan, &pi->lock)`, up to the point where the process is switched away from. -/
def sleep (s : State n) (p : Fin n) (chan : ℕ) (pc : Pc) : State n :=
  { s.setPc p pc with lock := none, tbl := s.tbl.sleep p chan }

def killed (s : State n) (p : Fin n) : Prop := (s.tbl.procs p).killed ≠ 0

instance (s : State n) (p : Fin n) : Decidable (s.killed p) :=
  inferInstanceAs (Decidable ((s.tbl.procs p).killed ≠ 0))

def awake (s : State n) (p : Fin n) : Prop :=
  (s.tbl.procs p).state = .RUNNABLE ∨ (s.tbl.procs p).state = .RUNNING

instance (s : State n) (p : Fin n) : Decidable (s.awake p) :=
  inferInstanceAs (Decidable (_ ∨ _))

end State

/-- A round of the loop of `pipewrite`; `user` is what `copyin` gets. -/
def pipewrite (s : State n) (p : Fin n) (m i : ℤ) (user : Option UInt8) : State n :=
  if i < m then
    if s.pi.readopen = false ∨ s.killed p then s.release p
    else if full s.pi.ring then (s.wakeup p nreadChan).sleep p nwriteChan (.writeSleep m i)
    else
      match user with
      | none => (s.wakeup p nreadChan).release p
      | some ch =>
        { s.setPc p (.writing m (i + 1)) with
          pi := { s.pi with ring := push s.pi.ring ch }, put := s.put ++ [ch] }
  else (s.wakeup p nreadChan).release p

def pipereadWait (s : State n) (p : Fin n) (m : ℤ) : State n :=
  if s.pi.ring.nread = s.pi.ring.nwrite ∧ s.pi.writeopen then
    if s.killed p then s.release p else s.sleep p nreadChan (.readSleep m)
  else s.setPc p (.reading m 0)

/-- A round of its second loop; `user` is `none` where `copyout` fails. -/
def pipereadCopy (s : State n) (p : Fin n) (m i : ℤ) (user : Option UInt8) : State n :=
  if i < m ∧ s.pi.ring.nread ≠ s.pi.ring.nwrite then
    let s' := { s with
      pi := { s.pi with ring := pop s.pi.ring }, taken := s.taken ++ [front s.pi.ring] }
    match user with
    | none => (s'.wakeup p nwriteChan).release p
    | some _ => s'.setPc p (.reading m (i + 1))
  else (s.wakeup p nwriteChan).release p

def pipeclose (s : State n) (p : Fin n) (writable : Bool) : State n :=
  if writable then { s with pi := { s.pi with writeopen := false } }.wakeup p nreadChan
  else { s with pi := { s.pi with readopen := false } }.wakeup p nwriteChan

inductive Act (n : ℕ)
  | write (p : Fin n) (m : ℤ)
  | read (p : Fin n) (m : ℤ)
  | close (p : Fin n) (writable : Bool)
  | turn (p : Fin n) (user : Option UInt8)
  | resume (p : Fin n)
  | kill (pid : ℤ)

def live (s : State n) : Prop := s.pi.readopen ∨ s.pi.writeopen

instance (s : State n) : Decidable (live s) := inferInstanceAs (Decidable (_ ∨ _))

def step (s : State n) : Act n → Option (State n)
  | .write p m =>
    if s.lock = none ∧ s.awake p ∧ s.pc p = .idle ∧ live s then
      some { s.setPc p (.writing m 0) with lock := some p }
    else none
  | .read p m =>
    if s.lock = none ∧ s.awake p ∧ s.pc p = .idle ∧ live s then
      some { s.setPc p (.readWait m) with lock := some p }
    else none
  | .close p writable =>
    if s.lock = none ∧ s.awake p ∧ s.pc p = .idle ∧ live s then some (pipeclose s p writable)
    else none
  | .turn p user =>
    if s.lock = some p then
      match s.pc p with
      | .writing m i => some (pipewrite s p m i user)
      | .readWait m => some (pipereadWait s p m)
      | .reading m i => some (pipereadCopy s p m i user)
      | _ => none
    else none
  | .resume p =>
    if s.lock = none ∧ (s.tbl.procs p).state = .RUNNABLE ∧ live s then
      match s.pc p with
      | .writeSleep m i =>
        some { s.setPc p (.writing m i) with lock := some p, tbl := s.tbl.schedule p }
      | .readSleep m =>
        some { s.setPc p (.readWait m) with lock := some p, tbl := s.tbl.schedule p }
      | _ => none
    else none
  | .kill pid => some { s with tbl := (s.tbl.kkill pid).2 }

/-- The pipe as `pipealloc` makes it; nobody knows its addresses yet. -/
structure Start (s : State n) : Prop where
  nread : s.pi.ring.nread = 0
  nwrite : s.pi.ring.nwrite = 0
  readopen : s.pi.readopen = true
  writeopen : s.pi.writeopen = true
  lock : s.lock = none
  idle : ∀ p, s.pc p = .idle
  fresh : ∀ p c, (s.tbl.procs p).state = .SLEEPING → (s.tbl.procs p).chan = some (.other c) →
    c ≠ nreadChan ∧ c ≠ nwriteChan
  put : s.put = []
  taken : s.taken = []

end Xv6.PipeModel
