import Mathlib.Algebra.BigOperators.Fin
import Xv6.LinkedList
import Xv6.Params
import Xv6.Runs

/-!
The buffer cache of `kernel/bio.c`: the list of buffers, and the calls that use it.

A call is cut where it lets go of `bcache.lock` or may wait for the sleep-lock of a buffer: `bget`
finds or recycles a buffer in one step and takes its lock in another, and `brelse` gives the lock
back before it drops the reference. The contents of blocks are left out. `refcnt`, a `uint`, is a
natural number: it is the number of processes between `bget` and `brelse` and of pins of the log,
and does not wrap as long as these are fewer than `2 ^ 32` together.

The state also records how many pins of each buffer are outstanding, and when its reference count
last dropped to 0.
-/

namespace Xv6.BcacheModel

open Function Params LinkedList Runs

def NBUF : ℕ := MAXOPBLOCKS * 3

variable {n : ℕ}

structure Buf (n : ℕ) where
  valid : Bool
  dev : ℕ
  blockno : ℕ
  /-- The process that holds the sleep-lock. -/
  lock : Option (Fin n)
  refcnt : ℕ

/-- Where a process is: outside, or in `bget` about to take the lock of a buffer, or in `brelse`
with the lock given back. -/
inductive Pc
  | idle
  | locking (b : Fin NBUF)
  | releasing (b : Fin NBUF)
  deriving DecidableEq

structure State (n : ℕ) where
  links : Links (Fin NBUF)
  buf : Fin NBUF → Buf n
  pc : Fin n → Pc
  /-- `bpin`s without their `bunpin`. -/
  pins : Fin NBUF → ℕ
  /-- When the reference count of a buffer dropped to 0; 0 for one that was never used. -/
  dropped : Fin NBUF → ℕ
  clock : ℕ

def State.setBuf (s : State n) (b : Fin NBUF) (x : Buf n) : State n :=
  { s with buf := update s.buf b x }

def State.setPc (s : State n) (p : Fin n) (x : Pc) : State n :=
  { s with pc := update s.pc p x }

def binit : Links (Fin NBUF) := (List.finRange NBUF).foldl pushFront empty

def isBlock (s : State n) (dev blockno : ℕ) (b : Fin NBUF) : Bool :=
  (s.buf b).dev = dev ∧ (s.buf b).blockno = blockno

def unused (s : State n) (b : Fin NBUF) : Bool := (s.buf b).refcnt = 0

/-- `bget` up to the point where it takes the buffer's lock; `none` is the panic "no buffers". -/
def bget (s : State n) (dev blockno : ℕ) : Option (Fin NBUF × State n) :=
  match scan s.links.next (isBlock s dev blockno) NBUF (s.links.next none) with
  | some b => some (b, s.setBuf b { s.buf b with refcnt := (s.buf b).refcnt + 1 })
  | none =>
    match scan s.links.prev (unused s) NBUF (s.links.prev none) with
    | some b => some (b, s.setBuf b
        { s.buf b with dev := dev, blockno := blockno, valid := false, refcnt := 1 })
    | none => none

/-- `brelse` from the point where it has given the lock back. -/
def drop (s : State n) (b : Fin NBUF) : State n :=
  let s := s.setBuf b { s.buf b with refcnt := (s.buf b).refcnt - 1 }
  if (s.buf b).refcnt = 0 then
    -- no one is waiting for it
    { s with
      links := pushFront (unlink s.links b) b
      dropped := update s.dropped b (s.clock + 1)
      clock := s.clock + 1 }
  else s

inductive Act (n : ℕ)
  | bget (p : Fin n) (dev blockno : ℕ)
  | lock (p : Fin n)
  | bwrite (p : Fin n) (b : Fin NBUF)
  | brelse (p : Fin n) (b : Fin NBUF)
  | drop (p : Fin n)
  | bpin (b : Fin NBUF)
  | bunpin (p : Fin n) (b : Fin NBUF)

/-- Callers use a nonzero device, write and release what they have read, and take back a pin only
while they have read the buffer. -/
def step (s : State n) : Act n → Option (State n)
  | .bget p dev blockno =>
    if s.pc p = .idle ∧ dev ≠ 0 then
      (bget s dev blockno).map fun x => x.2.setPc p (.locking x.1)
    else none
  | .lock p =>
    match s.pc p with
    | .locking b =>
      -- `bread` reads the block in if the buffer is not valid
      if (s.buf b).lock = none then
        some ((s.setBuf b { s.buf b with lock := some p, valid := true }).setPc p .idle)
      else none
    | _ => none
  | .bwrite p b => if s.pc p = .idle ∧ (s.buf b).lock = some p then some s else none
  | .brelse p b =>
    if s.pc p = .idle ∧ (s.buf b).lock = some p then
      some ((s.setBuf b { s.buf b with lock := none }).setPc p (.releasing b))
    else none
  | .drop p =>
    match s.pc p with
    | .releasing b => some ((drop s b).setPc p .idle)
    | _ => none
  | .bpin b =>
    some { s.setBuf b { s.buf b with refcnt := (s.buf b).refcnt + 1 } with
      pins := update s.pins b (s.pins b + 1) }
  | .bunpin p b =>
    if s.pc p = .idle ∧ (s.buf b).lock = some p ∧ 0 < s.pins b then
      some { s.setBuf b { s.buf b with refcnt := (s.buf b).refcnt - 1 } with
        pins := update s.pins b (s.pins b - 1) }
    else none

def start : State n where
  links := binit
  buf := fun _ => ⟨false, 0, 0, none, 0⟩
  pc := fun _ => .idle
  pins := fun _ => 0
  dropped := fun _ => 0
  clock := 0

/-- A process between the two halves of `bget` or of `brelse` has a reference. -/
def Pc.uses (x : Pc) (b : Fin NBUF) : ℕ := if x = .locking b ∨ x = .releasing b then 1 else 0

def Buf.held (x : Buf n) : ℕ := if x.lock.isSome then 1 else 0

def reads (s : State n) (b : Fin NBUF) : ℕ := (s.buf b).held + ∑ p, (s.pc p).uses b

end Xv6.BcacheModel
