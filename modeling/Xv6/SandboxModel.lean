import Xv6.CString
import Xv6.Params
import Xv6.ProcModel
import Xv6.Runs

/-!
The system-call dispatcher of `kernel/syscall.c` with the sandbox of `sys_interpose`, over a
process table whose slots are recycled.

The handlers that touch processes or the sandbox policy (`fork`, `exit`, `wait`, `kill`,
`interpose`) are as in the source. Every other handler, `exec` included, can do anything to
the memory and the registers of its caller, and to nothing else here: no other code writes
`p->mask` or `p->allowed_path`. A call that would sleep has no step until it goes through.

Each slot also carries the policy its process is meant to have, and the state the list of
handlers that ran; no step reads them.
-/

namespace Xv6.SandboxModel

open Function Bytes CString Params ProcModel

/-- The handlers, in the order of `kernel/syscall.h`. -/
inductive Handler
  | fork | exit | wait | pipe | read | kill | exec | fstat | chdir | dup | getpid | sbrk
  | pause | uptime | open | write | mknod | unlink | link | mkdir | close | interpose
  deriving DecidableEq

def Handler.num : Handler → ℕ
  | .fork => 1 | .exit => 2 | .wait => 3 | .pipe => 4 | .read => 5 | .kill => 6 | .exec => 7
  | .fstat => 8 | .chdir => 9 | .dup => 10 | .getpid => 11 | .sbrk => 12 | .pause => 13
  | .uptime => 14 | .open => 15 | .write => 16 | .mknod => 17 | .unlink => 18 | .link => 19
  | .mkdir => 20 | .close => 21 | .interpose => 22

def table : List Handler :=
  [.fork, .exit, .wait, .pipe, .read, .kill, .exec, .fstat, .chdir, .dup, .getpid, .sbrk,
    .pause, .uptime, .open, .write, .mknod, .unlink, .link, .mkdir, .close, .interpose]

/-- The entry of the table at a number, an `int`; none if it is not between `0` and the end
of the table. -/
def syscalls (num : BitVec 32) : Option Handler :=
  table.find? fun h => BitVec.ofNat 32 h.num = num

lemma Handler.num_lt (h : Handler) : h.num < 32 := by cases h <;> decide

structure Pol where
  mask : ℕ
  allowedPath : Buf MAXPATH

/-- What user code controls: the registers that carry system-call arguments and the bytes
the process can read. -/
structure User where
  a0 : ℕ
  a1 : ℕ
  a7 : ℕ
  mem : ℕ → Option UInt8

/-- A policy as a process asks for it: the bits of the mask and the path. -/
structure Policy where
  mask : ℕ
  path : List UInt8

structure Sys (n : ℕ) where
  tbl : Table n
  pol : Fin n → Pol
  user : Fin n → User
  /-- The policy each process is meant to have. -/
  policy : Fin n → Policy
  /-- The handlers that ran, latest first: the process, the handler, and for `open` and
  `exec` the path that the handler itself fetched. -/
  ran : List (Fin n × Handler × Option (List UInt8))

variable {n : ℕ}

def argint (a : ℕ) : ℤ := Int.bmod a (2 ^ 32)

def argstr (u : User) (addr : ℕ) : Bool × Buf MAXPATH :=
  copyinstr u.mem addr (Buf.fill MAXPATH 0) 0 MAXPATH

def argPath (u : User) (addr : ℕ) : Option (List UInt8) :=
  if (argstr u addr).1 then some (cstr (argstr u addr).2.get MAXPATH) else none

/-- The policy that a call of `interpose` with these arguments asks for. -/
def asked (u : User) : Policy := ⟨u.a0 % 2 ^ 32, (userStr u.mem u.a1 MAXPATH).getD []⟩

def signExtend (x : ℤ) : ℕ := (x % 2 ^ 64).toNat

def minusOne : ℕ := 2 ^ 64 - 1

inductive Verdict
  | run (h : Handler)
  | blocked
  | unknown
  deriving DecidableEq

/-- The decision of `syscall()` on a call that is in the table. -/
def check (pol : Pol) (u : User) (h : Handler) : Verdict :=
  if h ≠ .interpose ∧ pol.mask.testBit h.num then
    if (h = .open ∨ h = .exec) ∧ pol.allowedPath.get 0 ≠ 0 then
      if (argstr u u.a0).1 ∧ strncmp (argstr u u.a0).2.get pol.allowedPath.get MAXPATH = 0 then
        .run h
      else .blocked
    else .blocked
  else .run h

def dispatch (pol : Pol) (u : User) : Verdict :=
  match syscalls (BitVec.ofNat 32 u.a7) with
  | none => .unknown
  | some h => check pol u h

namespace Sys

def setA0 (s : Sys n) (p : Fin n) (v : ℕ) : Sys n :=
  { s with user := update s.user p { s.user p with a0 := v } }

def setMem (s : Sys n) (p : Fin n) (mem : ℕ → Option UInt8) : Sys n :=
  { s with user := update s.user p { s.user p with mem := mem } }

def freeproc (s : Sys n) (i : Fin n) : Sys n :=
  { s with
    tbl := s.tbl.freeproc i
    pol := update s.pol i
      { mask := 0, allowedPath := (s.pol i).allowedPath.set 0 0 } }

def allocproc (s : Sys n) (trapframe pagetable : Bool) : Option (Fin n) × Sys n :=
  match scan fun i => (s.tbl.procs i).state = .UNUSED with
  | none => (none, s)
  | some i =>
    let s := { s with tbl := s.tbl.claim i }
    if !trapframe then (none, s.freeproc i)
    else if !pagetable then (none, s.freeproc i)
    else (some i, s)

/-- `kfork`: the child has its parent's registers, memory and policy. -/
def kfork (s : Sys n) (p : Fin n) (trapframe pagetable copy : Bool) : ℤ × Sys n :=
  match s.allocproc trapframe pagetable with
  | (none, s) => (-1, s)
  | (some np, s) =>
    if !copy then (-1, s.freeproc np)
    else
      ((s.tbl.procs np).pid, { s with
        tbl := s.tbl.set np { s.tbl.procs np with parent := some p, state := .RUNNABLE }
        user := update s.user np { s.user p with a0 := 0 }
        pol := update s.pol np
          { mask := (s.pol p).mask
            allowedPath :=
              safestrcpy (s.pol np).allowedPath (s.pol p).allowedPath.get MAXPATH }
        policy := update s.policy np (s.policy p) })

def sysInterpose (s : Sys n) (p : Fin n) : Sys n :=
  let u := s.user p
  if !(argstr u u.a1).1 then s.setA0 p minusOne
  else
    { s.setA0 p 0 with
      pol := update s.pol p
        { mask := signExtend (argint u.a0)
          allowedPath := safestrcpy (s.pol p).allowedPath (argstr u u.a1).2.get MAXPATH }
      policy := update s.policy p (asked u) }

end Sys

/-- What the rest of the system decides about a call: whether memory is there, whether the
status can be stored, and what a handler does to the registers and memory of its caller. -/
structure Env where
  trapframe : Bool
  pagetable : Bool
  copy : Bool
  copyout : Bool
  user : User

def handle (s : Sys n) (p : Fin n) (e : Env) : Handler → Option (Sys n)
  | .fork =>
    let r := s.kfork p e.trapframe e.pagetable e.copy
    some (r.2.setA0 p (signExtend r.1))
  | .exit => (s.tbl.kexit p (argint (s.user p).a0)).map fun t => { s with tbl := t }
  | .wait =>
    match s.tbl.kwait p e.copyout with
    | (.asleep, _) => none
    | (.failed, _) => some ((s.setMem p e.user.mem).setA0 p minusOne)
    | (.reaped pid _, _) => (s.tbl.zombieOf p).map fun i =>
        ((s.freeproc i).setMem p e.user.mem).setA0 p (signExtend pid)
  | .kill =>
    let r := s.tbl.kkill (argint (s.user p).a0)
    some ({ s with tbl := r.2 }.setA0 p (signExtend r.1))
  | .interpose => some (s.sysInterpose p)
  | _ => some { s with user := update s.user p e.user }

/-- A handler that runs, with the path that `sys_open` and `sys_exec` fetch for themselves. -/
def entry (s : Sys n) (p : Fin n) (h : Handler) : Fin n × Handler × Option (List UInt8) :=
  (p, h, if h = .open ∨ h = .exec then argPath (s.user p) (s.user p).a0 else none)

def syscall (s : Sys n) (p : Fin n) (e : Env) : Option (Sys n) :=
  match dispatch (s.pol p) (s.user p) with
  | .run h => (handle s p e h).map fun s' => { s' with ran := entry s p h :: s'.ran }
  | .blocked => some (s.setA0 p minusOne)
  | .unknown => some (s.setA0 p minusOne)

inductive Act (n : ℕ)
  | user (p : Fin n) (u : User)
  | syscall (p : Fin n) (e : Env)
  | die (p : Fin n)
  | schedule (p : Fin n)
  | yield (p : Fin n)

def Act.proc : Act n → Fin n
  | .user p _ | .syscall p _ | .die p | .schedule p | .yield p => p

/-- A step: user code, a system call, the exit of a killed process on its way to user
space, or the scheduler. -/
def step (s : Sys n) : Act n → Option (Sys n)
  | .user p u =>
    if (s.tbl.procs p).state = .RUNNING then some { s with user := update s.user p u }
    else none
  | .syscall p e => if (s.tbl.procs p).state = .RUNNING then syscall s p e else none
  | .die p =>
    if (s.tbl.procs p).state = .RUNNING ∧ (s.tbl.procs p).killed ≠ 0 then
      (s.tbl.kexit p (-1)).map fun t => { s with tbl := t }
    else none
  | .schedule p =>
    if (s.tbl.procs p).state = .RUNNABLE then some { s with tbl := s.tbl.schedule p } else none
  | .yield p =>
    if (s.tbl.procs p).state = .RUNNING then some { s with tbl := s.tbl.yield p } else none

def boot (i : Fin n) (user : Fin n → User) : Sys n where
  tbl := userinit i
  pol := fun _ => ⟨0, Buf.fill MAXPATH 0⟩
  user := user
  policy := fun _ => ⟨0, []⟩
  ran := []

end Xv6.SandboxModel
