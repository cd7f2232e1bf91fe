import Xv6.Params
import Xv6.ProcModel
import Xv6.Runs
import Xv6.VmModel

/-!
Processes with their memory: the memory side of `kernel/proc.c`, `kernel/exec.c`, the system
calls that allocate or free pages, and the file table as far as pipes go.

A system call runs to its end in one step. A step names the process that makes the call, the
call with its arguments, and the calls of `kalloc` in it that find no page. What a program
file holds is the list of its bytes.

`Sys.boot` are the pages that the kernel took for itself before the first process; no step
reads it.
-/

namespace Xv6.MemModel

open Function Bytes Hoare Params VmModel
open ProcModel (ProcState Table scan)

def MAXARG : ℕ := 32

/-- The fields of `struct file` that pipes need; the pipe is the page of its `struct pipe`. -/
structure File where
  type : FdType
  ref : ℕ
  writable : Bool
  pipe : ℕ

/-- The fields of `struct proc` that have to do with memory and files. -/
structure Mm where
  sz : ℕ
  pagetable : Option ℕ
  trapframe : Option ℕ
  ofile : Fin NOFILE → Option (Fin NFILE)

structure Sys (n : ℕ) where
  vm : Mach
  tbl : Table n
  mm : Fin n → Mm
  ftable : Fin NFILE → File
  /-- The variable `first` of `forkret`. -/
  first : Bool
  boot : List ℕ

variable {n : ℕ}

abbrev K (n : ℕ) := StateT (Sys n) (Except Panic)

def onVm {α : Type} (m : Vm α) : K n α := zoom Sys.vm (fun s v => { s with vm := v }) m

def Sys.setMm (s : Sys n) (i : Fin n) (m : Mm) : Sys n :=
  { s with mm := update s.mm i m }

def Sys.setFile (s : Sys n) (f : Fin NFILE) (x : File) : Sys n :=
  { s with ftable := update s.ftable f x }

def Sys.setTbl (s : Sys n) (t : Table n) : Sys n := { s with tbl := t }

def argint (a : ℕ) : ℤ := Int.bmod a (2 ^ 32)

def addInt (sz : ℕ) (n : ℤ) : ℕ := ((sz + n) % 2 ^ 64).toNat

def bytesLE : ℕ → ℕ → List UInt8
  | 0, _ => []
  | k + 1, v => UInt8.ofNat v :: bytesLE k (v / 256)

def ofBytesLE : List UInt8 → ℕ
  | [] => 0
  | b :: bs => b.toNat + 256 * ofBytesLE bs

def deref (p : Option ℕ) : K n ℕ :=
  match p with
  | some x => pure x
  | none => throw .null

section

variable [Layout]

/-! ### Page tables of processes -/

def procPagetable (trapframe : ℕ) : Vm (Option ℕ) := do
  match ← uvmcreate with
  | none => return none
  | some pagetable =>
    if !(← mappages pagetable TRAMPOLINE PGSIZE trampoline (PTE_R ||| PTE_X)) then
      uvmfree pagetable 0
      return none
    if !(← mappages pagetable TRAPFRAME PGSIZE trapframe (PTE_R ||| PTE_W)) then
      uvmunmap pagetable TRAMPOLINE 1 false
      uvmfree pagetable 0
      return none
    return some pagetable

def procFreepagetable (pagetable sz : ℕ) : Vm Unit := do
  uvmunmap pagetable TRAMPOLINE 1 false
  uvmunmap pagetable TRAPFRAME 1 false
  uvmfree pagetable sz

def freeproc (p : Fin n) : K n Unit := do
  whenSome ((← get).mm p).trapframe fun tf => onVm (kfree tf)
  modify fun s => s.setMm p { s.mm p with trapframe := none }
  let m := (← get).mm p
  whenSome m.pagetable fun t => onVm (procFreepagetable t m.sz)
  modify fun s => s.setMm p { s.mm p with pagetable := none, sz := 0 }
  modify fun s => s.setTbl (s.tbl.freeproc p)

def allocproc : K n (Option (Fin n)) := do
  let s ← get
  match scan fun i => (s.tbl.procs i).state = .UNUSED with
  | none => return none
  | some p =>
    modify fun s => s.setTbl (s.tbl.claim p)
    let tf ← onVm kalloc
    modify fun s => s.setMm p { s.mm p with trapframe := tf }
    match tf with
    | none =>
      freeproc p
      return none
    | some tf =>
      let t ← onVm (procPagetable tf)
      modify fun s => s.setMm p { s.mm p with pagetable := t }
      match t with
      | none =>
        freeproc p
        return none
      | some _ => return some p

/-- `userinit`, up to `initproc` and the state of the first process. -/
def userinit : K n Unit := do
  match ← allocproc with
  | none => throw .null
  | some p =>
    modify fun s => s.setTbl { s.tbl with initproc := p }
    modify fun s => s.setTbl (s.tbl.set p { s.tbl.procs p with state := .RUNNABLE })

/-- What `vmfault` gets to see of the process that makes the call. -/
def myproc (p : Fin n) : K n Myproc := do
  let m := (← get).mm p
  return ⟨m.sz, ← deref m.pagetable⟩

def growproc (p : Fin n) (n' : ℤ) : K n Bool := do
  let me ← myproc p
  if 0 < n' then
    let sz ← onVm (uvmalloc me.pagetable me.sz (addInt me.sz n') PTE_W)
    if sz = 0 then return false
    modify fun s => s.setMm p { s.mm p with sz := sz }
    return true
  else if n' < 0 then
    let sz ← onVm (uvmdealloc me.pagetable me.sz (addInt me.sz n'))
    modify fun s => s.setMm p { s.mm p with sz := sz }
    return true
  else
    return true

def SBRK_EAGER : ℤ := 1

/-- `sys_sbrk`; no value is `-1`. -/
def sysSbrk (p : Fin n) (a0 a1 : ℕ) : K n (Option ℕ) := do
  let addr := ((← get).mm p).sz
  if argint a1 = SBRK_EAGER ∨ argint a0 < 0 then
    if ← growproc p (argint a0) then return some addr else return none
  else if addInt addr (argint a0) < addr then
    return none
  else
    modify fun s => s.setMm p { s.mm p with sz := addInt addr (argint a0) }
    return some addr

/-! ### Files and pipes -/

def filealloc : K n (Option (Fin NFILE)) := do
  let s ← get
  match scan fun f => (s.ftable f).ref = 0 with
  | none => return none
  | some f =>
    modify fun s => s.setFile f { s.ftable f with ref := 1 }
    return some f

def filedup (f : Fin NFILE) : K n Unit := do
  let x := (← get).ftable f
  if x.ref < 1 then throw .filedup
  modify fun s => s.setFile f { x with ref := x.ref + 1 }

/-- Where `readopen` and `writeopen` are in a `struct pipe`. -/
def openOffset (writable : Bool) : ℕ := if writable then 548 else 544

def putOpen (s : Mach) (pi : ℕ) (writable : Bool) (v : ℕ) : Mach :=
  s.store pi ((s.mem pi).setLE (openOffset writable) 4 v)

def setOpen (pi : ℕ) (writable : Bool) (v : ℕ) : Vm Unit :=
  modify fun s => putOpen s pi writable v

def getOpen (mem : ℕ → Buf PGSIZE) (pi : ℕ) (writable : Bool) : ℕ :=
  (mem pi).getLE (openOffset writable) 4

def pipeclose (pi : ℕ) (writable : Bool) : Vm Unit := do
  setOpen pi writable 0
  let mem := (← get).mem
  if getOpen mem pi false = 0 ∧ getOpen mem pi true = 0 then kfree pi

/-- `fileclose`; what it does to an inode is not memory. -/
def fileclose (f : Fin NFILE) : K n Unit := do
  let x := (← get).ftable f
  if x.ref < 1 then throw .fileclose
  if 0 < x.ref - 1 then
    modify fun s => s.setFile f { x with ref := x.ref - 1 }
  else
    modify fun s => s.setFile f { x with ref := 0, type := .FD_NONE }
    if x.type = .FD_PIPE then onVm (pipeclose x.pipe x.writable)

def pipealloc : K n (Option (Fin NFILE × Fin NFILE)) := do
  match ← filealloc with
  | none => return none
  | some f0 =>
    match ← filealloc with
    | none =>
      fileclose f0
      return none
    | some f1 =>
      match ← onVm kalloc with
      | none =>
        fileclose f0
        fileclose f1
        return none
      | some pi =>
        onVm (setOpen pi false 1)
        onVm (setOpen pi true 1)
        modify fun s => s.setFile f0
          { s.ftable f0 with type := .FD_PIPE, writable := false, pipe := pi }
        modify fun s => s.setFile f1
          { s.ftable f1 with type := .FD_PIPE, writable := true, pipe := pi }
        return some (f0, f1)

def Sys.setFd (s : Sys n) (p : Fin n) (fd : Fin NOFILE) (f : Option (Fin NFILE)) : Sys n :=
  s.setMm p { s.mm p with ofile := update (s.mm p).ofile fd f }

def fdalloc (p : Fin n) (f : Fin NFILE) : K n (Option (Fin NOFILE)) := do
  let s ← get
  match scan fun fd => (s.mm p).ofile fd = none with
  | none => return none
  | some fd =>
    modify fun s => s.setFd p fd (some f)
    return some fd

def argfd (p : Fin n) (a : ℕ) : K n (Option (Fin NOFILE × Fin NFILE)) := do
  let s ← get
  if h : 0 ≤ argint a ∧ (argint a).toNat < NOFILE then
    return ((s.mm p).ofile ⟨_, h.2⟩).map fun f => (⟨_, h.2⟩, f)
  else
    return none

def sysDup (p : Fin n) (a0 : ℕ) : K n (Option (Fin NOFILE)) := do
  match ← argfd p a0 with
  | none => return none
  | some (_, f) =>
    match ← fdalloc p f with
    | none => return none
    | some fd =>
      filedup f
      return some fd

def sysClose (p : Fin n) (a0 : ℕ) : K n Bool := do
  match ← argfd p a0 with
  | none => return false
  | some (fd, f) =>
    modify fun s => s.setFd p fd none
    fileclose f
    return true

/-- What `sys_open` does to the file table and the descriptors, once it has an inode. -/
def openFile (p : Fin n) (type : FdType) (writable : Bool) : K n (Option (Fin NOFILE)) := do
  match ← filealloc with
  | none => return none
  | some f =>
    match ← fdalloc p f with
    | none =>
      fileclose f
      return none
    | some fd =>
      modify fun s => s.setFile f { s.ftable f with type := type, writable := writable }
      return some fd

def sysPipe (p : Fin n) (fdarray : ℕ) : K n Bool := do
  match ← pipealloc with
  | none => return false
  | some (rf, wf) =>
    match ← fdalloc p rf with
    | none =>
      fileclose rf
      fileclose wf
      return false
    | some fd0 =>
      match ← fdalloc p wf with
      | none =>
        modify fun s => s.setFd p fd0 none
        fileclose rf
        fileclose wf
        return false
      | some fd1 =>
        let me ← myproc p
        let ok0 ← onVm (copyout me me.pagetable fdarray (bytesLE 4 fd0))
        let ok1 ← if ok0 then
          onVm (copyout me me.pagetable ((fdarray + 4) % 2 ^ 64) (bytesLE 4 fd1)) else pure false
        if ok1 then return true
        modify fun s => s.setFd p fd0 none
        modify fun s => s.setFd p fd1 none
        fileclose rf
        fileclose wf
        return false

/-! ### Fork, exit, wait -/

def copyTrapframe (tf ntf : ℕ) : Vm Unit := do
  writeBytes ntf 0 (← readBytes tf 0 288)
  modify fun s => s.setWord ntf 14 0

def kfork (p : Fin n) : K n ℤ := do
  match ← allocproc with
  | none => return -1
  | some np =>
    let s ← get
    let t ← deref (s.mm p).pagetable
    let nt ← deref (s.mm np).pagetable
    if !(← onVm (uvmcopy t nt (s.mm p).sz)) then
      freeproc np
      return -1
    modify fun s => s.setMm np { s.mm np with sz := (s.mm p).sz }
    let tf ← deref (s.mm p).trapframe
    let ntf ← deref (s.mm np).trapframe
    onVm (copyTrapframe tf ntf)
    each (fun fd => do
      whenSome (((← get).mm p).ofile fd) fun f => do
        filedup f
        modify fun s => s.setFd np fd (some f)) (List.finRange NOFILE)
    modify fun s => s.setTbl (s.tbl.set np { s.tbl.procs np with parent := some p })
    modify fun s => s.setTbl (s.tbl.set np { s.tbl.procs np with state := .RUNNABLE })
    return ((← get).tbl.procs np).pid

def kexit (p : Fin n) (status : ℤ) : K n Unit := do
  if p = (← get).tbl.initproc then throw .initExiting
  each (fun fd => do
    whenSome (((← get).mm p).ofile fd) fun f => do
      fileclose f
      modify fun s => s.setFd p fd none) (List.finRange NOFILE)
  match (← get).tbl.kexit p status with
  | none => throw .initExiting
  | some t => modify fun s => s.setTbl t

/-- `kwait`; where there is no exited child, it fails or goes on waiting, and nothing
changes. -/
def kwait (p : Fin n) (addr : ℕ) : K n ℤ := do
  match (← get).tbl.zombieOf p with
  | none => return -1
  | some pp =>
    let child := (← get).tbl.procs pp
    let me ← myproc p
    let ok ← if addr ≠ 0 then
      onVm (copyout me me.pagetable addr (bytesLE 4 (child.xstate % 2 ^ 32).toNat)) else pure true
    if !ok then return -1
    freeproc pp
    return child.pid

def pageFault (p : Fin n) (va : ℕ) : K n Unit := do
  let me ← myproc p
  match ← onVm (vmfault me me.pagetable va) with
  | some _ => pure ()
  | none => kexit p (-1)

/-! ### Exec -/

def readi (file : List UInt8) (off n' : ℕ) : List UInt8 :=
  if file.length < off ∨ (off + n') % 2 ^ 32 < off then [] else (file.drop off).take n'

def field (bytes : List UInt8) (off k : ℕ) : ℕ := ofBytesLE ((bytes.drop off).take k)

def ELF_MAGIC : ℕ := 0x464C457F
def ELF_PROG_LOAD : ℕ := 1
/-- The sizes of `struct elfhdr` and `struct proghdr`. -/
def elfhdrSize : ℕ := 64
def proghdrSize : ℕ := 56

def flags2perm (flags : ℕ) : ℕ :=
  (if flags.testBit 0 then PTE_X else 0) ||| (if flags.testBit 1 then PTE_W else 0)

/-- `loadseg`; its offsets and sizes are `uint`s. -/
def loadseg (pagetable va : ℕ) (file : List UInt8) (offset sz : ℕ) : Vm Bool := do
  let failed ← search (fun k => do
    let i := k * PGSIZE
    match ← walkaddr pagetable (va + i) with
    | none => throw .loadsegAddressShouldExist
    | some pa =>
      let n' := min (sz - i) PGSIZE
      let bytes := readi file ((offset + i) % 2 ^ 32) n'
      writeBytes pa 0 bytes
      return if bytes.length = n' then none else some ()) 0 ((sz + (PGSIZE - 1)) / PGSIZE)
  return failed.isNone

/-- The loop over the program headers, from offset `off` on and with the size so far; returns
whether all went well, and the size. -/
def loadProgram (pagetable : ℕ) (file : List UInt8) : ℕ → ℕ → ℕ → Vm (Bool × ℕ)
  | 0, _, sz => return (true, sz)
  | k + 1, off, sz => do
    let ph := readi file off proghdrSize
    let memsz := field ph 40 8
    let filesz := field ph 32 8
    let vaddr := field ph 16 8
    let off' := (off + proghdrSize) % 2 ^ 32
    if ph.length ≠ proghdrSize then return (false, sz)
    if field ph 0 4 ≠ ELF_PROG_LOAD then loadProgram pagetable file k off' sz
    else if memsz < filesz then return (false, sz)
    else if (vaddr + memsz) % 2 ^ 64 < vaddr then return (false, sz)
    else if vaddr % PGSIZE ≠ 0 then return (false, sz)
    else
      let sz1 ← uvmalloc pagetable sz ((vaddr + memsz) % 2 ^ 64) (flags2perm (field ph 4 4))
      if sz1 = 0 then return (false, sz)
      if !(← loadseg pagetable vaddr file (field ph 8 8 % 2 ^ 32) (filesz % 2 ^ 32)) then
        return (false, sz1)
      loadProgram pagetable file k off' sz1

def pushed (sp k : ℕ) : ℕ := (sp + 2 ^ 64 - k) % 2 ^ 64 / 16 * 16

/-- The loop over the arguments: returns `sp` and `ustack`. -/
def pushArgs (me : Myproc) (pagetable stackbase : ℕ) :
    List (List UInt8) → ℕ → List ℕ → Vm (Option (ℕ × List ℕ))
  | [], sp, ustack => return some (sp, ustack)
  | arg :: args, sp, ustack => do
    if MAXARG ≤ ustack.length then return none
    let sp := pushed sp (arg.length + 1)
    if sp < stackbase then return none
    if !(← copyout me pagetable sp (arg ++ [0])) then return none
    pushArgs me pagetable stackbase args sp (ustack ++ [sp])

/-- `kexec` from the point where the stack is mapped: the arguments on the new stack, and
the stack pointer. -/
def pushAll (me : Myproc) (pagetable sz : ℕ) (argv : List (List UInt8)) : Vm (Option ℕ) := do
  let stackbase := sz - USERSTACK * PGSIZE
  match ← pushArgs me pagetable stackbase argv sz [] with
  | none => return none
  | some (sp, ustack) =>
    let sp := pushed sp ((ustack.length + 1) * 8)
    if sp < stackbase then return none
    if !(← copyout me pagetable sp ((ustack ++ [0]).flatMap (bytesLE 8))) then return none
    return some sp

/-- The image that `kexec` builds: the new page table, its size and the stack pointer. On
every error the new table is freed again. -/
def buildImage (me : Myproc) (trapframe : ℕ) (file : List UInt8) (argv : List (List UInt8)) :
    Vm (Option (ℕ × ℕ × ℕ)) := do
  let elf := readi file 0 elfhdrSize
  if elf.length ≠ elfhdrSize then return none
  if field elf 0 4 ≠ ELF_MAGIC then return none
  match ← procPagetable trapframe with
  | none => return none
  | some pagetable =>
    let (ok, sz) ← loadProgram pagetable file (field elf 56 2) (field elf 32 8 % 2 ^ 32) 0
    if !ok then
      procFreepagetable pagetable sz
      return none
    let sz := PGROUNDUP sz
    let sz1 ← uvmalloc pagetable sz (sz + (USERSTACK + 1) * PGSIZE) PTE_W
    if sz1 = 0 then
      procFreepagetable pagetable sz
      return none
    uvmclear pagetable (sz1 - (USERSTACK + 1) * PGSIZE)
    match ← pushAll me pagetable sz1 argv with
    | none =>
      procFreepagetable pagetable sz1
      return none
    | some sp => return some (pagetable, sz1, sp)

/-- `kexec` of the file that the path leads to, if any. -/
def kexec (p : Fin n) (file : Option (List UInt8)) (argv : List (List UInt8)) : K n ℤ := do
  match file with
  | none => return -1
  | some file =>
    let me ← myproc p
    let tf ← deref ((← get).mm p).trapframe
    match ← onVm (buildImage me tf file argv) with
    | none => return -1
    | some (pagetable, sz, sp) =>
      onVm (modify fun s => s.setWord tf 15 sp)
      modify fun s => s.setMm p { s.mm p with pagetable := some pagetable, sz := sz }
      onVm (modify fun s => s.setWord tf 3 (field (readi file 0 elfhdrSize) 24 8))
      onVm (modify fun s => s.setWord tf 6 sp)
      onVm (procFreepagetable me.pagetable me.sz)
      return argv.length

def fetchaddr (me : Myproc) (addr : ℕ) : Vm (Option ℕ) := do
  if me.sz ≤ addr ∨ me.sz < (addr + 8) % 2 ^ 64 then return none
  return (← copyin me me.pagetable addr 8).map ofBytesLE

/-- The loop of `sys_exec` that fetches the arguments from number `i` on. It returns whether
it found the end of `argv`, and the arguments with the pages they are in. -/
def fetchArgs (me : Myproc) (uargv : ℕ) : ℕ → ℕ → List (ℕ × List UInt8) →
    Vm (Bool × List (ℕ × List UInt8))
  | 0, _, argv => return (false, argv)
  | k + 1, i, argv => do
    match ← fetchaddr me ((uargv + 8 * i) % 2 ^ 64) with
    | none => return (false, argv)
    | some uarg =>
      if uarg = 0 then return (true, argv)
      match ← kalloc with
      | none => return (false, argv)
      | some page =>
        match ← copyinstr me.pagetable uarg PGSIZE with
        | none => return (false, argv ++ [(page, [])])
        | some str =>
          writeBytes page 0 (str ++ [0])
          fetchArgs me uargv k (i + 1) (argv ++ [(page, str)])

def sysExec (p : Fin n) (path uargv : ℕ) (file : Option (List UInt8)) : K n ℤ := do
  let me ← myproc p
  match ← onVm (copyinstr me.pagetable path MAXPATH) with
  | none => return -1
  | some _ =>
    let (ok, argv) ← onVm (fetchArgs me uargv MAXARG 0 [])
    let ret ← if ok then kexec p file (argv.map Prod.snd) else pure (-1)
    onVm (each kfree (argv.map Prod.fst))
    return ret

/-- The arguments of the first program: its path, "/init". -/
abbrev initArgv : List (List UInt8) := [[0x2f, 0x69, 0x6e, 0x69, 0x74]]

/-- The first return to user space: `init` starts its program. -/
def forkret (p : Fin n) (file : Option (List UInt8)) : K n Unit := do
  modify fun s => { s with first := false }
  if (← kexec p file initArgv) = -1 then throw .exec

/-! ### Runs -/

/-- What a process does: a system call with its arguments, a page fault, or an access to its
memory by some other call. For `exec` the step says which file the path leads to. -/
inductive Call
  | forkret (file : Option (List UInt8))
  | fork
  | exec (path uargv : ℕ) (file : Option (List UInt8))
  | exit (status : ℤ)
  | wait (addr : ℕ)
  | sbrk (a0 a1 : ℕ)
  | pageFault (va : ℕ)
  | copyin (srcva len : ℕ)
  | copyout (dstva : ℕ) (src : List UInt8)
  | copyinstr (srcva max : ℕ)
  | pipe (fdarray : ℕ)
  | dup (a0 : ℕ)
  | close (a0 : ℕ)
  | openFile (device writable : Bool)

structure Act (n : ℕ) where
  p : Fin n
  call : Call
  oom : ℕ → Bool

def perform (p : Fin n) : Call → K n Unit
  | .forkret file => forkret p file
  | .fork => discard (kfork p)
  | .exec path uargv file => discard (sysExec p path uargv file)
  | .exit status => kexit p status
  | .wait addr => discard (kwait p addr)
  | .sbrk a0 a1 => discard (sysSbrk p a0 a1)
  | .pageFault va => pageFault p va
  | .copyin srcva len => do
    let me ← myproc p
    discard (onVm (copyin me me.pagetable srcva len))
  | .copyout dstva src => do
    let me ← myproc p
    discard (onVm (copyout me me.pagetable dstva src))
  | .copyinstr srcva max => do
    let me ← myproc p
    discard (onVm (copyinstr me.pagetable srcva max))
  | .pipe fdarray => discard (sysPipe p fdarray)
  | .dup a0 => discard (sysDup p a0)
  | .close a0 => discard (sysClose p a0)
  | .openFile device writable =>
    discard (openFile p (if device then .FD_DEVICE else .FD_INODE) writable)

def Call.isForkret : Call → Bool
  | .forkret _ => true
  | _ => false

/-- A process can act when it is in use and has not exited. The first thing to happen is that
`init` starts its program. -/
def enabled (s : Sys n) (a : Act n) : Bool :=
  (s.tbl.procs a.p).state ∉ [ProcState.UNUSED, .USED, .ZOMBIE] && s.first == a.call.isForkret

def outcome (s : Sys n) (a : Act n) : Except Panic (Sys n) :=
  (perform a.p a.call { s with vm := { s.vm with calls := 0, oom := a.oom } }).map Prod.snd

def step (s : Sys n) (a : Act n) : Option (Sys n) :=
  if enabled s a then (outcome s a).toOption else none

end

end Xv6.MemModel
