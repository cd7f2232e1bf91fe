import Mathlib.Data.Fintype.Basic
import Xv6.Params
import Xv6.ProcModel
import Xv6.Runs

/-!
The table of open files: `filealloc`, `filedup` and `fileclose` of `kernel/file.c`, the calls of
`kernel/sysfile.c` that use them, `pipealloc` and `pipeclose` of `kernel/pipe.c`, and what `kfork`
and `kexit` do to descriptors.

A step is what happens under `ftable.lock` or under a pipe's lock, or what a process does to its own
descriptors in between. The file a call has got from `filealloc`, and files it still has to close,
are in its place in the code. Inodes and the contents of pipes are not here. A pipe's page is named
by a number, a new one for every `kalloc`, so that a page that is freed and used again is a new one.
`ref`, an `int`, is a natural number: it does not wrap as long as there are fewer than `2 ^ 31`
descriptors and calls.
-/

namespace Xv6.FileModel

open Function
open Params (FdType)
open ProcModel (scan)

/-- `struct file`; `pipe` is the number of a page. -/
structure File where
  ref : ℕ
  type : FdType
  writable : Bool
  pipe : ℕ
  deriving DecidableEq

/-- `struct pipe`, and whether its page is allocated. -/
structure Pipe where
  alive : Bool
  readopen : Bool
  writeopen : Bool
  deriving DecidableEq

/-- Where a process is in a call, with `F` files and `D` descriptors. -/
inductive Pc (F D : ℕ)
  | idle
  /-- `sys_open` is to take a descriptor for its new file. -/
  | openFd (f : Fin F) (type : FdType) (writable : Bool)
  /-- `sys_open` is to fill in the file. -/
  | openSet (f : Fin F) (d : Fin D) (type : FdType) (writable : Bool)
  /-- `sys_dup` has put the file in the descriptor, and is to call `filedup`. -/
  | dup (f : Fin F) (d : Fin D)
  /-- `pipealloc` has its first file. -/
  | pipe1 (f0 : Fin F)
  /-- `pipealloc` has both files. -/
  | pipe2 (f0 f1 : Fin F)
  /-- `sys_pipe` is to take descriptors. -/
  | pipe3 (rf wf : Fin F)
  /-- `sys_pipe` is to copy out the descriptors. -/
  | pipe4 (rf wf : Fin F) (fd0 fd1 : Fin D)
  /-- The call is to close the files in the list, and then returns. -/
  | closing (l : List (Fin F))
  /-- In `fileclose`, after the lock: `pipeclose`, and then the rest of the list. -/
  | pclose (pi : ℕ) (writable : Bool) (l : List (Fin F))
  /-- In `piperead` or `pipewrite`. -/
  | io (d : Fin D) (f : Fin F) (pi : ℕ)
  /-- `kfork` is to copy descriptor `i`. -/
  | fork (child : ℕ) (i : ℕ)
  /-- `kexit` is to close descriptor `i`. -/
  | exit (i : ℕ)
  /-- `kexit` is in `pipeclose` for descriptor `d`. -/
  | exitPipe (d : Fin D) (pi : ℕ) (writable : Bool)
  /-- `kexit` is to clear descriptor `d`, whose file is closed. -/
  | exitClear (d : Fin D)
  deriving DecidableEq

inductive Status
  | unused | embryo | live | zombie
  deriving DecidableEq

structure Proc (F D : ℕ) where
  status : Status
  ofile : Fin D → Option (Fin F)
  pc : Pc F D

/-- `freed` counts the times a page has been freed, and `bad` says that a panic, a second `kfree` of
a page or the use of a freed page has happened. -/
structure St (n F D : ℕ) where
  file : Fin F → File
  pipe : ℕ → Pipe
  pages : ℕ
  proc : Fin n → Proc F D
  freed : ℕ → ℕ
  bad : Bool

variable {n F D : ℕ}

namespace St

def setFile (s : St n F D) (f : Fin F) (x : File) : St n F D :=
  { s with file := update s.file f x }

def setProc (s : St n F D) (p : Fin n) (x : Proc F D) : St n F D :=
  { s with proc := update s.proc p x }

def goto (s : St n F D) (p : Fin n) (c : Pc F D) : St n F D :=
  s.setProc p { s.proc p with pc := c }

def setOfile (s : St n F D) (p : Fin n) (d : Fin D) (o : Option (Fin F)) : St n F D :=
  s.setProc p { s.proc p with ofile := update (s.proc p).ofile d o }

def filealloc (s : St n F D) : Option (Fin F × St n F D) :=
  (scan fun f => (s.file f).ref = 0).map fun f => (f, s.setFile f { s.file f with ref := 1 })

def filedup (s : St n F D) (f : Fin F) : St n F D :=
  if (s.file f).ref < 1 then { s with bad := true }
  else s.setFile f { s.file f with ref := (s.file f).ref + 1 }

/-- `fileclose` under the lock, and the file as it was if this was the last reference. -/
def fileclose (s : St n F D) (f : Fin F) : Option File × St n F D :=
  if (s.file f).ref < 1 then (none, { s with bad := true })
  else if (s.file f).ref - 1 > 0 then
    (none, s.setFile f { s.file f with ref := (s.file f).ref - 1 })
  else (some (s.file f), s.setFile f { s.file f with ref := 0, type := .FD_NONE })

def kfree (s : St n F D) (pi : ℕ) : St n F D :=
  if (s.pipe pi).alive then { s with
    pipe := update s.pipe pi { s.pipe pi with alive := false }
    freed := update s.freed pi (s.freed pi + 1) }
  else { s with bad := true }

def touch (s : St n F D) (pi : ℕ) : St n F D :=
  if (s.pipe pi).alive then s else { s with bad := true }

def pipeclose (s : St n F D) (pi : ℕ) (writable : Bool) : St n F D :=
  let s := s.touch pi
  let x := if writable then { s.pipe pi with writeopen := false }
    else { s.pipe pi with readopen := false }
  let s := { s with pipe := update s.pipe pi x }
  if !x.readopen ∧ !x.writeopen then s.kfree pi else s

def fdalloc (s : St n F D) (p : Fin n) : Option (Fin D) :=
  scan fun d => ((s.proc p).ofile d).isNone

/-- `pipealloc` with both files: the page, if `kalloc` has one, and the two files. -/
def pipefill (s : St n F D) (f0 f1 : Fin F) : St n F D :=
  let pi := s.pages
  let s := { s with
    pages := pi + 1
    pipe := update s.pipe pi ⟨true, true, true⟩ }
  let s := s.setFile f0 { s.file f0 with type := .FD_PIPE, writable := false, pipe := pi }
  s.setFile f1 { s.file f1 with type := .FD_PIPE, writable := true, pipe := pi }

def closeOne (s : St n F D) (p : Fin n) (f : Fin F) (l : List (Fin F)) : St n F D :=
  match s.fileclose f with
  | (some ff, s) => if ff.type = .FD_PIPE then s.goto p (.pclose ff.pipe ff.writable l)
    else s.goto p (.closing l)
  | (none, s) => s.goto p (.closing l)

def exitOne (s : St n F D) (p : Fin n) (i : ℕ) : St n F D :=
  if h : i < D then
    match (s.proc p).ofile ⟨i, h⟩ with
    | none => s.goto p (.exit (i + 1))
    | some f =>
      match s.fileclose f with
      | (some ff, s) => if ff.type = .FD_PIPE then s.goto p (.exitPipe ⟨i, h⟩ ff.pipe ff.writable)
        else s.goto p (.exitClear ⟨i, h⟩)
      | (none, s) => s.goto p (.exitClear ⟨i, h⟩)
  else s.setProc p { s.proc p with status := .zombie, pc := .idle }

/-- One round of the loop in `kfork` over the descriptors, or the child is started. -/
def forkOne (s : St n F D) (p child : Fin n) (i : ℕ) : St n F D :=
  if h : i < D then
    match (s.proc p).ofile ⟨i, h⟩ with
    | none => s.goto p (.fork child (i + 1))
    | some f => ((s.filedup f).setOfile child ⟨i, h⟩ (some f)).goto p (.fork child (i + 1))
  else (s.setProc child { s.proc child with status := .live }).goto p .idle

/-- The next step of a call; `ok` says whether memory is there, or the user address is good. -/
def go (s : St n F D) (p : Fin n) (ok : Bool) : Option (St n F D) :=
  match (s.proc p).pc with
  | .idle => none
  | .openFd f type writable =>
    match s.fdalloc p with
    | some d => some ((s.setOfile p d (some f)).goto p (.openSet f d type writable))
    | none => some (s.goto p (.closing [f]))
  | .openSet f _ type writable =>
    some ((s.setFile f { s.file f with type := type, writable := writable }).goto p .idle)
  | .dup f _ => some ((s.filedup f).goto p .idle)
  | .pipe1 f0 =>
    match s.filealloc with
    | some (f1, s) => some (s.goto p (.pipe2 f0 f1))
    | none => some (s.goto p (.closing [f0]))
  | .pipe2 f0 f1 =>
    if ok then some ((s.pipefill f0 f1).goto p (.pipe3 f0 f1))
    else some (s.goto p (.closing [f0, f1]))
  | .pipe3 rf wf =>
    match s.fdalloc p with
    | none => some (s.goto p (.closing [rf, wf]))
    | some fd0 =>
      let t := s.setOfile p fd0 (some rf)
      match t.fdalloc p with
      | some fd1 => some ((t.setOfile p fd1 (some wf)).goto p (.pipe4 rf wf fd0 fd1))
      | none => some (s.goto p (.closing [rf, wf]))
  | .pipe4 rf wf fd0 fd1 =>
    if ok then some (s.goto p .idle)
    else some (((s.setOfile p fd0 none).setOfile p fd1 none).goto p (.closing [rf, wf]))
  | .closing [] => some (s.goto p .idle)
  | .closing (f :: l) => some (s.closeOne p f l)
  | .pclose pi writable l => some ((s.pipeclose pi writable).goto p (.closing l))
  | .io _ _ pi => some (if ok then s.touch pi else (s.touch pi).goto p .idle)
  | .fork child i => if h : child < n then some (s.forkOne p ⟨child, h⟩ i) else none
  | .exit i => some (s.exitOne p i)
  | .exitPipe d pi writable => some ((s.pipeclose pi writable).goto p (.exitClear d))
  | .exitClear d => some ((s.setOfile p d none).goto p (.exit (d + 1)))

end St

/-- A call that a process makes, or its next step. -/
inductive Act (n D : ℕ)
  | openFile (p : Fin n) (device writable : Bool)
  | dup (p : Fin n) (d : Fin D)
  | pipe (p : Fin n)
  | close (p : Fin n) (d : Fin D)
  | io (p : Fin n) (d : Fin D)
  | fork (p child : Fin n) (ok : Bool)
  | exit (p : Fin n)
  | reap (p : Fin n)
  | go (p : Fin n) (ok : Bool)

def ready (s : St n F D) (p : Fin n) : Prop := (s.proc p).status = .live ∧ (s.proc p).pc = .idle

instance (s : St n F D) (p : Fin n) : Decidable (ready s p) := inferInstanceAs (Decidable (_ ∧ _))

def step (s : St n F D) : Act n D → Option (St n F D)
  | .go p ok => s.go p ok
  | .reap p =>
    -- `freeproc`, by the parent
    if (s.proc p).status = .zombie then
      some (s.setProc p { s.proc p with status := .unused })
    else none
  | .openFile p device writable =>
    if ready s p then
      match s.filealloc with
      | some (f, s) =>
        some (s.goto p (.openFd f (if device then .FD_DEVICE else .FD_INODE) writable))
      | none => some s
    else none
  | .dup p d =>
    if ready s p then
      match (s.proc p).ofile d, s.fdalloc p with
      | some f, some d' => some ((s.setOfile p d' (some f)).goto p (.dup f d'))
      | _, _ => some s
    else none
  | .pipe p =>
    if ready s p then
      match s.filealloc with
      | some (f, s) => some (s.goto p (.pipe1 f))
      | none => some s
    else none
  | .close p d =>
    if ready s p then
      match (s.proc p).ofile d with
      | some f => some ((s.setOfile p d none).goto p (.closing [f]))
      | none => some s
    else none
  | .io p d =>
    if ready s p then
      match (s.proc p).ofile d with
      | some f =>
        if (s.file f).type = .FD_PIPE then some (s.goto p (.io d f (s.file f).pipe)) else some s
      | none => some s
    else none
  | .fork p child ok =>
    -- without memory for the child it is `UNUSED` again
    if ready s p ∧ (s.proc child).status = .unused then
      if ok then
        some ((s.setProc child { s.proc child with status := .embryo, pc := .idle }).goto p
          (.fork child 0))
      else some s
    else none
  | .exit p => if ready s p then some (s.goto p (.exit 0)) else none

def start (i : Fin n) : St n F D where
  file := fun _ => ⟨0, .FD_NONE, false, 0⟩
  pipe := fun _ => ⟨false, false, false⟩
  pages := 0
  proc := fun p => ⟨if p = i then .live else .unused, fun _ => none, .idle⟩
  freed := fun _ => 0
  bad := false

end Xv6.FileModel
