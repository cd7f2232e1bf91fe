import Xv6.FsPath
import Xv6.Params

/-!
The program `find` (user/find.c).

The files are a table of inodes, the directories with their entries in the order in which `read`
returns them. Of the kernel, the model has the system calls that `find` makes: `open` for reading,
which needs an entry of the file table and a descriptor, and `close`. `fstat` and `read` of an open
file do not fail. `run_exec` only records its path.
-/

namespace Xv6.Find

open Bytes CString FsLayout FsCode Params

/-! ### Files -/

inductive Inode
  | file
  | device (major : ℤ)
  | dir (entries : List Dirent)

structure Fs where
  inode : ℕ → Option Inode
  /-- the current directory -/
  cwd : ℕ

def dirlookup (entries : List Dirent) (name : List UInt8) : Option ℕ :=
  (entries.find? fun de => de.inum ≠ 0 ∧ de.name = name).map (·.inum)

def namexLoop (fs : Fs) : List (List UInt8) → ℕ → Option ℕ
  | [], i => some i
  | name :: rest, i =>
    match fs.inode i with
    | some (.dir entries) => (dirlookup entries name).bind (namexLoop fs rest)
    | _ => none

def namei (fs : Fs) (path : List UInt8) : Option ℕ :=
  namexLoop fs (elems path) (if path.head? = some slash then ROOTINO else fs.cwd)

/-! ### Descriptors -/

inductive Msg
  | cannotOpen (path : List UInt8)
  | tooLong

structure World where
  /-- the descriptors in use -/
  ofile : Fin NOFILE → Bool
  /-- the free entries of the file table -/
  files : ℕ
  /-- the paths given to `run_exec` -/
  handled : List (List UInt8)
  said : List Msg

def World.say (w : World) (m : Msg) : World := { w with said := w.said ++ [m] }

def runExec (path : List UInt8) (w : World) : World := { w with handled := w.handled ++ [path] }

def fdalloc (w : World) : Option (Fin NOFILE) := (List.finRange NOFILE).find? fun fd => !w.ofile fd

def Inode.bad : Inode → Bool
  | .device major => major < 0 ∨ NDEV ≤ major
  | _ => false

/-- `open(path, O_RDONLY)`: a descriptor and the inode that it is for. -/
def sysOpen (fs : Fs) (path : List UInt8) (w : World) : Option (Fin NOFILE × Inode) × World :=
  -- the path with its NUL has to fit into the buffer of `sys_open`
  if MAXPATH ≤ path.length then (none, w)
  else
    match (namei fs path).bind fs.inode with
    | none => (none, w)
    | some ip =>
      if ip.bad then (none, w)
      else
        match w.files, fdalloc w with
        | n + 1, some fd =>
          (some (fd, ip), { w with files := n, ofile := Function.update w.ofile fd true })
        | _, _ => (none, w)

def sysClose (fd : Fin NOFILE) (w : World) : World :=
  { w with files := w.files + 1, ofile := Function.update w.ofile fd false }

/-! ### find -/

def strcpy {n : ℕ} (b : Buf n) (s : List UInt8) : Buf n := fun j =>
  if j.val ≤ s.length then s.getD j.val 0 else b j

/-- What stands behind the last slash: `find` goes back from the end of the path. -/
def lastPart (path : List UInt8) : List UInt8 := (path.reverse.takeWhile (· ≠ slash)).reverse

def BUFSIZE : ℕ := 512

def strAt (b : Buf BUFSIZE) (off : ℕ) : List UInt8 :=
  cstr (fun j => b.get (off + j)) (BUFSIZE - off)

/-- The loop of `find` over the entries of a directory. The names go to offset `p` of the buffer;
`visit` is the recursive call. -/
def scanDir (visit : List UInt8 → World → Option World) (p : ℕ) :
    List Dirent → Buf BUFSIZE → World → Option World
  | [], _, w => some w
  | de :: entries, buf, w =>
    if de.inum = 0 then scanDir visit p entries buf w
    else
      -- memmove(p, de.name, DIRSIZ); p[DIRSIZ] = 0;
      let buf := (buf.blit p de.bytes 2 DIRSIZ).set (p + DIRSIZ) 0
      if strAt buf p = [46] ∨ strAt buf p = [46, 46] then scanDir visit p entries buf w
      else do
        let w ← visit (strAt buf 0) w
        scanDir visit p entries buf w

/-- `find`. What is in the buffer before it is written to is `junk`; a run that needs more nested
calls than `fuel` is `none`. -/
def find (fs : Fs) (target : List UInt8) (junk : Buf BUFSIZE) :
    ℕ → List UInt8 → World → Option World
  | 0, _, _ => none
  | fuel + 1, path, w =>
    match sysOpen fs path w with
    | (none, w) => some (w.say (.cannotOpen path))
    | (some (fd, ip), w) => do
      let w ← match ip with
        | .file => some (if lastPart path = target then runExec path w else w)
        | .dir entries =>
          if BUFSIZE < path.length + 1 + DIRSIZ + 1 then some (w.say .tooLong)
          else
            let buf := (strcpy junk path).set path.length slash
            scanDir (find fs target junk fuel) (path.length + 1) entries buf w
        | .device _ => some w
      return sysClose fd w

end Xv6.Find
