import Xv6.FsCode
import Xv6.LinkModel

/-!
`sys_link`, `sys_unlink`, `sys_mkdir`, `sys_mknod` and `sys_open` of `kernel/sysfile.c` with their
results, and what of `kernel/fs.c` and `kernel/file.c` they can fail in.

An inode is its type, device numbers and link count, the slots of a directory or the bytes of a
file, and whether it has an indirect block. The blocks of a directory are those that its slots need;
of the free blocks there is only the number, so that every allocation of a call can be the one that
fails. A call runs by itself. The table of inodes in use has always room, and the transactions of
the log are not here.
-/

namespace Xv6.DirModel

open Function Params FsLayout Hoare
open FsCode (elems)
open LinkModel (Name Entry Ty dot dotdot MAXENT short dirlookup isdirempty)

structure Inode where
  type : Ty
  major : ℤ
  minor : ℤ
  nlink : ℤ
  /-- the slots of a directory -/
  ents : List Entry
  /-- the bytes of a file -/
  data : List UInt8
  /-- `addrs[NDIRECT] ≠ 0` -/
  indirect : Bool

def Inode.empty : Inode := ⟨.free, 0, 0, 0, [], [], false⟩

def EPB : ℕ := BSIZE / DESIZE

def Inode.blocks (x : Inode) : ℕ :=
  (x.ents.length * DESIZE + x.data.length + BSIZE - 1) / BSIZE + if x.indirect then 1 else 0

structure File where
  type : FdType
  ref : ℕ
  ip : ℕ
  off : ℕ
  major : ℤ
  readable : Bool
  writable : Bool

/-- The inodes and the number of free blocks on the disk; `ref` and `valid` of the inodes in use;
the working directory and the descriptors of the process; the file table. -/
structure St where
  ninodes : ℕ
  free : ℕ
  inode : ℕ → Inode
  ref : ℕ → ℕ
  valid : ℕ → Bool
  cwd : ℕ
  ofile : Fin NOFILE → Option (Fin NFILE)
  ftable : Fin NFILE → File

inductive Panic
  /-- `ilock: no type` -/
  | noType
  /-- `unlink: nlink < 1` -/
  | nlinkLow
  /-- `unlink: writei` -/
  | unlinkWrite
  /-- `fileclose` -/
  | fileclose

abbrev M := StateT St (Except Panic)

def setInode (i : ℕ) (x : Inode) : M Unit :=
  modify fun s => { s with inode := update s.inode i x }

/-! ### Inodes -/

def iget (i : ℕ) : M Unit := modify fun s => { s with
  ref := update s.ref i (s.ref i + 1)
  valid := if s.ref i = 0 then update s.valid i false else s.valid }

def ilock (i : ℕ) : M Unit := do
  let s ← get
  if (s.inode i).type = .free then throw .noType
  modify fun s => { s with valid := update s.valid i true }

def itrunc (i : ℕ) : M Unit := modify fun s => { s with
  free := s.free + (s.inode i).blocks
  inode := update s.inode i { s.inode i with ents := [], data := [], indirect := false } }

def iput (i : ℕ) : M Unit := do
  let s ← get
  if s.ref i = 1 ∧ s.valid i ∧ (s.inode i).nlink = 0 then
    itrunc i
    modify fun s => { s with
      inode := update s.inode i { s.inode i with type := .free }
      valid := update s.valid i false }
  modify fun s => { s with ref := update s.ref i (s.ref i - 1) }

def setNlink (i : ℕ) (x : ℤ) : M Unit := do
  let s ← get
  setInode i { s.inode i with nlink := short x }

def ialloc (type : Ty) : M (Option ℕ) := do
  let s ← get
  match (List.range s.ninodes).find? fun i => i ≠ 0 ∧ (s.inode i).type = .free with
  | none => return none
  | some i =>
    setInode i { Inode.empty with type := type }
    iget i
    return some i

/-! ### Blocks and slots -/

def balloc : M Bool := do
  let s ← get
  if s.free = 0 then return false
  set { s with free := s.free - 1 }
  return true

/-- `bmap` of block `bn` of a directory: whether there is such a block, after allocation. -/
def bmap (dp bn : ℕ) : M Bool := do
  let x := (← get).inode dp
  if bn * EPB < x.ents.length then return true
  else if bn < NDIRECT then balloc
  else if x.indirect then balloc
  else
    if ← balloc then
      setInode dp { x with indirect := true }
      balloc
    else return false

def writeSlot (dp k : ℕ) (e : Entry) : M Bool := do
  let n := ((← get).inode dp).ents.length
  if n < k then return false
  else if MAXENT < k + 1 then return false
  else
    if ← bmap dp (k / EPB) then
      let x := (← get).inode dp
      setInode dp { x with ents := if k < n then x.ents.set k e else x.ents ++ [e] }
      return true
    else return false

def slotInum (l : List Entry) (k : ℕ) : ℕ := (l.getD k ⟨0, []⟩).inum

def dirlink (dp : ℕ) (name : Name) (inum : ℕ) : M Bool := do
  let l := ((← get).inode dp).ents
  match dirlookup l name with
  | some k =>
    iget (slotInum l k)
    iput (slotInum l k)
    return false
  | none =>
    let k := (l.findIdx? fun e => e.inum = 0).getD l.length
    writeSlot dp k ⟨inum % 2 ^ 16, name⟩

/-! ### Paths -/

/-- The loop of `namex`; the result has the last element where the parent is asked for. -/
def namexLoop (parent : Bool) : List Name → ℕ → M (Option (ℕ × Name))
  | [], ip =>
    if parent then do
      iput ip
      return none
    else return some (ip, [])
  | name :: rest, ip => do
    ilock ip
    let x := (← get).inode ip
    if x.type ≠ .dir then
      iput ip
      return none
    else if parent ∧ rest = [] then
      -- stop one level early
      return some (ip, name)
    else
      match dirlookup x.ents name with
      | none =>
        iput ip
        return none
      | some k =>
        iget (slotInum x.ents k)
        iput ip
        namexLoop parent rest (slotInum x.ents k)

def namex (path : List UInt8) (parent : Bool) : M (Option (ℕ × Name)) := do
  let s ← get
  let start := if path.head? = some slash then ROOTINO else s.cwd
  iget start
  namexLoop parent (elems path) start

def namei (path : List UInt8) : M (Option ℕ) := do
  let r ← namex path false
  return r.map Prod.fst

def nameiparent (path : List UInt8) : M (Option (ℕ × Name)) := namex path true

/-! ### System calls -/

def linkBad (ip : ℕ) : M ℤ := do
  ilock ip
  setNlink ip (((← get).inode ip).nlink - 1)
  iput ip
  return -1

def linkNew (ip : ℕ) (new : List UInt8) : M ℤ := do
  match ← nameiparent new with
  | none => linkBad ip
  | some (dp, name) =>
    ilock dp
    if ← dirlink dp name ip then
      iput dp
      iput ip
      return 0
    else
      iput dp
      linkBad ip

/-- `sys_link`; a path that cannot be fetched is `none`. -/
def sysLink : Option (List UInt8) → Option (List UInt8) → M ℤ
  | some old, some new => do
    match ← namei old with
    | none => return -1
    | some ip =>
      ilock ip
      let x := (← get).inode ip
      if x.type = .dir then
        iput ip
        return -1
      else
        setNlink ip (x.nlink + 1)
        linkNew ip new
  | _, _ => return -1

/-- `sys_unlink` from where the entry has been found, in slot `k` of `dp`. -/
def unlinkSlot (dp k ip : ℕ) : M ℤ := do
  if ← writeSlot dp k ⟨0, []⟩ then
    if ((← get).inode ip).type = .dir then setNlink dp (((← get).inode dp).nlink - 1)
    iput dp
    setNlink ip (((← get).inode ip).nlink - 1)
    iput ip
    return 0
  else throw .unlinkWrite

def sysUnlink : Option (List UInt8) → M ℤ
  | none => return -1
  | some path => do
    match ← nameiparent path with
    | none => return -1
    | some (dp, name) =>
      ilock dp
      let l := ((← get).inode dp).ents
      if name = dot ∨ name = dotdot then
        iput dp
        return -1
      else
        match dirlookup l name with
        | none =>
          iput dp
          return -1
        | some k =>
          let ip := slotInum l k
          iget ip
          ilock ip
          let x := (← get).inode ip
          if x.nlink < 1 then throw .nlinkLow
          if x.type = .dir ∧ ¬ isdirempty x.ents then
            iput ip
            iput dp
            return -1
          else unlinkSlot dp k ip

/-- The entries that `create` makes: `.` and `..` of a directory, and the new name. -/
def createLinks (type : Ty) (ip dp : ℕ) (name : Name) : M Bool := do
  if type = .dir then
    if ← dirlink ip dot ip then
      if ← dirlink ip dotdot dp then dirlink dp name ip
      else return false
    else return false
  else dirlink dp name ip

def createNew (dp : ℕ) (name : Name) (type : Ty) (major minor : ℤ) : M (Option ℕ) := do
  match ← ialloc type with
  | none =>
    iput dp
    return none
  | some ip =>
    ilock ip
    setInode ip { (← get).inode ip with major := major, minor := minor, nlink := 1 }
    if ← createLinks type ip dp name then
      if type = .dir then setNlink dp (((← get).inode dp).nlink + 1)
      iput dp
      return some ip
    else
      -- something went wrong: de-allocate `ip`
      setNlink ip 0
      iput ip
      iput dp
      return none

def create (path : List UInt8) (type : Ty) (major minor : ℤ) : M (Option ℕ) := do
  match ← nameiparent path with
  | none => return none
  | some (dp, name) =>
    ilock dp
    let l := ((← get).inode dp).ents
    match dirlookup l name with
    | some k =>
      let ip := slotInum l k
      iget ip
      iput dp
      ilock ip
      let x := (← get).inode ip
      if type = .file ∧ (x.type = .file ∨ x.type = .device) then return some ip
      else
        iput ip
        return none
    | none => createNew dp name type major minor

def make (path : Option (List UInt8)) (type : Ty) (major minor : ℤ) : M ℤ :=
  match path with
  | none => return -1
  | some path => do
    match ← create path type major minor with
    | none => return -1
    | some ip =>
      iput ip
      return 0

def sysMkdir (path : Option (List UInt8)) : M ℤ := make path .dir 0 0

def sysMknod (path : Option (List UInt8)) (major minor : ℤ) : M ℤ :=
  make path .device (short major) (short minor)

/-! ### Open files -/

def filealloc : M (Option (Fin NFILE)) := do
  let s ← get
  match (List.finRange NFILE).find? fun f => (s.ftable f).ref = 0 with
  | none => return none
  | some f =>
    set { s with ftable := update s.ftable f { s.ftable f with ref := 1 } }
    return some f

def fdalloc (f : Fin NFILE) : M (Option (Fin NOFILE)) := do
  let s ← get
  match (List.finRange NOFILE).find? fun fd => s.ofile fd = none with
  | none => return none
  | some fd =>
    set { s with ofile := update s.ofile fd (some f) }
    return some fd

def fileclose (f : Fin NFILE) : M Unit := do
  let ff := (← get).ftable f
  if ff.ref < 1 then throw .fileclose
  modify fun s => { s with ftable := update s.ftable f { ff with ref := ff.ref - 1 } }
  if ff.ref = 1 then
    modify fun s => { s with
      ftable := update s.ftable f { ff with ref := 0, type := .FD_NONE } }
    if ff.type = .FD_INODE ∨ ff.type = .FD_DEVICE then iput ff.ip

def openInode (path : List UInt8) (omode : ℕ) : M (Option ℕ) := do
  if omode &&& O_CREATE ≠ 0 then create path .file 0 0
  else
    match ← namei path with
    | none => return none
    | some ip =>
      ilock ip
      if ((← get).inode ip).type = .dir ∧ omode ≠ O_RDONLY then
        iput ip
        return none
      else return some ip

def openFile (ip : ℕ) (f : Fin NFILE) (omode : ℕ) : M Unit := do
  let x := (← get).inode ip
  modify fun s => { s with ftable := update s.ftable f { s.ftable f with
    type := if x.type = .device then .FD_DEVICE else .FD_INODE
    major := if x.type = .device then x.major else (s.ftable f).major
    off := if x.type = .device then (s.ftable f).off else 0
    ip := ip
    readable := omode &&& O_WRONLY = 0
    writable := omode &&& O_WRONLY ≠ 0 ∨ omode &&& O_RDWR ≠ 0 } }
  if omode &&& O_TRUNC ≠ 0 ∧ x.type = .file then itrunc ip

def openRest (ip omode : ℕ) : M ℤ := do
  match ← filealloc with
  | none =>
    iput ip
    return -1
  | some f =>
    match ← fdalloc f with
    | none =>
      fileclose f
      iput ip
      return -1
    | some fd =>
      openFile ip f omode
      return fd.val

def sysOpen (path : Option (List UInt8)) (omode : ℕ) : M ℤ :=
  match path with
  | none => return -1
  | some path => do
    match ← openInode path omode with
    | none => return -1
    | some ip =>
      let x := (← get).inode ip
      if x.type = .device ∧ (x.major < 0 ∨ NDEV ≤ x.major) then
        iput ip
        return -1
      else openRest ip omode

end Xv6.DirModel
