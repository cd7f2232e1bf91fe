import Mathlib.Data.Fintype.Basic
import Xv6.FsLayout
import Xv6.Hoare

/-!
Link counts: `sys_link`, `sys_unlink` and `create` of `kernel/sysfile.c`, with `namei`, `dirlookup`,
`dirlink`, `ialloc` and `iput` of `kernel/fs.c`.

An inode is its type, its link count, which is a `short`, and, of a directory, the list of its
slots. Contents of files, and blocks, are not here: where a directory has to grow, an argument says
whether there is a block for it. A call runs by itself, but for `sys_link`, which lets go of the
inode between the increment of its link count and the new entry.
-/

namespace Xv6.LinkModel

open Function Params FsLayout Hoare

abbrev Name := List UInt8

def dot : Name := [46]
def dotdot : Name := [46, 46]

/-- What `skipelem` can return: not empty, without a slash or a NUL, and cut to `DIRSIZ` bytes. -/
def proper (name : Name) : Bool := name ≠ [] ∧ name.length ≤ DIRSIZ ∧ 0 ∉ name ∧ slash ∉ name

/-- A slot of a directory; a slot with `inum = 0` is free. -/
structure Entry where
  inum : ℕ
  name : Name
  deriving DecidableEq

inductive Ty
  | free | dir | file | device
  deriving DecidableEq

structure Inode where
  type : Ty
  nlink : ℤ
  ents : List Entry

def MAXENT : ℕ := MAXFILE * BSIZE / DESIZE

inductive Panic
  /-- `ilock: no type` -/
  | noType
  /-- `unlink: nlink < 1` -/
  | nlinkLow
  deriving DecidableEq

/-- The inodes, on disk and in the table of those in use, whose `ref` and `valid` these are.
`opened` are the inodes that open files and working directories refer to, and `linking` the inode
that a process has in `sys_link`. -/
structure St (P : Type) where
  ninodes : ℕ
  inode : ℕ → Inode
  ref : ℕ → ℕ
  valid : ℕ → Bool
  opened : List ℕ
  linking : P → Option ℕ

variable {P : Type} [DecidableEq P]

abbrev M (P : Type) := StateT (St P) (Except Panic)

def short (x : ℤ) : ℤ := Int.bmod x (2 ^ 16)

def setInode (i : ℕ) (x : Inode) : M P Unit :=
  modify fun s => { s with inode := update s.inode i x }

def setNlink (i : ℕ) (x : ℤ) : M P Unit := do
  let s ← get
  setInode i { s.inode i with nlink := short x }

def iget (i : ℕ) : M P Unit := modify fun s => { s with
  ref := update s.ref i (s.ref i + 1)
  valid := if s.ref i = 0 then update s.valid i false else s.valid }

def ilock (i : ℕ) : M P Unit := do
  let s ← get
  if (s.inode i).type = .free then throw .noType
  modify fun s => { s with valid := update s.valid i true }

def iput (i : ℕ) : M P Unit := do
  let s ← get
  if s.ref i = 1 ∧ s.valid i ∧ (s.inode i).nlink = 0 then
    setInode i ⟨.free, 0, []⟩
    modify fun s => { s with valid := update s.valid i false }
  modify fun s => { s with ref := update s.ref i (s.ref i - 1) }

def dirlookup (l : List Entry) (name : Name) : Option ℕ :=
  l.findIdx? fun e => e.inum ≠ 0 ∧ e.name = name

/-- `dirlink`, on the slots of a directory; `ok` says whether there is a block if it has to grow.
The field `inum` of an entry is a `ushort`. -/
def dirlink (l : List Entry) (name : Name) (inum : ℕ) (ok : Bool) : Option (List Entry) :=
  if (dirlookup l name).isSome then none
  else
    match l.findIdx? fun e => e.inum = 0 with
    | some k => some (l.set k ⟨inum % 2 ^ 16, name⟩)
    | none => if l.length < MAXENT ∧ ok then some (l ++ [⟨inum % 2 ^ 16, name⟩]) else none

def setEnts (i : ℕ) (l : List Entry) : M P Unit := do
  let s ← get
  setInode i { s.inode i with ents := l }

/-- `namex`, from the inode `ip` that has been referenced. -/
def namex : List Name → ℕ → M P (Option ℕ)
  | [], ip => pure (some ip)
  | name :: rest, ip => do
    ilock ip
    let s ← get
    if (s.inode ip).type ≠ .dir then
      iput ip
      pure none
    else
      match dirlookup (s.inode ip).ents name with
      | none =>
        iput ip
        pure none
      | some k =>
        let next := ((s.inode ip).ents.getD k ⟨0, []⟩).inum
        iget next
        iput ip
        namex rest next

def namei (start : ℕ) (path : List Name) : M P (Option ℕ) := do
  iget start
  namex path start

def nameiparent (start : ℕ) (path : List Name) : M P (Option (ℕ × Name)) := do
  match path.getLast? with
  | none =>
    iget start
    iput start
    pure none
  | some name =>
    let some ip ← namei start path.dropLast | pure none
    ilock ip
    let s ← get
    if (s.inode ip).type ≠ .dir then
      iput ip
      pure none
    else pure (some (ip, name))

/-- `sys_link`, up to where it looks for the directory of the new name. -/
def linkOld (p : P) (start : ℕ) (path : List Name) : M P Unit := do
  let some ip ← namei start path | pure ()
  ilock ip
  let s ← get
  if (s.inode ip).type = .dir then iput ip
  else
    setNlink ip ((s.inode ip).nlink + 1)
    modify fun s => { s with linking := update s.linking p (some ip) }

def linkBad (p : P) (ip : ℕ) : M P Unit := do
  ilock ip
  let s ← get
  setNlink ip ((s.inode ip).nlink - 1)
  modify fun s => { s with linking := update s.linking p none }
  iput ip

def linkNew (p : P) (ip start : ℕ) (path : List Name) (ok : Bool) : M P Unit := do
  match ← nameiparent start path with
  | none => linkBad p ip
  | some (dp, name) =>
    ilock dp
    let s ← get
    match dirlink (s.inode dp).ents name ip ok with
    | none =>
      iput dp
      linkBad p ip
    | some l =>
      setEnts dp l
      modify fun s => { s with linking := update s.linking p none }
      iput dp
      iput ip

def isdirempty (l : List Entry) : Bool := (l.drop 2).all fun e => e.inum = 0

def unlink (start : ℕ) (path : List Name) : M P Unit := do
  let some (dp, name) ← nameiparent start path | pure ()
  ilock dp
  if name = dot ∨ name = dotdot then iput dp
  else
    let s ← get
    match dirlookup (s.inode dp).ents name with
    | none => iput dp
    | some k =>
      let ip := ((s.inode dp).ents.getD k ⟨0, []⟩).inum
      iget ip
      ilock ip
      if (s.inode ip).nlink < 1 then throw .nlinkLow
      if (s.inode ip).type = .dir ∧ ¬ isdirempty (s.inode ip).ents then
        iput ip
        iput dp
      else
        setEnts dp ((s.inode dp).ents.set k ⟨0, []⟩)
        if (s.inode ip).type = .dir then setNlink dp ((s.inode dp).nlink - 1)
        iput dp
        let s ← get
        setNlink ip ((s.inode ip).nlink - 1)
        iput ip

def ialloc (s : St P) : Option ℕ :=
  (List.range s.ninodes).find? fun i => i ≠ 0 ∧ (s.inode i).type = .free

/-- The slots of a new directory, if there is a block for them. -/
def newEnts (type : Ty) (ip dp : ℕ) (ok : Bool) : Option (List Entry) :=
  if type ≠ .dir then some []
  else (dirlink [] dot ip ok).bind fun l => dirlink l dotdot dp ok

/-- What is done with the inode that `create` returns: it is kept open if `keep` says so, as
`sys_open` does. -/
def keepOpen (ip : ℕ) (keep : Bool) : M P Unit := do
  if keep then modify fun s => { s with opened := ip :: s.opened } else iput ip

def createFail (ip dp : ℕ) : M P Unit := do
  setNlink ip 0
  iput ip
  iput dp

def create (start : ℕ) (path : List Name) (type : Ty) (ok ok' keep : Bool) : M P Unit := do
  let some (dp, name) ← nameiparent start path | pure ()
  ilock dp
  let s ← get
  match dirlookup (s.inode dp).ents name with
  | some k =>
    let ip := ((s.inode dp).ents.getD k ⟨0, []⟩).inum
    iget ip
    iput dp
    ilock ip
    let s ← get
    if type = .file ∧ ((s.inode ip).type = .file ∨ (s.inode ip).type = .device) then
      keepOpen ip keep
    else iput ip
  | none =>
    match ialloc s with
    | none => iput dp
    | some ip =>
      iget ip
      setInode ip ⟨type, 1, []⟩
      ilock ip
      match newEnts type ip dp ok with
      | none => createFail ip dp
      | some l =>
        setEnts ip l
        match dirlink (s.inode dp).ents name ip ok' with
        | none => createFail ip dp
        | some l' =>
          setEnts dp l'
          if type = .dir then setNlink dp ((s.inode dp).nlink + 1)
          iput dp
          keepOpen ip keep

/-- A path is followed and the inode kept open, as `sys_open` and `sys_chdir` do. -/
def openOld (start : ℕ) (path : List Name) : M P Unit := do
  let some ip ← namei start path | pure ()
  ilock ip
  modify fun s => { s with opened := ip :: s.opened }

def close (i : ℕ) : M P Unit := do
  let s ← get
  if i ∈ s.opened then
    modify fun s => { s with opened := s.opened.erase i }
    iput i

inductive Act (P : Type)
  | link (p : P) (start : ℕ) (path : List Name)
  | linkNew (p : P) (start : ℕ) (path : List Name) (ok : Bool)
  | unlink (start : ℕ) (path : List Name)
  | create (start : ℕ) (path : List Name) (type : Ty) (ok ok' keep : Bool)
  | openOld (start : ℕ) (path : List Name)
  | close (i : ℕ)

/-- A path starts at the root or at a working directory. -/
def pathOk (s : St P) (start : ℕ) (path : List Name) : Bool :=
  (start = ROOTINO ∨ start ∈ s.opened) ∧ path.all proper

/-- What an action does, with the panic it may end in; `none` where it cannot be taken. -/
def exec (s : St P) : Act P → Option (Except Panic (Unit × St P))
  | .link p start path =>
    if pathOk s start path ∧ s.linking p = none then some (linkOld p start path s) else none
  | .linkNew p start path ok =>
    match s.linking p with
    | some ip => if pathOk s start path then some (linkNew p ip start path ok s) else none
    | none => none
  | .unlink start path => if pathOk s start path then some (unlink start path s) else none
  | .create start path type ok ok' keep =>
    if pathOk s start path ∧ type ≠ .free then some (create start path type ok ok' keep s)
    else none
  | .openOld start path => if pathOk s start path then some (openOld start path s) else none
  | .close i => some (close i s)

def panics (s : St P) (a : Act P) : Option Panic :=
  match exec s a with
  | some (.error e) => some e
  | _ => none

/-- A step; after a panic there is none. -/
def step (s : St P) (a : Act P) : Option (St P) :=
  match exec s a with
  | some (.ok (_, t)) => some t
  | _ => none

end Xv6.LinkModel
