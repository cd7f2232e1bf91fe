import Xv6.FsLayout
import Xv6.ProcModel
import Xv6.Threads

/-!
The file system of `kernel/fs.c`, as programs over requests to the shared state.

A request is one access to the shared state, or one critical section under a spinlock; a
process that finds a sleep-lock taken waits, and so does `begin_op` while the log has no room for
another operation. A request that would panic has no answer. Blocks are bytes, seen through the
buffer cache, and a commit is one step. User memory answers as it likes: a copy may bring any
bytes, and may fail anywhere. There is one device.
-/

namespace Xv6.FsModel

open Function Bytes Params FsLayout Threads
open ProcModel (scan)

abbrev Ent := Fin NINODE

variable {n : ℕ}

/-- `struct inode`; `d` is the copy of the disk inode. -/
structure Inode (n : ℕ) where
  inum : ℕ
  ref : ℕ
  lock : Option (Fin n)
  valid : Bool
  d : Dinode

structure St (n : ℕ) where
  /-- The contents of the blocks, as `bread` finds them. -/
  blk : ℕ → Block
  /-- The process that holds the sleep-lock of a block's buffer. -/
  blkLock : ℕ → Option (Fin n)
  itable : Ent → Inode n
  cwd : Fin n → Option Ent
  /-- `log.outstanding`. -/
  outstanding : ℕ
  /-- The home blocks on disk, and `log.lh.block[]`. -/
  disk : ℕ → Block
  lh : List ℕ

inductive Panic
  | iget
  | ilock
  | noType
  | iunlock
  | bmap
  | freeingFreeBlock
  | dirlookupNotDir
  | dirlookupRead

/-! ### Requests -/

inductive Op
  | bread (b : ℕ)
  | bset (b : ℕ) (v : Block)
  | logWrite (b : ℕ)
  | brelse (b : ℕ)
  | beginOp
  | endOp
  | iget (inum : ℕ)
  | idup (e : Ent)
  | refOf (e : Ent)
  | inumOf (e : Ent)
  | acquiresleep (e : Ent)
  | releasesleep (e : Ent)
  | holdingsleep (e : Ent)
  | validOf (e : Ent)
  | setValid (e : Ent) (v : Bool)
  | getI (e : Ent)
  | setI (e : Ent) (d : Dinode)
  | iputTest (e : Ent)
  | unref (e : Ent)
  | getCwd
  | user
  | panic (why : Panic)

def Op.Resp : Op → Type
  | .bread _ => Block
  | .iget _ => Option Ent
  | .refOf _ | .inumOf _ => ℕ
  | .holdingsleep _ | .validOf _ | .iputTest _ => Bool
  | .getI _ => Dinode
  | .getCwd => Ent
  | .user => List UInt8 × Bool
  | .panic _ => Empty
  | _ => Unit

abbrev sig : Sig := ⟨Op, Op.Resp⟩

abbrev Kernel := Prog sig

/-! ### What requests do -/

namespace St

def setInode (s : St n) (e : Ent) (ip : Inode n) : St n :=
  { s with itable := update s.itable e ip }

/-- The table entry of an inode in use, or else the first free one. -/
def slotFor (s : St n) (inum : ℕ) : Option Ent :=
  match scan fun e => 0 < (s.itable e).ref ∧ (s.itable e).inum = inum with
  | some e => some e
  | none => scan fun e => (s.itable e).ref = 0

end St

abbrev User := List UInt8 × Bool

def exec (p : Fin n) (o : Op) (u : User) (s : St n) : Option (o.Resp × St n) :=
  match o with
  | .bread b =>
    if s.blkLock b = none then
      some (s.blk b, { s with blkLock := update s.blkLock b (some p) })
    else none
  | .bset b v =>
    if s.blkLock b = some p then some ((), { s with blk := update s.blk b v }) else none
  | .logWrite b =>
    -- the panics "too big a transaction" and "log_write outside of trans", before the search for
    -- a slot that already has the block
    if s.blkLock b = some p ∧ s.lh.length < LOGBLOCKS ∧ 1 ≤ s.outstanding then
      some ((), { s with lh := if b ∈ s.lh then s.lh else s.lh ++ [b] })
    else none
  | .brelse b =>
    if s.blkLock b = some p then
      some ((), { s with blkLock := update s.blkLock b none })
    else none
  | .beginOp =>
    -- this op might exhaust log space; wait for commit
    if LOGBLOCKS < s.lh.length + (s.outstanding + 1) * MAXOPBLOCKS then none
    else some ((), { s with outstanding := s.outstanding + 1 })
  | .endOp =>
    let s := { s with outstanding := s.outstanding - 1 }
    -- the last operation commits: the logged blocks go to their home locations
    if s.outstanding = 0 then
      some ((), { s with disk := fun b => if b ∈ s.lh then s.blk b else s.disk b, lh := [] })
    else some ((), s)
  | .iget inum =>
    match s.slotFor inum with
    | none => some (none, s)
    | some e =>
      let ip := s.itable e
      if 0 < ip.ref then some (some e, s.setInode e { ip with ref := ip.ref + 1 })
      else some (some e, s.setInode e { ip with inum := inum, ref := 1, valid := false })
  | .idup e => some ((), s.setInode e { s.itable e with ref := (s.itable e).ref + 1 })
  | .refOf e => some ((s.itable e).ref, s)
  | .inumOf e => some ((s.itable e).inum, s)
  | .acquiresleep e =>
    if (s.itable e).lock = none then
      some ((), s.setInode e { s.itable e with lock := some p })
    else none
  | .releasesleep e => some ((), s.setInode e { s.itable e with lock := none })
  | .holdingsleep e => some (decide ((s.itable e).lock = some p), s)
  | .validOf e => some ((s.itable e).valid, s)
  | .setValid e v => some ((), s.setInode e { s.itable e with valid := v })
  | .getI e => some ((s.itable e).d, s)
  | .setI e d => some ((), s.setInode e { s.itable e with d := d })
  | .iputTest e =>
    let ip := s.itable e
    if ip.ref = 1 ∧ ip.valid ∧ ip.d.nlink = 0 then
      if ip.lock = none then some (true, s.setInode e { ip with lock := some p }) else none
    else some (false, s.setInode e { ip with ref := ip.ref - 1 })
  | .unref e => some ((), s.setInode e { s.itable e with ref := (s.itable e).ref - 1 })
  | .getCwd => (s.cwd p).map fun e => (e, s)
  | .user => some (u, s)
  | .panic _ => none

/-! ### Requests, as functions of the kernel -/

def req (o : Op) : Kernel o.Resp := Prog.ask (S := sig) o

def bread (b : ℕ) : Kernel Block := req (.bread b)
def bset (b : ℕ) (v : Block) : Kernel Unit := req (.bset b v)
def logWrite (b : ℕ) : Kernel Unit := req (.logWrite b)
def brelse (b : ℕ) : Kernel Unit := req (.brelse b)
def beginOp : Kernel Unit := req .beginOp
def endOp : Kernel Unit := req .endOp
def refOf (e : Ent) : Kernel ℕ := req (.refOf e)
def inumOf (e : Ent) : Kernel ℕ := req (.inumOf e)
def acquiresleep (e : Ent) : Kernel Unit := req (.acquiresleep e)
def releasesleep (e : Ent) : Kernel Unit := req (.releasesleep e)
def holdingsleep (e : Ent) : Kernel Bool := req (.holdingsleep e)
def validOf (e : Ent) : Kernel Bool := req (.validOf e)
def setValid (e : Ent) (v : Bool) : Kernel Unit := req (.setValid e v)
def getI (e : Ent) : Kernel Dinode := req (.getI e)
def setI (e : Ent) (d : Dinode) : Kernel Unit := req (.setI e d)
def idup (e : Ent) : Kernel Unit := req (.idup e)
def slotFor (inum : ℕ) : Kernel (Option Ent) := req (.iget inum)
/-- The first critical section of `iput`: the inode is to be freed, and is locked; or the reference
is gone. -/
def iputTest (e : Ent) : Kernel Bool := req (.iputTest e)
def unref (e : Ent) : Kernel Unit := req (.unref e)
def getCwd : Kernel Ent := req .getCwd
def user : Kernel User := req .user
def stop {α : Type} (why : Panic) : Kernel α := Prog.op (S := sig) (.panic why) Empty.elim

end Xv6.FsModel
