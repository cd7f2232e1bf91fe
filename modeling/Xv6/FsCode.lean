import Xv6.FsModel

/-!
The functions of `kernel/fs.c` for blocks, for inodes and their contents, and for paths.

A loop of the source is a recursion on a bound that it cannot pass. Paths are lists of bytes.
-/

namespace Xv6.FsCode

open Function Bytes Params FsLayout Threads FsModel

variable (sb : Superblock)

/-! ### Blocks -/

def bzero (bno : ℕ) : Kernel Unit := do
  let _ ← bread bno
  bset bno (Buf.fill BSIZE 0)
  logWrite bno
  brelse bno

/-- The first clear bit of a bitmap block, for blocks from `b` on; `bi` bits were set. -/
def findFree (v : Block) (b : ℕ) : ℕ → ℕ → Option ℕ
  | 0, _ => none
  | k + 1, bi =>
    if b + bi < sb.size then if bit v bi then findFree v b k (bi + 1) else some bi else none

def ballocFrom : ℕ → ℕ → Kernel ℕ
  | 0, _ => pure 0
  | k + 1, b =>
    if b < sb.size then do
      let v ← bread (sb.BBLOCK b)
      match findFree sb v b BPB 0 with
      | some bi =>
        bset (sb.BBLOCK b) (setBit v bi)
        logWrite (sb.BBLOCK b)
        brelse (sb.BBLOCK b)
        bzero (b + bi)
        pure (b + bi)
      | none =>
        brelse (sb.BBLOCK b)
        ballocFrom k (b + BPB)
    else pure 0

def balloc : Kernel ℕ := ballocFrom sb (sb.size / BPB + 1) 0

def bfree (b : ℕ) : Kernel Unit := do
  let v ← bread (sb.BBLOCK b)
  if bit v (b % BPB) then
    bset (sb.BBLOCK b) (clearBit v (b % BPB))
    logWrite (sb.BBLOCK b)
    brelse (sb.BBLOCK b)
  else stop .freeingFreeBlock

/-! ### Inodes -/

def iget (inum : ℕ) : Kernel Ent := do
  match ← slotFor inum with
  | some e => pure e
  | none => stop .iget

def slotOff (inum : ℕ) : ℕ := inum % IPB * DISIZE

def iupdate (ip : Ent) : Kernel Unit := do
  let inum ← inumOf ip
  let v ← bread (sb.IBLOCK inum)
  let d ← getI ip
  bset (sb.IBLOCK inum) (Dinode.put v (slotOff inum) d)
  logWrite (sb.IBLOCK inum)
  brelse (sb.IBLOCK inum)

def ilock (ip : Ent) : Kernel Unit := do
  if (← refOf ip) < 1 then stop .ilock
  else
    acquiresleep ip
    if ← validOf ip then pure ()
    else
      let inum ← inumOf ip
      let v ← bread (sb.IBLOCK inum)
      setI ip (Dinode.get v (slotOff inum))
      brelse (sb.IBLOCK inum)
      setValid ip true
      if (← getI ip).type = 0 then stop .noType else pure ()

def iunlock (ip : Ent) : Kernel Unit := do
  if ← holdingsleep ip then
    if (← refOf ip) < 1 then stop .iunlock else releasesleep ip
  else stop .iunlock

/-! ### Inode content -/

def bmap (ip : Ent) (bn : ℕ) : Kernel ℕ := do
  if bn < NDIRECT then
    let d ← getI ip
    if d.addrs bn = 0 then
      let addr ← balloc sb
      if addr = 0 then pure 0
      else
        let d ← getI ip
        setI ip { d with addrs := update d.addrs bn addr }
        pure addr
    else pure (d.addrs bn)
  else if bn - NDIRECT < NINDIRECT then
    let d ← getI ip
    let ind ← (if d.addrs NDIRECT = 0 then do
        let addr ← balloc sb
        if addr = 0 then pure 0
        else
          let d ← getI ip
          setI ip { d with addrs := update d.addrs NDIRECT addr }
          pure addr
      else pure (d.addrs NDIRECT))
    if ind = 0 then pure 0
    else
      let v ← bread ind
      let addr ← (if v.getLE (4 * (bn - NDIRECT)) 4 = 0 then do
          let addr ← balloc sb
          if addr = 0 then pure 0
          else
            bset ind (v.setLE (4 * (bn - NDIRECT)) 4 addr)
            logWrite ind
            pure addr
        else pure (v.getLE (4 * (bn - NDIRECT)) 4))
      brelse ind
      pure addr
  else stop .bmap

def truncDirect (ip : Ent) : ℕ → Kernel Unit
  | 0 => pure ()
  | k + 1 => do
    let d ← getI ip
    if d.addrs (NDIRECT - (k + 1)) = 0 then truncDirect ip k
    else
      bfree sb (d.addrs (NDIRECT - (k + 1)))
      setI ip { d with addrs := update d.addrs (NDIRECT - (k + 1)) 0 }
      truncDirect ip k

def truncIndirect (v : Block) : ℕ → Kernel Unit
  | 0 => pure ()
  | k + 1 => do
    if v.getLE (4 * (NINDIRECT - (k + 1))) 4 = 0 then truncIndirect v k
    else
      bfree sb (v.getLE (4 * (NINDIRECT - (k + 1))) 4)
      truncIndirect v k

def itrunc (ip : Ent) : Kernel Unit := do
  truncDirect sb ip NDIRECT
  let d ← getI ip
  if d.addrs NDIRECT = 0 then
    setI ip { d with size := 0 }
    iupdate sb ip
  else
    let v ← bread (d.addrs NDIRECT)
    truncIndirect sb v NINDIRECT
    brelse (d.addrs NDIRECT)
    bfree sb (d.addrs NDIRECT)
    setI ip { d with addrs := update d.addrs NDIRECT 0, size := 0 }
    iupdate sb ip

def iput (ip : Ent) : Kernel Unit := do
  if ← iputTest ip then
    itrunc sb ip
    let d ← getI ip
    setI ip { d with type := 0 }
    iupdate sb ip
    setValid ip false
    releasesleep ip
    unref ip
  else pure ()

def iunlockput (ip : Ent) : Kernel Unit := do
  iunlock ip
  iput sb ip

def slice (v : Block) (pos m : ℕ) : List UInt8 := (List.range m).map fun i => v.get (pos + i)

/-- The loop of `readi`: `k` bounds the rounds, and `got` is what was read. -/
def readiLoop (ip : Ent) (userDst : Bool) (n : ℕ) : ℕ → ℕ → List UInt8 → Kernel (ℤ × List UInt8)
  | 0, _, got => pure (got.length, got)
  | k + 1, off, got =>
    if got.length < n then do
      let addr ← bmap sb ip (off / BSIZE)
      if addr = 0 then pure (got.length, got)
      else
        let v ← bread addr
        let m := min (n - got.length) (BSIZE - off % BSIZE)
        let copied ← (if userDst then do pure (← user).2 else pure true)
        brelse addr
        if copied then readiLoop ip userDst n k (off + m) (got ++ slice v (off % BSIZE) m)
        else pure (-1, got)
    else pure (got.length, got)

def readi (ip : Ent) (userDst : Bool) (off n : ℕ) : Kernel (ℤ × List UInt8) := do
  let d ← getI ip
  if d.size < off ∨ 2 ^ 32 ≤ off + n then pure (0, [])
  else
    let n := if d.size < off + n then d.size - off else n
    readiLoop sb ip userDst n n off []

/-- What `writei` writes: bytes of the kernel, or user memory. -/
inductive Src
  | kernel (bs : List UInt8)
  | user

/-- `either_copyin` of `m` bytes, after `tot` others: what arrives, and whether all of it does. -/
def copyin (tot m : ℕ) : Src → Kernel (List UInt8 × Bool)
  | .kernel bs => pure ((bs.drop tot).take m, true)
  | .user => do
    let u ← user
    -- a copy that succeeds brings all bytes, one that fails any number of them
    if u.2 then pure ((u.1 ++ List.replicate m 0).take m, true) else pure (u.1.take m, false)

def writeiLoop (ip : Ent) (src : Src) (n : ℕ) : ℕ → ℕ → ℕ → Kernel (ℕ × ℕ)
  | 0, off, tot => pure (off, tot)
  | k + 1, off, tot =>
    if tot < n then do
      let addr ← bmap sb ip (off / BSIZE)
      if addr = 0 then pure (off, tot)
      else
        let v ← bread addr
        let m := min (n - tot) (BSIZE - off % BSIZE)
        let r ← copyin tot m src
        bset addr (patch v (off % BSIZE) r.1)
        if r.2 then
          logWrite addr
          brelse addr
          writeiLoop ip src n k (off + m) (tot + m)
        else
          brelse addr
          pure (off, tot)
    else pure (off, tot)

def writei (ip : Ent) (src : Src) (off n : ℕ) : Kernel ℤ := do
  let d ← getI ip
  if d.size < off ∨ 2 ^ 32 ≤ off + n ∨ MAXFILE * BSIZE < off + n then pure (-1)
  else
    let r ← writeiLoop sb ip src n n off 0
    let d ← getI ip
    if d.size < r.1 then setI ip { d with size := r.1 } else pure ()
    iupdate sb ip
    pure r.2

/-! ### Directories -/

def direntOf (bs : List UInt8) : Dirent := Dirent.get (patch (Buf.fill DESIZE 0) 0 bs) 0

def dirlookupLoop (dp : Ent) (name : List UInt8) : ℕ → ℕ → Kernel (Option (ℕ × Ent))
  | 0, _ => pure none
  | k + 1, off => do
    if off < (← getI dp).size then
      let r ← readi sb dp false off DESIZE
      if r.1 ≠ DESIZE then stop .dirlookupRead
      else if (direntOf r.2).inum ≠ 0 ∧ (direntOf r.2).name = name then
        let e ← iget (direntOf r.2).inum
        pure (some (off, e))
      else dirlookupLoop dp name k (off + DESIZE)
    else pure none

def dirlookup (dp : Ent) (name : List UInt8) : Kernel (Option (ℕ × Ent)) := do
  let d ← getI dp
  if d.type ≠ T_DIR then stop .dirlookupNotDir
  else dirlookupLoop sb dp name (d.size / DESIZE + 1) 0

/-! ### Paths -/

/-- The next path element, cut off at `DIRSIZ` bytes, and the rest of the path. -/
def skipelem (path : List UInt8) : Option (List UInt8 × List UInt8) :=
  match path.dropWhile (· = slash) with
  | [] => none
  | c :: cs => some ((c :: cs).takeWhile (· ≠ slash) |>.take DIRSIZ,
      ((c :: cs).dropWhile (· ≠ slash)).dropWhile (· = slash))

def elemsFrom : ℕ → List UInt8 → List (List UInt8)
  | 0, _ => []
  | k + 1, path =>
    match skipelem path with
    | none => []
    | some (name, rest) => name :: elemsFrom k rest

def elems (path : List UInt8) : List (List UInt8) := elemsFrom path.length path

/-- The loop of `namex`; the result has the last element where the parent is asked for. -/
def namexLoop (parent : Bool) : List (List UInt8) → Ent → Kernel (Option (Ent × List UInt8))
  | [], ip =>
    if parent then do
      iput sb ip
      pure none
    else pure (some (ip, []))
  | name :: rest, ip => do
    ilock sb ip
    if (← getI ip).type ≠ T_DIR then
      iunlockput sb ip
      pure none
    else if parent ∧ rest = [] then
      -- stop one level early
      iunlock ip
      pure (some (ip, name))
    else
      match ← dirlookup sb ip name with
      | none =>
        iunlockput sb ip
        pure none
      | some (_, next) =>
        iunlockput sb ip
        namexLoop parent rest next

def namex (path : List UInt8) (parent : Bool) : Kernel (Option (Ent × List UInt8)) := do
  if path.head? = some slash then
    let ip ← iget ROOTINO
    namexLoop sb parent (elems path) ip
  else
    let ip ← getCwd
    idup ip
    namexLoop sb parent (elems path) ip

def namei (path : List UInt8) : Kernel (Option Ent) := do
  let r ← namex sb path false
  pure (r.map Prod.fst)

def nameiparent (path : List UInt8) : Kernel (Option (Ent × List UInt8)) := namex sb path true

def maxChunk : ℕ := (MAXOPBLOCKS - 1 - 1 - 2) / 2 * BSIZE

/-! ### Orphans -/

/-- A round of `ireclaim`, for an inode that a crash may have left without a name. -/
def ireclaimOne (inum : ℕ) : Kernel Unit := do
  let v ← bread (sb.IBLOCK inum)
  if (Dinode.get v (slotOff inum)).type ≠ 0 ∧ (Dinode.get v (slotOff inum)).nlink = 0 then
    let ip ← iget inum
    brelse (sb.IBLOCK inum)
    beginOp
    ilock sb ip
    iunlock ip
    iput sb ip
    endOp
  else brelse (sb.IBLOCK inum)

end Xv6.FsCode
