import Xv6.FsLayout

/-!
`mkfs/mkfs.c`: the program that makes the first file system.

The image is a file of sectors. A read past its end ends the program, as a failed assertion does; a
write past its end makes it longer. `xint` and `xshort` are for the byte order of the disk, which is
the one of `getLE` and `setLE`. A host file is what `read` returns from it, one piece after another.
-/

namespace Xv6.MkfsModel

open Function Bytes FsLayout Params

/-! ### The image -/

def FSSIZE : ℕ := 2000
def NINODES : ℕ := 200
def FSMAGIC : ℕ := 0x10203040

def nbitmap : ℕ := FSSIZE / BPB + 1
def ninodeblocks : ℕ := NINODES / IPB + 1
def nlog : ℕ := LOGBLOCKS + 1
def nmeta : ℕ := 2 + nlog + ninodeblocks + nbitmap
def nblocks : ℕ := FSSIZE - nmeta

def sb : Superblock where
  size := FSSIZE
  ninodes := NINODES
  nlog := nlog
  logstart := 2
  inodestart := 2 + nlog
  bmapstart := 2 + nlog + ninodeblocks

def sbFields : List ℕ :=
  [FSMAGIC, sb.size, nblocks, sb.ninodes, sb.nlog, sb.logstart, sb.inodestart, sb.bmapstart]

def zeroes : Block := Buf.fill BSIZE 0

def sbBlock : Block :=
  (sbFields.foldl (fun (x : Block × ℕ) v => (x.1.setLE x.2 4 v, x.2 + 4)) (zeroes, 0)).1

/-- The file `fsfd`, with its length in sectors, and the two counters. -/
structure St where
  disk : Disk
  sectors : ℕ
  freeinode : ℕ
  freeblock : ℕ

inductive Err
  | assert
  | die

abbrev M := StateT St (Except Err)

def start : St := ⟨fun _ => zeroes, FSSIZE, 1, nmeta⟩

def wsect (sec : ℕ) (buf : Block) : M Unit :=
  modify fun s => { s with
    disk := update s.disk sec buf
    sectors := max s.sectors (sec + 1) }

def rsect (sec : ℕ) : M Block := do
  let s ← get
  if sec < s.sectors then pure (s.disk sec) else throw .die

def assert (p : Prop) [Decidable p] : M Unit := if p then pure () else throw .assert

/-! ### Inodes -/

def winode (inum : ℕ) (ip : Dinode) : M Unit := do
  let buf ← rsect (sb.IBLOCK inum)
  wsect (sb.IBLOCK inum) (Dinode.put buf (inum % IPB * DISIZE) ip)

def rinode (inum : ℕ) : M Dinode := do
  let buf ← rsect (sb.IBLOCK inum)
  pure (Dinode.get buf (inum % IPB * DISIZE))

def ialloc (type : ℕ) : M ℕ := do
  let s ← get
  modify fun s => { s with freeinode := s.freeinode + 1 }
  winode s.freeinode ⟨type, 0, 0, 1, 0, fun _ => 0⟩
  pure s.freeinode

def takeBlock : M ℕ := do
  let s ← get
  modify fun s => { s with freeblock := s.freeblock + 1 }
  pure s.freeblock

def word (b : Block) (j : ℕ) : ℕ := b.getLE (4 * j) 4

/-- The part of `iappend` that finds block `fbn` of a file, or takes a new one. -/
def fileBlock (din : Dinode) (fbn : ℕ) : M (Dinode × ℕ) :=
  if fbn < NDIRECT then
    if din.addrs fbn = 0 then do
      let x ← takeBlock
      pure ({ din with addrs := update din.addrs fbn x }, x)
    else pure (din, din.addrs fbn)
  else do
    let din ← if din.addrs NDIRECT = 0 then do
        let x ← takeBlock
        pure { din with addrs := update din.addrs NDIRECT x }
      else pure din
    let indirect ← rsect (din.addrs NDIRECT)
    if word indirect (fbn - NDIRECT) = 0 then do
      let x ← takeBlock
      wsect (din.addrs NDIRECT) (indirect.setLE (4 * (fbn - NDIRECT)) 4 x)
      pure (din, x)
    else pure (din, word indirect (fbn - NDIRECT))

/-- The loop of `iappend`, for as many rounds as there are bytes. -/
def iappendLoop : ℕ → Dinode → ℕ → List UInt8 → M (Dinode × ℕ)
  | 0, din, off, _ => pure (din, off)
  | k + 1, din, off, p =>
    if p.length = 0 then pure (din, off)
    else do
      let fbn := off / BSIZE
      assert (fbn < MAXFILE)
      let (din, x) ← fileBlock din fbn
      let n1 := min p.length ((fbn + 1) * BSIZE - off)
      let buf ← rsect x
      wsect x (patch buf (off - fbn * BSIZE) (p.take n1))
      iappendLoop k din (off + n1) (p.drop n1)

def iappend (inum : ℕ) (p : List UInt8) : M Unit := do
  let din ← rinode inum
  let (din, off) ← iappendLoop p.length din din.size p
  winode inum { din with size := off }

/-! ### The bitmap -/

def firstBits : ℕ → Block
  | 0 => zeroes
  | i + 1 => setBit (firstBits i) i

def balloc (used : ℕ) : M Unit := do
  assert (used < BPB)
  wsect sb.bmapstart (firstBits used)

/-! ### `main` -/

/-- An argument: a path, and what `read` returns from the file, if it can be opened. -/
structure HostFile where
  path : List UInt8
  noNul : 0 ∉ path
  content : Option (List (List UInt8))
  pieces : ∀ l, content = some l → ∀ x ∈ l, 0 < x.length ∧ x.length ≤ BSIZE

def HostFile.base (f : HostFile) : List UInt8 :=
  if f.path.take 5 = [117, 115, 101, 114, 47] then f.path.drop 5 else f.path

def HostFile.shortname (f : HostFile) : List UInt8 :=
  if f.base.head? = some 95 then f.base.tail else f.base

def direntBytes (inum : ℕ) (name : List UInt8) : List UInt8 :=
  List.ofFn (Dirent.bytes ⟨inum % 2 ^ 16, name⟩)

def addFile (f : HostFile) : M Unit := do
  assert (47 ∉ f.base)
  match f.content with
  | none => throw .die
  | some pieces =>
    assert (f.shortname.length ≤ DIRSIZ)
    let inum ← ialloc T_FILE
    iappend ROOTINO (direntBytes inum f.shortname)
    pieces.forM (iappend inum)

def main (files : List HostFile) : M Unit := do
  wsect 1 sbBlock
  let rootino ← ialloc T_DIR
  assert (rootino = ROOTINO)
  iappend rootino (direntBytes rootino [46])
  iappend rootino (direntBytes rootino [46, 46])
  files.forM addFile
  let din ← rinode rootino
  winode rootino { din with size := (din.size / BSIZE + 1) * BSIZE }
  let s ← get
  balloc s.freeblock

end Xv6.MkfsModel
