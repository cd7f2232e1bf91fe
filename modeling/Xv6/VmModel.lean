import Mathlib.Algebra.Ring.Nat
import Mathlib.Logic.Function.Basic
import Xv6.Bytes
import Xv6.Hoare
import Xv6.PageTree

/-!
Physical pages and user page tables: `kernel/kalloc.c` and the user part of `kernel/vm.c`.

Memory is a page of bytes for each page number. A physical address that the code passes
around is always that of a page, and stands here as the number of the page; a `0` returned
for "no page" is `none`. Virtual addresses and sizes are `uint64` values.

The free list is the list of its pages. `kalloc` takes an oracle along that can make any of
its calls fail, as if other processes had taken the rest of the memory.

A function whose result is `0` or `-1` returns whether it is `0`.
-/

namespace Xv6.VmModel

open Bytes Hoare

def PGSIZE : ℕ := 4096
def MAXVA : ℕ := 2 ^ 38
def TRAMPOLINE : ℕ := MAXVA - PGSIZE
def TRAPFRAME : ℕ := TRAMPOLINE - PGSIZE
def KERNBASE : ℕ := 0x80000000
def PHYSTOP : ℕ := KERNBASE + 128 * 1024 * 1024

def PTE_V : ℕ := 1
def PTE_R : ℕ := 2
def PTE_W : ℕ := 4
def PTE_X : ℕ := 8
def PTE_U : ℕ := 16

/-- What the build fixes: the symbols `end` and `trampoline` of the linked kernel, the
latter as a page, and `USERSTACK`. -/
class Layout where
  kend : ℕ
  trampoline : ℕ
  USERSTACK : ℕ
  trampoline_lt : trampoline * PGSIZE < kend
  kend_le : kend ≤ PHYSTOP
  kernbase_le : KERNBASE ≤ kend

export Layout (kend trampoline USERSTACK)

def PGROUNDUP (sz : ℕ) : ℕ := (sz + (PGSIZE - 1)) % 2 ^ 64 / PGSIZE * PGSIZE

def PGROUNDDOWN (a : ℕ) : ℕ := a / PGSIZE * PGSIZE

def PA2PTE (p : ℕ) : ℕ := p * 2 ^ 10

def PTE2PA (pte : ℕ) : ℕ := pte / 2 ^ 10 % 2 ^ 52

def PTE_FLAGS (pte : ℕ) : ℕ := pte % 2 ^ 10

def PX (level va : ℕ) : ℕ := va / 2 ^ (12 + 9 * level) % 512

def has (pte flag : ℕ) : Bool := pte &&& flag != 0

/-- The calls of `panic` in these functions. The last two stand for what the code does
not survive either: following a null pointer, and page tables of more than three levels. -/
inductive Panic
  | kfree
  | walk
  | mappagesVaNotAligned
  | mappagesSizeNotAligned
  | mappagesSize
  | mappagesRemap
  | uvmunmapNotAligned
  | freewalkLeaf
  | uvmclear
  | loadsegAddressShouldExist
  | filedup
  | fileclose
  | initExiting
  | exec
  | null
  | deep
  deriving DecidableEq

structure Mach where
  mem : ℕ → Buf PGSIZE
  /-- `kmem.freelist`. -/
  freelist : List ℕ
  /-- The calls of `kalloc` so far. -/
  calls : ℕ
  /-- The calls of `kalloc` that find no page. -/
  oom : ℕ → Bool

abbrev Vm := StateT Mach (Except Panic)

def Mach.store (s : Mach) (p : ℕ) (b : Buf PGSIZE) : Mach :=
  { s with mem := Function.update s.mem p b }

def memset (p : ℕ) (v : UInt8) : Vm Unit := modify fun s => s.store p (Buf.fill PGSIZE v)

def words (mem : ℕ → Buf PGSIZE) (p i : ℕ) : ℕ := (mem p).getLE (8 * i) 8

def readPte (t i : ℕ) : Vm ℕ := do
  return words (← get).mem t i

def Mach.setWord (s : Mach) (t i w : ℕ) : Mach := s.store t ((s.mem t).setLE (8 * i) 8 w)

def writePte (t i pte : ℕ) : Vm Unit := modify fun s => s.setWord t i pte

def writeBytes (p off : ℕ) (bytes : List UInt8) : Vm Unit :=
  modify fun s => s.store p fun j =>
    if off ≤ j.val ∧ j.val < off + bytes.length then bytes.getD (j.val - off) 0 else s.mem p j

def readBytes (p off n : ℕ) : Vm (List UInt8) := do
  let b := (← get).mem p
  return (List.range n).map fun i => b.get (off + i)

/-! ### `kalloc.c` -/

section Alloc

variable [Layout]

def kfree (p : ℕ) : Vm Unit := do
  if p * PGSIZE < kend ∨ PHYSTOP ≤ p * PGSIZE then throw .kfree
  memset p 1
  modify fun s => { s with freelist := p :: s.freelist }

def kalloc : Vm (Option ℕ) := do
  let s ← get
  let fails := s.oom s.calls
  set { s with calls := s.calls + 1 }
  if fails then return none
  match s.freelist with
  | [] => return none
  | r :: rest =>
    modify fun s => { s with freelist := rest }
    memset r 5
    return some r

end Alloc

/-! ### `vm.c` -/

def walkFrom (va : ℕ) (alloc : Bool) : ℕ → ℕ → Vm (Option (ℕ × ℕ))
  | 0, pagetable => return some (pagetable, PX 0 va)
  | level + 1, pagetable => do
    let pte ← readPte pagetable (PX (level + 1) va)
    if has pte PTE_V then
      walkFrom va alloc level (PTE2PA pte)
    else if !alloc then
      return none
    else
      match ← kalloc with
      | none => return none
      | some new =>
        memset new 0
        writePte pagetable (PX (level + 1) va) (PA2PTE new ||| PTE_V)
        walkFrom va alloc level new

/-- `walk`; a pointer to an entry is the page it is in and its index there. -/
def walk (pagetable va : ℕ) (alloc : Bool) : Vm (Option (ℕ × ℕ)) := do
  if MAXVA ≤ va then throw .walk
  walkFrom va alloc 2 pagetable

def walkaddr (pagetable va : ℕ) : Vm (Option ℕ) := do
  if MAXVA ≤ va then return none
  match ← walk pagetable va false with
  | none => return none
  | some (t, i) =>
    let pte ← readPte t i
    if !has pte PTE_V then return none
    if !has pte PTE_U then return none
    return some (PTE2PA pte)

def mappages (pagetable va size p perm : ℕ) : Vm Bool := do
  if va % PGSIZE ≠ 0 then throw .mappagesVaNotAligned
  if size % PGSIZE ≠ 0 then throw .mappagesSizeNotAligned
  if size = 0 then throw .mappagesSize
  let failed ← search (fun k => do
    match ← walk pagetable (va + k * PGSIZE) true with
    | none => return some ()
    | some (t, i) =>
      if has (← readPte t i) PTE_V then throw .mappagesRemap
      writePte t i (PA2PTE (p + k) ||| perm ||| PTE_V)
      return none) 0 (size / PGSIZE)
  return failed.isNone

def uvmcreate : Vm (Option ℕ) := do
  match ← kalloc with
  | none => return none
  | some pagetable =>
    memset pagetable 0
    return some pagetable

section User

variable [Layout]

/-- `uvmunmap`; the bound `va + npages*PGSIZE` of the loop is a `uint64`. -/
def uvmunmap (pagetable va npages : ℕ) (doFree : Bool) : Vm Unit := do
  if va % PGSIZE ≠ 0 then throw .uvmunmapNotAligned
  let _ ← search (fun k => do
    match ← walk pagetable (va + k * PGSIZE) false with
    | none => return (none : Option Unit)
    | some (t, i) =>
      let pte ← readPte t i
      if !has pte PTE_V then return none
      if doFree then kfree (PTE2PA pte)
      writePte t i 0
      return none) 0 (((va + npages * PGSIZE) % 2 ^ 64 - va) / PGSIZE)

/-- `uvmdealloc`; the number of pages goes through an `int`. -/
def uvmdealloc (pagetable oldsz newsz : ℕ) : Vm ℕ := do
  if oldsz ≤ newsz then return oldsz
  if PGROUNDUP newsz < PGROUNDUP oldsz then
    let npages : ℤ := Int.bmod ((PGROUNDUP oldsz - PGROUNDUP newsz) / PGSIZE : ℕ) (2 ^ 32)
    uvmunmap pagetable (PGROUNDUP newsz) (npages % 2 ^ 64).toNat true
  return newsz

def uvmalloc (pagetable oldsz newsz xperm : ℕ) : Vm ℕ := do
  if newsz < oldsz then return oldsz
  let oldsz := PGROUNDUP oldsz
  let failed ← search (fun k => do
    let a := oldsz + k * PGSIZE
    match ← kalloc with
    | none =>
      let _ ← uvmdealloc pagetable a oldsz
      return some ()
    | some mem =>
      memset mem 0
      if !(← mappages pagetable a PGSIZE mem (PTE_R ||| PTE_U ||| xperm)) then
        kfree mem
        let _ ← uvmdealloc pagetable a oldsz
        return some ()
      return none) 0 ((newsz - oldsz + (PGSIZE - 1)) / PGSIZE)
  return if failed.isNone then newsz else 0

/-- `freewalk`, with the number of levels that the recursion may go down. -/
def freewalk : ℕ → ℕ → Vm Unit
  | 0, _ => throw .deep
  | depth + 1, pagetable => do
    let _ ← search (fun i => do
      let pte ← readPte pagetable i
      if has pte PTE_V ∧ !has pte (PTE_R ||| PTE_W ||| PTE_X) then
        freewalk depth (PTE2PA pte)
        writePte pagetable i 0
        return (none : Option Unit)
      else if has pte PTE_V then
        throw .freewalkLeaf
      else
        return none) 0 512
    kfree pagetable

def uvmfree (pagetable sz : ℕ) : Vm Unit := do
  if 0 < sz then uvmunmap pagetable 0 (PGROUNDUP sz / PGSIZE) true
  freewalk 3 pagetable

def uvmcopy (old new sz : ℕ) : Vm Bool := do
  let failed ← search (fun i => do
    match ← walk old (i * PGSIZE) false with
    | none => return none
    | some (t, j) =>
      let pte ← readPte t j
      if !has pte PTE_V then return none
      match ← kalloc with
      | none =>
        uvmunmap new 0 i true
        return some ()
      | some mem =>
        modify fun s => s.store mem (s.mem (PTE2PA pte))
        if !(← mappages new (i * PGSIZE) PGSIZE mem (PTE_FLAGS pte)) then
          kfree mem
          uvmunmap new 0 i true
          return some ()
        return none) 0 ((sz + (PGSIZE - 1)) / PGSIZE)
  return failed.isNone

def uvmclear (pagetable va : ℕ) : Vm Unit := do
  match ← walk pagetable va false with
  | none => throw .uvmclear
  | some (t, i) =>
    let pte ← readPte t i
    writePte t i (pte &&& (2 ^ 64 - 1 - PTE_U))

def ismapped (pagetable va : ℕ) : Vm Bool := do
  match ← walk pagetable va false with
  | none => return false
  | some (t, i) => return has (← readPte t i) PTE_V

/-- The fields of `myproc()` that `vmfault` reads. -/
structure Myproc where
  sz : ℕ
  pagetable : ℕ

def vmfault (p : Myproc) (pagetable va : ℕ) : Vm (Option ℕ) := do
  if p.sz ≤ va then return none
  let va := PGROUNDDOWN va
  if ← ismapped pagetable va then return none
  match ← kalloc with
  | none => return none
  | some mem =>
    memset mem 0
    if !(← mappages p.pagetable va PGSIZE mem (PTE_W ||| PTE_U ||| PTE_R)) then
      kfree mem
      return none
    return some mem

/-- The page behind a user address for `copyin` and `copyout`, faulted in if need be. -/
def userPage (p : Myproc) (pagetable va : ℕ) : Vm (Option ℕ) := do
  match ← walkaddr pagetable va with
  | some pa => return some pa
  | none => vmfault p pagetable va

/-- The loop of `copyout`. Every round copies at least one byte, so `src.length` rounds are
enough. -/
def copyoutLoop (p : Myproc) (pagetable : ℕ) : ℕ → ℕ → List UInt8 → Vm Bool
  | 0, _, _ => return true
  | fuel + 1, dstva, src => do
    if src.length = 0 then return true
    let va := PGROUNDDOWN dstva
    if MAXVA ≤ va then return false
    match ← userPage p pagetable va with
    | none => return false
    | some pa =>
      match ← walk pagetable va false with
      | none => throw .null
      | some (t, i) =>
        if !has (← readPte t i) PTE_W then return false
        let n := min (PGSIZE - (dstva - va)) src.length
        writeBytes pa (dstva - va) (src.take n)
        copyoutLoop p pagetable fuel (va + PGSIZE) (src.drop n)

def copyout (p : Myproc) (pagetable dstva : ℕ) (src : List UInt8) : Vm Bool :=
  copyoutLoop p pagetable src.length dstva src

def copyinLoop (p : Myproc) (pagetable : ℕ) : ℕ → ℕ → ℕ → List UInt8 → Vm (Option (List UInt8))
  | 0, _, _, dst => return some dst
  | fuel + 1, srcva, len, dst => do
    if len = 0 then return some dst
    let va := PGROUNDDOWN srcva
    match ← userPage p pagetable va with
    | none => return none
    | some pa =>
      let n := min (PGSIZE - (srcva - va)) len
      let bytes ← readBytes pa (srcva - va) n
      copyinLoop p pagetable fuel (va + PGSIZE) (len - n) (dst ++ bytes)

def copyin (p : Myproc) (pagetable srcva len : ℕ) : Vm (Option (List UInt8)) :=
  copyinLoop p pagetable len srcva len []

end User

/-- The loop of `copyinstr`: the string copied so far, up to the NUL when it is found. -/
def copyinstrLoop (pagetable : ℕ) : ℕ → ℕ → ℕ → List UInt8 → Vm (Option (List UInt8))
  | 0, _, _, _ => return none
  | fuel + 1, srcva, max, dst => do
    if max = 0 then return none
    let va := PGROUNDDOWN srcva
    match ← walkaddr pagetable va with
    | none => return none
    | some pa =>
      let n := min (PGSIZE - (srcva - va)) max
      let bytes ← readBytes pa (srcva - va) n
      if (0 : UInt8) ∈ bytes then
        return some (dst ++ bytes.takeWhile (· ≠ 0))
      else
        copyinstrLoop pagetable fuel (va + PGSIZE) (max - n) (dst ++ bytes)

def copyinstr (pagetable srcva max : ℕ) : Vm (Option (List UInt8)) :=
  copyinstrLoop pagetable max srcva max []

end Xv6.VmModel
