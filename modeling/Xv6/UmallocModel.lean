import Xv6.FreeList
import Xv6.Runs

/-!
The user library's memory allocator (user/umalloc.c).

Memory is seen as the headers at its addresses. The operating system answers `sbrk`; it has a
state of its own, so that the code can be run against a system that places its regions anywhere
and against the kernel's. The loops get more rounds than there can be blocks; a loop that does
not end is `none`.

`live` and `regions` record the blocks handed out and the memory obtained.
-/

namespace Xv6.Umalloc

open Function FreeList

def HEADER : ℕ := 16

/-- The operating system: what `sbrk` of a number of bytes answers, and its new state. -/
structure Os (σ : Type) where
  sbrk : σ → ℤ → Option ℕ × σ

structure Heap (σ : Type) where
  /-- `&base` -/
  base : ℕ
  mem : ℕ → Cell
  /-- `freep`, zero at first -/
  freep : ℕ
  os : σ
  /-- what the last call returned -/
  ret : ℕ
  live : List Block
  /-- the regions obtained from `sbrk`: addresses and bytes -/
  regions : List (ℕ × ℕ)

variable {σ : Type}

/-- More rounds than any loop over the free list takes. -/
def Heap.rounds (h : Heap σ) : ℕ := 2 * total h.regions + 4

def uint (n : ℕ) : ℕ := n % 2 ^ 32

def int (n : ℕ) : ℤ := Int.bmod n (2 ^ 32)

/-! ### free -/

/-- The search of `free`: the block of the free list behind which `bp` belongs. -/
def freeSearch (mem : ℕ → Cell) (bp : ℕ) : ℕ → ℕ → Option ℕ
  | 0, _ => none
  | fuel + 1, p =>
    if p < bp ∧ bp < (mem p).ptr then some p
    else if (mem p).ptr ≤ p ∧ (p < bp ∨ bp < (mem p).ptr) then some p
    else freeSearch mem bp fuel (mem p).ptr

/-- `free`. Both tests for blocks that touch are one operation: first `bp` is made to point to
the block behind it, then `p` to `bp`. -/
def free (h : Heap σ) (ap : ℕ) : Option (Heap σ) := do
  let bp := ap - HEADER
  let p ← freeSearch h.mem bp h.rounds h.freep
  let mem := attach HEADER (2 ^ 32) h.mem bp (h.mem p).ptr
  let mem := attach HEADER (2 ^ 32) mem p bp
  return { h with mem := mem, freep := p }

/-! ### malloc -/

def coreUnits (nu : ℕ) : ℕ := if nu < 4096 then 4096 else nu

def morecore (os : Os σ) (h : Heap σ) (nu : ℕ) : Option (Option ℕ × Heap σ) :=
  let nu := coreUnits nu
  let n := int (nu * HEADER)
  match os.sbrk h.os n with
  | (none, os') => some (none, { h with os := os' })
  | (some hp, os') => do
    let h := { h with
      os := os', regions := (hp, n.toNat) :: h.regions
      mem := update h.mem hp { h.mem hp with size := nu } }
    let h ← free h (hp + HEADER)
    return (some h.freep, h)

def take (h : Heap σ) (prevp p nunits : ℕ) : Heap σ :=
  if (h.mem p).size = nunits then
    { h with
      mem := update h.mem prevp { h.mem prevp with ptr := (h.mem p).ptr }
      freep := prevp, ret := p + HEADER, live := (p, nunits) :: h.live }
  else
    let size := (h.mem p).size - nunits
    let mem := update h.mem p { h.mem p with size := size }
    let q := p + HEADER * size
    { h with
      mem := update mem q { mem q with size := nunits }
      freep := prevp, ret := q + HEADER, live := (q, nunits) :: h.live }

def mallocLoop (os : Os σ) (nunits : ℕ) : ℕ → ℕ → ℕ → Heap σ → Option (Heap σ)
  | 0, _, _, _ => none
  | fuel + 1, prevp, p, h =>
    if nunits ≤ (h.mem p).size then some (take h prevp p nunits)
    else if p = h.freep then do
      let (r, h) ← morecore os h nunits
      match r with
      | none => return { h with ret := 0 }
      | some p => mallocLoop os nunits fuel p (h.mem p).ptr h
    else mallocLoop os nunits fuel p (h.mem p).ptr h

/-- The number of units for a request: its bytes and the header, rounded up. -/
def unitsFor (nbytes : ℕ) : ℕ := uint ((nbytes + HEADER - 1) / HEADER + 1)

/-- `base.s.ptr = freep = prevp = &base; base.s.size = 0;` where the list is not there yet. -/
def init (h : Heap σ) : Heap σ :=
  if h.freep = 0 then
    { h with mem := update h.mem h.base ⟨h.base, 0⟩, freep := h.base }
  else h

def malloc (os : Os σ) (h : Heap σ) (nbytes : ℕ) : Option (Heap σ) :=
  let nunits := unitsFor nbytes
  let h := init h
  mallocLoop os nunits (2 * h.rounds) h.freep (h.mem h.freep).ptr h

/-! ### Histories -/

/-- What a program does with its heap: the two calls, and writing to its own blocks. -/
inductive Act
  | malloc (nbytes : ℕ)
  | free (ap : ℕ)
  | store (a : ℕ) (c : Cell)

/-- A step; `free` of a block that is not live and a write outside of the live blocks are not
steps of a program that uses the heap. -/
def step (os : Os σ) (h : Heap σ) : Act → Option (Heap σ)
  | .malloc nbytes => malloc os h nbytes
  | .free ap => do
    let y ← h.live.find? fun y => y.1 + HEADER = ap
    let h ← free h ap
    return { h with live := h.live.erase y }
  | .store a c =>
    if ∃ y ∈ h.live, y.1 + HEADER ≤ a ∧ a < stop HEADER y then
      some { h with mem := update h.mem a c }
    else none

end Xv6.Umalloc
