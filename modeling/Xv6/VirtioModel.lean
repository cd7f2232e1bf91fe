import Xv6.Params
import Xv6.ProcModel
import Xv6.RingBuffer
import Xv6.Runs

/-!
The disk driver `kernel/virtio_disk.c` and the device behind it.

`disk.vdisk_lock` is held by `virtio_disk_rw` and by the interrupt handler except while a process
sleeps, so each stretch between two sleeps is one step; a sleeper may be woken at any time, and
looks again. The rounds of the handler's loop are steps of their own. The device takes chains from
the avail ring in order, and completes those it has taken in any order, each once and with status 0.

A buffer is given to one call at a time: callers hold its sleep-lock. The state also numbers the
requests, and records those the device has completed.
-/

namespace Xv6.VirtioModel

open Function Params Runs RingBuffer
open ProcModel (scan)

def NUM : ℕ := 8

instance : NeZero NUM := ⟨by decide⟩

abbrev Idx := Fin NUM

variable {n : ℕ} {B : Type} [DecidableEq B]

/-- What a descriptor can point to: a command header, the data of a buffer, or a status byte. -/
inductive Addr (B : Type)
  | null
  | op (i : Idx)
  | data (b : B)
  | status (i : Idx)

structure Desc (B : Type) where
  addr : Addr B
  len : ℕ
  /-- `VRING_DESC_F_WRITE` and `VRING_DESC_F_NEXT`. -/
  write : Bool
  more : Bool
  next : ℕ

structure Info (B : Type) where
  b : Option B
  status : ℕ

/-- `struct virtio_blk_req`; `write` is `VIRTIO_BLK_T_OUT`. -/
structure Req where
  write : Bool
  sector : ℕ

structure Done (B : Type) where
  serial : ℕ
  b : B
  req : Req

/-- A call of `virtio_disk_rw` with its descriptors. -/
structure Chain (B : Type) where
  i0 : Idx
  i1 : Idx
  i2 : Idx
  b : B
  write : Bool
  serial : ℕ

def Chain.idx (c : Chain B) : List Idx := [c.i0, c.i1, c.i2]

inductive Pc (B : Type)
  | idle
  /-- Asleep for want of descriptors. -/
  | allocating (b : B) (write : Bool)
  /-- Asleep until the request has finished. -/
  | waiting (c : Chain B)

def Pc.buf : Pc B → Option B
  | .idle => none
  | .allocating b _ => some b
  | .waiting c => some c.b

structure State (n : ℕ) (B : Type) where
  free : Idx → Bool
  desc : Idx → Desc B
  info : Idx → Info B
  ops : Idx → Req
  /-- `disk.avail`; its read index is the device's. -/
  avail : Ring Idx 16 NUM
  /-- `disk.used`, with `disk.used_idx` as its read index. -/
  used : Ring Idx 16 NUM
  /-- `b->disk`. -/
  disk : B → Bool
  pc : Fin n → Pc B
  /-- The chains that the device is working on. -/
  taken : List Idx
  /-- The number of the next request, and those of the chains by their heads. -/
  serial : ℕ
  tag : Idx → ℕ
  completed : List (Done B)
  panicked : Bool

def State.panic (s : State n B) : State n B := { s with panicked := true }

def State.setPc (s : State n B) (p : Fin n) (x : Pc B) : State n B :=
  { s with pc := update s.pc p x }

def Desc.zero : Desc B := ⟨.null, 0, false, false, 0⟩

/-! ### Descriptors -/

def allocDesc (s : State n B) : Option (Idx × State n B) :=
  (scan s.free).map fun i => (i, { s with free := update s.free i false })

def freeDesc (s : State n B) (i : ℕ) : State n B :=
  if h : i < NUM then
    if s.free ⟨i, h⟩ then s.panic
    else { s with
      desc := update s.desc ⟨i, h⟩ .zero
      free := update s.free ⟨i, h⟩ true }
  else s.panic

def freeChain : ℕ → State n B → ℕ → State n B
  | 0, s, _ => s.panic
  | k + 1, s, i =>
    let d := s.desc (Fin.ofNat NUM i)
    let s := freeDesc s i
    if d.more then freeChain k s d.next else s

def alloc3Desc (s : State n B) : Option (Idx × Idx × Idx) × State n B :=
  match allocDesc s with
  | none => (none, s)
  | some (i0, s) =>
    match allocDesc s with
    | none => (none, freeDesc s i0)
    | some (i1, s) =>
      match allocDesc s with
      | none => (none, freeDesc (freeDesc s i0) i1)
      | some (i2, s) => (some (i0, i1, i2), s)

/-! ### Requests -/

/-- The request for a block. Its number is a `uint`, and so is the product that the sector is. -/
def request (blockno : B → ℕ) (c : Chain B) : Req :=
  ⟨c.write, blockno c.b * (BSIZE / 512) % 2 ^ 32⟩

/-- `virtio_disk_rw` from the point where it has its descriptors, up to its sleep. -/
def submit (blockno : B → ℕ) (s : State n B) (p : Fin n) (c : Chain B) : State n B :=
  { s with
    ops := update s.ops c.i0 (request blockno c)
    desc := update (update (update s.desc
      c.i0 ⟨.op c.i0, 16, false, true, c.i1⟩)
      c.i1 ⟨.data c.b, BSIZE, !c.write, true, c.i2⟩)
      c.i2 ⟨.status c.i0, 1, true, false, 0⟩
    info := update s.info c.i0 ⟨some c.b, 0xff⟩
    disk := update s.disk c.b true
    avail := push s.avail c.i0
    pc := update s.pc p (.waiting c)
    serial := s.serial + 1
    tag := update s.tag c.i0 c.serial }

/-- `virtio_disk_rw` from its loop over `alloc3_desc` on. -/
def virtioDiskRw (blockno : B → ℕ) (s : State n B) (p : Fin n) (b : B) (write : Bool) :
    State n B :=
  match alloc3Desc s with
  | (none, s) => s.setPc p (.allocating b write)
  | (some (i0, i1, i2), s) => submit blockno s p ⟨i0, i1, i2, b, write, s.serial⟩

def finish (s : State n B) (p : Fin n) (c : Chain B) : State n B :=
  if s.disk c.b then s
  else
    let s := { s with info := update s.info c.i0 { s.info c.i0 with b := none } }
    (freeChain NUM s c.i0).setPc p .idle

def virtioDiskIntr (s : State n B) : State n B :=
  let id := front s.used
  if (s.info id).status ≠ 0 then s.panic
  else
    match (s.info id).b with
    | none => s.panic
    | some b => { s with disk := update s.disk b false, used := pop s.used }

def complete (s : State n B) (i : Idx) : Option (State n B) :=
  let d0 := s.desc i
  let d1 := s.desc (Fin.ofNat NUM d0.next)
  let d2 := s.desc (Fin.ofNat NUM d1.next)
  match d0.addr, d1.addr, d2.addr with
  | .op j, .data b, .status k => some { s with
      info := update s.info k { s.info k with status := 0 }
      taken := s.taken.erase i
      used := push s.used i
      completed := s.completed ++ [⟨s.tag i, b, s.ops j⟩] }
  | _, _, _ => none

inductive Act (n : ℕ) (B : Type)
  | rw (p : Fin n) (b : B) (write : Bool)
  | retry (p : Fin n)
  | resume (p : Fin n)
  | intr
  | take
  | complete (i : Idx)

def step (blockno : B → ℕ) (s : State n B) : Act n B → Option (State n B)
  | .rw p b write =>
    match s.pc p with
    | .idle =>
      if ∀ q, (s.pc q).buf ≠ some b then some (virtioDiskRw blockno s p b write) else none
    | _ => none
  | .retry p =>
    match s.pc p with
    | .allocating b write => some (virtioDiskRw blockno s p b write)
    | _ => none
  | .resume p =>
    match s.pc p with
    | .waiting c => some (finish s p c)
    | _ => none
  | .intr => if s.used.nread ≠ s.used.nwrite then some (virtioDiskIntr s) else none
  | .take =>
    if s.avail.nread ≠ s.avail.nwrite then
      some { s with taken := s.taken ++ [front s.avail], avail := pop s.avail }
    else none
  | .complete i => if i ∈ s.taken then complete s i else none

def start : State n B where
  free := fun _ => true
  desc := fun _ => .zero
  info := fun _ => ⟨none, 0⟩
  ops := fun _ => ⟨false, 0⟩
  avail := ⟨fun _ => 0, 0, 0⟩
  used := ⟨fun _ => 0, 0, 0⟩
  disk := fun _ => false
  pc := fun _ => .idle
  taken := []
  serial := 0
  tag := fun _ => 0
  completed := []
  panicked := false

end Xv6.VirtioModel
