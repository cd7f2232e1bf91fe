import Mathlib.Logic.Function.Basic
import Xv6.Params
import Xv6.Runs

/-!
The redo log of `kernel/log.c` over the buffer cache and the disk, as a machine that many
processes, the committing process, recovery and power failures step in any order.

Sections of code under one lock are one action. An action writes at most one disk block,
so that the machine can stop between any two disk writes. A process that would sleep
(in `begin_op`, or for a buffer's lock) has no step until it would go through.

The history of `log_write`s at the end of the state is there for specifications only: no
step reads it.
-/

namespace Xv6.LogModel

open Function Bytes Params

/-! ### The header block -/

def hdrN (b : Block) : ℕ := b.getLE 0 4

def hdrBlock (b : Block) (i : ℕ) : ℕ := b.getLE (4 + 4 * i) 4

/-- What `read_head` copies out of the header block: `lh.block[0..n-1]`. -/
def readHead (b : Block) : List ℕ := (List.range (hdrN b)).map (hdrBlock b)

/-- The loop of `write_head` that stores the block numbers, from entry `i` on. -/
def setBlocks : Block → ℕ → List ℕ → Block
  | b, _, [] => b
  | b, i, x :: xs => setBlocks (b.setLE (4 + 4 * i) 4 x) (i + 1) xs

/-- The header block that `write_head` sends to disk, made from the old one. -/
def writeHead (b : Block) (lh : List ℕ) : Block := setBlocks (b.setLE 0 4 lh.length) 0 lh

/-! ### The machine -/

inductive Panic
  | tooBig
  | outsideTrans
  | committing
  deriving DecidableEq

/-- What the thread that owns the log is doing: nothing, one of the stages of `commit`,
or one of the stages of `recover_from_log`. -/
inductive Pc
  | ready
  | writeLog (tail : ℕ)
  | commitHead
  | installTrans (tail : ℕ)
  | clearHead
  | endCommit
  | readHead
  | recInstall (tail : ℕ)
  | recClear
  | panicked (why : Panic)
  deriving DecidableEq

/-- One `log_write`: the operation that made it, the block, and its data at that moment. -/
structure Rec where
  op : ℕ
  blk : ℕ
  data : Block

structure St where
  disk : Disk
  /-- The data of the valid buffers. -/
  cache : ℕ → Option Block
  /-- The process that holds the sleep-lock of a block's buffer. -/
  lock : ℕ → Option ℕ
  /-- The references taken by `bpin`. -/
  pins : ℕ → ℕ
  /-- `log.lh.block[0..n-1]`. -/
  lh : List ℕ
  outstanding : ℕ
  committing : Bool
  pc : Pc
  /-- The processes inside `begin_op..end_op`, each with its operation's number. -/
  ops : List (ℕ × ℕ)
  /-- The blocks a process has modified and not passed to `log_write` yet. -/
  unlogged : ℕ → List ℕ
  /-- The number of the next operation. -/
  nextOp : ℕ
  /-- Every `log_write` so far, oldest first. -/
  hist : List Rec
  /-- The operations begun since the last commit. -/
  group : List ℕ
  /-- The operations of the groups whose commit header reached the disk. -/
  committed : List ℕ

/-- The machine when the power comes on: all memory is zero, and recovery is next. -/
def boot (d : Disk) : St where
  disk := d
  cache := fun _ => none
  lock := fun _ => none
  pins := fun _ => 0
  lh := []
  outstanding := 0
  committing := false
  pc := .readHead
  ops := []
  unlogged := fun _ => []
  nextOp := 0
  hist := []
  group := []
  committed := []

/-- A power failure: only the disk and the history survive. -/
def crash (s : St) : St :=
  { boot s.disk with nextOp := s.nextOp, hist := s.hist, committed := s.committed }

namespace St

def view (s : St) (b : ℕ) : Block := (s.cache b).getD (s.disk b)

def opOf (s : St) (p : ℕ) : Option ℕ := s.ops.lookup p

def load (s : St) (b : ℕ) : St := { s with cache := update s.cache b (some (s.view b)) }

def bwrite (s : St) (b : ℕ) (v : Block) : St :=
  { s with cache := update s.cache b (some v), disk := update s.disk b v }

end St

section

-- `log.start`, the block number of the log's header
variable (start : ℕ)

def Home (b : ℕ) : Prop := b < 2 ^ 32 ∧ (b < start ∨ start + LOGBLOCKS < b)

instance (b : ℕ) : Decidable (Home start b) := inferInstanceAs (Decidable (_ ∧ _))

def callersRun : Pc → Bool
  | .readHead | .recInstall _ | .recClear | .panicked _ => false
  | _ => true

def beginOp (s : St) (p : ℕ) : Option St :=
  if s.opOf p ≠ none ∨ s.committing then none
  else if s.lh.length + (s.outstanding + 1) * MAXOPBLOCKS > LOGBLOCKS then none
  else some { s with
    outstanding := s.outstanding + 1
    ops := (p, s.nextOp) :: s.ops
    nextOp := s.nextOp + 1
    group := s.nextOp :: s.group }

def bread (s : St) (p b : ℕ) : Option St :=
  if s.lock b = none then some { s.load b with lock := update s.lock b (some p) }
  else none

/-- A caller inside an operation changes the data of a buffer it holds. -/
def modify (s : St) (p b : ℕ) (v : Block) : Option St :=
  if s.lock b = some p ∧ s.opOf p ≠ none ∧ Home start b then
    some { s with
      cache := update s.cache b (some v)
      unlogged := update s.unlogged p (b :: s.unlogged p) }
  else none

def logWrite (s : St) (p b : ℕ) : Option St :=
  match s.opOf p with
  | none => none
  | some k =>
    if s.lock b ≠ some p ∨ ¬ Home start b then none
    else if LOGBLOCKS ≤ s.lh.length then some { s with pc := .panicked .tooBig }
    else if s.outstanding < 1 then some { s with pc := .panicked .outsideTrans }
    else
      let s := { s with
        unlogged := update s.unlogged p ((s.unlogged p).filter (· ≠ b))
        hist := s.hist ++ [⟨k, b, s.view b⟩] }
      -- absorption: a block that is in the log already stays where it is
      if b ∈ s.lh then some s
      else some { s with
        pins := update s.pins b (s.pins b + 1)
        lh := s.lh ++ [b] }

/-- `brelse`. A buffer is not given up with changes that were not logged. -/
def brelse (s : St) (p b : ℕ) : Option St :=
  if s.lock b = some p ∧ b ∉ s.unlogged p then
    some { s with lock := update s.lock b none }
  else none

/-- The first critical section of `end_op`. The last operation starts `commit`. -/
def endOp (s : St) (p : ℕ) : Option St :=
  if s.opOf p = none ∨ s.unlogged p ≠ [] then none
  else
    let s := { s with outstanding := s.outstanding - 1, ops := s.ops.filter (·.1 ≠ p) }
    if s.committing then some { s with pc := .panicked .committing }
    else if s.outstanding = 0 then
      some { s with
        committing := true
        pc := if 0 < s.lh.length then .writeLog 0 else .endCommit }
    else some s

/-- `bget` recycles the buffer of a block that nobody holds or has pinned. -/
def evict (s : St) (b : ℕ) : Option St :=
  if s.lock b = none ∧ s.pins b = 0 then
    some { s with cache := update s.cache b none }
  else none

def St.putHead (s : St) : St := s.bwrite start (writeHead (s.view start) s.lh)

/-- One iteration of `install_trans`, without the `bunpin`. -/
def St.install (s : St) (tail dst : ℕ) : St :=
  (s.load (start + tail + 1)).bwrite dst (s.view (start + tail + 1))

/-- The next step of `commit` and of the rest of `end_op`. -/
def commitStep (s : St) : Option St :=
  match s.pc with
  | .writeLog tail =>
    match s.lh[tail]? with
    | none => some { s with pc := .commitHead }
    | some b =>
      if s.lock b = none ∧ s.lock (start + tail + 1) = none then
        some { (s.load b).bwrite (start + tail + 1) (s.view b) with pc := .writeLog (tail + 1) }
      else none
  | .commitHead =>
    if s.lock start = none then
      -- the true point at which the transaction commits
      some { s.putHead start with
        pc := .installTrans 0
        committed := s.committed ++ s.group
        group := [] }
    else none
  | .installTrans tail =>
    match s.lh[tail]? with
    | none => some { s with lh := [], pc := .clearHead }
    | some b =>
      if s.lock b = none ∧ s.lock (start + tail + 1) = none then
        some { s.install start tail b with
          pins := update s.pins b (s.pins b - 1)
          pc := .installTrans (tail + 1) }
      else none
  | .clearHead =>
    if s.lock start = none then some { s.putHead start with pc := .endCommit } else none
  | .endCommit => some { s with committing := false, pc := .ready }
  | _ => none

def recoverStep (s : St) : Option St :=
  match s.pc with
  | .readHead =>
    some { s.load start with lh := readHead (s.view start), pc := .recInstall 0 }
  | .recInstall tail =>
    match s.lh[tail]? with
    | none => some { s with lh := [], pc := .recClear }
    | some b => some { s.install start tail b with pc := .recInstall (tail + 1) }
  | .recClear => some { s.putHead start with pc := .ready }
  | _ => none

inductive Act
  | beginOp (p : ℕ)
  | bread (p b : ℕ)
  | modify (p b : ℕ) (v : Block)
  | logWrite (p b : ℕ)
  | brelse (p b : ℕ)
  | endOp (p : ℕ)
  | evict (b : ℕ)
  | commit
  | recover
  | crash

def step (s : St) (a : Act) : Option St :=
  match a with
  | .commit => commitStep start s
  | .recover => recoverStep start s
  | .crash => some (crash s)
  | .beginOp p => if callersRun s.pc then beginOp s p else none
  | .bread p b => if callersRun s.pc then bread s p b else none
  | .modify p b v => if callersRun s.pc then modify start s p b v else none
  | .logWrite p b => if callersRun s.pc then logWrite start s p b else none
  | .brelse p b => if callersRun s.pc then brelse s p b else none
  | .endOp p => if callersRun s.pc then endOp s p else none
  | .evict b => if callersRun s.pc then evict s b else none

end

end Xv6.LogModel
