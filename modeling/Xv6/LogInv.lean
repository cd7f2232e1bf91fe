import Mathlib.Data.List.Induction
import Xv6.LogModel
import Xv6.Redo

/-!
What holds of the log machine in every state it can reach.

The contents that count are read off the history of `log_write`s: `stable` has those of
the committed operations, `current` also those of the operations of the open group. In
every state the disk, with its on-disk header, stands for `stable`; while the system runs,
the buffers show `current`.
-/

namespace Xv6.LogInv

open Function Bytes Params LogModel Redo

/-! ### Reading a header back -/

lemma hdrN_setBlocks (b : Block) (i : ℕ) (xs : List ℕ) : hdrN (setBlocks b i xs) = hdrN b := by
  induction xs generalizing b i with
  | nil => rfl
  | cons x xs ih =>
    rw [setBlocks, ih]
    exact Buf.getLE_setLE_disjoint b (by omega)

lemma hdrBlock_setBlocks_lt (b : Block) {i j : ℕ} (xs : List ℕ) (h : j < i) :
    hdrBlock (setBlocks b i xs) j = hdrBlock b j := by
  induction xs generalizing b i with
  | nil => rfl
  | cons x xs ih =>
    rw [setBlocks, ih _ (by omega)]
    exact Buf.getLE_setLE_disjoint b (by omega)

lemma hdrBlock_setBlocks (b : Block) {i j x : ℕ} {xs : List ℕ} (hj : xs[j]? = some x)
    (hx : x < 2 ^ 32) (hlen : i + xs.length ≤ LOGBLOCKS) :
    hdrBlock (setBlocks b i xs) (i + j) = x := by
  induction xs generalizing b i j with
  | nil => simp at hj
  | cons y ys ih =>
    simp only [List.length_cons] at hlen
    cases j with
    | zero =>
      obtain rfl : y = x := by simpa using hj
      rw [setBlocks, Nat.add_zero, hdrBlock_setBlocks_lt _ _ (by omega), hdrBlock]
      refine Buf.getLE_setLE_of_lt _ ?_ (by omega)
      unfold LOGBLOCKS MAXOPBLOCKS at hlen
      unfold BSIZE
      omega
    | succ j =>
      have := ih (b.setLE (4 + 4 * i) 4 y) (i := i + 1) (j := j) (by simpa using hj) (by omega)
      rw [setBlocks, ← this]
      congr 1
      omega

lemma hdrN_writeHead (b : Block) {lh : List ℕ} (hlen : lh.length ≤ LOGBLOCKS) :
    hdrN (writeHead b lh) = lh.length := by
  rw [writeHead, hdrN_setBlocks, hdrN]
  refine Buf.getLE_setLE_of_lt _ (by unfold BSIZE; omega) ?_
  unfold LOGBLOCKS MAXOPBLOCKS at hlen
  omega

lemma readHead_writeHead (b : Block) {lh : List ℕ} (hlen : lh.length ≤ LOGBLOCKS)
    (hlt : ∀ x ∈ lh, x < 2 ^ 32) : readHead (writeHead b lh) = lh := by
  unfold readHead
  rw [hdrN_writeHead b hlen]
  refine List.ext_getElem (by simp) fun i h1 h2 => ?_
  simp only [List.getElem_map, List.getElem_range]
  have := hdrBlock_setBlocks (b.setLE 0 4 lh.length) (i := 0) (j := i)
    (List.getElem?_eq_getElem h2) (hlt _ (List.getElem_mem h2)) (by omega)
  rwa [Nat.zero_add] at this

/-! ### Contents by history -/

/-- The contents after the `log_write`s of some operations, in the order they were made. -/
def contents (base : Disk) (hist : List Rec) (ops : List ℕ) : Disk :=
  replay base ((hist.filter (·.op ∈ ops)).map fun r => (r.blk, r.data))

lemma contents_congr (base : Disk) {hist : List Rec} {ops ops' : List ℕ}
    (h : ∀ r ∈ hist, r.op ∈ ops ↔ r.op ∈ ops') :
    contents base hist ops = contents base hist ops' := by
  unfold contents
  rw [List.filter_congr fun r hr => decide_eq_decide.mpr (h r hr)]

lemma contents_append_in (base : Disk) (hist : List Rec) {r : Rec} {ops : List ℕ}
    (h : r.op ∈ ops) :
    contents base (hist ++ [r]) ops = update (contents base hist ops) r.blk r.data := by
  unfold contents
  rw [List.filter_append, List.map_append, replay_append]
  simp [h, replay]

lemma contents_append_out (base : Disk) (hist : List Rec) {r : Rec} {ops : List ℕ}
    (h : r.op ∉ ops) : contents base (hist ++ [r]) ops = contents base hist ops := by
  unfold contents
  rw [List.filter_append]
  simp [h]

lemma contents_eq_of_notMem (base : Disk) {hist : List Rec} {ops grp : List ℕ} {b : ℕ}
    (h : ∀ r ∈ hist, r.op ∈ grp → r.blk ≠ b) :
    contents base hist (ops ++ grp) b = contents base hist ops b := by
  induction hist using List.reverseRecOn with
  | nil => rfl
  | append_singleton l r ih =>
    have ih' := ih fun x hx => h x (by simp [hx])
    by_cases h1 : r.op ∈ ops
    · rw [contents_append_in _ _ (by simp [h1]), contents_append_in _ _ h1]
      by_cases e : b = r.blk
      · subst e; rw [update_self, update_self]
      · rw [update_of_ne e, update_of_ne e, ih']
    · rw [contents_append_out _ _ h1]
      by_cases h2 : r.op ∈ grp
      · have e := h r (by simp) h2
        rw [contents_append_in _ _ (by simp [h2]), update_of_ne (Ne.symm e), ih']
      · rw [contents_append_out _ _ (by simp [h1, h2]), ih']

def stable (base : Disk) (s : St) : Disk := contents base s.hist s.committed

def current (base : Disk) (s : St) : Disk := contents base s.hist (s.committed ++ s.group)

/-! ### The invariant -/

section

variable (start : ℕ)

def slot (i : ℕ) : ℕ := start + i + 1

lemma slot_not_home {i : ℕ} (h : i < LOGBLOCKS) : ¬ Home start (slot start i) := by
  unfold Home slot
  omega

lemma start_not_home : ¬ Home start start := by
  unfold Home
  omega

/-- The disk with its own header stands for the contents `C`. -/
def Stands (d : Disk) (C : Disk) : Prop :=
  Represents (Home start) (slot start) d (readHead (d start)) C

/-- The books of the log, whatever the stage: which operations are open, which blocks are
modified but not logged, and what the in-memory header may hold. -/
structure Books (s : St) : Prop where
  histLt : ∀ r ∈ s.hist, r.op < s.nextOp
  committedLt : ∀ k ∈ s.committed, k < s.nextOp
  groupLt : ∀ k ∈ s.group, k < s.nextOp
  groupNew : ∀ k ∈ s.group, k ∉ s.committed
  opsGroup : ∀ q ∈ s.ops, q.2 ∈ s.group
  count : s.outstanding = s.ops.length
  opsNodup : (s.ops.map Prod.fst).Nodup
  unlogged : ∀ p, ∀ b ∈ s.unlogged p, s.lock b = some p ∧ s.opOf p ≠ none ∧ Home start b
  lhNodup : s.lh.Nodup
  lhHome : ∀ b ∈ s.lh, Home start b
  lhLen : s.lh.length ≤ LOGBLOCKS
  logged : ∀ r ∈ s.hist, r.op ∈ s.group → r.blk ∈ s.lh
  logCache : ∀ b, ¬ Home start b → ∀ v, s.cache b = some v → v = s.disk b

/-- The buffers show the current contents, except where a holder's changes are not logged. -/
def Shows (base : Disk) (s : St) : Prop :=
  ∀ b, Home start b → (∀ p, b ∉ s.unlogged p) → s.view b = current base s b

def Pinned (s : St) (tail : ℕ) : Prop := ∀ b ∈ s.lh.drop tail, s.pins b ≠ 0

/-- The first `tail` copies in the log are those of the current contents. -/
def Copied (base : Disk) (s : St) (tail : ℕ) : Prop :=
  ∀ i < tail, ∀ b, s.lh[i]? = some b → s.disk (slot start i) = current base s b

def Installed (base : Disk) (s : St) (tail : ℕ) : Prop :=
  ∀ b ∈ s.lh.take tail, s.disk b = stable base s b

def Settled (base : Disk) (s : St) : Prop := ∀ b, Home start b → s.disk b = stable base s b

/-- Every valid buffer agrees with the disk, and nobody uses the file system yet. -/
def Quiet (s : St) : Prop :=
  (∀ b v, s.cache b = some v → v = s.disk b) ∧ s.ops = [] ∧ s.group = [] ∧
    (∀ p, s.unlogged p = []) ∧ (∀ b, s.lock b = none) ∧ (∀ b, s.pins b = 0) ∧
    s.committing = false

def Stage (base : Disk) (s : St) : Pc → Prop
  | .ready => readHead (s.disk start) = [] ∧ Shows start base s ∧ Pinned s 0 ∧
      s.committing = false
  | .writeLog tail => readHead (s.disk start) = [] ∧ Shows start base s ∧ Pinned s 0 ∧
      s.ops = [] ∧ s.committing = true ∧ Copied start base s tail
  | .commitHead => readHead (s.disk start) = [] ∧ Shows start base s ∧ Pinned s 0 ∧
      s.ops = [] ∧ s.committing = true ∧ Copied start base s s.lh.length
  | .installTrans tail => readHead (s.disk start) = s.lh ∧ Shows start base s ∧
      Pinned s tail ∧ s.ops = [] ∧ s.committing = true ∧ s.group = [] ∧ Installed base s tail
  | .clearHead => s.lh = [] ∧ Shows start base s ∧ s.ops = [] ∧ s.committing = true ∧
      s.group = [] ∧ Settled start base s
  | .endCommit => readHead (s.disk start) = [] ∧ Shows start base s ∧ Pinned s 0 ∧
      s.ops = [] ∧ s.committing = true
  | .readHead => s.lh = [] ∧ Quiet s
  | .recInstall tail => readHead (s.disk start) = s.lh ∧ Quiet s ∧ Installed base s tail
  | .recClear => s.lh = [] ∧ Quiet s ∧ Settled start base s
  | .panicked _ => True

structure Inv (base : Disk) (s : St) : Prop where
  books : Books start s
  head : (readHead (s.disk start)).length ≤ LOGBLOCKS ∧ (readHead (s.disk start)).Nodup
  stands : Stands start s.disk (stable base s)
  stage : Stage start base s s.pc

end

end Xv6.LogInv
