import Xv6.LogSteps

/-!
The log makes groups of operations atomic: whenever the machine stops, running
`recover_from_log` to its end leaves the home blocks with the `log_write`s of all the
operations of the committed groups, and of no other operation.
-/

namespace Xv6.LogCrash

open Bytes Params Runs LogModel LogInv LogSteps Redo

variable {start : ℕ} {s : St}

lemma boot_inv {d : Disk} (h : readHead (d start) = []) : Inv start d (boot d) := by
  refine ⟨⟨by simp [boot], by simp [boot], by simp [boot], by simp [boot], by simp [boot], rfl,
    by simp [boot], by simp [boot], by simp [boot], by simp [boot], by simp [boot],
    by simp [boot], by simp [boot]⟩, by simp [boot, h], ?_, rfl, by simp [Quiet, boot]⟩
  show Represents _ _ d (readHead (d start)) _
  rw [h, represents_nil]
  intro b _
  rfl

theorem reach_inv {d : Disk} (h : readHead (d start) = [])
    (hs : Reach (step start) Always (· = boot d) s) : Inv start d s :=
  hs.invariant (fun _ h0 => h0 ▸ boot_inv h) fun _ _ _ hi _ ht => step_inv hi ht

/-- The loop of `install_trans` in recovery, from entry `tail` on, and what follows it:
`k` blocks are left to install. -/
lemma recInstall_runs (start k : ℕ) : ∀ (s : St) (tail : ℕ), s.pc = .recInstall tail →
    s.lh.length - tail = k → ∃ t, run (step start) s (List.replicate (k + 2) .recover) = some t ∧
      t.pc = .ready ∧ t.hist = s.hist ∧ t.committed = s.committed := by
  induction k with
  | zero =>
    intro s tail hpc hk
    have hn : s.lh[tail]? = none := List.getElem?_eq_none_iff.mpr (by omega)
    have h1 : step start s .recover = some { s with lh := [], pc := .recClear } := by
      simp [step, recoverStep, hpc, hn]
    refine ⟨{ St.putHead start { s with lh := [], pc := .recClear } with pc := .ready }, ?_,
      rfl, rfl, rfl⟩
    show (step start s .recover).bind _ = _
    rw [h1]
    rfl
  | succ k ih =>
    intro s tail hpc hk
    obtain ⟨b, hb⟩ : ∃ b, s.lh[tail]? = some b :=
      ⟨_, List.getElem?_eq_getElem (by omega)⟩
    have h1 : step start s .recover
        = some { s.install start tail b with pc := .recInstall (tail + 1) } := by
      simp [step, recoverStep, hpc, hb]
    obtain ⟨t, ht, hpc', hh, hc⟩ := ih { s.install start tail b with pc := .recInstall (tail + 1) }
      (tail + 1) rfl (by show s.lh.length - (tail + 1) = k; omega)
    refine ⟨t, ?_, hpc', hh, hc⟩
    rw [List.replicate_succ, run_cons, h1]
    exact ht

/-- The machine after a power failure in `s`, with `recover_from_log` run to its end. -/
def recovered (start : ℕ) (s : St) : Option St :=
  run (step start) (crash s) (List.replicate ((readHead (s.disk start)).length + 3) .recover)

lemma recovered_some (start : ℕ) (s : St) : ∃ t, recovered start s = some t ∧ t.pc = .ready ∧
    t.hist = s.hist ∧ t.committed = s.committed := by
  have h1 : step start (crash s) .recover = some { (crash s).load start with
      lh := readHead (s.disk start), pc := .recInstall 0 } := rfl
  obtain ⟨t, ht, hpc, hh, hc⟩ := recInstall_runs start
    (readHead (s.disk start)).length { (crash s).load start with
      lh := readHead (s.disk start), pc := .recInstall 0 } 0 rfl rfl
  refine ⟨t, ?_, hpc, hh, hc⟩
  unfold recovered
  rw [List.replicate_succ, run_cons, h1]
  exact ht

/-- **Crash atomicity.** Start from any disk with an empty log and let any number of
processes run operations in any interleaving, with commits, recoveries and power failures
at any point. Wherever the machine stops, recovery comes to its end, and every home block
then holds the `log_write`s of exactly the operations of the groups whose commit header
reached the disk; no operation of a later group, finished or not, is among them. -/
theorem crash_atomic {d : Disk} (h : readHead (d start) = [])
    (hs : Reach (step start) Always (· = boot d) s) :
    (∃ t, recovered start s = some t ∧ t.pc = .ready ∧
      ∀ b, Home start b → t.disk b = contents d s.hist s.committed b) ∧
    (∀ k ∈ s.group, k ∉ s.committed) ∧ ∀ q ∈ s.ops, q.2 ∈ s.group := by
  have hi := reach_inv h hs
  refine ⟨?_, hi.books.groupNew, hi.books.opsGroup⟩
  obtain ⟨t, ht, hpc, hh, hc⟩ := recovered_some start s
  refine ⟨t, ht, hpc, ?_⟩
  -- the recovered machine is a state of the same run
  have hcrash : Reach (step start) Always (· = boot d) (crash s) :=
    .step (a := .crash) hs trivial rfl
  have hit := reach_inv h (hcrash.of_run ht)
  obtain ⟨he, -⟩ : Stage start d t .ready := by rw [← hpc]; exact hit.stage
  intro b hb
  have hset := settled_of_empty hit he b hb
  rw [hset]
  unfold stable
  rw [hh, hc]

def blank : Disk := fun _ => Buf.fill BSIZE 0

/-- One operation that logs one block, committed, with the power lost right after the
commit header: nothing is installed yet. -/
def oneCommit : List Act :=
  [.recover, .recover, .recover, .beginOp 7, .bread 7 50, .modify 7 50 (Buf.fill BSIZE 1),
    .logWrite 7 50, .brelse 7 50, .endOp 7, .commit, .commit, .commit]

theorem crash_atomic_oneCommit : ∃ s, run (step 2) (boot blank) oneCommit = some s ∧
    s.disk 50 = Buf.fill BSIZE 0 ∧
    ∃ t, recovered 2 s = some t ∧ t.disk 50 = Buf.fill BSIZE 1 := by
  have hhead : readHead (blank 2) = [] := by decide
  obtain ⟨s, hs⟩ : ∃ s, run (step 2) (boot blank) oneCommit = some s :=
    Option.isSome_iff_exists.mp (by decide)
  have hmap : (run (step 2) (boot blank) oneCommit).map
      (fun s => (s.disk 50, s.hist.map (fun r => (r.op, r.blk, r.data)), s.committed))
      = some (Buf.fill BSIZE 0, [(0, 50, Buf.fill BSIZE 1)], [0]) := rfl
  rw [hs, Option.map_some, Option.some.injEq, Prod.mk.injEq, Prod.mk.injEq] at hmap
  obtain ⟨hdisk, hhist, hcom⟩ := hmap
  obtain ⟨⟨t, ht, -, hhome⟩, -⟩ := crash_atomic (d := blank) hhead
    (Reach.of_run (.init rfl) hs)
  refine ⟨s, hs, hdisk, t, ht, ?_⟩
  rw [hhome 50 (by decide), hcom]
  obtain ⟨r, hr, h1⟩ := List.map_eq_singleton_iff.mp hhist
  rw [Prod.mk.injEq, Prod.mk.injEq] at h1
  obtain ⟨h1, h2, h3⟩ := h1
  have hone : contents blank s.hist [0] = Function.update blank r.blk r.data := by
    rw [hr]
    exact contents_append_in blank [] (by simp [h1])
  rw [hone, h2, h3, Function.update_self]

/-- **Reads see every logged write, and the disk no uncommitted one.** After recovery a home block
without unlogged stores is read with the `log_write`s of all operations so far; while the header on
the disk is empty, every home block there has those of the committed operations only. -/
theorem reads_coherent {d : Disk} (h : readHead (d start) = [])
    (hs : Reach (step start) Always (· = boot d) s) (hpc : callersRun s.pc) :
    (∀ b, Home start b → (∀ p, b ∉ s.unlogged p) →
      s.view b = contents d s.hist (s.committed ++ s.group) b) ∧
    (readHead (s.disk start) = [] → ∀ b, Home start b →
      s.disk b = contents d s.hist s.committed b) := by
  have hi := reach_inv h hs
  refine ⟨?_, fun he => settled_of_empty hi he⟩
  have hst := hi.stage
  cases e : s.pc <;> rw [e] at hst hpc
  case ready | writeLog | commitHead | installTrans | clearHead | endCommit => exact hst.2.1
  all_goals cases hpc

theorem reads_coherent_logged : ∃ s, Reach (step 2) Always (· = boot blank) s ∧
    s.view 50 = Buf.fill BSIZE 1 ∧ s.disk 50 = contents blank s.hist s.committed 50 := by
  have h : (run (step 2) (boot blank) (oneCommit.take 7)).map (fun s => (s.view 50,
    callersRun s.pc, readHead (s.disk 2))) = some (Buf.fill BSIZE 1, true, []) := rfl
  obtain ⟨s, hs, h⟩ := Option.map_eq_some_iff.mp h
  simp only [Prod.mk.injEq] at h
  have hr : Reach (step 2) Always (· = boot blank) s := .of_run (.init rfl) hs
  exact ⟨s, hr, h.1, (reads_coherent rfl hr h.2.1).2 h.2.2 50 (by decide)⟩

end Xv6.LogCrash
