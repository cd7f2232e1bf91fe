import Xv6.PipeModel

/-!
A pipe is a bounded queue: what `piperead` takes out of the ring is what `pipewrite` put in,
in order, whatever the calls and however often the counters wrap.
-/

namespace Xv6.PipeQueue

open ProcModel (Table ProcState Proc)
open Runs RingBuffer PipeModel

variable {n : ℕ} {s t : State n} {a : Act n} {p : Fin n} {m i : ℤ} {user : Option UInt8}

lemma PIPESIZE_lt : PIPESIZE < 2 ^ 32 := by decide

lemma PIPESIZE_dvd : PIPESIZE ∣ 2 ^ 32 := by decide

/-- The three things that can happen to the ring. -/
inductive Moved (s t : State n) : Prop
  | none (ring : t.pi.ring = s.pi.ring) (put : t.put = s.put) (taken : t.taken = s.taken)
  | pushed (ch : UInt8) (room : ¬ full s.pi.ring) (ring : t.pi.ring = push s.pi.ring ch)
    (put : t.put = s.put ++ [ch]) (taken : t.taken = s.taken)
  | popped (some : s.pi.ring.nread ≠ s.pi.ring.nwrite) (ring : t.pi.ring = pop s.pi.ring)
    (put : t.put = s.put) (taken : t.taken = s.taken ++ [front s.pi.ring])

lemma pipewrite_moved : Moved s (pipewrite s p m i user) := by
  unfold pipewrite
  split_ifs with h1 h2 h3
  · exact .none rfl rfl rfl
  · exact .none rfl rfl rfl
  · cases user with
    | none => exact .none rfl rfl rfl
    | some ch => exact .pushed ch h3 rfl rfl rfl
  · exact .none rfl rfl rfl

lemma pipereadWait_moved : Moved s (pipereadWait s p m) := by
  unfold pipereadWait
  split_ifs <;> exact .none rfl rfl rfl

lemma pipereadCopy_moved : Moved s (pipereadCopy s p m i user) := by
  unfold pipereadCopy
  dsimp only
  split_ifs with h
  · cases user <;> exact .popped h.2 rfl rfl rfl
  · exact .none rfl rfl rfl

lemma pipeclose_moved {writable : Bool} : Moved s (pipeclose s p writable) := by
  unfold pipeclose
  split_ifs <;> exact .none rfl rfl rfl

lemma step_moved (h : step s a = some t) : Moved s t := by
  cases a with
  | write p m =>
    simp only [step, Option.ite_none_right_eq_some, Option.some.injEq] at h
    obtain ⟨-, rfl⟩ := h
    exact .none rfl rfl rfl
  | read p m =>
    simp only [step, Option.ite_none_right_eq_some, Option.some.injEq] at h
    obtain ⟨-, rfl⟩ := h
    exact .none rfl rfl rfl
  | close p writable =>
    simp only [step, Option.ite_none_right_eq_some, Option.some.injEq] at h
    obtain ⟨-, rfl⟩ := h
    exact pipeclose_moved
  | turn p user =>
    simp only [step, Option.ite_none_right_eq_some] at h
    obtain ⟨-, h⟩ := h
    split at h
    · cases h
      exact pipewrite_moved
    · cases h
      exact pipereadWait_moved
    · cases h
      exact pipereadCopy_moved
    · cases h
  | resume p =>
    simp only [step, Option.ite_none_right_eq_some] at h
    obtain ⟨-, h⟩ := h
    split at h
    · cases h
      exact .none rfl rfl rfl
    · cases h
      exact .none rfl rfl rfl
    · cases h
  | kill pid =>
    cases h
    exact .none rfl rfl rfl

/-- What has been put in is what has been taken out and what is in the ring. -/
structure Queue (s : State n) : Prop where
  bound : used s.pi.ring ≤ PIPESIZE
  order : s.put = s.taken ++ contents s.pi.ring

lemma start_queue (h : Start s) : Queue s := by
  have h0 : used s.pi.ring = 0 := used_eq_zero.mpr (by rw [h.nread, h.nwrite])
  refine ⟨by rw [h0]; exact Nat.zero_le _, ?_⟩
  rw [h.put, h.taken, contents, h0]
  rfl

lemma Queue.moved (h : Queue s) (hm : Moved s t) : Queue t := by
  cases hm with
  | none ring put taken => exact ⟨by rw [ring]; exact h.bound, by rw [ring, put, taken, h.order]⟩
  | pushed ch room ring put taken =>
    have hlt : used s.pi.ring < PIPESIZE := by
      refine lt_of_le_of_ne h.bound fun e => room ?_
      exact (used_eq_cap PIPESIZE_lt).mp e
    refine ⟨?_, ?_⟩
    · rw [ring, used_push PIPESIZE_lt hlt]
      exact hlt
    · rw [ring, contents_push PIPESIZE_dvd PIPESIZE_lt hlt, put, taken, h.order, List.append_assoc]
  | popped some ring put taken =>
    have h0 : used s.pi.ring ≠ 0 := used_eq_zero.not.mpr some
    refine ⟨?_, ?_⟩
    · rw [ring]
      exact used_pop_le h0 h.bound
    · rw [ring, put, taken, h.order, contents_pop PIPESIZE_dvd h0, List.append_assoc]
      rfl

/-- **A pipe is a bounded queue.** In every state that any calls lead to, the bytes taken out are
a prefix of the bytes put in, the rest of them are in the ring in their order, and the
difference of the counters is at most `PIPESIZE`. -/
theorem pipe_fifo (h : Reach step Always Start s) :
    s.taken <+: s.put ∧ s.put = s.taken ++ contents s.pi.ring ∧
      (s.pi.ring.nwrite - s.pi.ring.nread).toNat ≤ PIPESIZE := by
  have hq : Queue s :=
    h.invariant (fun _ => start_queue) fun _ _ _ hs _ ht => hs.moved (step_moved ht)
  refine ⟨?_, hq.order, hq.bound⟩
  rw [hq.order]
  exact List.prefix_append _ _

/-- A pipe just made, and five processes that can use it. -/
def newPipe : State 5 where
  pi := ⟨⟨fun _ => 0, 0, 0⟩, true, true⟩
  lock := none
  tbl := ⟨fun i => ⟨.RUNNING, none, 0, 0, i.val + 1, none⟩, 6, 0⟩
  pc := fun _ => .idle
  put := []
  taken := []

lemma newPipe_start : Start newPipe :=
  ⟨rfl, rfl, rfl, rfl, rfl, fun _ => rfl, fun _ _ h => (by cases h), rfl, rfl⟩

def writer : Fin 5 := 0
def reader : Fin 5 := 1

def oneByteRead : List (Act 5) :=
  [.write writer 2, .turn writer (some 7), .turn writer (some 8), .turn writer none, .read reader 1,
    .turn reader none, .turn reader (some 0), .turn reader none]

theorem pipe_fifo_oneByteRead : ∃ s, run step newPipe oneByteRead = some s ∧ s.put = [7, 8] ∧
    s.taken = [7] ∧ s.taken <+: s.put := by
  have hrun : run step newPipe oneByteRead = some _ := rfl
  exact ⟨_, hrun, rfl, rfl, (pipe_fifo (Reach.of_run (.init newPipe_start) hrun)).1⟩

end Xv6.PipeQueue
