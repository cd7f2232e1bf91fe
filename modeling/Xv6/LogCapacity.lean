import Mathlib.Algebra.Order.BigOperators.Group.List
import Mathlib.Data.Finset.Card
import Xv6.LogCrash

/-!
The room in the log.

`begin_op` lets an operation in only if the log has room for `MAXOPBLOCKS` blocks of it and of
every other open operation. An operation that has logged some blocks already needs that much
less, and a block that is in the log already needs nothing; but `log_write` looks for the
block only after it has seen that the log is not full.
-/

namespace Xv6.LogCapacity

open Function Params LogModel LogInv LogSteps LogCrash Runs

variable {start : ℕ} {d : Disk} {s t : St} {p b k : ℕ}

def loggedBy (s : St) (k : ℕ) : Finset ℕ := ((s.hist.filter (·.op = k)).map Rec.blk).toFinset

/-- No operation logs more than `MAXOPBLOCKS` distinct blocks. -/
def Budget (s : St) : Act → Prop
  | .logWrite p b => ∀ k ∈ s.opOf p, (insert b (loggedBy s k)).card ≤ MAXOPBLOCKS
  | _ => True

/-- Nor does it log a block again when the log is full. -/
def Fits (s : St) (a : Act) : Prop :=
  Budget s a ∧ match a with
    | .logWrite _ b => b ∈ s.lh → s.lh.length < LOGBLOCKS
    | _ => True

instance (s : St) : ∀ a, Decidable (Budget s a)
  | .logWrite p b =>
    inferInstanceAs (Decidable (∀ k ∈ s.opOf p, (insert b (loggedBy s k)).card ≤ MAXOPBLOCKS))
  | .beginOp _ | .bread _ _ | .modify _ _ _ | .brelse _ _ | .endOp _ | .evict _ | .commit
  | .recover | .crash => inferInstanceAs (Decidable True)

/-- The blocks of the log that `install_trans` has not unpinned yet. -/
def uninstalled (s : St) : List ℕ :=
  match s.pc with
  | .installTrans tail => s.lh.drop tail
  | .recInstall _ => []
  | _ => s.lh

/-! ### Room -/

def reserved (s : St) : ℕ := (s.ops.map fun q => MAXOPBLOCKS - (loggedBy s q.2).card).sum

structure Room (s : St) : Prop where
  room : s.lh.length + reserved s ≤ LOGBLOCKS
  pins : ∀ b, s.pins b = if b ∈ uninstalled s then 1 else 0
  noPanic : s.pc ≠ .panicked .tooBig

lemma reserved_le (s : St) : reserved s ≤ s.ops.length * MAXOPBLOCKS := by
  unfold reserved
  induction s.ops with
  | nil => exact Nat.zero_le _
  | cons q l ih =>
    rw [List.map_cons, List.sum_cons, List.length_cons, Nat.succ_mul]
    omega

lemma reserved_nil (h : s.ops = []) : reserved s = 0 := by
  simp [reserved, h]

lemma Room.same (h : Room s) (hops : t.ops = s.ops) (hlh : t.lh = s.lh) (hpins : t.pins = s.pins)
    (hhist : t.hist = s.hist) (hpc : t.pc = s.pc) : Room t := by
  refine ⟨?_, ?_, hpc ▸ h.noPanic⟩
  · simpa only [reserved, loggedBy, hops, hlh, hhist] using h.room
  · have hun : uninstalled t = uninstalled s := by
      unfold uninstalled
      rw [hpc, hlh]
    rw [hun, hpins]
    exact h.pins

lemma Room.idle (hk : Books start t) (hops : t.ops = []) (hpins : ∀ b, t.pins b = 0)
    (hun : uninstalled t = []) (hpc : t.pc ≠ .panicked .tooBig) : Room t := by
  refine ⟨?_, fun b => ?_, hpc⟩
  · rw [reserved_nil hops]
    exact hk.lhLen
  · rw [hun, hpins]
    simp

/-! ### The steps -/

lemma beginOp_room (hi : Inv start d s) (h : Room s) (ht : beginOp s p = some t) : Room t := by
  unfold beginOp at ht
  split_ifs at ht with h1 h2
  cases ht
  refine ⟨?_, h.pins, h.noPanic⟩
  have hle := reserved_le s
  have hall : s.lh.length + (MAXOPBLOCKS - (loggedBy s s.nextOp).card + reserved s)
      ≤ LOGBLOCKS := by
    rw [hi.books.count, Nat.succ_mul] at h2
    omega
  exact hall

lemma endOp_room (hi : Inv start d s) (hpc : callersRun s.pc) (h : Room s)
    (ht : endOp s p = some t) : Room t := by
  unfold endOp at ht
  split_ifs at ht with h1
  have hready : s.pc = .ready := ready_of_op hi hpc fun e => h1 (.inl e)
  -- fewer operations reserve less
  have hsub : (s.ops.filter (·.1 ≠ p)).Sublist s.ops := List.filter_sublist
  have hroom : ∀ t' : St, t'.ops = s.ops.filter (·.1 ≠ p) → t'.lh = s.lh → t'.hist = s.hist →
      t'.pins = s.pins → uninstalled t' = s.lh → t'.pc ≠ .panicked .tooBig → Room t' := by
    intro t' e1 e2 e3 e4 e5 e6
    refine ⟨?_, fun b => ?_, e6⟩
    · refine le_trans (Nat.add_le_add_left ?_ _) (e2 ▸ h.room)
      simp only [reserved, loggedBy, e1, e3]
      exact (hsub.map _).sum_le_sum fun _ _ => Nat.zero_le _
    · rw [e4, e5, h.pins, uninstalled, hready]
  simp only at ht
  split_ifs at ht with h2 h3 h4
  · cases ht
    exact hroom _ rfl rfl rfl rfl rfl (by simp)
  · cases ht
    exact hroom _ rfl rfl rfl rfl rfl (by simp)
  · cases ht
    exact hroom _ rfl rfl rfl rfl rfl (by simp)
  · cases ht
    exact hroom _ rfl rfl rfl rfl (by simp [uninstalled, hready]) (by simp [hready])

lemma loggedBy_append (s : St) (r : Rec) (j : ℕ) :
    loggedBy { s with hist := s.hist ++ [r] } j =
      if r.op = j then insert r.blk (loggedBy s j) else loggedBy s j := by
  ext x
  simp only [loggedBy, List.filter_append, List.map_append, List.mem_toFinset, List.mem_append]
  by_cases e : r.op = j
  · rw [if_pos e, List.filter_cons_of_pos (by simpa using e)]
    simp [or_comm]
  · rw [if_neg e, List.filter_cons_of_neg (by simpa using e)]
    simp

lemma card_loggedBy_le (s : St) (r : Rec) (j : ℕ) :
    (loggedBy s j).card ≤ (loggedBy { s with hist := s.hist ++ [r] } j).card := by
  rw [loggedBy_append]
  split_ifs
  · exact Finset.card_le_card (Finset.subset_insert _ _)
  · exact le_rfl

lemma logWrite_room (hi : Inv start d s) (hpc : callersRun s.pc) (h : Room s)
    (hf : Fits s (.logWrite p b)) (ht : logWrite start s p b = some t) : Room t := by
  unfold logWrite at ht
  split at ht
  · cases ht
  · rename_i k hop
    have hin : s.opOf p ≠ none := by simp [hop]
    have hready : s.pc = .ready := ready_of_op hi hpc hin
    have hmem := opOf_mem hop
    have hbudget : (insert b (loggedBy s k)).card ≤ MAXOPBLOCKS := hf.1 k hop
    -- the operation's reservation pays for a new block
    have hpay : b ∉ s.lh → ∀ v, s.lh.length + reserved { s with hist := s.hist ++ [⟨k, b, v⟩] } + 1
        ≤ LOGBLOCKS := by
      intro hb v
      have hnot : b ∉ loggedBy s k := by
        intro hm
        obtain ⟨r, hr, rfl⟩ := List.mem_map.mp (List.mem_toFinset.mp hm)
        obtain ⟨hr, ek⟩ := List.mem_filter.mp hr
        have ek : r.op = k := by simpa using ek
        exact hb (hi.books.logged r hr (ek ▸ hi.books.opsGroup _ hmem))
      have hlt : reserved { s with hist := s.hist ++ [⟨k, b, v⟩] } < reserved s := by
        refine List.sum_lt_sum _ _ (fun q _ => ?_) ⟨(p, k), hmem, ?_⟩
        · exact Nat.sub_le_sub_left (card_loggedBy_le _ _ _) _
        · rw [loggedBy_append, if_pos rfl]
          rw [Finset.card_insert_of_notMem hnot] at hbudget
          show MAXOPBLOCKS - (insert b (loggedBy s k)).card < MAXOPBLOCKS - (loggedBy s k).card
          rw [Finset.card_insert_of_notMem hnot]
          omega
      have := h.room
      omega
    split_ifs at ht with h1 h2 h3
    · -- the log is full: the block is not in it, so the operation has a reservation left
      by_cases hb : b ∈ s.lh
      · exact absurd (hf.2 hb) (by omega)
      · have := hpay hb (s.view b)
        omega
    · cases ht
      refine ⟨h.room, fun b => ?_, by simp⟩
      rw [h.pins, uninstalled, hready]
      rfl
    · simp only at ht
      split_ifs at ht with h4
      · cases ht
        refine ⟨?_, h.pins, h.noPanic⟩
        refine le_trans (Nat.add_le_add_left ?_ _) h.room
        exact List.sum_le_sum fun q _ => Nat.sub_le_sub_left (card_loggedBy_le _ _ _) _
      · cases ht
        refine ⟨?_, fun c => ?_, h.noPanic⟩
        · rw [List.length_append, List.length_singleton, Nat.add_right_comm]
          exact hpay h4 (s.view b)
        · have hpins := h.pins c
          simp only [uninstalled, hready] at hpins ⊢
          by_cases e : c = b
          · subst e
            rw [update_self, hpins, if_neg h4, if_pos (by simp)]
          · rw [update_of_ne e, hpins]
            simp [e]

lemma Room.stage (h : Room s) (hops : t.ops = s.ops) (hlh : t.lh = s.lh) (hpins : t.pins = s.pins)
    (hhist : t.hist = s.hist) (hun : uninstalled t = uninstalled s)
    (hpc : t.pc ≠ .panicked .tooBig) : Room t := by
  refine ⟨?_, ?_, hpc⟩
  · simpa only [reserved, loggedBy, hops, hlh, hhist] using h.room
  · rw [hun, hpins]
    exact h.pins

lemma commitStep_room (hi : Inv start d s) (h : Room s) (ht : commitStep start s = some t) :
    Room t := by
  unfold commitStep at ht
  split at ht
  · rename_i tail hpc
    have hun : uninstalled s = s.lh := by rw [uninstalled, hpc]
    split at ht
    · cases ht
      exact h.stage rfl rfl rfl rfl hun.symm (by simp)
    · split_ifs at ht
      cases ht
      exact h.stage rfl rfl rfl rfl hun.symm (by simp)
  · rename_i hpc
    have hun : uninstalled s = s.lh := by rw [uninstalled, hpc]
    split_ifs at ht
    cases ht
    exact h.stage rfl rfl rfl rfl hun.symm (by simp)
  · rename_i tail hpc
    have hun : uninstalled s = s.lh.drop tail := by rw [uninstalled, hpc]
    split at ht
    · -- all blocks are installed
      rename_i hnone
      cases ht
      have hnil : s.lh.drop tail = [] := List.drop_eq_nil_of_le (List.getElem?_eq_none_iff.mp hnone)
      refine ⟨?_, fun c => ?_, by simp⟩
      · exact le_trans (Nat.add_le_add_right (Nat.zero_le _) _) h.room
      · rw [h.pins, hun, hnil]
        rfl
    · rename_i b hb
      split_ifs at ht
      cases ht
      refine ⟨h.room, fun c => ?_, by simp⟩
      obtain ⟨hlt, rfl⟩ := List.getElem?_eq_some_iff.mp hb
      have hdrop : s.lh.drop tail = s.lh[tail] :: s.lh.drop (tail + 1) :=
        List.drop_eq_getElem_cons hlt
      have hpins := h.pins c
      rw [hun, hdrop] at hpins
      have hnd : (s.lh[tail] :: s.lh.drop (tail + 1)).Nodup :=
        hdrop ▸ hi.books.lhNodup.sublist (List.drop_sublist _ _)
      have hnot := (List.nodup_cons.mp hnd).1
      show update s.pins s.lh[tail] (s.pins s.lh[tail] - 1) c =
        if c ∈ s.lh.drop (tail + 1) then 1 else 0
      by_cases e : c = s.lh[tail]
      · subst e
        rw [update_self, hpins, if_pos List.mem_cons_self, if_neg hnot]
      · rw [update_of_ne e, hpins]
        simp only [List.mem_cons, e, false_or]
  · rename_i hpc
    have hun : uninstalled s = s.lh := by rw [uninstalled, hpc]
    split_ifs at ht
    cases ht
    exact h.stage rfl rfl rfl rfl hun.symm (by simp)
  · rename_i hpc
    have hun : uninstalled s = s.lh := by rw [uninstalled, hpc]
    cases ht
    exact h.stage rfl rfl rfl rfl hun.symm (by simp)
  · cases ht

lemma recoverStep_room (hi : Inv start d s) (ht : recoverStep start s = some t) : Room t := by
  have hk := (recoverStep_inv hi ht).books
  have hst := hi.stage
  unfold recoverStep at ht
  split at ht
  · rename_i hpc
    rw [hpc] at hst
    obtain ⟨-, -, hops, -, -, -, hpins, -⟩ := hst
    cases ht
    exact .idle hk hops hpins rfl (by simp)
  · rename_i tail hpc
    rw [hpc] at hst
    obtain ⟨-, ⟨-, hops, -, -, -, hpins, -⟩, -⟩ := hst
    split at ht
    · cases ht
      exact .idle hk hops hpins rfl (by simp)
    · cases ht
      exact .idle hk hops hpins rfl (by simp)
  · rename_i hpc
    rw [hpc] at hst
    obtain ⟨hlh, ⟨-, hops, -, -, -, hpins, -⟩, -⟩ := hst
    cases ht
    exact .idle hk hops hpins hlh (by simp)
  · cases ht

/-- **Every step that fits keeps the room.** -/
theorem step_room {a : Act} (hi : Inv start d s) (h : Room s) (hf : Fits s a)
    (ht : step start s a = some t) : Room t := by
  cases a with
  | commit => exact commitStep_room hi h ht
  | recover => exact recoverStep_room hi ht
  | crash =>
    cases ht
    exact .idle (crash_inv hi).books rfl (fun _ => rfl) rfl (by simp [crash, boot])
  | beginOp p =>
    simp only [step] at ht
    split_ifs at ht with hpc
    exact beginOp_room hi h ht
  | bread p b =>
    simp only [step, bread] at ht
    split_ifs at ht
    cases ht
    exact h.same rfl rfl rfl rfl rfl
  | modify p b v =>
    simp only [step, LogModel.modify] at ht
    split_ifs at ht
    cases ht
    exact h.same rfl rfl rfl rfl rfl
  | logWrite p b =>
    simp only [step] at ht
    split_ifs at ht with hpc
    exact logWrite_room hi hpc h hf ht
  | brelse p b =>
    simp only [step, brelse] at ht
    split_ifs at ht
    cases ht
    exact h.same rfl rfl rfl rfl rfl
  | endOp p =>
    simp only [step] at ht
    split_ifs at ht with hpc
    exact endOp_room hi hpc h ht
  | evict b =>
    simp only [step, evict] at ht
    split_ifs at ht
    cases ht
    exact h.same rfl rfl rfl rfl rfl

/-- **The log has room for every operation that is let in.** In every run in which no operation
logs more than `MAXOPBLOCKS` distinct blocks, and none logs a block again when the log is full,
`log_write` finds room, the header stays within `LOGBLOCKS` entries with none twice, and
exactly its blocks are pinned, each once, until `install_trans` unpins them. -/
theorem log_capacity (hd : readHead (d start) = [])
    (hr : Reach (step start) Fits (· = boot d) s) :
    s.pc ≠ .panicked .tooBig ∧ s.lh.length ≤ LOGBLOCKS ∧ s.lh.Nodup ∧
      ∀ b, s.pins b = if b ∈ uninstalled s then 1 else 0 := by
  have hall : Inv start d s ∧ Room s := by
    refine Reach.invariant (I := fun s => Inv start d s ∧ Room s) ?_ ?_ hr
    · rintro s rfl
      exact ⟨boot_inv hd, .idle (boot_inv hd).books rfl (fun _ => rfl) rfl (by simp [boot])⟩
    · intro s a t hs hf ht
      exact ⟨step_inv hs.1 ht, step_room hs.1 hs.2 hf ht⟩
  exact ⟨hall.2.noPanic, hall.1.books.lhLen, hall.1.books.lhNodup, hall.2.pins⟩

instance (s : St) : ∀ a, Decidable (Fits s a)
  | .logWrite p b =>
    inferInstanceAs (Decidable (Budget s (.logWrite p b) ∧ (b ∈ s.lh → s.lh.length < LOGBLOCKS)))
  | .beginOp _ | .bread _ _ | .modify _ _ _ | .brelse _ _ | .endOp _ | .evict _ | .commit
  | .recover | .crash => inferInstanceAs (Decidable (True ∧ True))

def loggedTwice : List Act :=
  [.recover, .recover, .recover, .beginOp 7, .bread 7 50, .logWrite 7 50, .logWrite 7 50]

theorem log_capacity_loggedTwice :
    ∃ s, run (guarded (step 2) Fits) (boot blank) loggedTwice = some s ∧ s.lh = [50] ∧
      s.pins 50 = 1 := by
  have hrun : run (guarded (step 2) Fits) (boot blank) loggedTwice = some _ := rfl
  have hcap := log_capacity (d := blank) (by decide) (Reach.of_guarded (.init rfl) hrun)
  exact ⟨_, hrun, rfl, (hcap.2.2.2 50).trans (if_pos (by decide))⟩

def logTen (p b : ℕ) : List Act :=
  (List.range 10).flatMap fun i => [.bread p (b + i), .logWrite p (b + i), .brelse p (b + i)]

/-- Three operations log ten blocks each, and the last of them one of its blocks again. -/
def fullLog : List Act :=
  [.recover, .recover, .recover, .beginOp 1, .beginOp 2, .beginOp 3] ++
    logTen 1 100 ++ logTen 2 110 ++ logTen 3 120 ++ [.bread 3 120, .logWrite 3 120]

/-- **A full log does not absorb.** Three operations within their budgets fill the log exactly,
and one of them logs one of its blocks a second time. -/
theorem full_log_panics : ∃ s, run (guarded (step 2) Budget) (boot blank) fullLog = some s ∧
    Reach (step 2) Budget (· = boot blank) s ∧ s.pc = .panicked .tooBig ∧
    s.lh.length = LOGBLOCKS ∧ 120 ∈ s.lh := by
  have hmap : (run (guarded (step 2) Budget) (boot blank) fullLog).map (fun s => (s.pc, s.lh))
      = some (.panicked .tooBig, (List.range 30).map (100 + ·)) := by decide +kernel
  obtain ⟨s, hs, e⟩ := Option.map_eq_some_iff.mp hmap
  obtain ⟨hpc, hlh⟩ := Prod.mk.inj e
  refine ⟨s, hs, Reach.of_guarded (.init rfl) hs, hpc, ?_, ?_⟩
  · rw [hlh]
    rfl
  · rw [hlh]
    decide

end Xv6.LogCapacity
