import Xv6.LogInv

/-!
Every step of the log machine keeps its invariant.
-/

namespace Xv6.LogSteps

open Function Bytes Params LogModel LogInv Redo

/-! ### Buffers -/

@[simp] lemma view_load (s : St) (b c : ℕ) : (s.load b).view c = s.view c := by
  unfold St.load
  by_cases h : c = b
  · subst h; simp [St.view]
  · simp [St.view, update_of_ne h]

lemma view_bwrite (s : St) (b c : ℕ) (v : Block) :
    (s.bwrite b v).view c = if c = b then v else s.view c := by
  unfold St.bwrite
  by_cases h : c = b
  · subst h; simp [St.view]
  · simp [St.view, h]

variable {start : ℕ} {base : Disk} {s t : St}

lemma view_log (hb : Books start s) {b : ℕ} (h : ¬ Home start b) : s.view b = s.disk b := by
  unfold St.view
  cases hc : s.cache b with
  | none => rfl
  | some v => exact hb.logCache b h v hc

lemma load_logCache (hb : Books start s) (b c : ℕ) (h : ¬ Home start c) (v : Block)
    (hv : (s.load b).cache c = some v) : v = s.disk c := by
  by_cases e : c = b
  · subst e
    simp only [St.load, update_self, Option.some.injEq] at hv
    rw [← hv, view_log hb h]
  · simp only [St.load, update_of_ne e] at hv
    exact hb.logCache c h v hv

lemma current_eq_stable (hb : Books start s) {b : ℕ} (h : b ∉ s.lh) :
    current base s b = stable base s b :=
  contents_eq_of_notMem base fun r hr hg e => h (e ▸ hb.logged r hr hg)

lemma current_of_group_nil (h : s.group = []) : current base s = stable base s := by
  unfold current stable
  rw [h, List.append_nil]

lemma settled_of_empty (h : Inv start base s) (he : readHead (s.disk start) = []) :
    Settled start base s := by
  have hs := h.stands
  unfold Stands at hs
  rw [he] at hs
  exact represents_nil.mp hs

lemma disk_of_unpinned (h : Inv start base s) (hpc : callersRun s.pc) {b : ℕ}
    (hb : Home start b) (hp : s.pins b = 0) : s.disk b = current base s b := by
  have hst := h.stage
  have hclean : readHead (s.disk start) = [] → Pinned s 0 → s.disk b = current base s b := by
    intro he hpin
    have hm : b ∉ s.lh := fun hm => hpin b (by simpa using hm) hp
    rw [current_eq_stable h.books hm]
    exact settled_of_empty h he b hb
  cases hc : s.pc with
  | ready | writeLog tail | commitHead | endCommit => rw [hc] at hst; exact hclean hst.1 hst.2.2.1
  | installTrans tail =>
    rw [hc] at hst
    obtain ⟨hhd, -, hpin, -, -, hgrp, hins⟩ := hst
    rw [current_of_group_nil hgrp]
    by_cases hm : b ∈ s.lh
    · -- an unpinned block of the log is one that was installed
      have hm' : b ∈ s.lh.take tail ++ s.lh.drop tail := by rwa [List.take_append_drop]
      rcases List.mem_append.mp hm' with h1 | h1
      · exact hins b h1
      · exact absurd hp (hpin b h1)
    · have hs := h.stands
      unfold Stands at hs
      rw [hhd] at hs
      exact hs.rest b hb hm
  | clearHead =>
    rw [hc] at hst
    rw [current_of_group_nil hst.2.2.2.2.1]
    exact hst.2.2.2.2.2 b hb
  | readHead | recInstall _ | recClear | panicked _ => simp [hc, callersRun] at hpc

/-! ### Who can do what when -/

lemma ready_of_not_committing (h : Inv start base s) (hpc : callersRun s.pc)
    (hc : s.committing = false) : s.pc = .ready := by
  have hst := h.stage
  cases e : s.pc <;> simp [e, Stage, callersRun, hc] at hst hpc ⊢

lemma ready_of_op (h : Inv start base s) (hpc : callersRun s.pc) {p : ℕ}
    (hp : s.opOf p ≠ none) : s.pc = .ready := by
  have hops : s.ops ≠ [] := by
    intro e
    simp [St.opOf, e] at hp
  have hst := h.stage
  cases e : s.pc <;> simp [e, Stage, callersRun, hops] at hst hpc ⊢

lemma opOf_mem {p k : ℕ} (h : s.opOf p = some k) : (p, k) ∈ s.ops := by
  obtain ⟨l₁, l₂, e, -⟩ := List.lookup_eq_some_iff.mp h
  rw [e]
  simp

lemma Stage.congr {pc : Pc} (hpc : callersRun pc) (hview : ∀ b, t.view b = s.view b)
    (hdisk : t.disk = s.disk) (hlh : t.lh = s.lh) (hpins : t.pins = s.pins)
    (hops : t.ops = s.ops) (hgroup : t.group = s.group) (hcom : t.committing = s.committing)
    (hhist : t.hist = s.hist) (hcd : t.committed = s.committed)
    (hun : t.unlogged = s.unlogged) (h : Stage start base s pc) : Stage start base t pc := by
  have hcur : current base t = current base s := by unfold current; rw [hhist, hcd, hgroup]
  have hstb : stable base t = stable base s := by unfold stable; rw [hhist, hcd]
  have hshow : Shows start base s → Shows start base t := by
    intro hs b hb hu
    rw [hview, hcur]
    exact hs b hb (by rwa [hun] at hu)
  cases pc <;> simp_all [Stage, Pinned, Copied, Installed, Settled, callersRun]

lemma Books.at_stage (hk : Books start s) (pc : Pc) (c : Bool) :
    Books start { s with pc := pc, committing := c } := { hk with }

/-! ### Callers -/

section

variable (h : Inv start base s) (hpc : callersRun s.pc)
include h hpc

lemma beginOp_inv {p : ℕ}
    (ht : beginOp s p = some t) : Inv start base t := by
  unfold beginOp at ht
  split_ifs at ht with h1 h2
  simp only [Option.some.injEq] at ht
  subst ht
  push Not at h1
  obtain ⟨hp, hcom⟩ := h1
  have hready := ready_of_not_committing h hpc (by simpa using hcom)
  have hb := h.books
  -- no `log_write` of the new operation is in the history yet
  have hcur : contents base s.hist (s.committed ++ s.nextOp :: s.group)
      = contents base s.hist (s.committed ++ s.group) := by
    refine contents_congr base fun r hr => ?_
    have := hb.histLt r hr
    simp only [List.mem_append, List.mem_cons]
    constructor
    · rintro (h1 | h1 | h1)
      · exact .inl h1
      · omega
      · exact .inr h1
    · rintro (h1 | h1)
      · exact .inl h1
      · exact .inr (.inr h1)
  refine ⟨?_, h.head, h.stands, ?_⟩
  · constructor
    case histLt => intro r hr; have := hb.histLt r hr; show r.op < s.nextOp + 1; omega
    case committedLt => intro k hk; have := hb.committedLt k hk; show k < s.nextOp + 1; omega
    case groupLt =>
      intro k hk
      rcases List.mem_cons.mp hk with rfl | hk
      · exact Nat.lt_succ_self _
      · have := hb.groupLt k hk; show k < s.nextOp + 1; omega
    case groupNew =>
      intro k hk hc
      rcases List.mem_cons.mp hk with rfl | hk
      · have := hb.committedLt _ hc; omega
      · exact hb.groupNew k hk hc
    case opsGroup =>
      intro q hq
      rcases List.mem_cons.mp hq with rfl | hq
      · exact List.mem_cons_self ..
      · exact List.mem_cons_of_mem _ (hb.opsGroup q hq)
    case count => show s.outstanding + 1 = _; rw [hb.count]; rfl
    case opsNodup =>
      refine List.nodup_cons.mpr ⟨?_, hb.opsNodup⟩
      intro hm
      obtain ⟨q, hq, rfl⟩ := List.mem_map.mp hm
      have := List.lookup_eq_none_iff.mp hp q hq
      simp at this
    case unlogged =>
      intro q b hq
      obtain ⟨h1, h2, h3⟩ := hb.unlogged q b hq
      refine ⟨h1, ?_, h3⟩
      show List.lookup q ((p, s.nextOp) :: s.ops) ≠ none
      rw [List.lookup_cons]
      split
      · simp
      · exact h2
    case logged =>
      intro r hr hg
      rcases List.mem_cons.mp hg with e | hg
      · have := hb.histLt r hr; omega
      · exact hb.logged r hr hg
    all_goals first | exact hb.lhNodup | exact hb.lhHome | exact hb.lhLen | exact hb.logCache
  · have hst := h.stage
    simp only [hready, Stage] at hst ⊢
    obtain ⟨he, hs, hpin, -⟩ := hst
    refine ⟨he, ?_, hpin, by simpa using hcom⟩
    intro b hb hu
    show s.view b = contents base s.hist (s.committed ++ s.nextOp :: s.group) b
    rw [hcur]
    exact hs b hb hu

lemma bread_inv {p b : ℕ}
    (ht : bread s p b = some t) : Inv start base t := by
  unfold bread at ht
  split_ifs at ht with hl
  simp only [Option.some.injEq] at ht
  subst ht
  have hb := h.books
  refine ⟨{ hb with unlogged := ?_, logCache := load_logCache hb b }, h.head, h.stands, ?_⟩
  · intro q c hc
    obtain ⟨h1, h2, h3⟩ := hb.unlogged q c hc
    have hne : c ≠ b := by rintro rfl; rw [hl] at h1; simp at h1
    exact ⟨by simpa [update_of_ne hne] using h1, h2, h3⟩
  · exact Stage.congr hpc (view_load s b) rfl rfl rfl rfl rfl rfl rfl rfl rfl h.stage

lemma modify_inv {p b : ℕ} {v : Block}
    (ht : modify start s p b v = some t) : Inv start base t := by
  unfold LogModel.modify at ht
  split_ifs at ht with hl
  simp only [Option.some.injEq] at ht
  subst ht
  obtain ⟨hlock, hop, hhome⟩ := hl
  have hb := h.books
  have hready := ready_of_op h hpc hop
  refine ⟨{ hb with unlogged := ?_, logCache := ?_ }, h.head, h.stands, ?_⟩
  · intro q c hc
    by_cases hq : q = p
    · subst hq
      simp only [update_self, List.mem_cons] at hc
      rcases hc with rfl | hc
      · exact ⟨hlock, hop, hhome⟩
      · exact hb.unlogged q c hc
    · simp only [update_of_ne hq] at hc
      exact hb.unlogged q c hc
  · intro c hc w hw
    have hne : c ≠ b := by rintro rfl; exact hc hhome
    simp only [update_of_ne hne] at hw
    exact hb.logCache c hc w hw
  · have hst := h.stage
    simp only [hready, Stage] at hst ⊢
    obtain ⟨he, hs, hpin, hcom⟩ := hst
    refine ⟨he, ?_, hpin, hcom⟩
    intro c hc hu
    -- the block just modified is not logged yet; the others are as they were
    have hne : c ≠ b := by
      rintro rfl
      exact hu p (by simp)
    have hu' : ∀ q, c ∉ s.unlogged q := by
      intro q hq
      apply hu q
      by_cases e : q = p
      · subst e; simp [hq]
      · simpa [update_of_ne e] using hq
    show (update s.cache b (some v) c).getD (s.disk c) = current base s c
    rw [update_of_ne hne]
    exact hs c hc hu'

end

lemma mem_unlogged_filter {p q b c : ℕ}
    (h : c ∈ update s.unlogged p ((s.unlogged p).filter (· ≠ b)) q) :
    c ∈ s.unlogged q := by
  by_cases e : q = p
  · subst e
    simp only [update_self, List.mem_filter] at h
    exact h.1
  · rwa [update_of_ne e] at h

lemma logged_contents (base : Disk) (hb : Books start s) {p k : ℕ}
    (hk : s.opOf p = some k) (r : Rec) (hr : r.op = k) :
    contents base (s.hist ++ [r]) s.committed = stable base s ∧
      contents base (s.hist ++ [r]) (s.committed ++ s.group)
        = update (current base s) r.blk r.data := by
  have hg : k ∈ s.group := hb.opsGroup _ (opOf_mem hk)
  exact ⟨contents_append_out _ _ (hr ▸ hb.groupNew k hg),
    contents_append_in _ _ (by simp [hr, hg])⟩

lemma logWrite_inv (h : Inv start base s) (hpc : callersRun s.pc) {p b : ℕ}
    (ht : logWrite start s p b = some t) : Inv start base t := by
  unfold logWrite at ht
  split at ht
  · simp at ht
  rename_i k hk
  have hb := h.books
  have hready := ready_of_op h hpc (p := p) (by simp [hk])
  -- the panics only stop the machine
  have hpanic : ∀ why, Inv start base { s with pc := .panicked why } := fun why =>
    ⟨Books.at_stage hb _ _, h.head, h.stands, trivial⟩
  dsimp only at ht
  split_ifs at ht with h1 h2 h3 h4
  · obtain rfl := Option.some.inj ht; exact hpanic _
  · obtain rfl := Option.some.inj ht; exact hpanic _
  all_goals
    push Not at h1 h2 h3
    obtain ⟨hlock, hhome⟩ := h1
    obtain ⟨hstb, hcur⟩ := logged_contents base hb hk ⟨k, b, s.view b⟩ rfl
    obtain ⟨he, hs, hpin, hcom⟩ : Stage start base s .ready := by rw [← hready]; exact h.stage
    have hkg : k ∈ s.group := hb.opsGroup _ (opOf_mem hk)
    have hshow : ∀ c, Home start c →
        (∀ q, c ∉ update s.unlogged p ((s.unlogged p).filter (· ≠ b)) q) →
        s.view c = update (current base s) b (s.view b) c := by
      intro c hc hu
      by_cases e : c = b
      · subst e; rw [update_self]
      · rw [update_of_ne e]
        refine hs c hc fun q hq => hu q ?_
        by_cases e' : q = p
        · subst e'; simp [hq, e]
        · rwa [update_of_ne e']
    have hlt : ∀ r ∈ s.hist ++ [⟨k, b, s.view b⟩], r.op < s.nextOp := by
      intro r hr
      rcases List.mem_append.mp hr with hr | hr
      · exact hb.histLt r hr
      · rw [List.mem_singleton.mp hr]; exact hb.groupLt k hkg
    have hun : ∀ q c, c ∈ update s.unlogged p ((s.unlogged p).filter (· ≠ b)) q →
        s.lock c = some q ∧ s.opOf q ≠ none ∧ Home start c :=
      fun q c hc => hb.unlogged q c (mem_unlogged_filter hc)
  · -- absorbed
    cases ht
    refine ⟨{ hb with histLt := hlt, unlogged := hun, logged := ?_ }, h.head, ?_, ?_⟩
    · intro r hr hg
      rcases List.mem_append.mp hr with hr | hr
      · exact hb.logged r hr hg
      · rw [List.mem_singleton.mp hr]; exact h4
    · show Stands start s.disk (contents base _ _)
      rw [hstb]; exact h.stands
    · simp only [hready, Stage]
      refine ⟨he, ?_, hpin, hcom⟩
      intro c hc hu
      show s.view c = contents base _ _ c
      rw [hcur]
      exact hshow c hc hu
  · -- a new block of the log, pinned
    cases ht
    have hmem : b ∉ s.lh := h4
    refine ⟨{ hb with
      histLt := hlt, unlogged := hun, lhNodup := ?_, lhHome := ?_, lhLen := ?_, logged := ?_ },
      h.head, ?_, ?_⟩
    · refine List.nodup_append.mpr ⟨hb.lhNodup, by simp, ?_⟩
      intro x hx y hy
      rw [List.mem_singleton.mp hy]
      rintro rfl
      exact hmem hx
    · intro c hc
      rcases List.mem_append.mp hc with hc | hc
      · exact hb.lhHome c hc
      · rw [List.mem_singleton.mp hc]; exact hhome
    · show (s.lh ++ [b]).length ≤ LOGBLOCKS
      simp only [List.length_append, List.length_singleton]
      omega
    · intro r hr hg
      rcases List.mem_append.mp hr with hr | hr
      · exact List.mem_append_left _ (hb.logged r hr hg)
      · rw [List.mem_singleton.mp hr]; simp
    · show Stands start s.disk (contents base _ _)
      rw [hstb]; exact h.stands
    · simp only [hready, Stage]
      refine ⟨he, ?_, ?_, hcom⟩
      · intro c hc hu
        show s.view c = contents base _ _ c
        rw [hcur]
        exact hshow c hc hu
      · intro c hc
        simp only [List.drop_zero, List.mem_append, List.mem_singleton] at hc
        show update s.pins b (s.pins b + 1) c ≠ 0
        by_cases e : c = b
        · subst e; simp
        · rw [update_of_ne e]
          exact hpin c (by simpa [e] using hc)

lemma brelse_inv (h : Inv start base s) (hpc : callersRun s.pc) {p b : ℕ}
    (ht : brelse s p b = some t) : Inv start base t := by
  unfold brelse at ht
  split_ifs at ht with hl
  simp only [Option.some.injEq] at ht
  subst ht
  obtain ⟨hlock, hnot⟩ := hl
  have hb := h.books
  refine ⟨{ hb with unlogged := ?_ }, h.head, h.stands, ?_⟩
  · intro q c hc
    obtain ⟨h1, h2, h3⟩ := hb.unlogged q c hc
    have hne : c ≠ b := by
      rintro rfl
      have : q = p := by rw [hlock] at h1; simpa using h1.symm
      exact hnot (this ▸ hc)
    exact ⟨by simpa [update_of_ne hne] using h1, h2, h3⟩
  · exact Stage.congr (s := s) hpc (fun _ => rfl) rfl rfl rfl rfl rfl rfl rfl rfl rfl h.stage

lemma lookup_filter_ne {p q : ℕ} (hq : q ≠ p) (l : List (ℕ × ℕ)) :
    (l.filter (·.1 ≠ p)).lookup q = l.lookup q := by
  induction l with
  | nil => rfl
  | cons x l ih =>
    by_cases hx : x.1 = p
    · have hqx : (q == x.1) = false := by simp [hx, hq]
      rw [List.filter_cons_of_neg (by simp [hx]), ih, List.lookup_cons, hqx]
    · rw [List.filter_cons_of_pos (by simp [hx]), List.lookup_cons, List.lookup_cons, ih]

lemma length_filter_ne {p : ℕ} {l : List (ℕ × ℕ)} (hn : (l.map Prod.fst).Nodup)
    (hp : l.lookup p ≠ none) : (l.filter (·.1 ≠ p)).length = l.length - 1 := by
  induction l with
  | nil => simp at hp
  | cons x l ih =>
    rw [List.map_cons, List.nodup_cons] at hn
    by_cases hx : x.1 = p
    · -- nobody else is `p`
      have hall : l.filter (·.1 ≠ p) = l := by
        refine List.filter_eq_self.mpr fun y hy => ?_
        have : y.1 ≠ p := by
          rintro rfl
          exact hn.1 (hx ▸ List.mem_map_of_mem hy)
        simp [this]
      rw [List.filter_cons_of_neg (by simp [hx]), hall]
      simp
    · have hpx : (p == x.1) = false := by simp [Ne.symm hx]
      rw [List.lookup_cons, hpx] at hp
      have := ih hn.2 hp
      have hl : l ≠ [] := by rintro rfl; simp at hp
      have hpos := List.length_pos_iff.mpr hl
      rw [List.filter_cons_of_pos (by simp [hx]), List.length_cons, List.length_cons, this]
      omega

lemma endOp_inv (h : Inv start base s) (hpc : callersRun s.pc) {p : ℕ}
    (ht : endOp s p = some t) : Inv start base t := by
  unfold endOp at ht
  split_ifs at ht with h1
  push Not at h1
  obtain ⟨hop, hun⟩ := h1
  have hb := h.books
  have hready := ready_of_op h hpc hop
  obtain ⟨he, hs, hpin, hcom⟩ : Stage start base s .ready := by rw [← hready]; exact h.stage
  -- the books are in order whatever happens to `committing` and `pc`
  have hbooks : ∀ c pc, Books start { s with
      outstanding := s.outstanding - 1
      ops := s.ops.filter (·.1 ≠ p)
      committing := c
      pc := pc } := by
    intro c pc
    refine { hb with opsGroup := ?_, count := ?_, opsNodup := ?_, unlogged := ?_ }
    · exact fun q hq => hb.opsGroup q (List.mem_filter.mp hq).1
    · show s.outstanding - 1 = (s.ops.filter _).length
      rw [length_filter_ne hb.opsNodup hop, hb.count]
    · exact hb.opsNodup.sublist (List.filter_sublist.map _)
    · intro q x hx
      obtain ⟨h1, h2, h3⟩ := hb.unlogged q x hx
      have hq : q ≠ p := by
        rintro rfl
        change x ∈ s.unlogged q at hx
        rw [hun] at hx
        simp at hx
      exact ⟨h1, by show (s.ops.filter _).lookup q ≠ none; rw [lookup_filter_ne hq]; exact h2, h3⟩
  simp only [hcom, Bool.false_eq_true, if_false] at ht
  have hops : s.outstanding - 1 = 0 → s.ops.filter (·.1 ≠ p) = [] := fun h0 =>
    List.length_eq_zero_iff.mp ((hbooks true .ready).count.symm.trans h0)
  split_ifs at ht with h2 h3
  · cases ht
    exact ⟨hbooks _ _, h.head, h.stands, he, hs, hpin, hops h2, rfl,
      fun i hi => absurd hi (by omega)⟩
  · cases ht
    exact ⟨hbooks _ _, h.head, h.stands, he, hs, hpin, hops h2, rfl⟩
  · cases ht
    refine ⟨hbooks _ _, h.head, h.stands, ?_⟩
    simp only [hready]
    exact ⟨he, hs, hpin, rfl⟩

lemma evict_inv (h : Inv start base s) (hpc : callersRun s.pc) {b : ℕ}
    (ht : evict s b = some t) : Inv start base t := by
  unfold evict at ht
  split_ifs at ht with hl
  simp only [Option.some.injEq] at ht
  subst ht
  obtain ⟨hlock, hpins⟩ := hl
  have hb := h.books
  have hview : ∀ c, Home start c → (∀ p, c ∉ s.unlogged p) → s.view c = current base s c →
      St.view { s with cache := update s.cache b none } c = current base s c := by
    intro c hc hu hv
    by_cases e : c = b
    · subst e
      have := disk_of_unpinned h hpc hc hpins
      simpa [St.view] using this
    · simpa [St.view, update_of_ne e] using hv
  refine ⟨{ hb with logCache := ?_ }, h.head, h.stands, ?_⟩
  · intro c hc v hv
    by_cases e : c = b
    · subst e; simp at hv
    · simp only [update_of_ne e] at hv
      exact hb.logCache c hc v hv
  · have hshow : Shows start base s →
        Shows start base { s with cache := update s.cache b none } :=
      fun hs c hc hu => hview c hc hu (hs c hc hu)
    have hst := h.stage
    cases hc : s.pc with
    | readHead | recInstall _ | recClear | panicked _ => simp [hc, callersRun] at hpc
    | _ => rw [hc] at hst; exact ⟨hst.1, hshow hst.2.1, hst.2.2⟩

/-! ### Commit and recovery -/

lemma writeLog_inv (h : Inv start base s) {tail b : ℕ} (hpc : s.pc = .writeLog tail)
    (hb : s.lh[tail]? = some b) :
    Inv start base { (s.load b).bwrite (slot start tail) (s.view b) with
      pc := .writeLog (tail + 1) } := by
  have hk := h.books
  obtain ⟨he, hs, hpin, hops, hcom, hcop⟩ : Stage start base s (.writeLog tail) := by
    rw [← hpc]; exact h.stage
  have hlt : tail < s.lh.length := (List.getElem?_eq_some_iff.mp hb).1
  have hslot : ¬ Home start (slot start tail) := slot_not_home start (by have := hk.lhLen; omega)
  have hhome : Home start b := hk.lhHome b (List.mem_of_getElem? hb)
  -- nobody is inside an operation, so every change is logged
  have hun : ∀ p, b ∉ s.unlogged p := by
    intro p hp
    obtain ⟨-, h2, -⟩ := hk.unlogged p b hp
    simp [St.opOf, hops] at h2
  have hne : start ≠ slot start tail := by unfold slot; omega
  have hhdr : update s.disk (slot start tail) (s.view b) start = s.disk start :=
    update_of_ne hne _ _
  refine ⟨{ hk with logCache := ?_ }, ?_, ?_, ?_⟩
  · intro c hc v hv
    by_cases e : c = slot start tail
    · subst e
      simp only [St.bwrite, update_self, Option.some.injEq] at hv ⊢
      exact hv.symm
    · simp only [St.bwrite, update_of_ne e] at hv ⊢
      exact load_logCache hk b c hc v hv
  · show (readHead (update s.disk _ _ start)).length ≤ LOGBLOCKS ∧
      (readHead (update s.disk _ _ start)).Nodup
    rw [hhdr]; exact h.head
  · show Represents _ _ (update s.disk _ _) (readHead (update s.disk _ _ start)) _
    rw [hhdr]
    refine Represents.write_outside h.stands _ hslot ?_
    simp [he]
  · refine ⟨?_, ?_, hpin, hops, hcom, ?_⟩
    · show readHead (update s.disk _ _ start) = []
      rw [hhdr]; exact he
    · intro c hc hu
      have hcne : c ≠ slot start tail := by rintro rfl; exact hslot hc
      show (St.bwrite (s.load b) (slot start tail) (s.view b)).view c = _
      rw [view_bwrite, if_neg hcne, view_load]
      exact hs c hc hu
    · intro i hi c hc
      change s.lh[i]? = some c at hc
      show update s.disk (slot start tail) (s.view b) (slot start i) = current base s c
      by_cases e : i = tail
      · subst e
        have : c = b := by rw [hb] at hc; simpa using hc.symm
        rw [update_self, this]
        exact hs b hhome hun
      · rw [update_of_ne (by unfold slot; omega)]
        exact hcop i (by omega) c hc

lemma putHead_disk (s : St) : (s.putHead start).disk
    = update s.disk start (writeHead (s.view start) s.lh) := rfl

lemma putHead_view {b : ℕ} (hb : Home start b) : (s.putHead start).view b = s.view b := by
  rw [St.putHead, view_bwrite, if_neg (by rintro rfl; exact start_not_home _ hb)]

lemma putHead_logCache (hk : Books start s) (c : ℕ) (hc : ¬ Home start c) (v : Block)
    (hv : (s.putHead start).cache c = some v) : v = (s.putHead start).disk c := by
  unfold St.putHead St.bwrite at hv ⊢
  by_cases e : c = start
  · subst e
    simp only [update_self, Option.some.injEq] at hv ⊢
    exact hv.symm
  · simp only [update_of_ne e] at hv ⊢
    exact hk.logCache c hc v hv

lemma readHead_putHead (hk : Books start s) : readHead ((s.putHead start).disk start) = s.lh := by
  rw [putHead_disk, update_self]
  exact readHead_writeHead _ hk.lhLen fun x hx => (hk.lhHome x hx).1

/-- **The commit point.** The header that names the copies reaches the disk. -/
lemma commitHead_inv (h : Inv start base s) (hpc : s.pc = .commitHead) :
    Inv start base { s.putHead start with
      pc := .installTrans 0
      committed := s.committed ++ s.group
      group := [] } := by
  have hk := h.books
  obtain ⟨he, hs, hpin, hops, hcom, hcop⟩ : Stage start base s .commitHead := by
    rw [← hpc]; exact h.stage
  have hhdr := readHead_putHead hk
  have hgroup : ∀ k ∈ s.committed ++ s.group, k < s.nextOp := by
    intro k hkm
    rcases List.mem_append.mp hkm with h1 | h1
    · exact hk.committedLt k h1
    · exact hk.groupLt k h1
  refine ⟨⟨hk.histLt, hgroup, by simp, by simp, ?_, hk.count, hk.opsNodup, hk.unlogged,
    hk.lhNodup, hk.lhHome, hk.lhLen, by simp, putHead_logCache hk⟩, ?_, ?_, ?_⟩
  · intro q hq
    change q ∈ s.ops at hq
    simp [hops] at hq
  · show (readHead ((s.putHead start).disk start)).length ≤ LOGBLOCKS ∧
      (readHead ((s.putHead start).disk start)).Nodup
    rw [hhdr]; exact ⟨hk.lhLen, hk.lhNodup⟩
  · show Represents _ _ (s.putHead start).disk (readHead ((s.putHead start).disk start))
      (current base s)
    rw [hhdr, putHead_disk]
    refine Represents.write_outside ?_ _ (start_not_home start) ?_
    · exact Represents.commit (settled_of_empty h he) hk.lhHome
        (fun i b hi => hcop i (List.getElem?_eq_some_iff.mp hi).1 b hi)
        (fun b _ hm => current_eq_stable hk hm)
    · intro i _
      unfold slot
      omega
  · refine ⟨hhdr, ?_, hpin, hops, hcom, rfl, by simp [Installed]⟩
    intro b hb hu
    show (s.putHead start).view b = contents base s.hist (s.committed ++ s.group ++ []) b
    rw [putHead_view hb, List.append_nil]
    exact hs b hb hu

lemma view_slot (h : Inv start base s) (hhd : readHead (s.disk start) = s.lh) {tail b : ℕ}
    (hb : s.lh[tail]? = some b) : s.view (slot start tail) = stable base s b := by
  have hlt : tail < s.lh.length := (List.getElem?_eq_some_iff.mp hb).1
  have hslot := slot_not_home start (i := tail) (by have := h.books.lhLen; omega)
  have hs := h.stands
  unfold Stands at hs
  rw [hhd] at hs
  rw [view_log h.books hslot]
  exact hs.copies tail b hb

lemma install_disk (h : Inv start base s) (hhd : readHead (s.disk start) = s.lh) {tail b : ℕ}
    (hb : s.lh[tail]? = some b) :
    (s.install start tail b).disk = update s.disk b (stable base s b) := by
  rw [← view_slot h hhd hb]
  rfl

lemma install_view (h : Inv start base s) (hhd : readHead (s.disk start) = s.lh) {tail b : ℕ}
    (hb : s.lh[tail]? = some b) (c : ℕ) :
    (s.install start tail b).view c = if c = b then stable base s b else s.view c := by
  rw [← view_slot h hhd hb, St.install, view_bwrite, view_load]
  rfl

lemma install_cache {tail b c : ℕ} {v : Block} (hv : (s.install start tail b).cache c = some v)
    (hc : ∀ w, (s.load (slot start tail)).cache c = some w → w = s.disk c) :
    v = (s.install start tail b).disk c := by
  unfold St.install St.bwrite at hv ⊢
  by_cases e : c = b
  · subst e
    simp only [update_self, Option.some.injEq] at hv ⊢
    exact hv.symm
  · simp only [update_of_ne e] at hv ⊢
    exact hc v hv

section

variable (h : Inv start base s)
include h

lemma install_common (hhd : readHead (s.disk start) = s.lh) {tail b : ℕ}
    (hb : s.lh[tail]? = some b) :
    readHead ((s.install start tail b).disk start) = s.lh ∧
      Stands start (s.install start tail b).disk (stable base s) ∧
      (Installed base s tail → ∀ c ∈ s.lh.take (tail + 1),
        (s.install start tail b).disk c = stable base s c) := by
  have hhome := h.books.lhHome b (List.mem_of_getElem? hb)
  have hne : start ≠ b := by rintro rfl; exact start_not_home _ hhome
  have hd := install_disk h hhd hb
  have hhdr : readHead ((s.install start tail b).disk start) = s.lh := by
    rw [hd, update_of_ne hne]; exact hhd
  refine ⟨hhdr, ?_, ?_⟩
  · have hs := h.stands
    unfold Stands at hs ⊢
    rw [hhdr, hd]
    rw [hhd] at hs
    refine hs.write_home hhome fun i hi => slot_not_home start ?_
    have := h.books.lhLen
    omega
  · intro hins c hc
    rw [hd]
    rcases take_succ_mem hb hc with h1 | rfl
    · by_cases e : c = b
      · subst e; rw [update_self]
      · rw [update_of_ne e]; exact hins c h1
    · rw [update_self]

lemma installTrans_inv {tail b : ℕ} (hpc : s.pc = .installTrans tail)
    (hb : s.lh[tail]? = some b) :
    Inv start base { s.install start tail b with
      pins := update s.pins b (s.pins b - 1)
      pc := .installTrans (tail + 1) } := by
  have hk := h.books
  obtain ⟨hhd, hs, hpin, hops, hcom, hgrp, hins⟩ : Stage start base s (.installTrans tail) := by
    rw [← hpc]; exact h.stage
  obtain ⟨h1, h2, h3⟩ := install_common h hhd hb
  have hlt : tail < s.lh.length := (List.getElem?_eq_some_iff.mp hb).1
  refine ⟨{ hk with logCache := ?_ }, by rw [h1]; exact ⟨hk.lhLen, hk.lhNodup⟩, h2, h1, ?_, ?_,
    hops, hcom, hgrp, h3 hins⟩
  · intro c hc v hv
    exact install_cache hv fun w hw => load_logCache hk _ c hc w hw
  · intro c hc hu
    show (s.install start tail b).view c = current base s c
    rw [install_view h hhd hb]
    split_ifs with e
    · rw [e, current_of_group_nil hgrp]
    · exact hs c hc hu
  · intro c hc
    show update s.pins b (s.pins b - 1) c ≠ 0
    have hdrop : s.lh.drop tail = b :: s.lh.drop (tail + 1) := by
      rw [List.drop_eq_getElem_cons hlt, (List.getElem?_eq_some_iff.mp hb).2]
    -- no block is in the log twice, so the one unpinned is not needed again
    have hne : c ≠ b := by
      rintro rfl
      have hn : (s.lh.drop tail).Nodup := hk.lhNodup.sublist (List.drop_sublist ..)
      rw [hdrop, List.nodup_cons] at hn
      exact hn.1 hc
    rw [update_of_ne hne]
    exact hpin c (by rw [hdrop]; exact List.mem_cons_of_mem _ hc)

lemma settled_of_installed (hhd : readHead (s.disk start) = s.lh)
    {tail : ℕ} (hn : s.lh[tail]? = none) (hins : Installed base s tail) :
    Settled start base s := by
  have hle : s.lh.length ≤ tail := List.getElem?_eq_none_iff.mp hn
  have hs := h.stands
  unfold Stands at hs
  rw [hhd] at hs
  refine hs.installed fun b hb => hins b ?_
  rwa [List.take_of_length_le hle]

lemma clear_common (hlh : s.lh = []) (hset : Settled start base s) :
    readHead ((s.putHead start).disk start) = [] ∧
      Stands start (s.putHead start).disk (stable base s) := by
  have hhdr := readHead_putHead h.books
  rw [hlh] at hhdr
  refine ⟨hhdr, ?_⟩
  unfold Stands
  rw [hhdr, represents_nil, putHead_disk]
  intro b hb
  rw [update_of_ne (by rintro rfl; exact start_not_home _ hb)]
  exact hset b hb

lemma commitStep_inv (ht : commitStep start s = some t) :
    Inv start base t := by
  have hk := h.books
  unfold commitStep at ht
  split at ht
  · -- write_log
    rename_i tail hpc
    split at ht
    · rename_i hn
      cases ht
      obtain ⟨he, hs, hpin, hops, hcom, hcop⟩ : Stage start base s (.writeLog tail) := by
        rw [← hpc]; exact h.stage
      have hle : s.lh.length ≤ tail := List.getElem?_eq_none_iff.mp hn
      exact ⟨Books.at_stage hk _ _, h.head, h.stands, he, hs, hpin, hops, hcom,
        fun i hi b hb => hcop i (Nat.lt_of_lt_of_le hi hle) b hb⟩
    · rename_i b hb
      split_ifs at ht
      cases ht
      exact writeLog_inv h hpc hb
  · -- write_head
    rename_i hpc
    split_ifs at ht
    cases ht
    exact commitHead_inv h hpc
  · -- install_trans
    rename_i tail hpc
    split at ht
    · rename_i hn
      cases ht
      obtain ⟨hhd, hs, hpin, hops, hcom, hgrp, hins⟩ :
          Stage start base s (.installTrans tail) := by rw [← hpc]; exact h.stage
      have hset := settled_of_installed h hhd hn hins
      refine ⟨{ hk with lhNodup := by simp, lhHome := by simp, lhLen := by simp, logged := ?_ },
        h.head, h.stands, rfl, hs, hops, hcom, hgrp, hset⟩
      intro r _ hg
      change r.op ∈ s.group at hg
      simp [hgrp] at hg
    · rename_i b hb
      split_ifs at ht
      cases ht
      exact installTrans_inv h hpc hb
  · -- erase the transaction
    rename_i hpc
    split_ifs at ht
    cases ht
    obtain ⟨hlh, hs, hops, hcom, hgrp, hset⟩ : Stage start base s .clearHead := by
      rw [← hpc]; exact h.stage
    obtain ⟨h1, h2⟩ := clear_common h hlh hset
    refine ⟨{ hk with logCache := putHead_logCache hk }, by rw [h1]; simp, h2, h1, ?_, ?_, hops,
      hcom⟩
    · intro b hb hu
      show (s.putHead start).view b = current base s b
      rw [putHead_view hb]
      exact hs b hb hu
    · intro b hb
      change b ∈ s.lh.drop 0 at hb
      simp [hlh] at hb
  · -- the end of end_op
    rename_i hpc
    cases ht
    obtain ⟨he, hs, hpin, hops, hcom⟩ : Stage start base s .endCommit := by
      rw [← hpc]; exact h.stage
    exact ⟨Books.at_stage hk _ _, h.head, h.stands, he, hs, hpin, rfl⟩
  · simp at ht

end

lemma quiet_load (hq : Quiet s) (b : ℕ) : Quiet (s.load b) := by
  obtain ⟨hc, hrest⟩ := hq
  refine ⟨?_, hrest⟩
  intro c v hv
  by_cases e : c = b
  · subst e
    simp only [St.load, update_self, Option.some.injEq] at hv
    rw [← hv]
    unfold St.view
    cases h1 : s.cache c with
    | none => rfl
    | some w => exact hc c w h1
  · simp only [St.load, update_of_ne e] at hv
    exact hc c v hv

lemma quiet_view (hq : Quiet s) (b : ℕ) : s.view b = s.disk b := by
  unfold St.view
  cases h1 : s.cache b with
  | none => rfl
  | some w => exact hq.1 b w h1

lemma recoverStep_inv (h : Inv start base s) (ht : recoverStep start s = some t) :
    Inv start base t := by
  have hk := h.books
  unfold recoverStep at ht
  split at ht
  · -- read_head
    rename_i hpc
    cases ht
    obtain ⟨hlh, hq⟩ : Stage start base s .readHead := by rw [← hpc]; exact h.stage
    have hview := quiet_view hq start
    have hgrp := hq.2.2.1
    refine ⟨{ hk with
      lhNodup := ?_, lhHome := ?_, lhLen := ?_, logged := ?_, logCache := load_logCache hk start },
      h.head, h.stands, ?_, quiet_load hq start, by simp [Installed]⟩
    · show (readHead (s.view start)).Nodup
      rw [hview]; exact h.head.2
    · intro b hb
      change b ∈ readHead (s.view start) at hb
      rw [hview] at hb
      exact h.stands.homes b hb
    · show (readHead (s.view start)).length ≤ LOGBLOCKS
      rw [hview]; exact h.head.1
    · intro r _ hg
      change r.op ∈ s.group at hg
      simp [hgrp] at hg
    · show readHead (s.disk start) = readHead (s.view start)
      rw [hview]
  · -- install_trans
    rename_i tail hpc
    obtain ⟨hhd, hq, hins⟩ : Stage start base s (.recInstall tail) := by
      rw [← hpc]; exact h.stage
    have hgrp := hq.2.2.1
    split at ht
    · rename_i hn
      cases ht
      have hset := settled_of_installed h hhd hn hins
      refine ⟨{ hk with lhNodup := by simp, lhHome := by simp, lhLen := by simp, logged := ?_ },
        h.head, h.stands, rfl, hq, hset⟩
      intro r _ hg
      change r.op ∈ s.group at hg
      simp [hgrp] at hg
    · rename_i b hb
      cases ht
      obtain ⟨h1, h2, h3⟩ := install_common h hhd hb
      have hq' := quiet_load hq (slot start tail)
      refine ⟨{ hk with logCache := ?_ }, by rw [h1]; exact ⟨hk.lhLen, hk.lhNodup⟩, h2, h1,
        ⟨?_, hq.2⟩, h3 hins⟩
      · intro c hc v hv
        exact install_cache hv fun w hw => load_logCache hk _ c hc w hw
      · intro c v hv
        exact install_cache hv fun w hw => hq'.1 c w hw
  · -- clear the log
    rename_i hpc
    cases ht
    obtain ⟨hlh, hq, hset⟩ : Stage start base s .recClear := by rw [← hpc]; exact h.stage
    obtain ⟨h1, h2⟩ := clear_common h hlh hset
    obtain ⟨-, -, hgrp, -, -, -, hcom⟩ := id hq
    refine ⟨{ hk with logCache := putHead_logCache hk }, by rw [h1]; simp, h2, h1, ?_, ?_, hcom⟩
    · intro b hb _
      show (s.putHead start).view b = current base s b
      rw [putHead_view hb, current_of_group_nil hgrp, quiet_view hq]
      exact hset b hb
    · intro b hb
      change b ∈ s.lh.drop 0 at hb
      simp [hlh] at hb
  · simp at ht

lemma crash_inv (h : Inv start base s) : Inv start base (crash s) := by
  have hk := h.books
  refine ⟨⟨hk.histLt, hk.committedLt, by simp [crash, boot], by simp [crash, boot],
    by simp [crash, boot], rfl, by simp [crash, boot], by simp [crash, boot],
    by simp [crash, boot], by simp [crash, boot], by simp [crash, boot], by simp [crash, boot],
    by simp [crash, boot]⟩, h.head, h.stands, rfl, ?_⟩
  simp [Quiet, crash, boot]

/-- **Every step keeps the invariant.** -/
theorem step_inv {a : Act} (h : Inv start base s) (ht : step start s a = some t) :
    Inv start base t := by
  cases a with
  | commit => exact commitStep_inv h ht
  | recover => exact recoverStep_inv h ht
  | crash =>
    cases ht
    exact crash_inv h
  | beginOp p =>
    simp only [step] at ht
    split_ifs at ht with hpc
    exact beginOp_inv h hpc ht
  | bread p b =>
    simp only [step] at ht
    split_ifs at ht with hpc
    exact bread_inv h hpc ht
  | modify p b v =>
    simp only [step] at ht
    split_ifs at ht with hpc
    exact modify_inv h hpc ht
  | logWrite p b =>
    simp only [step] at ht
    split_ifs at ht with hpc
    exact logWrite_inv h hpc ht
  | brelse p b =>
    simp only [step] at ht
    split_ifs at ht with hpc
    exact brelse_inv h hpc ht
  | endOp p =>
    simp only [step] at ht
    split_ifs at ht with hpc
    exact endOp_inv h hpc ht
  | evict b =>
    simp only [step] at ht
    split_ifs at ht with hpc
    exact evict_inv h hpc ht

end Xv6.LogSteps
