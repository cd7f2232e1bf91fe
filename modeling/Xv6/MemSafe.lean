import Xv6.MemCalls
import Xv6.Runs

/-!
Runs of the whole system: address spaces stay as they should be, and no page is lost, as long
as no `sbrk` takes a process beyond the trapframe. `sys_sbrk` itself does not check that.
-/

namespace Xv6.MemSafe

open Bytes Hoare Runs PageTree VmModel VmTable VmUser VmCopy
open Function Params MemModel MemSpace MemFiles MemInv MemCalls
open ProcModel (ProcState Proc)

section

variable [Layout] {n : ℕ} {s s' : Sys n} {p : Fin n} {T : Fin n → Option ℕ} {a : Act n}

/-! ### One call -/

/-- The panics that are no fault of the memory: `init` exits, or has no program. -/
def OfInit (e : Panic) : Prop := e = .initExiting ∨ e = .exec

lemma exit_wpOr (h : Inv s (fdRefs s.mm) 0 T) (hst : (s.tbl.procs p).state ≠ .UNUSED)
    (status : ℤ) :
    wpOr OfInit (kexit p status) s fun _ s' => Inv s' (fdRefs s'.mm) 0 T := by
  by_cases hp : p = s.tbl.initproc
  · rw [kexit]
    refine wp.bindOr (Q := fun a _ => a = s) (wp_get.mpr rfl) ?_
    rintro _ u rfl
    rw [if_pos hp]
    exact wpOr_throw (.inl rfl)
  · exact .inr (kexit_wp h hp hst status)

/-- **Every call keeps the invariant**, unless `init` makes the kernel panic. -/
theorem perform_wp (h : Inv s (fdRefs s.mm) 0 T)
    (hT : ∀ i, (s.tbl.procs i).state = .UNUSED → T i = none)
    (hst : (s.tbl.procs p).state ∉ [ProcState.UNUSED, .USED, .ZOMBIE]) (call : Call)
    (hb : ∀ a0 a1, call = .sbrk a0 a1 → ((s.mm p).sz : ℤ) + argint a0 ≤ TRAPFRAME) :
    wpOr OfInit (perform p call) s fun _ s' => Inv s' (fdRefs s'.mm) 0 T := by
  have hused : (s.tbl.procs p).state ≠ .UNUSED := fun e => hst (by simp [e])
  have hlive : ¬ ((s.tbl.procs p).state = .UNUSED ∨ (s.tbl.procs p).state = .ZOMBIE) := by
    rintro (e | e) <;> exact hst (by simp [e])
  obtain ⟨t, ht⟩ := used_table h hused
  cases call with
  | forkret file =>
    refine wp.bindOr (Q := fun _ s₁ => s₁ = { s with first := false }) (wp_modify.mpr rfl) ?_
    rintro _ _ rfl
    have h₁ : Inv { s with first := false } (fdRefs s.mm) 0 T := ⟨h.owns, h.slots, h.files⟩
    have hargs : ∀ arg ∈ initArgv, arg.length < PGSIZE := by decide
    obtain ⟨tf, htf, -⟩ := h.table ht
    refine wp.bindOr (kexec_wp h₁ ht htf file hargs) ?_
    rintro r s₂ ⟨h₂, hq, _⟩
    split_ifs
    · exact wpOr_throw (.inr rfl)
    · refine .inr (wp_pure.mpr ?_)
      rwa [fdRefs_congr hq]
  | fork => exact .inr (wp_discard.mpr ((kfork_spec h hT hused).mono fun _ _ h => h.1))
  | exec path uargv file => exact .inr (wp_discard.mpr (sysExec_wp h hused path uargv file))
  | exit status => exact exit_wpOr h hused status
  | wait addr => exact .inr (wp_discard.mpr (kwait_wp h hused addr))
  | sbrk a0 a1 =>
    refine .inr (wp_discard.mpr ((sysSbrk_wp h hused (hb a0 a1 rfl)).mono ?_))
    rintro _ s' ⟨hs', hq⟩
    rwa [fdRefs_congr hq]
  | pageFault va =>
    refine wp.bindOr (Q := fun me s₁ => me = ⟨(s.mm p).sz, t⟩ ∧ s₁ = s)
      ((wp_myproc ht).mpr ⟨rfl, rfl⟩) ?_
    rintro _ s₁ ⟨rfl, hs₁⟩
    rw [hs₁]
    refine wp.bindOr (vmfault_inv h ht va) ?_
    rintro r _ ⟨v, rfl, hv⟩
    cases r with
    | none => exact exit_wpOr hv hused (-1)
    | some _ => exact .inr (wp_pure.mpr hv)
  | copyin srcva len =>
    refine .inr (wp_bind.mpr ((wp_myproc ht).mpr (wp_discard.mpr ((copyin_inv h ht _ _).mono ?_))))
    rintro _ _ ⟨v, rfl, hv⟩
    exact hv
  | copyout dstva src =>
    refine .inr (wp_bind.mpr ((wp_myproc ht).mpr (wp_discard.mpr ((copyout_inv h ht _ _).mono ?_))))
    rintro _ _ ⟨v, rfl, hv⟩
    exact hv
  | copyinstr srcva max =>
    refine .inr (wp_bind.mpr ((wp_myproc ht).mpr (wp_discard.mpr
      ((copyinstr_inv h ht _ _).mono fun _ s₁ hs₁ => ?_))))
    rw [hs₁]
    exact h
  | pipe fdarray => exact .inr (wp_discard.mpr (sysPipe_wp h hlive fdarray))
  | dup a0 => exact .inr (wp_discard.mpr (sysDup_wp h hlive a0))
  | close a0 => exact .inr (wp_discard.mpr (sysClose_wp h a0))
  | openFile device writable =>
    refine .inr (wp_discard.mpr (openFile_wp h hlive ?_ writable))
    split_ifs <;> decide

/-! ### Runs -/

/-- The system before the first process: the kernel has taken the pages `boot`, and all other
pages are free. -/
structure Booted (s : Sys n) : Prop where
  owns : Owns s.vm ↑s.boot
  procs : ∀ i, s.tbl.procs i = Proc.zero
  mm : ∀ i, s.mm i = ⟨0, none, none, fun _ => none⟩
  ftable : ∀ f, s.ftable f = ⟨.FD_NONE, 0, false, 0⟩

def Start (s : Sys n) : Prop := ∃ s₀ : Sys n, Booted s₀ ∧ userinit s₀ = .ok ((), s)

def Bounded (s : Sys n) (a : Act n) : Prop :=
  ∀ a0 a1, a.call = .sbrk a0 a1 → ((s.mm a.p).sz : ℤ) + argint a0 ≤ TRAPFRAME

def Safe (s : Sys n) : Prop := Inv s (fdRefs s.mm) 0 fun i => (s.mm i).trapframe

lemma Inv.safe {y : Multiset (Fin NFILE)} (h : Inv s y 0 T) (hy : y = fdRefs s.mm) : Safe s := by
  refine ⟨h.owns, fun i => ?_, hy ▸ h.files⟩
  obtain ⟨h1, h2, h3, h4, -⟩ := h.slots i
  exact ⟨h1, h2, h3, h4, fun _ => .inr⟩

lemma booted_inv (h : Booted s) : Inv s (fdRefs s.mm) 0 fun _ => none := by
  have hpipe : pipePages s.ftable = 0 := by
    rw [pipePages, Finset.val_eq_zero, Finset.eq_empty_iff_forall_notMem]
    intro pi hpi
    obtain ⟨f, hf, -⟩ := mem_pipeSet.mp hpi
    rw [h.ftable] at hf
    cases hf
  have hpages : ∑ i, procPages s.vm (s.mm i) = 0 :=
    Finset.sum_eq_zero fun i _ => by
      rw [h.mm, procPages_none rfl, framePages, Option.elim_none]
  have hrefs : fdRefs s.mm = 0 :=
    Finset.sum_eq_zero fun x _ => by rw [h.mm, Option.elim_none]
  have hno : ∀ f, ¬ IsPipe (s.ftable f) := fun f hf => by
    rw [h.ftable] at hf
    cases hf
  refine ⟨?_, fun i => ?_, ?_⟩
  · rw [hpages, hpipe, add_zero, add_zero, add_zero]
    exact h.owns
  · rw [h.mm, h.procs]
    exact ⟨by simp [Proc.zero], fun _ => ⟨rfl, rfl⟩, by simp, fun _ _ => rfl, by simp⟩
  · rw [hrefs]
    exact ⟨fun f => by rw [h.ftable]; simp, fun f _ => by rw [h.ftable],
      fun f _ hf => absurd hf (hno f), fun f hf => absurd hf (hno f)⟩

lemma start_safe (h : Start s) : Safe s := by
  obtain ⟨s₀, hb, hu⟩ := h
  have hinv := booted_inv hb
  have hwp : wpOr (fun _ => True) userinit s₀ fun _ s' => Safe s' := by
    refine wp.bindOr (allocproc_wp hinv fun _ _ => rfl) ?_
    rintro r s₁ ⟨hq, hn, hs⟩
    cases r with
    | none => exact wpOr_throw trivial
    | some p =>
      obtain ⟨h₁, -, hst, -, -⟩ := hs p rfl
      refine .inr ?_
      simp only [wp_bind, wp_modify]
      have h₂ : Inv (s₁.setTbl { s₁.tbl with initproc := p }) _ 0 _ :=
        h₁.setTbl (fun _ => Iff.rfl) fun _ => .inl
      exact Inv.safe (runnable_inv h₂ hst (.inr rfl)) (fdRefs_congr hq).symm
  exact hwp.of_ok hu

/-- **A step keeps the invariant**, and panics only on account of `init`. -/
lemma outcome_safe (h : Safe s) (he : enabled s a) (hb : Bounded s a) :
    (∃ e, outcome s a = .error e ∧ OfInit e) ∨
      ∃ s', outcome s a = .ok s' ∧ Inv s' (fdRefs s'.mm) 0 fun i => (s.mm i).trapframe := by
  have h' : Inv { s with vm := { s.vm with calls := 0, oom := a.oom } } (fdRefs s.mm) 0 _ :=
    pages_inv (p := a.p) h (fun _ _ => rfl) (h.rest a.p).2
  have hst : (s.tbl.procs a.p).state ∉ [ProcState.UNUSED, .USED, .ZOMBIE] := by
    simp only [enabled, Bool.and_eq_true, decide_eq_true_eq] at he
    exact he.1
  have hT : ∀ i, (s.tbl.procs i).state = .UNUSED → (s.mm i).trapframe = none := fun i hi =>
    ((h.slots i).empty ((h.slots i).unused.mpr hi)).1
  rcases perform_wp h' hT hst a.call hb with ⟨e, hp, hE⟩ | ⟨_, s', hp, hs'⟩
  · exact .inl ⟨e, by rw [outcome, hp]; rfl, hE⟩
  · exact .inr ⟨s', by rw [outcome, hp]; rfl, hs'⟩

lemma step_safe (h : Safe s) (hb : Bounded s a) (hstep : step s a = some s') :
    Inv s' (fdRefs s'.mm) 0 fun i => (s.mm i).trapframe := by
  unfold step at hstep
  split_ifs at hstep with he
  rcases outcome_safe h he hb with ⟨e, ho, -⟩ | ⟨s'', ho, hs''⟩
  · rw [ho] at hstep
    cases hstep
  · rw [ho] at hstep
    obtain rfl : s'' = s' := by simpa [Except.toOption] using hstep
    exact hs''

lemma reach_safe (h : Reach step Bounded Start s) : Safe s :=
  h.invariant (fun _ => start_safe) fun _ _ _ hs hb ht => Inv.safe (step_safe hs hb ht) rfl

/-! ### The results -/

/-- What the address space of a process is to be: the table with root `t` maps nothing above
the size but the trampoline and the trapframe `tf`, and these not for the user. -/
structure Confined (v : Mach) (t tf sz : ℕ) : Prop where
  size : sz ≤ TRAPFRAME
  low : ∀ va < MAXVA, va % PGSIZE = 0 → has (mappings v t (va / PGSIZE)) PTE_V →
    va ≠ TRAMPOLINE → va ≠ TRAPFRAME → va < PGROUNDUP sz
  trampoline : has (mappings v t (TRAMPOLINE / PGSIZE)) PTE_V ∧
    has (mappings v t (TRAMPOLINE / PGSIZE)) PTE_U = false ∧
    PTE2PA (mappings v t (TRAMPOLINE / PGSIZE)) = Layout.trampoline
  trapframe : has (mappings v t (TRAPFRAME / PGSIZE)) PTE_V ∧
    has (mappings v t (TRAPFRAME / PGSIZE)) PTE_U = false ∧
    PTE2PA (mappings v t (TRAPFRAME / PGSIZE)) = tf

lemma Space.confined {v : Mach} {t tf sz : ℕ} (h : Space (mappings v t) sz tf) (htf : tf < 2 ^ 52) :
    Confined v t tf sz := by
  obtain ⟨htop1, htop2, htop3, htop4⟩ := pages_top
  have hpte : ∀ {q f}, q < 2 ^ 52 → f < 2 ^ 10 → has f PTE_U = false → has f PTE_V →
      has (PA2PTE q ||| f) PTE_V ∧ has (PA2PTE q ||| f) PTE_U = false ∧
        PTE2PA (PA2PTE q ||| f) = q := by
    intro q f hq hf hU hV
    exact ⟨by rw [has_PA2PTE_or _ hf (by decide)]; exact hV,
      by rw [has_PA2PTE_or _ hf (by decide)]; exact hU, PTE2PA_PA2PTE_or hq hf⟩
  refine ⟨h.size, fun va hva hal hv h1 h2 => ?_, ?_, ?_⟩
  · have hmul : va / PGSIZE * PGSIZE = va := Nat.div_mul_cancel (Nat.dvd_of_mod_eq_zero hal)
    rw [PGROUNDUP_eq h.size]
    rcases h.low _ (page_lt hva) hv with hlt | heq | heq
    · calc va = va / PGSIZE * PGSIZE := hmul.symm
        _ < pages sz * PGSIZE := Nat.mul_lt_mul_of_pos_right hlt (by decide)
    · rw [heq, htop4] at hmul
      exact absurd hmul.symm h2
    · rw [heq, htop3] at hmul
      exact absurd hmul.symm h1
  · have := h.trampoline
    rw [Nat.or_assoc] at this
    rw [show TRAMPOLINE / PGSIZE = trampolinePage from rfl, this]
    exact hpte trampoline_lt_pages (by decide) (by decide) (by decide)
  · have := h.trapframe
    rw [Nat.or_assoc] at this
    rw [show TRAPFRAME / PGSIZE = trapframePage from rfl, this]
    exact hpte htf (by decide) (by decide) (by decide)

/-- **The user address spaces are safe as long as no `sbrk` goes beyond the trapframe.** In every
state of such a run each process has a size of at most `TRAPFRAME`, maps nothing above it but
the trampoline and its trapframe, keeps its trapframe over every step, and no step panics in
`walk`, `mappages` or `freewalk`. -/
theorem address_space_safe (h : Reach step Bounded Start s) :
    (∀ i, (s.tbl.procs i).state ≠ .UNUSED → ∃ t tf, (s.mm i).pagetable = some t ∧
      (s.mm i).trapframe = some tf ∧ Confined s.vm t tf (s.mm i).sz) ∧
    (∀ a, Bounded s a → enabled s a → outcome s a ≠ .error .walk ∧
      outcome s a ≠ .error .mappagesRemap ∧ outcome s a ≠ .error .freewalkLeaf) ∧
    ∀ a s', Bounded s a → step s a = some s' → ∀ i tf tf', (s.mm i).trapframe = some tf →
      (s'.mm i).trapframe = some tf' → tf' = tf := by
  have hs := reach_safe h
  refine ⟨fun i hi => ?_, fun a hb he => ?_, fun a s' hb hstep i tf tf' htf htf' => ?_⟩
  · obtain ⟨t, ht⟩ := used_table hs hi
    obtain ⟨tf, htf, hsp, hT⟩ := hs.table ht
    have hmem : tf ∈ leaves (mappings s.vm t) + ({tf} + (others s i + 0)) :=
      Multiset.mem_add.mpr (.inr (mem_own tf _))
    have htf52 := allocatable_lt (hT.owns.mem (Multiset.mem_add.mpr (.inr hmem)))
    exact ⟨t, tf, ht, htf, Space.confined hsp htf52⟩
  · rcases outcome_safe hs he hb with ⟨e, ho, rfl | rfl⟩ | ⟨s', ho, -⟩ <;> simp [ho]
  · have := ((step_safe hs hb hstep).slots i).frame tf' htf'
    rw [htf] at this
    simpa [eq_comm] using this

/-- **No page is lost or has two owners** in such a run: the free list, the pages taken at
boot, the pages of page tables, user memory, trapframes and pipes are the allocatable pages,
each of them once. -/
theorem pages_conserved (h : Reach step Bounded Start s) :
    s.vm.freelist.Nodup ∧ (s.vm.freelist : Multiset ℕ) + ↑s.boot +
      ∑ i, tablePages s.vm (s.mm i) + ∑ i, userPages s.vm (s.mm i) + ∑ i, framePages (s.mm i) +
      pipePages s.ftable = allocatable.val := by
  have ho := (reach_safe h).owns
  refine ⟨?_, ?_⟩
  · have hn := (Multiset.nodup_add.mp ho.nodup).1
    exact Multiset.coe_nodup.mp hn
  · rw [← ho]
    simp only [procPages, Finset.sum_add_distrib, add_zero]
    abel

/-! ### Growing without bound -/

/-- No call of `kalloc` is made to fail. -/
abbrev sure (m : Mach) : Mach := { m with calls := 0, oom := fun _ => false }

abbrev calm (s : Sys n) : Sys n := { s with vm := sure s.vm }

lemma lazy_step {k : ℕ} (hk : k < 2 ^ 31) (hst : (s.tbl.procs p).state = .RUNNABLE)
    (hf : s.first = false) (hsz : (s.mm p).sz + k < 2 ^ 64) :
    step s ⟨p, .sbrk k 0, fun _ => false⟩ =
      some ((calm s).setMm p { s.mm p with sz := (s.mm p).sz + k }) := by
  have hint : argint k = k := Int.bmod_eq_of_le (by omega) (by omega)
  have hadd : addInt (s.mm p).sz k = (s.mm p).sz + k := by
    rw [addInt]
    omega
  have h1 : ¬ (argint 0 = SBRK_EAGER ∨ argint k < 0) := by
    rw [hint]
    rintro (h | h)
    · revert h
      decide
    · omega
  have hwp : wp (perform p (.sbrk k 0)) (calm s) fun _ s' =>
      s' = (calm s).setMm p { s.mm p with sz := (s.mm p).sz + k } := by
    simp only [perform, wp_discard, sysSbrk, wp_bind, wp_get, if_neg h1]
    rw [hint, hadd, if_neg (by omega)]
    simp only [wp_bind, wp_modify, wp_pure, Sys.setMm]
  obtain ⟨_, s', hrun, rfl⟩ := hwp
  have he : enabled s ⟨p, .sbrk k 0, fun _ => false⟩ := by
    simp [enabled, hst, hf, Call.isForkret]
  rw [step, if_pos he, outcome, hrun]
  rfl

lemma grow_reach {init : Sys n → Prop} (h : Reach step Always init s)
    (hst : (s.tbl.procs p).state = .RUNNABLE) (hf : s.first = false) (k : ℕ) {g : ℕ}
    (hg : g ≤ k * (2 ^ 31 - 1)) (hsz : (s.mm p).sz + g < 2 ^ 64) :
    ∃ s', Reach step Always init s' ∧ s'.vm.mem = s.vm.mem ∧ s'.vm.freelist = s.vm.freelist ∧
      s'.tbl = s.tbl ∧ s'.first = s.first ∧
      s'.mm p = { s.mm p with sz := (s.mm p).sz + g } := by
  induction k generalizing s g with
  | zero =>
    obtain rfl : g = 0 := by omega
    exact ⟨s, h, rfl, rfl, rfl, rfl, rfl⟩
  | succ k ih =>
    have hstep := lazy_step (k := min g (2 ^ 31 - 1)) (by omega) hst hf (by omega)
    obtain ⟨s', h', hm, hfree, ht, hfi, hmm⟩ := ih (h.next _ trivial hstep) hst hf
      (g := g - min g (2 ^ 31 - 1)) (by omega) (by simp only [Sys.setMm, update_self]; omega)
    refine ⟨s', h', hm, hfree, ht, hfi, ?_⟩
    rw [hmm]
    simp only [Sys.setMm, update_self]
    congr 1
    omega

lemma fault_walk {t : ℕ} (hst : (s.tbl.procs p).state = .RUNNABLE) (hf : s.first = false)
    (ht : (s.mm p).pagetable = some t) (hsz : MAXVA < (s.mm p).sz) :
    enabled s ⟨p, .pageFault MAXVA, fun _ => false⟩ ∧
      outcome s ⟨p, .pageFault MAXVA, fun _ => false⟩ = .error .walk := by
  refine ⟨by simp [enabled, hst, hf, Call.isForkret], ?_⟩
  have hfault : ∀ v : Mach, vmfault ⟨(s.mm p).sz, t⟩ t MAXVA v = .error .walk := fun v => by
    have hdown : PGROUNDDOWN MAXVA = MAXVA := by decide
    rw [vmfault, if_neg (by simpa using hsz), hdown, ismapped, walk, if_pos le_rfl]
    rfl
  have hwp : wpOr (· = .walk) (perform p (.pageFault MAXVA)) (calm s) fun _ _ => False := by
    have hme : wp (myproc p) (calm s) fun me _ => me = ⟨(s.mm p).sz, t⟩ :=
      (wp_myproc (s := calm s) ht).mpr rfl
    refine wp.bindOr hme ?_
    rintro _ s₁ rfl
    exact wpOr_stop (zoom_error (hfault _)) rfl
  rcases hwp with ⟨e, he, rfl⟩ | ⟨_, _, -, hfalse⟩
  · rw [outcome, he]
    rfl
  · exact hfalse.elim

lemma shrink_frees {t tf : ℕ} {R : Multiset ℕ} {v : Mach} (hT : Table v t (mappings v t) R)
    (hsp : mappings v t trapframePage = PA2PTE tf ||| (PTE_R ||| PTE_W) ||| PTE_V)
    (htf : tf ∈ allocatable) :
    wp (uvmdealloc t TRAMPOLINE TRAPFRAME) v fun r u => r = TRAPFRAME ∧
      u.freelist = tf :: v.freelist := by
  have hup : PGROUNDUP TRAMPOLINE = TRAMPOLINE ∧ PGROUNDUP TRAPFRAME = TRAPFRAME := by decide
  have hone : (Int.bmod (((TRAMPOLINE - TRAPFRAME) / PGSIZE : ℕ) : ℤ) (2 ^ 32) % 2 ^ 64).toNat =
      1 := by decide
  have hcount : ((TRAPFRAME + 1 * PGSIZE) % 2 ^ 64 - TRAPFRAME) / PGSIZE = 0 + 1 := by decide
  have hpa := mem_allocatable.mp htf
  have hvalid : has (PA2PTE tf ||| (PTE_R ||| PTE_W) ||| PTE_V) PTE_V := by
    rw [Nat.or_assoc, has_PA2PTE_or _ (by decide) (by decide)]
    decide
  have hframe : PTE2PA (PA2PTE tf ||| (PTE_R ||| PTE_W) ||| PTE_V) = tf := by
    rw [Nat.or_assoc]
    exact PTE2PA_PA2PTE_or (allocatable_lt htf) (by decide)
  rw [uvmdealloc, if_neg (by decide), hup.1, hup.2, if_pos (by decide)]
  simp only [wp_bind, wp_pure, hone, uvmunmap]
  rw [if_neg (by decide), hcount]
  simp only [search, wp_bind, Nat.zero_mul, Nat.add_zero]
  have hpage : TRAPFRAME / PGSIZE = trapframePage := rfl
  refine (hT.entries.walk_valid (by decide) (by rw [hpage, hsp]; exact hvalid)).mono ?_
  rintro r u ⟨rfl, l, rfl, -, hw⟩
  rw [hpage, hsp] at hw
  simp only [readPte, wp_bind, wp_get, wp_pure, hpage, hw, hvalid, hframe, Bool.not_true,
    Bool.false_eq_true, if_false, if_true, kfree, memset, writePte]
  rw [if_neg (by omega)]
  simp only [wp_bind, wp_modify, true_and]
  rfl

lemma shrink_step {t tf : ℕ} {R : Multiset ℕ} (hst : (s.tbl.procs p).state = .RUNNABLE)
    (hf : s.first = false) (ht : (s.mm p).pagetable = some t) (htf : (s.mm p).trapframe = some tf)
    (hsz : (s.mm p).sz = TRAMPOLINE) (hT : Table s.vm t (mappings s.vm t) R)
    (hsp : mappings s.vm t trapframePage = PA2PTE tf ||| (PTE_R ||| PTE_W) ||| PTE_V)
    (hal : tf ∈ allocatable) :
    ∃ s', step s ⟨p, .sbrk (2 ^ 32 - 4096) 0, fun _ => false⟩ = some s' ∧
      (s'.mm p).trapframe = some tf ∧ tf ∈ s'.vm.freelist := by
  have hint : argint (2 ^ 32 - 4096) = -4096 := by decide
  have hadd : addInt TRAMPOLINE (-4096) = TRAPFRAME := by decide
  have hT' : Table (sure s.vm) t (mappings (sure s.vm) t) R := ⟨hT.wf, hT.entries, hT.owns⟩
  have hwp : wp (perform p (.sbrk (2 ^ 32 - 4096) 0)) (calm s) fun _ s' =>
      (s'.mm p).trapframe = some tf ∧ tf ∈ s'.vm.freelist := by
    simp only [perform, wp_discard, sysSbrk, wp_bind, wp_get, hint]
    rw [if_pos (.inr (by decide)), wp_bind, growproc, wp_bind]
    refine (wp_myproc (s := calm s) ht).mpr ?_
    rw [if_neg (by decide), if_pos (by decide), hsz, hadd]
    simp only [wp_bind, onVm, wp_zoom, wp_modify, wp_pure]
    refine (shrink_frees hT' hsp hal).mono ?_
    rintro _ u ⟨rfl, hfree⟩
    simp only [Sys.setMm, update_self, if_true, wp_pure]
    exact ⟨htf, by rw [hfree]; exact List.mem_cons_self⟩
  obtain ⟨_, s', hrun, hs'⟩ := hwp
  have he : enabled s ⟨p, .sbrk (2 ^ 32 - 4096) 0, fun _ => false⟩ := by
    simp [enabled, hst, hf, Call.isForkret]
  refine ⟨s', ?_, hs'⟩
  rw [step, if_pos he, outcome, hrun]
  rfl

lemma Safe.calm (h : Safe s) (p : Fin n) : Safe (calm s) :=
  pages_inv h (fun _ _ => rfl) (h.rest p).2

lemma forkret_step {t tf : ℕ} {file : List UInt8} {x : ℕ × ℕ × ℕ} {u : Mach} (h : Safe s)
    (hst : (s.tbl.procs p).state = .RUNNABLE) (hf : s.first = true)
    (ht : (s.mm p).pagetable = some t) (htf : (s.mm p).trapframe = some tf)
    (himg : buildImage ⟨(s.mm p).sz, t⟩ tf file initArgv (sure s.vm) = .ok (some x, u)) :
    ∃ s' y e, step s ⟨p, .forkret (some file), fun _ => false⟩ = some s' ∧ s'.tbl = s.tbl ∧
      s'.first = false ∧ Executed y p t tf file initArgv s' x.1 x.2.1 x.2.2 u e := by
  have hvm := h.calm p
  have hinv : Inv { s with first := false, vm := sure s.vm }
      (fdRefs s.mm) 0 fun i => (s.mm i).trapframe := ⟨hvm.owns, hvm.slots, hvm.files⟩
  have hargs : ∀ arg ∈ initArgv, arg.length < PGSIZE := by decide
  have hwp : wp (perform p (.forkret (some file))) (calm s) fun _ s' =>
      s'.tbl = s.tbl ∧ s'.first = false ∧
        ∃ y e, Executed y p t tf file initArgv s' x.1 x.2.1 x.2.2 u e := by
    rw [perform, forkret, wp_bind, wp_modify, wp_bind]
    refine (kexec_wp hinv ht htf (some file) hargs).mono ?_
    rintro r s₁ ⟨_, _, htbl, hfirst, hr, -, hex⟩
    split_ifs with h1
    · obtain ⟨u', hu'⟩ := hr h1 file rfl
      rw [himg] at hu'
      cases hu'
    · obtain ⟨-, _, root, sz, sp, u', e, ⟨⟩, hex⟩ := hex h1
      have := hex.image
      rw [himg] at this
      cases this
      exact wp_pure.mpr ⟨htbl, hfirst, _, e, hex⟩
  obtain ⟨_, s', hrun, htbl, hfirst, y, e, hex⟩ := hwp
  have he : enabled s ⟨p, .forkret (some file), fun _ => false⟩ := by
    simp [enabled, hst, hf, Call.isForkret]
  refine ⟨s', y, e, ?_, htbl, hfirst, hex⟩
  rw [step, if_pos he, outcome, hrun]
  rfl

end

/-- A machine with all of its memory, the kernel ending at `0x80023000`. -/
instance roomy : Layout where
  kend := 0x80023000
  trampoline := 0x80006
  USERSTACK := 2
  trampoline_lt := by decide
  kend_le := by decide
  kernbase_le := by decide

/-- The `k` pages from `b` on, the last first, as `freerange` leaves them. -/
def pagesDown (b : ℕ) : ℕ → List ℕ
  | 0 => []
  | k + 1 => (b + k) :: pagesDown b k

lemma mem_pagesDown {b k x : ℕ} : x ∈ pagesDown b k ↔ b ≤ x ∧ x < b + k := by
  induction k with
  | zero => simp [pagesDown]
  | succ k ih =>
    rw [pagesDown, List.mem_cons, ih]
    omega

lemma nodup_pagesDown (b k : ℕ) : (pagesDown b k).Nodup := by
  induction k with
  | zero => exact List.nodup_nil
  | succ k ih =>
    refine List.nodup_cons.mpr ⟨fun h => ?_, ih⟩
    have := mem_pagesDown.mp h
    omega

def freshSys : Sys 4 where
  vm := ⟨fun _ => Buf.fill PGSIZE 1, pagesDown 0x80023 0x7fdd, 0, fun _ => false⟩
  tbl := ⟨fun _ => Proc.zero, 1, 0⟩
  mm := fun _ => ⟨0, none, none, fun _ => none⟩
  ftable := fun _ => ⟨.FD_NONE, 0, false, 0⟩
  first := true
  boot := []

def emptyElf : List UInt8 := [0x7f, 0x45, 0x4c, 0x46] ++ List.replicate 60 0

/-- An executable with a segment of eight bytes, of which four are in the file, with the offset
`off` in its header. The bytes are at offset 120. -/
def segmentElf (off : ℕ) : List UInt8 :=
  [0x7f, 0x45, 0x4c, 0x46] ++ List.replicate 28 0 ++ bytesLE 8 64 ++ List.replicate 16 0 ++
    bytesLE 2 1 ++ List.replicate 6 0 ++
  bytesLE 4 1 ++ bytesLE 4 5 ++ bytesLE 8 off ++ bytesLE 8 0 ++ bytesLE 8 0 ++
    bytesLE 8 4 ++ bytesLE 8 8 ++ bytesLE 8 4096 ++
  [1, 2, 3, 4]

lemma fresh_booted : Booted freshSys := by
  refine ⟨?_, fun _ => rfl, fun _ => rfl, fun _ => rfl⟩
  rw [Owns, freshSys, Multiset.coe_nil, add_zero]
  refine (Multiset.Nodup.ext (Multiset.coe_nodup.mpr (nodup_pagesDown _ _)) allocatable.nodup).mpr
    fun x => ?_
  rw [Multiset.mem_coe, mem_pagesDown, Finset.mem_val, mem_allocatable]
  unfold PGSIZE PHYSTOP KERNBASE
  change _ ↔ 0x80023000 ≤ _ ∧ _
  omega

/-- Whether the first process, just set up, can build the image of a program that passes `q`. -/
def builds (file : List UInt8) (argv : List (List UInt8)) (q : ℕ × ℕ × ℕ → Mach → Bool) : Bool :=
  match userinit freshSys with
  | .error _ => false
  | .ok (_, s) =>
    match (s.mm 0).pagetable, (s.mm 0).trapframe with
    | some t, some tf =>
      s.first && (s.tbl.procs 0).state == .RUNNABLE &&
      match buildImage ⟨(s.mm 0).sz, t⟩ tf file argv (sure s.vm) with
      | .ok (some x, u) => q x u
      | _ => false
    | _, _ => false

lemma builds_image {file : List UInt8} {argv : List (List UInt8)} {q : ℕ × ℕ × ℕ → Mach → Bool}
    (h : builds file argv q = true) : ∃ (s : Sys 4) (t tf : ℕ), Start s ∧ s.first = true ∧
      (s.tbl.procs 0).state = .RUNNABLE ∧ (s.mm 0).pagetable = some t ∧
      (s.mm 0).trapframe = some tf ∧ ∃ x u, q x u = true ∧
        buildImage ⟨(s.mm 0).sz, t⟩ tf file argv (sure s.vm) = .ok (some x, u) := by
  unfold builds at h
  split at h
  · cases h
  · rename_i s hinit
    split at h
    · rename_i t tf ht htf
      rw [Bool.and_eq_true, Bool.and_eq_true, beq_iff_eq] at h
      obtain ⟨⟨hfirst, hst⟩, h⟩ := h
      split at h
      · rename_i x u himg
        exact ⟨s, t, tf, ⟨freshSys, fresh_booted, hinit⟩, hfirst, hst, ht, htf, x, u, h, himg⟩
      · cases h
    · cases h

set_option maxRecDepth 100000 in
lemma builds_init : builds emptyElf initArgv (fun x _ => x.2.1 == 12288) = true := by
  decide +kernel

lemma started : ∃ s : Sys 4, Start s ∧ ∃ s', step s ⟨0, .forkret (some emptyElf), fun _ => false⟩ =
    some s' ∧ (s'.tbl.procs 0).state = .RUNNABLE ∧ s'.first = false ∧
    (s'.mm 0).sz = 12288 := by
  obtain ⟨s, t, tf, hstart, hfirst, hst, ht, htf, x, u, hx, himg⟩ := builds_image builds_init
  obtain ⟨s', _, _, hstep, htbl, hf, hex⟩ :=
    forkret_step (start_safe hstart) hst hfirst ht htf himg
  exact ⟨s, hstart, s', hstep, by rw [htbl]; exact hst, hf, by rw [hex.mm, ← beq_iff_eq.mp hx]⟩

lemma grown (sz : ℕ) (h1 : TRAPFRAME ≤ sz) (h2 : sz ≤ MAXVA + 1) : ∃ s : Sys 4, ∃ t tf,
    Reach step Always Start s ∧ (s.tbl.procs 0).state = .RUNNABLE ∧ s.first = false ∧
    (s.mm 0).sz = sz ∧ (s.mm 0).pagetable = some t ∧ (s.mm 0).trapframe = some tf ∧
    tf ∈ allocatable ∧ Space (mappings s.vm t) TRAPFRAME tf ∧
    ∃ R, Table s.vm t (mappings s.vm t) R := by
  obtain ⟨s, hstart, s', hstep, hst, hf, -⟩ := started
  have hsafe : Safe s' := Inv.safe (step_safe (start_safe hstart) (by simp [Bounded]) hstep) rfl
  obtain ⟨t, ht⟩ := used_table hsafe (p := 0) (by simp [hst])
  obtain ⟨tf, htf, hsp, hT⟩ := hsafe.table ht
  have htf' : tf ∈ allocatable :=
    hT.owns.mem (Multiset.mem_add.mpr (.inr (Multiset.mem_add.mpr (.inr (mem_own tf _)))))
  have hsize := hsp.size
  have hsum : (s'.mm 0).sz + (sz - (s'.mm 0).sz) = sz := by omega
  have hreach : Reach step Always Start s' := .step (.init hstart) trivial hstep
  obtain ⟨s'', hr, hm, hfree, htbl, hfi, hmm⟩ := grow_reach hreach hst hf 200
    (g := sz - (s'.mm 0).sz) (by unfold MAXVA at h2; omega)
    (by unfold MAXVA at h2; omega)
  have hmap : mappings s''.vm t = mappings s'.vm t := by
    unfold mappings
    rw [hm]
  refine ⟨s'', t, tf, hr, by rw [htbl]; exact hst, by rw [hfi]; exact hf, ?_, ?_, ?_, htf', ?_, ?_⟩
  · rw [hmm]
    exact hsum
  · rw [hmm]
    exact ht
  · rw [hmm]
    exact htf
  · rw [hmap]
    exact space_lazy hsp hsp.size le_rfl
  · refine ⟨leaves (mappings s'.vm t) + ({tf} + (others s' 0 + 0)), ?_, fun _ _ => rfl, ?_⟩
    · rw [hm]
      exact hT.wf
    · have ho := hT.owns
      rwa [Owns, ← hm, ← hfree] at ho

/-- **Growing past the top of the address space.** After enough `sbrk`s that allocate nothing,
the size is above `TRAPFRAME`, and a page fault below it makes `walk` panic. -/
theorem lazy_growth_panics : ∃ (s : Sys 4) (a : Act 4), Reach step Always Start s ∧
    TRAPFRAME < (s.mm 0).sz ∧ enabled s a ∧ outcome s a = .error .walk := by
  obtain ⟨s, t, tf, hr, hst, hf, hsz, ht, -⟩ := grown (MAXVA + 1) (by decide) le_rfl
  obtain ⟨he, ho⟩ := fault_walk hst hf ht (by rw [hsz]; exact Nat.lt_succ_self _)
  refine ⟨s, _, hr, ?_, he, ho⟩
  rw [hsz]
  decide

/-- **Shrinking from there frees the trapframe.** With a size of `TRAMPOLINE`, `sbrk(-4096)`
puts the trapframe of the process on the free list. -/
theorem shrinking_frees_trapframe : ∃ (s : Sys 4) (tf : ℕ), Reach step Always Start s ∧
    (s.mm 0).trapframe = some tf ∧ tf ∈ s.vm.freelist := by
  obtain ⟨s, t, tf, hr, hst, hf, hsz, ht, htf, hal, hsp, R, hT⟩ := grown TRAMPOLINE (by decide)
    (by decide)
  obtain ⟨s', hstep, hs'⟩ := shrink_step hst hf ht htf hsz hT hsp.trapframe hal
  exact ⟨s', tf, hr.next _ trivial hstep, hs'⟩

theorem address_space_safe_started : ∃ s : Sys 4, Reach step Bounded Start s ∧ s.first = false ∧
    ∃ t tf, (s.mm 0).pagetable = some t ∧ (s.mm 0).trapframe = some tf ∧
      Confined s.vm t tf (s.mm 0).sz := by
  obtain ⟨s, hstart, s', hstep, hst, hf, -⟩ := started
  have h : Reach step Bounded Start s' := .step (.init hstart) (by simp [Bounded]) hstep
  exact ⟨s', h, hf, (address_space_safe h).1 0 (by simp [hst])⟩

theorem pages_conserved_started : ∃ s : Sys 4, Reach step Bounded Start s ∧ s.first = false ∧
    s.vm.freelist.Nodup := by
  obtain ⟨s, hstart, s', hstep, -, hf, -⟩ := started
  have h : Reach step Bounded Start s' := .step (.init hstart) (by simp [Bounded]) hstep
  exact ⟨s', h, hf, (pages_conserved h).1⟩

end Xv6.MemSafe
