import Xv6.CString
import Xv6.MemSafe

/-!
What `sbrk`, `fork` and `exec` do to the memory of the process that calls them, from every
state that the system can be in while no size goes beyond the trapframe.
-/

namespace Xv6.MemEffects

open Function Bytes Hoare PageTree VmModel VmTable VmUser VmCopy
open MemModel MemSpace MemExec MemFiles MemInv UserCopy MemCalls
open MemSafe Runs
open CString Params
open ProcModel (ProcState scan scan_some)

variable {n : ℕ} {s s' : Sys n} {p : Fin n} {t tf : ℕ} {e e' : ℕ → ℕ} {v u : Mach}

lemma byteAt_congr {va : ℕ} (h : e' (va / PGSIZE) = e (va / PGSIZE)) :
    byteAt v e' va = byteAt v e va := by
  simp only [byteAt, h]

section

variable [Layout] {R H : Multiset ℕ}

lemma byteAt_mappings (hT : Table v t e R) {va : ℕ} (hva : va / PGSIZE < UPAGES) :
    byteAt v (mappings v t) va = byteAt v e va :=
  byteAt_congr (mappings_eq hT _ (user_lt hva).2)

/-! ### `sbrk` -/

/-- **The meaning of `sbrk`.** For every `int` and either way to grow, as long as the process
does not grow beyond the trapframe: the call fails and changes neither the size nor any byte,
or it returns the old size and moves it. Then the bytes below both sizes are as before, those
from the old size rounded up on read as zero, whether their page is there already or comes
with the first access, and nothing is mapped from the new size rounded up on. All pages are
accounted for. -/
theorem sbrk_moves_break (hr : Reach step Bounded Start s)
    (hst : (s.tbl.procs p).state ≠ .UNUSED) {a0 a1 : ℕ}
    (hk : 0 < argint a0 → ((s.mm p).sz : ℤ) + argint a0 ≤ TRAPFRAME) :
    ∃ t, (s.mm p).pagetable = some t ∧ wp (sysSbrk p a0 a1) s fun r s' =>
      Safe s' ∧ (s'.mm p).pagetable = some t ∧
      (r = none ∧ (s'.mm p).sz = (s.mm p).sz ∧
          (∀ a < 512 ^ 3, mappings s'.vm t a = mappings s.vm t a) ∧
          SameBytes s.vm (mappings s.vm t) s'.vm (mappings s'.vm t) ∨
        r = some (s.mm p).sz ∧ (s'.mm p).sz = moveSize (s.mm p).sz (argint a0) ∧
          Moved s.vm (mappings s.vm t) (s.mm p).sz s'.vm (mappings s'.vm t) (s'.mm p).sz ∧
          (∀ a, pages (s'.mm p).sz ≤ a → a < UPAGES → mappings s'.vm t a = 0) ∧
          ∀ va, PGROUNDUP (s.mm p).sz ≤ va → va < (s'.mm p).sz →
            wp (vmfault ⟨(s'.mm p).sz, t⟩ t va) s'.vm fun r u =>
              ∀ pa, r = some pa → u.mem pa = Buf.fill PGSIZE 0) := by
  have h := reach_safe hr
  obtain ⟨t, ht⟩ := used_table h hst
  obtain ⟨tf, htf, hsp, hT⟩ := h.table ht
  have hk' : ((s.mm p).sz : ℤ) + argint a0 ≤ TRAPFRAME := by
    have := hsp.size
    by_cases hpos : 0 < argint a0
    · exact hk hpos
    · omega
  refine ⟨t, ht, (sysSbrk_spec ht hsp hT a1 hk').mono ?_⟩
  rintro r s' (⟨rfl, hs⟩ | ⟨rfl, hs⟩)
  · obtain ⟨hinv, hq⟩ := Inv.unmoved h ht htf hsp hs
    obtain ⟨v, rfl, hsame, hv⟩ := hs
    refine ⟨Inv.safe hinv (fdRefs_congr hq).symm, ht, .inl ⟨rfl, rfl, mappings_eq hv, ?_⟩⟩
    intro va hva
    rw [byteAt_mappings hv hva]
    exact sameBytes_of_same hsame.left va hva
  · obtain ⟨hinv, hq⟩ := Inv.resized h ht htf hs
    obtain ⟨v, e', rfl, -, hv, hsp', hmove⟩ := hs
    have hsz : ((respace s p v t (moveSize (s.mm p).sz (argint a0))).mm p).sz =
        moveSize (s.mm p).sz (argint a0) := by simp [respace]
    have hup := pages_le hsp'.size
    rw [hsz]
    refine ⟨Inv.safe hinv (fdRefs_congr hq).symm, by simp [respace], .inr ⟨rfl, rfl, ?_, ?_, ?_⟩⟩
    · refine ⟨fun va hva => ?_, fun va h1 h2 => ?_⟩
      · have := page_lt_pages (show va < moveSize (s.mm p).sz (argint a0) by omega)
        exact (byteAt_mappings hv (by omega)).trans (hmove.keep va hva)
      · have := page_lt_pages h2
        exact (byteAt_mappings hv (by omega)).trans (hmove.zero va h1 h2)
    · intro a h1 h2
      exact (mappings_eq hv a (user_lt h2).2).trans (hsp'.high hv h1 h2)
    · intro va _ _
      refine (vmfault_spec hv hsp'.size).mono ?_
      rintro r u ⟨-, -, hr⟩ pa hpa
      exact (hr pa hpa).2.2.2.1

lemma shrink_panics (ht : (s.mm p).pagetable = some t) (hsz : (s.mm p).sz = MAXVA + 1) :
    sysSbrk p (2 ^ 32 - 4096) 0 s = .error .walk := by
  have hint : argint (2 ^ 32 - 4096) = -4096 := by decide
  have hadd : addInt (MAXVA + 1) (-4096) = MAXVA + 1 - 4096 := by decide
  have hup : PGROUNDUP (MAXVA + 1 - 4096) = MAXVA ∧ PGROUNDUP (MAXVA + 1) = MAXVA + PGSIZE := by
    decide
  have hone : (Int.bmod (((MAXVA + PGSIZE - MAXVA) / PGSIZE : ℕ) : ℤ) (2 ^ 32) % 2 ^ 64).toNat =
      1 := by decide
  have hcount : ((MAXVA + 1 * PGSIZE) % 2 ^ 64 - MAXVA) / PGSIZE = 1 := by decide
  have hdealloc : ∀ v, uvmdealloc t (MAXVA + 1) (MAXVA + 1 - 4096) v = .error .walk := by
    intro v
    rw [uvmdealloc, if_neg (by decide), hup.1, hup.2, if_pos (by decide), hone, uvmunmap,
      if_neg (by decide), hcount, search, Nat.zero_mul, Nat.add_zero, walk, if_pos le_rfl]
    rfl
  have hwp : wpOr (· = .walk) (sysSbrk p (2 ^ 32 - 4096) 0) s fun _ _ => False := by
    simp only [sysSbrk, wpOr_bind, wpOr_get, hint]
    rw [if_pos (.inr (by decide)), wpOr_bind, growproc]
    refine wp.bindOr (Q := fun me s' => me = ⟨(s.mm p).sz, t⟩ ∧ s' = s) ((wp_myproc ht).mpr
      ⟨rfl, rfl⟩) ?_
    rintro _ _ ⟨rfl, rfl⟩
    rw [if_neg (by decide), if_pos (by decide), hsz, hadd]
    exact wpOr_stop (zoom_error (hdealloc _)) rfl
  rcases hwp with ⟨e, he, rfl⟩ | ⟨_, _, -, hfalse⟩
  · exact he
  · exact hfalse.elim

end

/-- **`sbrk` of a size above the addresses panics.** After enough `sbrk`s that allocate
nothing, a process has a size above `MAXVA`, and `sbrk(-4096)` neither fails nor returns. -/
theorem shrinking_panics : ∃ s : Sys 4, Reach step Always Start s ∧
    (s.tbl.procs 0).state = .RUNNABLE ∧ argint (2 ^ 32 - 4096) = -4096 ∧
    sysSbrk 0 (2 ^ 32 - 4096) 0 s = .error .walk := by
  obtain ⟨s, t, tf, hr, hst, -, hsz, ht, -⟩ := grown (MAXVA + 1) (by decide) le_rfl
  exact ⟨s, hr, hst, by decide, shrink_panics ht hsz⟩

/-! ### `fork` -/

/-- The fields of `struct proc` that `fork` copies besides memory and files. The two strings
end inside of their arrays, since only `safestrcpy` writes them. -/
structure Priv where
  cwd : ℕ
  name : Buf 16
  mask : ℕ
  allowedPath : Buf MAXPATH
  name_ends : cstr name.get 15 = cstr name.get 16
  path_ends : cstr allowedPath.get (MAXPATH - 1) = cstr allowedPath.get MAXPATH

/-- The system with these fields, and the reference counts of the inodes. -/
structure Full (n : ℕ) where
  sys : Sys n
  priv : Fin n → Priv
  iref : ℕ → ℕ

lemma ends_safestrcpy {m : ℕ} (b : Buf m) (src : ℕ → UInt8) (h0 : 0 < m) :
    cstr (safestrcpy b src m).get (m - 1) = cstr (safestrcpy b src m).get m := by
  rw [cstr_take (show m - 1 ≤ m by omega), cstr_safestrcpy b src h0 le_rfl,
    List.take_of_length_le (cstr_length_le src (m - 1))]

lemma ends_cleared {m : ℕ} (b : Buf m) (h : 1 < m) :
    cstr (b.set 0 0).get (m - 1) = cstr (b.set 0 0).get m := by
  have h0 : (b.set 0 0).get 0 = 0 := Buf.get_set_self b (by omega) 0
  rw [(cstr_eq_nil (by omega)).mpr h0, (cstr_eq_nil (by omega)).mpr h0]

/-- What `kfork` gives to the child: `idup(p->cwd)`, the name, the mask and the path. -/
def Priv.copy (child parent : Priv) : Priv where
  cwd := parent.cwd
  name := safestrcpy child.name parent.name.get 16
  mask := parent.mask
  allowedPath := safestrcpy child.allowedPath parent.allowedPath.get MAXPATH
  name_ends := ends_safestrcpy _ _ (by decide)
  path_ends := ends_safestrcpy _ _ (by decide)

def Priv.free (x : Priv) : Priv where
  cwd := x.cwd
  name := x.name.set 0 0
  mask := 0
  allowedPath := x.allowedPath.set 0 0
  name_ends := ends_cleared _ (by decide)
  path_ends := ends_cleared _ (by decide)

section

variable [Layout]

/-- The child's copy of the memory of `p`, as the processes were when the child was made. -/
def forkMemory (s : Sys n) (p np : Fin n) : K n Bool := do
  let t ← deref (s.mm p).pagetable
  let nt ← deref (s.mm np).pagetable
  onVm (uvmcopy t nt (s.mm p).sz)

def forkFiles (s : Sys n) (p np : Fin n) : K n Unit := do
  modify fun s => s.setMm np { s.mm np with sz := (s.mm p).sz }
  let tf ← deref (s.mm p).trapframe
  let ntf ← deref (s.mm np).trapframe
  onVm (copyTrapframe tf ntf)
  each (fun fd => do
    whenSome (((← get).mm p).ofile fd) fun f => do
      filedup f
      modify fun s => s.setFd np fd (some f)) (List.finRange NOFILE)

def forkStart (p np : Fin n) : K n ℤ := do
  modify fun s => s.setTbl (s.tbl.set np { s.tbl.procs np with parent := some p })
  modify fun s => s.setTbl (s.tbl.set np { s.tbl.procs np with state := .RUNNABLE })
  return ((← get).tbl.procs np).pid

lemma kfork_stages (p : Fin n) : kfork p = (do
    match ← allocproc with
    | none => return -1
    | some np => do
      let s ← get
      if !(← forkMemory s p np) then
        freeproc np
        return -1
      forkFiles s p np
      forkStart p np : K n ℤ) := by
  unfold kfork forkMemory forkFiles forkStart
  simp only [bind_assoc] <;> rfl

lemma freeproc_unused {Q : Unit → Sys n → Prop} (h : wp (freeproc p) s Q) :
    wp (freeproc p) s fun a s' => Q a s' ∧ (s'.tbl.procs p).state = .UNUSED := by
  simp only [freeproc, wp_bind, wp_get, wp_modify] at h ⊢
  refine h.mono fun _ s₁ h => h.mono fun _ s₂ h => ⟨h, ?_⟩
  simp [Sys.setTbl, ProcModel.Table.freeproc]

def onSys {α : Type} (m : K n α) : StateT (Full n) (Except Panic) α :=
  zoom Full.sys (fun f s => { f with sys := s }) m

def freePriv (np : Fin n) : StateT (Full n) (Except Panic) Unit :=
  modify fun f => { f with priv := update f.priv np (f.priv np).free }

def kforkAll (p : Fin n) : StateT (Full n) (Except Panic) ℤ := do
  let f ← get
  match ← onSys allocproc with
  | none =>
    -- `allocproc` frees the slot that it cannot set up
    whenSome (scan fun i => (f.sys.tbl.procs i).state = .UNUSED) freePriv
    return -1
  | some np =>
    let s := (← get).sys
    if !(← onSys (forkMemory s p np)) then
      onSys (freeproc np)
      freePriv np
      return -1
    onSys (forkFiles s p np)
    modify fun f => { f with
      priv := update f.priv np ((f.priv np).copy (f.priv p))
      iref := update f.iref (f.priv p).cwd (f.iref (f.priv p).cwd + 1) }
    onSys (forkStart p np)

omit [Layout] in
lemma Priv.copy_eq (child parent : Priv) : (child.copy parent).cwd = parent.cwd ∧
    cstr (child.copy parent).name.get 16 = cstr parent.name.get 16 ∧
    (child.copy parent).mask = parent.mask ∧
    cstr (child.copy parent).allowedPath.get MAXPATH = cstr parent.allowedPath.get MAXPATH := by
  refine ⟨rfl, ?_, rfl, ?_⟩
  · rw [← parent.name_ends]
    exact cstr_safestrcpy _ _ (by decide) le_rfl
  · rw [← parent.path_ends]
    exact cstr_safestrcpy _ _ (by decide) le_rfl

lemma unused_mm {y : Multiset (Fin NFILE)} {H : Multiset ℕ} {T : Fin n → Option ℕ} {q : Fin n}
    (h : Inv s y H T) (hst : (s.tbl.procs q).state = .UNUSED) :
    s.mm q = ⟨0, none, none, fun _ => none⟩ := by
  have hnone := (h.slots q).unused.mpr hst
  obtain ⟨htf, hsz⟩ := (h.slots q).empty hnone
  have hfd := (h.slots q).closed (.inl hst)
  cases hm : s.mm q with
  | mk sz pt tf o =>
    rw [hm] at hnone htf hsz hfd
    simp only at hnone htf hsz hfd
    rw [hsz, hnone, htf, show o = fun _ => none from funext hfd]

/-- What a call that has been undone leaves as it was: all fields, all pages in use, the
reference counts of files and the set of free pages. -/
structure Unchanged (s s' : Sys n) : Prop where
  mm : s'.mm = s.mm
  state : ∀ i, (s'.tbl.procs i).state = (s.tbl.procs i).state
  ftable : s'.ftable = s.ftable
  same : ∀ i, Same (procPages s.vm (s.mm i)) s.vm s'.vm
  free : (s'.vm.freelist : Multiset ℕ) = s.vm.freelist

lemma Undone.unchanged (hu : Undone s s') (h : Safe s) (h' : Safe s') : Unchanged s s' := by
  rcases hu with rfl | ⟨q, hf, hq, hq'⟩
  · exact ⟨rfl, fun _ => rfl, rfl, fun _ => Same.refl _ _, rfl⟩
  · have hm := unused_mm h hq
    have hm' := unused_mm h' hq'
    have hpages : procPages s.vm (s.mm q) = 0 := by
      rw [hm, procPages_none rfl, framePages, Option.elim_none]
    have hpages' : procPages s'.vm (s'.mm q) = 0 := by
      rw [hm', procPages_none rfl, framePages, Option.elim_none]
    refine ⟨funext fun i => ?_, fun i => ?_, hf.ftable, fun i => ?_, ?_⟩
    · by_cases e : i = q
      · rw [e, hm, hm']
      · exact hf.mm i e
    · by_cases e : i = q
      · rw [e, hq, hq']
      · exact hf.state i e
    · by_cases e : i = q
      · rw [e, hpages]
        exact fun _ hp => absurd hp (Multiset.notMem_zero _)
      · exact hf.same.mono (procPages_le_others e)
    · have ho := (h.rest q).2
      have ho' := (h'.rest q).2
      rw [Owns, hpages, zero_add] at ho
      rw [Owns, hpages', zero_add, hf.others, ← ho] at ho'
      exact add_right_cancel ho'

lemma user_page_count (h : Safe s) {q : Fin n} {a : ℕ} (ht : (s.mm q).pagetable = some t)
    (ha : a < UPAGES) (hv : has (mappings s.vm t a) PTE_V) :
    (∑ i, userPages s.vm (s.mm i)).count (PTE2PA (mappings s.vm t a)) = 1 := by
  have hle : ∑ i, userPages s.vm (s.mm i) ≤ ∑ i, procPages s.vm (s.mm i) :=
    Finset.sum_le_sum fun i _ => (Multiset.le_add_left _ _).trans (Multiset.le_add_right _ _)
  have hnodup : (∑ i, userPages s.vm (s.mm i)).Nodup := by
    refine Multiset.nodup_of_le hle ?_
    have hn := (Multiset.nodup_add.mp h.owns.nodup).2.1
    rw [add_zero] at hn
    exact (Multiset.nodup_add.mp (Multiset.nodup_add.mp hn).1).2.1
  refine Multiset.count_eq_one_of_mem hnodup (Multiset.mem_sum.mpr ⟨q, Finset.mem_univ q, ?_⟩)
  rw [userPages_some ht]
  exact mem_leaves ha hv

/-- **Fork copies the address space.** For every process of a system in which no size goes
beyond the trapframe, and wherever `kalloc` fails: `kfork` fails with nothing changed, or it
makes a child. Then the child has a page below the size exactly where its parent does, with
the same flags and the same bytes, in a page that is mapped nowhere else; it has its parent's
registers with `0` in `a0`, its size, open files, current directory, name and policy. In both
cases the page table and the memory of the parent are unchanged. -/
theorem fork_copies {f : Full n} (h : Safe f.sys) (hst : (f.sys.tbl.procs p).state ≠ .UNUSED) :
    wp (kforkAll p) f fun r f' => Safe f'.sys ∧ f'.sys.mm p = f.sys.mm p ∧
      Same (procPages f.sys.vm (f.sys.mm p)) f.sys.vm f'.sys.vm ∧
      (r = -1 ∧ Unchanged f.sys f'.sys ∧ f'.iref = f.iref ∨
        ∃ np, r = (f'.sys.tbl.procs np).pid ∧ Forked f.sys p np f'.sys ∧
          (f'.priv np).cwd = (f.priv p).cwd ∧
          f'.iref = update f.iref (f.priv p).cwd (f.iref (f.priv p).cwd + 1) ∧
          cstr (f'.priv np).name.get 16 = cstr (f.priv p).name.get 16 ∧
          (f'.priv np).mask = (f.priv p).mask ∧
          cstr (f'.priv np).allowedPath.get MAXPATH = cstr (f.priv p).allowedPath.get MAXPATH ∧
          ∀ nt, (f'.sys.mm np).pagetable = some nt → ∀ a < pages (f.sys.mm p).sz,
            has (mappings f'.sys.vm nt a) PTE_V →
              (∑ i, userPages f'.sys.vm (f'.sys.mm i)).count
                (PTE2PA (mappings f'.sys.vm nt a)) = 1) := by
  have hT : ∀ i, (f.sys.tbl.procs i).state = .UNUSED → (f.sys.mm i).trapframe = none :=
    fun i hi => ((h.slots i).empty ((h.slots i).unused.mpr hi)).1
  have hsize : (f.sys.mm p).sz ≤ TRAPFRAME := by
    obtain ⟨t, ht⟩ := used_table h hst
    obtain ⟨_, _, hsp, _⟩ := h.table ht
    exact hsp.size
  have hk := kfork_spec h hT hst
  rw [kfork_stages, wp_bind] at hk
  simp only [kforkAll, onSys, freePriv, wp_bind, wp_get, wp_zoom]
  refine ((allocproc_wp h hT).and hk).mono ?_
  rintro o s₁ ⟨⟨hq, hnone, hslot⟩, hk⟩
  have hfail : ∀ {s' : Sys n}, Safe s' → Undone f.sys s' → Safe s' ∧ s'.mm p = f.sys.mm p ∧
      Same (procPages f.sys.vm (f.sys.mm p)) f.sys.vm s'.vm ∧ Unchanged f.sys s' :=
    fun hsafe hundo =>
      have hun := Undone.unchanged hundo h hsafe
      ⟨hsafe, by rw [hun.mm], hun.same p, hun⟩
  cases o with
  | none =>
    obtain ⟨hinv, hundo⟩ := hnone rfl
    rw [← fdRefs_congr hq] at hinv
    obtain ⟨hsafe, hpar, hsame, hun⟩ := hfail (Inv.safe hinv rfl) hundo
    cases scan fun i => (f.sys.tbl.procs i).state = .UNUSED with
    | none => exact wp_pure.mpr ⟨hsafe, hpar, hsame, .inl ⟨rfl, hun, rfl⟩⟩
    | some np =>
      simp only [whenSome_some, freePriv, wp_bind, wp_modify, wp_pure]
      exact ⟨hsafe, hpar, hsame, .inl ⟨trivial, hun, trivial⟩⟩
  | some np =>
    obtain ⟨-, hunused, -, -, -, hscan⟩ := hslot np rfl
    have hne : p ≠ np := fun e => hst (e ▸ hunused)
    simp only [wp_bind, wp_get] at hk ⊢
    rw [wp_zoom]
    refine hk.mono fun ok s₂ hk => ?_
    cases ok with
    | false =>
      simp only [Bool.not_false, if_true, wp_bind, wp_zoom, wp_modify, wp_pure] at hk ⊢
      refine (freeproc_unused hk).mono ?_
      rintro _ s₃ ⟨⟨hinv, ⟨-, hundo⟩ | ⟨q, -, hfork⟩⟩, hst₃⟩
      · obtain ⟨hsafe, hpar, hsame, hun⟩ := hfail (Inv.safe hinv rfl) hundo
        exact ⟨hsafe, hpar, hsame, .inl ⟨trivial, hun, trivial⟩⟩
      · obtain rfl : np = q := Option.some.inj (hscan.symm.trans hfork.slot)
        have := hfork.runnable
        rw [hst₃] at this
        cases this
    | true =>
      simp only [Bool.not_true, Bool.false_eq_true, if_false, wp_bind, wp_zoom, wp_modify] at hk ⊢
      refine hk.mono fun _ s₃ hk => ?_
      simp only [forkStart, wp_bind, wp_modify, wp_get, wp_pure] at hk ⊢
      obtain ⟨hinv, ⟨-, hundo⟩ | ⟨q, hpid, hfork⟩⟩ := hk
      · have hun := Undone.unchanged hundo h (Inv.safe hinv rfl)
        have := hun.state np
        simp [hunused, Sys.setTbl] at this
      · obtain rfl : np = q := Option.some.inj (hscan.symm.trans hfork.slot)
        have hsafe := Inv.safe hinv rfl
        obtain ⟨h1, h2, h3, h4⟩ := Priv.copy_eq (f.priv np) (f.priv p)
        refine ⟨hsafe, hfork.mm p hne, hfork.same.mono (procPages_le_others hne),
          .inr ⟨np, rfl, hfork, ?_, trivial, ?_, ?_, ?_, fun nt hnt a ha hv => ?_⟩⟩
        · simpa using h1
        · simpa using h2
        · simpa using h3
        · simpa using h4
        · have hup := pages_le hsize
          exact user_page_count hsafe hnt (by omega) hv

end

lemma started_reach : ∃ s : Sys 4, Reach step Bounded Start s ∧
    (s.tbl.procs 0).state = .RUNNABLE ∧ (s.mm 0).sz = 12288 := by
  obtain ⟨s, hstart, s', hstep, hst, -, hsz⟩ := started
  exact ⟨s', .step (.init hstart) (by simp [Bounded]) hstep, hst, hsz⟩

lemma shrink_isSome [Layout] {a0 a1 : ℕ} (h0 : argint a0 < 0) {Q : Option ℕ → Sys n → Prop}
    (h : wp (sysSbrk p a0 a1) s Q) : wp (sysSbrk p a0 a1) s fun r s' => Q r s' ∧ r.isSome := by
  simp only [sysSbrk, growproc, wp_bind, wp_get, h0, or_true, if_true] at h ⊢
  refine h.mono fun me s₁ h => ?_
  rw [if_neg (by omega)] at h ⊢
  simp only [wp_bind, wp_modify, wp_pure, if_true] at h ⊢
  exact h.mono fun _ _ h => ⟨h, rfl⟩

/-- The first process gives up the last page and a part of the page below. -/
theorem sbrk_moves_break_started : ∃ s : Sys 4, Reach step Bounded Start s ∧
    argint (2 ^ 32 - 5000) = -5000 ∧ ∃ t, (s.mm 0).pagetable = some t ∧
    wp (sysSbrk 0 (2 ^ 32 - 5000) 1) s fun r s' => r = some 12288 ∧ (s'.mm 0).sz = 7288 ∧
      Safe s' ∧ ∀ a, 2 ≤ a → a < UPAGES → mappings s'.vm t a = 0 := by
  obtain ⟨s, hr, hst, hsz⟩ := started_reach
  obtain ⟨t, ht, hwp⟩ := @sbrk_moves_break _ _ 0 _ hr (by simp [hst]) (2 ^ 32 - 5000) 1
    (fun h => absurd h (by decide))
  refine ⟨s, hr, by decide, t, ht, (shrink_isSome (by decide) hwp).mono ?_⟩
  rintro r s' ⟨⟨hsafe, -, ⟨rfl, -⟩ | ⟨rfl, hnew, -, hhigh, -⟩⟩, hsome⟩
  · cases hsome
  · have hmove : moveSize 12288 (argint (2 ^ 32 - 5000)) = 7288 := by decide
    rw [hsz, hmove] at hnew
    rw [hnew] at hhigh
    exact ⟨by rw [hsz], hnew, hsafe, hhigh⟩

def plainPriv : Priv where
  cwd := 1
  name := Buf.fill 16 0
  mask := 0
  allowedPath := Buf.fill MAXPATH 0
  name_ends := by
    rw [(cstr_eq_nil (by decide)).mpr (Buf.get_fill_zero 0),
      (cstr_eq_nil (by decide)).mpr (Buf.get_fill_zero 0)]
  path_ends := by
    rw [(cstr_eq_nil (by decide)).mpr (Buf.get_fill_zero 0),
      (cstr_eq_nil (by decide)).mpr (Buf.get_fill_zero 0)]

def forks (p : Fin 4) : Bool :=
  match userinit freshSys with
  | .error _ => false
  | .ok (_, s) =>
    match sysSbrk p 8192 1 s with
    | .error _ => false
    | .ok (_, s') =>
      (s.tbl.procs p).state == .RUNNABLE && (s'.tbl.procs p).state == .RUNNABLE &&
      (s.mm p).sz == 0 && (s'.mm p).sz == 8192 &&
      match kforkAll p ⟨s', fun _ => plainPriv, fun _ => 1⟩ with
      | .ok (pid, _) => pid == 2
      | .error _ => false

set_option maxRecDepth 100000 in
lemma forks_true : forks 0 = true := by decide +kernel

theorem fork_copies_started : ∃ f : Full 4, Safe f.sys ∧ (f.sys.mm 0).sz = 8192 ∧
    wp (kforkAll 0) f fun r f' => ∃ np, r = 2 ∧ r = (f'.sys.tbl.procs np).pid ∧
      Forked f.sys 0 np f'.sys ∧ (f'.priv np).cwd = (f.priv 0).cwd := by
  have h := forks_true
  unfold forks at h
  split at h
  · cases h
  · rename_i s hinit
    have hstart : Start s := ⟨freshSys, fresh_booted, hinit⟩
    split at h
    · cases h
    · rename_i r s' hsbrk
      simp only [Bool.and_eq_true, beq_iff_eq] at h
      obtain ⟨⟨⟨⟨hst, hst'⟩, h0⟩, hsz⟩, h⟩ := h
      have hsafe : Safe s' := by
        have hroom : ((s.mm 0).sz : ℤ) + argint 8192 ≤ TRAPFRAME := by
          rw [h0]
          decide
        obtain ⟨r', s'', hrun, hinv, hq⟩ := show wp (sysSbrk 0 8192 1) s _ from
          sysSbrk_wp (start_safe hstart) (by simp [hst]) hroom
        rw [hsbrk] at hrun
        obtain ⟨-, rfl⟩ : r = r' ∧ s' = s'' := by simpa using hrun
        exact Inv.safe hinv (fdRefs_congr hq).symm
      obtain ⟨pid, f', hrun, -, -, -, hres⟩ := fork_copies
        (f := ⟨s', fun _ => plainPriv, fun _ => 1⟩) (p := 0) hsafe (by simp [hst'])
      rw [hrun] at h
      obtain rfl : pid = 2 := beq_iff_eq.mp h
      refine ⟨_, hsafe, hsz, 2, f', hrun, ?_⟩
      obtain ⟨hneg, -⟩ | ⟨np, hpid, hforked, hcwd, -⟩ := hres
      · cases hneg
      · exact ⟨np, rfl, hpid, hforked, hcwd⟩

end Xv6.MemEffects
