import Xv6.MemEffects

/-!
`exec` is all or nothing.

The model of `kexec` in `MemModel` leaves out what it does with the inode of the program and
with the name of the process. Here is `kexec` with all this noted down, in the order of the
code; the notes change nothing of what is known of `kexec`.
-/

namespace Xv6.ExecSafe

open Bytes Hoare PageTree VmModel VmTable VmUser VmCopy
open MemModel MemSpace MemExec MemFiles MemInv UserCopy MemCalls
open MemSafe MemEffects Runs Params
open ProcModel (ProcState)

/-- What `kexec` does beside building the image: its calls into the log and the file system,
the writes to `ustack` and the update of `p->name`. -/
inductive ExecCall
  | beginOp | namei | ilock | iunlockput | endOp
  | ustack (i : ℕ)
  | saveName
  deriving DecidableEq

/-- A call of `kexec`: what it returns, what it does, and the memory before and after the new
image is built. -/
structure Exec where
  ret : ℤ
  calls : List ExecCall
  built : Option (Mach × Mach)

variable {n : ℕ}

section

variable [Layout]

def pushArgsCalls (me : Myproc) (pagetable stackbase : ℕ) :
    List (List UInt8) → ℕ → List ℕ → List ExecCall →
      Vm (Option (ℕ × List ℕ) × List ExecCall)
  | [], sp, ustack, calls => return (some (sp, ustack), calls)
  | arg :: args, sp, ustack, calls => do
    if MAXARG ≤ ustack.length then return (none, calls)
    let sp := pushed sp (arg.length + 1)
    if sp < stackbase then return (none, calls)
    if !(← copyout me pagetable sp (arg ++ [0])) then return (none, calls)
    pushArgsCalls me pagetable stackbase args sp (ustack ++ [sp])
      (calls ++ [.ustack ustack.length])

def pushAllCalls (me : Myproc) (pagetable sz : ℕ) (argv : List (List UInt8))
    (calls : List ExecCall) : Vm (Option ℕ × List ExecCall) := do
  let stackbase := sz - USERSTACK * PGSIZE
  let (args, calls) ← pushArgsCalls me pagetable stackbase argv sz [] calls
  match args with
  | none => return (none, calls)
  | some (sp, ustack) =>
    let calls := calls ++ [.ustack ustack.length]
    let sp := pushed sp ((ustack.length + 1) * 8)
    if sp < stackbase then return (none, calls)
    if !(← copyout me pagetable sp ((ustack ++ [0]).flatMap (bytesLE 8))) then
      return (none, calls)
    return (some sp, calls)

/-- The label `bad` of `kexec`: what there is of the page table is freed, and the inode is put
if `ip` still holds it. -/
def bad (ip : Bool) (pagetable : Option (ℕ × ℕ)) (calls : List ExecCall) :
    Vm (Option (ℕ × ℕ × ℕ) × List ExecCall) := do
  whenSome pagetable fun t => procFreepagetable t.1 t.2
  return (none, if ip then calls ++ [.iunlockput, .endOp] else calls)

def buildImageCalls (me : Myproc) (trapframe : ℕ) (file : List UInt8)
    (argv : List (List UInt8)) : Vm (Option (ℕ × ℕ × ℕ) × List ExecCall) := do
  let elf := readi file 0 elfhdrSize
  if elf.length ≠ elfhdrSize then bad true none []
  else if field elf 0 4 ≠ ELF_MAGIC then bad true none []
  else
    match ← procPagetable trapframe with
    | none => bad true none []
    | some pagetable =>
      let (ok, sz) ← loadProgram pagetable file (field elf 56 2) (field elf 32 8 % 2 ^ 32) 0
      if !ok then bad true (some (pagetable, sz)) []
      else
        let calls := [.iunlockput, .endOp]
        let sz := PGROUNDUP sz
        let sz1 ← uvmalloc pagetable sz (sz + (USERSTACK + 1) * PGSIZE) PTE_W
        if sz1 = 0 then bad false (some (pagetable, sz)) calls
        else
          uvmclear pagetable (sz1 - (USERSTACK + 1) * PGSIZE)
          let (sp, calls) ← pushAllCalls me pagetable sz1 argv calls
          match sp with
          | none => bad false (some (pagetable, sz1)) calls
          | some sp => return (some (pagetable, sz1, sp), calls)

def kexecCalls (p : Fin n) (file : Option (List UInt8)) (argv : List (List UInt8)) :
    K n Exec := do
  match file with
  | none => return ⟨-1, [.beginOp, .namei, .endOp], none⟩
  | some file =>
    let me ← myproc p
    let tf ← deref ((← get).mm p).trapframe
    let before := (← get).vm
    let (image, calls) ← onVm (buildImageCalls me tf file argv)
    let after := (← get).vm
    match image with
    | none => return ⟨-1, [.beginOp, .namei, .ilock] ++ calls, some (before, after)⟩
    | some (pagetable, sz, sp) =>
      onVm (modify fun s => s.setWord tf 15 sp)
      modify fun s => s.setMm p { s.mm p with pagetable := some pagetable, sz := sz }
      onVm (modify fun s => s.setWord tf 3 (field (readi file 0 elfhdrSize) 24 8))
      onVm (modify fun s => s.setWord tf 6 sp)
      onVm (procFreepagetable me.pagetable me.sz)
      return ⟨argv.length, [.beginOp, .namei, .ilock] ++ calls ++ [.saveName],
        some (before, after)⟩

def sysExecCalls (p : Fin n) (path uargv : ℕ) (file : Option (List UInt8)) : K n Exec := do
  let me ← myproc p
  match ← onVm (copyinstr me.pagetable path MAXPATH) with
  | none => return ⟨-1, [], none⟩
  | some _ =>
    let (ok, argv) ← onVm (fetchArgs me uargv MAXARG 0 [])
    let ret ← if ok then kexecCalls p file (argv.map Prod.snd) else pure ⟨-1, [], none⟩
    onVm (each kfree (argv.map Prod.fst))
    return ret

/-- The calls from `calls` on are writes to the first `k` entries of `ustack`. -/
def Writes (k : ℕ) (calls calls' : List ExecCall) : Prop :=
  ∃ w, calls' = calls ++ w ∧ ∀ c ∈ w, ∃ i < k, c = .ustack i

omit [Layout] in
lemma Writes.refl (k : ℕ) (calls : List ExecCall) : Writes k calls calls :=
  ⟨[], (List.append_nil _).symm, by simp⟩

omit [Layout] in
lemma Writes.cons {k i : ℕ} {calls calls' : List ExecCall} (hi : i < k)
    (h : Writes k (calls ++ [.ustack i]) calls') : Writes k calls calls' := by
  obtain ⟨w, rfl, hw⟩ := h
  refine ⟨.ustack i :: w, by simp, ?_⟩
  rintro c hc
  rcases List.mem_cons.mp hc with rfl | hc
  · exact ⟨i, hi, rfl⟩
  · exact hw c hc

variable {s : Mach} {me : Myproc} {root base : ℕ}

/-! ### The notes change nothing -/

lemma pushArgsCalls_wp {k : ℕ} {Q : Option (ℕ × List ℕ) → Mach → Prop}
    (argv : List (List UInt8)) (sp : ℕ) (us : List ℕ) (calls : List ExecCall)
    (hk : us.length + argv.length < k) (h : wp (pushArgs me root base argv sp us) s Q) :
    wp (pushArgsCalls me root base argv sp us calls) s fun r u => Q r.1 u ∧ Writes k calls r.2 ∧
      ∀ sp' us', r.1 = some (sp', us') → us'.length = us.length + argv.length := by
  induction argv generalizing s sp us calls with
  | nil =>
    rw [pushArgs, wp_pure] at h
    exact wp_pure.mpr ⟨h, Writes.refl k calls, by rintro _ _ ⟨⟩; simp⟩
  | cons arg argv ih =>
    rw [List.length_cons] at hk ⊢
    rw [pushArgs] at h
    rw [pushArgsCalls]
    dsimp only at h ⊢
    split_ifs at h ⊢
    · exact wp_pure.mpr ⟨wp_pure.mp h, Writes.refl k calls, by simp⟩
    · exact wp_pure.mpr ⟨wp_pure.mp h, Writes.refl k calls, by simp⟩
    · rw [wp_bind] at h ⊢
      refine h.mono fun b u hb => ?_
      cases b with
      | false => exact wp_pure.mpr ⟨wp_pure.mp hb, Writes.refl k calls, by simp⟩
      | true =>
        simp only [Bool.not_true, Bool.false_eq_true, if_false] at hb ⊢
        refine (ih _ _ _ (by simp only [List.length_append, List.length_singleton]; omega)
          hb).mono ?_
        rintro r v ⟨hq, hw, hlen⟩
        refine ⟨hq, Writes.cons (by omega) hw, fun sp' us' hr => ?_⟩
        rw [hlen sp' us' hr, List.length_append, List.length_singleton]
        omega

lemma pushAllCalls_wp {k sz : ℕ} {Q : Option ℕ → Mach → Prop} (argv : List (List UInt8))
    (calls : List ExecCall) (hk : argv.length < k) (h : wp (pushAll me root sz argv) s Q) :
    wp (pushAllCalls me root sz argv calls) s fun r u => Q r.1 u ∧ Writes k calls r.2 := by
  rw [pushAll, wp_bind] at h
  rw [pushAllCalls, wp_bind]
  refine (pushArgsCalls_wp argv sz [] calls (by simpa using hk) h).mono ?_
  rintro ⟨r, calls'⟩ u ⟨hq, hw, hlen⟩
  cases r with
  | none => exact wp_pure.mpr ⟨wp_pure.mp hq, hw⟩
  | some r =>
    obtain ⟨sp, us⟩ := r
    have hus := hlen sp us rfl
    rw [List.length_nil, zero_add] at hus
    have hw' : Writes k calls (calls' ++ [.ustack us.length]) := by
      obtain ⟨w, rfl, hwi⟩ := hw
      refine ⟨w ++ [.ustack us.length], by simp, fun c hc => ?_⟩
      rcases List.mem_append.mp hc with hc | hc
      · exact hwi c hc
      · exact ⟨us.length, by omega, List.mem_singleton.mp hc⟩
    dsimp only at hq ⊢
    split_ifs at hq ⊢
    · exact wp_pure.mpr ⟨wp_pure.mp hq, hw'⟩
    · rw [wp_bind] at hq ⊢
      refine hq.mono fun b v hb => ?_
      cases b with
      | false | true => exact wp_pure.mpr ⟨wp_pure.mp hb, hw'⟩

lemma buildImageCalls_wp {k tf : ℕ} {file : List UInt8} {argv : List (List UInt8)}
    {Q : Option (ℕ × ℕ × ℕ) → Mach → Prop} (hk : argv.length < k)
    (h : wp (buildImage me tf file argv) s Q) :
    wp (buildImageCalls me tf file argv) s fun r u => Q r.1 u ∧
      Writes k [.iunlockput, .endOp] r.2 := by
  rw [buildImage] at h
  rw [buildImageCalls]
  dsimp only at h ⊢
  split_ifs at h ⊢
  · exact wp_pure.mpr ⟨wp_pure.mp h, Writes.refl _ _⟩
  · exact wp_pure.mpr ⟨wp_pure.mp h, Writes.refl _ _⟩
  · rw [wp_bind] at h ⊢
    refine h.mono fun r u hr => ?_
    cases r with
    | none => exact wp_pure.mpr ⟨wp_pure.mp hr, Writes.refl _ _⟩
    | some pagetable =>
      dsimp only at hr ⊢
      rw [wp_bind] at hr ⊢
      refine hr.mono fun r v hv => ?_
      obtain ⟨ok, sz⟩ := r
      cases ok with
      | false =>
        simp only [Bool.not_false, if_true, bad, whenSome, wp_bind] at hv ⊢
        exact hv.mono fun _ w hw => wp_pure.mpr ⟨wp_pure.mp hw, Writes.refl _ _⟩
      | true =>
        simp only [Bool.not_true, Bool.false_eq_true, if_false] at hv ⊢
        rw [wp_bind] at hv ⊢
        refine hv.mono fun sz1 w hw => ?_
        split_ifs at hw ⊢
        · simp only [bad, whenSome, wp_bind] at hw ⊢
          exact hw.mono fun _ x hx => wp_pure.mpr ⟨wp_pure.mp hx, Writes.refl _ _⟩
        · rw [wp_bind] at hw ⊢
          refine hw.mono fun _ x hx => ?_
          rw [wp_bind] at hx ⊢
          refine (pushAllCalls_wp argv _ hk hx).mono ?_
          rintro ⟨r, calls⟩ y ⟨hy, hwr⟩
          cases r with
          | none =>
            simp only [bad, whenSome, wp_bind] at hy ⊢
            exact hy.mono fun _ z hz => wp_pure.mpr ⟨wp_pure.mp hz, hwr⟩
          | some sp => exact wp_pure.mpr ⟨wp_pure.mp hy, hwr⟩

/-! ### All or nothing -/

/-- The inode is put, its lock released and the transaction ended wherever they were taken,
no entry of `ustack` beyond `MAXARG` is written, and only success changes the name. -/
def Released (ret : ℤ) (calls : List ExecCall) : Prop :=
  ret = -1 ∧ (calls = [] ∨ calls = [.beginOp, .namei, .endOp]) ∨
    ∃ w, (∀ c ∈ w, ∃ i < MAXARG, c = .ustack i) ∧
      calls = [.beginOp, .namei, .ilock, .iunlockput, .endOp] ++ w ++
        if ret = -1 then [] else [.saveName]

variable {y : Sys n} {p : Fin n} {t tf : ℕ}

lemma kexecCalls_wp {Q : ℤ → Sys n → Prop} {B : Mach → Mach → Prop}
    {file : Option (List UInt8)} {argv : List (List UInt8)} (hk : argv.length < MAXARG)
    (ht : (y.mm p).pagetable = some t) (htf : (y.mm p).trapframe = some tf)
    (h : wp (kexec p file argv) y Q)
    (hB : ∀ f, wp (buildImage ⟨(y.mm p).sz, t⟩ tf f argv) y.vm fun _ u => B y.vm u) :
    wp (kexecCalls p file argv) y fun r y' => Q r.ret y' ∧ Released r.ret r.calls ∧
      ∀ before after, r.built = some (before, after) → B before after := by
  cases file with
  | none => exact wp_pure.mpr ⟨wp_pure.mp h, .inl ⟨rfl, .inr rfl⟩, by simp⟩
  | some file =>
    simp only [kexec, wp_bind, wp_myproc ht, wp_get, htf, deref, wp_pure] at h
    simp only [kexecCalls, wp_bind, wp_myproc ht, wp_get, htf, deref, wp_pure]
    rw [onVm, wp_zoom] at h ⊢
    refine (buildImageCalls_wp hk (h.and (hB file))).mono ?_
    rintro ⟨r, calls⟩ u ⟨⟨hq, hb⟩, w, rfl, hw⟩
    cases r with
    | none =>
      refine wp_pure.mpr ⟨wp_pure.mp hq, .inr ⟨w, hw, by simp⟩, ?_⟩
      rintro _ _ ⟨⟩
      exact hb
    | some r =>
      obtain ⟨root, sz, sp⟩ := r
      simp only [wp_bind, wp_zoom, wp_modify, onVm] at hq ⊢
      refine hq.mono fun _ z hz => wp_pure.mpr ⟨wp_pure.mp hz, .inr ⟨w, hw, ?_⟩, ?_⟩
      · rw [if_neg (show (argv.length : ℤ) ≠ -1 by omega)]
        simp
      · rintro _ _ ⟨⟩
        exact hb

/-- What a failed `exec` leaves: the fields of the process, its trapframe, every byte it can
read and every entry of its page table for a page that was there. All pages that are neither
free nor in the process are as before, and where no page has to be faulted in, so are those. -/
structure Failed (s : Sys n) (p : Fin n) (t : ℕ) (s' : Sys n) : Prop where
  only : s' = { s with vm := s'.vm }
  frame : ∀ tf, (s.mm p).trapframe = some tf → s'.vm.mem tf = s.vm.mem tf
  entries : ∀ a < 512 ^ 3, has (mappings s.vm t a) PTE_V ∨ pages (s.mm p).sz ≤ a →
    mappings s'.vm t a = mappings s.vm t a
  bytes : SameBytes s.vm (mappings s.vm t) s'.vm (mappings s'.vm t)
  others : Same (others s p) s.vm s'.vm
  pages : (s'.vm.freelist : Multiset ℕ) + procPages s'.vm (s.mm p) =
    s.vm.freelist + procPages s.vm (s.mm p)
  dense : Dense (mappings s.vm t) (s.mm p).sz →
    (s'.vm.freelist : Multiset ℕ) = s.vm.freelist ∧ mappings s'.vm t = mappings s.vm t

omit [Layout] in
lemma others_vm {v : Mach} (h : Same (others y p) y.vm v) :
    others { y with vm := v } p = others y p :=
  Frame.others ⟨h, fun _ _ => rfl, fun _ _ => rfl, rfl, rfl⟩

lemma failed_of {r : Bool × List (ℕ × List UInt8)} {u v : Mach} {e' : ℕ → ℕ} {k : ℕ}
    (h : Safe y) (h' : Safe { y with vm := v }) (ht : (y.mm p).pagetable = some t)
    (htf : (y.mm p).trapframe = some tf)
    (hf : Fetches t (y.mm p).sz ({tf} + (others y p + 0)) y.vm (mappings y.vm t) k r u e')
    (hv : Same (procPages u (y.mm p) + others y p) u v) :
    Failed y p t { y with vm := v } := by
  have hmap := mappings_eq hf.fetched.user.table
  have htabs := hv.mono ((tables_le_procPages (v := u) ht).trans (Multiset.le_add_right _ _))
  have hmap' : mappings v t = mappings u t := mappings_congr htabs
  have hprocs : procPages v (y.mm p) = procPages u (y.mm p) :=
    procPages_congr hv.left
  have hothers : Same (others y p) y.vm v := by
    refine (hf.same.mono ?_).trans hv.right
    rw [add_zero]
    exact Multiset.le_add_left _ _
  have hfree : (v.freelist : Multiset ℕ) + procPages v (y.mm p) =
      y.vm.freelist + procPages y.vm (y.mm p) := by
    have ho := (h.rest p).2
    have ho' := (h'.rest p).2
    rw [others_vm hothers] at ho'
    rw [Owns, ← add_assoc] at ho ho'
    exact add_right_cancel (ho'.trans ho.symm)
  refine ⟨rfl, fun tf' htf' => ?_, fun a ha hor => ?_, fun va hva => ?_, hothers, hfree,
    fun hd => ?_⟩
  · obtain rfl : tf = tf' := Option.some.inj (htf.symm.trans htf')
    refine (hv tf ?_).trans (hf.same tf ?_)
    · rw [procPages_eq ht htf]
      simp
    · simp
  · rw [hmap', hmap a ha]
    rcases hor with hor | hor
    · exact hf.filled.keep a hor
    · exact hf.filled.high a hor
  · have hleaves : leaves (mappings u t) ≤ procPages u (y.mm p) + others y p := by
      rw [procPages_eq ht htf]
      exact (Multiset.le_add_left _ _).trans
        ((Multiset.le_add_right _ _).trans (Multiset.le_add_right _ _))
    calc byteAt v (mappings v t) va = byteAt v (mappings u t) va := by rw [hmap']
      _ = byteAt u (mappings u t) va := sameBytes_of_same (hv.mono hleaves) va hva
      _ = byteAt u e' va := byteAt_mappings hf.fetched.user.table hva
      _ = byteAt y.vm (mappings y.vm t) va := hf.bytes va hva
  · have htab := hf.dense hd
    have hm : mappings u t = mappings y.vm t := mappings_congr htab
    refine ⟨?_, hmap'.trans hm⟩
    have hsame : procPages u (y.mm p) = procPages y.vm (y.mm p) := by
      rw [procPages_eq ht htf, procPages_eq ht htf, tables_same htab, hm]
    rw [hprocs, hsame] at hfree
    exact add_right_cancel hfree

section Arguments

variable {r : Bool × List (ℕ × List UInt8)} {u : Mach} {e' : ℕ → ℕ} {k : ℕ}

lemma fetched_inv (h : Safe y) (ht : (y.mm p).pagetable = some t)
    (htf : (y.mm p).trapframe = some tf) (hsp : Space (mappings y.vm t) (y.mm p).sz tf)
    (hf : Fetches t (y.mm p).sz ({tf} + (others y p + 0)) y.vm (mappings y.vm t) k r u e') :
    Inv { y with vm := u } (fdRefs y.mm) (↑(r.2.map Prod.fst) + 0)
      fun i => (y.mm i).trapframe := by
  refine h.touch ht htf (hf.same.mono ?_) ?_ (hsp.fill hf.filled)
  · exact (Multiset.le_add_right _ _).trans (Multiset.le_add_left _ _)
  · refine cast (congrArg (Table u t e') ?_) hf.fetched.user.table
    abel

lemma fetched_others {v : Mach}
    (hf : Fetches t (y.mm p).sz ({tf} + (others y p + 0)) y.vm (mappings y.vm t) k r u e')
    (hv : Same (others y p) u v) : others { y with vm := v } p = others y p := by
  refine others_vm ((hf.same.mono ?_).trans hv)
  exact (Multiset.le_add_right _ _).trans (Multiset.le_add_left _ _)

lemma freeArgs_spec (ret : Exec) {y₁ : Sys n} (h : Safe y) (ht : (y.mm p).pagetable = some t)
    (htf : (y.mm p).trapframe = some tf)
    (hf : Fetches t (y.mm p).sz ({tf} + (others y p + 0)) y.vm (mappings y.vm t) k r u e')
    (h₁ : Inv y₁ (fdRefs y.mm) (↑(r.2.map Prod.fst) + 0) fun i => (y.mm i).trapframe)
    (hq : Quiet y y₁) (hrel : Released ret.ret ret.calls)
    (hbuilt : ∀ before after, ret.built = some (before, after) →
      Same (procPages before (y.mm p)) before after)
    (hfail : ret.ret = -1 → ∃ v, y₁ = { y with vm := v } ∧
      Same (procPages u (y.mm p) + others y p) u v) :
    wp (do
      onVm (each kfree (r.2.map Prod.fst))
      pure ret) y₁ fun r y' => Safe y' ∧ Released r.ret r.calls ∧
        (∀ before after, r.built = some (before, after) →
          Same (procPages before (y.mm p)) before after) ∧
        (r.ret = -1 → Failed y p t y') := by
  have ho := (h₁.rest p).2
  rw [← add_assoc, add_left_comm] at ho
  rw [wp_bind, onVm, wp_zoom]
  refine (each_kfree_wp _ ho).mono ?_
  rintro _ v ⟨hsv, hov⟩
  rw [add_assoc] at hov
  rw [add_zero] at hsv
  have hv := Inv.safe (pages_inv h₁ hsv hov) (fdRefs_congr hq).symm
  refine wp_pure.mpr ⟨hv, hrel, hbuilt, fun hret => ?_⟩
  obtain ⟨x, rfl, hx⟩ := hfail hret
  have hox := fetched_others hf hx.right
  have hpx : procPages x (y.mm p) = procPages u (y.mm p) :=
    procPages_congr hx.left
  dsimp only at hsv
  rw [hox, hpx] at hsv
  exact failed_of h hv ht htf hf (hx.trans hsv)

end Arguments

/-- **Exec is all or nothing.** For every content of the file, every path and argument vector,
and wherever `kalloc` fails, as long as no size goes beyond the trapframe: `sys_exec` returns.
The inode, its lock and the transaction are released, and `ustack` is written within its
`MAXARG` entries. While the image is built the pages of the process, page table included, stay
as they are, and if the call fails, nothing has happened but that the arguments may have been
faulted in. -/
theorem exec_all_or_nothing (hr : Reach step Bounded Start y)
    (hst : (y.tbl.procs p).state ≠ .UNUSED) (path uargv : ℕ) (file : Option (List UInt8)) :
    ∃ t, (y.mm p).pagetable = some t ∧ wp (sysExecCalls p path uargv file) y fun r y' =>
      Safe y' ∧ Released r.ret r.calls ∧
      (∀ before after, r.built = some (before, after) →
        Same (procPages before (y.mm p)) before after) ∧
      (r.ret = -1 → Failed y p t y') := by
  have h := reach_safe hr
  obtain ⟨t, ht⟩ := used_table h hst
  obtain ⟨tf, htf, hsp, hT⟩ := h.table ht
  refine ⟨t, ht, ?_⟩
  rw [sysExecCalls, wp_bind, wp_myproc ht, wp_bind]
  have hfetched : Fetched y.vm t (mappings y.vm t) (y.mm p).sz ({tf} + (others y p + 0)) [] := by
    refine ⟨?_, by simp⟩
    rw [List.map_nil, Multiset.coe_nil, zero_add]
    exact hsp.userTable hT
  refine (copyinstr_inv h ht path MAXPATH).mono fun r s₀ hs₀ => ?_
  rw [hs₀]
  cases r with
  | none =>
    refine wp_pure.mpr ⟨h, .inl ⟨rfl, .inl rfl⟩, by simp, fun _ => ?_⟩
    exact failed_of h h ht htf (k := MAXARG) (r := (false, []))
      (fetches_refl hfetched (by simp)) (Same.refl _ _)
  | some str =>
    rw [wp_bind, onVm, wp_zoom]
    refine (fetchArgs_spec uargv MAXARG 0 [] hfetched).mono ?_
    rintro ⟨ok, argv⟩ u ⟨e, hf⟩
    have hu := fetched_inv h ht htf hsp hf
    have hou := fetched_others hf (Same.refl _ _)
    cases ok with
    | false =>
      exact freeArgs_spec ⟨-1, [], none⟩ h ht htf hf hu (fun _ => rfl) (.inl ⟨rfl, .inl rfl⟩)
        (by simp) fun _ => ⟨u, rfl, Same.refl _ _⟩
    | true =>
      have hcount : (argv.map Prod.snd).length < MAXARG := by
        rw [List.length_map]
        simpa using hf.count rfl
      have hbuild : ∀ f, wp (buildImage ⟨(y.mm p).sz, t⟩ tf f (argv.map Prod.snd)) u
          fun _ v => Same (procPages u (y.mm p)) u v := by
        intro f
        have ho := (hu.rest p).2
        have hframe : tf ∈ procPages u (y.mm p) := by
          rw [procPages_eq ht htf]
          simp
        have htf52 := allocatable_lt (ho.mem (Multiset.mem_add.mpr (.inl hframe)))
        exact (buildImage_wp ho htf52 hf.fetched.short).mono fun _ v hv =>
          hv.1.left
      dsimp only
      rw [if_pos rfl, wp_bind]
      refine (kexecCalls_wp (y := { y with vm := u })
        (B := fun before after => Same (procPages before (y.mm p)) before after) hcount ht htf
        (kexec_wp hu ht htf file hf.fetched.short) hbuild).mono ?_
      rintro r y₁ ⟨⟨h₁, hq, -, -, -, hfail, -⟩, hrel, hbuilt⟩
      refine freeArgs_spec r h ht htf hf h₁ hq hrel hbuilt fun hret => ?_
      obtain ⟨x, rfl, hx⟩ := hfail hret
      refine ⟨x, rfl, hx.mono ?_⟩
      rw [hou, ← add_assoc]
      exact Multiset.le_add_right _ _

/-! ### Beyond the addresses -/

variable {e : ℕ → ℕ} {u v : Mach} {va : ℕ}

omit [Layout] in
lemma stringAt_same {k : ℕ} (hs : Same (leaves e) u v) (h : StringAt u e va k) :
    StringAt v e va k := by
  have hbyte : ∀ i ≤ k, byteAt v e (va + i) = byteAt u e (va + i) := fun i hi =>
    sameBytes_of_same hs _ (h.1 i hi).1
  refine ⟨h.1, (hbyte k le_rfl).trans h.2.1, fun i hi => ?_⟩
  rw [hbyte i (by omega)]
  exact h.2.2 i hi

omit [Layout] in
lemma copyinstr_some {k max : ℕ} (hM : Maps v root e)
    (huser : ∀ a < 512 ^ 3, has (e a) PTE_V → has (e a) PTE_U → a < UPAGES) (hk : k < max)
    (h : StringAt v e va k) : ∃ str, copyinstr root va max v = .ok (some str, v) := by
  obtain ⟨r, acc, w, hrun, -, rfl, -, hnone, -⟩ := run_fst (copyinstrAcc_fst max va max [] [])
    (copyinstrAcc_spec hM huser max va le_rfl [] [])
  cases r with
  | none => exact absurd h (hnone rfl k hk)
  | some str => exact ⟨str, hrun⟩

omit [Layout] in
lemma stringAt_of_copyinstr {max : ℕ} {str : List UInt8} {w : Mach} (hM : Maps v root e)
    (huser : ∀ a < 512 ^ 3, has (e a) PTE_V → has (e a) PTE_U → a < UPAGES)
    (h : copyinstr root va max v = .ok (some str, w)) : ∃ k < max, StringAt v e va k := by
  obtain ⟨r, acc, w', hrun, -, rfl, hsome, -⟩ := run_fst (copyinstrAcc_fst max va max [] [])
    (copyinstrAcc_spec hM huser max va le_rfl [] [])
  rw [copyinstr, hrun] at h
  cases h
  obtain ⟨k, hk, hs, -⟩ := hsome str rfl
  exact ⟨k, hk, hs⟩

lemma exec_walk {k path : ℕ} (hst : (y.tbl.procs p).state = .RUNNABLE) (hf : y.first = false)
    (ht : (y.mm p).pagetable = some t) (hsz : (y.mm p).sz = MAXVA + 8) (hM : Maps y.vm t e)
    (huser : ∀ a < 512 ^ 3, has (e a) PTE_V → has (e a) PTE_U → a < UPAGES) (hk : k < MAXPATH)
    (hpath : StringAt y.vm e path k) (file : Option (List UInt8)) :
    enabled y ⟨p, .exec path MAXVA file, fun _ => false⟩ ∧
      outcome y ⟨p, .exec path MAXVA file, fun _ => false⟩ = .error .walk := by
  refine ⟨by simp [enabled, hst, hf, Call.isForkret], ?_⟩
  have hfault : ∀ v : Mach, fetchArgs ⟨(y.mm p).sz, t⟩ MAXVA MAXARG 0 [] v = .error .walk := by
    intro v
    have hdown : PGROUNDDOWN MAXVA = MAXVA := by decide
    have hmod : (MAXVA + 8 * 0) % 2 ^ 64 = MAXVA := by decide
    have hin : ¬ (MAXVA + 8 ≤ MAXVA ∨ MAXVA + 8 < (MAXVA + 8) % 2 ^ 64) := by decide
    have haddr : walkaddr t MAXVA = pure none := by rw [walkaddr, if_pos le_rfl]
    have hvm : vmfault ⟨MAXVA + 8, t⟩ t MAXVA v = .error .walk := by
      rw [vmfault, if_neg (by simp), hdown, ismapped, walk, if_pos le_rfl]
      rfl
    have hpage : userPage ⟨MAXVA + 8, t⟩ t MAXVA v = .error .walk := by
      rw [userPage, haddr, pure_bind]
      exact hvm
    rw [hsz, MAXARG, fetchArgs, fetchaddr, hmod, if_neg hin, copyin, copyinLoop,
      if_neg (by decide), hdown]
    exact bind_error (bind_error (bind_error hpage))
  obtain ⟨str, hstr⟩ : ∃ str,
      copyinstr t path MAXPATH (sure y.vm) = .ok (some str, sure y.vm) :=
    copyinstr_some hM huser hk hpath
  have hwp : wpOr (· = .walk) (sysExec p path MAXVA file) (calm y) fun _ _ => False := by
    have hme : wp (myproc p) (calm y)
        fun me y' => me = ⟨(y.mm p).sz, t⟩ ∧ y' = calm y :=
      (wp_myproc (s := calm y) ht).mpr ⟨rfl, rfl⟩
    rw [sysExec]
    refine wp.bindOr hme ?_
    rintro _ _ ⟨rfl, rfl⟩
    refine wp.bindOr (Q := fun r y' => r = some str ∧ y' = calm y)
      (wp_zoom.mpr ⟨_, _, hstr, rfl, rfl⟩) ?_
    rintro _ _ ⟨rfl, rfl⟩
    exact wpOr_stop (zoom_error (hfault _)) rfl
  rcases hwp with ⟨e, he, rfl⟩ | ⟨_, _, -, hfalse⟩
  · have hrun : perform p (.exec path MAXVA file) (calm y) = .error .walk := by
      change (sysExec p path MAXVA file >>= fun _ => pure PUnit.unit) _ = _
      exact bind_error he
    rw [outcome, hrun]
    rfl
  · exact hfalse.elim

end

/-- Whether the path of the first program can be read in its own image. -/
def readsPath (x : ℕ × ℕ × ℕ) (u : Mach) : Bool :=
  match copyinstr x.1 12272 MAXPATH u with
  | .ok (some _, _) => true
  | _ => false

set_option maxRecDepth 100000 in
lemma builds_path : builds emptyElf initArgv readsPath = true := by decide +kernel

lemma started_path : ∃ s s' : Sys 4, ∃ t e k, Start s ∧
    step s ⟨0, .forkret (some emptyElf), fun _ => false⟩ = some s' ∧
    (s'.tbl.procs 0).state = .RUNNABLE ∧ s'.first = false ∧ (s'.mm 0).pagetable = some t ∧
    Maps s'.vm t e ∧ (∀ a < 512 ^ 3, has (e a) PTE_V → has (e a) PTE_U → a < UPAGES) ∧
    k < MAXPATH ∧ StringAt s'.vm e 12272 k := by
  obtain ⟨s, t, tf, hstart, hfirst, hst, ht, htf, x, u, hx, himg⟩ := builds_image builds_path
  unfold readsPath at hx
  split at hx
  · rename_i str w hstr
    obtain ⟨s', y, e, hstep, htbl, hf, hex⟩ :=
      forkret_step (start_safe hstart) hst hfirst ht htf himg
    obtain ⟨R, hT⟩ := hex.table
    have huser := (hex.space.userTable hT).user
    obtain ⟨k, hk, hpath⟩ := stringAt_of_copyinstr hT.entries huser hstr
    refine ⟨s, s', x.1, e, k, hstart, hstep, by rw [htbl]; exact hst, hf, ?_, ?_, huser, hk,
      stringAt_same hex.same.right hpath⟩
    · rw [hex.mm]
    · exact hT.entries.congr hex.same.left
  · cases hx

theorem exec_all_or_nothing_started : ∃ s : Sys 4, Reach step Bounded Start s ∧
    ∃ t e k, (s.mm 0).pagetable = some t ∧ Maps s.vm t e ∧ StringAt s.vm e 12272 k ∧
      wp (sysExecCalls 0 12272 12256 (some (segmentElf 120))) s fun r s' =>
        Safe s' ∧ Released r.ret r.calls ∧ (r.ret = -1 → Failed s 0 t s') := by
  obtain ⟨s, s', t, e, k, hstart, hstep, hst, -, ht, hM, -, -, hpath⟩ := started_path
  have hr : Reach step Bounded Start s' := .step (.init hstart) (by simp [Bounded]) hstep
  obtain ⟨t', ht', hwp⟩ := exec_all_or_nothing hr (p := 0) (by simp [hst]) 12272 12256
    (some (segmentElf 120))
  obtain rfl : t = t' := Option.some.inj (ht.symm.trans ht')
  exact ⟨s', hr, t, e, k, ht, hM, hpath, hwp.mono fun _ _ h => ⟨h.1, h.2.1, h.2.2.2⟩⟩

/-- **`exec` of a process larger than the addresses panics.** After enough `sbrk`s that
allocate nothing, a process has a size above `MAXVA`. With an argument vector just there,
`exec` ends in the panic of `walk`. -/
theorem exec_panics : ∃ s : Sys 4, Reach step Always Start s ∧ (s.mm 0).sz = MAXVA + 8 ∧
    enabled s ⟨0, .exec 12272 MAXVA (some emptyElf), fun _ => false⟩ ∧
    outcome s ⟨0, .exec 12272 MAXVA (some emptyElf), fun _ => false⟩ = .error .walk := by
  obtain ⟨s, s', t, e, k, hstart, hstep, hst, hf, ht, hM, huser, hk, hpath⟩ := started_path
  have hsafe : Safe s' := Inv.safe (step_safe (start_safe hstart) (by simp [Bounded]) hstep) rfl
  obtain ⟨tf, htf, hsp, hT⟩ := hsafe.table ht
  have hsize := hsp.size
  have hreach : Reach step Always Start s' := .step (.init hstart) trivial hstep
  have hsum : (s'.mm 0).sz + (MAXVA + 8 - (s'.mm 0).sz) = MAXVA + 8 := by
    unfold TRAPFRAME TRAMPOLINE at hsize
    omega
  obtain ⟨s'', hr, hm, hfree, htbl, hfi, hmm⟩ := grow_reach hreach hst hf 200
    (g := MAXVA + 8 - (s'.mm 0).sz) (by unfold MAXVA; omega)
    (by rw [hsum]; decide)
  have hsz : (s''.mm 0).sz = MAXVA + 8 := by
    rw [hmm]
    exact hsum
  refine ⟨s'', hr, hsz, exec_walk (by rw [htbl]; exact hst) (by rw [hfi]; exact hf)
    (by rw [hmm]; exact ht) hsz ?_ huser hk ?_ (some emptyElf)⟩
  · unfold Maps
    rw [hm]
    exact hM
  · unfold StringAt byteAt
    rw [hm]
    exact hpath

end Xv6.ExecSafe
